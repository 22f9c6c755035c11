import MeowRs.Globs
import MeowRs.IpAddr
import MeowRs.Numerals

/-!
# Connections and the world of the rules

The metadata of a connection that rules look at, the answers about targets, and what rules take from
outside the program: the platform, the Unicode case mappings, the regular-expression engine and the
text form of networks.  The properties that the documentation of these promises are fields.
-/

namespace MeowRs

open Text

inductive Network where
  | tcp
  | udp
  deriving DecidableEq, Repr

inductive ConnType where
  | http
  | https
  | socks4
  | socks5
  | shadowsocks
  | vmess
  | vless
  | redir
  | tproxy
  | trojan
  | tun
  | tunnel
  | tuic
  | hysteria2
  | inner
  deriving DecidableEq, Repr

structure Metadata where
  network : Network
  connType : ConnType
  srcIp : Option IpAddr
  dstIp : Option IpAddr
  srcPort : Nat
  dstPort : Nat
  host : Text
  process : Text
  processPath : Text
  uid : Option Nat
  dscp : Option Nat
  srcGeoIp : List Text
  dstGeoIp : List Text
  sniffHost : Text
  inName : Text
  inPort : Nat
  inUser : Option Text

namespace Metadata

/-- The host that rules look at: the sniffed one when there is one, without trailing dots. -/
def ruleHost (metadata : Metadata) : Text :=
  if metadata.sniffHost.isEmpty then trimEndDots metadata.host
  else trimEndDots metadata.sniffHost

def resolved (metadata : Metadata) : Bool :=
  metadata.dstIp.isSome

def swapSrcDst (metadata : Metadata) : Metadata :=
  { metadata with
    srcIp := metadata.dstIp
    dstIp := metadata.srcIp
    srcPort := metadata.dstPort
    dstPort := metadata.srcPort
    srcGeoIp := metadata.dstGeoIp
    dstGeoIp := metadata.srcGeoIp }

def ip (metadata : Metadata) (src : Bool) : Option IpAddr :=
  if src then metadata.srcIp else metadata.dstIp

end Metadata

/-- The verdict on the target of a rule that matched. -/
inductive TargetCheck where
  | usable
  | missing
  | pass
  deriving DecidableEq, Repr

structure TargetProbe where
  check : Text → TargetCheck
  isPassRule : Text → Bool

/-- What the program is compiled for, and whether the inbound supplies process information;
`fileName` is the platform's last component of a path. -/
structure Platform where
  isLinux : Bool
  processLookupSupported : Bool
  inboundProcessInfo : Bool
  fileName : Text → Option Text

namespace Platform

def processInfoAvailable (platform : Platform) : Bool :=
  platform.processLookupSupported || platform.inboundProcessInfo

def uidInfoAvailable (platform : Platform) : Bool :=
  platform.isLinux || platform.inboundProcessInfo

end Platform

/-- The Unicode case mappings of strings. -/
structure CaseMapping where
  toLowercase : Text → Text
  toUppercase : Text → Text
  toLowercase_ascii : ∀ {text : Text}, isAscii text = true →
    toLowercase text = toAsciiLowercase text
  toUppercase_ascii : ∀ {text : Text}, isAscii text = true →
    toUppercase text = toAsciiUppercase text

/-- The bytes with a meaning in a regular expression. -/
def isRegexMetaByte (byte : UInt8) : Bool :=
  byte ∈ ofString "\\.+*?()|[]\x7b\x7d^$"

/-- The Kelvin sign and the long s: the characters outside ASCII that case folding identifies with
ASCII letters. -/
def asciiFoldingCharacters : List Text :=
  [[0xe2, 0x84, 0xaa], [0xc5, 0xbf]]

/-- Whether a pattern has no character that folds to an ASCII letter from outside ASCII. -/
def foldsPlainly (pattern : Text) : Prop :=
  ∀ character ∈ asciiFoldingCharacters, ¬ character <:+: pattern

/-- The regular-expression engine.  `glob star pattern` compiles `^(?i)…$` around the escaped
pattern, with every escaped `*` replaced by `star`. -/
structure RegexEngine where
  Regex : Type
  new : Text → Option Regex
  glob : Text → Text → Option Regex
  isMatch : Regex → Text → Bool
  isMatch_literal : ∀ {pattern : Text} {regex : Regex} {text : Text}, pattern ≠ [] →
    (∀ byte ∈ pattern, isRegexMetaByte byte = false) → new pattern = some regex →
      isMatch regex text = true → pattern <:+: text
  isMatch_glob : ∀ {pattern : Text} {regex : Regex} {text : Text}, foldsPlainly pattern →
    glob (ofString "[^.]+") pattern = some regex → isAscii text = true →
      (isMatch regex text = true ↔
        Glob.Matches byteToAsciiLowercase dot (pattern.splitOn 0x2a) text)

/-- Reading and printing networks. -/
structure NetText where
  parse : Text → Option IpNet
  display : IpNet → Text
  parse_display : ∀ net, parse (display net) = some net

end MeowRs
