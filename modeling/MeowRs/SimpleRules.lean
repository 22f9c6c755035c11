import MeowRs.Geosite
import MeowRs.PortMatcher

/-!
# Simple rules

The rules without rules inside.  A rule keeps the text it was written with and what it was parsed
into; the parsed part is tied to the text by a proof, as the constructors of the source do it.
Shared tables are referred to by their addresses.
-/

namespace MeowRs

open Text

inductive RuleSetBehavior where
  | domain
  | ipCidr
  | classical
  deriving DecidableEq, Repr

/-- A loaded rule set; its content matters only through its answers. -/
structure RuleSet where
  behavior : RuleSetBehavior
  accepts : Metadata → Bool
  shouldResolveIp : Bool
  shouldFindProcess : Bool

/-- Intervals by their bounds, in increasing order. -/
structure IntervalTable where
  starts : List Nat
  ends : List Nat

namespace IntervalTable

def contains (table : IntervalTable) (addr : Nat) : Bool :=
  let index := Intervals.partitionPoint (· ≤ addr) table.starts
  0 < index && (table.ends[index - 1]?).any (addr ≤ ·)

def isEmpty (table : IntervalTable) : Bool :=
  table.starts.isEmpty

theorem contains_of_isEmpty {table : IntervalTable} (he : table.isEmpty = true) (addr : Nat) :
    table.contains addr = false := by
  rw [isEmpty, List.isEmpty_iff] at he
  simp [contains, he, Intervals.partitionPoint]

end IntervalTable

structure IpRangeSet where
  v4 : IntervalTable
  v6 : IntervalTable

namespace IpRangeSet

def contains (ranges : IpRangeSet) : IpAddr → Bool
  | .v4 value => ranges.v4.contains value.toNat
  | .v6 value => ranges.v6.contains value.toNat

def isEmpty (ranges : IpRangeSet) : Bool :=
  ranges.v4.isEmpty && ranges.v6.isEmpty

theorem contains_of_isEmpty {rs : IpRangeSet} (he : rs.isEmpty = true) (ip : IpAddr) :
    rs.contains ip = false := by
  rw [isEmpty, Bool.and_eq_true] at he
  cases ip with
  | v4 v => exact IntervalTable.contains_of_isEmpty he.1 _
  | v6 v => exact IntervalTable.contains_of_isEmpty he.2 _

end IpRangeSet

/-- The surroundings of a rule list: the platform, code outside the program, and the shared tables by
their addresses. -/
structure Runtime where
  platform : Platform
  cases : CaseMapping
  regex : RegexEngine
  nets : NetText
  ruleSets : Nat → RuleSet
  ipRangeSets : Nat → IpRangeSet
  geositeDbs : Nat → GeositeDb regex.Regex

section Matchers

/-- Whether a host is a domain or lies below it. -/
def domainSuffixMatches (host suffix : Text) : Bool :=
  if host.length = suffix.length then eqIgnoreAsciiCase host suffix
  else if suffix.length < host.length then
    let dotPos := host.length - suffix.length - 1
    host[dotPos]? == some dot && eqIgnoreAsciiCase (host.drop (dotPos + 1)) suffix
  else false

def windows (size : Nat) (text : Text) : List Text :=
  (text.tails.filter (size ≤ ·.length)).map (·.take size)

def domainKeywordMatches (host keyword : Text) : Bool :=
  if keyword.isEmpty then true
  else if host.length < keyword.length then false
  else (windows keyword.length host).any (eqIgnoreAsciiCase · keyword)

/-- The connection types an IN-TYPE rule accepts. -/
structure InTypeMask where
  http : Bool
  https : Bool
  socks5 : Bool
  tproxy : Bool
  inner : Bool
  deriving DecidableEq, Repr

namespace InTypeMask

def ofName (name : Text) : Option InTypeMask :=
  if name = ofString "HTTP" then some ⟨true, true, false, false, false⟩
  else if name = ofString "HTTPS" then some ⟨false, true, false, false, false⟩
  else if name = ofString "SOCKS5" then some ⟨false, false, true, false, false⟩
  else if name = ofString "TPROXY" then some ⟨false, false, false, true, false⟩
  else if name = ofString "INNER" then some ⟨false, false, false, false, true⟩
  else none

def accepts (mask : InTypeMask) : ConnType → Bool
  | .http => mask.http
  | .https => mask.https
  | .socks5 => mask.socks5
  | .tproxy => mask.tproxy
  | .inner => mask.inner
  | _ => false

end InTypeMask

def Network.ofName (name : Text) : Option Network :=
  if name = ofString "tcp" then some .tcp
  else if name = ofString "udp" then some .udp
  else none

/-- A DSCP value has six bits. -/
def parseDscp (text : Text) : Option Nat :=
  (parseUnsigned 256 (trim text)).filter (· ≤ 63)

def parseUid (text : Text) : Option Nat :=
  parseUnsigned (2 ^ 32) (trim text)

/-- The low bits of an address that an IP-SUFFIX rule compares. -/
inductive IpSuffixMatcher where
  | v4 (suffix mask : BitVec 32)
  | v6 (suffix mask : BitVec 128)

def IpSuffixMatcher.accepts : IpSuffixMatcher → IpAddr → Bool
  | .v4 suffix mask, .v4 ip => ip &&& mask == suffix
  | .v6 suffix mask, .v6 ip => ip &&& mask == suffix
  | _, _ => false

/-- Whether a path starts with a slash or a backslash. -/
def startsWithSeparator (path : Text) : Bool :=
  path.head? == some 0x2f || path.head? == some 0x5c

/-- How a PROCESS-PATH rule reads its payload. -/
inductive ProcessPathMode (Regex : Type) where
  | glob (regex : Regex)
  | directory
  | exact

def ProcessPathMode.new (engine : RegexEngine) (payload : Text) :
    Option (ProcessPathMode engine.Regex) :=
  if 0x2a ∈ payload then (engine.glob (ofString "[^/\\\\]*") payload).map .glob
  else if startsWithSeparator payload then some .directory
  else some .exact

/-- A directory matches itself and the paths below it. -/
def isBelow (path directory : Text) : Bool :=
  path == directory || (stripPrefix path directory).any startsWithSeparator

end Matchers

section Rules

variable (runtime : Runtime)

structure DomainRule where
  domain : Text
  adapter : Text

structure DomainSuffixRule where
  suffix : Text
  adapter : Text

structure DomainKeywordRule where
  keyword : Text
  adapter : Text

structure DomainRegexRule where
  regex : runtime.regex.Regex
  pattern : Text
  adapter : Text
  compiled : runtime.regex.new pattern = some regex

structure DomainWildcardRule where
  pattern : runtime.regex.Regex
  raw : Text
  adapter : Text
  compiled : runtime.regex.glob (ofString "[^.]+") raw = some pattern

structure IpCidrRule where
  cidr : IpNet
  cidrStr : Text
  adapter : Text
  isSrc : Bool
  noResolve : Bool
  parsed : runtime.nets.parse cidrStr = some cidr

structure PortRule where
  ranges : List (Nat × Nat)
  raw : Text
  adapter : Text
  isSrc : Bool
  parsed : PortMatcher.parseSpans raw = some ranges
  nonempty : ranges ≠ []

structure InPortRule where
  ranges : List (Nat × Nat)
  raw : Text
  adapter : Text
  parsed : PortMatcher.parseSpans raw = some ranges
  nonempty : ranges ≠ []

structure DscpRule where
  value : Nat
  raw : Text
  adapter : Text
  parsed : parseDscp raw = some value

structure ProcessRule where
  processName : Text
  adapter : Text

structure ProcessPathRule where
  payload : Text
  mode : ProcessPathMode runtime.regex.Regex
  adapter : Text
  compiled : ProcessPathMode.new runtime.regex payload = some mode

structure NetworkRule where
  network : Network
  raw : Text
  adapter : Text
  parsed : Network.ofName (runtime.cases.toLowercase raw) = some network

structure UidRule where
  uid : Nat
  raw : Text
  adapter : Text
  parsed : parseUid raw = some uid

structure InNameRule where
  name : Text
  adapter : Text

structure InTypeRule where
  raw : Text
  adapter : Text
  mask : InTypeMask
  parsed : InTypeMask.ofName (runtime.cases.toUppercase raw) = some mask

structure InUserRule where
  username : Text
  adapter : Text

structure FinalRule where
  adapter : Text

structure GeoSiteRule where
  category : Text
  payloadRaw : Text
  adapter : Text
  db : Option Nat
  category_eq : category = toAsciiLowercase (trim payloadRaw)

structure RuleFlags where
  noResolve : Bool
  isSrc : Bool

structure RuleSetRule where
  name : Text
  set : Nat
  adapter : Text
  flags : RuleFlags

structure GeoIpRule where
  country : Text
  adapter : Text
  noResolve : Bool
  ranges : Nat

structure SrcGeoIpRule where
  country : Text
  adapter : Text
  ranges : Nat

structure IpAsnRule where
  raw : Text
  adapter : Text
  ranges : Nat
  src : Bool
  noResolve : Bool

structure IpSuffixRule where
  payloadRaw : Text
  adapter : Text
  family : IpSuffixMatcher
  src : Bool
  noResolve : Bool

inductive SimpleRule where
  | domain (rule : DomainRule)
  | domainSuffix (rule : DomainSuffixRule)
  | domainKeyword (rule : DomainKeywordRule)
  | domainRegex (rule : DomainRegexRule runtime)
  | domainWildcard (rule : DomainWildcardRule runtime)
  | ipCidr (rule : IpCidrRule runtime)
  | port (rule : PortRule)
  | inPort (rule : InPortRule)
  | dscp (rule : DscpRule)
  | process (rule : ProcessRule)
  | processPath (rule : ProcessPathRule runtime)
  | network (rule : NetworkRule runtime)
  | uid (rule : UidRule)
  | inName (rule : InNameRule)
  | inType (rule : InTypeRule runtime)
  | inUser (rule : InUserRule)
  | final (rule : FinalRule)
  | geoSite (rule : GeoSiteRule)
  | ruleSet (rule : RuleSetRule)
  | geoIp (rule : GeoIpRule)
  | srcGeoIp (rule : SrcGeoIpRule)
  | ipAsn (rule : IpAsnRule)
  | ipSuffix (rule : IpSuffixRule)

end Rules

section Methods

variable {runtime : Runtime}

def ProcessPathRule.accepts (rule : ProcessPathRule runtime) (path : Text) : Bool :=
  if path.isEmpty then false
  else
    match rule.mode with
    | .glob regex => runtime.regex.isMatch regex path
    | .directory => isBelow path rule.payload
    | .exact => (runtime.platform.fileName path).getD path == rule.payload

/-- A set is evaluated on the swapped connection when the rule is about the source, unless it looks
at the host alone. -/
def RuleSetRule.matchMetadata (rule : RuleSetRule) (metadata : Metadata) : Bool :=
  let set := runtime.ruleSets rule.set
  if !rule.flags.isSrc || set.behavior == .domain then set.accepts metadata
  else set.accepts metadata.swapSrcDst

def GeoSiteRule.matchMetadata (rule : GeoSiteRule) (metadata : Metadata) : Bool :=
  match rule.db with
  | none => false
  | some db =>
    if rule.category.isEmpty then false
    else if metadata.ruleHost.isEmpty then false
    else (runtime.geositeDbs db).lookup rule.category metadata.ruleHost

def GeoSiteRule.neverMatches (rule : GeoSiteRule) : Bool :=
  rule.category.isEmpty ||
    rule.db.all fun db => ((runtime.geositeDbs db).resolveKeys rule.category).isNone

namespace SimpleRule

def adapter : SimpleRule runtime → Text
  | .domain rule => rule.adapter
  | .domainSuffix rule => rule.adapter
  | .domainKeyword rule => rule.adapter
  | .domainRegex rule => rule.adapter
  | .domainWildcard rule => rule.adapter
  | .ipCidr rule => rule.adapter
  | .port rule => rule.adapter
  | .inPort rule => rule.adapter
  | .dscp rule => rule.adapter
  | .process rule => rule.adapter
  | .processPath rule => rule.adapter
  | .network rule => rule.adapter
  | .uid rule => rule.adapter
  | .inName rule => rule.adapter
  | .inType rule => rule.adapter
  | .inUser rule => rule.adapter
  | .final rule => rule.adapter
  | .geoSite rule => rule.adapter
  | .ruleSet rule => rule.adapter
  | .geoIp rule => rule.adapter
  | .srcGeoIp rule => rule.adapter
  | .ipAsn rule => rule.adapter
  | .ipSuffix rule => rule.adapter

def matchMetadata (metadata : Metadata) : SimpleRule runtime → Bool
  | .domain rule => eqIgnoreAsciiCase metadata.ruleHost rule.domain
  | .domainSuffix rule => domainSuffixMatches metadata.ruleHost rule.suffix
  | .domainKeyword rule => domainKeywordMatches metadata.ruleHost rule.keyword
  | .domainRegex rule => runtime.regex.isMatch rule.regex metadata.ruleHost
  | .domainWildcard rule =>
    if metadata.ruleHost.isEmpty then false
    else runtime.regex.isMatch rule.pattern metadata.ruleHost
  | .ipCidr rule => (metadata.ip rule.isSrc).any rule.cidr.contains
  | .port rule =>
    Intervals.spansContain rule.ranges
      (if rule.isSrc then metadata.srcPort else metadata.dstPort)
  | .inPort rule =>
    if metadata.inPort = 0 then false else Intervals.spansContain rule.ranges metadata.inPort
  | .dscp rule => metadata.dscp == some rule.value
  | .process rule => eqIgnoreAsciiCase metadata.process rule.processName
  | .processPath rule => rule.accepts metadata.processPath
  | .network rule => metadata.network == rule.network
  | .uid rule => runtime.platform.uidInfoAvailable && metadata.uid == some rule.uid
  | .inName rule => !metadata.inName.isEmpty && metadata.inName == rule.name
  | .inType rule => rule.mask.accepts metadata.connType
  | .inUser rule => metadata.inUser == some rule.username
  | .final _ => true
  | .geoSite rule => @GeoSiteRule.matchMetadata runtime rule metadata
  | .ruleSet rule => @RuleSetRule.matchMetadata runtime rule metadata
  | .geoIp rule => metadata.dstIp.any (runtime.ipRangeSets rule.ranges).contains
  | .srcGeoIp rule => metadata.srcIp.any (runtime.ipRangeSets rule.ranges).contains
  | .ipAsn rule => (metadata.ip rule.src).any (runtime.ipRangeSets rule.ranges).contains
  | .ipSuffix rule => (metadata.ip rule.src).any rule.family.accepts

def shouldResolveIp : SimpleRule runtime → Bool
  | .ipCidr rule => !rule.isSrc && !rule.noResolve
  | .ruleSet rule =>
    (runtime.ruleSets rule.set).shouldResolveIp && !rule.flags.noResolve && !rule.flags.isSrc
  | .geoIp rule => !rule.noResolve
  | .ipAsn rule => !rule.src && !rule.noResolve
  | .ipSuffix rule => !rule.src && !rule.noResolve
  | _ => false

def neverMatches : SimpleRule runtime → Bool
  | .process rule => !runtime.platform.processInfoAvailable && !rule.processName.isEmpty
  | .processPath _ => !runtime.platform.processInfoAvailable
  | .uid _ => !runtime.platform.uidInfoAvailable
  | .geoSite rule => @GeoSiteRule.neverMatches runtime rule
  | .geoIp rule => (runtime.ipRangeSets rule.ranges).isEmpty
  | .srcGeoIp rule => (runtime.ipRangeSets rule.ranges).isEmpty
  | .ipAsn rule => (runtime.ipRangeSets rule.ranges).isEmpty
  | _ => false

end SimpleRule

end Methods

end MeowRs
