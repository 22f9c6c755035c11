import MeowRs.HttpBody
import MeowRs.Numerals

/-!
# Heads of requests

The proxy reads the head of a request, takes the kind of its body from it, and sends a head of its own
to the origin: with the path in place of the address, without the fields that are meant for the proxy
or for this connection, and with one field that closes the connection.  The origin must read the same
kind of body from the head it gets.
-/

namespace MeowRs.Http

open Text (ofString eqIgnoreAsciiCase)

def colon : UInt8 := 0x3a
def comma : UInt8 := 0x2c
def space : UInt8 := 0x20

section Bytes

def isDigit (byte : UInt8) : Bool :=
  0x30 ≤ byte && byte ≤ 0x39

def isTchar (byte : UInt8) : Bool :=
  isDigit byte || Text.isAsciiUppercase byte || Text.isAsciiLowercase byte ||
    byte ∈ ofString "!#$%&'*+-.^_`|~"

def IsToken (text : Text) : Prop :=
  text ≠ [] ∧ ∀ byte ∈ text, isTchar byte = true

instance (text : Text) : Decidable (IsToken text) :=
  inferInstanceAs (Decidable (_ ∧ _))

instance (text : Text) : Decidable (IsFieldText text) :=
  inferInstanceAs (Decidable (∀ byte ∈ text, isFieldValueByte byte = true))

def isVisible (byte : UInt8) : Bool :=
  0x21 ≤ byte && byte ≤ 0x7e

def isOws (byte : UInt8) : Bool :=
  byte = space || byte = 0x09

def skipOws (value : Text) : Text :=
  value.dropWhile isOws

def trimOws (value : Text) : Text :=
  (skipOws value).rdropWhile isOws

/-- Whether a CR or LF behind a byte is not a part of a CRLF pair; a last CR is undecided. -/
def bareLineEndingAfter : Option UInt8 → Text → Bool
  | _, [] => false
  | before, byte :: rest =>
    (byte = lf && before ≠ some cr) || (byte = cr && rest.head?.any (· ≠ lf)) ||
      bareLineEndingAfter (some byte) rest

def hasBareLineEnding (text : Text) : Bool :=
  bareLineEndingAfter none text

def consLine (byte : UInt8) : List Text → List Text
  | [] => [[byte]]
  | line :: lines => (byte :: line) :: lines

def crlfLines : Text → List Text
  | [] => [[]]
  | [byte] => [[byte]]
  | byte :: next :: rest =>
    if byte = cr ∧ next = lf then [] :: crlfLines rest else consLine byte (crlfLines (next :: rest))

end Bytes

/-- A field of a head. -/
structure HeaderField where
  name : Text
  value : Text
  raw : Text
  isName : IsToken name
  isValue : IsFieldText value
  isRaw : raw = name ++ colon :: value
  deriving DecidableEq

theorem cut_at_mark {text : Text} {mark : UInt8} (mem : mark ∈ text) :
    text = text.takeWhile (· != mark) ++ mark :: (text.dropWhile (· != mark)).tail := by
  have hw := @List.takeWhile_append_dropWhile _ (· != mark) text
  cases hl : text.dropWhile (· != mark) with
  | nil =>
    have ha := List.dropWhile_eq_nil_iff.mp hl mark mem
    simp at ha
  | cons fst rest =>
    have hm := List.head?_dropWhile_not (· != mark) text
    rw [hl] at hm hw
    obtain rfl : fst = mark := by simpa using hm
    exact hw.symm

def parseHeaderField (line : Text) : Except String HeaderField :=
  if hasColon : colon ∈ line then
    if isName : IsToken (line.takeWhile (· != colon)) then
      if isValue : IsFieldText (line.dropWhile (· != colon)).tail then
        .ok {
          name := line.takeWhile (· != colon)
          value := (line.dropWhile (· != colon)).tail
          raw := line
          isName := isName
          isValue := isValue
          isRaw := cut_at_mark hasColon }
      else .error "invalid HTTP header value"
    else .error "invalid HTTP header name"
  else .error "HTTP header missing colon"

section Framing

structure TransferCoding where
  name : Text
  hasParameters : Bool
  deriving DecidableEq

def parseToken (value : Text) : Option (Text × Text) :=
  if (value.takeWhile isTchar).isEmpty then none
  else some (value.takeWhile isTchar, value.dropWhile isTchar)

def parseQuotedString : Text → Except String Text
  | [] => .error "unterminated Transfer-Encoding quoted string"
  | 0x22 :: rest => .ok rest
  | [0x5c] => .error "unterminated Transfer-Encoding quoted string"
  | 0x5c :: escaped :: rest =>
    if escaped = 0x09 || (0x20 ≤ escaped && escaped ≤ 0x7e) || 0x80 ≤ escaped then
      parseQuotedString rest
    else .error "invalid Transfer-Encoding quoted pair"
  | byte :: rest =>
    if byte = 0x09 || (0x20 ≤ byte && byte ≤ 0x7e) || 0x80 ≤ byte then parseQuotedString rest
    else .error "invalid Transfer-Encoding quoted string"

def parseParameterValue (value : Text) : Except String Text :=
  if value.head? = some 0x22 then parseQuotedString value.tail
  else
    match parseToken value with
    | none => .error "invalid Transfer-Encoding parameter value"
    | some (_, rest) => .ok rest

/-- Skip the parameters of a coding, at most `fuel` of them, and say whether there are any. -/
def skipParameters : Nat → Bool → Text → Except String (Bool × Text)
  | 0, hasParameters, value => .ok (hasParameters, value)
  | fuel + 1, hasParameters, value =>
    match skipOws value with
    | [] => .ok (hasParameters, [])
    | byte :: rest =>
      if byte ≠ semicolon then .ok (hasParameters, byte :: rest)
      else
        match parseToken (skipOws rest) with
        | none => .error "invalid Transfer-Encoding parameter"
        | some (_, rest) =>
          if (skipOws rest).head? ≠ some 0x3d then
            .error "invalid Transfer-Encoding parameter"
          else (parseParameterValue (skipOws (skipOws rest).tail)).bind (skipParameters fuel true)

/-- Read codings that are separated by commas, at most `fuel` of them. -/
def parseCodings : Nat → List TransferCoding → Text → Except String (List TransferCoding)
  | 0, codings, _ => .ok codings
  | fuel + 1, codings, value =>
    match parseToken value with
    | none => .error "invalid Transfer-Encoding"
    | some (name, rest) => do
        let (hasParameters, rest) ← skipParameters (rest.length + 1) false rest
        match skipOws rest with
        | [] => .ok (codings ++ [⟨name, hasParameters⟩])
        | byte :: rest =>
          if byte ≠ comma ∨ skipOws rest = [] then .error "invalid Transfer-Encoding"
          else parseCodings fuel (codings ++ [⟨name, hasParameters⟩]) (skipOws rest)

def parseTransferCodings (codings : List TransferCoding) (value : Text) :
    Except String (List TransferCoding) :=
  parseCodings (value.length + 1) codings (skipOws value)

def parseLength (value : Text) : Option Nat :=
  value.foldlM
    (fun length byte =>
      if isDigit byte then checkedDigit 10 length (byte.toNat - 0x30) else none)
    0

/-- Read lengths that must all be the same. -/
def addLengths : Option Nat → List Text → Except String (Option Nat)
  | contentLength, [] => .ok contentLength
  | contentLength, piece :: pieces =>
    if trimOws piece = [] then .error "invalid Content-Length"
    else
      match parseLength (trimOws piece) with
      | none => .error "invalid Content-Length"
      | some parsed =>
        if contentLength.any (· ≠ parsed) then .error "conflicting Content-Length values"
        else addLengths (some parsed) pieces

/-- What the fields say about the body so far. -/
structure FramingFields where
  contentLength : Option Nat
  hasContentLength : Bool
  transferCodings : List TransferCoding

def FramingFields.start : FramingFields := ⟨none, false, []⟩

def isContentLength (header : HeaderField) : Bool :=
  eqIgnoreAsciiCase header.name (ofString "content-length")

def isTransferEncoding (header : HeaderField) : Bool :=
  eqIgnoreAsciiCase header.name (ofString "transfer-encoding")

def framingField (fields : FramingFields) (header : HeaderField) : Except String FramingFields :=
  if isContentLength header then
    (addLengths fields.contentLength (header.value.splitOn comma)).map fun contentLength =>
      { fields with contentLength := contentLength, hasContentLength := true }
  else if isTransferEncoding header then
    (parseTransferCodings fields.transferCodings header.value).map fun transferCodings =>
      { fields with transferCodings := transferCodings }
  else .ok fields

def TransferCoding.isChunked (coding : TransferCoding) : Bool :=
  eqIgnoreAsciiCase coding.name (ofString "chunked")

def FramingFields.bodyKind (fields : FramingFields) (version : Text) :
    Except String RequestBodyKind :=
  if fields.hasContentLength && !fields.transferCodings.isEmpty then
    .error "Transfer-Encoding with Content-Length is ambiguous"
  else if !fields.transferCodings.isEmpty then
    if version = ofString "HTTP/1.0" then .error "Transfer-Encoding on an HTTP/1.0 request"
    else if fields.transferCodings.countP TransferCoding.isChunked ≠ 1 ∨
        !fields.transferCodings.getLast?.any (fun coding =>
          coding.isChunked && !coding.hasParameters) then
      .error "invalid request Transfer-Encoding"
    else .ok .chunked
  else
    match fields.contentLength with
    | none => .ok .none
    | some length => .ok (.contentLength length)

def validateMessageFraming (headers : List HeaderField) (version : Text) :
    Except String RequestBodyKind :=
  (headers.foldlM framingField .start).bind (·.bodyKind version)

end Framing

section Connection

def isConnection (header : HeaderField) : Bool :=
  eqIgnoreAsciiCase header.name (ofString "connection")

def options (header : HeaderField) : List Text :=
  (header.value.splitOn comma).map trimOws

def checkOption (option : Text) : Except String Unit :=
  if option = [] then .ok ()
  else if !option.all isTchar then .error "invalid Connection header"
  else if eqIgnoreAsciiCase option (ofString "content-length") ||
      eqIgnoreAsciiCase option (ofString "transfer-encoding") ||
      eqIgnoreAsciiCase option (ofString "host") then
    .error "Connection header names an HTTP framing field"
  else .ok ()

def validateConnectionOptions (headers : List HeaderField) : Except String Unit :=
  ((headers.filter isConnection).flatMap options).forM checkOption

def connectionNominates (headers : List HeaderField) (name : Text) : Bool :=
  headers.any fun header =>
    isConnection header && (options header).any (eqIgnoreAsciiCase · name)

/-- Whether a protocol was seen, once those of a list were checked. -/
def validateUpgradeProtocolList (sawProtocol : Bool) (value : Text) : Except String Bool :=
  ((value.splitOn comma).map trimOws).foldlM
    (fun sawProtocol protocol =>
      if protocol = [] then .ok sawProtocol
      else
        match protocol.splitOn 0x2f with
        | [name] => if IsToken name then .ok true else .error "invalid Upgrade protocol"
        | [name, version] =>
          if IsToken name ∧ IsToken version then .ok true else .error "invalid Upgrade protocol"
        | _ => .error "invalid Upgrade protocol")
    sawProtocol

def isUpgrade (header : HeaderField) : Bool :=
  eqIgnoreAsciiCase header.name (ofString "upgrade")

def validateUpgradeRequest (headers : List HeaderField) (bodyKind : RequestBodyKind)
    (version : Text) : Except String Bool :=
  if !connectionNominates headers (ofString "upgrade") then .ok false
  else if version ≠ ofString "HTTP/1.1" then .error "HTTP Upgrade requires HTTP/1.1"
  else if bodyKind ≠ .none ∧ bodyKind ≠ .contentLength 0 then
    .error "HTTP Upgrade request must not have a body"
  else
    (((headers.filter isUpgrade).map (·.value)).foldlM validateUpgradeProtocolList false).bind
      fun sawProtocol =>
        if sawProtocol then .ok true
        else .error "Connection: upgrade requires an Upgrade protocol"

end Connection

section Head

/-- The parts of a request line. -/
structure IsRequestLine (method target version : Text) : Prop where
  method : IsToken method
  target : target ≠ [] ∧ ∀ byte ∈ target, isVisible byte = true
  version : version = ofString "HTTP/1.0" ∨ version = ofString "HTTP/1.1"

instance (method target version : Text) : Decidable (IsRequestLine method target version) :=
  decidable_of_iff
    (IsToken method ∧ (target ≠ [] ∧ ∀ byte ∈ target, isVisible byte = true) ∧
      (version = ofString "HTTP/1.0" ∨ version = ofString "HTTP/1.1"))
    ⟨fun ⟨method, target, version⟩ => ⟨method, target, version⟩,
      fun ⟨method, target, version⟩ => ⟨method, target, version⟩⟩

structure RequestHead where
  method : Text
  target : Text
  version : Text
  headers : List HeaderField
  bodyKind : RequestBodyKind
  upgradeRequested : Bool
  isRequestLine : IsRequestLine method target version
  framing : validateMessageFraming headers version = .ok bodyKind
  options : validateConnectionOptions headers = .ok ()
  upgrade : validateUpgradeRequest headers bodyKind version = .ok upgradeRequested

/-- Check the fields of a head. -/
def validateHead {method target version : Text} (isRequestLine : IsRequestLine method target version)
    (headers : List HeaderField) : Except String RequestHead :=
  match framing : validateMessageFraming headers version with
  | .error error => .error error
  | .ok bodyKind =>
    match options : validateConnectionOptions headers with
    | .error error => .error error
    | .ok () =>
      match upgrade : validateUpgradeRequest headers bodyKind version with
      | .error error => .error error
      | .ok upgradeRequested =>
        .ok ⟨method, target, version, headers, bodyKind, upgradeRequested, isRequestLine,
          framing, options, upgrade⟩

def parseRequestLine (line : Text) : Except String (Text × Text × Text) :=
  if !Text.isUtf8 line then .error "non-ASCII HTTP request line"
  else if !Text.isAscii line then .error "non-ASCII HTTP request line"
  else
    match line.splitOn space with
    | [method, target, version] => .ok (method, target, version)
    | _ => .error "invalid HTTP request line"

def parseRequestHead (head : Text) : Except String RequestHead :=
  if ¬ crlf ++ crlf <:+ head ∨ hasBareLineEnding head then .error "invalid HTTP line ending"
  else
    match crlfLines (head.take (head.length - 4)) with
    | [] => .error "empty HTTP request"
    | line :: lines => do
        let (method, target, version) ← parseRequestLine line
        if isRequestLine : IsRequestLine method target version then
          let headers ← lines.mapM parseHeaderField
          validateHead isRequestLine headers
        else .error "invalid HTTP request line"

end Head

section Rewriting

def connectionClose : Text := ofString "Connection: close"
def connectionUpgrade : Text := ofString "Connection: upgrade"

def isDropped (request : RequestHead) (header : HeaderField) : Bool :=
  eqIgnoreAsciiCase header.name (ofString "proxy-connection") ||
    eqIgnoreAsciiCase header.name (ofString "proxy-authorization") ||
    isContentLength header || isConnection header ||
    eqIgnoreAsciiCase header.name (ofString "keep-alive") ||
    (isUpgrade header && !request.upgradeRequested) ||
    (connectionNominates request.headers header.name &&
      !(request.upgradeRequested && isUpgrade header))

def rewritePlainRequest (request : RequestHead) (path : Text) : Text :=
  request.method ++ [space] ++ path ++ [space] ++ request.version ++ crlf ++
    ((request.headers.filter fun header => !isDropped request header).flatMap fun header =>
      header.raw ++ crlf) ++
    (match request.bodyKind with
      | .contentLength length => ofString "Content-Length: " ++ Text.decimal length ++ crlf
      | _ => []) ++
    (if request.upgradeRequested then connectionUpgrade else connectionClose) ++ crlf ++ crlf

def slash : UInt8 := 0x2f

def extractPathFromUrl (url : Text) : Text :=
  let withoutScheme :=
    (((Text.stripPrefix url (ofString "http://")).or
      (Text.stripPrefix url (ofString "ws://"))).or
      (Text.stripPrefix url (ofString "https://"))).getD url
  if slash ∈ withoutScheme then withoutScheme.dropWhile (· != slash) else [slash]

end Rewriting

end MeowRs.Http
