import MeowRs.HttpRequestHead

/-!
# Heads of responses

The proxy takes the status from the head of a response and gives the client a head of its own: without
the fields that are meant for the connection to the origin, and with a field that says what becomes of
the connection to the client.
-/

namespace MeowRs.Http

open Text (ofString eqIgnoreAsciiCase)

def maxResponseHeaders : Nat := 8192
def responseBufferSize : Nat := maxResponseHeaders + (connectionUpgrade ++ crlf).length

def findCrlfCrlf : Text → Option Nat
  | [] => none
  | byte :: rest =>
    if (crlf ++ crlf).isPrefixOf (byte :: rest) then some 0
    else (findCrlfCrlf rest).map (· + 1)

def parseResponseStatus (head : Text) : Except IoError Nat :=
  match crlfLines head with
  | line :: _ :: _ =>
    let parts := line.splitOn space
    let version := parts.headD []
    let status := parts.tail.headD []
    if (version = ofString "HTTP/1.0" ∨ version = ofString "HTTP/1.1") ∧ status.length = 3 ∧
        status.all isDigit then
      .ok (status.foldl (fun value digit => value * 10 + (digit.toNat - 0x30)) 0)
    else .error (invalidData "invalid upstream HTTP status line")
  | _ => .error (invalidData "upstream response is missing a status line")

inductive ResponseConnection where
  | interim
  | close
  | upgrade
  deriving DecidableEq

structure ResponseField where
  name : Text
  value : Text
  raw : Text

def responseFields : List Text → Except IoError (List ResponseField)
  | [] => .ok []
  | [last] =>
    if last.length < 2 then .ok []
    else .error (invalidData "malformed upstream response header")
  | line :: next :: lines =>
    if line = [] then .ok []
    else if colon ∈ line then
      (responseFields (next :: lines)).map
        (⟨line.takeWhile (· != colon), (line.dropWhile (· != colon)).tail, line⟩ :: ·)
    else .error (invalidData "upstream response header is missing a colon")

/-- The status line of a response and its fields. -/
def forEachResponseHeader (head : Text) : Except IoError (Text × List ResponseField) :=
  match crlfLines head with
  | status :: next :: lines => (responseFields (next :: lines)).map (status, ·)
  | _ => .error (invalidData "upstream response is missing a status line")

namespace ResponseField

variable (field : ResponseField)

def isNamed (name : String) : Bool :=
  eqIgnoreAsciiCase field.name (ofString name)

def listed : List Text :=
  ((field.value.splitOn comma).map trimOws).filter (· ≠ [])

end ResponseField

def collectConnectionOptions (fields : List ResponseField) : List Text :=
  (fields.filter (·.isNamed "connection")).flatMap (·.listed)

def validateResponseConnectionOptions (field : ResponseField) : Except IoError Unit :=
  field.listed.forM fun option =>
    if !option.all isTchar then .error (invalidData "invalid upstream Connection header")
    else if eqIgnoreAsciiCase option (ofString "content-length") ||
        eqIgnoreAsciiCase option (ofString "transfer-encoding") then
      .error (invalidData "upstream Connection header names an HTTP framing field")
    else .ok ()

def checkResponseField (field : ResponseField) : Except IoError Unit :=
  if ¬ IsToken field.name then .error (invalidData "invalid upstream response header name")
  else if field.isNamed "connection" then validateResponseConnectionOptions field
  else .ok ()

/-- Whether a field is not sent to the client. -/
def isDroppedFromResponse (connection : ResponseConnection) (nominated : List Text)
    (field : ResponseField) : Bool :=
  let preserveUpgrade := decide (connection = .upgrade) && field.isNamed "upgrade"
  field.isNamed "connection" || field.isNamed "proxy-connection" || field.isNamed "keep-alive" ||
    (field.isNamed "upgrade" && !preserveUpgrade) ||
    (decide (connection = .upgrade) &&
      (field.isNamed "content-length" || field.isNamed "transfer-encoding")) ||
    (nominated.any (eqIgnoreAsciiCase · field.name) && !preserveUpgrade)

def rewriteResponseHead (connection : ResponseConnection) (head : Text) : Except IoError Text := do
  let (status, fields) ← forEachResponseHeader head
  fields.forM checkResponseField
  let nominated := collectConnectionOptions fields
  let kept := fields.filter fun field => !isDroppedFromResponse connection nominated field
  let connectionHeader :=
    match connection with
    | .interim => []
    | .close => connectionClose ++ crlf
    | .upgrade => connectionUpgrade ++ crlf
  let rewritten := status ++ crlf ++ kept.flatMap (fun field => field.raw ++ crlf) ++
    connectionHeader ++ crlf
  if responseBufferSize < rewritten.length then
    .error (invalidData "rewritten upstream response headers are too large")
  else .ok rewritten

def validateUpgradeResponse (head : Text) : Except IoError Unit := do
  let (_, fields) ← forEachResponseHeader head
  if !(collectConnectionOptions fields).any (eqIgnoreAsciiCase · (ofString "upgrade")) then
    .error (invalidData "upstream 101 response is missing Connection: upgrade")
  else
    let sawProtocol ← (((fields.filter (·.isNamed "upgrade")).map (·.value)).foldlM
      validateUpgradeProtocolList false).mapError invalidData
    if sawProtocol then .ok ()
    else .error (invalidData "upstream 101 response is missing an Upgrade protocol")

end MeowRs.Http
