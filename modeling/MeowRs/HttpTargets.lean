import MeowRs.HttpRewriting

/-!
# Absolute-form targets

A plain request names its server by a URL.  Its host and port are cut out of the URL by one scan,
and the target that is sent on by another.
-/

namespace MeowRs.Http

open List Text

def question : UInt8 := 0x3f

def fragment : UInt8 := 0x23

def parseHostPort (target : Text) (defaultPort : Nat) : Text × Nat :=
  match rsplitOnce target colon with
  | none => (target, defaultPort)
  | some (host, port) =>
    match parseUnsigned 65536 port with
    | none => (target, defaultPort)
    | some port => if port = 0 then ([], 0) else (host, port)

def hostHeader (headers : List HeaderField) : Option Text :=
  match headers.filter fun header => eqIgnoreAsciiCase header.name (ofString "host") with
  | [header] => if isUtf8 header.value then some (trim header.value) |>.filter (· ≠ []) else none
  | _ => none

def withoutScheme (url : Text) : Text :=
  (((stripPrefix url (ofString "http://")).or (stripPrefix url (ofString "ws://"))).or
    (stripPrefix url (ofString "https://"))).getD url

def parseUrlHostPort (url : Text) : Text × Nat :=
  let authority := (withoutScheme url).takeWhile fun byte =>
    byte != slash && byte != question && byte != fragment
  parseHostPort authority (if (ofString "https://").isPrefixOf url then 443 else 80)

/-- The host and port that a plain request is routed by. -/
def destination (request : RequestHead) : Text × Nat :=
  let (host, port) := parseUrlHostPort request.target
  if host.isEmpty && request.target.head? = some slash then
    match hostHeader request.headers with
    | some authority => parseHostPort authority 80
    | none => (host, port)
  else (host, port)

/-- The schemes that are recognised, with their ports. -/
def schemes : List (Text × Nat) :=
  [(ofString "http://", 80), (ofString "ws://", 80), (ofString "https://", 443)]

/-- What has to be asked of the server for what stands behind the authority. -/
def forwardedTarget (rest : Text) : Text :=
  if rest.head? = some slash then rest else slash :: rest

theorem schemes_eq :
    schemes = [([0x68, 0x74, 0x74, 0x70, 0x3a, 0x2f, 0x2f], 80),
      ([0x77, 0x73, 0x3a, 0x2f, 0x2f], 80),
      ([0x68, 0x74, 0x74, 0x70, 0x73, 0x3a, 0x2f, 0x2f], 443)] := by
  decide +kernel

theorem scheme_of_mem {scheme : Text × Nat} (hs : scheme ∈ schemes) (rest : Text) :
    withoutScheme (scheme.1 ++ rest) = rest ∧ (scheme.1 ++ rest).head? ≠ some slash ∧
      (if (ofString "https://").isPrefixOf (scheme.1 ++ rest) then 443 else 80) = scheme.2 := by
  have hte := schemes_eq
  simp only [schemes, cons.injEq, Prod.mk.injEq, and_true] at hte
  obtain ⟨ht, ws, hh⟩ := hte
  simp only [withoutScheme, stripPrefix, ht, ws, hh]
  rw [schemes_eq] at hs
  simp only [mem_cons, not_mem_nil, or_false] at hs
  rcases hs with rfl | rfl | rfl <;> simp [slash, isPrefixOf]

section

variable {authority rest : Text} (ends : ∀ b ∈ authority, b ≠ slash ∧ b ≠ question)
include ends

theorem authority_of_cut (hs : rest = [] ∨ rest.head? = some slash ∨ rest.head? = some question)
    (hf : fragment ∉ authority) :
    (authority ++ rest).takeWhile (fun b =>
      b != slash && b != question && b != fragment) = authority := by
  rw [takeWhile_append_of_pos]
  · rcases hs with rfl | hs
    · simp
    · obtain ⟨fst, last, rfl⟩ : ∃ fst last, rest = fst :: last := by
        cases rest with
        | nil => simp at hs
        | cons fst last => exact ⟨fst, last, rfl⟩
      rcases hs with hs | hs <;> cases hs <;> simp
  · intro b hm
    have ha : b ≠ fragment := ne_of_mem_of_not_mem hm hf
    simp [ends b hm, ha]

/-- The path scan looks for a slash only. -/
theorem path_of_cut :
    (if slash ∈ authority ++ rest then (authority ++ rest).dropWhile (· != slash) else [slash]) =
      if slash ∈ rest then rest.dropWhile (· != slash) else [slash] := by
  have ha : slash ∉ authority := fun hm => (ends slash hm).1 rfl
  have hs : (authority ++ rest).dropWhile (· != slash) = rest.dropWhile (· != slash) := by
    refine dropWhile_append_of_pos fun b hm => ?_
    simpa using (ends b hm).1
  rw [hs]
  simp only [mem_append, ha, false_or]

end

theorem forwardedTarget_iff {rest : Text}
    (hsto : rest = [] ∨ rest.head? = some slash ∨ rest.head? = some question) :
    (if slash ∈ rest then rest.dropWhile (· != slash) else [slash]) = forwardedTarget rest ↔
      rest.head? ≠ some question := by
  rcases hsto with rfl | hs | hs
  · simp [forwardedTarget]
  · cases rest with
    | nil => cases hs
    | cons first last =>
      cases hs
      simp [forwardedTarget, slash, question]
  · -- The query is cut off up to its first slash, or dropped.
    have ha : question ≠ slash := by decide
    have hsh := (dropWhile_suffix (l := rest) (· != slash)).length_le
    have hf : forwardedTarget rest = slash :: rest := by
      simp [forwardedTarget, hs, ha]
    refine iff_of_false (fun same => ?_) (by simp [hs])
    have hl := congrArg length same
    rw [hf] at hl
    split at hl
    · simp only [length_cons] at hl
      omega
    · cases rest with
      | nil => cases hs
      | cons first last => simp at hl

/-- The host and port of an absolute-form target come from its scheme and authority alone.  What
stands behind the authority is sent on whole exactly if it does not start with the query. -/
theorem absolute_target_iff {head : Text} {request : RequestHead}
    (_ : parseRequestHead head = .ok request) {scheme : Text × Nat} (isScheme : scheme ∈ schemes)
    {authority rest : Text} (target : request.target = scheme.1 ++ (authority ++ rest))
    (ends : ∀ byte ∈ authority, byte ≠ slash ∧ byte ≠ question)
    (stops : rest = [] ∨ rest.head? = some slash ∨ rest.head? = some question)
    (noFragment : fragment ∉ request.target) :
    destination request = parseHostPort authority scheme.2 ∧
      ∃ path after, rewritePlainRequest request (extractPathFromUrl request.target) =
          request.method ++ space :: path ++ space :: request.version ++ crlf ++ after ∧
        space ∉ path ∧ (path = forwardedTarget rest ↔ rest.head? ≠ some question) := by
  obtain ⟨hs, ha, port⟩ := scheme_of_mem isScheme (authority ++ rest)
  rw [← target] at hs ha port
  have hau : fragment ∉ authority := fun hm =>
    noFragment (by simp [target, hm])
  have path : extractPathFromUrl request.target =
      if slash ∈ rest then rest.dropWhile (· != slash) else [slash] := by
    rw [← path_of_cut ends, ← hs]
    rfl
  constructor
  · rw [destination, parseUrlHostPort, hs, authority_of_cut ends stops hau, port]
    simp [ha]
  · refine ⟨_, _, by simp [rewritePlainRequest]; rfl, ?_, ?_⟩
    · intro hm
      have visible := (extractPathFromUrl_spec request.isRequestLine.target.2).2 space hm
      exact absurd visible (by decide)
    · rw [path]
      exact forwardedTarget_iff stops

theorem absolute_target_iff_query :
    ∃ request, parseRequestHead (ofString "GET https://a:8/b?c HTTP/1.1\r\nHost: a\r\n\r\n") =
        .ok request ∧
      destination request = (ofString "a", 8) ∧
      ∃ after, rewritePlainRequest request (extractPathFromUrl request.target) =
        request.method ++ space :: ofString "/b?c" ++ space :: request.version ++ crlf ++ after := by
  have hp : (parseRequestHead
      (ofString "GET https://a:8/b?c HTTP/1.1\r\nHost: a\r\n\r\n")).map (·.target) =
      .ok (ofString "https://" ++ (ofString "a:8" ++ ofString "/b?c")) := by
    decide +kernel
  obtain ⟨request, hpa, ht⟩ := Results.map_eq_ok.mp hp
  have hs : (ofString "https://", 443) ∈ schemes := by simp [schemes]
  obtain ⟨hr, path, after, hwr, -, hw⟩ := absolute_target_iff hpa hs ht
    (by decide +kernel) (by decide +kernel) (by rw [ht]; decide +kernel)
  obtain rfl : path = ofString "/b?c" := hw.mpr (by decide +kernel)
  exact ⟨request, hpa, hr.trans (by decide +kernel), after, hwr⟩

theorem query_sent_as_path :
    ∃ request, parseRequestHead (ofString "GET http://a?u=/b HTTP/1.1\r\nHost: a\r\n\r\n") =
        .ok request ∧
      request.target = ofString "http://" ++ (ofString "a" ++ ofString "?u=/b") ∧
      extractPathFromUrl request.target = ofString "/b" ∧
      forwardedTarget (ofString "?u=/b") = ofString "/?u=/b" := by
  have hpa : (parseRequestHead
      (ofString "GET http://a?u=/b HTTP/1.1\r\nHost: a\r\n\r\n")).map (·.target) =
      .ok (ofString "http://" ++ (ofString "a" ++ ofString "?u=/b")) := by
    decide +kernel
  obtain ⟨request, hp, ht⟩ := Results.map_eq_ok.mp hpa
  refine ⟨request, hp, ht, ?_, by decide +kernel⟩
  rw [ht]
  decide +kernel

end MeowRs.Http
