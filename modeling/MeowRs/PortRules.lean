import MeowRs.Results
import MeowRs.SimpleRules

/-!
# Port rules and their compiled form

`PortRule::new` and `InPortRule::new` with the errors they report, and the port matcher the rule
compiler makes from the same payload.  The matcher exists exactly when the rules accept the payload,
it accepts the ports of the rules, and its printed form tells sets of ports apart and nothing else.
-/

namespace MeowRs

open Results

open Text

/-- What `str::parse` reports of a text that is no unsigned number. -/
inductive ParseIntError where
  | empty
  | invalidDigit
  | posOverflow
  deriving DecidableEq, Repr

namespace ParseIntError

def message : ParseIntError → Text
  | .empty => ofString "cannot parse integer from empty string"
  | .invalidDigit => ofString "invalid digit found in string"
  | .posOverflow => ofString "number too large to fit in target type"

end ParseIntError

namespace Text

/-- Add digits to a value below `bound`; the first digit that is none or does not fit is reported. -/
def readDigits (bound : Nat) : Nat → Text → Except ParseIntError Nat
  | value, [] => .ok value
  | value, byte :: rest =>
    match digitValue byte with
    | none => .error .invalidDigit
    | some digit =>
      if bound ≤ 10 * value + digit then .error .posOverflow
      else readDigits bound (10 * value + digit) rest

/-- `str::parse` at an unsigned type with `bound` values. -/
def parse (bound : Nat) (text : Text) : Except ParseIntError Nat :=
  if text.isEmpty then .error .empty
  else
    let digits := if text.head? = some 0x2b then text.tail else text
    if digits.isEmpty then .error .invalidDigit else readDigits bound 0 digits

theorem le_of_parseDigits {v res : Nat} {ds : Text}
    (hr : parseDigits v ds = some res) : v ≤ res := by
  induction ds generalizing v with
  | nil =>
    cases hr
    exact le_refl _
  | cons b rest ih =>
    rw [parseDigits] at hr
    split at hr
    · have := ih hr
      omega
    · cases hr

theorem readDigits_eq_ok {bound v res : Nat} {ds : Text} (hf : v < bound) :
    readDigits bound v ds = .ok res ↔
      parseDigits v ds = some res ∧ res < bound := by
  induction ds generalizing v with
  | nil =>
    simp only [readDigits, parseDigits, Except.ok.injEq, Option.some.injEq]
    exact ⟨fun hs => ⟨hs, hs ▸ hf⟩, And.left⟩
  | cons b rest ih =>
    rw [readDigits, parseDigits]
    cases digitValue b with
    | none => simp
    | some d =>
      dsimp only
      split
      · rename_i overflows
        constructor
        · intro read
          cases read
        · rintro ⟨read, small⟩
          have := le_of_parseDigits read
          omega
      · exact ih (by omega)

/-- The reported and the plain way to read a number agree. -/
theorem parse_eq_ok {bound res : Nat} {text : Text} (hp : 0 < bound) :
    parse bound text = .ok res ↔ parseUnsigned bound text = some res := by
  unfold parse parseUnsigned
  cases text with
  | nil => exact ⟨nofun, nofun⟩
  | cons b rest =>
    rw [if_neg (by simp)]
    generalize (if (b :: rest).head? = some 0x2b then (b :: rest).tail
      else b :: rest) = digits
    dsimp only
    split
    · exact ⟨nofun, nofun⟩
    · rw [readDigits_eq_ok hp, Option.filter_eq_some_iff, decide_eq_true_eq]

end Text

/-- The messages of a rule that reads a port list. -/
structure PortErrors where
  start : Text → ParseIntError → Text
  stop : Text → ParseIntError → Text
  single : Text → ParseIntError → Text
  range : Nat → Nat → Text
  emptyList : Text

namespace PortErrors

variable (errors : PortErrors)

def parseRange (part : Text) : Except Text (Nat × Nat) :=
  match splitOnce part 0x2d with
  | some (start, stop) => do
      let low ← (parse 65536 (trim start)).mapError (errors.start (trim start))
      let high ← (parse 65536 (trim stop)).mapError (errors.stop (trim stop))
      if high < low then .error (errors.range low high) else .ok (low, high)
  | none => do
      let port ← (parse 65536 part).mapError (errors.single part)
      .ok (port, port)

def parseRanges : List Text → Except Text (List (Nat × Nat))
  | [] => .ok []
  | part :: parts =>
    if (trim part).isEmpty then parseRanges parts
    else do
      let range ← errors.parseRange (trim part)
      let ranges ← parseRanges parts
      .ok (range :: ranges)

def ranges (ports : Text) : Except Text (List (Nat × Nat)) := do
  let ranges ← errors.parseRanges (ports.splitOnP fun byte => byte == 0x2c || byte == 0x2f)
  if ranges.isEmpty then .error errors.emptyList else .ok ranges

variable {errors}

theorem parseRange_eq_ok {part : Text} {r : Nat × Nat} :
    errors.parseRange part = .ok r ↔ PortMatcher.parseSpan part = some r := by
  unfold parseRange PortMatcher.parseSpan
  cases splitOnce part 0x2d with
  | none =>
    simp only [bind, bind_eq_ok, mapError_eq_ok, Option.bind_eq_some_iff,
      parse_eq_ok (by decide : 0 < 65536), Except.ok.injEq, Option.some.injEq]
  | some sides =>
    simp only [bind, bind_eq_ok, mapError_eq_ok, Option.bind_eq_some_iff,
      parse_eq_ok (by decide : 0 < 65536)]
    refine exists_congr fun low => and_congr_right fun _ => exists_congr fun high =>
      and_congr_right fun _ => ?_
    split
    · exact ⟨nofun, nofun⟩
    · rw [Except.ok.injEq, Option.some.injEq]

theorem parseRanges_eq_ok {parts : List Text} {rs : List (Nat × Nat)} :
    errors.parseRanges parts = .ok rs ↔ PortMatcher.parseParts parts = some rs := by
  induction parts generalizing rs with
  | nil => rw [parseRanges, PortMatcher.parseParts, Except.ok.injEq, Option.some.injEq]
  | cons part parts ih =>
    rw [parseRanges, PortMatcher.parseParts]
    split
    · exact ih
    · simp only [bind, bind_eq_ok, Option.bind_eq_some_iff, parseRange_eq_ok, ih,
        Except.ok.injEq, Option.some.injEq]

/-- The messages aside, the rules and the compiler read a port list alike. -/
theorem ranges_eq_ok {ports : Text} {rs : List (Nat × Nat)} :
    errors.ranges ports = .ok rs ↔
      PortMatcher.parseSpans ports = some rs ∧ rs ≠ [] := by
  simp only [PortErrors.ranges, bind, bind_eq_ok, parseRanges_eq_ok]
  constructor
  · rintro ⟨read, hp, hc⟩
    split at hc
    · cases hc
    · rename_i ne
      cases hc
      exact ⟨hp, fun he => ne (List.isEmpty_iff.mpr he)⟩
  · rintro ⟨hp, ne⟩
    refine ⟨rs, hp, if_neg ?_⟩
    exact fun he => ne (List.isEmpty_iff.mp he)

theorem exists_ranges_iff {ports : Text} :
    (∃ rs, errors.ranges ports = .ok rs) ↔ ∃ sp, PortMatcher.parseSpans ports = some sp ∧ sp ≠ [] :=
  exists_congr fun _ => ranges_eq_ok

end PortErrors

namespace PortRule

def errors : PortErrors where
  start _ error := ofString "invalid port: " ++ error.message
  stop _ error := ofString "invalid port: " ++ error.message
  single _ error := ofString "invalid port: " ++ error.message
  range start stop := ofString "invalid port range " ++ decimal start ++
    ofString "-" ++ decimal stop ++ ofString ": start must be <= end"
  emptyList := ofString "invalid port: empty range list"

def new (ports adapter : Text) (isSrc : Bool) : Except Text PortRule :=
  match read : errors.ranges ports with
  | .error message => .error message
  | .ok ranges =>
    .ok
      { ranges, raw := ports, adapter, isSrc
        parsed := (PortErrors.ranges_eq_ok.mp read).1
        nonempty := (PortErrors.ranges_eq_ok.mp read).2 }

def matchesPort (rule : PortRule) (port : Nat) : Bool :=
  Intervals.spansContain rule.ranges port

theorem raw_of_new {ports ad : Text} {isSrc : Bool} {rule : PortRule}
    (hb : new ports ad isSrc = .ok rule) : rule.raw = ports := by
  unfold new at hb
  split at hb <;> cases hb
  rfl

theorem exists_new_iff {ports ad : Text} {isSrc : Bool} :
    (∃ rule, new ports ad isSrc = .ok rule) ↔
      ∃ sp, PortMatcher.parseSpans ports = some sp ∧ sp ≠ [] := by
  rw [← @PortErrors.exists_ranges_iff errors]
  unfold new
  split <;> simp_all

end PortRule

namespace InPortRule

def errors : PortErrors where
  start text error := ofString "invalid IN-PORT range start '" ++ text ++
    ofString "': " ++ error.message
  stop text error := ofString "invalid IN-PORT range end '" ++ text ++
    ofString "': " ++ error.message
  single text error := ofString "invalid IN-PORT '" ++ text ++
    ofString "': " ++ error.message
  range low high := ofString "invalid IN-PORT range " ++ decimal low ++
    ofString "-" ++ decimal high ++ ofString ": start must be <= end"
  emptyList := ofString "invalid IN-PORT: empty range list"

def new (ports adapter : Text) : Except Text InPortRule :=
  match read : errors.ranges ports with
  | .error message => .error message
  | .ok ranges =>
    .ok
      { ranges, raw := ports, adapter
        parsed := (PortErrors.ranges_eq_ok.mp read).1
        nonempty := (PortErrors.ranges_eq_ok.mp read).2 }

def matchesPort (rule : InPortRule) (port : Nat) : Bool :=
  Intervals.spansContain rule.ranges port

theorem raw_of_new {ports ad : Text} {rule : InPortRule}
    (hb : new ports ad = .ok rule) : rule.raw = ports := by
  unfold new at hb
  split at hb <;> cases hb
  rfl

theorem exists_new_iff {ports ad : Text} :
    (∃ rule, new ports ad = .ok rule) ↔
      ∃ sp, PortMatcher.parseSpans ports = some sp ∧ sp ≠ [] := by
  rw [← @PortErrors.exists_ranges_iff errors]
  unfold new
  split <;> simp_all

end InPortRule

namespace PortMatcher

theorem exists_compile_iff {p : Text} :
    (∃ m, compile p = some m) ↔
      ∃ sp, parseSpans p = some sp ∧ sp ≠ [] := by
  constructor
  · rintro ⟨m, hc⟩
    obtain ⟨sp, hp, ne, _⟩ := of_compile hc
    exact ⟨sp, hp, ne⟩
  · rintro ⟨sp, hp, ne⟩
    exact exists_compile hp ne

/-- A payload compiles exactly when the port rules accept it, and then the matcher accepts their
ports; payloads that compile print alike exactly when they stand for the same set of ports. -/
theorem compile_agrees (payload : Text) :
    (∀ adapter isSrc, ((∃ matcher, compile payload = some matcher) ↔
        ∃ rule, PortRule.new payload adapter isSrc = .ok rule) ∧
      ∀ matcher rule, compile payload = some matcher →
        PortRule.new payload adapter isSrc = .ok rule →
          ∀ port < 65536, matcher.contains port = rule.matchesPort port) ∧
    (∀ adapter, ((∃ matcher, compile payload = some matcher) ↔
        ∃ rule, InPortRule.new payload adapter = .ok rule) ∧
      ∀ matcher rule, compile payload = some matcher → InPortRule.new payload adapter = .ok rule →
        ∀ port < 65536, matcher.contains port = rule.matchesPort port) ∧
    ∀ otherPayload matcher other, compile payload = some matcher →
      compile otherPayload = some other → (matcher.fingerprint = other.fingerprint ↔
          ∀ port < 65536, matcher.contains port = other.contains port) := by
  refine ⟨fun adapter isSrc => ⟨?_, ?_⟩, fun adapter => ⟨?_, ?_⟩, ?_⟩
  · rw [exists_compile_iff, PortRule.exists_new_iff]
  · intro matcher rule hc hb port _
    exact contains_of_compile hc (PortRule.raw_of_new hb ▸ rule.parsed) port
  · rw [exists_compile_iff, InPortRule.exists_new_iff]
  · intro matcher rule hc hb port _
    exact contains_of_compile hc (InPortRule.raw_of_new hb ▸ rule.parsed) port
  · intro otherPayload matcher other hc ho
    constructor
    · intro hs port _
      rw [contains_eq_of_fingerprint hc ho hs]
    · exact fingerprint_eq_of_contains hc ho

/-- Touching ranges, in any order, compile to the one range they make up. -/
theorem compile_agrees_touching :
    (∃ rule, PortRule.new (ofString "81-90/80, ") (ofString "P") false = .ok rule ∧
      ∀ port < 65536, (PortMatcher.range 80 90).contains port = rule.matchesPort port) ∧
    ((PortMatcher.range 80 90).fingerprint = (PortMatcher.single 80).fingerprint ↔
      ∀ port < 65536, (PortMatcher.range 80 90).contains port =
        (PortMatcher.single 80).contains port) := by
  have ht : compile (ofString "81-90/80, ") = some (.range 80 90) := by decide +kernel
  have hs : compile (ofString "+80") = some (.single 80) := by decide +kernel
  obtain ⟨ha, _, hc⟩ := compile_agrees (ofString "81-90/80, ")
  obtain ⟨rule, hb⟩ := (ha (ofString "P") false).1.mp ⟨_, ht⟩
  exact ⟨⟨rule, hb, (ha _ _).2 _ rule ht hb⟩, hc _ _ _ ht hs⟩

end PortMatcher

end MeowRs
