import MeowRs.Numerals
import MeowRs.SpanMerging

/-!
# Port lists

A port list such as `80,8000-8100/443` as the port rules and the rule compiler read it.  The compiler
sorts the spans and merges those that overlap or touch; the merged spans hold the same ports, and
their printed form identifies them.
-/

namespace MeowRs

open List Option Text

open Intervals (mergeInto mergeSpans spanLe spansContain spansContain_iff spansContain_merge
  sorted_merge)

namespace PortMatcher

/-- One part of a port list, `none` when it is malformed. -/
def parseSpan (part : Text) : Option (Nat × Nat) :=
  match splitOnce part 0x2d with
  | some (start, stop) => do
      let start ← parseUnsigned 65536 (trim start)
      let stop ← parseUnsigned 65536 (trim stop)
      if stop < start then none else some (start, stop)
  | none => do
      let value ← parseUnsigned 65536 part
      some (value, value)

/-- The spans of the parts of a port list that are not blank. -/
def parseParts : List Text → Option (List (Nat × Nat))
  | [] => some []
  | part :: parts =>
    if (trim part).isEmpty then parseParts parts
    else do
      let span ← parseSpan (trim part)
      let spans ← parseParts parts
      some (span :: spans)

/-- The spans of a port list, separated by commas or slashes. -/
def parseSpans (payload : Text) : Option (List (Nat × Nat)) :=
  parseParts (payload.splitOnP fun byte => byte == 0x2c || byte == 0x2f)

end PortMatcher

inductive PortRange where
  | single (value : Nat)
  | range (low high : Nat)
  deriving DecidableEq, Repr

inductive PortMatcher where
  | single (value : Nat)
  | range (low high : Nat)
  | multiple (ranges : List PortRange)
  deriving DecidableEq, Repr

namespace PortRange

def ofSpan (span : Nat × Nat) : PortRange :=
  if span.1 = span.2 then .single span.1 else .range span.1 span.2

def contains : PortRange → Nat → Bool
  | .single value, port => port == value
  | .range low high, port => low ≤ port && port ≤ high

def fingerprint : PortRange → Text
  | .single value => decimal value
  | .range low high => decimal low ++ [0x2d] ++ decimal high

theorem contains_ofSpan {span : Nat × Nat} (port : Nat) :
    (ofSpan span).contains port = (span.1 ≤ port && port ≤ span.2) := by
  unfold ofSpan
  split
  · rename_i single
    rw [contains, Bool.eq_iff_iff]
    simp only [beq_iff_eq, Bool.and_eq_true, decide_eq_true_eq]
    omega
  · rfl

end PortRange

namespace PortMatcher

def compile (payload : Text) : Option PortMatcher := do
  let spans ← parseSpans payload
  match mergeSpans (spans.insertionSort spanLe) with
  | [] => none
  | [span] => if span.1 = span.2 then some (.single span.1) else some (.range span.1 span.2)
  | merged => some (.multiple (merged.map PortRange.ofSpan))

def contains : PortMatcher → Nat → Bool
  | .single value, port => port == value
  | .range low high, port => low ≤ port && port ≤ high
  | .multiple ranges, port => ranges.any fun range => range.contains port

def fingerprint : PortMatcher → Text
  | .single value => decimal value
  | .range low high => decimal low ++ [0x2d] ++ decimal high
  | .multiple ranges => [0x2c].intercalate (ranges.map PortRange.fingerprint)

/-- The compiled matcher accepts the ports of the list. -/
theorem contains_of_compile {payload : Text} {matcher : PortMatcher}
    (compiled : compile payload = some matcher) {spans : List (Nat × Nat)}
    (parsed : parseSpans payload = some spans) (port : Nat) :
    matcher.contains port = spansContain spans port := by
  rw [← spansContain_merge]
  rw [compile, parsed] at compiled
  dsimp only [bind_eq_bind, bind_some] at compiled
  split at compiled
  · cases compiled
  · rename_i span shape
    rw [shape]
    have single := @PortRange.contains_ofSpan span port
    unfold PortRange.ofSpan at single
    split at compiled
    · rename_i isSingle
      cases compiled
      rw [if_pos isSingle] at single
      rw [spansContain, any_cons, any_nil, Bool.or_false, ← single]
      rfl
    · cases compiled
      simp [spansContain, contains]
  · cases compiled
    rw [contains, spansContain, List.any_map]
    congr 1
    funext span
    exact PortRange.contains_ofSpan port

section Fingerprint

def ranges : PortMatcher → List PortRange
  | .single value => [.single value]
  | .range low high => [.range low high]
  | .multiple ranges => ranges

theorem contains_eq_ranges (matcher : PortMatcher) (port : Nat) :
    matcher.contains port = matcher.ranges.any fun range => range.contains port := by
  cases matcher <;> simp [contains, ranges, PortRange.contains]

theorem fingerprint_eq_ranges (matcher : PortMatcher) :
    matcher.fingerprint = [0x2c].intercalate (matcher.ranges.map PortRange.fingerprint) := by
  cases matcher <;> simp [fingerprint, ranges, PortRange.fingerprint, intercalate]

theorem ranges_fingerprint_injective : Function.Injective PortRange.fingerprint := by
  have dash : ∀ value : Nat, (0x2d : UInt8) ∉ decimal value := fun value =>
    notMem_decimal (by decide)
  intro first second same
  cases first with
  | single value =>
    cases second with
    | single other => rw [decimal_injective same]
    | range low high =>
      refine absurd ?_ (dash value)
      rw [show decimal value = _ from same]
      exact mem_append_left _ (mem_append_right _ mem_cons_self)
  | range low high =>
    cases second with
    | single other =>
      refine absurd ?_ (dash other)
      rw [← show _ = decimal other from same]
      exact mem_append_left _ (mem_append_right _ mem_cons_self)
    | range otherLow otherHigh =>
      simp only [PortRange.fingerprint, append_assoc, singleton_append] at same
      obtain ⟨lows, _, highs⟩ := (append_cons_inj_of_notMem (dash low) (dash high)).mp same
      rw [decimal_injective lows, decimal_injective highs]

theorem comma_notMem_fingerprint (range : PortRange) : (0x2c : UInt8) ∉ range.fingerprint := by
  have comma : ∀ value : Nat, (0x2c : UInt8) ∉ decimal value := fun value =>
    notMem_decimal (by decide)
  cases range with
  | single value => exact comma value
  | range low high =>
    simp only [PortRange.fingerprint, mem_append, not_or]
    exact ⟨⟨comma low, by decide⟩, comma high⟩

theorem ranges_ne_nil_of_compile {payload : Text} {matcher : PortMatcher}
    (compiled : compile payload = some matcher) : matcher.ranges ≠ [] := by
  obtain ⟨spans, _, shape⟩ := bind_eq_some_iff.mp compiled
  split at shape
  · cases shape
  · split at shape
    all_goals
      cases shape
      exact cons_ne_nil _ _
  · rename_i nonempty _
    cases shape
    exact fun empty => nonempty (map_eq_nil_iff.mp empty)

theorem contains_eq_of_fingerprint {payload otherPayload : Text} {matcher other : PortMatcher}
    (compiled : compile payload = some matcher) (otherCompiled : compile otherPayload = some other)
    (same : matcher.fingerprint = other.fingerprint) : matcher.contains = other.contains := by
  have free : ∀ ranges : List PortRange,
      ∀ text ∈ ranges.map PortRange.fingerprint, (0x2c : UInt8) ∉ text := by
    intro ranges text member
    obtain ⟨range, _, rfl⟩ := mem_map.mp member
    exact comma_notMem_fingerprint range
  have nonempty : ∀ {payload : Text} {matcher : PortMatcher}, compile payload = some matcher →
      matcher.ranges.map PortRange.fingerprint ≠ [] := fun compiled empty =>
    ranges_ne_nil_of_compile compiled (map_eq_nil_iff.mp empty)
  rw [fingerprint_eq_ranges, fingerprint_eq_ranges] at same
  have parts := congrArg (splitOn 0x2c) same
  rw [splitOn_intercalate _ (free _) (nonempty compiled),
    splitOn_intercalate _ (free _) (nonempty otherCompiled)] at parts
  funext port
  rw [contains_eq_ranges, contains_eq_ranges,
    map_injective_iff.mpr ranges_fingerprint_injective parts]

end Fingerprint

section Canonical

variable {spans : List (Nat × Nat)} {span : Nat × Nat}

theorem of_parseSpan {part : Text} (parsed : parseSpan part = some span) :
    span.1 ≤ span.2 ∧ span.2 < 65536 := by
  unfold parseSpan at parsed
  split at parsed
  · obtain ⟨start, _, rest⟩ := bind_eq_some_iff.mp parsed
    obtain ⟨stop, readStop, checked⟩ := bind_eq_some_iff.mp rest
    split at checked
    · cases checked
    · rename_i ordered
      cases checked
      exact ⟨le_of_not_gt ordered, lt_of_parseUnsigned readStop⟩
  · obtain ⟨value, readValue, made⟩ := bind_eq_some_iff.mp parsed
    cases made
    exact ⟨le_refl _, lt_of_parseUnsigned readValue⟩

theorem of_mem_parseParts {parts : List Text}
    (parsed : parseParts parts = some spans) (member : span ∈ spans) :
    span.1 ≤ span.2 ∧ span.2 < 65536 := by
  induction parts generalizing spans with
  | nil =>
    cases parsed
    exact absurd member not_mem_nil
  | cons part parts ih =>
    rw [parseParts] at parsed
    split at parsed
    · exact ih parsed member
    · obtain ⟨first, readFirst, more⟩ := bind_eq_some_iff.mp parsed
      obtain ⟨rest, readRest, made⟩ := bind_eq_some_iff.mp more
      cases made
      rcases mem_cons.mp member with rfl | later
      · exact of_parseSpan readFirst
      · exact ih readRest later

theorem of_compile {payload : Text} {matcher : PortMatcher}
    (compiled : compile payload = some matcher) :
    ∃ spans, parseSpans payload = some spans ∧ spans ≠ [] ∧
      matcher.ranges = (mergeSpans (spans.insertionSort spanLe)).map PortRange.ofSpan := by
  obtain ⟨spans, parsed, shape⟩ := bind_eq_some_iff.mp compiled
  have nonempty : spans ≠ [] := by
    rintro rfl
    cases shape
  refine ⟨spans, parsed, nonempty, ?_⟩
  split at shape
  · cases shape
  · rename_i span merged
    rw [merged, map_singleton, PortRange.ofSpan]
    split at shape <;> cases shape <;> simp_all [ranges]
  · cases shape
    rfl

theorem exists_compile {payload : Text}
    (parsed : parseSpans payload = some spans) (nonempty : spans ≠ []) :
    ∃ matcher, compile payload = some matcher := by
  have sortedNonempty : spans.insertionSort spanLe ≠ [] := fun empty =>
    nonempty (perm_nil.mp (empty ▸ (perm_insertionSort spanLe spans).symm))
  obtain ⟨first, rest, shape⟩ := exists_cons_of_ne_nil sortedNonempty
  have merged : ∀ last spans, mergeInto last spans ≠ [] := by
    intro last spans
    induction spans generalizing last with
    | nil => exact cons_ne_nil _ _
    | cons span spans ih =>
      rw [mergeInto]
      split
      · exact ih _
      · exact cons_ne_nil _ _
  rw [compile, parsed, bind_eq_bind, bind_some, shape, mergeSpans]
  split
  · exact absurd ‹_› (merged first rest)
  · split <;> exact ⟨_, rfl⟩
  · exact ⟨_, rfl⟩

/-- Compiled matchers that accept the same ports print alike. -/
theorem fingerprint_eq_of_contains {payload otherPayload : Text} {matcher other : PortMatcher}
    (compiled : compile payload = some matcher) (otherCompiled : compile otherPayload = some other)
    (same : ∀ port < 65536, matcher.contains port = other.contains port) :
    matcher.fingerprint = other.fingerprint := by
  obtain ⟨spans, parsed, _, ranges⟩ := of_compile compiled
  obtain ⟨otherSpans, otherParsed, _, otherRanges⟩ := of_compile otherCompiled
  have member : ∀ {payload : Text} {matcher : PortMatcher} {spans : List (Nat × Nat)},
      compile payload = some matcher → parseSpans payload = some spans → ∀ port,
        Intervals.Member (mergeSpans (spans.insertionSort spanLe)) port ↔
          matcher.contains port = true ∧ port < 65536 := by
    intro payload matcher spans compiled parsed port
    rw [← spansContain_iff, spansContain_merge, contains_of_compile compiled parsed]
    refine ⟨fun contained => ⟨contained, ?_⟩, And.left⟩
    obtain ⟨span, inSpans, _, below⟩ := spansContain_iff.mp contained
    exact below.trans_lt (of_mem_parseParts parsed inSpans).2
  have merged : mergeSpans (spans.insertionSort spanLe) =
      mergeSpans (otherSpans.insertionSort spanLe) := by
    refine Intervals.Sorted.eq_of_member_iff Intervals.isNext_natNext
      (sorted_merge fun span inSpans => (of_mem_parseParts parsed inSpans).1)
      (sorted_merge fun span inSpans => (of_mem_parseParts otherParsed inSpans).1) fun port => ?_
    rw [member compiled parsed, member otherCompiled otherParsed]
    exact and_congr_left fun isPort => by rw [same port isPort]
  rw [fingerprint_eq_ranges, fingerprint_eq_ranges, ranges, otherRanges, merged]

end Canonical

end PortMatcher

end MeowRs
