import Mathlib.Data.List.Basic

/-!
# Glob matching

A glob is a list of literal pieces with a gap between neighbours: one or more symbols other than
`stop`.  The first piece stands at the start of the text and the last one at its end.  Literals are
compared through `fold`, which must not confuse `stop` with another symbol.  The matcher places every
inner piece as early as it can; that loses no match.
-/

namespace MeowRs.Glob

open List Option

variable {α : Type} [DecidableEq α] (fold : α → α) (stop : α) {ps : List (List α)}
  {text : List α}

def same (text literal : List α) : Bool :=
  text.map fold == literal.map fold

def findAfterGap (literal : List α) : List α → Option (List α)
  | [] => none
  | first :: rest =>
    if rest.length < literal.length then none
    else if first = stop then none
    else if same fold (rest.take literal.length) literal then some (rest.drop literal.length)
    else findAfterGap literal rest

def skipPieces : List (List α) → List α → Option (List α)
  | [], text => some text
  | piece :: pieces, text =>
    match findAfterGap fold stop piece text with
    | some rest => skipPieces pieces rest
    | none => none

/-- Whether a text is a gap and a literal. -/
def endsAfterGap (literal text : List α) : Bool :=
  literal.length < text.length &&
    same fold (text.drop (text.length - literal.length)) literal &&
      stop ∉ text.take (text.length - literal.length)

/-- Whether a text, behind the first piece, consists of the other pieces behind gaps. -/
def matchesTail (pieces : List (List α)) (text : List α) : Bool :=
  match pieces.getLast? with
  | none => text.isEmpty
  | some last =>
    match skipPieces fold stop pieces.dropLast text with
    | some rest => endsAfterGap fold stop last rest
    | none => false

def matchPieces (pieces : List (List α)) (text : List α) : Bool :=
  match pieces with
  | [] => false
  | [piece] => same fold text piece
  | first :: pieces =>
    first.length ≤ text.length && same fold (text.take first.length) first &&
      matchesTail fold stop pieces (text.drop first.length)

/-- What the matcher is for: each piece stands behind a gap. -/
def GapMatches : List (List α) → List α → Prop
  | [], text => text = []
  | piece :: pieces, text =>
    ∃ gap found rest, text = gap ++ (found ++ rest) ∧ gap ≠ [] ∧ stop ∉ gap ∧
      found.map fold = piece.map fold ∧ GapMatches pieces rest

def Matches (pieces : List (List α)) (text : List α) : Prop :=
  match pieces with
  | [] => False
  | piece :: pieces =>
    ∃ found rest, text = found ++ rest ∧ found.map fold = piece.map fold ∧
      GapMatches fold stop pieces rest

variable {fold stop}

theorem same_iff {text lit : List α} : same fold text lit = true ↔ text.map fold = lit.map fold :=
  beq_iff_eq

omit [DecidableEq α] in
theorem GapMatches.prepend {piece : List α} {text extra : List α}
    (hm : GapMatches fold stop (piece :: ps) text) (hf : stop ∉ extra) :
    GapMatches fold stop (piece :: ps) (extra ++ text) := by
  obtain ⟨gap, hit, rest, rfl, ne, hg, hl, ht⟩ := hm
  refine ⟨extra ++ gap, hit, rest, (append_assoc _ _ _).symm, ?_, ?_, hl, ht⟩
  · exact fun he => ne (append_eq_nil_iff.mp he).2
  · rw [mem_append]
    exact not_or.mpr ⟨hf, hg⟩

theorem of_findAfterGap {piece text rest : List α}
    (hi : findAfterGap fold stop piece text = some rest) :
    ∃ gap lit, text = gap ++ (lit ++ rest) ∧ gap ≠ [] ∧ stop ∉ gap ∧
      lit.map fold = piece.map fold := by
  induction text with
  | nil => cases hi
  | cons fst text ih =>
    rw [findAfterGap] at hi
    split at hi
    · cases hi
    split at hi
    · cases hi
    rename_i notStop
    split at hi
    · rename_i lit
      cases hi
      refine ⟨[fst], text.take piece.length, ?_, cons_ne_nil _ _, ?_, same_iff.mp lit⟩
      · rw [take_append_drop, singleton_append]
      · rw [mem_singleton]
        exact fun hs => notStop hs.symm
    · obtain ⟨gap, lit, rfl, ne, hf, hl⟩ := ih hi
      refine ⟨fst :: gap, lit, rfl, cons_ne_nil _ _, ?_, hl⟩
      rw [mem_cons, not_or]
      exact ⟨fun hs => notStop hs.symm, hf⟩

omit [DecidableEq α] in
/-- A literal that occurs again after a shift over a stop-free text is stop-free itself: its first
stop would show up again that much earlier, and in the end among the symbols shifted over. -/
theorem stop_notMem_of_shift (keeps : ∀ a, fold a = fold stop → a = stop)
    {shift literal early rest : List α} (shifted : shift ≠ []) (free : stop ∉ shift)
    (sameFold : early.map fold = literal.map fold)
    (overlap : early = (shift ++ (literal ++ rest)).take early.length) : stop ∉ literal := by
  have lengths : early.length = literal.length := by
    simpa using congrArg List.length sameFold
  have absent : ∀ index : Nat, literal[index]? ≠ some stop := by
    intro index
    induction index using Nat.strongRecOn with
    | ind index ih =>
      intro atIndex
      have inside : index < literal.length := (List.getElem?_eq_some_iff.mp atIndex).1
      -- the same position of the early occurrence is a stop, and it lies in the shifted text
      have earlyStop : early[index]? = some stop := by
        have folded := congrArg (fun list : List α => list[index]?) sameFold
        simp only [getElem?_map, atIndex, map_some] at folded
        obtain ⟨symbol, atEarly, isStop⟩ := map_eq_some_iff.mp folded
        rw [atEarly, keeps symbol isStop]
      rw [overlap, getElem?_take_of_lt (by omega)] at earlyStop
      rcases Nat.lt_or_ge index shift.length with inShift | beyond
      · rw [getElem?_append_left inShift] at earlyStop
        exact free (mem_of_getElem? earlyStop)
      · rw [getElem?_append_right beyond,
          getElem?_append_left (by omega)] at earlyStop
        have positive := length_pos_iff.mpr shifted
        exact ih (index - shift.length) (by omega) earlyStop
  intro member
  obtain ⟨index, atIndex⟩ := mem_iff_getElem?.mp member
  exact absent index atIndex

theorem findAfterGap_complete (hk : ∀ a, fold a = fold stop → a = stop) {piece next : List α}
    (matched : GapMatches fold stop (piece :: next :: ps) text) :
    ∃ rest, findAfterGap fold stop piece text = some rest ∧
      GapMatches fold stop (next :: ps) rest := by
  induction text with
  | nil =>
    obtain ⟨gap, hit, rest, split, ne, _⟩ := matched
    exact absurd (append_eq_nil_iff.mp split.symm).1 ne
  | cons fst text ih =>
    obtain ⟨gap, hit, rest, split, ne, free, lit, tail⟩ := matched
    cases gap with
    | nil => exact absurd rfl ne
    | cons start gap =>
      rw [cons_append] at split
      obtain ⟨rfl, textEq⟩ := cons.inj split
      obtain ⟨notStop, gapFree⟩ := not_or.mp (free <| mem_cons.mpr ·)
      have lens : hit.length = piece.length := by
        simpa using congrArg List.length lit
      have fits : piece.length ≤ text.length := by
        rw [textEq, length_append, length_append]
        omega
      rw [findAfterGap, if_neg (by omega), if_neg (fun isStop => notStop isStop.symm)]
      split
      · rename_i here
        refine ⟨_, rfl, ?_⟩
        rcases eq_or_ne gap [] with rfl | longer
        · rw [textEq, nil_append, drop_left' lens]
          exact tail
        · -- the early occurrence overlaps the gap, which then goes on without a stop
          have foundFree : stop ∉ hit := by
            apply stop_notMem_of_shift hk longer gapFree
              ((same_iff.mp here).trans lit.symm)
            rw [← textEq, length_take, Nat.min_eq_left fits]
          have dropped : text.drop piece.length =
              (gap ++ hit).drop piece.length ++ rest := by
            rw [textEq, ← append_assoc, drop_append_of_le_length]
            rw [length_append]
            omega
          rw [dropped]
          apply tail.prepend
          intro mem
          rcases mem_append.mp (mem_of_mem_drop mem) with inGap | inFound
          · exact gapFree inGap
          · exact foundFree inFound
      · rename_i notHere
        apply ih
        refine ⟨gap, hit, rest, textEq, ?_, gapFree, lit, tail⟩
        rintro rfl
        apply notHere
        rw [textEq, nil_append, take_left' lens]
        exact same_iff.mpr lit

theorem endsAfterGap_iff {lit text : List α} :
    endsAfterGap fold stop lit text = true ↔ GapMatches fold stop [lit] text := by
  simp only [endsAfterGap, Bool.and_eq_true, decide_eq_true_eq, same_iff]
  constructor
  · rintro ⟨⟨hlo, hs⟩, hf⟩
    refine ⟨_, _, [], ?_, ?_, hf, hs, rfl⟩
    · rw [append_nil, take_append_drop]
    · apply ne_nil_of_length_pos
      rw [length_take]
      omega
  · rintro ⟨gap, hit, rest, hsp, ne, hf, hs, rfl⟩
    have hl : hit.length = lit.length := by
      simpa using congrArg List.length hs
    rw [append_nil] at hsp
    have hg : text.length - lit.length = gap.length := by
      rw [hsp, length_append]
      omega
    have hp := length_pos_iff.mpr ne
    rw [hg, hsp, drop_left, take_left, length_append]
    exact ⟨⟨by omega, hs⟩, hf⟩

section

variable (hk : ∀ a, fold a = fold stop → a = stop)
include hk

theorem skipPieces_iff {last : List α} :
    (∃ rest, skipPieces fold stop ps text = some rest ∧ GapMatches fold stop [last] rest) ↔
      GapMatches fold stop (ps ++ [last]) text := by
  induction ps generalizing text with
  | nil => simp [skipPieces]
  | cons piece ps ih =>
    rw [skipPieces, cons_append]
    constructor
    · rintro ⟨rest, hs, ht⟩
      cases hi : findAfterGap fold stop piece text with
      | none =>
        rw [hi] at hs
        cases hs
      | some after =>
        rw [hi] at hs
        obtain ⟨gap, lit, rfl, ne, hf, same⟩ := of_findAfterGap hi
        exact ⟨gap, lit, after, rfl, ne, hf, same, ih.mp ⟨rest, hs, ht⟩⟩
    · intro hm
      obtain ⟨next, more, hsh⟩ : ∃ next more, ps ++ [last] = next :: more :=
        exists_cons_of_ne_nil (by simp)
      rw [hsh] at hm
      obtain ⟨after, hi, ht⟩ := findAfterGap_complete hk hm
      rw [← hsh] at ht
      rw [hi]
      exact ih.mpr ht

theorem matchesTail_iff : matchesTail fold stop ps text = true ↔ GapMatches fold stop ps text := by
  rcases eq_nil_or_concat ps with rfl | ⟨inner, last, rfl⟩
  · exact isEmpty_iff
  · rw [concat_eq_append, ← skipPieces_iff hk, matchesTail, getLast?_concat, dropLast_concat]
    cases skipPieces fold stop inner text with
    | none => simp
    | some rest => simpa using endsAfterGap_iff

theorem matchPieces_iff : matchPieces fold stop ps text = true ↔ Matches fold stop ps text := by
  unfold matchPieces
  split
  · exact ⟨nofun, False.elim⟩
  · rw [same_iff]
    constructor
    · exact fun hs => ⟨text, [], (append_nil text).symm, hs, rfl⟩
    · rintro ⟨hit, rest, rfl, hs, rfl⟩
      rw [append_nil, hs]
  · simp only [Bool.and_eq_true, decide_eq_true_eq, same_iff, matchesTail_iff hk]
    constructor
    · rintro ⟨⟨_, hs⟩, ht⟩
      exact ⟨_, _, (take_append_drop _ text).symm, hs, ht⟩
    · rintro ⟨hit, rest, rfl, hs, ht⟩
      rename_i fst ps _
      have hl : hit.length = fst.length := by
        simpa using congrArg List.length hs
      rw [take_left' hl, drop_left' hl, length_append]
      exact ⟨⟨by omega, hs⟩, ht⟩

end

end MeowRs.Glob
