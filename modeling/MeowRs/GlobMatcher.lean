import MeowRs.RuleOps

/-!
# The structural wildcard matcher

`GlobMatcher` of the rule compiler, on byte positions as the source walks them, against the language
of the regular expression it stands in for: every `*` is one or more bytes other than a dot, every
other byte of the pattern is itself in either case.
-/

namespace MeowRs

open List Option Text

/-- Literal pieces in pattern order; `split` always yields one. -/
structure GlobMatcher where
  pieces : List Text
  nonempty : pieces ≠ []

namespace GlobMatcher

def compile (pattern : Text) : Option GlobMatcher :=
  let parts := pattern.splitOn 0x2a
  if 3 ≤ parts.length ∧ parts.tail.dropLast.any List.isEmpty then none
  else some ⟨parts, List.splitOn_ne_nil 0x2a pattern⟩

def slice (host : Text) (start stop : Nat) : Text :=
  (host.drop start).take (stop - start)

/-- The loop of `find_after_dotfree_gap` from `start` on. -/
def findAfterDotfreeGap (host needle : Text) (start : Nat) : Option Nat :=
  if start + needle.length ≤ host.length then
    if host[start - 1]? = some dot then none
    else if eqIgnoreAsciiCase (slice host start (start + needle.length)) needle then some start
    else findAfterDotfreeGap host needle (start + 1)
  else none
termination_by host.length + 1 - start

def skipInterior (host : Text) : List Text → Nat → Option Nat
  | [], pos => some pos
  | piece :: pieces, pos =>
    match findAfterDotfreeGap host piece (pos + 1) with
    | some start => skipInterior host pieces (start + piece.length)
    | none => none

/-- The last piece stands at the end, behind a gap that starts at `pos`. -/
def endsAt (host last : Text) (pos : Nat) : Bool :=
  let tailStart := host.length - last.length
  if host.length < last.length then false
  else if tailStart ≤ pos then false
  else if !eqIgnoreAsciiCase (host.drop tailStart) last then false
  else !(slice host pos tailStart).contains dot

/-- `GlobMatcher::matches`. -/
def accepts (matcher : GlobMatcher) (host : Text) : Bool :=
  let first := matcher.pieces.head matcher.nonempty
  let last := matcher.pieces.getLast matcher.nonempty
  if matcher.pieces.length = 1 then eqIgnoreAsciiCase host first
  else if host.length < first.length ∨
      !eqIgnoreAsciiCase (slice host 0 first.length) first then false
  else
    match skipInterior host matcher.pieces.tail.dropLast first.length with
    | none => false
    | some pos => endsAt host last pos

section Language

variable {b : UInt8}

/-- What one byte of a pattern stands for. -/
def token (byte : UInt8) : Language UInt8 :=
  {word | if byte = 0x2a then word ≠ [] ∧ dot ∉ word
    else ∃ symbol, word = [symbol] ∧
      byteToAsciiLowercase symbol = byteToAsciiLowercase byte}

/-- The hosts that `^(?i)…$` around the escaped pattern matches, with `[^.]+` for every star. -/
def wildcardLanguage (pattern : Text) : Language UInt8 :=
  (pattern.map token).prod

theorem mem_token_star {word : Text} : word ∈ token 0x2a ↔ word ≠ [] ∧ dot ∉ word := by
  exact Iff.rfl

theorem mem_token_literal (hl : b ≠ 0x2a) {word : Text} :
    word ∈ token b ↔ ∃ symbol, word = [symbol] ∧
      byteToAsciiLowercase symbol = byteToAsciiLowercase b := by
  exact Iff.of_eq (if_neg hl)

theorem mem_wildcardLanguage_cons {pat host : Text} :
    host ∈ wildcardLanguage (b :: pat) ↔
      ∃ word ∈ token b, ∃ rest ∈ wildcardLanguage pat, word ++ rest = host := by
  rfl

theorem matches_nil_cons {piece : Text} {ps : List Text} {host : Text} :
    Glob.Matches byteToAsciiLowercase dot ([] :: piece :: ps) host ↔
      ∃ gap rest, host = gap ++ rest ∧ gap ≠ [] ∧ dot ∉ gap ∧
        Glob.Matches byteToAsciiLowercase dot (piece :: ps) rest := by
  constructor
  · rintro ⟨hit, _, rfl, hs, gap, lit, rest, rfl, ne, hf, hp, hl⟩
    obtain rfl := map_eq_nil_iff.mp hs
    exact ⟨gap, _, rfl, ne, hf, lit, rest, rfl, hp, hl⟩
  · rintro ⟨gap, _, rfl, ne, hf, lit, rest, rfl, hp, hl⟩
    exact ⟨[], _, rfl, rfl, gap, lit, rest, rfl, ne, hf, hp, hl⟩

theorem matches_cons_cons {piece : Text} {ps : List Text} {host : Text} :
    Glob.Matches byteToAsciiLowercase dot ((b :: piece) :: ps) host ↔
      ∃ symbol rest, host = symbol :: rest ∧ byteToAsciiLowercase symbol = byteToAsciiLowercase b ∧
          Glob.Matches byteToAsciiLowercase dot (piece :: ps) rest := by
  constructor
  · rintro ⟨hit, rest, rfl, hs, hl⟩
    obtain ⟨symbol, hit, rfl, hb, hp⟩ := map_eq_cons_iff.mp hs
    exact ⟨symbol, hit ++ rest, rfl, hb, hit, rest, rfl, hp, hl⟩
  · rintro ⟨symbol, _, rfl, hb, hit, rest, rfl, hp, hl⟩
    exact ⟨symbol :: hit, rest, rfl, by rw [map_cons, map_cons, hb, hp], hl⟩

/-- Pieces in order with gaps between them are what the pattern's tokens concatenate to. -/
theorem matches_splitOn_iff {pat host : Text} :
    Glob.Matches byteToAsciiLowercase dot (pat.splitOn 0x2a) host ↔
      host ∈ wildcardLanguage pat := by
  induction pat generalizing host with
  | nil =>
    constructor
    · rintro ⟨hit, rest, rfl, hs, rfl⟩
      rw [map_eq_nil_iff.mp hs]
      rfl
    · rintro rfl
      exact ⟨[], [], rfl, rfl, rfl⟩
  | cons b pat ih =>
    obtain ⟨piece, ps, hsh⟩ := exists_cons_of_ne_nil (splitOn_ne_nil 0x2a pat)
    rw [mem_wildcardLanguage_cons, splitOn, splitOnP_cons_eq_if_modifyHead]
    by_cases star : b = 0x2a
    · subst star
      change Glob.Matches _ _ ([] :: pat.splitOn 0x2a) host ↔ _
      rw [hsh, matches_nil_cons]
      simp only [← hsh, ih, mem_token_star]
      constructor
      · rintro ⟨gap, rest, rfl, ne, hf, hl⟩
        exact ⟨gap, ⟨ne, hf⟩, rest, hl, rfl⟩
      · rintro ⟨gap, ⟨ne, hf⟩, rest, hl, rfl⟩
        exact ⟨gap, rest, rfl, ne, hf, hl⟩
    · rw [if_neg (by simpa using star)]
      change Glob.Matches _ _ ((pat.splitOn 0x2a).modifyHead (b :: ·)) host ↔ _
      rw [hsh, modifyHead_cons, matches_cons_cons]
      simp only [← hsh, ih, mem_token_literal star]
      constructor
      · rintro ⟨symbol, rest, rfl, hs, hl⟩
        exact ⟨[symbol], ⟨symbol, rfl, hs⟩, rest, hl, rfl⟩
      · rintro ⟨_, ⟨symbol, rfl, hs⟩, rest, hl, rfl⟩
        exact ⟨symbol, rest, rfl, hs, hl⟩

end Language

section Positions

variable {host : Text}

/-- Searching from a position is searching the rest of the host. -/
theorem findAfterGap_drop (piece : Text) (pos : Nat) :
    Glob.findAfterGap byteToAsciiLowercase dot piece (host.drop pos) =
      (findAfterDotfreeGap host piece (pos + 1)).map fun start =>
        host.drop (start + piece.length) := by
  induction dist : host.length - pos generalizing pos with
  | zero =>
    rw [drop_eq_nil_of_le (by omega), findAfterDotfreeGap, if_neg (by omega)]
    rfl
  | succ dist ih =>
    have hi : pos < host.length := by omega
    have hp : host[pos + 1 - 1]? = some dot ↔ host[pos] = dot := by
      rw [Nat.add_sub_cancel, getElem?_eq_getElem hi, some.injEq]
    have hf : pos + 1 + piece.length ≤ host.length ↔
        ¬ (host.drop (pos + 1)).length < piece.length := by
      rw [length_drop]
      omega
    rw [drop_eq_getElem_cons hi, Glob.findAfterGap, findAfterDotfreeGap]
    by_cases hs : (host.drop (pos + 1)).length < piece.length
    · rw [if_pos hs, if_neg (mt hf.mp (not_not.mpr hs))]
      rfl
    rw [if_neg hs, if_pos (hf.mpr hs)]
    by_cases hd : host[pos] = dot
    · rw [if_pos hd, if_pos (hp.mpr hd)]
      rfl
    rw [if_neg hd, if_neg (mt hp.mp hd), slice, add_tsub_cancel_left, drop_drop]
    change (if eqIgnoreAsciiCase _ _ = true then _ else _) = _
    split
    · rfl
    · exact ih (pos + 1) (by omega)

theorem skipPieces_drop (ps : List Text) (pos : Nat) :
    Glob.skipPieces byteToAsciiLowercase dot ps (host.drop pos) =
      (skipInterior host ps pos).map fun pos => host.drop pos := by
  induction ps generalizing pos with
  | nil => rfl
  | cons piece ps ih =>
    rw [Glob.skipPieces, skipInterior, findAfterGap_drop]
    cases findAfterDotfreeGap host piece (pos + 1) with
    | none => rfl
    | some start => exact ih _

theorem endsAfterGap_drop (last : Text) (pos : Nat) :
    Glob.endsAfterGap byteToAsciiLowercase dot last (host.drop pos) =
      endsAt host last pos := by
  unfold Glob.endsAfterGap endsAt
  rw [length_drop, drop_drop]
  by_cases hs : host.length < last.length
  · rw [if_pos hs, decide_eq_false (by omega)]
    rfl
  by_cases he : host.length - last.length ≤ pos
  · rw [if_neg hs, if_pos he, decide_eq_false (by omega)]
    rfl
  · have hst : pos + (host.length - pos - last.length) = host.length - last.length := by omega
    have hg : host.length - pos - last.length = host.length - last.length - pos := by omega
    rw [if_neg hs, if_neg he, decide_eq_true (by omega), Bool.true_and, hst, hg, slice]
    change (eqIgnoreAsciiCase _ _ && _) = _
    cases eqIgnoreAsciiCase (host.drop (host.length - last.length)) last with
    | false => rfl
    | true => simp

theorem accepts_cons_cons {fst snd : Text} {more : List Text} (ne : fst :: snd :: more ≠ []) :
    accepts ⟨fst :: snd :: more, ne⟩ host = if host.length < fst.length ∨
          !eqIgnoreAsciiCase (slice host 0 fst.length) fst then false
      else
        match skipInterior host (snd :: more).dropLast fst.length with
        | none => false
        | some pos => endsAt host ((snd :: more).getLast (List.cons_ne_nil _ _)) pos := by
  have hs : ¬ (fst :: snd :: more).length = 1 := by simp
  rw [accepts]
  rfl

/-- Walking positions and taking the host apart come to the same. -/
theorem accepts_eq_matchPieces (m : GlobMatcher) :
    m.accepts host =
      Glob.matchPieces byteToAsciiLowercase dot m.pieces host := by
  obtain ⟨ps, ne⟩ := m
  match ps, ne with
  | [piece], _ => rfl
  | fst :: snd :: more, _ =>
    unfold Glob.matchPieces Glob.matchesTail
    rw [accepts_cons_cons, slice, drop_zero, Nat.sub_zero]
    dsimp only
    rw [getLast?_eq_some_getLast (cons_ne_nil snd more), skipPieces_drop]
    change _ = (decide (fst.length ≤ host.length) &&
      eqIgnoreAsciiCase (host.take fst.length) fst && _)
    by_cases hs : host.length < fst.length
    · rw [if_pos (Or.inl hs), decide_eq_false (not_le.mpr hs)]
      rfl
    rw [decide_eq_true (le_of_not_gt hs), Bool.true_and]
    cases same : eqIgnoreAsciiCase (host.take fst.length) fst with
    | false => rw [if_pos (Or.inr Bool.not_false), Bool.false_and]
    | true =>
      rw [if_neg (by simpa using le_of_not_gt hs), Bool.true_and]
      cases skipInterior host (snd :: more).dropLast fst.length with
      | none => rfl
      | some pos => exact (endsAfterGap_drop _ pos).symm

end Positions

theorem keeps_dot (b : UInt8) (hs : byteToAsciiLowercase b = byteToAsciiLowercase dot) :
    b = dot := by
  exact byteToAsciiLowercase_eq_dot_iff.mp hs

theorem pieces_of_compile {pat : Text} {m : GlobMatcher}
    (hc : compile pat = some m) : m.pieces = pat.splitOn 0x2a := by
  unfold compile at hc
  dsimp only at hc
  split at hc <;> cases hc
  rfl

/-- The matcher accepts exactly the hosts that split into the literal pieces, in order, with a
dot-free gap for every star; these make up the language of the regular expression. -/
theorem accepts_iff (pattern host : Text) (matcher : GlobMatcher)
    (compiled : compile pattern = some matcher) :
    (matcher.accepts host = true ↔
      Glob.Matches byteToAsciiLowercase dot (pattern.splitOn 0x2a) host) ∧
    (matcher.accepts host = true ↔ host ∈ wildcardLanguage pattern) := by
  rw [accepts_eq_matchPieces, Glob.matchPieces_iff keeps_dot, pieces_of_compile compiled,
    matches_splitOn_iff]
  exact ⟨Iff.rfl, Iff.rfl⟩

theorem accepts_iff_label :
    ofString "Api7.example.COM" ∈ wildcardLanguage (ofString "api*.example.com") := by
  have hc : ∃ matcher, compile (ofString "api*.example.com") = some matcher ∧
      matcher.accepts (ofString "Api7.example.COM") = true :=
    ⟨_, rfl, by decide +kernel⟩
  obtain ⟨matcher, hm, ha⟩ := hc
  exact (accepts_iff _ _ matcher hm).2.mp ha

end GlobMatcher

end MeowRs
