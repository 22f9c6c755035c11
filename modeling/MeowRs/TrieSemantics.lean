import MeowRs.DomainPatterns

/-!
# Searches of a domain trie meet the meaning of its patterns

A search walks the labels of a host from the right and looks at the slots of the node it is at.  The
slots it looks at are those of the patterns that match the host, in increasing order of specificity:
the last occupied one is the most specific match, and the smallest value in them is the minimum.
-/

namespace MeowRs.DomainTrie

open List Option Text

variable {T : Type} {pat : Pattern}

/-- How many labels a host may have before the base of a pattern. -/
def MatchKind.Admits : MatchKind → Nat → Prop
  | .exact, extra => extra = 0
  | .star, extra => extra = 1
  | .dot, extra => extra ≠ 0

theorem Pattern.matches_iff {host : List Text} :
    pat.Matches host ↔
      ∃ extra, host = extra ++ pat.base ∧ pat.kind.Admits extra.length := by
  obtain ⟨kind, base⟩ := pat
  cases kind with
  | exact => simp [Matches, MatchKind.Admits, length_eq_zero_iff]
  | star =>
    simp only [Matches, MatchKind.Admits, length_eq_one_iff]
    exact ⟨fun ⟨l, hs⟩ => ⟨[l], hs, l, rfl⟩, fun ⟨_, hs, l, hsi⟩ => ⟨l, by rw [hs, hsi]; rfl⟩⟩
  | dot =>
    simp only [Matches, MatchKind.Admits, ne_eq, length_eq_zero_iff]
    exact exists_congr fun _ => and_comm

theorem Pattern.Outranks.asymm {pat o : Pattern} (above : pat.Outranks o) : ¬ o.Outranks pat := by
  rintro ⟨notExact, below⟩
  obtain ⟨otherNotExact, above⟩ := above
  rcases above with exact | longer | ⟨same, star, dot⟩
  · exact notExact exact
  · rcases below with exact | shorter | ⟨same, _⟩
    · exact otherNotExact exact
    · omega
    · rw [same] at longer
      omega
  · rcases below with exact | shorter | ⟨_, star', _⟩
    · exact otherNotExact exact
    · rw [same] at shorter
      omega
    · rw [star'] at dot
      cases dot

/-- The patterns with a base that match a host with `remaining` more labels. -/
def basePatterns (base : List Text) : Nat → List Pattern
  | 0 => [⟨.exact, base⟩]
  | 1 => [⟨.dot, base⟩, ⟨.star, base⟩]
  | _ => [⟨.dot, base⟩]

/-- The patterns that match a host, the least specific one first.  The labels to go come from the
right; those of `base` are behind. -/
def candidates (base : List Text) : List Text → List Pattern
  | [] => []
  | label :: labels => basePatterns (label :: base) labels.length ++ candidates (label :: base) labels

theorem mem_basePatterns {base : List Text} {rem : Nat} :
    pat ∈ basePatterns base rem ↔
      pat.base = base ∧ pat.kind.Admits rem := by
  obtain ⟨kind, o⟩ := pat
  match rem with
  | 0 | 1 => cases kind <;> simp [basePatterns, MatchKind.Admits]
  | rem + 2 => cases kind <;> simp [basePatterns, MatchKind.Admits]

/-- A candidate takes some of the labels to go into its base and admits the others. -/
theorem mem_candidates {base ls : List Text} :
    pat ∈ candidates base ls ↔ ∃ taken rest, ls = taken ++ rest ∧ taken ≠ [] ∧
      pat.base = taken.reverse ++ base ∧ pat.kind.Admits rest.length := by
  induction ls generalizing base with
  | nil =>
    simp only [candidates, not_mem_nil, false_iff]
    rintro ⟨taken, rest, hs, hst, _⟩
    exact hst (append_eq_nil_iff.mp hs.symm).1
  | cons l ls ih =>
    rw [candidates, mem_append, ih, mem_basePatterns]
    constructor
    · rintro (⟨hb, ha⟩ | ⟨taken, rest, rfl, _, hb, ha⟩)
      · exact ⟨[l], ls, rfl, nofun, hb, ha⟩
      · exact ⟨l :: taken, rest, rfl, nofun, by simp [hb], ha⟩
    · rintro ⟨taken, rest, hs, hst, hb, ha⟩
      cases taken with
      | nil => exact absurd rfl hst
      | cons fst taken =>
        obtain ⟨rfl, rfl⟩ := cons.inj hs
        rcases eq_or_ne taken [] with rfl | hm
        · exact Or.inl ⟨hb, ha⟩
        · exact Or.inr ⟨taken, rest, rfl, hm, by simp [hb], ha⟩

/-- From the whole host on, the candidates are the patterns that match it. -/
theorem mem_candidates_iff_matches {host : List Text} :
    pat ∈ candidates [] host.reverse ↔ pat.base ≠ [] ∧ pat.Matches host := by
  rw [mem_candidates, Pattern.matches_iff]
  constructor
  · rintro ⟨taken, rest, hs, hst, hb, ha⟩
    rw [append_nil] at hb
    refine ⟨by simpa [hb] using hst, rest.reverse, ?_, by simpa using ha⟩
    rw [hb, ← reverse_append, ← hs, reverse_reverse]
  · rintro ⟨hbas, extra, rfl, ha⟩
    exact ⟨pat.base.reverse, extra.reverse, by simp, by simpa using hbas, by simp,
      by simpa using ha⟩

theorem candidates_ascending (base ls : List Text) :
    (candidates base ls).Pairwise fun prev later => later.Outranks prev := by
  induction ls generalizing base with
  | nil => exact Pairwise.nil
  | cons l ls ih =>
    refine pairwise_append.mpr ⟨?_, ih _, ?_⟩
    · match ls.length with
      | 0 => exact pairwise_singleton _ _
      | 1 => simp [basePatterns, Pattern.Outranks]
      | _ + 2 => exact pairwise_singleton _ _
    · intro prev inBase later isLater
      obtain ⟨sameBase, admits⟩ := mem_basePatterns.mp inBase
      obtain ⟨taken, rest, rfl, someTaken, longer, _⟩ := mem_candidates.mp isLater
      have taken_pos := length_pos_iff.mpr someTaken
      refine ⟨fun exact => ?_, Or.inr (Or.inl ?_)⟩
      · rw [exact, MatchKind.Admits, length_append] at admits
        omega
      · rw [longer, sameBase, length_append, length_reverse]
        omega

section Walks

variable {b : Builder T} {slots : Slots T} {pats : List Pattern} {base : List Text}
  {node : Nat}

theorem foldl_of_vacant {fold : Option T → Option T → Option T}
    (hs : ∀ best, fold best none = best) (hv : ∀ pat ∈ pats, slots pat = none)
    (best : Option T) : pats.foldl (fun best pat => fold best (slots pat)) best = best := by
  induction pats with
  | nil => rfl
  | cons pat pats ih =>
    rw [foldl_cons, hv pat mem_cons_self, hs]
    exact ih fun o hm => hv o (mem_cons_of_mem _ hm)

theorem descend_root (b : Builder T) : b.descend 0 ([] : List Text).reverse = some 0 :=
  rfl

theorem descend_child {l : Text} {node c : Nat} (at_ : b.descend 0 base.reverse = some node)
    (hi : b.child node l = some c) : b.descend 0 (l :: base).reverse = some c := by
  rw [reverse_cons, Builder.descend_append, at_, bind_some, Builder.descend, hi]
  rfl

theorem foldMin_eq [LinearOrder T] (best candidate : Option T) :
    foldMin best candidate = Option.merge min best candidate := by
  cases best <;> cases candidate <;> simp [foldMin, min_def]
  split <;> rfl

theorem foldMin_right_comm [LinearOrder T] (best fst snd : Option T) :
    foldMin (foldMin best fst) snd = foldMin (foldMin best snd) fst := by
  simp only [foldMin_eq]
  cases best <;> cases fst <;> cases snd <;> simp [min_comm, min_left_comm]

section

variable (holds : ∀ pat : Pattern, b.slotAt pat.base.reverse pat.kind = slots pat)
  (at_ : b.descend 0 base.reverse = some node)
  {ls : List Text}
include holds at_

theorem candidates_vacant {l : Text} (hm : b.child node l = none) :
    ∀ pat ∈ candidates base (l :: ls), slots pat = none := by
  intro pat mem
  obtain ⟨taken, rest, hs, hst, hb, _⟩ := mem_candidates.mp mem
  cases taken with
  | nil => exact absurd rfl hst
  | cons fst taken =>
    obtain ⟨rfl, _⟩ := cons.inj hs
    rw [← holds, hb, reverse_append, reverse_reverse, Builder.slotAt,
      Builder.descend_append, at_, bind_some, Builder.descend, hm]
    rfl

theorem slot_of_child {l : Text} {c : Nat} (hi : b.child node l = some c) (kind : MatchKind) :
    b.slot kind c = slots ⟨kind, l :: base⟩ := by
  rw [← holds, Builder.slotAt, descend_child at_ hi, bind_some]

/-- A most-specific search keeps the last occupied candidate. -/
theorem searchBestLoop_eq_foldl {n depth : Nat} (counted : n = depth + ls.length)
    (best : Option T) :
    searchBestLoop b.child b.slot n depth node best ls =
    (candidates base ls).foldl (fun best pat => (slots pat).or best) best := by
  induction ls generalizing base node depth best with
  | nil => rfl
  | cons l ls ih =>
    rw [searchBestLoop]
    cases hit : b.child node l with
    | none =>
      exact (@foldl_of_vacant _ _ _ (fun best hit => hit.or best) (fun _ => none_or)
        (candidates_vacant holds at_ hit) best).symm
    | some c =>
      have below := descend_child at_ hit
      have held := slot_of_child holds at_ hit
      have later : ∀ best, searchBestLoop b.child b.slot n (depth + 1) c
          best ls = (candidates (l :: base) ls).foldl (fun best pat => (slots pat).or best) best :=
        ih below (by rw [counted, length_cons]; omega)
      have rem : n - depth - 1 = ls.length := by
        rw [counted, length_cons]
        omega
      rw [candidates, foldl_append, rem]
      simp only [held, later]
      cases ls with
      | nil => cases exact : slots ⟨.exact, l :: base⟩ <;> simp [basePatterns, candidates, exact]
      | cons next ls =>
        cases ls with
        | nil =>
          cases star : slots ⟨.star, l :: base⟩ <;>
            cases dot : slots ⟨.dot, l :: base⟩ <;> simp [basePatterns, star, dot]
        | cons third ls =>
          cases dot : slots ⟨.dot, l :: base⟩ <;> simp [basePatterns, dot]

/-- A search for the minimum folds in every candidate. -/
theorem searchMinLoop_eq_foldl [LinearOrder T] {n depth : Nat} (hc : n = depth + ls.length)
    (best : Option T) :
    searchMinLoop b.child b.slot n depth node best ls =
    (candidates base ls).foldl (fun best pat => foldMin best (slots pat)) best := by
  induction ls generalizing base node depth best with
  | nil => rfl
  | cons l ls ih =>
    rw [searchMinLoop]
    cases hi : b.child node l with
    | none => exact (foldl_of_vacant (fun _ => rfl) (candidates_vacant holds at_ hi) best).symm
    | some c =>
      have hb := descend_child at_ hi
      have hh := slot_of_child holds at_ hi
      have hr : n - depth - 1 = ls.length := by
        rw [hc, length_cons]
        omega
      dsimp only
      rw [candidates, foldl_append, hr, ih hb (by rw [hc, length_cons]; omega)]
      congr 1
      rcases ls.length with _ | _ | more
      · simp [basePatterns, hh]
      · simp only [basePatterns, hh, foldl_cons, foldl_nil, zero_add, if_true,
          Nat.one_ne_zero, if_false]
        exact foldMin_right_comm _ _ _
      · simp [basePatterns, hh]

end

theorem foldl_or_eq_none_iff :
    pats.foldl (fun best pat => (slots pat).or best) none = none ↔
      ∀ pat ∈ pats, slots pat = none := by
  induction pats using reverseRecOn with
  | nil => simp
  | append_singleton pats last ih =>
    rw [foldl_append, foldl_cons, foldl_nil, or_eq_none_iff, ih]
    simp [or_imp, forall_and, and_comm]

/-- In ascending order the last occupied pattern outranks every other occupied one. -/
theorem foldl_or_eq_some_iff (hasc : pats.Pairwise fun prev later => later.Outranks prev) {v : T} :
    pats.foldl (fun best pat => (slots pat).or best) none = some v ↔
      ∃ pat ∈ pats, slots pat = some v ∧ ∀ o ∈ pats, (slots o).isSome = true → o ≠ pat →
          pat.Outranks o := by
  induction pats using reverseRecOn with
  | nil => simp
  | append_singleton pats last ih =>
    obtain ⟨prev, _, hb⟩ := pairwise_append.mp hasc
    rw [foldl_append, foldl_cons, foldl_nil]
    cases hh : slots last with
    | none =>
      rw [none_or, ih prev]
      have hdi : ∀ {o}, (slots o).isSome = true → o ≠ last := by
        rintro o hoc rfl
        simp [hh] at hoc
      constructor
      · rintro ⟨pat, hm, hi, best⟩
        refine ⟨pat, mem_append_left _ hm, hi, fun o ho hoc => ?_⟩
        rcases mem_append.mp ho with he | hl
        · exact best o he hoc
        · exact absurd (mem_singleton.mp hl) (hdi hoc)
      · rintro ⟨pat, hm, hi, best⟩
        rcases mem_append.mp hm with he | hl
        · exact ⟨pat, he, hi, fun o ho => best o (mem_append_left _ ho)⟩
        · exact absurd (mem_singleton.mp hl) (hdi (by simp [hi]))
    | some winner =>
      rw [some_or, some.injEq]
      constructor
      · rintro rfl
        refine ⟨last, by simp, hh, fun o ho _ hd => ?_⟩
        rcases mem_append.mp ho with he | hl
        · exact hb o he last mem_cons_self
        · exact absurd (mem_singleton.mp hl) hd
      · rintro ⟨pat, hm, hi, best⟩
        rcases mem_append.mp hm with he | hl
        · have ha := hb pat he last mem_cons_self
          have hn : last ≠ pat := by
            rintro rfl
            exact ha.asymm ha
          exact absurd ha (best last (by simp) (by simp [hh]) hn).asymm
        · rw [mem_singleton.mp hl, hh] at hi
          exact some.inj hi

def heldValues (slots : Slots T) (patterns : List Pattern) : Set T :=
  {value | ∃ pattern ∈ patterns, slots pattern = some value}

theorem heldValues_concat_none {last : Pattern} (hv : slots last = none) :
    heldValues slots (pats ++ [last]) = heldValues slots pats := by
  simp [heldValues, or_and_right, exists_or, hv]

theorem heldValues_concat_some {last : Pattern} {v : T} (hh : slots last = some v) :
    heldValues slots (pats ++ [last]) = Insert.insert v (heldValues slots pats) := by
  ext other
  simp [heldValues, or_and_right, exists_or, hh, or_comm, eq_comm]

/-- The fold of the minimum finds the least value held. -/
theorem foldl_foldMin_isLeast [LinearOrder T] (slots : Slots T) (pats : List Pattern) :
    match pats.foldl (fun best pat => foldMin best (slots pat)) none with
    | none => heldValues slots pats = ∅
    | some v => IsLeast (heldValues slots pats) v := by
  induction pats using reverseRecOn with
  | nil => simp [heldValues]
  | append_singleton pats last ih =>
    rw [foldl_append, foldl_cons, foldl_nil]
    cases hh : slots last with
    | none =>
      rw [heldValues_concat_none hh]
      exact ih
    | some v =>
      rw [heldValues_concat_some hh, foldMin_eq]
      generalize pats.foldl (fun best pat => foldMin best (slots pat)) none = best at ih ⊢
      cases best with
      | none =>
        rw [ih]
        simp
      | some least =>
        have := ih.insert v
        rwa [min_comm] at this

theorem foldl_foldMin_eq_some_iff [LinearOrder T] {v : T} :
    pats.foldl (fun best pat => foldMin best (slots pat)) none = some v ↔
      IsLeast (heldValues slots pats) v := by
  have hl := foldl_foldMin_isLeast slots pats
  generalize pats.foldl (fun best pat => foldMin best (slots pat)) none = best at hl ⊢
  cases best with
  | none =>
    simp [hl, IsLeast]
  | some hit =>
    rw [some.injEq]
    exact ⟨fun hs => hs ▸ hl, hl.unique⟩

end Walks

section Searches

theorem searchBestLoop_map (c : Nat → Text → Option Nat) (slot : MatchKind → Nat → Option T)
    (fold : Text → Text) (n depth node : Nat) (best : Option T) (ls : List Text) :
    searchBestLoop (fun node l => c node (fold l)) slot n depth node best ls =
      searchBestLoop c slot n depth node best (ls.map fold) := by
  induction ls generalizing depth node best with
  | nil => rfl
  | cons l ls ih => simp only [map_cons, searchBestLoop, ih]

def hostLabels (host : Text) : List Text :=
  labelsOf (toAsciiLowercase (trimEndDots (trim host)))

variable {toLowercase : Text → Text} {ins : List (Insertion T)}

theorem not_matches_empty {pat : Pattern}
    (ho : (slotsAfter toLowercase ins pat).isSome = true) : ¬ pat.Matches [[]] := by
  obtain ⟨insertion, _, hm⟩ := (isSome_slotsAfter_iff toLowercase ins pat).mp ho
  obtain ⟨hb, hn⟩ := base_of_mem_readPatterns toLowercase hm
  rw [Pattern.matches_iff]
  rintro ⟨extra, hs, _⟩
  cases extra with
  | nil => exact hn hs.symm
  | cons l extra => exact hb (append_eq_nil_iff.mp (cons.inj hs).2.symm).2

theorem candidates_empty_host_vacant :
    ∀ pat ∈ candidates [] (labelsOf ([] : Text)).reverse,
      slotsAfter toLowercase ins pat = none := by
  intro pat mem
  have hm := (mem_candidates_iff_matches.mp mem).2
  rw [← not_isSome_iff_eq_none]
  exact fun ho => not_matches_empty ho hm

theorem mem_candidates_of_occupied {pat : Pattern} {host : List Text}
    (ho : (slotsAfter toLowercase ins pat).isSome = true)
    (hm : pat.Matches host) : pat ∈ candidates [] host.reverse := by
  obtain ⟨insertion, _, mem⟩ := (isSome_slotsAfter_iff toLowercase ins pat).mp ho
  exact mem_candidates_iff_matches.mpr ⟨(base_of_mem_readPatterns toLowercase mem).1, hm⟩

/-- The values held by the candidates are those of the matching patterns. -/
theorem heldValues_candidates (host : List Text) :
    heldValues (slotsAfter toLowercase ins) (candidates [] host.reverse) =
      {value | ∃ pat : Pattern, pat.Matches host ∧
        slotsAfter toLowercase ins pat = some value} := by
  ext value
  constructor
  · rintro ⟨pat, mem, hh⟩
    exact ⟨pat, (mem_candidates_iff_matches.mp mem).2, hh⟩
  · rintro ⟨pat, hm, hh⟩
    have ho : (slotsAfter toLowercase ins pat).isSome = true := by rw [hh]; rfl
    exact ⟨pat, mem_candidates_of_occupied ho hm, hh⟩

/-- With values inserted in increasing order, the least value in the matching slots is the least
value inserted under a matching pattern. -/
theorem isLeast_inserted_iff [LinearOrder T] (hf : ∀ insertion ∈ ins, insertion.mode = .firstWins)
    (inc : ins.Pairwise fun prev later => prev.value ≤ later.value) (host : List Text) (v : T) :
    IsLeast {v | ∃ pat : Pattern, pat.Matches host ∧ slotsAfter toLowercase ins pat = some v} v ↔
      IsLeast {v | ∃ insertion ∈ ins,
        (∃ pat ∈ readPatterns toLowercase insertion.domain, pat.Matches host) ∧
          insertion.value = v} v := by
  have hi : ∀ {held}, (∃ pat : Pattern, pat.Matches host ∧
      slotsAfter toLowercase ins pat = some held) → ∃ insertion ∈ ins,
          (∃ pat ∈ readPatterns toLowercase insertion.domain, pat.Matches host) ∧
            insertion.value = held := by
    rintro held ⟨pat, hma, hs⟩
    obtain ⟨⟨insertion, hm, hp, same⟩, _⟩ := slotsAfter_isLeast toLowercase hf inc hs
    exact ⟨insertion, hm, ⟨pat, hp, hma⟩, same⟩
  -- A slot holds no more than any value inserted under its pattern.
  have hmo : ∀ insertion ∈ ins,
      (∃ pat ∈ readPatterns toLowercase insertion.domain, pat.Matches host) →
        ∃ held ≤ insertion.value, ∃ pat : Pattern, pat.Matches host ∧
          slotsAfter toLowercase ins pat = some held := by
    rintro insertion hm ⟨pat, hp, hma⟩
    obtain ⟨held, hs⟩ := isSome_iff_exists.mp
      ((isSome_slotsAfter_iff toLowercase ins pat).mpr ⟨insertion, hm, hp⟩)
    exact ⟨held, (slotsAfter_isLeast toLowercase hf inc hs).2 insertion hm hp, pat, hma, hs⟩
  constructor
  · rintro ⟨hh, hl⟩
    refine ⟨hi hh, ?_⟩
    rintro _ ⟨insertion, hm, hma, rfl⟩
    obtain ⟨held, le, hs⟩ := hmo insertion hm hma
    exact (hl hs).trans le
  · rintro ⟨⟨insertion, hm, hma, rfl⟩, hl⟩
    obtain ⟨held, le, hs⟩ := hmo insertion hm hma
    have same : held = insertion.value := le_antisymm le (hl (hi hs))
    rw [same] at hs
    exact ⟨hs, fun o hh => hl (hi hh)⟩

variable [ValueLayout T] {trie : DomainTrie T} {b : Builder T} {slots : Slots T}

theorem Holds.searchBest_eq (holds : Holds trie b slots) (ci : Bool) (q : Text) :
    trie.searchBest ci q = (candidates [] (labelsOf (q.map (queryFold ci))).reverse).foldl
        (fun best pat => (slots pat).or best) none := by
  have ls : (labelsOf (q.map (queryFold ci))).reverse =
      (rsplitDots q).map (List.map (queryFold ci)) := by
    rw [rsplitDots_eq_reverse, map_reverse, funext (map_queryFold ci)]
    congr 1
    cases ci with
    | false => exact (map_id _).symm
    | true => exact splitOn_toAsciiLowercase q
  have c : trie.state.child ci = fun node l =>
      b.child node (l.map (queryFold ci)) := by
    funext node l
    rw [holds.state, child_building]
  have hs : trie.state.slot = b.slot := by rw [holds.state]; rfl
  rw [searchBest, c, hs, searchBestLoop_map, ls]
  refine searchBestLoop_eq_foldl holds.slotAt (descend_root b) ?_ none
  rw [length_map, length_rsplitDots, Nat.zero_add]

theorem search_eq_foldl (host : Text) :
    (insertAll toLowercase ins).search host = (candidates [] (hostLabels host).reverse).foldl
        (fun best pat => (slotsAfter toLowercase ins pat).or best) none := by
  obtain ⟨b, holds⟩ := insertAll_holds toLowercase ins
  rw [search, hostLabels]
  split
  · rename_i empty
    exact (foldl_or_eq_none_iff.mpr fun pat _ => slotsAfter_of_len_eq_zero empty pat).symm
  dsimp only
  split
  · rename_i noQuery
    rw [isEmpty_iff.mp noQuery]
    exact (foldl_or_eq_none_iff.mpr candidates_empty_host_vacant).symm
  split
  · rw [holds.searchBest_eq, map_queryFold]
    rfl
  · rename_i lower
    have hq : (trimEndDots (trim host)).any isAsciiUppercase = false := by
      rw [Bool.not_eq_true, List.any_eq_false] at lower
      rw [List.any_eq_false]
      exact fun byte hm => lower byte (( rdropWhile_prefix _ _).subset hm)
    rw [holds.searchBest_eq, map_queryFold, toAsciiLowercase_of_lower hq]
    rfl

theorem searchMinNormalized_eq_foldl [LinearOrder T] (host : Text) :
    (insertAll toLowercase ins).searchMinNormalized host =
      (candidates [] (labelsOf (trimEndDots host)).reverse).foldl
        (fun best pat => foldMin best (slotsAfter toLowercase ins pat)) none := by
  obtain ⟨b, holds⟩ := insertAll_holds toLowercase ins
  rw [searchMinNormalized]
  split
  · rename_i empty
    exact (foldl_of_vacant (fun _ => rfl)
      (fun pat _ => slotsAfter_of_len_eq_zero empty pat) none).symm
  dsimp only
  split
  · rename_i noQuery
    rw [isEmpty_iff.mp noQuery]
    exact (foldl_of_vacant (fun _ => rfl) candidates_empty_host_vacant none).symm
  · rw [holds.state]
    refine searchMinLoop_eq_foldl holds.slotAt (descend_root b) ?_ none
    rw [length_rsplitDots, Nat.zero_add]

theorem search_eq_some_iff (host : Text) (v : T) :
    (insertAll toLowercase ins).search host = some v ↔ ∃ pat, pat.Matches (hostLabels host) ∧
        slotsAfter toLowercase ins pat = some v ∧ ∀ o, o.Matches (hostLabels host) →
          (slotsAfter toLowercase ins o).isSome = true → o ≠ pat →
            pat.Outranks o := by
  rw [search_eq_foldl, foldl_or_eq_some_iff (candidates_ascending _ _)]
  constructor
  · rintro ⟨pat, mem, hh, best⟩
    exact ⟨pat, (mem_candidates_iff_matches.mp mem).2, hh, fun o hm ho =>
      best o (mem_candidates_of_occupied ho hm) ho⟩
  · rintro ⟨pat, hm, hh, best⟩
    have ho : (slotsAfter toLowercase ins pat).isSome = true := by rw [hh]; rfl
    exact ⟨pat, mem_candidates_of_occupied ho hm, hh,
      fun o mem => best o (mem_candidates_iff_matches.mp mem).2⟩

theorem search_eq_none_iff (host : Text) :
    (insertAll toLowercase ins).search host = none ↔
      ∀ insertion ∈ ins, ∀ pat ∈ readPatterns toLowercase insertion.domain,
        ¬ pat.Matches (hostLabels host) := by
  rw [search_eq_foldl, foldl_or_eq_none_iff]
  constructor
  · intro hv insertion hm pat hi hma
    have ho := (isSome_slotsAfter_iff toLowercase ins pat).mpr ⟨insertion, hm, hi⟩
    rw [hv pat (mem_candidates_of_occupied ho hma)] at ho
    cases ho
  · intro hu pat hm
    rw [← not_isSome_iff_eq_none, isSome_slotsAfter_iff]
    rintro ⟨insertion, hins, hi⟩
    exact hu insertion hins pat hi (mem_candidates_iff_matches.mp hm).2

theorem searchMinNormalized_eq_some_iff [LinearOrder T] (host : Text) (v : T) :
    (insertAll toLowercase ins).searchMinNormalized host = some v ↔
      IsLeast {v | ∃ pat : Pattern, pat.Matches (labelsOf (trimEndDots host)) ∧
        slotsAfter toLowercase ins pat = some v} v := by
  rw [searchMinNormalized_eq_foldl, foldl_foldMin_eq_some_iff, heldValues_candidates]

/-- A search finds the value of the most specific inserted pattern that matches the host, where the
first insert of a pattern counts or the last overwriting one, and a search for the minimum the least
value in the slots of the matching patterns. -/
theorem search_meets_patterns (toLowercase : Text → Text) (insertions : List (Insertion T)) :
    (∀ host value, (insertAll toLowercase insertions).search host = some value ↔
      ∃ pattern : Pattern, pattern.Matches (hostLabels host) ∧
        slotsAfter toLowercase insertions pattern = some value ∧
        ∀ other : Pattern, other.Matches (hostLabels host) →
          (slotsAfter toLowercase insertions other).isSome = true → other ≠ pattern →
            pattern.Outranks other) ∧
    (∀ host, (insertAll toLowercase insertions).search host = none ↔
      ∀ insertion ∈ insertions, ∀ pattern ∈ readPatterns toLowercase insertion.domain,
        ¬ pattern.Matches (hostLabels host)) ∧
    (∀ pattern, slotsAfter toLowercase insertions pattern =
      ((insertions.reverse.find? fun insertion => insertion.mode = .overwrite ∧
          pattern ∈ readPatterns toLowercase insertion.domain).or
        (insertions.find? fun insertion =>
          pattern ∈ readPatterns toLowercase insertion.domain)).map Insertion.value) ∧
    ∀ [LinearOrder T],
      (∀ host value, (insertAll toLowercase insertions).searchMinNormalized host = some value ↔
        IsLeast {held | ∃ pattern : Pattern, pattern.Matches (labelsOf (trimEndDots host)) ∧
          slotsAfter toLowercase insertions pattern = some held} value) ∧
      ((∀ insertion ∈ insertions, insertion.mode = .firstWins) →
        (insertions.Pairwise fun earlier later => earlier.value ≤ later.value) →
        ∀ host value, (insertAll toLowercase insertions).searchMinNormalized host = some value ↔
          IsLeast {index | ∃ insertion ∈ insertions,
            (∃ pattern ∈ readPatterns toLowercase insertion.domain,
              pattern.Matches (labelsOf (trimEndDots host))) ∧
              insertion.value = index} value) := by
  refine ⟨search_eq_some_iff, search_eq_none_iff, slotsAfter_eq toLowercase insertions, ?_⟩
  refine ⟨searchMinNormalized_eq_some_iff, fun hf hi host value => ?_⟩
  rw [searchMinNormalized_eq_some_iff]
  exact isLeast_inserted_iff hf hi _ value

theorem search_meets_patterns_overwritten :
    slotsAfter toAsciiLowercase [⟨ofString "*.B", 3, .firstWins⟩, ⟨ofString "*.b.", 5, .overwrite⟩,
        (⟨ofString "*.b", 4, .firstWins⟩ : Insertion Nat)] ⟨.star, [ofString "b"]⟩ = some 5 ∧
    IsLeast {index : Nat | ∃ insertion ∈ [⟨ofString "*.B", 3, .firstWins⟩,
        (⟨ofString "+.a.b", 7, .firstWins⟩ : Insertion Nat)],
      (∃ pattern ∈ readPatterns toAsciiLowercase insertion.domain,
        pattern.Matches (labelsOf (trimEndDots (ofString "a.b.")))) ∧ insertion.value = index} 3 :=
  ⟨((search_meets_patterns toAsciiLowercase _).2.2.1 _).trans (by decide),
    ((search_meets_patterns toAsciiLowercase _).2.2.2.2 (by decide) (by decide) _ _).mp
      (by decide)⟩

end Searches

end MeowRs.DomainTrie
