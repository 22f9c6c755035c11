import Mathlib.Data.List.Basic
import Mathlib.Data.Nat.Basic
import Mathlib.Order.Basic

/-!
# Grouping keyed items into contiguous runs

A counting sort of pairs by their key with one array of cursors: the keys are counted, the counts
are summed up to the start of each run, and each item is then stored at the cursor of its key, which
moves on.  Afterwards the cursor of a key stands at the end of its run, that is, at the start of the
next one, and the run holds the items of the key in the order of the input.
-/

namespace CsrGrouping

open List Option Nat

variable {α : Type*} {pairs stored rest : List (Nat × α)}

def group (pairs : List (Nat × α)) (key : Nat) : List α :=
  (pairs.filter fun pair => pair.1 = key).map Prod.snd

/-- The number of items with a smaller key: where the run of a key starts. -/
def start (pairs : List (Nat × α)) (key : Nat) : Nat :=
  pairs.countP fun pair => pair.1 < key

/-- Count the items of key `k` at index `k + 1`. -/
def countKeys (n : Nat) (pairs : List (Nat × α)) : List Nat :=
  pairs.foldl (fun bounds pair => bounds.modify (pair.1 + 1) (· + 1)) (replicate (n + 1) 0)

/-- Replace each of the first `n + 1` counts by the sum of the counts up to it. -/
def prefixSums (n : Nat) (bounds : List Nat) : List Nat :=
  (range n).foldl (fun bounds i => bounds.modify (i + 1) (· + bounds.getD i 0)) bounds

/-- Store each item at the cursor of its key and move the cursor. -/
def scatter (pairs : List (Nat × α)) (bounds : List Nat) (items : List α) : List Nat × List α :=
  pairs.foldl (fun state pair =>
    (state.1.modify pair.1 (· + 1), state.2.set (state.1.getD pair.1 0) pair.2)) (bounds, items)

theorem length_group (pairs : List (Nat × α)) (key : Nat) :
    (group pairs key).length = pairs.countP fun pair => pair.1 = key := by
  rw [group, length_map, countP_eq_length_filter]

theorem group_append (fst snd : List (Nat × α)) (key : Nat) :
    group (fst ++ snd) key = group fst key ++ group snd key := by
  simp [group]

theorem mem_group {key : Nat} {item : α} : item ∈ group pairs key ↔ (key, item) ∈ pairs := by
  simp [group]

theorem start_succ (pairs : List (Nat × α)) (key : Nat) :
    start pairs (key + 1) = start pairs key + (group pairs key).length := by
  rw [length_group, start, start]
  induction pairs with
  | nil => rfl
  | cons pair pairs ih =>
    simp only [countP_cons, ih]
    rcases lt_trichotomy pair.1 key with hbe | hs | ha
    · simp [hbe, hbe.ne, lt_succ_of_lt hbe]
      omega
    · simp [hs]
      omega
    · simp [ha.ne', not_lt.mpr ha.le, not_lt.mpr (succ_le_of_lt ha)]

theorem start_mono (pairs : List (Nat × α)) {key o : Nat} (le : key ≤ o) :
    start pairs key ≤ start pairs o :=
  countP_mono_left fun pair _ hbe => by
    simp only [decide_eq_true_eq] at hbe ⊢
    omega

theorem start_le_length (pairs : List (Nat × α)) (key : Nat) : start pairs key ≤ pairs.length :=
  countP_le_length

theorem start_zero (pairs : List (Nat × α)) : start pairs 0 = 0 := by
  simp [start]

theorem foldl_count_getElem? (pairs : List (Nat × α)) (bounds : List Nat) (i : Nat) :
    (pairs.foldl (fun bounds pair => bounds.modify (pair.1 + 1) (· + 1)) bounds)[i]? =
      bounds[i]?.map (· + pairs.countP fun pair => pair.1 + 1 = i) := by
  induction pairs generalizing bounds with
  | nil => simp
  | cons pair pairs ih =>
    rw [foldl_cons, ih, getElem?_modify]
    cases bounds[i]? with
    | none => rfl
    | some n =>
      by_cases hs : pair.1 + 1 = i
      · simp [hs]
        omega
      · simp [hs]

theorem countKeys_getElem? (n : Nat) (pairs : List (Nat × α)) {i : Nat} (le : i ≤ n) :
    (countKeys n pairs)[i]? = some (pairs.countP fun pair => pair.1 + 1 = i) := by
  rw [countKeys, foldl_count_getElem?, getElem?_replicate, if_pos (lt_succ_of_le le)]
  simp

/-- The summing pass: after `k` rounds the first `k + 1` entries are the starts of the runs. -/
theorem prefixSums_getElem? (n : Nat) (pairs : List (Nat × α)) {j : Nat} (le : j ≤ n) :
    (prefixSums n (countKeys n pairs))[j]? = some (start pairs j) := by
  have hro : ∀ k ≤ n, ∀ j ≤ n,
      ((range k).foldl (fun bounds i => bounds.modify (i + 1) (· + bounds.getD i 0))
        (countKeys n pairs))[j]? = some (if j ≤ k then start pairs j
          else pairs.countP fun pair => pair.1 + 1 = j) := by
    intro k
    induction k with
    | zero =>
      intro _ j hi
      rw [range_zero, foldl_nil, countKeys_getElem? n pairs hi]
      rcases Nat.eq_zero_or_pos j with rfl | pos
      · simp [start_zero]
      · simp [not_le.mpr pos]
    | succ k ih =>
      intro kLe j hi
      have hp := ih (by omega)
      rw [range_succ, foldl_concat, getElem?_modify, hp j hi,
        getD_eq_getElem?_getD, hp k (by omega)]
      rcases eq_or_ne (k + 1) j with rfl | ho
      · have hc : (pairs.countP fun pair => pair.1 + 1 = k + 1) =
            (group pairs k).length := by
          rw [length_group]
          congr 1
          simp
        simp only [Option.map_eq_map, Option.map_some, if_true, not_succ_le_self, if_false,
          le_refl, Option.getD_some, some.injEq]
        rw [hc, start_succ]
        omega
      · simp only [Option.map_eq_map, Option.map_some, if_neg ho, some.injEq]
        by_cases hw : j ≤ k
        · simp [hw, le_succ_of_le hw]
        · have hbe : ¬ j ≤ k + 1 := by omega
          simp [hw, hbe]
  rw [prefixSums, hro n le_rfl j le, if_pos le]

/-- The state of the storing pass once the pairs `stored` of `pairs` are in place. -/
structure Scattered (n : Nat) (pairs stored : List (Nat × α)) (bounds : List Nat)
    (items : List α) : Prop where
  cursor (key : Nat) (keyLt : key < n) :
    bounds[key]? = some (start pairs key + (group stored key).length)
  length : items.length = pairs.length
  placed (key : Nat) (keyLt : key < n) (index : Nat) (indexLt : index < (group stored key).length) :
    items[start pairs key + index]? = (group stored key)[index]?

theorem length_group_lt {pair : Nat × α} (hs : pairs = stored ++ pair :: rest) :
    (group stored pair.1).length < (group pairs pair.1).length := by
  rw [hs, length_group, length_group, countP_append, countP_cons]
  simp

theorem Scattered.store {n : Nat} {pair : Nat × α}
    {bounds : List Nat} {xs : List α} (hs : Scattered n pairs stored bounds xs)
    (hsp : pairs = stored ++ pair :: rest) (hkl : pair.1 < n) :
    Scattered n pairs (stored ++ [pair]) (bounds.modify pair.1 (· + 1))
      (xs.set (bounds.getD pair.1 0) pair.2) := by
  have hc := hs.cursor pair.1 hkl
  have hr := length_group_lt hsp
  have hre := start_succ pairs pair.1
  have hg : ∀ key, key ≠ pair.1 → group (stored ++ [pair]) key = group stored key := by
    intro key hok
    simp [group, hok.symm]
  have hgs : group (stored ++ [pair]) pair.1 = group stored pair.1 ++ [pair.2] := by
    simp [group]
  rw [getD_eq_getElem?_getD, hc, getD_some]
  constructor
  · intro key ho
    rw [getElem?_modify, hs.cursor key ho]
    rcases eq_or_ne key pair.1 with rfl | hok
    · simp [hgs, Nat.add_assoc]
    · simp [hg key hok, hok.symm]
  · rw [length_set, hs.length]
  · intro key ho index hi
    rw [getElem?_set]
    rcases lt_trichotomy key pair.1 with hbe | rfl | ha
    · -- A smaller key's run ends before the run that is stored into starts.
      rw [hg key hbe.ne] at hi ⊢
      have hbo : (group stored key).length ≤ (group pairs key).length := by
        rw [hsp, group_append, length_append]
        omega
      have hp := start_mono pairs (succ_le_of_lt hbe)
      rw [succ_eq_add_one, start_succ] at hp
      rw [if_neg (by omega)]
      exact hs.placed key ho index hi
    · rw [hgs, length_append, length_singleton] at hi
      rw [hgs]
      rcases Nat.lt_succ_iff_lt_or_eq.mp hi with old | rfl
      · rw [if_neg (by omega), getElem?_append_left old]
        exact hs.placed pair.1 ho index old
      · have hin : start pairs pair.1 + (group stored pair.1).length < xs.length := by
          have ht := start_le_length pairs (pair.1 + 1)
          rw [hs.length]
          omega
        simp [hin]
    · rw [hg key ha.ne'] at hi ⊢
      have haf := start_mono pairs (succ_le_of_lt ha)
      rw [succ_eq_add_one] at haf
      rw [if_neg (by omega)]
      exact hs.placed key ho index hi

theorem scatter_scattered {n : Nat} (hk : ∀ pair ∈ pairs, pair.1 < n)
    {bounds : List Nat} {xs : List α} (hs : Scattered n pairs [] bounds xs) :
    Scattered n pairs pairs (scatter pairs bounds xs).1 (scatter pairs bounds xs).2 := by
  have loop : ∀ rest stored bounds xs, pairs = stored ++ rest → Scattered n pairs stored bounds xs →
      Scattered n pairs pairs (scatter rest bounds xs).1 (scatter rest bounds xs).2 := by
    intro rest
    induction rest with intro stored bounds xs hsp hs
    | nil =>
      rw [append_nil] at hsp
      rw [← hsp] at hs
      exact hs
    | cons pair rest ih =>
      have hkl := hk pair (by simp [hsp])
      exact ih (stored ++ [pair]) _ _ (by simp [hsp]) (hs.store hsp hkl)
  exact loop pairs [] bounds xs rfl hs

def slice (items : List α) (first last : Nat) : List α :=
  (items.take last).drop first

theorem getElem?_slice (xs : List α) (fst last i : Nat) :
    (slice xs fst last)[i]? = if fst + i < last then xs[fst + i]? else none := by
  rw [slice, getElem?_drop, getElem?_take]

/-- Cursors and items after all three passes, over an array of blank items. -/
def groupRuns (n : Nat) (pairs : List (Nat × α)) (blanks : List α) : List Nat × List α :=
  scatter pairs (prefixSums n (countKeys n pairs)) blanks

section GroupRuns

variable {n : Nat} {blanks : List α}

variable (hk : ∀ pair ∈ pairs, pair.1 < n)
include hk

variable (hr : blanks.length = pairs.length)
include hr

theorem groupRuns_scattered :
    Scattered n pairs pairs (groupRuns n pairs blanks).1 (groupRuns n pairs blanks).2 := by
  refine scatter_scattered hk ⟨fun key hkl => ?_, hr, ?_⟩
  · rw [prefixSums_getElem? n pairs hkl.le]
    rfl
  · intro key _ i hi
    cases hi

theorem groupRuns_cursor {key : Nat} (hkl : key < n) :
    (groupRuns n pairs blanks).1[key]? = some (start pairs (key + 1)) := by
  rw [(groupRuns_scattered hk hr).cursor key hkl, start_succ]

/-- The run of a key holds its items, in the order of the input. -/
theorem groupRuns_slice {key : Nat} (hkl : key < n) :
    slice (groupRuns n pairs blanks).2 (start pairs key) (start pairs (key + 1)) =
      group pairs key := by
  have hs := groupRuns_scattered hk hr
  apply ext_getElem?
  intro i
  rw [getElem?_slice, start_succ]
  rcases lt_or_ge i (group pairs key).length with hi | ho
  · rw [if_pos (by omega), hs.placed key hkl i hi]
  · rw [if_neg (by omega), getElem?_eq_none ho]

end GroupRuns

/-- Replace the part of a list between two indices by its image. -/
def mapSlice (change : List α → List α) (items : List α) (first last : Nat) : List α :=
  items.take first ++ change (slice items first last) ++ items.drop last

section MapSlice

variable {change : List α → List α} {xs : List α} {fst last : Nat}

theorem length_slice (ord : fst ≤ last) (hb : last ≤ xs.length) :
    (slice xs fst last).length = last - fst := by
  simp [slice]
  omega

section

variable (hl : ∀ part, (change part).length = part.length)
include hl

variable (ord : fst ≤ last)
include ord

variable (hb : last ≤ xs.length)
include hb

theorem getElem?_mapSlice (i : Nat) :
    (mapSlice change xs fst last)[i]? =
      if fst ≤ i ∧ i < last then (change (slice xs fst last))[i - fst]?
      else xs[i]? := by
  have hc : (change (slice xs fst last)).length = last - fst := by
    rw [hl, length_slice ord hb]
  have hf : (xs.take fst).length = fst := by
    rw [length_take]
    omega
  rw [mapSlice, append_assoc]
  rcases lt_or_ge i fst with hp | hn
  · rw [getElem?_append_left (by omega), getElem?_take, if_pos hp, if_neg (by omega)]
  · rw [getElem?_append_right (by omega), hf]
    rcases lt_or_ge i last with hi | ha
    · rw [getElem?_append_left (by omega), if_pos ⟨hn, hi⟩]
    · rw [getElem?_append_right (by omega), hc, getElem?_drop, if_neg (by omega)]
      congr 1
      omega

theorem length_mapSlice :
    (mapSlice change xs fst last).length = xs.length := by
  simp only [mapSlice, length_append, length_take, length_drop, hl, length_slice ord hb]
  omega

theorem slice_mapSlice_self :
    slice (mapSlice change xs fst last) fst last = change (slice xs fst last) := by
  apply ext_getElem?
  intro i
  rw [getElem?_slice, getElem?_mapSlice hl ord hb]
  rcases lt_or_ge (fst + i) last with hi | ho
  · simp [hi]
  · rw [if_neg (by omega), getElem?_eq_none]
    rw [hl, length_slice ord hb]
    omega

theorem slice_mapSlice_other {otherFirst otherLast : Nat}
    (ha : otherLast ≤ fst ∨ last ≤ otherFirst) :
    slice (mapSlice change xs fst last) otherFirst otherLast =
      slice xs otherFirst otherLast := by
  apply ext_getElem?
  intro i
  rw [getElem?_slice, getElem?_slice, getElem?_mapSlice hl ord hb]
  rcases lt_or_ge (otherFirst + i) otherLast with hi | ho
  · rw [if_pos hi, if_pos hi, if_neg (by omega)]
  · rw [if_neg (by omega), if_neg (by omega)]

end

/-- Apply a change to the runs of the keys below `n`, one after another.  The run of a key lies
between the previous cursor and its own. -/
def mapRuns (change : List α → List α) (n : Nat) (starts : Nat → Nat) (items : List α) : List α :=
  (range n).foldl (fun items key => mapSlice change items (starts key) (starts (key + 1))) items

theorem mapRuns_spec (hl : ∀ part, (change part).length = part.length) {limit : Nat}
    {starts : Nat → Nat} (hm : ∀ {key o}, key ≤ o → o ≤ limit → starts key ≤ starts o)
    (hb : ∀ key ≤ limit, starts key ≤ xs.length) {n : Nat} (hn : n ≤ limit) :
    (mapRuns change n starts xs).length = xs.length ∧
      ∀ key < limit, slice (mapRuns change n starts xs) (starts key) (starts (key + 1)) =
        if key < n then change (slice xs (starts key) (starts (key + 1)))
        else slice xs (starts key) (starts (key + 1)) := by
  induction n with
  | zero => simp [mapRuns]
  | succ n ih =>
    obtain ⟨hle, runs⟩ := ih (by omega)
    have hu : mapRuns change (n + 1) starts xs =
        mapSlice change (mapRuns change n starts xs) (starts n) (starts (n + 1)) := by
      rw [mapRuns, range_succ, foldl_concat]
      rfl
    have hw : starts (n + 1) ≤ (mapRuns change n starts xs).length := by
      rw [hle]
      exact hb _ hn
    have ord : starts n ≤ starts (n + 1) := hm (le_succ n) hn
    rw [hu]
    refine ⟨(length_mapSlice hl ord hw).trans hle, fun key hkl => ?_⟩
    rcases lt_trichotomy key n with hbe | rfl | ha
    · rw [slice_mapSlice_other hl ord hw
        (Or.inl (hm (succ_le_of_lt hbe) (by omega))), runs key hkl, if_pos hbe,
        if_pos (lt_succ_of_lt hbe)]
    · rw [slice_mapSlice_self hl ord hw, runs key hkl, if_neg (lt_irrefl key),
        if_pos (lt_succ_self key)]
    · rw [slice_mapSlice_other hl ord hw
        (Or.inr (hm (succ_le_of_lt ha) hkl.le)), runs key hkl, if_neg (by omega),
        if_neg (by omega)]

end MapSlice

end CsrGrouping
