import Mathlib.Data.Nat.Basic
import Mathlib.Order.Basic

/-!
# Binary search by a comparator

The search keeps a base index and a size, halves the size in each round and moves the base up unless
the middle item is too large.  It is exact on a list that the comparator sees as sorted: once an item
is not too small, every later one is too large.
-/

namespace BinarySearch

variable {α : Type*} {tgt : Nat}

/-- The index at which the comparator is asked last. -/
def narrow (cmp : α → Ordering) (items : List α) : Nat → Nat → Nat → Nat
  | 0, base, _ => base
  | fuel + 1, base, size =>
    if size ≤ 1 then base
    else
      let half := size / 2
      let middle := base + half
      let base := if (items[middle]?.map cmp) = some .gt then base else middle
      narrow cmp items fuel base (size - half)

/-- The index of an item that compares as equal. -/
def binarySearchBy (cmp : α → Ordering) (items : List α) : Option Nat :=
  let base := narrow cmp items items.length 0 items.length
  if items[base]?.map cmp = some .eq then some base else none

/-- The comparator sees the items as strictly sorted. -/
def SortedBy (cmp : α → Ordering) (items : List α) : Prop :=
  items.Pairwise fun first second => cmp first ≠ .lt → cmp second = .gt

variable {cmp : α → Ordering} {xs : List α}

theorem SortedBy.gt_of_lt (hs : SortedBy cmp xs) {i j : Nat} {fst snd : α} (hp : i < j)
    (ha : xs[i]? = some fst) (atJ : xs[j]? = some snd) (hn : cmp fst ≠ .lt) : cmp snd = .gt := by
  obtain ⟨hi, rfl⟩ := List.getElem?_eq_some_iff.mp ha
  obtain ⟨hj, rfl⟩ := List.getElem?_eq_some_iff.mp atJ
  exact List.pairwise_iff_getElem.mp hs i j hi hj hp hn

/-- The interval between base and size never loses an equal item. -/
theorem narrow_eq (hso : SortedBy cmp xs) {item : α} (ht : xs[tgt]? = some item)
    (eq : cmp item = .eq) {fuel base size : Nat} (he : size ≤ fuel + 1)
    (hin : base + size ≤ xs.length) (low : base ≤ tgt) (hi : tgt < base + size) :
    narrow cmp xs fuel base size = tgt := by
  induction fuel generalizing base size with
  | zero =>
    rw [narrow]
    omega
  | succ fuel ih =>
    rw [narrow]
    split
    · omega
    · dsimp only
      rcases lt_or_ge tgt (base + size / 2) with hl | hr
      · -- The target lies left of the middle, so the middle item is too large.
        have hm := List.getElem?_eq_getElem (l := xs) (i := base + size / 2) (by omega)
        have hg := hso.gt_of_lt hl ht hm (by rw [eq]; decide)
        rw [hm, Option.map_some, hg, if_pos rfl]
        exact ih (by omega) (by omega) low (by omega)
      · have hn : xs[base + size / 2]?.map cmp ≠ some .gt := by
          intro hgre
          obtain ⟨mid, hm, hg⟩ := Option.map_eq_some_iff.mp hgre
          rcases Nat.lt_or_eq_of_le hr with hp | hs
          · have := hso.gt_of_lt hp hm ht (by rw [hg]; decide)
            rw [eq] at this
            cases this
          · rw [hs, ht, Option.some.injEq] at hm
            rw [← hm, eq] at hg
            cases hg
        rw [if_neg hn]
        exact ih (by omega) (by omega) hr (by omega)

theorem binarySearchBy_eq_some (hs : SortedBy cmp xs) {item : α}
    (ht : xs[tgt]? = some item) (eq : cmp item = .eq) : binarySearchBy cmp xs = some tgt := by
  have htl : tgt < xs.length := (List.getElem?_eq_some_iff.mp ht).1
  have hi := narrow_eq hs ht eq (Nat.le_succ xs.length)
    (Nat.zero_add xs.length).le (Nat.zero_le tgt) (by omega)
  simp [binarySearchBy, hi, ht, eq]

theorem of_binarySearchBy_eq_some (hi : binarySearchBy cmp xs = some tgt) :
    ∃ item, xs[tgt]? = some item ∧ cmp item = .eq := by
  unfold binarySearchBy at hi
  dsimp only at hi
  split at hi
  · rename_i eq
    obtain rfl := Option.some.inj hi
    exact Option.map_eq_some_iff.mp eq
  · cases hi

end BinarySearch
