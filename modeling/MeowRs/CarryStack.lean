import Mathlib.Tactic.Ring

/-!
# Trees built on a stack

Leaves are joined to a tree whose left subtrees are full and as large as they can be.  The tree can
be built leaf by leaf: a stack holds full subtrees of decreasing sizes, those of the binary digits of
the number of leaves, and a new leaf joins them as a carry does when the number is counted up.  In
the end what is left on the stack is joined from the right.
-/

namespace CarryStack

open List

variable {α : Type*} (join : α → α → α)

/-- The value of the tree over some leaves: the left subtree is full, and the right one no larger. -/
inductive Tree : List α → α → Prop
  | leaf (a : α) : Tree [a] a
  | node (height : ℕ) {left right : List α} {x y : α} (full : left.length = 2 ^ height)
      (nonempty : right ≠ []) (fits : right.length ≤ 2 ^ height) (isLeft : Tree left x)
      (isRight : Tree right y) : Tree (left ++ right) (join x y)

/-- The subtrees on a stack, the last one on top, and the leaves below them. -/
inductive Stacked : List α → List α → Prop
  | empty : Stacked [] []
  | push (height : ℕ) {leaves block : List α} {stack : List α} {x : α}
      (full : block.length = 2 ^ height) (larger : 2 ^ (height + 1) ∣ leaves.length)
      (isTree : Tree join block x) (below : Stacked leaves stack) :
      Stacked (leaves ++ block) (x :: stack)

/-- Join a subtree with those of its size while `total` is even; without one it fails. -/
def carry (total : ℕ) (node : α) : List α → Option (List α)
  | [] => if total % 2 = 0 then none else some [node]
  | left :: stack =>
    if total % 2 = 0 then carry (total / 2) (join left node) stack else some (node :: left :: stack)

/-- Join what is left on the stack, from its top on. -/
def collapse (node : α) : List α → α
  | [] => node
  | left :: stack => collapse (join left node) stack

variable {join} {leaves block stack : List α} {node : α} {height : ℕ}

theorem Tree.ne_nil (ht : Tree join leaves node) : leaves ≠ [] := by
  cases ht with
  | leaf => simp
  | node height hf ne => simp [ne]

theorem Tree.eq_of_singleton {a : α} (ht : Tree join [a] node) : node = a := by
  generalize hl : [a] = leaves at ht
  cases ht with
  | leaf => exact (cons.inj hl).1.symm
  | node height hf ne _ hlef =>
    have n := congrArg List.length hl
    have hr := length_pos_iff.mpr ne
    rw [length_singleton, length_append] at n
    omega

/-- The lowest digit of a sum is that of the lower summand. -/
theorem eq_of_odd_div {rest low high : ℕ} (hl : 2 ^ (high + 1) ∣ rest)
    (hw : 2 ^ low ∣ rest + 2 ^ high) : low ≤ high := by
  by_contra above
  have hs : 2 ^ (high + 1) ∣ rest + 2 ^ high := (pow_dvd_pow 2 (by omega : high + 1 ≤ low)).trans hw
  have hp := (Nat.dvd_add_right hl).mp hs
  exact absurd (Nat.pow_dvd_pow_iff_le_right (by omega) |>.mp hp) (by omega)

theorem exists_carry (hs : Stacked join leaves stack) (hf : block.length = 2 ^ height)
    (ha : 2 ^ height ∣ leaves.length) (ht : Tree join block node) :
    ∃ next, carry join (leaves.length / 2 ^ height + 1) node stack = some next ∧
      Stacked join (leaves ++ block) next := by
  obtain ⟨n, hc⟩ := ha
  have hp : 0 < 2 ^ height := Nat.two_pow_pos height
  induction hs generalizing block node height n with
  | empty =>
    refine ⟨[node], by simp [carry], ?_⟩
    exact .push height hf (Nat.dvd_zero _) ht .empty
  | @push high lower top stack x htf hl htr hb ih =>
    rw [hc, Nat.mul_div_cancel_left _ hp, carry]
    rcases Nat.even_or_odd' n with ⟨half, rfl | rfl⟩
    · rw [if_neg (by omega)]
      refine ⟨_, rfl, .push height hf ⟨half, ?_⟩ ht (.push high htf hl htr hb)⟩
      rw [hc, pow_succ]
      ring
    · rw [if_pos (by omega)]
      rw [length_append, htf] at hc
      obtain rfl : height = high := by
        refine le_antisymm (eq_of_odd_div hl ⟨_, hc⟩) ?_
        by_contra above
        have small : 2 ^ (height + 1) ∣ 2 ^ high := pow_dvd_pow 2 (by omega)
        have even : 2 ^ (height + 1) ∣ lower.length + 2 ^ high :=
          (Nat.dvd_add_right ((pow_dvd_pow 2 (by omega)).trans hl)).mpr small
        rw [hc, pow_succ, Nat.mul_dvd_mul_iff_left hp] at even
        omega
      have hr : lower.length = 2 ^ (height + 1) * half := by
        refine Nat.add_right_cancel (hc.trans ?_)
        ring
      have joined : Tree join (top ++ block) (join x node) :=
        .node height htf ht.ne_nil hf.le htr ht
      have size : (top ++ block).length = 2 ^ (height + 1) := by
        rw [length_append, htf, hf, pow_succ]
        ring
      obtain ⟨next, carried, after⟩ := ih size joined half hr (Nat.two_pow_pos _)
      rw [hr, Nat.mul_div_cancel_left _ (Nat.two_pow_pos _)] at carried
      refine ⟨next, ?_, by rwa [append_assoc]⟩
      rw [← carried]
      congr 1
      omega

/-- What is left on a stack is joined to the tree over all leaves. -/
theorem tree_collapse (hst : Stacked join leaves stack) (hs : block.length ≤ 2 ^ height)
    (ha : 2 ^ height ∣ leaves.length) (ht : Tree join block node) :
    Tree join (leaves ++ block) (collapse join node stack) := by
  induction hst generalizing block node height with
  | empty => exact ht
  | @push high lower top stack x htf hl htr hb ih =>
    rw [length_append, htf] at ha
    have hf : block.length ≤ 2 ^ high :=
      hs.trans (Nat.pow_le_pow_right (by omega) (eq_of_odd_div hl ha))
    rw [append_assoc, collapse]
    refine ih ?_ hl (.node high htf ht.ne_nil hf htr ht)
    rw [length_append, htf, pow_succ]
    omega

end CarryStack
