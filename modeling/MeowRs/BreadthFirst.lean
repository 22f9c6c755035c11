import Mathlib.Data.List.Nodup
import Mathlib.Data.List.Perm.Subperm
import Mathlib.Data.Nat.Basic
import Mathlib.Order.Basic

/-!
# Breadth-first numbering of a tree

The loop walks over a list of nodes that grows behind its cursor: for each node it notes where its
children will stand and appends them.  Over a tree whose nodes are numbered below `n`, parents
before children, the list ends up as a permutation of the nodes in which the children of each node
are one contiguous run, and the runs stand in the order of their parents.
-/

namespace BreadthFirst

open List Option

variable {ord firstChild : List Nat}

/-- A tree on the nodes below `n` with root `0`, given by the list of children of each node. -/
structure IsTree (kids : Nat → List Nat) (n : Nat) : Prop where
  nonEmpty : 0 < n
  parentLt {parent child : Nat} : parent < n → child ∈ kids parent → parent < child
  childLt {parent child : Nat} : parent < n → child ∈ kids parent → child < n
  parentUnique {parent other child : Nat} : parent < n → other < n →
    child ∈ kids parent → child ∈ kids other → parent = other
  nodup {parent : Nat} : parent < n → (kids parent).Nodup
  hasParent {child : Nat} : 0 < child → child < n → ∃ parent < n, child ∈ kids parent

/-- The loop: the nodes found so far, the cursor, and where the children of each node passed
start. -/
def loop (kids : Nat → List Nat) : Nat → Nat → List Nat → List Nat → List Nat × List Nat
  | 0, _, order, firstChild => (order, firstChild)
  | fuel + 1, i, order, firstChild =>
    match order[i]? with
    | none => (order, firstChild)
    | some node => loop kids fuel (i + 1) (order ++ kids node) (firstChild ++ [order.length])

/-- What holds when the cursor stands at `i`. -/
structure Numbered (kids : Nat → List Nat) (n i : Nat) (order firstChild : List Nat) : Prop where
  cursorLe : i ≤ order.length
  order_eq : order = 0 :: (order.take i).flatMap kids
  firstChild_eq : firstChild =
    (range i).map fun k => 1 + ((order.take k).flatMap kids).length
  nodup : order.Nodup
  bounded : ∀ node ∈ order, node < n

variable {kids : Nat → List Nat} {n : Nat}

theorem Numbered.length_le {i : Nat} (hn : Numbered kids n i ord firstChild) : ord.length ≤ n := by
  have hs : ord ⊆ List.range n := fun node hm =>
    mem_range.mpr (hn.bounded node hm)
  simpa using (subperm_of_subset hn.nodup hs).length_le

/-- A breadth-first numbering with its child runs. -/
structure IsNumbering (kids : Nat → List Nat) (n : Nat) (order firstChild : List Nat) : Prop where
  perm : order.Perm (range n)
  root : order[0]? = some 0
  lengthFirst : firstChild.length = n
  run {i node : Nat} : order[i]? = some node → ∃ first, firstChild[i]? = some first ∧
    (firstChild ++ [n])[i + 1]? = some (first + (kids node).length) ∧
    (order.drop first).take (kids node).length = kids node

section

variable (tree : IsTree kids n)
include tree

theorem numbered_start : Numbered kids n 0 [0] [] where
  cursorLe := Nat.zero_le _
  order_eq := rfl
  firstChild_eq := rfl
  nodup := nodup_singleton 0
  bounded node hm := by
    obtain rfl := mem_singleton.mp hm
    exact tree.nonEmpty

theorem Numbered.disjoint {i node : Nat} (hn : Numbered kids n i ord firstChild)
    (hc : ord[i]? = some node) : List.Disjoint ord (kids node) := by
  intro c hit hch
  have hnl := hn.bounded node (mem_of_getElem? hc)
  rw [hn.order_eq] at hit
  rcases mem_cons.mp hit with rfl | hl
  · exact Nat.not_lt_zero _ (tree.parentLt hnl hch)
  · obtain ⟨par, hp, hi⟩ := mem_flatMap.mp hl
    have hpl := hn.bounded par (mem_of_mem_take hp)
    obtain rfl := tree.parentUnique hnl hpl hch hi
    obtain ⟨k, hk, ha⟩ := List.mem_take_iff_getElem.mp hp
    have iLt : i < ord.length := (List.getElem?_eq_some_iff.mp hc).1
    have hs : ord[k] = ord[i] := by
      rw [ha]
      exact (List.getElem?_eq_some_iff.mp hc).2.symm
    have := (hn.nodup.getElem_inj_iff).mp hs
    omega

theorem Numbered.step {i node : Nat}
    (hn : Numbered kids n i ord firstChild) (hc : ord[i]? = some node) :
    Numbered kids n (i + 1) (ord ++ kids node) (firstChild ++ [ord.length]) := by
  have hi : i < ord.length := (List.getElem?_eq_some_iff.mp hc).1
  have hnl := hn.bounded node (mem_of_getElem? hc)
  have ht : ∀ k ≤ i, (ord ++ kids node).take k = ord.take k := by
    intro k hk
    rw [take_append_of_le_length (by omega)]
  have htn : (ord ++ kids node).take (i + 1) = ord.take i ++ [node] := by
    rw [take_append_of_le_length (by omega), take_add_one, hc]
    rfl
  constructor
  · rw [length_append]
    omega
  · rw [htn, flatMap_append, flatMap_singleton, ← cons_append, ← hn.order_eq]
  · have hl : ord.length = 1 + ((ord.take i).flatMap kids).length := by
      conv_lhs => rw [hn.order_eq]
      rw [length_cons, Nat.add_comm]
    rw [range_succ, map_append, map_singleton, ht i le_rfl, ← hl, hn.firstChild_eq]
    congr 1
    apply map_congr_left
    intro k hm
    rw [ht k (mem_range.mp hm).le]
  · exact hn.nodup.append (tree.nodup hnl) (hn.disjoint tree hc)
  · intro c hm
    rcases mem_append.mp hm with ho | new
    · exact hn.bounded c ho
    · exact tree.childLt hnl new

theorem loop_numbered {fuel i : Nat} (hn : Numbered kids n i ord firstChild) (heno : n ≤ fuel + i) :
    Numbered kids n (loop kids fuel i ord firstChild).1.length
      (loop kids fuel i ord firstChild).1 (loop kids fuel i ord firstChild).2 := by
  induction fuel generalizing i ord firstChild with
  | zero =>
    have he : ord.length = i := le_antisymm (hn.length_le.trans (by omega)) hn.cursorLe
    rw [loop, he]
    exact hn
  | succ fuel ih =>
    rw [loop]
    cases hc : ord[i]? with
    | none =>
      have he : ord.length = i := le_antisymm (getElem?_eq_none_iff.mp hc) hn.cursorLe
      rw [he]
      exact hn
    | some node => exact ih (hn.step tree hc) (by omega)

theorem Numbered.mem_of_lt (num : Numbered kids n ord.length ord firstChild) {node : Nat}
    (hn : node < n) : node ∈ ord := by
  induction node using Nat.strong_induction_on with
  | _ node ih =>
    rw [num.order_eq, take_length]
    rcases Nat.eq_zero_or_pos node with rfl | pos
    · exact mem_cons_self
    · obtain ⟨par, hp, hc⟩ := tree.hasParent pos hn
      have pre := tree.parentLt hp hc
      exact mem_cons_of_mem _ (mem_flatMap.mpr ⟨par, ih par pre hp, hc⟩)

theorem Numbered.isNumbering (hn : Numbered kids n ord.length ord firstChild) :
    IsNumbering kids n ord firstChild := by
  have hp : ord.Perm (range n) :=
    (perm_ext_iff_of_nodup hn.nodup nodup_range).mpr fun node =>
      ⟨fun hm => mem_range.mpr (hn.bounded node hm), fun hm => hn.mem_of_lt tree (mem_range.mp hm)⟩
  have hle : ord.length = n := by simpa using hp.length_eq
  have hlf : firstChild.length = n := by
    rw [hn.firstChild_eq, length_map, length_range, hle]
  have order_eq := hn.order_eq
  rw [take_length] at order_eq
  have e : ∀ k, k < n →
      firstChild[k]? = some (1 + ((ord.take k).flatMap kids).length) := by
    intro k hk
    rw [hn.firstChild_eq, getElem?_map, getElem?_range (by omega)]
    rfl
  refine ⟨hp, by rw [order_eq]; rfl, hlf, ?_⟩
  intro i node ha
  have iLt : i < ord.length := (List.getElem?_eq_some_iff.mp ha).1
  have ht : ord.take (i + 1) = ord.take i ++ [node] := by
    rw [take_add_one, ha]
    rfl
  refine ⟨1 + ((ord.take i).flatMap kids).length, e i (by omega), ?_, ?_⟩
  · rcases lt_or_ge (i + 1) n with hi | last
    · rw [getElem?_append_left (by omega), e (i + 1) hi, ht,
        flatMap_append, length_append, flatMap_singleton]
      congr 1
      omega
    · have hl : i + 1 = n := by omega
      have hto : n = 1 + ((ord.take (i + 1)).flatMap kids).length := by
        rw [hl, ← hle, take_length]
        conv_lhs => rw [order_eq]
        rw [length_cons, Nat.add_comm]
      rw [ht, flatMap_append, length_append, flatMap_singleton] at hto
      rw [getElem?_append_right (by omega), hlf, hl, Nat.sub_self]
      simp only [getElem?_cons_zero, some.injEq]
      omega
  · have hs : ord.flatMap kids =
        (ord.take i).flatMap kids ++ (kids node ++ (ord.drop (i + 1)).flatMap kids) := by
      conv_lhs => rw [← take_append_drop i ord, flatMap_append]
      rw [List.drop_eq_getElem_cons iLt, List.flatMap_cons]
      rw [(List.getElem?_eq_some_iff.mp ha).2]
    have hd : ∀ front rest, ord = 0 :: (front ++ rest) →
        ord.drop (1 + front.length) = rest := by
      rintro front rest rfl
      rw [Nat.add_comm, drop_succ_cons, drop_left]
    rw [hd _ _ (order_eq.trans (congrArg (0 :: ·) hs)), take_left]

theorem loop_isNumbering :
    IsNumbering kids n (loop kids n 0 [0] []).1 (loop kids n 0 [0] []).2 :=
  (loop_numbered tree (numbered_start tree) (by omega)).isNumbering tree

end

theorem IsNumbering.length_order (hn : IsNumbering kids n ord firstChild) : ord.length = n := by
  simpa using hn.perm.length_eq

theorem IsNumbering.first_le (hnu : IsNumbering kids n ord firstChild) {i fst : Nat}
    (at_ : firstChild[i]? = some fst) : fst ≤ n := by
  have hlo := hnu.length_order
  have hlf := hnu.lengthFirst
  -- Backwards from the last run, which ends at the number of nodes.
  induction rem : n - i using Nat.strong_induction_on generalizing i fst with
  | _ rem ih =>
    have hi : i < firstChild.length := (List.getElem?_eq_some_iff.mp at_).1
    obtain ⟨start, hs, hn, _⟩ := hnu.run (getElem?_eq_getElem (l := ord) (i := i) (by omega))
    obtain rfl : fst = start := some.inj (at_.symm.trans hs)
    rcases lt_or_ge (i + 1) firstChild.length with hm | hl
    · rw [getElem?_append_left hm] at hn
      have := ih (n - (i + 1)) (by omega) hn rfl
      omega
    · have he : i + 1 = firstChild.length := by omega
      rw [getElem?_append_right hl, he, Nat.sub_self] at hn
      have : n = _ := some.inj hn
      omega

end BreadthFirst
