import Mathlib.Data.List.Basic

/-!
# Trees in level order

The nodes of a tree are listed root first, then the children of each listed node in turn.  The bit
sequence of such a list has a zero for each edge of a node and a one after them.  The edge behind `n`
others leads to the node behind `n + 1` others, and the ones before that node's edges are as many as
the nodes before it.
-/

namespace MeowRs.Louds

open List Option Prod

variable {Node Label : Type*} (kids : Node → List (Label × Node))

def edges (nodes : List Node) : List (Label × Node) :=
  nodes.flatMap kids

def bits (nodes : List Node) : List Bool :=
  nodes.flatMap fun node => replicate (kids node).length false ++ [true]

/-- The nodes after the root are the children of all nodes, in order. -/
structure LevelOrder (root : Node) (order : List Node) : Prop where
  order_eq : order = root :: (edges kids order).map snd

variable {kids}

@[simp] theorem edges_append (fst snd : List Node) :
    edges kids (fst ++ snd) = edges kids fst ++ edges kids snd :=
  flatMap_append

@[simp] theorem edges_cons (node : Node) (ns : List Node) :
    edges kids (node :: ns) = kids node ++ edges kids ns :=
  flatMap_cons

@[simp] theorem bits_append (fst snd : List Node) :
    bits kids (fst ++ snd) = bits kids fst ++ bits kids snd :=
  flatMap_append

@[simp] theorem bits_cons (node : Node) (ns : List Node) :
    bits kids (node :: ns) =
      replicate (kids node).length false ++ true :: bits kids ns := by
  rw [bits, flatMap_cons, append_assoc, singleton_append, bits]

theorem length_bits (ns : List Node) :
    (bits kids ns).length = (edges kids ns).length + ns.length := by
  induction ns with
  | nil => rfl
  | cons node ns ih =>
    rw [bits_cons, edges_cons, length_append, length_append, length_cons,
      length_cons, length_replicate, ih]
    omega

theorem count_bits (ns : List Node) : (bits kids ns).count true = ns.length := by
  induction ns with
  | nil => rfl
  | cons node ns ih =>
    rw [bits_cons, count_append, count_cons_self, ih, length_cons, count_replicate]
    simp

section Positions

variable {pre after : List Node} {node : Node} {done rest : List (Label × Node)} {n : Nat}

/-- Behind the nodes before it and some of its edges, a node has as many ones before it as nodes. -/
theorem count_take_bits (le : n ≤ (kids node).length) :
    ((bits kids (pre ++ node :: after)).take ((bits kids pre).length + n)).count true =
      pre.length := by
  rw [bits_append, take_length_add_append, bits_cons,
    take_append_of_le_length (by rw [length_replicate]; exact le), count_append,
    count_bits, take_replicate, count_replicate]
  simp

theorem position_lt {ord : List Node} (hs : ord = pre ++ node :: after)
    (le : n ≤ (kids node).length) : (bits kids pre).length + n < (bits kids ord).length := by
  rw [hs, bits_append, length_append, bits_cons, length_append, length_replicate, length_cons]
  omega

theorem bits_of_edge (hl : n < (kids node).length) :
    (bits kids (pre ++ node :: after))[(bits kids pre).length + n]? = some false := by
  rw [bits_append, getElem?_append_right (Nat.le_add_right _ _), Nat.add_sub_cancel_left,
    bits_cons, getElem?_append_left (by rw [length_replicate]; exact hl),
    getElem?_replicate, if_pos hl]

theorem bits_of_end :
    (bits kids (pre ++ node :: after))[(bits kids pre).length + (kids node).length]? =
      some true := by
  rw [bits_append, getElem?_append_right (Nat.le_add_right _ _), Nat.add_sub_cancel_left,
    bits_cons, getElem?_append_right (Nat.le_of_eq length_replicate),
    length_replicate, Nat.sub_self]
  rfl

theorem length_bits_snoc :
    (bits kids (pre ++ [node])).length =
      (bits kids pre).length + (kids node).length + 1 := by
  rw [bits_append, bits_cons, length_append, length_append, length_replicate]
  rfl

/-- An edge leads to the node that stands one place further than the edge. -/
theorem LevelOrder.exists_kid {root : Node} {ord : List Node} (hl : LevelOrder kids root ord)
    (hsp : ord = pre ++ node :: after)
    {l : Label} {kid : Node} (he : kids node = done ++ (l, kid) :: rest) :
    ∃ prev last later, ord = (prev ++ [last]) ++ kid :: later ∧
      prev.length = (edges kids pre).length + done.length := by
  have order_eq := hl.order_eq
  have ht : (edges kids ord).map snd =
      (edges kids pre ++ done).map snd ++ kid :: (rest ++ edges kids after).map snd := by
    rw [hsp, edges_append, edges_cons, he]
    simp
  rw [ht] at order_eq
  obtain ⟨prev, last, hs⟩ : ∃ prev last,
      root :: (edges kids pre ++ done).map snd = prev ++ [last] :=
    ⟨_, _, (dropLast_append_getLast (cons_ne_nil _ _)).symm⟩
  refine ⟨prev, last, (rest ++ edges kids after).map snd, ?_, ?_⟩
  · rw [← hs]
    exact order_eq
  · have := congrArg List.length hs
    simpa using this.symm

theorem getElem?_edges {edge : Label × Node} (hs : kids node = done ++ edge :: rest) :
    (edges kids (pre ++ node :: after))[(edges kids pre).length + done.length]? =
      some edge := by
  rw [edges_append, edges_cons, hs, getElem?_append_right (Nat.le_add_right _ _),
    Nat.add_sub_cancel_left, append_assoc, getElem?_append_right (Nat.le_refl _), Nat.sub_self]
  rfl

end Positions

end MeowRs.Louds
