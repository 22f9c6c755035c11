import MeowRs.TrieSealed

/-!
# Packing the nodes of a domain trie

What the packed words, the label arena and the sampled value index of a sealed trie decode to.
-/

namespace MeowRs.DomainTrie

open List Option Text Nat CsrGrouping

theorem cmpStored_eq (fold : UInt8 → UInt8) {l : Text} (hd : dot ∉ l) (rest q : Text) :
    cmpStored fold (l ++ dot :: rest) q = compare l (q.map fold) := by
  rw [List.compare_eq_compareLex]
  induction l generalizing q with
  | nil =>
    cases q with
    | nil => rfl
    | cons b q => simp [cmpStored, List.compareLex_nil_cons]
  | cons first l ih =>
    have hn : first ≠ dot := by
      rintro rfl
      exact hd mem_cons_self
    cases q with
    | nil => simp [cmpStored, hn, List.compareLex_cons_nil]
    | cons b q =>
      have hl := ih (fun mem => hd (List.mem_cons_of_mem first mem)) q
      rw [List.map_cons, List.compareLex_cons_cons, ← hl]
      simp only [cons_append, cmpStored, if_neg hn]
      cases compare first (fold b) <;> rfl

namespace Builder

variable {T : Type} {first : Nat} {mask : BitVec 8} {l : BitVec 32}

theorem buildArena_prefix (ls : List Text) (offs : List (BitVec 32)) (arena : Text) :
    offs <+: (buildArena ls offs arena).1 ∧
      arena <+: (buildArena ls offs arena).2 := by
  induction ls generalizing offs arena with
  | nil => exact ⟨prefix_rfl, prefix_rfl⟩
  | cons l ls ih =>
    obtain ⟨ho, ha⟩ := ih (offs ++ [BitVec.ofNat 32 arena.length]) (arena ++ l ++ [dot])
    refine ⟨(prefix_append _ _).trans ho, List.IsPrefix.trans ?_ ha⟩
    rw [append_assoc]
    exact prefix_append _ _

/-- The offset of a label points at it and its terminator. -/
theorem buildArena_getElem? {ls : List Text} {offs : List (BitVec 32)} {arena : Text}
    (fits : arena.length + (ls.map fun l => l.length + 1).sum < 2 ^ 32) {id : Nat}
    {l : Text} (at_ : ls[id]? = some l) :
    ∃ off rest, (buildArena ls offs arena).1[offs.length + id]? = some off ∧
      (buildArena ls offs arena).2.drop off.toNat = l ++ dot :: rest := by
  induction ls generalizing offs arena id with
  | nil => cases at_
  | cons first ls ih =>
    rw [map_cons, sum_cons] at fits
    cases id with
    | zero =>
      obtain rfl : first = l := some.inj at_
      obtain ⟨⟨more, hoe⟩, rest, ha⟩ := buildArena_prefix ls
        (offs ++ [BitVec.ofNat 32 arena.length]) (arena ++ first ++ [dot])
      refine ⟨BitVec.ofNat 32 arena.length, rest, ?_, ?_⟩
      · rw [buildArena, ← hoe]
        simp
      · rw [buildArena, ← ha, BitVec.toNat_ofNat, mod_eq_of_lt (by omega)]
        simp
    | succ id =>
      have hl : (arena ++ first ++ [dot]).length +
          (ls.map fun l => l.length + 1).sum < 2 ^ 32 := by
        simp only [length_append, length_singleton]
        omega
      obtain ⟨off, rest, ho, har⟩ := @ih (offs ++ [BitVec.ofNat 32 arena.length]) _ hl id at_
      rw [length_append, length_singleton, Nat.add_assoc, Nat.add_comm 1 id]
        at ho
      exact ⟨off, rest, ho, har⟩

theorem nodeMask_lt (node : BuildNode T) : (nodeMask node).toNat < 8 := by
  unfold nodeMask
  generalize node.exact.isSome = exact
  generalize node.star.isSome = star
  generalize node.dot.isSome = dot
  revert exact star dot
  decide

section

variable (hf : first < 2 ^ maskShift)
include hf

section

variable (hm : mask.toNat < 8)
include hm

/-- A packed word as a number: the mask above the index of the first child. -/
theorem toNat_pack :
    (BitVec.ofNat 32 first ||| (mask.setWidth 32 <<< maskShift)).toNat =
      2 ^ maskShift * mask.toNat + first := by
  have hs : (mask.setWidth 32 <<< maskShift).toNat = 2 ^ maskShift * mask.toNat := by
    rw [BitVec.toNat_shiftLeft, BitVec.toNat_setWidth, Nat.shiftLeft_eq, Nat.mod_eq_of_lt,
      Nat.mod_eq_of_lt, Nat.mul_comm]
    · omega
    · rw [mod_eq_of_lt (by omega)]
      unfold maskShift
      omega
  have hsm : (BitVec.ofNat 32 first).toNat = first := by
    rw [BitVec.toNat_ofNat, mod_eq_of_lt]
    unfold maskShift at hf
    omega
  rw [BitVec.toNat_or, hs, hsm, Nat.or_comm, ← Nat.two_pow_add_eq_or_of_lt hf]

theorem firstChild_pack :
    Node.firstChild ⟨l, BitVec.ofNat 32 first ||| (mask.setWidth 32 <<< maskShift)⟩ =
      first := by
  have hb : childMaskBits.toNat = 2 ^ maskShift - 1 := by decide
  rw [Node.firstChild, BitVec.toNat_and, hb, toNat_pack hf hm,
    and_two_pow_sub_one_eq_mod, mul_add_mod, mod_eq_of_lt hf]

theorem toNat_shift_pack :
    ((BitVec.ofNat 32 first ||| (mask.setWidth 32 <<< maskShift)) >>> maskShift).toNat =
      mask.toNat := by
  rw [BitVec.toNat_ushiftRight, toNat_pack hf hm, Nat.shiftRight_eq_div_pow,
    Nat.mul_add_div (Nat.two_pow_pos maskShift), Nat.div_eq_of_lt hf, Nat.add_zero]

theorem mask_pack :
    Node.mask ⟨l, BitVec.ofNat 32 first ||| (mask.setWidth 32 <<< maskShift)⟩ = mask := by
  apply BitVec.eq_of_toNat_eq
  rw [Node.mask, BitVec.toNat_setWidth, toNat_shift_pack hf hm, mod_eq_of_lt]
  omega

end

theorem valueCount_pack (node : BuildNode T) :
    Node.valueCount ⟨l, BitVec.ofNat 32 first |||
        ((nodeMask node).setWidth 32 <<< maskShift)⟩ = (nodeValues node).length := by
  have hs : (BitVec.ofNat 32 first ||| ((nodeMask node).setWidth 32 <<< maskShift)) >>>
      maskShift = (nodeMask node).setWidth 32 := by
    apply BitVec.eq_of_toNat_eq
    rw [toNat_shift_pack hf (nodeMask_lt node), BitVec.toNat_setWidth, mod_eq_of_lt]
    omega
  rw [Node.valueCount, hs]
  unfold nodeMask nodeValues
  cases node.exact <;> cases node.star <;> cases node.dot <;>
    simp only [isSome_none, isSome_some, if_true, if_false, toList_none,
      toList_some, nil_append, append_nil, length_nil, length_cons,
      length_append, Bool.false_eq_true] <;> decide

end

def slotBit : MatchKind → BitVec 8
  | .exact => maskExact
  | .star => maskStar
  | .dot => maskDot

/-- The place of a slot's value among the values of its node. -/
def slotOffset (mask : BitVec 8) : MatchKind → Nat
  | .exact => 0
  | .star => (mask &&& maskExact).toNat
  | .dot => (mask &&& (maskExact ||| maskStar)).cpop.toNat

theorem nodeMask_and_slotBit (node : BuildNode T) (kind : MatchKind) :
    nodeMask node &&& slotBit kind = if (node.slot kind).isSome then slotBit kind else 0 := by
  obtain ⟨l, atExact, atStar, atDot⟩ := node
  unfold nodeMask BuildNode.slot
  cases kind <;> dsimp only <;> generalize atExact.isSome = exact <;>
    generalize atStar.isSome = star <;> generalize atDot.isSome = dot <;>
    revert exact star dot <;> decide

theorem slotBit_ne_zero (kind : MatchKind) : slotBit kind ≠ 0 := by
  cases kind <;> decide

theorem slotOffset_nodeMask (node : BuildNode T) (kind : MatchKind) :
    slotOffset (nodeMask node) kind =
      match kind with
      | .exact => 0
      | .star => node.exact.toList.length
      | .dot => node.exact.toList.length + node.star.toList.length := by
  unfold nodeMask
  rw [length_toList, length_toList]
  cases kind <;> dsimp only [slotOffset] <;> generalize node.exact.isSome = exact <;>
    generalize node.star.isSome = star <;> generalize node.dot.isSome = dot <;>
    revert exact star dot <;> decide

theorem nodeValues_getElem? {node : BuildNode T} {kind : MatchKind} {v : T}
    (hh : node.slot kind = some v) :
    (nodeValues node)[slotOffset (nodeMask node) kind]? = some v := by
  obtain ⟨l, atExact, atStar, atDot⟩ := node
  rw [slotOffset_nodeMask, nodeValues]
  cases kind with
  | exact =>
    obtain rfl := hh
    rfl
  | star | dot =>
    obtain rfl := hh
    simp

/-- The values of nodes in the order given. -/
def orderValues (builder : Builder T) (order : List Nat) : List T :=
  order.flatMap fun old => nodeValues (builder.nodes.getD old (.vacant 0))

theorem orderValues_append (b : Builder T) (order more : List Nat) :
    b.orderValues (order ++ more) = b.orderValues order ++ b.orderValues more :=
  flatMap_append

theorem length_nodeValues_le (node : BuildNode T) : (nodeValues node).length ≤ 3 := by
  unfold nodeValues
  cases node.exact <;> cases node.star <;> cases node.dot <;> simp

theorem length_orderValues_le (b : Builder T) (order : List Nat) :
    (b.orderValues order).length ≤ 3 * order.length := by
  induction order with
  | nil => exact zero_le _
  | cons old order ih =>
    have hmo := length_nodeValues_le (b.nodes.getD old (.vacant 0))
    unfold orderValues at ih ⊢
    rw [flatMap_cons, length_append, length_cons]
    omega

/-- What the packing loop has built once it is through the nodes of `packed`. -/
structure Packed (builder : Builder T) (offsets : List (BitVec 32)) (firstChild : List Nat)
    (packed : List Nat) (trie : Sealed T) : Prop where
  nodes : trie.nodes =
    packed.mapIdx fun index old => builder.packNode offsets firstChild old index
  values : trie.values = builder.orderValues packed
  lengthBase : trie.valueBase.length = (packed.length + 31) / valueBlock
  base {block : Nat} : block * valueBlock < packed.length →
    trie.valueBase[block]? =
      some (BitVec.ofNat 32 (builder.orderValues (packed.take (block * valueBlock))).length)

variable {b : Builder T} {offs : List (BitVec 32)} {firstChild : List Nat}

theorem Packed.step {packed : List Nat} {trie : Sealed T}
    (hs : Packed b offs firstChild packed trie) (old : Nat) :
    Packed b offs firstChild (packed ++ [old])
      { trie with
        valueBase :=
          if packed.length % valueBlock = 0 then
            trie.valueBase ++ [BitVec.ofNat 32 trie.values.length]
          else trie.valueBase
        values := trie.values ++ nodeValues (b.nodes.getD old (.vacant 0))
        nodes := trie.nodes ++ [b.packNode offs firstChild old packed.length] } := by
  have hl := hs.lengthBase
  have hb : valueBlock = 32 := rfl
  constructor
  · rw [mapIdx_append, ← hs.nodes]
    simp
  · rw [orderValues_append, ← hs.values]
    simp [orderValues]
  · dsimp only
    rw [length_append, length_singleton]
    by_cases ho : packed.length % valueBlock = 0
    · rw [if_pos ho, length_append, length_singleton, hl, hb]
      rw [hb] at ho
      omega
    · rw [if_neg ho, hl, hb]
      rw [hb] at ho
      omega
  · intro block hi
    rw [length_append, length_singleton] at hi
    rw [take_append_of_le_length (by omega)]
    rw [hb] at hl
    -- Either the block was sampled before, or this very node opens it.
    rcases lt_or_ge (block * valueBlock) packed.length with hp | ho
    · have hk := hs.base hp
      rw [hb] at hp
      split
      · rw [getElem?_append_left (by omega), hk]
      · exact hk
    · have he : packed.length = block * valueBlock := by omega
      have hsa : trie.valueBase.length = block := by
        rw [hl, he, hb]
        omega
      rw [if_pos (by rw [he, Nat.mul_mod_left]), getElem?_append_right hsa.le,
        hsa, Nat.sub_self, ← he, take_length, ← hs.values]
      rfl

theorem Packed.packNodes {packed : List Nat} {trie : Sealed T}
    (hs : Packed b offs firstChild packed trie) (order : List Nat) :
    Packed b offs firstChild (packed ++ order)
      (b.packNodes offs firstChild order packed.length trie) := by
  induction order generalizing packed trie with
  | nil =>
    rw [append_nil]
    exact hs
  | cons old order ih =>
    have hl := ih (hs.step old)
    rw [append_assoc, length_append] at hl
    exact hl

theorem labels_packNodes (order : List Nat) (i : Nat) (trie : Sealed T) :
    (b.packNodes offs firstChild order i trie).labels = trie.labels := by
  induction order generalizing i trie with
  | nil => rfl
  | cons old order ih => exact ih _ _

/-- The finished form: the packed nodes of `order` and the sentinel that ends the last run. -/
structure Frozen (builder : Builder T) (offsets : List (BitVec 32)) (firstChild order : List Nat)
    (trie : Sealed T) : Prop where
  nodes : trie.nodes =
    (order.mapIdx fun index old => builder.packNode offsets firstChild old index) ++
      [⟨0, BitVec.ofNat 32 order.length⟩]
  values : trie.values = builder.orderValues order
  base {block : Nat} : block * valueBlock < order.length →
    trie.valueBase[block]? =
      some (BitVec.ofNat 32 (builder.orderValues (order.take (block * valueBlock))).length)
  size : order.length < 2 ^ maskShift
  firstLt (index : Nat) : firstChild.getD index 0 < 2 ^ maskShift

/-- The packing loop and the sentinel after it make up the finished form. -/
theorem frozen_packNodes {order : List Nat} (arena : Text) (hs : order.length < 2 ^ maskShift)
    (hf : ∀ {i first : Nat}, firstChild[i]? = some first → first < 2 ^ maskShift) :
    let packed := b.packNodes offs firstChild order 0
      { nodes := [], values := [], valueBase := [], labels := arena }
    Frozen b offs firstChild order
      { packed with nodes := packed.nodes ++ [⟨0, BitVec.ofNat 32 order.length⟩] } := by
  intro packed
  have hst : Packed b offs firstChild []
      { nodes := [], values := [], valueBase := [], labels := arena } :=
    ⟨rfl, rfl, rfl, fun hi => absurd hi (not_lt_zero _)⟩
  have hd : Packed b offs firstChild order packed := hst.packNodes order
  refine ⟨by rw [hd.nodes], hd.values, hd.base, hs, fun i => ?_⟩
  rw [getD_eq_getElem?_getD]
  cases at_ : firstChild[i]? with
  | none => exact Nat.two_pow_pos maskShift
  | some first => exact hf at_

namespace Frozen

variable {order : List Nat} {trie : Sealed T} {i old : Nat}

section

variable (hf : Frozen b offs firstChild order trie)
include hf

theorem sum_valueCount (low : Nat) {high : Nat} (hi : high ≤ order.length) :
    ((slice trie.nodes low high).map Node.valueCount).sum =
      (b.orderValues (slice order low high)).length := by
  have hc : (order.mapIdx fun i old =>
      b.packNode offs firstChild old i).map Node.valueCount =
        order.map fun old => (nodeValues (b.nodes.getD old (.vacant 0))).length := by
    apply ext_getElem?
    intro i
    rw [List.getElem?_map, List.getElem?_mapIdx, List.getElem?_map, Option.map_map]
    congr 1
    funext old
    exact valueCount_pack (hf.firstLt i) _
  rw [slice, slice, hf.nodes, take_append_of_le_length (by simpa using hi), map_drop, map_take, hc,
    ← map_take, ← map_drop, orderValues, length_flatMap]

theorem valueIndex_eq [ValueLayout T] (hsi : ValueLayout.zeroSized T = false) {i : Nat}
    (hi : i < order.length) : trie.valueIndex i = (b.orderValues (order.take i)).length := by
  have ho : i / valueBlock * valueBlock ≤ i := div_mul_le_self _ _
  have hsa := hf.base (ho.trans_lt hi)
  have fits : (b.orderValues (order.take (i / valueBlock * valueBlock))).length <
      2 ^ 32 := by
    have hmo := length_orderValues_le b (order.take (i / valueBlock * valueBlock))
    have hs := hf.size
    rw [length_take] at hmo
    unfold maskShift at hs
    omega
  have hsp : order.take i = order.take (i / valueBlock * valueBlock) ++
      slice order (i / valueBlock * valueBlock) i := by
    conv_lhs => rw [← take_append_drop (i / valueBlock * valueBlock) (order.take i)]
    rw [take_take, min_eq_left ho]
    rfl
  simp only [Sealed.valueIndex, hsi, Bool.false_eq_true, if_false]
  rw [getD_eq_getElem?_getD, hsa, getD_some, BitVec.toNat_ofNat,
    mod_eq_of_lt fits, hf.sum_valueCount _ hi.le, hsp, orderValues_append, length_append]

section

variable (at_ : order[i]? = some old)
include at_

theorem nodes_getElem? :
    trie.nodes[i]? = some (b.packNode offs firstChild old i) := by
  have hb := (List.getElem?_eq_some_iff.mp at_).1
  rw [hf.nodes, getElem?_append_left (by simpa using hb), getElem?_mapIdx, at_]
  rfl

theorem nodeAt :
    trie.nodes.getD i default = b.packNode offs firstChild old i := by
  rw [getD_eq_getElem?_getD, hf.nodes_getElem? at_, getD_some]

theorem values_getElem? [ValueLayout T] {k : Nat}
    (hin : k < (nodeValues (b.nodes.getD old (.vacant 0))).length) :
    trie.values[trie.valueIndex i + k]? =
    (nodeValues (b.nodes.getD old (.vacant 0)))[k]? := by
  obtain ⟨hb, hi⟩ := List.getElem?_eq_some_iff.mp at_
  have hsp : b.orderValues order = b.orderValues (order.take i) ++
      (nodeValues (b.nodes.getD old (.vacant 0)) ++
        b.orderValues (order.drop (i + 1))) := by
    conv_lhs => rw [← take_append_drop i order, drop_eq_getElem_cons hb, hi]
    simp [orderValues]
  cases hs : ValueLayout.zeroSized T with
  | false =>
    rw [hf.valueIndex_eq hs hb, hf.values, hsp,
      getElem?_append_right (Nat.le_add_right _ _), Nat.add_sub_cancel_left,
      getElem?_append_left hin]
  | true =>
    -- Without a size all values are equal, so any index inside the list will do.
    have := ValueLayout.subsingleton hs
    have hr : trie.valueIndex i + k < trie.values.length := by
      rw [hf.values, hsp]
      simp only [Sealed.valueIndex, hs, if_true, length_append]
      omega
    rw [getElem?_eq_getElem hr, getElem?_eq_getElem hin]
    exact congrArg some (Subsingleton.elim _ _)

theorem mask_nodeAt :
    (trie.nodes.getD i default).mask = nodeMask (b.nodes.getD old (.vacant 0)) := by
  rw [hf.nodeAt at_, packNode, mask_pack (hf.firstLt i) (nodeMask_lt _)]

/-- A sealed node holds the values of the node it stands for. -/
theorem slot_eq [ValueLayout T] (kind : MatchKind) : trie.slot kind i = b.slot kind old := by
  have hh : b.slot kind old = (b.nodes.getD old (.vacant 0)).slot kind := by
    rw [Builder.slot, getD_eq_getElem?_getD]
    cases b.nodes[old]? <;> simp
  rw [hh]
  have hi : ∀ {k : Nat} {v : T}, (nodeValues (b.nodes.getD old (.vacant 0)))[k]? = some v →
        trie.values[trie.valueIndex i + k]? = some v := fun at_k =>
    (hf.values_getElem? at_ (List.getElem?_eq_some_iff.mp at_k).1).trans at_k
  have hr : trie.slot kind i = if nodeMask (b.nodes.getD old (.vacant 0)) &&& slotBit kind ≠ 0 then
        trie.values[trie.valueIndex i + slotOffset (nodeMask (b.nodes.getD old (.vacant 0))) kind]?
      else none := by
    rw [← hf.mask_nodeAt at_]
    cases kind <;> rfl
  rw [hr]
  cases hs : (b.nodes.getD old (.vacant 0)).slot kind with
  | none => rw [nodeMask_and_slotBit, hs, if_neg (by simp)]
  | some v =>
    rw [nodeMask_and_slotBit, hs, if_pos (by simpa using slotBit_ne_zero kind),
      hi (nodeValues_getElem? hs)]

end

theorem firstChild_eq (hl : firstChild.length = order.length) {i first : Nat}
    (at_ : (firstChild ++ [order.length])[i]? = some first) :
    (trie.nodes.getD i default).firstChild = first := by
  rcases lt_or_ge i firstChild.length with hi | hb
  · rw [getElem?_append_left hi] at at_
    obtain ⟨old, ho⟩ : ∃ old, order[i]? = some old := ⟨_, getElem?_eq_getElem (by omega)⟩
    have hfe : firstChild.getD i 0 = first := by
      rw [getD_eq_getElem?_getD, at_, getD_some]
    rw [hf.nodeAt ho, packNode, firstChild_pack (hf.firstLt i) (nodeMask_lt _), hfe]
  · have he : i = firstChild.length := by
      have := (List.getElem?_eq_some_iff.mp at_).1
      rw [length_append, length_singleton] at this
      omega
    rw [getElem?_append_right hb, he, Nat.sub_self] at at_
    have hs : (trie.nodes.getD i default) = ⟨0, BitVec.ofNat 32 order.length⟩ := by
      rw [getD_eq_getElem?_getD, hf.nodes, getElem?_append_right (by simp; omega),
        length_mapIdx, he, hl, Nat.sub_self]
      rfl
    have hma : BitVec.ofNat 32 order.length =
        BitVec.ofNat 32 order.length ||| ((0 : BitVec 8).setWidth 32 <<< maskShift) := by simp
    rw [hs, hma, firstChild_pack hf.size (by decide)]
    exact some.inj at_

end

end Frozen

end Builder

end MeowRs.DomainTrie
