import MeowRs.DomainPatterns
import MeowRs.TriePacking
import MeowRs.TrieRenumbering

/-!
# Sealing keeps the meaning of a domain trie

The nodes of the sealed trie stand for the nodes of the builder: they hold the same values, and the
binary search over a run of children finds what the edge map of the builder holds.  Both forms
therefore answer every search alike.
-/

namespace MeowRs

open List Option Text CsrGrouping

namespace DomainTrie

variable {T : Type}

theorem compare_gt_of_lt {first second query : Text} (increasing : compare first second = .lt)
    (notLess : compare first query ≠ .lt) : compare second query = .gt := by
  have swapped : compare query first = (compare first query).swap := Std.OrientedCmp.eq_swap
  have atMost : (compare query first).isLE = true := by
    rw [swapped]
    cases order : compare first query with
    | lt => exact absurd order notLess
    | eq | gt => rfl
  have below : compare query second = .lt := Std.TransCmp.lt_of_isLE_of_lt atMost increasing
  have turned : compare second query = (compare query second).swap := Std.OrientedCmp.eq_swap
  rw [turned, below]
  rfl

namespace Builder

variable {builder : Builder T} {edgeOrder : List ((Nat × Nat) × Nat)}
variable {labelOrder : List (Text × Nat)}

theorem labelById_perm (wellFormed : WellFormed builder) (lists : Lists labelOrder builder.labels) :
    (builder.labelById labelOrder).Perm builder.labels.keys := by
  have getLabel : ∀ {id : Nat} {label : Text},
      (builder.labelById labelOrder)[id]? = some label →
        builder.labels.lookup label = some id := by
    intro id label at_
    have bound := (List.getElem?_eq_some_iff.mp at_).1
    rw [length_labelById] at bound
    obtain ⟨other, found⟩ := wellFormed.labelSurj bound
    rw [labelById_getElem? wellFormed lists found, some.injEq] at at_
    rw [← at_]
    exact found
  have nodup : (builder.labelById labelOrder).Nodup := by
    rw [nodup_iff_getElem?_ne_getElem?]
    intro i j before bound same
    obtain ⟨label, at_⟩ : ∃ label,
        (builder.labelById labelOrder)[j]? = some label :=
      ⟨_, getElem?_eq_getElem bound⟩
    have sameId := (getLabel (same.trans at_)).symm.trans (getLabel at_)
    have : i = j := some.inj sameId
    omega
  rw [perm_ext_iff_of_nodup nodup builder.labels.keys_nodup]
  intro label
  rw [← AList.mem_keys, ← AList.lookup_isSome, isSome_iff_exists, mem_iff_getElem?]
  exact ⟨fun ⟨id, at_⟩ => ⟨id, getLabel at_⟩,
    fun ⟨id, found⟩ => ⟨id, labelById_getElem? wellFormed lists found⟩⟩

/-- The sealed trie stands for the builder: its nodes are the builder's nodes in a breadth-first
order of the siblings, and its label offsets point at their labels. -/
structure Seals (builder : Builder T) (edgeOrder : List ((Nat × Nat) × Nat))
    (labelOrder : List (Text × Nat)) (offsets : List (BitVec 32)) (firstChild order : List Nat)
    (trie : Sealed T) : Prop where
  numbering : BreadthFirst.IsNumbering
    (builder.siblings edgeOrder (builder.labelById labelOrder)) builder.nodes.length order firstChild
  frozen : Frozen builder offsets firstChild order trie
  arena {id : Nat} {label : Text} : (builder.labelById labelOrder)[id]? = some label →
    ∃ rest, trie.labels.drop (offsets.getD id 0).toNat = label ++ dot :: rest

/-- Sealing succeeds when the nodes and the labels fit, and stands for the builder. -/
theorem exists_seals (wellFormed : WellFormed builder) (edges : Lists edgeOrder builder.edges)
    (lists : Lists labelOrder builder.labels) (nodesFit : builder.nodes.length < 2 ^ maskShift)
    (labelsFit : (builder.labels.keys.map fun label => label.length + 1).sum < 2 ^ 32) :
    ∃ trie offsets firstChild order, builder.intoSealed edgeOrder labelOrder = some trie ∧
      Seals builder edgeOrder labelOrder offsets firstChild order trie := by
  set labels := builder.labelById labelOrder with labelsDef
  have fits : (labels.map fun label => label.length + 1).sum < 2 ^ 32 := by
    have perm := (labelById_perm wellFormed lists).map fun label => label.length + 1
    rwa [perm.sum_nat]
  set grouped := groupRuns builder.nodes.length (edgePairs edgeOrder)
    (replicate (builder.nodes.length - 1) 0) with groupedDef
  set kids := fun old => slice (mapRuns (builder.sortByLabel labels)
      builder.nodes.length (runStart grouped.1) grouped.2) (runStart grouped.1 old)
    (runStart grouped.1 (old + 1)) with kidsDef
  have runs : ∀ parent < builder.nodes.length,
      kids parent = builder.siblings edgeOrder labels parent :=
    fun parent parentLt => slice_sorted wellFormed edges labels parentLt
  have numbered := BreadthFirst.loop_isNumbering (isTree_of_siblings wellFormed edges labels runs)
  set visited := BreadthFirst.loop kids builder.nodes.length 0 [0] [] with visitedDef
  have numbering : BreadthFirst.IsNumbering (builder.siblings edgeOrder labels)
      builder.nodes.length visited.1 visited.2 := by
    refine ⟨numbered.perm, numbered.root, numbered.lengthFirst, fun {i node} at_ => ?_⟩
    have nodeLt : node < builder.nodes.length :=
      mem_range.mp (numbered.perm.mem_iff.mp (mem_of_getElem? at_))
    rw [← runs node nodeLt]
    exact numbered.run at_
  have lengthOrder := numbering.length_order
  refine ⟨_, (buildArena labels [] []).1, visited.2, visited.1, ?_, numbering,
    frozen_packNodes (buildArena labels [] []).2 (by omega)
      fun at_ => (numbering.first_le at_).trans_lt nodesFit, ?_⟩
  · unfold intoSealed
    rw [ensureRoot_of_wellFormed wellFormed, lengthOrder]
    exact if_pos ⟨nodesFit, fits⟩
  · intro id label at_
    obtain ⟨offset, rest, atOffset, atArena⟩ :=
      @buildArena_getElem? labels [] [] (by simpa using fits) id label at_
    refine ⟨rest, ?_⟩
    rw [length_nil, Nat.zero_add] at atOffset
    rw [getD_eq_getElem?_getD, atOffset, labels_packNodes]
    exact atArena

namespace Seals

variable {offsets : List (BitVec 32)} {firstChild order : List Nat} {trie : Sealed T}
  {index old : Nat}

variable (wellFormed : WellFormed builder) (edges : Lists edgeOrder builder.edges)
  (lists : Lists labelOrder builder.labels)
  (seals : Seals builder edgeOrder labelOrder offsets firstChild order trie)
include seals

theorem lt_of_order (at_ : order[index]? = some old) : old < builder.nodes.length :=
  mem_range.mp (seals.numbering.perm.mem_iff.mp (mem_of_getElem? at_))

/-- The run of children of a sealed node is the run of its siblings in the new order. -/
theorem exists_run (at_ : order[index]? = some old) :
    ∃ first, (trie.children index).1 = first ∧
    (∀ {k child : Nat},
    (builder.siblings edgeOrder (builder.labelById labelOrder) old)[k]? = some child →
          order[first + k]? = some child) ∧
      ∀ k : Nat, (trie.children index).2[k]? =
    (builder.siblings edgeOrder (builder.labelById labelOrder) old)[k]?.map fun child =>
          builder.packNode offsets firstChild child (first + k) := by
  obtain ⟨first, atFirst, atNext, run⟩ := seals.numbering.run at_
  have sameLength : firstChild.length = order.length :=
    seals.numbering.lengthFirst.trans seals.numbering.length_order.symm
  rw [← seals.numbering.length_order] at atNext
  have firstEq : (trie.children index).1 = first :=
    seals.frozen.firstChild_eq sameLength
      (by rw [List.getElem?_append_left (List.getElem?_eq_some_iff.mp atFirst).1, atFirst])
  have sameRun : ∀ {k child : Nat},
      (builder.siblings edgeOrder (builder.labelById labelOrder) old)[k]? = some child →
        order[first + k]? = some child := by
    intro k child atK
    have inside := (List.getElem?_eq_some_iff.mp atK).1
    rw [← run, getElem?_take_of_lt inside, getElem?_drop] at atK
    exact atK
  refine ⟨first, firstEq, sameRun, fun k => ?_⟩
  have children : (trie.children index).2 = slice trie.nodes first (first +
      (builder.siblings edgeOrder (builder.labelById labelOrder) old).length) := by
    rw [← seals.frozen.firstChild_eq sameLength atNext, ← firstEq]
    rfl
  rw [children, getElem?_slice]
  cases atK : (builder.siblings edgeOrder (builder.labelById labelOrder) old)[k]? with
  | none =>
    have beyond := getElem?_eq_none_iff.mp atK
    rw [if_neg (by omega), map_none]
  | some child =>
    have inside := (List.getElem?_eq_some_iff.mp atK).1
    rw [if_pos (by omega), seals.frozen.nodes_getElem? (sameRun atK), map_some]

include wellFormed lists

theorem cmpLabel_packNode (ci : Bool)
    (query : Text) {old : Nat} (oldLt : old < builder.nodes.length) (index : Nat) :
    trie.cmpLabel ci (builder.packNode offsets firstChild old index).label query =
      compare (builder.nodeLabel (builder.labelById labelOrder) old)
        (query.map (queryFold ci)) := by
  have member : builder.nodes.getD old (.vacant 0) ∈ builder.nodes := by
    rw [getD_eq_getElem?_getD, getElem?_eq_getElem oldLt]
    exact getElem_mem oldLt
  obtain ⟨label, at_⟩ : ∃ label, (builder.labelById labelOrder)[
      (builder.nodes.getD old (.vacant 0)).label]? = some label :=
    ⟨_, getElem?_eq_getElem (by
      rw [length_labelById]
      exact wellFormed.nodeLabelLt member)⟩
  obtain ⟨rest, stored⟩ := seals.arena at_
  have noDot := dot_not_mem_labelById wellFormed lists (mem_of_getElem? at_)
  rw [Sealed.cmpLabel, packNode, stored, cmpStored_eq _ noDot, nodeLabel,
    getD_eq_getElem?_getD, at_, getD_some]

include edges

theorem sortedBy_children (ci : Bool) (query : Text) (at_ : order[index]? = some old) :
    BinarySearch.SortedBy (fun child : Node => trie.cmpLabel ci child.label query)
      (trie.children index).2 := by
  obtain ⟨first, _, inOrder, children⟩ := seals.exists_run at_
  have sorted := siblings_sorted wellFormed edges lists old
  rw [pairwise_iff_getElem] at sorted
  apply pairwise_iff_getElem.mpr
  intro i j iLt jLt before notLess
  have childAt : ∀ {k : Nat} (kLt : k < (trie.children index).2.length),
      ∃ (inside : k < (builder.siblings edgeOrder (builder.labelById labelOrder) old).length),
        trie.cmpLabel ci ((trie.children index).2[k]).label query =
          compare (builder.nodeLabel (builder.labelById labelOrder)
              ((builder.siblings edgeOrder (builder.labelById labelOrder) old)[k]))
            (query.map (queryFold ci)) := by
    intro k kLt
    have atK := children k
    rw [getElem?_eq_getElem kLt] at atK
    obtain ⟨child, atSibling, packed⟩ := map_eq_some_iff.mp atK.symm
    obtain ⟨inside, rfl⟩ := List.getElem?_eq_some_iff.mp atSibling
    refine ⟨inside, ?_⟩
    rw [← packed, seals.cmpLabel_packNode wellFormed lists ci query
      (seals.lt_of_order (inOrder atSibling))]
  obtain ⟨iInside, cmpI⟩ := childAt iLt
  obtain ⟨jInside, cmpJ⟩ := childAt jLt
  dsimp only at notLess ⊢
  rw [cmpI] at notLess
  rw [cmpJ]
  exact compare_gt_of_lt (sorted i j iInside jInside before) notLess

/-- The search for a child finds the node that stands for the builder's child. -/
theorem findChild_rel (ci : Bool) (label : Text) (at_ : order[index]? = some old) :
    Option.Rel (fun found child => order[found]? = some child) (trie.findChild ci index label)
      (builder.child old (label.map (queryFold ci))) := by
  obtain ⟨first, firstEq, inOrder, children⟩ := seals.exists_run at_
  have matched : ∀ {k : Nat} {child : Nat},
      (builder.siblings edgeOrder (builder.labelById labelOrder) old)[k]? = some child →
        trie.cmpLabel ci (builder.packNode offsets firstChild child (first + k)).label label =
          compare (builder.nodeLabel (builder.labelById labelOrder) child)
            (label.map (queryFold ci)) := fun atK =>
    seals.cmpLabel_packNode wellFormed lists ci label (seals.lt_of_order (inOrder atK)) _
  cases found : builder.child old (label.map (queryFold ci)) with
  | none =>
    have missed : trie.findChild ci index label = none := by
      rw [Sealed.findChild, map_eq_none_iff, eq_none_iff_forall_ne_some]
      intro k hit
      obtain ⟨item, atItem, equal⟩ := BinarySearch.of_binarySearchBy_eq_some hit
      rw [children] at atItem
      obtain ⟨child, atK, rfl⟩ := map_eq_some_iff.mp atItem
      rw [matched atK, Std.LawfulEqCmp.compare_eq_iff_eq] at equal
      have isChild := (child_eq_some_iff wellFormed edges lists).mpr
        ⟨mem_of_getElem? atK, equal⟩
      rw [found] at isChild
      cases isChild
    rw [missed]
    exact Option.Rel.none
  | some child =>
    obtain ⟨member, labelled⟩ := (child_eq_some_iff wellFormed edges lists).mp found
    obtain ⟨k, atK⟩ := mem_iff_getElem?.mp member
    have atItem := children k
    rw [atK, map_some] at atItem
    have equal := matched atK
    have reflexive : ∀ text : Text, compare text text = .eq := fun _ => Std.ReflCmp.compare_self
    rw [labelled, reflexive] at equal
    have hit := BinarySearch.binarySearchBy_eq_some
      (seals.sortedBy_children wellFormed edges lists ci label at_) atItem equal
    have reached : trie.findChild ci index label = some (first + k) := by
      change (BinarySearch.binarySearchBy _ (trie.children index).2).map
        ((trie.children index).1 + ·) = _
      rw [hit, map_some, firstEq]
    rw [reached]
    exact Option.Rel.some (inOrder atK)

end Seals

end Builder

section Simulation

variable {child otherChild : Nat → Text → Option Nat} {slot otherSlot : MatchKind → Nat → Option T}
variable {stands : Nat → Nat → Prop}

variable (children : ∀ {node other : Nat}, stands node other → ∀ label : Text,
    Option.Rel stands (child node label) (otherChild other label))
  (slots : ∀ {node other : Nat}, stands node other → ∀ kind, slot kind node = otherSlot kind other)
include children slots

/-- Two tries whose nodes stand for each other answer a most-specific search alike. -/
theorem searchBestLoop_eq
    {node other : Nat} (related : stands node other) (count depth : Nat) (best : Option T)
    (labels : List Text) :
    searchBestLoop child slot count depth node best labels =
      searchBestLoop otherChild otherSlot count depth other best labels := by
  induction labels generalizing node other depth best with
  | nil => rfl
  | cons label labels ih =>
    have next := children related label
    unfold searchBestLoop
    generalize child node label = found at next ⊢
    generalize otherChild other label = otherFound at next ⊢
    cases next with
    | none => rfl
    | some below => simp only [slots below, fun depth best => ih below depth best]

theorem searchMinLoop_eq [LE T] [DecidableLE T]
    {node other : Nat} (related : stands node other) (count depth : Nat) (best : Option T)
    (labels : List Text) :
    searchMinLoop child slot count depth node best labels =
      searchMinLoop otherChild otherSlot count depth other best labels := by
  induction labels generalizing node other depth best with
  | nil => rfl
  | cons label labels ih =>
    have next := children related label
    unfold searchMinLoop
    generalize child node label = found at next ⊢
    generalize otherChild other label = otherFound at next ⊢
    cases next with
    | none => rfl
    | some below => simp only [slots below, fun depth best => ih below depth best]

end Simulation

section Sealing

variable [ValueLayout T] {builder : Builder T} {edgeOrder : List ((Nat × Nat) × Nat)}
variable {labelOrder : List (Text × Nat)}

/-- The nodes of the sealed form stand for those of the building form. -/
theorem exists_standsFor (valid : builder.Valid) (edges : Lists edgeOrder builder.ensureRoot.edges)
    (labels : Lists labelOrder builder.ensureRoot.labels)
    (nodesFit : builder.ensureRoot.nodes.length < 2 ^ maskShift) (labelsFit :
      (builder.ensureRoot.labels.keys.map fun label => label.length + 1).sum < 2 ^ 32) :
    ∃ (frozen : Sealed T) (stands : Nat → Nat → Prop),
      builder.intoSealed edgeOrder labelOrder = some frozen ∧ stands 0 0 ∧
      (∀ ci {node other}, stands node other → ∀ label,
        Option.Rel stands ((TrieState.sealed frozen).child ci node label)
          ((TrieState.building builder).child ci other label)) ∧
      ∀ {node other}, stands node other → ∀ kind,
        (TrieState.sealed frozen).slot kind node = (TrieState.building builder).slot kind other := by
  have wellFormed := valid.ensureRoot
  obtain ⟨frozen, offsets, firstChild, order, sealed, seals⟩ :=
    Builder.exists_seals wellFormed edges labels nodesFit labelsFit
  refine ⟨frozen, fun node other => order[node]? = some other, ?_, seals.numbering.root, ?_, ?_⟩
  · rw [← sealed, Builder.intoSealed, Builder.intoSealed,
      Builder.ensureRoot_of_wellFormed wellFormed]
  · intro ci node other related label
    rw [child_building, ← valid.child_ensureRoot]
    exact seals.findChild_rel wellFormed edges labels ci label related
  · intro node other related kind
    refine (seals.frozen.slot_eq related kind).trans ?_
    rw [valid.slot_ensureRoot]
    rfl

/-- Sealing succeeds on a trie that fits, and no search can tell the two forms apart. -/
theorem Holds.sealTrie_eq {trie : DomainTrie T} {slots : Slots T} (holds : Holds trie builder slots)
    (edges : Lists edgeOrder builder.ensureRoot.edges)
    (labels : Lists labelOrder builder.ensureRoot.labels)
    (nodesFit : builder.ensureRoot.nodes.length < 2 ^ maskShift) (labelsFit :
      (builder.ensureRoot.labels.keys.map fun label => label.length + 1).sum < 2 ^ 32) :
    ∃ frozen, trie.sealTrie edgeOrder labelOrder = some frozen ∧
      (∃ trie, frozen.state = .sealed trie) ∧
      (∀ query, frozen.search query = trie.search query) ∧
      (∀ query, frozen.searchNormalized query = trie.searchNormalized query) ∧
      ∀ [LE T] [DecidableLE T] (query : Text),
        frozen.searchMinNormalized query = trie.searchMinNormalized query := by
  obtain ⟨frozen, stands, sealed, root, children, slots⟩ :=
    exists_standsFor holds.valid edges labels nodesFit labelsFit
  have best : ∀ ci query,
      searchBest { trie with state := .sealed frozen } ci query = trie.searchBest ci query := by
    intro ci query
    rw [searchBest, searchBest, holds.state]
    exact searchBestLoop_eq (children ci) slots root _ _ _ _
  refine ⟨{ trie with state := .sealed frozen }, ?_, ⟨frozen, rfl⟩, ?_, ?_, ?_⟩
  · rw [sealTrie, holds.state]
    simp only [sealed, map_some]
  · intro query
    simp only [search, best]
  · intro query
    simp only [searchNormalized, best]
  · intro _ _ query
    have least : searchMinLoop ((TrieState.sealed frozen).child false)
        (TrieState.sealed frozen).slot (labelCount (trimEndDots query)) 0 0 none
        (rsplitDots (trimEndDots query)) =
      searchMinLoop (trie.state.child false) trie.state.slot
        (labelCount (trimEndDots query)) 0 0 none
        (rsplitDots (trimEndDots query)) := by
      rw [holds.state]
      exact searchMinLoop_eq (children false) slots root _ _ _ _
    simp only [searchMinNormalized, least]

/-- No search can tell a trie of inserts from its sealed form. -/
theorem sealTrie_search_eq (toLowercase : Text → Text) (insertions : List (Insertion T))
    (state : (insertAll toLowercase insertions).state = .building builder)
    (edges : Lists edgeOrder builder.ensureRoot.edges)
    (labels : Lists labelOrder builder.ensureRoot.labels)
    (nodesFit : builder.ensureRoot.nodes.length < 2 ^ maskShift) (labelsFit :
      (builder.ensureRoot.labels.keys.map fun label => label.length + 1).sum < 2 ^ 32) :
    ∃ frozen, (insertAll toLowercase insertions).sealTrie edgeOrder labelOrder = some frozen ∧
      (∃ trie, frozen.state = .sealed trie) ∧
      (∀ query, frozen.search query = (insertAll toLowercase insertions).search query) ∧
      (∀ query, frozen.searchNormalized query =
        (insertAll toLowercase insertions).searchNormalized query) ∧
      ∀ [LE T] [DecidableLE T] (query : Text), frozen.searchMinNormalized query =
        (insertAll toLowercase insertions).searchMinNormalized query := by
  obtain ⟨other, holds⟩ := insertAll_holds toLowercase insertions
  obtain rfl : other = builder := by
    have same := holds.state.symm.trans state
    exact TrieState.building.inj same
  exact holds.sealTrie_eq edges labels nodesFit labelsFit

/-- The builder after the inserts of `+.a.b` and `*.b`. -/
def builtExample : Builder Nat :=
  ((Builder.new.insertIntoTree (ofString "a.b") 1 .exact .firstWins).insertIntoTree
    (ofString "a.b") 1 .dot .firstWins).insertIntoTree (ofString "b") 2 .star .overwrite

theorem sealTrie_search_eq_two_inserts :
    ∃ frozen, (insertAll id [⟨ofString "+.a.b", 1, .firstWins⟩,
        ⟨ofString "*.b", 2, .overwrite⟩]).sealTrie
          (builtExample.edges.entries.map fun entry => (entry.1, entry.2))
          (builtExample.labels.entries.map fun entry => (entry.1, entry.2)) = some frozen ∧
      frozen.search (ofString "A.b.") = some 1 := by
  have state : (insertAll id [⟨ofString "+.a.b", 1, .firstWins⟩,
      ⟨ofString "*.b", 2, .overwrite⟩]).state = .building builtExample := rfl
  obtain ⟨frozen, sealed, _, sameSearch, _⟩ := sealTrie_search_eq id _ state (Perm.refl _)
    (Perm.refl _) (by decide) (by decide)
  refine ⟨frozen, sealed, ?_⟩
  rw [sameSearch]
  decide

end Sealing

end DomainTrie

end MeowRs
