import MeowRs.TrieSealed

/-!
# Renumbering the nodes of a domain trie

Sealing lists the children of every node as one run, sorted by label, and numbers the nodes breadth
first.  The order in which the hash maps list their entries does not matter: the runs hold the
children of each node, and within a run the labels are strictly increasing.
-/

namespace MeowRs.DomainTrie

open List Option CsrGrouping Prod

/-- A list of the entries of a map in some order. -/
def Lists {κ ν : Type} (order : List (κ × ν)) (map : AList fun _ : κ => ν) : Prop :=
  order.Perm (map.entries.map fun entry => (entry.1, entry.2))

section Lists

variable {κ ν : Type} [DecidableEq κ] {ord : List (κ × ν)} {map : AList fun _ : κ => ν}

theorem Lists.mem_iff (lists : Lists ord map) {key : κ} {v : ν} :
    (key, v) ∈ ord ↔ map.lookup key = some v := by
  rw [Perm.mem_iff lists, List.mem_map]
  constructor
  · rintro ⟨⟨otherKey, otherValue⟩, hm, hs⟩
    cases hs
    exact AList.mem_lookup_iff.mpr hm
  · intro hi
    exact ⟨⟨key, v⟩, AList.mem_lookup_iff.mp hi, rfl⟩

theorem Lists.nodup_values (lists : Lists ord map) (hi : ∀ {key o v}, map.lookup key = some v →
      map.lookup o = some v → key = o) : (ord.map snd).Nodup := by
  have hn : (map.entries.map fun e => e.2).Nodup := by
    refine List.Nodup.map_on ?_ map.nodupKeys.nodup
    rintro ⟨key, v⟩ hf ⟨o, otherValue⟩ hse hs
    cases hs
    rw [hi (AList.mem_lookup_iff.mpr hf) (AList.mem_lookup_iff.mpr hse)]
  refine (Perm.nodup_iff (Perm.map snd lists)).mpr ?_
  rw [List.map_map]
  exact hn

end Lists

namespace Builder

variable {T : Type}

def edgePairs (edgeOrder : List ((Nat × Nat) × Nat)) : List (Nat × Nat) :=
  edgeOrder.map fun edge => (edge.1.1, edge.2)

section Edges

variable {bld : Builder T} {edgeOrder : List ((Nat × Nat) × Nat)}

def siblings (builder : Builder T) (edgeOrder : List ((Nat × Nat) × Nat)) (labels : List Text)
    (parent : Nat) : List Nat :=
  builder.sortByLabel labels (group (edgePairs edgeOrder) parent)

variable (wf : WellFormed bld) (lists : Lists edgeOrder bld.edges)
include lists

theorem mem_edgePairs {par c : Nat} :
    (par, c) ∈ edgePairs edgeOrder ↔
      ∃ id, bld.edges.lookup (par, id) = some c := by
  simp only [edgePairs, List.mem_map, Prod.mk.injEq]
  constructor
  · rintro ⟨⟨⟨par, id⟩, c⟩, hm, rfl, rfl⟩
    exact ⟨id, lists.mem_iff.mp hm⟩
  · rintro ⟨id, hi⟩
    exact ⟨((par, id), c), lists.mem_iff.mpr hi, rfl, rfl⟩

theorem mem_siblings (ls : List Text) {par c : Nat} :
    c ∈ bld.siblings edgeOrder ls par ↔
      ∃ id, bld.edges.lookup (par, id) = some c := by
  rw [siblings, sortByLabel, mem_insertionSort, mem_group, mem_edgePairs lists]

include wf

theorem nodup_edgeChildren : ((edgePairs edgeOrder).map snd).Nodup := by
  have hn := lists.nodup_values wf.edgeInj
  rw [edgePairs, List.map_map]
  exact hn

theorem length_edgePairs :
    (edgePairs edgeOrder).length = bld.nodes.length - 1 := by
  have hm : ∀ c, c ∈ (edgePairs edgeOrder).map snd ↔
      c ∈ range' 1 (bld.nodes.length - 1) := by
    intro c
    rw [mem_range'_1]
    constructor
    · intro mem
      obtain ⟨⟨par, _⟩, hpa, rfl⟩ := mem_map.mp mem
      obtain ⟨id, hi⟩ := (mem_edgePairs lists).mp hpa
      have hbou := wf.edgeLt hi
      omega
    · rintro ⟨hl, high⟩
      have hb : c < bld.nodes.length := by omega
      obtain ⟨⟨par, id⟩, hi⟩ := wf.edgeSurj hl hb
      exact mem_map.mpr ⟨(par, c), (mem_edgePairs lists).mpr ⟨id, hi⟩, rfl⟩
  have hp := (perm_ext_iff_of_nodup (nodup_edgeChildren wf lists) nodup_range').mpr hm
  simpa using hp.length_eq

theorem edgePairs_lt :
    ∀ pair ∈ edgePairs edgeOrder, pair.1 < bld.nodes.length := by
  rintro ⟨par, c⟩ hm
  obtain ⟨id, hi⟩ := (mem_edgePairs lists).mp hm
  have hb := wf.edgeLt hi
  omega

theorem nodup_siblings (ls : List Text) (par : Nat) : (bld.siblings edgeOrder ls par).Nodup := by
  have hn := nodup_edgeChildren wf lists
  refine (perm_insertionSort _ _).nodup_iff.mpr ?_
  exact hn.sublist (List.Sublist.map snd filter_sublist)

/-- The children of each node after grouping and sorting: the run between two cursors. -/
theorem slice_sorted (ls : List Text) {par : Nat} (hp : par < bld.nodes.length) :
    let grouped := groupRuns bld.nodes.length (edgePairs edgeOrder)
      (replicate (bld.nodes.length - 1) 0)
    slice (mapRuns (bld.sortByLabel ls) bld.nodes.length
        (runStart grouped.1) grouped.2) (runStart grouped.1 par)
        (runStart grouped.1 (par + 1)) =
      bld.siblings edgeOrder ls par := by
  intro grouped
  have hkl := edgePairs_lt wf lists
  have hr : (replicate (bld.nodes.length - 1) 0).length =
      (edgePairs edgeOrder).length := by
    rw [length_replicate, length_edgePairs wf lists]
  have hs : ∀ key ≤ bld.nodes.length, runStart grouped.1 key = start (edgePairs edgeOrder) key := by
    intro key hk
    cases key with
    | zero => exact (start_zero _).symm
    | succ key =>
      rw [runStart, getD_eq_getElem?_getD, groupRuns_cursor hkl hr hk]
      rfl
  have hl : ∀ part, (bld.sortByLabel ls part).length = part.length :=
    fun part => length_insertionSort _ _
  have ht : grouped.2.length = (edgePairs edgeOrder).length := (groupRuns_scattered hkl hr).length
  have hm : ∀ {key o}, key ≤ o → o ≤ bld.nodes.length →
      runStart grouped.1 key ≤ runStart grouped.1 o := by
    intro key o le ho
    rw [hs key (le.trans ho), hs o ho]
    exact start_mono _ le
  have hb : ∀ key ≤ bld.nodes.length, runStart grouped.1 key ≤ grouped.2.length := by
    intro key hk
    rw [hs key hk, ht]
    exact start_le_length _ _
  rw [(mapRuns_spec hl hm hb le_rfl).2 par hp, if_pos hp, hs par hp.le, hs (par + 1) hp,
    groupRuns_slice hkl hr hp]
  rfl

/-- The children runs make up a tree. -/
theorem isTree_of_siblings (ls : List Text) {kids : Nat → List Nat} (hr : ∀ par < bld.nodes.length,
      kids par = bld.siblings edgeOrder ls par) : BreadthFirst.IsTree kids bld.nodes.length := by
  have mem_kids : ∀ {par c}, par < bld.nodes.length →
      (c ∈ kids par ↔ ∃ id, bld.edges.lookup (par, id) = some c) := by
    intro par c hp
    rw [hr par hp, mem_siblings lists]
  constructor
  · exact wf.nonEmpty
  · intro par c hp hc
    obtain ⟨id, hi⟩ := (mem_kids hp).mp hc
    exact (wf.edgeLt hi).1
  · intro par c hp hc
    obtain ⟨id, hi⟩ := (mem_kids hp).mp hc
    exact (wf.edgeLt hi).2
  · intro par o c hp ho hc hioc
    obtain ⟨id, hi⟩ := (mem_kids hp).mp hc
    obtain ⟨otherId, hf⟩ := (mem_kids ho).mp hioc
    exact congrArg fst (wf.edgeInj hi hf)
  · intro par hp
    rw [hr par hp]
    exact nodup_siblings wf lists ls par
  · intro c pos hb
    obtain ⟨⟨par, id⟩, hi⟩ := wf.edgeSurj pos hb
    have hp : par < bld.nodes.length := by
      have hbou := wf.edgeLt hi
      omega
    exact ⟨par, hp, (mem_kids hp).mpr ⟨id, hi⟩⟩

end Edges

section Labels

variable {l : Text} {es : List (Text × Nat)}

theorem foldl_set_other {i : Nat} (ha : i ∉ es.map snd) (ls : List Text) :
    (es.foldl (fun ls e => ls.set e.2 e.1) ls)[i]? =
      ls[i]? := by
  induction es generalizing ls with
  | nil => rfl
  | cons e es ih =>
    rw [map_cons, mem_cons, not_or] at ha
    rw [foldl_cons, ih ha.2, getElem?_set_ne (Ne.symm ha.1)]

theorem foldl_set_mem (nd : (es.map snd).Nodup) {i : Nat} (hm : (l, i) ∈ es) {ls : List Text}
    (hb : i < ls.length) :
    (es.foldl (fun ls e => ls.set e.2 e.1) ls)[i]? =
      some l := by
  induction es generalizing ls with
  | nil => cases hm
  | cons e es ih =>
    obtain ⟨hf, nd⟩ := nodup_cons.mp nd
    rcases mem_cons.mp hm with rfl | hl
    · rw [foldl_cons, foldl_set_other hf, getElem?_set_self hb]
    · exact ih nd hl (by rwa [length_set])

variable {bld : Builder T} {labelOrder : List (Text × Nat)}

theorem length_labelById (bld : Builder T) (labelOrder : List (Text × Nat)) :
    (bld.labelById labelOrder).length = bld.labels.entries.length := by
  have hk : ∀ (es : List (Text × Nat)) (ls : List Text),
      (es.foldl (fun ls e => ls.set e.2 e.1) ls).length =
        ls.length := by
    intro es
    induction es with
    | nil => exact fun _ => rfl
    | cons e es ih => exact fun ls => (ih _).trans length_set
  rw [labelById, hk, length_replicate]

theorem total_compare (key : Nat → Text) :
    Std.Total fun a b : Nat => (compare (key a) (key b)).isLE = true := by
  constructor
  intro a b
  cases ord : compare (key a) (key b) with
  | lt | eq => exact Or.inl rfl
  | gt =>
    have hs : compare (key b) (key a) = (compare (key a) (key b)).swap := Std.OrientedCmp.eq_swap
    right
    rw [hs, ord]
    rfl

theorem trans_compare (key : Nat → Text) :
    IsTrans Nat fun a b => (compare (key a) (key b)).isLE = true :=
  ⟨fun _ _ _ => Std.TransCmp.isLE_trans⟩

variable {edgeOrder : List ((Nat × Nat) × Nat)}
variable (wf : WellFormed bld) (he : Lists edgeOrder bld.edges)
  (lists : Lists labelOrder bld.labels)
include wf lists

/-- The table of labels by id inverts the interner. -/
theorem labelById_getElem? {id : Nat} (hi : bld.labels.lookup l = some id) :
    (bld.labelById labelOrder)[id]? = some l := by
  refine foldl_set_mem (lists.nodup_values wf.labelInj) (lists.mem_iff.mpr hi) ?_
  rw [length_replicate]
  exact wf.labelLt hi

theorem dot_not_mem_labelById (hm : l ∈ bld.labelById labelOrder) : Text.dot ∉ l := by
  obtain ⟨id, at_⟩ := mem_iff_getElem?.mp hm
  have hb : id < bld.labels.entries.length := by
    have := (List.getElem?_eq_some_iff.mp at_).1
    rwa [length_labelById] at this
  obtain ⟨o, hi⟩ := wf.labelSurj hb
  rw [labelById_getElem? wf lists hi, some.injEq] at at_
  rw [← at_]
  exact wf.labelNoDot hi

theorem nodeLabel_of_edge {par id c : Nat} (edge : bld.edges.lookup (par, id) = some c)
    (hi : bld.labels.lookup l = some id) : bld.nodeLabel (bld.labelById labelOrder) c = l := by
  obtain ⟨node, at_, hl⟩ := map_eq_some_iff.mp (wf.edgeLabel edge)
  rw [nodeLabel, getD_eq_getElem?_getD, getD_eq_getElem?_getD, at_, getD_some,
    hl, labelById_getElem? wf lists hi]
  rfl

include he

/-- A child is found under a label exactly when it is one of the siblings and carries it. -/
theorem child_eq_some_iff {par c : Nat} :
    bld.child par l = some c ↔ c ∈ bld.siblings edgeOrder (bld.labelById labelOrder)
          par ∧
        bld.nodeLabel (bld.labelById labelOrder) c = l := by
  rw [mem_siblings he]
  constructor
  · intro hc
    obtain ⟨id, hi, edge⟩ := bind_eq_some_iff.mp hc
    exact ⟨⟨id, edge⟩, nodeLabel_of_edge wf lists edge hi⟩
  · rintro ⟨⟨id, edge⟩, rfl⟩
    obtain ⟨l, hi⟩ := wf.labelSurj (wf.edgeLabelLt edge)
    rw [nodeLabel_of_edge wf lists edge hi]
    exact bind_eq_some_iff.mpr ⟨id, hi, edge⟩

/-- Siblings stand in strictly increasing order of their labels. -/
theorem siblings_sorted (par : Nat) :
    (bld.siblings edgeOrder (bld.labelById labelOrder)
      par).Pairwise fun a b =>
        compare (bld.nodeLabel (bld.labelById labelOrder) a)
          (bld.nodeLabel (bld.labelById labelOrder) b) = .lt := by
  have ht := total_compare (bld.nodeLabel (bld.labelById labelOrder))
  have htr := trans_compare (bld.nodeLabel (bld.labelById labelOrder))
  have ha := pairwise_insertionSort (fun a b =>
    (compare (bld.nodeLabel (bld.labelById labelOrder) a)
      (bld.nodeLabel (bld.labelById labelOrder) b)).isLE = true)
    (group (edgePairs edgeOrder) par)
  have nd := nodup_siblings wf he (bld.labelById labelOrder) par
  refine (Pairwise.and ha nd).imp_of_mem ?_
  intro a b hme hm ⟨le, hd⟩
  cases ord : compare (bld.nodeLabel (bld.labelById labelOrder) a)
      (bld.nodeLabel (bld.labelById labelOrder) b) with
  | lt => rfl
  | eq =>
    -- Two siblings with one label would be the same child.
    have hl := Std.LawfulEqOrd.eq_of_compare ord
    have hi := (child_eq_some_iff wf he lists).mpr ⟨hme, hl⟩
    have isB := (child_eq_some_iff wf he lists).mpr ⟨hm, rfl⟩
    exact absurd (some.inj (hi.symm.trans isB)) hd
  | gt =>
    rw [ord] at le
    cases le

end Labels

end Builder

end MeowRs.DomainTrie
