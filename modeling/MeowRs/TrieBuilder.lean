import MeowRs.ShardedMaps
import MeowRs.Text

/-!
# The domain trie while it is built

A flat list of nodes, one map of edges keyed by parent and label id, and one interner of labels.
The nodes form a tree over label paths; what a caller can observe of it is, for each path, the
three value slots of the node found there.
-/

namespace MeowRs.DomainTrie

open List Option Text AList

open ShardedMaps (lookup_insert_eq_some lookup_insert_of_missing lookup_insert_inj)

inductive MatchKind where
  | exact
  | star
  | dot
  deriving DecidableEq, Repr

/-- Who wins an occupied slot: the first insert or the last one. -/
inductive InsertMode where
  | firstWins
  | overwrite
  deriving DecidableEq, Repr

structure BuildNode (T : Type) where
  label : Nat
  exact : Option T
  star : Option T
  dot : Option T

namespace BuildNode

variable {T : Type}

def vacant (label : Nat) : BuildNode T where
  label := label
  exact := none
  star := none
  dot := none

def slot (node : BuildNode T) : MatchKind → Option T
  | .exact => node.exact
  | .star => node.star
  | .dot => node.dot

def setSlot (node : BuildNode T) (kind : MatchKind) (value : Option T) : BuildNode T :=
  match kind with
  | .exact => { node with exact := value }
  | .star => { node with star := value }
  | .dot => { node with dot := value }

@[simp]
theorem slot_vacant (l : Nat) (kind : MatchKind) : (vacant l : BuildNode T).slot kind = none := by
  cases kind <;> rfl

@[simp]
theorem slot_setSlot (node : BuildNode T) (kind o : MatchKind) (v : Option T) :
    (node.setSlot kind v).slot o = if o = kind then v else node.slot o := by
  cases kind <;> cases o <;> rfl

@[simp]
theorem label_setSlot (node : BuildNode T) (kind : MatchKind) (v : Option T) :
    (node.setSlot kind v).label = node.label := by
  cases kind <;> rfl

end BuildNode

/-- The value a slot holds after an insert into it. -/
def InsertMode.write {T : Type} (mode : InsertMode) (old : Option T) (value : T) : Option T :=
  match mode with
  | .firstWins => old.or (some value)
  | .overwrite => some value

/-- The trie under construction; node `0` is the root, created by the first insert. -/
structure Builder (T : Type) where
  nodes : List (BuildNode T)
  edges : AList fun _ : Nat × Nat => Nat
  labels : AList fun _ : Text => Nat

namespace Builder

variable {T : Type} {b : Builder T} {l : Text}

def new : Builder T where
  nodes := []
  edges := ∅
  labels := ∅

def ensureRoot (builder : Builder T) : Builder T :=
  if builder.nodes.isEmpty then
    { builder with
      labels := builder.labels.insert [] 0
      nodes := builder.nodes ++ [.vacant 0] }
  else builder

/-- The id of a label, which is interned if it is new. -/
def intern (builder : Builder T) (label : Text) : Nat × Builder T :=
  match builder.labels.lookup label with
  | some id => (id, builder)
  | none =>
    let id := builder.labels.entries.length
    (id, { builder with labels := builder.labels.insert label id })

/-- The child of a node under a label id, which is created if it is missing. -/
def entryChild (builder : Builder T) (parent id : Nat) : Nat × Builder T :=
  match builder.edges.lookup (parent, id) with
  | some child => (child, builder)
  | none =>
    let next := builder.nodes.length
    (next, { builder with
      edges := builder.edges.insert (parent, id) next
      nodes := builder.nodes ++ [.vacant id] })

def childOrInsert (builder : Builder T) (parent : Nat) (label : Text) : Nat × Builder T :=
  let (id, builder) := builder.intern label
  builder.entryChild parent id

def child (builder : Builder T) (parent : Nat) (label : Text) : Option Nat :=
  (builder.labels.lookup label).bind fun id => builder.edges.lookup (parent, id)

/-- Child lookup with a label in any ASCII case; stored labels are in lower case. -/
def childCi (builder : Builder T) (parent : Nat) (label : Text) : Option Nat :=
  if !label.any isAsciiUppercase then builder.child parent label
  else builder.child parent (toAsciiLowercase label)

/-- The node at the end of a path of labels, creating what is missing on the way. -/
def descendOrInsert (builder : Builder T) (node : Nat) : List Text → Nat × Builder T
  | [] => (node, builder)
  | label :: labels =>
    let (child, builder) := builder.childOrInsert node label
    builder.descendOrInsert child labels

def insertIntoTree (builder : Builder T) (base : Text) (value : T) (kind : MatchKind)
    (mode : InsertMode) : Builder T :=
  let builder := builder.ensureRoot
  let (node, builder) := builder.descendOrInsert 0 (rsplitDots base)
  { builder with
    nodes := builder.nodes.modify node fun slots =>
      slots.setSlot kind (mode.write (slots.slot kind) value) }

def descend (builder : Builder T) (node : Nat) : List Text → Option Nat
  | [] => some node
  | label :: labels => (builder.child node label).bind (builder.descend · labels)

def slot (builder : Builder T) (kind : MatchKind) (node : Nat) : Option T :=
  builder.nodes[node]?.bind (·.slot kind)

def slotAt (builder : Builder T) (path : List Text) (kind : MatchKind) : Option T :=
  (builder.descend 0 path).bind (builder.slot kind)

/-- The nodes form a tree with root `0` in which every node comes after its parent, and the label
ids number the interned labels. -/
structure WellFormed (builder : Builder T) : Prop where
  nonEmpty : 0 < builder.nodes.length
  labelLt {label : Text} {id : Nat} (found : builder.labels.lookup label = some id) :
    id < builder.labels.entries.length
  labelInj {label other : Text} {id : Nat} (found : builder.labels.lookup label = some id)
    (foundOther : builder.labels.lookup other = some id) : label = other
  labelSurj {id : Nat} (bound : id < builder.labels.entries.length) :
    ∃ label, builder.labels.lookup label = some id
  labelNoDot {label : Text} {id : Nat} (found : builder.labels.lookup label = some id) :
    dot ∉ label
  nodeLabelLt {node : BuildNode T} (member : node ∈ builder.nodes) :
    node.label < builder.labels.entries.length
  edgeLt {parent id child : Nat} (found : builder.edges.lookup (parent, id) = some child) :
    parent < child ∧ child < builder.nodes.length
  edgeInj {key other : Nat × Nat} {child : Nat} (found : builder.edges.lookup key = some child)
    (foundOther : builder.edges.lookup other = some child) : key = other
  edgeSurj {child : Nat} (positive : 0 < child) (bound : child < builder.nodes.length) :
    ∃ key, builder.edges.lookup key = some child
  edgeLabel {parent id child : Nat} (found : builder.edges.lookup (parent, id) = some child) :
    builder.nodes[child]?.map BuildNode.label = some id

theorem wellFormed_ensureRoot_new : WellFormed (ensureRoot new : Builder T) where
  nonEmpty := Nat.zero_lt_one
  labelLt {l id} hi := by
    have hr := mem_lookup_iff.mp hi
    simp [ensureRoot, new] at hr ⊢
    omega
  labelInj {l o id} hi hf := by
    have hr := mem_lookup_iff.mp hi
    have hro := mem_lookup_iff.mp hf
    simp [ensureRoot, new] at hr hro
    rw [hr.1, hro.1]
  labelSurj {id} hb := by
    simp only [ensureRoot, new, isEmpty_nil, if_true] at hb ⊢
    refine ⟨[], ?_⟩
    rw [lookup_insert]
    have : id = 0 := by simpa using hb
    rw [this]
  labelNoDot {l id} hi := by
    have hr := mem_lookup_iff.mp hi
    simp [ensureRoot, new] at hr
    simp [hr.1]
  nodeLabelLt {node} hm := by
    simp only [ensureRoot, new, isEmpty_nil, if_true, nil_append, mem_singleton] at hm ⊢
    subst hm
    simp [BuildNode.vacant]
  edgeLt := nofun
  edgeInj := nofun
  edgeSurj {c} hp hb := by
    have : c < 1 := hb
    omega
  edgeLabel := nofun

/-- The id of an interned label, and a builder that knows one label more at most. -/
theorem intern_cases (b : Builder T) (l : Text) :
    (∃ id, b.labels.lookup l = some id ∧ b.intern l = (id, b)) ∨ b.labels.lookup l = none ∧
        b.intern l = (b.labels.entries.length,
          { b with labels := b.labels.insert l b.labels.entries.length }) := by
  unfold intern
  cases hi : b.labels.lookup l with
  | some id => exact .inl ⟨id, rfl, rfl⟩
  | none => exact .inr ⟨rfl, rfl⟩

theorem length_insert_new {ls : AList fun _ : Text => Nat} (id : Nat) (hm : ls.lookup l = none) :
    (ls.insert l id).entries.length = ls.entries.length + 1 := by
  rw [entries_insert_of_notMem (lookup_eq_none.mp hm)]
  rfl

theorem lookup_intern (b : Builder T) (l : Text) :
    (b.intern l).2.labels.lookup l = some (b.intern l).1 := by
  rcases intern_cases b l with ⟨id, hit, hi⟩ | ⟨_, hi⟩
  · rw [hi, hit]
  · rw [hi, lookup_insert]

@[simp]
theorem nodes_intern (b : Builder T) (l : Text) : (b.intern l).2.nodes = b.nodes := by
  rcases intern_cases b l with ⟨id, _, hi⟩ | ⟨_, hi⟩ <;> rw [hi]

theorem entryChild_cases (b : Builder T) (par id : Nat) :
    (∃ c, b.edges.lookup (par, id) = some c ∧ b.entryChild par id = (c, b)) ∨
      b.edges.lookup (par, id) = none ∧ b.entryChild par id = (b.nodes.length,
          { b with
            edges := b.edges.insert (par, id) b.nodes.length
            nodes := b.nodes ++ [.vacant id] }) := by
  unfold entryChild
  cases hi : b.edges.lookup (par, id) with
  | some c => exact .inl ⟨c, rfl, rfl⟩
  | none => exact .inr ⟨rfl, rfl⟩

/-- What `childOrInsert` does: it keeps the tree well-formed, makes the child reachable, and leaves
all nodes and children alone but for one fresh node without values. -/
structure Grown (before after : Builder T) (parent : Nat) (label : Text) (child : Nat) : Prop where
  wellFormed : WellFormed after
  childLt : child < after.nodes.length
  reached : after.child parent label = some child
  kept {node : Nat} {other : Text} {found : Nat} :
    before.child node other = some found → after.child node other = some found
  fresh {node : Nat} {other : Text} {found : Nat} : after.child node other = some found →
    before.child node other = some found ∨ found = before.nodes.length
  nodes : ∃ vacant, (vacant = [] ∨ ∃ id, vacant = [.vacant id]) ∧
    after.nodes = before.nodes ++ vacant

section

variable (wf : WellFormed b)
include wf

theorem ensureRoot_of_wellFormed :
    b.ensureRoot = b := by
  have hn : b.nodes.isEmpty = false := by
    rw [isEmpty_eq_false_iff, ← length_pos_iff]
    exact wf.nonEmpty
  simp [ensureRoot, hn]

theorem intern_wellFormed (hd : dot ∉ l) : WellFormed (b.intern l).2 := by
  rcases intern_cases b l with ⟨id, _, hin⟩ | ⟨hm, hin⟩
  · rw [hin]
    exact wf
  · rw [hin]
    have ho := length_insert_new b.labels.entries.length hm
    have hf : ∀ {o : Text}, b.labels.lookup o ≠
        some b.labels.entries.length := fun hi =>
      absurd (wf.labelLt hi) (lt_irrefl _)
    constructor
    · exact wf.nonEmpty
    · intro o id hi
      rw [ho]
      rcases lookup_insert_eq_some hi with ⟨_, rfl⟩ | ⟨_, hp⟩
      · exact Nat.lt_succ_self _
      · exact Nat.lt_succ_of_lt (wf.labelLt hp)
    · exact lookup_insert_inj hf wf.labelInj
    · intro id hb
      rw [ho] at hb
      rcases Nat.lt_succ_iff_lt_or_eq.mp hb with old | rfl
      · obtain ⟨o, hi⟩ := wf.labelSurj old
        exact ⟨o, lookup_insert_of_missing hm hi⟩
      · exact ⟨l, lookup_insert _⟩
    · intro o id hi
      rcases lookup_insert_eq_some hi with ⟨rfl, _⟩ | ⟨_, hp⟩
      · exact hd
      · exact wf.labelNoDot hp
    · intro node mem
      rw [ho]
      exact Nat.lt_succ_of_lt (wf.nodeLabelLt mem)
    · exact wf.edgeLt
    · exact wf.edgeInj
    · exact wf.edgeSurj
    · exact wf.edgeLabel

theorem WellFormed.edgeLabelLt {par id c : Nat} (hi : b.edges.lookup (par, id) = some c) :
    id < b.labels.entries.length := by
  have hl := wf.edgeLabel hi
  obtain ⟨node, at_, rfl⟩ := map_eq_some_iff.mp hl
  exact wf.nodeLabelLt (mem_of_getElem? at_)

theorem child_intern (l : Text) (par : Nat) (o : Text) :
    (b.intern l).2.child par o = b.child par o := by
  rcases intern_cases b l with ⟨id, _, hi⟩ | ⟨hm, hi⟩
  · rw [hi]
  · rw [hi]
    unfold child
    rcases eq_or_ne o l with rfl | ho
    · rw [hm, lookup_insert, bind_some, bind_none]
      cases hf : b.edges.lookup (par, b.labels.entries.length) with
      | none => rfl
      | some child => exact absurd (wf.edgeLabelLt hf) (lt_irrefl _)
    · rw [lookup_insert_ne ho]

theorem entryChild_wellFormed {par id : Nat} (hpl : par < b.nodes.length)
    (idLt : id < b.labels.entries.length) : WellFormed (b.entryChild par id).2 := by
  rcases entryChild_cases b par id with ⟨c, _, he⟩ | ⟨hm, he⟩
  · rw [he]
    exact wf
  · rw [he]
    have hom : (b.nodes ++ [BuildNode.vacant id]).length = b.nodes.length + 1 := by
      simp
    have hf : ∀ {key : Nat × Nat}, b.edges.lookup key ≠ some b.nodes.length :=
      fun hi => absurd (wf.edgeLt hi).2 (lt_irrefl _)
    constructor
    · simp
    · exact wf.labelLt
    · exact wf.labelInj
    · exact wf.labelSurj
    · exact wf.labelNoDot
    · intro node mem
      rcases mem_append.mp mem with ho | hn
      · exact wf.nodeLabelLt ho
      · obtain rfl := mem_singleton.mp hn
        exact idLt
    · intro otherParent otherId c hi
      rw [hom]
      rcases lookup_insert_eq_some hi with ⟨hs, rfl⟩ | ⟨_, hp⟩
      · cases hs
        omega
      · have hbou := wf.edgeLt hp
        omega
    · exact lookup_insert_inj hf wf.edgeInj
    · intro c pos hb
      rw [hom] at hb
      rcases Nat.lt_succ_iff_lt_or_eq.mp hb with ho | rfl
      · obtain ⟨key, hi⟩ := wf.edgeSurj pos ho
        exact ⟨key, lookup_insert_of_missing hm hi⟩
      · exact ⟨(par, id), lookup_insert _⟩
    · intro otherParent otherId c hi
      rcases lookup_insert_eq_some hi with ⟨hs, rfl⟩ | ⟨_, hp⟩
      · cases hs
        simp [BuildNode.vacant]
      · rw [getElem?_append_left (wf.edgeLt hp).2]
        exact wf.edgeLabel hp

theorem childOrInsert_grown {par : Nat} (hpl : par < b.nodes.length) (hd : dot ∉ l) :
    Grown b (b.childOrInsert par l).2 par l
      (b.childOrInsert par l).1 := by
  have hiw := intern_wellFormed wf hd
  have hi := lookup_intern b l
  have hc := child_intern wf l
  have hn := nodes_intern b l
  unfold childOrInsert
  generalize b.intern l = res at hiw hi hc hn ⊢
  obtain ⟨id, mid⟩ := res
  dsimp only at hiw hi hc hn ⊢
  have hgw := entryChild_wellFormed hiw (by rwa [hn]) (hiw.labelLt hi)
  rcases entryChild_cases mid par id with ⟨c, hit, he⟩ | ⟨hm, he⟩
  · rw [he] at hgw ⊢
    refine ⟨hgw, (hiw.edgeLt hit).2, ?_, ?_, ?_, [], .inl rfl, ?_⟩
    · simp [Builder.child, hi, hit]
    · intro node o hit hfo
      rw [hc, hfo]
    · intro node o hit hf
      rw [hc] at hf
      exact .inl hf
    · simp [hn]
  · rw [he] at hgw ⊢
    refine ⟨hgw, by simp, ?_, ?_, ?_, [.vacant id], .inr ⟨id, rfl⟩, by simp [hn]⟩
    · simp [Builder.child, hi]
    · intro node o old hfo
      rw [← hc] at hfo
      obtain ⟨otherId, hfi, hfe⟩ := bind_eq_some_iff.mp hfo
      simp [Builder.child, hfi, lookup_insert_of_missing hm hfe]
    · intro node o hit hf
      obtain ⟨otherId, hfi, hfe⟩ := bind_eq_some_iff.mp hf
      rcases lookup_insert_eq_some hfe with ⟨_, rfl⟩ | ⟨_, hp⟩
      · exact .inr (by rw [hn])
      · left
        rw [← hc]
        exact bind_eq_some_iff.mpr ⟨otherId, hfi, hp⟩

end

theorem descend_append (b : Builder T) (node : Nat) (path rest : List Text) :
    b.descend node (path ++ rest) =
      (b.descend node path).bind (b.descend · rest) := by
  induction path generalizing node with
  | nil => rfl
  | cons l ls ih =>
    simp only [cons_append, descend]
    cases b.child node l with
    | none => rfl
    | some c => exact ih c

theorem descend_concat_eq_some {node hit : Nat} {path : List Text}
    (hr : b.descend node (path ++ [l]) = some hit) :
    ∃ par, b.descend node path = some par ∧ b.child par l = some hit := by
  rw [descend_append] at hr
  obtain ⟨par, hrp, hl⟩ := bind_eq_some_iff.mp hr
  refine ⟨par, hrp, ?_⟩
  obtain ⟨c, hc, hf⟩ := bind_eq_some_iff.mp hl
  rw [hc]
  exact hf

section

variable (wf : WellFormed b)
include wf

theorem WellFormed.child_lt {par c : Nat} (hi : b.child par l = some c) :
    par < c ∧ c < b.nodes.length := by
  obtain ⟨id, _, he⟩ := bind_eq_some_iff.mp hi
  exact wf.edgeLt he

theorem WellFormed.child_inj {par o c : Nat} {l otherLabel : Text} (hi : b.child par l = some c)
    (hfo : b.child o otherLabel = some c) : par = o ∧ l = otherLabel := by
  obtain ⟨id, hfi, he⟩ := bind_eq_some_iff.mp hi
  obtain ⟨otherId, hf, ho⟩ := bind_eq_some_iff.mp hfo
  have hs := wf.edgeInj he ho
  obtain rfl : id = otherId := congrArg Prod.snd hs
  exact ⟨congrArg Prod.fst hs, wf.labelInj hfi hf⟩

theorem WellFormed.descend_lt {node hit : Nat} {path : List Text} (hn : node < b.nodes.length)
    (hre : b.descend node path = some hit) : hit < b.nodes.length := by
  induction path generalizing node with
  | nil =>
    obtain rfl := some.inj hre
    exact hn
  | cons l ls ih =>
    obtain ⟨c, hc, hr⟩ := bind_eq_some_iff.mp hre
    exact ih (wf.child_lt hc).2 hr

/-- Different paths from the root lead to different nodes. -/
theorem WellFormed.descend_inj {path o : List Text} {hit : Nat} (hre : b.descend 0 path = some hit)
    (hr : b.descend 0 o = some hit) : path = o := by
  induction path using reverseRecOn generalizing o hit with
  | nil =>
    obtain rfl := some.inj hre
    rcases eq_nil_or_concat' o with rfl | ⟨front, l, rfl⟩
    · rfl
    · obtain ⟨par, _, hl⟩ := descend_concat_eq_some hr
      exact absurd (wf.child_lt hl).1 (Nat.not_lt_zero par)
  | append_singleton front l ih =>
    obtain ⟨par, hrp, hl⟩ := descend_concat_eq_some hre
    rcases eq_nil_or_concat' o with rfl | ⟨otherFront, otherLabel, rfl⟩
    · obtain rfl := some.inj hr
      exact absurd (wf.child_lt hl).1 (Nat.not_lt_zero par)
    · obtain ⟨otherParent, hrop, ho⟩ := descend_concat_eq_some hr
      obtain ⟨rfl, rfl⟩ := wf.child_inj hl ho
      rw [ih hrp hrop]

end

section Grown

variable {pre after : Builder T} {par c : Nat}

section

variable (hg : Grown pre after par l c)
include hg

theorem Grown.descend_kept {node hit : Nat} {path : List Text}
    (hre : pre.descend node path = some hit) : after.descend node path = some hit := by
  induction path generalizing node with
  | nil => exact hre
  | cons fst ls ih =>
    obtain ⟨next, hc, hr⟩ := bind_eq_some_iff.mp hre
    exact bind_eq_some_iff.mpr ⟨next, hg.kept hc, ih hr⟩

/-- A path of the grown tree exists already or ends in the fresh node, which has no children. -/
theorem Grown.descend_fresh {node hit : Nat}
    {path : List Text} (hre : after.descend node path = some hit) :
    pre.descend node path = some hit ∨ hit = pre.nodes.length := by
  induction path generalizing node with
  | nil => exact .inl hre
  | cons fst ls ih =>
    obtain ⟨next, hc, hr⟩ := bind_eq_some_iff.mp hre
    rcases hg.fresh hc with old | rfl
    · rcases ih hr with ho | hf
      · exact .inl (bind_eq_some_iff.mpr ⟨next, old, ho⟩)
      · exact .inr hf
    · right
      cases ls with
      | nil => exact (some.inj hr).symm
      | cons snd ls =>
        obtain ⟨last, hl, _⟩ := bind_eq_some_iff.mp hr
        have hb := hg.wellFormed.child_lt hl
        obtain ⟨vacant, hs, ns⟩ := hg.nodes
        have : after.nodes.length ≤ pre.nodes.length + 1 := by
          rcases hs with rfl | ⟨id, rfl⟩ <;> simp [ns]
        omega

theorem Grown.slot_eq (kind : MatchKind)
    (node : Nat) : after.slot kind node = pre.slot kind node := by
  obtain ⟨vacant, hs, ns⟩ := hg.nodes
  unfold slot
  rw [ns]
  rcases lt_or_ge node pre.nodes.length with ho | hb
  · rw [getElem?_append_left ho]
  · rw [getElem?_append_right hb, getElem?_eq_none hb]
    rcases hs with rfl | ⟨id, rfl⟩
    · simp
    · cases node - pre.nodes.length with
      | zero => simp
      | succ i => simp

theorem Grown.slotAt_eq (path : List Text)
    (kind : MatchKind) : after.slotAt path kind = pre.slotAt path kind := by
  unfold slotAt
  cases hr : pre.descend 0 path with
  | some hit => rw [hg.descend_kept hr, bind_some, bind_some, hg.slot_eq]
  | none =>
    cases hra : after.descend 0 path with
    | none => rfl
    | some hit =>
      rcases hg.descend_fresh hra with ho | rfl
      · rw [hr] at ho
        cases ho
      · rw [bind_some, hg.slot_eq, slot, getElem?_eq_none le_rfl]
        rfl

end

end Grown

/-- The node a path of dot-free labels leads to in a tree grown along it. -/
theorem descendOrInsert_spec (wf : WellFormed b) {node : Nat} {path ls : List Text}
    (hr : b.descend 0 path = some node) (hd : ∀ l ∈ ls, dot ∉ l) :
    WellFormed (b.descendOrInsert node ls).2 ∧
      (b.descendOrInsert node ls).2.descend 0 (path ++ ls) = some (b.descendOrInsert node ls).1 ∧
      ∀ o kind, (b.descendOrInsert node ls).2.slotAt o kind =
        b.slotAt o kind := by
  induction ls generalizing b node path with
  | nil => exact ⟨wf, by simpa [descendOrInsert] using hr, fun _ _ => rfl⟩
  | cons l ls ih =>
    have hn := wf.descend_lt wf.nonEmpty hr
    have hg := childOrInsert_grown wf hn (hd l mem_cons_self)
    have hrc : (b.childOrInsert node l).2.descend 0 (path ++ [l]) =
        some (b.childOrInsert node l).1 := by
      rw [descend_append, hg.descend_kept hr]
      simp [descend, hg.reached]
    obtain ⟨hrw, hrr, hrs⟩ := ih hg.wellFormed hrc (fun o hm => hd o (mem_cons_of_mem l hm))
    refine ⟨hrw, ?_, fun o kind => ?_⟩
    · rw [append_assoc, singleton_append] at hrr
      exact hrr
    · exact (hrs o kind).trans (hg.slotAt_eq o kind)

theorem slotAt_modify (wf : WellFormed b) {path : List Text}
    {node : Nat} (hr : b.descend 0 path = some node) (kind : MatchKind)
    (write : Option T → Option T) (o : List Text) (otherKind : MatchKind) :
    slotAt { b with
        nodes := b.nodes.modify node fun slots =>
          slots.setSlot kind (write (slots.slot kind)) } o otherKind =
      if o = path ∧ otherKind = kind then write (b.slotAt path kind)
      else b.slotAt o otherKind := by
  have hn := wf.descend_lt wf.nonEmpty hr
  have hde : ∀ fst rest, descend { b with
      nodes := b.nodes.modify node fun slots =>
        slots.setSlot kind (write (slots.slot kind)) } fst rest = b.descend fst rest := by
    intro fst rest
    induction rest generalizing fst with
    | nil => rfl
    | cons l ls ih =>
      simp only [descend]
      change (b.child fst l).bind _ = _
      simp only [ih]
  unfold slotAt
  rw [hde, hr, bind_some]
  cases hro : b.descend 0 o with
  | none =>
    have hd : o ≠ path := by
      rintro rfl
      rw [hr] at hro
      cases hro
    simp [hd]
  | some hit =>
    simp only [bind_some, slot, getElem?_modify]
    rcases eq_or_ne hit node with rfl | ho
    · obtain rfl := wf.descend_inj hro hr
      rw [getElem?_eq_getElem hn]
      simp
    · have hd : o ≠ path := by
        rintro rfl
        exact ho (some.inj (hro.symm.trans hr))
      simp [hd, ho.symm]

theorem wellFormed_modify (wf : WellFormed b) (node : Nat)
    {change : BuildNode T → BuildNode T} (hsl : ∀ slots, (change slots).label = slots.label) :
    WellFormed { b with nodes := b.nodes.modify node change } := by
  have hle : (b.nodes.modify node change).length = b.nodes.length := by
    simp
  have hla : ∀ i : Nat, (b.nodes.modify node change)[i]?.map BuildNode.label =
      b.nodes[i]?.map BuildNode.label := by
    intro i
    rw [getElem?_modify]
    cases b.nodes[i]? with
    | none => rfl
    | some slots =>
      by_cases hs : node = i <;> simp [hs, hsl]
  constructor
  · rw [hle]
    exact wf.nonEmpty
  · exact wf.labelLt
  · exact wf.labelInj
  · exact wf.labelSurj
  · exact wf.labelNoDot
  · intro slots hm
    obtain ⟨i, at_⟩ := mem_iff_getElem?.mp hm
    have hl := hla i
    rw [at_, map_some] at hl
    obtain ⟨old, ho, hs⟩ := map_eq_some_iff.mp hl.symm
    rw [← hs]
    exact wf.nodeLabelLt (mem_of_getElem? ho)
  · intro par id c hi
    rw [hle]
    exact wf.edgeLt hi
  · exact wf.edgeInj
  · intro c hp hb
    rw [hle] at hb
    exact wf.edgeSurj hp hb
  · intro par id c hi
    rw [hla]
    exact wf.edgeLabel hi

/-- A builder that inserts can produce: empty, or a well-formed tree. -/
def Valid (builder : Builder T) : Prop :=
  builder = new ∨ WellFormed builder

section

variable (hv : Valid b)
include hv

theorem Valid.ensureRoot :
    WellFormed b.ensureRoot := by
  rcases hv with rfl | wf
  · exact wellFormed_ensureRoot_new
  · rw [ensureRoot_of_wellFormed wf]
    exact wf

theorem Valid.child_ensureRoot :
    b.ensureRoot.child = b.child := by
  rcases hv with rfl | wf
  · funext node l
    unfold child
    cases Builder.labels (Builder.ensureRoot (new : Builder T)) |>.lookup l <;> rfl
  · rw [ensureRoot_of_wellFormed wf]

theorem Valid.slot_ensureRoot :
    b.ensureRoot.slot = b.slot := by
  rcases hv with rfl | wf
  · funext kind node
    cases node with
    | zero => exact BuildNode.slot_vacant 0 kind
    | succ node => rfl
  · rw [ensureRoot_of_wellFormed wf]

theorem Valid.slotAt_ensureRoot (path : List Text)
    (kind : MatchKind) : b.ensureRoot.slotAt path kind = b.slotAt path kind := by
  have descend_eq : ∀ node, b.ensureRoot.descend node path = b.descend node path := by
    induction path with
    | nil => exact fun _ => rfl
    | cons l ls ih =>
      intro node
      simp only [descend, hv.child_ensureRoot, ih]
  rw [slotAt, slotAt, descend_eq, hv.slot_ensureRoot]

/-- An insert writes one slot of one path and nothing else. -/
theorem insertIntoTree_spec (base : Text) (v : T) (kind : MatchKind) (mode : InsertMode) :
    WellFormed (b.insertIntoTree base v kind mode) ∧
      ∀ path o, (b.insertIntoTree base v kind mode).slotAt path o =
        if path = rsplitDots base ∧ o = kind then
          mode.write (b.slotAt (rsplitDots base) kind) v
        else b.slotAt path o := by
  have hd : ∀ l ∈ rsplitDots base, dot ∉ l := fun l => dot_not_mem_of_mem_rsplitDots
  have hro : b.ensureRoot.descend 0 [] = some 0 := rfl
  obtain ⟨hgw, hr, hs⟩ := descendOrInsert_spec hv.ensureRoot hro hd
  refine ⟨wellFormed_modify hgw _ fun slots => BuildNode.label_setSlot _ _ _, ?_⟩
  intro path o
  refine (slotAt_modify hgw hr kind (mode.write · v) path o).trans ?_
  rw [nil_append, hs, hs, hv.slotAt_ensureRoot, hv.slotAt_ensureRoot]

end

end Builder

end MeowRs.DomainTrie
