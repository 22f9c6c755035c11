import MeowRs.DomainSetWalk
import MeowRs.Louds

/-!
# Walking a stored trie

Arrays that store a trie in level order are walked along the trie: a frame stands at an edge of a
node, the child lookup finds the edge's label and node, and the keys below each edge reach the sink
before the next edge is taken.
-/

namespace MeowRs.DomainSet

open List Option

open RankSelect (bitAt rank Packs)
open Louds (edges bits LevelOrder)

variable {Node : Type*} {kids : Node → List (UInt8 × Node)} {terminal : Node → Bool}
  {root : Node} {ord : List Node} {tr : DomainSetTraversal} {limits : Limits}

/-- The arrays of a traversal hold the nodes of a trie in level order. -/
structure Stores (traversal : DomainSetTraversal) (kids : Node → List (UInt8 × Node))
    (terminal : Node → Bool) (root : Node) (order : List Node) : Prop where
  level : LevelOrder kids root order
  bitmap : Packs traversal.labelBitmap (bits kids order)
  labels : traversal.labels = (edges kids order).map Prod.fst
  leaves : ∀ index, bitAt traversal.leaves index = (order[index]?).any terminal

def frameAt (kids : Node → List (UInt8 × Node)) (before : List Node) (count : Nat) : Frame where
  nodeId := before.length
  idx := (bits kids before).length + count

namespace Stores

variable {pre after : List Node} {node : Node}

section

variable (hs : Stores tr kids terminal root ord)
include hs

section

variable (split : ord = pre ++ node :: after)
include split

theorem child_end : tr.child (frameAt kids pre (kids node).length) = .ok none := by
  apply DomainSetTraversal.child_of_one
  rw [hs.bitmap.bitAt_eq, split, frameAt, Louds.bits_of_end]
  rfl

theorem child_edge {done rest : List (UInt8 × Node)} {l : UInt8}
    {kid : Node} (he : kids node = done ++ (l, kid) :: rest) :
    ∃ reached later, ord = reached ++ kid :: later ∧ tr.child (frameAt kids pre done.length) =
        .ok (some (l, reached.length, (bits kids reached).length)) := by
  have hl : done.length < (kids node).length := by
    rw [he, length_append, length_cons]
    omega
  obtain ⟨prev, last, later, hr, hp⟩ := hs.level.exists_kid split he
  refine ⟨prev ++ [last], later, hr, ?_⟩
  have hi : (bits kids pre).length + done.length + 1 ≤ (bits kids ord).length :=
    Louds.position_lt split hl.le
  have hpa := hs.bitmap.length_le
  have hz : bitAt tr.labelBitmap (frameAt kids pre done.length).idx = false := by
    rw [hs.bitmap.bitAt_eq, split, frameAt, Louds.bits_of_edge hl]
    rfl
  -- As many zeros stand up to the edge as edges.
  have hn : DomainSetTraversal.nextNode tr.labelBitmap
      (frameAt kids pre done.length).idx = prev.length + 1 := by
    have ho : rank tr.labelBitmap ((bits kids pre).length + done.length + 1) =
        pre.length := by
      rw [hs.bitmap.rank_eq hi, split, add_assoc]
      exact Louds.count_take_bits (Nat.succ_le_of_lt hl)
    rw [DomainSetTraversal.nextNode, frameAt, Nat.min_eq_left (by dsimp only; omega), ho, hp,
      Louds.length_bits]
    dsimp only
    omega
  -- The one behind the node before the reached one is the last before its edges.
  have hw : ord = prev ++ last :: kid :: later := by
    rw [hr, append_assoc, singleton_append]
  have terminator : bitAt tr.labelBitmap ((bits kids prev).length + (kids last).length) = true ∧
      rank tr.labelBitmap ((bits kids prev).length + (kids last).length) =
        prev.length := by
    constructor
    · rw [hs.bitmap.bitAt_eq, hw, Louds.bits_of_end]
      rfl
    · rw [hs.bitmap.rank_eq (Louds.position_lt hw (le_refl _)).le, hw,
        Louds.count_take_bits (le_refl _)]
  have label_eq : tr.labels[(frameAt kids pre done.length).idx -
      (frameAt kids pre done.length).nodeId]? = some l := by
    have hpl : (bits kids pre).length + done.length - pre.length =
        (edges kids pre).length + done.length := by
      rw [Louds.length_bits]
      omega
    rw [hs.labels, frameAt, hpl, getElem?_map, split, Louds.getElem?_edges he]
    rfl
  obtain ⟨hit, hse, c⟩ := DomainSetTraversal.child_of_zero hz
  rw [hn, Nat.add_sub_cancel] at hse
  rw [c, label_eq, (hse _).mpr terminator, hn, Louds.length_bits_snoc]
  simp

theorem leaf : getBit tr.leaves pre.length = terminal node := by
  rw [getBit_eq_bitAt, hs.leaves, split, getElem?_append_right (le_refl _), tsub_self]
  rfl

end

end

end Stores

def Walk.give (walk : Walk) (keys : List (List UInt8)) : Walk :=
  { walk with
    outCount := walk.outCount + keys.length
    outBytes := walk.outBytes + (keys.map List.length).sum
    emitted := walk.emitted ++ keys }

def Walk.move (walk : Walk) (stack : List Frame) (path : List UInt8) : Walk :=
  { walk with stack := stack, current := path }

theorem Walk.give_nil (walk : Walk) : walk.give [] = walk := by
  simp [Walk.give]

theorem Walk.give_give (walk : Walk) (fst snd : List (List UInt8)) :
    (walk.give fst).give snd = walk.give (fst ++ snd) := by
  simp [Walk.give, add_assoc]

theorem Walk.enter_eq (walk : Walk) (stack : List Frame) (path : List UInt8) (isLeaf : Bool) :
    walk.enter stack path isLeaf = (walk.give (if isLeaf then [path] else [])).move stack path := by
  cases isLeaf with
  | false => rw [if_neg Bool.false_ne_true, Walk.give_nil]; rfl
  | true => simp [Walk.enter, Walk.give, Walk.move]

def spellEdges (spell : Node → List (List UInt8)) (todo : List (UInt8 × Node)) :
    List (List UInt8) :=
  todo.flatMap fun edge => (spell edge.2).map (edge.1 :: ·)

/-- Each node spells its own key, if it ends one, and those of its edges; the nodes that the edges
lead to are lower. -/
structure Spells (kids : Node → List (UInt8 × Node)) (terminal : Node → Bool)
    (spell : Node → List (List UInt8)) (height : Node → Nat) (order : List Node) : Prop where
  spell_eq : ∀ node ∈ order,
    spell node = (if terminal node then [[]] else []) ++ spellEdges spell (kids node)
  nonempty : ∀ node ∈ order, spell node ≠ []
  lower : ∀ node ∈ order, ∀ edge ∈ kids node, height edge.2 < height node

/-- More keys stay within the limits of the walk. -/
structure Fits (limits : Limits) (walk : Walk) (keys : List (List UInt8)) : Prop where
  entries : walk.outCount + keys.length ≤ limits.maxEntries
  bytes : walk.outBytes + (keys.map List.length).sum ≤ limits.maxBytes
  depth : ∀ key ∈ keys, key.length < limits.maxDepth

namespace Fits

variable {walk : Walk} {fst snd : List (List UInt8)}

theorem left (hf : Fits limits walk (fst ++ snd)) : Fits limits walk fst where
  entries := by
    have := hf.entries
    rw [length_append] at this
    omega
  bytes := by
    have := hf.bytes
    rw [map_append, sum_append] at this
    omega
  depth key hm := hf.depth key (mem_append_left _ hm)

theorem right (hf : Fits limits walk (fst ++ snd)) :
    Fits limits (walk.give fst) snd where
  entries := by
    have := hf.entries
    rw [length_append] at this
    simp only [Walk.give]
    omega
  bytes := by
    have := hf.bytes
    rw [map_append, sum_append] at this
    simp only [Walk.give]
    omega
  depth key hm := hf.depth key (mem_append_right _ hm)

end Fits

section Descent

variable {spell : Node → List (List UInt8)} {height : Node → Nat} {pre after : List Node}
  {path : List UInt8} {node : Node} {walk : Walk} {kid : Node}

theorem spell_edge (hsp : Spells kids terminal spell height ord)
    (hm : kid ∈ ord) (path : List UInt8) (l : UInt8) (rest : List (UInt8 × Node)) :
    (spellEdges spell ((l, kid) :: rest)).map (path ++ ·) =
      (if terminal kid then [path ++ [l]] else []) ++
        (spellEdges spell (kids kid)).map (path ++ [l] ++ ·) ++
        (spellEdges spell rest).map (path ++ ·) := by
  rw [spellEdges, flatMap_cons, ← spellEdges, map_append]
  congr 1
  rw [hsp.spell_eq kid hm, map_append, map_append]
  congr 1
  · split <;> rfl
  · simp

theorem length_lt_maxDepth (hsp : Spells kids terminal spell height ord) (hm : kid ∈ ord)
    {l : UInt8} (hf : Fits limits walk ((if terminal kid then [path ++ [l]] else []) ++
      (spellEdges spell (kids kid)).map (path ++ [l] ++ ·))) :
    path.length + 1 < limits.maxDepth := by
  have hk : (spell kid).map (path ++ [l] ++ ·) = (if terminal kid then [path ++ [l]] else []) ++
        (spellEdges spell (kids kid)).map (path ++ [l] ++ ·) := by
    rw [hsp.spell_eq kid hm, map_append]
    split <;> simp
  rw [← hk] at hf
  obtain ⟨suffix, hsm⟩ := exists_mem_of_ne_nil _ (hsp.nonempty kid hm)
  have hl := hf.depth _ (mem_map_of_mem hsm)
  rw [length_append, length_append, length_singleton] at hl
  omega

variable (hs : Stores tr kids terminal root ord)
include hs

theorem step_edge (split : ord = pre ++ node :: after) {done rest : List (UInt8 × Node)}
    {l : UInt8} (he : kids node = done ++ (l, kid) :: rest)
    {under : List Frame} (hd : under.length = path.length)
    (hf : Fits limits walk (if terminal kid then [path ++ [l]] else []))
    (hsh : path.length + 1 < limits.maxDepth) :
    ∃ reached later, ord = reached ++ kid :: later ∧
      tr.step limits (walk.move (frameAt kids pre done.length :: under) path) =
        .next ((walk.give (if terminal kid then [path ++ [l]] else [])).move
    (frameAt kids reached 0 :: frameAt kids pre (done.length + 1) :: under)
    (path ++ [l])) := by
  obtain ⟨reached, later, hr, c⟩ := hs.child_edge split he
  refine ⟨reached, later, hr, ?_⟩
  have ha : getBit tr.leaves reached.length = true → walk.outCount < limits.maxEntries ∧
        walk.outBytes + (path ++ [l]).length ≤ limits.maxBytes := by
    intro hl
    rw [hs.leaf hr] at hl
    obtain ⟨es, bs, _⟩ := hf
    simp only [hl, if_true, length_singleton, map_singleton, sum_singleton]
      at es bs
    omega
  have hst := DomainSetTraversal.step_of_some
    (walk.move (frameAt kids pre done.length :: under) path) rfl c ha (by omega)
  rw [hst, hs.leaf hr, Walk.enter_eq]
  rfl

theorem step_end (split : ord = pre ++ node :: after) (walk : Walk) (f : Frame)
    (under : List Frame) (path : List UInt8) (l : UInt8) :
    tr.step limits (walk.move (frameAt kids pre (kids node).length :: f :: under)
    (path ++ [l])) = .next (walk.move (f :: under) path) := by
  have hst := DomainSetTraversal.step_of_none limits
    (walk.move (frameAt kids pre (kids node).length :: f :: under) (path ++ [l]))
    rfl (hs.child_end split)
  rw [hst]
  simp [Walk.move]

/-- The keys of the edges that are left reach the sink, and the frame ends up behind its edges. -/
theorem reaches_edges (hsp : Spells kids terminal spell height ord)
    (split : ord = pre ++ node :: after) {done todo : List (UInt8 × Node)}
    (edge : kids node = done ++ todo) {under : List Frame} (hd : under.length = path.length)
    (hf : Fits limits walk ((spellEdges spell todo).map (path ++ ·))) :
    tr.Reaches limits (walk.move (frameAt kids pre done.length :: under) path)
      ((walk.give ((spellEdges spell todo).map (path ++ ·))).move
        (frameAt kids pre (kids node).length :: under) path) := by
  induction lower : height node using Nat.strong_induction_on
    generalizing node pre after done todo walk under path with
  | _ bound hl =>
  induction todo generalizing done walk with
  | nil =>
    have ha : done.length = (kids node).length := by rw [edge, append_nil]
    rw [ha, spellEdges, flatMap_nil, map_nil, Walk.give_nil]
    exact .refl
  | cons fst rest ih =>
    obtain ⟨l, kid⟩ := fst
    obtain ⟨reached, later, hks, _⟩ := hs.child_edge split edge
    have hkm : kid ∈ ord := by rw [hks]; simp
    have hn : node ∈ ord := by rw [split]; simp
    have hkl : height kid < bound := by
      rw [← lower]
      exact hsp.lower node hn (l, kid) (by rw [edge]; simp)
    have hk := spell_edge hsp hkm path l rest
    rw [hk] at hf ⊢
    have hsh : path.length + 1 < limits.maxDepth := length_lt_maxDepth hsp hkm hf.left
    obtain ⟨reached, later, hre, hst⟩ := step_edge hs split edge hd hf.left.left hsh
    have ht : tr.Reaches limits _ _ := .single hst
    have hdee : (frameAt kids pre (done.length + 1) :: under).length =
        (path ++ [l]).length := by
      simp [hd]
    have hde := hl (height kid) hkl hre (nil_append _).symm hdee hf.left.right rfl
    have he : kids node = (done ++ [(l, kid)]) ++ rest := by
      rw [edge, append_assoc, singleton_append]
    have hr := ih he hf.right
    rw [← Walk.give_give, ← Walk.give_give]
    rw [length_append, length_singleton, ← Walk.give_give] at hr
    exact ((ht.trans hde).tail (step_end hs hre _ _ _ _ _)).trans hr

/-- A stored trie is walked to its end, and the sink is given what its root spells. -/
theorem traverseBounded_spell (hsp : Spells kids terminal spell height ord)
    (hf : Fits limits ⟨0, 0, [], [], []⟩ (spell root)) :
    ∃ fuel walk, tr.traverseBounded limits fuel 0 0 [] = some (.ok (), walk) ∧
      walk.emitted = spell root := by
  have split : ord = [] ++ root :: (edges kids ord).map Prod.snd := hs.level.order_eq
  have hm : root ∈ ord := by rw [split]; simp
  have hk : spell root = (if terminal root then [[]] else []) ++
      (spellEdges spell (kids root)).map ([] ++ ·) := by
    rw [hsp.spell_eq root hm]
    simp
  rw [hk] at hf ⊢
  have hb : tr.start 0 0 [] =
      ((⟨0, 0, [], [], []⟩ : Walk).give (if terminal root then [[]] else [])).move
        [frameAt kids [] 0] [] := by
    have hle : getBit tr.leaves 0 = terminal root := hs.leaf split
    rw [DomainSetTraversal.start, hle]
    split <;> rfl
  have hl : ([] : List Frame).length = ([] : List UInt8).length := rfl
  have hd := reaches_edges hs hsp split (nil_append _).symm hl hf.right
  have hen : ∃ walk, tr.run limits 2
      ((((⟨0, 0, [], [], []⟩ : Walk).give (if terminal root then [[]] else [])).give
        ((spellEdges spell (kids root)).map ([] ++ ·))).move
        [frameAt kids [] (kids root).length] []) = some (.ok (), walk) ∧
      walk.emitted = (if terminal root then [[]] else []) ++
        (spellEdges spell (kids root)).map ([] ++ ·) := by
    rw [DomainSetTraversal.run, DomainSetTraversal.step_of_none limits _ rfl (hs.child_end split)]
    exact ⟨_, rfl, rfl⟩
  obtain ⟨walk, hr, he⟩ := hen
  obtain ⟨fuel, hr⟩ := DomainSetTraversal.run_of_reaches hd hr
  refine ⟨fuel, walk, ?_, he⟩
  rw [DomainSetTraversal.traverseBounded, hb]
  exact hr

end Descent

end MeowRs.DomainSet
