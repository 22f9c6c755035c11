import MeowRs.RankSelect

/-!
# The walk of a succinct domain set

A domain set arrives as three arrays: a bitmap that lists the nodes of a trie in level order, one
zero for each edge and a one behind each node's last edge; the label of each edge; and a leaf bit
for each node.  The walk goes down the trie with a stack of its own.  The arrays come from a remote
provider, so nothing about them is taken for granted: an edge without a label or without a node to
lead to ends a frame, and the limits end the walk.
-/

namespace MeowRs.DomainSet

open List Option Nat

open RankSelect (bitAt rank lowMask clearLowest)

inductive MrsError where
  | wrongFormat (magic : String)
  | unsupportedVersion (version : UInt8)
  | unsupportedType (tag : UInt8)
  | invalidBehavior (behavior : UInt8)
  | invalidReservedLength (length : Int)
  | truncated (what : String) (offset need have_ : Nat)
  | zstd
  | utf8 (what : String)
  | invalidDomainSetVersion (version : UInt8)
  | invalidIpCidrSetVersion (version : UInt8)
  | invalidLength (what : String) (length : Int)
  deriving Repr, DecidableEq

/-- What ends a call that does not return a value; the last three abort it. -/
inductive Failure where
  | error (error : MrsError)
  | indexOutOfRange
  | subtractOverflow
  | assertionFailed
  deriving Repr, DecidableEq

def checkedSub (first second : Nat) : Except Failure Nat :=
  if second ≤ first then .ok (first - second) else .error .subtractOverflow

def asI64 (count : Nat) : Int :=
  (BitVec.ofNat 64 count).toInt

def getBit (bits : List (BitVec 64)) (idx : Nat) : Bool :=
  (bits[idx / 64]?).any fun word => word &&& (BitVec.ofNat 64 1 <<< (idx % 64)) != 0

theorem getBit_eq_bitAt (bits : List (BitVec 64)) (idx : Nat) :
    getBit bits idx = bitAt bits idx := by
  have hm (word : BitVec 64) {bit : Nat} (below : bit < 64) :
      (word &&& (BitVec.ofNat 64 1 <<< bit) != 0) = word.getLsbD bit := by
    have hn : BitVec.twoPow 64 bit ≠ 0 := by
      intro hz
      have := congrArg BitVec.toNat hz
      rw [BitVec.toNat_twoPow, Nat.mod_eq_of_lt (Nat.pow_lt_pow_right (by decide) below)] at this
      exact (Nat.two_pow_pos bit).ne' this
    rw [← BitVec.twoPow_eq, BitVec.and_twoPow]
    cases word.getLsbD bit with
    | false => rfl
    | true => simpa using hn
  rw [getBit, bitAt]
  cases bits[idx / 64]? with
  | none => rfl
  | some word => exact hm word (mod_lt _ (by decide))

structure DomainSetIndex where
  rankOnesByWord : List Nat

namespace DomainSetIndex

def new (bits : List (BitVec 64)) : DomainSetIndex where
  rankOnesByWord := RankSelect.directory 0 bits

def countZeros (index : DomainSetIndex) (bits : List (BitVec 64)) (upto : Nat) :
    Except Failure Nat :=
  let totalBits := bits.length * 64
  let upto := min upto totalBits
  let word := upto / 64
  let bit := upto % 64
  let ones := (index.rankOnesByWord[word]?).getD 0
  let ones :=
    if 0 < bit then
      match bits[word]? with
      | some value => ones + (value &&& lowMask 64 bit).cpop.toNat
      | none => ones
    else ones
  checkedSub upto ones

def selectOne (index : DomainSetIndex) (bits : List (BitVec 64)) (nth : Nat) :
    Except Failure (Option Nat) := do
  if bits.length + 1 ≠ index.rankOnesByWord.length then
    throw .assertionFailed
  match Intervals.partitionPoint (· ≤ nth) index.rankOnesByWord with
  | 0 => return none
  | word + 1 =>
    match bits[word]? with
    | none => return none
    | some value =>
      let some before := index.rankOnesByWord[word]? | throw .indexOutOfRange
      let times ← checkedSub nth before
      let remaining := clearLowest^[times] value
      return if remaining ≠ 0 then some (word * 64 + remaining.ctz.toNat) else none

variable (bits : List (BitVec 64))

theorem countZeros_new (upto : Nat) :
    (new bits).countZeros bits upto =
      .ok (min upto (bits.length * 64) - rank bits (min upto (bits.length * 64))) := by
  generalize capped : min upto (bits.length * 64) = pos
  have split : pos / 64 * 64 + pos % 64 = pos := by omega
  have e := RankSelect.directory_getElem? (by omega : pos / 64 ≤ bits.length)
  have ones :
      (if 0 < pos % 64 then
        match bits[pos / 64]? with
        | some v =>
          rank bits (pos / 64 * 64) + (v &&& lowMask 64 (pos % 64)).cpop.toNat
        | none => rank bits (pos / 64 * 64)
      else rank bits (pos / 64 * 64)) = rank bits pos := by
    split
    · next within =>
        -- A position inside a word lies before the end, so the word is there.
        have atWord := getElem?_eq_getElem (by omega : pos / 64 < bits.length)
        rw [atWord]
        dsimp only
        rw [RankSelect.toNat_cpop_mask _ (mod_lt _ (by decide)),
          ← RankSelect.rank_add_of_getElem? (mod_lt _ (by decide)).le atWord, split]
    · rw [show pos / 64 * 64 = pos by omega]
  rw [countZeros, capped]
  dsimp only [new]
  rw [e, getD_some, ones, checkedSub, if_pos (RankSelect.rank_le bits pos)]

theorem selectOne_new (nth : Nat) :
    ∃ hit, (new bits).selectOne bits nth = .ok hit ∧ ∀ pos,
      hit = some pos ↔ bitAt bits pos = true ∧ rank bits pos = nth := by
  obtain ⟨word, hpo, hi, he, hl⟩ := RankSelect.partitionPoint_directory bits nth
  have hs : ¬ bits.length + 1 ≠ (new bits).rankOnesByWord.length := by
    rw [new, RankSelect.length_directory]
    exact not_not_intro rfl
  rw [selectOne, if_neg hs]
  dsimp only [new]
  rw [hpo]
  dsimp only
  rcases lt_or_eq_of_le hi with below | hp
  · have hw := getElem?_eq_getElem below
    obtain ⟨hn, hon, ho⟩ := RankSelect.select_within hw he (hl below)
    rw [hw, RankSelect.directory_getElem? hi]
    dsimp only
    rw [checkedSub, if_pos he]
    refine ⟨_, rfl, fun pos => ?_⟩
    rw [if_pos (c := _ ≠ (0 : BitVec 64)) hn, some.injEq]
    constructor
    · rintro rfl
      exact ⟨hon, ho⟩
    · rintro ⟨hoo, hor⟩
      exact RankSelect.rank_injective hon hoo (ho.trans hor.symm)
  · -- Every one lies before the end and has fewer ones before it.
    rw [getElem?_eq_none (by omega : bits.length ≤ word)]
    refine ⟨none, rfl, fun pos => ⟨(fun hm => nomatch hm), ?_⟩⟩
    rintro ⟨hon, ho⟩
    have pre := RankSelect.rank_strictMono hon (RankSelect.lt_of_bitAt hon)
    rw [hp] at he
    omega

end DomainSetIndex

structure DomainSetTraversal where
  leaves : List (BitVec 64)
  labelBitmap : List (BitVec 64)
  labelIndex : DomainSetIndex
  labels : List UInt8
  /-- The index is always built from the bitmap. -/
  indexed : labelIndex = DomainSetIndex.new labelBitmap

structure Limits where
  maxEntries : Nat
  maxBytes : Nat
  maxDepth : Nat

/-- A node and the bitmap position of its next edge. -/
structure Frame where
  nodeId : Nat
  idx : Nat
  deriving Repr, DecidableEq

/-- The variables of the walk, with the keys that the sink has been given. -/
structure Walk where
  outCount : Nat
  outBytes : Nat
  /-- The frames, the last one first. -/
  stack : List Frame
  current : List UInt8
  emitted : List (List UInt8)
  deriving Repr, DecidableEq

def Walk.enter (walk : Walk) (stack : List Frame) (current : List UInt8) (isLeaf : Bool) : Walk :=
  if isLeaf then
    { outCount := walk.outCount + 1
      outBytes := walk.outBytes + current.length
      stack := stack
      current := current
      emitted := walk.emitted ++ [current] }
  else { walk with stack := stack, current := current }

@[simp] theorem Walk.enter_current (walk : Walk) (stack : List Frame) (cur : List UInt8)
    (isLeaf : Bool) : (walk.enter stack cur isLeaf).current = cur := by
  cases isLeaf <;> rfl

inductive Turn where
  | next (walk : Walk)
  | stop (result : Except Failure Unit) (walk : Walk)

namespace DomainSetTraversal

variable (traversal : DomainSetTraversal) (limits : Limits)

/-- The edge at a position: its label, the node that it leads to and where that node's edges are. -/
def child (frame : Frame) : Except Failure (Option (UInt8 × Nat × Nat)) := do
  if getBit traversal.labelBitmap frame.idx then
    return none
  let labelIdx := frame.idx - frame.nodeId
  let nextNodeId ← traversal.labelIndex.countZeros traversal.labelBitmap (frame.idx + 1)
  let prevTerminator ← traversal.labelIndex.selectOne traversal.labelBitmap (nextNodeId - 1)
  return (traversal.labels[labelIdx]?).bind fun label =>
    prevTerminator.map fun terminator => (label, nextNodeId, terminator + 1)

def step (walk : Walk) : Turn :=
  match walk.stack with
  | [] => .stop (.ok ()) walk
  | frame :: below =>
    match traversal.child frame with
    | .error failure => .stop (.error failure) walk
    | .ok none =>
      .next { walk with
        stack := below
        current := if below.isEmpty then walk.current else walk.current.dropLast }
    | .ok (some (label, nextNodeId, nextBmIdx)) =>
      let stack := { frame with idx := frame.idx + 1 } :: below
      let current := walk.current ++ [label]
      let isLeaf := getBit traversal.leaves nextNodeId
      if isLeaf ∧ (limits.maxEntries ≤ walk.outCount ∨
          limits.maxBytes < walk.outBytes + current.length) then
        .stop (.error (.error (.invalidLength "domain_set_output" (asI64 walk.outCount))))
          { walk with stack := stack, current := current }
      else
        let walk := walk.enter stack current isLeaf
        if limits.maxDepth ≤ stack.length then
          .stop (.error (.error (.invalidLength "domain_set_depth" (asI64 stack.length)))) walk
        else .next { walk with stack := ⟨nextNodeId, nextBmIdx⟩ :: stack }

/-- At most `fuel` rounds of the loop. -/
def run : Nat → Walk → Option (Except Failure Unit × Walk)
  | 0, _ => none
  | fuel + 1, walk =>
    match traversal.step limits walk with
    | .next walk => run fuel walk
    | .stop result walk => some (result, walk)

/-- The walk before the first round: the root's own key is given to the sink unchecked. -/
def start (rootNode rootBm : Nat) (current : List UInt8) : Walk :=
  if getBit traversal.leaves rootNode then
    { outCount := 1, outBytes := 0, stack := [⟨rootNode, rootBm⟩], current := current
      emitted := [current] }
  else
    { outCount := 0, outBytes := 0, stack := [⟨rootNode, rootBm⟩], current := current
      emitted := [] }

def traverseBounded (fuel rootNode rootBm : Nat) (current : List UInt8) :
    Option (Except Failure Unit × Walk) :=
  traversal.run limits fuel (traversal.start rootNode rootBm current)

section Edges

variable {traversal}

/-- The node that the edge at a position leads to: as many edges as there are up to it. -/
def nextNode (bits : List (BitVec 64)) (idx : Nat) : Nat :=
  min (idx + 1) (bits.length * 64) - rank bits (min (idx + 1) (bits.length * 64))

theorem nextNode_le (bits : List (BitVec 64)) (idx : Nat) : nextNode bits idx ≤ bits.length * 64 :=
  (sub_le _ _).trans (min_le_right _ _)

theorem child_of_one {f : Frame} (ho : bitAt traversal.labelBitmap f.idx = true) :
    traversal.child f = .ok none := by
  rw [child, getBit_eq_bitAt, ho]
  rfl

theorem child_of_zero {f : Frame} (hz : bitAt traversal.labelBitmap f.idx = false) :
    ∃ hit, (∀ pos, hit = some pos ↔ bitAt traversal.labelBitmap pos = true ∧
        rank traversal.labelBitmap pos = nextNode traversal.labelBitmap f.idx - 1) ∧
      traversal.child f = .ok ((traversal.labels[f.idx - f.nodeId]?).bind fun l =>
        hit.map fun terminator =>
          (l, nextNode traversal.labelBitmap f.idx, terminator + 1)) := by
  obtain ⟨hit, hs, he⟩ := DomainSetIndex.selectOne_new traversal.labelBitmap
    (nextNode traversal.labelBitmap f.idx - 1)
  refine ⟨hit, he, ?_⟩
  rw [child, getBit_eq_bitAt, hz, traversal.indexed, DomainSetIndex.countZeros_new]
  change (do
    let terminator ← (DomainSetIndex.new traversal.labelBitmap).selectOne traversal.labelBitmap
      (nextNode traversal.labelBitmap f.idx - 1)
    return _) = _
  rw [hs]
  rfl

theorem child_ok (traversal : DomainSetTraversal) (f : Frame) :
    ∃ edge, traversal.child f = .ok edge ∧ ∀ l nextNodeId nextBmIdx,
      edge = some (l, nextNodeId, nextBmIdx) → f.idx < f.nodeId + traversal.labels.length ∧
        nextNodeId ≤ traversal.labelBitmap.length * 64 := by
  cases bit : bitAt traversal.labelBitmap f.idx with
  | true => exact ⟨none, child_of_one bit, fun _ _ _ none => nomatch none⟩
  | false =>
    obtain ⟨hit, _, edge⟩ := child_of_zero bit
    refine ⟨_, edge, fun l nextNodeId nextBmIdx some => ?_⟩
    obtain ⟨_, hla, hma⟩ := bind_eq_some_iff.mp some
    obtain ⟨_, _, eq⟩ := map_eq_some_iff.mp hma
    cases eq
    obtain ⟨hlab, _⟩ := List.getElem?_eq_some_iff.mp hla
    exact ⟨by omega, nextNode_le _ _⟩

variable {f : Frame} {below : List Frame}

theorem step_of_none (limits : Limits) (walk : Walk) (hs : walk.stack = f :: below)
    (hi : traversal.child f = .ok none) :
    traversal.step limits walk =
      .next { walk with
        stack := below
        current := if below.isEmpty then walk.current else walk.current.dropLast } := by
  rw [step, hs]
  dsimp only
  rw [hi]

theorem step_of_some {limits : Limits} (walk : Walk) {l : UInt8} {nextNodeId nextBmIdx : Nat}
    (hst : walk.stack = f :: below) (hi : traversal.child f = .ok (some (l, nextNodeId, nextBmIdx)))
    (ha : getBit traversal.leaves nextNodeId = true → walk.outCount < limits.maxEntries ∧
      walk.outBytes + (walk.current ++ [l]).length ≤ limits.maxBytes)
    (hs : below.length + 1 < limits.maxDepth) :
    traversal.step limits walk =
      .next { walk.enter ({ f with idx := f.idx + 1 } :: below) (walk.current ++ [l])
          (getBit traversal.leaves nextNodeId) with
        stack := ⟨nextNodeId, nextBmIdx⟩ :: { f with idx := f.idx + 1 } :: below } := by
  rw [step, hst]
  dsimp only
  rw [hi]
  dsimp only
  rw [if_neg, if_neg]
  · exact not_le.mpr hs
  · rintro ⟨isLeaf, hf⟩
    have := ha isLeaf
    omega

end Edges

def Reaches : Walk → Walk → Prop :=
  Relation.ReflTransGen fun walk after => traversal.step limits walk = .next after

variable {traversal limits} in
theorem run_of_reaches {walk after : Walk} (reaches : traversal.Reaches limits walk after)
    {fuel : Nat} {outcome : Except Failure Unit × Walk}
    (ran : traversal.run limits fuel after = some outcome) :
    ∃ fuel, traversal.run limits fuel walk = some outcome := by
  induction reaches using Relation.ReflTransGen.head_induction_on with
  | refl => exact ⟨fuel, ran⟩
  | head stepped _ ih =>
    obtain ⟨rounds, ran⟩ := ih
    refine ⟨rounds + 1, ?_⟩
    rw [run, stepped]
    exact ran

section Bounds

variable {traversal limits} {ceiling : Nat} {walk : Walk}

/-- The rounds that may be left: a frame can meet each label once more, and each edge it takes opens
a frame one level deeper. -/
def weight (traversal : DomainSetTraversal) (limits : Limits) (ceiling : Nat) : List Frame → Nat
  | [] => 0
  | frame :: below =>
    (frame.nodeId + traversal.labels.length - frame.idx + 1) *
        (ceiling + traversal.labels.length + 2) ^ (limits.maxDepth - below.length) +
      weight traversal limits ceiling below

/-- What holds of the walk before each round. -/
structure Bounded (limits : Limits) (ceiling : Nat) (walk : Walk) : Prop where
  path : walk.stack ≠ [] → walk.current.length = walk.stack.length - 1
  counted : walk.emitted.length = walk.outCount
  entries : walk.outCount ≤ limits.maxEntries + 1
  nodes : ∀ frame ∈ walk.stack, frame.nodeId ≤ ceiling

inductive Bounded.Turns (traversal : DomainSetTraversal) (limits : Limits) (ceiling : Nat)
    (walk : Walk) : Turn → Prop
  | next {after : Walk} (bounded : Bounded limits ceiling after)
      (less : weight traversal limits ceiling after.stack <
        weight traversal limits ceiling walk.stack) :
      Turns traversal limits ceiling walk (.next after)
  | stop {result : Except Failure Unit} {after : Walk}
      (entries : after.emitted.length ≤ limits.maxEntries + 1)
      (reported : result = .ok () ∨
        ∃ what length, result = .error (.error (.invalidLength what length))) :
      Turns traversal limits ceiling walk (.stop result after)

theorem weight_pop (ceiling : Nat) (f : Frame) (below : List Frame) :
    weight traversal limits ceiling below < weight traversal limits ceiling (f :: below) := by
  exact Nat.lt_add_of_pos_left (Nat.mul_pos (Nat.succ_pos _) (Nat.pow_pos (Nat.succ_pos _)))

theorem weight_push {f c : Frame} {below : List Frame}
    (hl : f.idx < f.nodeId + traversal.labels.length)
    (hi : c.nodeId ≤ ceiling) (hs : below.length + 1 < limits.maxDepth) :
    weight traversal limits ceiling (c :: { f with idx := f.idx + 1 } :: below) <
      weight traversal limits ceiling (f :: below) := by
  have hd : limits.maxDepth - below.length = limits.maxDepth - (below.length + 1) + 1 := by
    omega
  have ho : c.nodeId + traversal.labels.length - c.idx + 1 <
      ceiling + traversal.labels.length + 2 := by omega
  have ht : f.nodeId + traversal.labels.length - f.idx + 1 =
      f.nodeId + traversal.labels.length - (f.idx + 1) + 1 + 1 := by omega
  rw [weight, weight, weight, length_cons, ht, succ_mul (_ - (f.idx + 1) + 1), hd, pow_succ']
  have hp : 0 < (ceiling + traversal.labels.length + 2) ^ (limits.maxDepth - (below.length + 1)) :=
    Nat.pow_pos (Nat.succ_pos _)
  have := Nat.mul_lt_mul_of_pos_right ho hp
  dsimp only
  omega

theorem enter_counts {isLeaf : Bool} (stack : List Frame) {cur : List UInt8}
    (hc : walk.emitted.length = walk.outCount) (es : walk.outCount ≤ limits.maxEntries + 1)
    (ha : isLeaf = true → ¬ limits.maxEntries ≤ walk.outCount ∧
      ¬ limits.maxBytes < walk.outBytes + cur.length) :
    (walk.enter stack cur isLeaf).emitted.length = (walk.enter stack cur isLeaf).outCount ∧
      (walk.enter stack cur isLeaf).outCount ≤ limits.maxEntries + 1 := by
  cases isLeaf with
  | false => exact ⟨hc, es⟩
  | true =>
    have below := (ha rfl).1
    constructor
    · simp [Walk.enter, hc]
    · simp only [Walk.enter, if_true]
      omega

theorem start_bounded (traversal : DomainSetTraversal) (limits : Limits) (rootNode rootBm : Nat) :
    Bounded limits (max rootNode (traversal.labelBitmap.length * 64))
      (traversal.start rootNode rootBm []) := by
  rw [start]
  split
  all_goals exact ⟨fun _ => rfl, rfl, by simp, by simp⟩

section

variable (large : traversal.labelBitmap.length * 64 ≤ ceiling)
include large

/-- One round keeps the bounds and leaves fewer rounds, or it ends the walk within them. -/
theorem step_bounded (hbo : Bounded limits ceiling walk) :
    Bounded.Turns traversal limits ceiling walk (traversal.step limits walk) := by
  obtain ⟨path, hco, es, ns⟩ := hbo
  rw [step]
  split
  · exact .stop (hco ▸ es) (.inl rfl)
  · next f below atStack =>
      rw [atStack] at path ns
      have hpl : walk.current.length = below.length := path (cons_ne_nil _ _)
      obtain ⟨edge, hit, hli⟩ := child_ok traversal f
      rw [hit]
      cases edge with
      | none =>
        refine .next ⟨fun ne => ?_, hco, es, fun o mem =>
          ns o (mem_cons_of_mem _ mem)⟩ ?_
        · have : below.isEmpty = false := by simpa using ne
          simp [this, hpl]
        · rw [atStack]
          exact weight_pop _ _ _
      | some edge =>
        obtain ⟨l, nextNodeId, nextBmIdx⟩ := edge
        obtain ⟨hla, hin⟩ := hli l nextNodeId nextBmIdx rfl
        have hde : (walk.current ++ [l]).length = below.length + 1 := by
          rw [length_append, length_singleton, hpl]
        have had : ∀ o ∈ ⟨nextNodeId, nextBmIdx⟩ :: { f with idx := f.idx + 1 } :: below,
            o.nodeId ≤ ceiling := by
          intro o mem
          rcases mem_cons.mp mem with rfl | mem
          · exact hin.trans large
          · rcases mem_cons.mp mem with rfl | mem
            · exact ns f mem_cons_self
            · exact ns o (mem_cons_of_mem _ mem)
        dsimp only
        split
        · exact .stop (hco ▸ es) (.inr ⟨_, _, rfl⟩)
        · next allowed =>
            -- The key of a leaf is counted, and the count was below the limit.
            have hen := enter_counts ({ f with idx := f.idx + 1 } :: below) hco
              es fun isLeaf => not_or.mp fun full => allowed ⟨isLeaf, full⟩
            split
            · refine .stop ?_ (.inr ⟨_, _, rfl⟩)
              exact hen.1.trans_le hen.2
            · next shallow =>
                refine .next ⟨fun _ => ?_, hen.1, hen.2, had⟩ ?_
                · rw [Walk.enter_current, hde]
                  rfl
                · rw [atStack]
                  exact weight_push hla (hin.trans large) (not_le.mp shallow)

theorem bounded_of_reaches {walk after : Walk} (hr : traversal.Reaches limits walk after)
    (hb : Bounded limits ceiling walk) : Bounded limits ceiling after := by
  induction hr with
  | refl => exact hb
  | tail _ hs ih =>
    have ht := step_bounded large ih
    rw [hs] at ht
    cases ht with
    | next hb _ => exact hb

theorem run_bounded {fuel : Nat} (hb : Bounded limits ceiling walk)
    (he : weight traversal limits ceiling walk.stack < fuel) :
    ∃ res after, traversal.run limits fuel walk = some (res, after) ∧
      after.emitted.length ≤ limits.maxEntries + 1 ∧
      (res = .ok () ∨ ∃ what len, res = .error (.error (.invalidLength what len))) := by
  induction fuel generalizing walk with
  | zero => exact absurd he (not_lt_zero _)
  | succ fuel ih =>
    have ht := step_bounded large hb
    rw [run]
    cases hs : traversal.step limits walk with
    | next after =>
      rw [hs] at ht
      cases ht with
      | next after hl => exact ih after (by omega)
    | stop res after =>
      rw [hs] at ht
      cases ht with
      | stop es hr => exact ⟨res, after, rfl, es, hr⟩

end

/-- On any arrays and with any limits the walk ends, within its limits and without an abort. -/
theorem traverseBounded_ends (traversal : DomainSetTraversal) (limits : Limits)
    (rootNode rootBm : Nat) :
    (∀ walk, traversal.Reaches limits (traversal.start rootNode rootBm []) walk →
      walk.stack ≠ [] → walk.current.length = walk.stack.length - 1) ∧
    ∃ fuel result walk,
      traversal.traverseBounded limits fuel rootNode rootBm [] = some (result, walk) ∧
      walk.emitted.length ≤ limits.maxEntries + 1 ∧
      (result = .ok () ∨ ∃ what length, result = .error (.error (.invalidLength what length))) := by
  have large := le_max_right rootNode (traversal.labelBitmap.length * 64)
  have hb := start_bounded traversal limits rootNode rootBm
  constructor
  · intro walk hr
    exact (bounded_of_reaches large hr hb).path
  · obtain ⟨result, walk, ran, he, hre⟩ := run_bounded large hb (lt_succ_self _)
    exact ⟨_, result, walk, ran, he, hre⟩

/-- The edge of the second node leads back to that node. -/
def selfLoop : DomainSetTraversal where
  leaves := [0]
  labelBitmap := [1]
  labelIndex := DomainSetIndex.new [1]
  labels := [97, 97]
  indexed := rfl

theorem traverseBounded_ends_selfLoop :
    (selfLoop.start 0 1 []).current.length = (selfLoop.start 0 1 []).stack.length - 1 ∧
    ∃ fuel result walk, selfLoop.traverseBounded ⟨3, 100, 4⟩ fuel 0 1 [] = some (result, walk) ∧
      walk.emitted.length ≤ 4 ∧
      (result = .ok () ∨ ∃ what length, result = .error (.error (.invalidLength what length))) :=
  ⟨(traverseBounded_ends selfLoop ⟨3, 100, 4⟩ 0 1).1 _ Relation.ReflTransGen.refl (by decide),
    (traverseBounded_ends selfLoop ⟨3, 100, 4⟩ 0 1).2⟩

end Bounds

end DomainSetTraversal

end MeowRs.DomainSet
