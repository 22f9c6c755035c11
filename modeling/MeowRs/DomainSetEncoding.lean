import MeowRs.DomainSetDecoding

/-!
# The level-order encoder of domain sets

The keys are sorted, so the keys below a node of their trie are a range of the list.  The encoder
works through a queue of such ranges: it sets the leaf bit if the first key of a range ends at the
node, cuts the rest into runs with one next byte each, and writes a label and a zero for each run
and a one behind them.
-/

namespace MeowRs.DomainSet

open List Option

open RankSelect (bitAt Packs)
open Louds (edges bits)

/-- The keys from `start` up to `stop` share their first `col` bytes. -/
structure KeyRange where
  start : Nat
  stop : Nat
  col : Nat
  deriving Repr, DecidableEq

structure Encoder where
  leaves : List (BitVec 64)
  labelBitmap : List (BitVec 64)
  labels : List UInt8
  labelIdx : Nat
  queue : List KeyRange

def setBit (bits : List (BitVec 64)) (idx : Nat) (value : Bool) : List (BitVec 64) :=
  let word := idx / 64
  let bits := bits ++ replicate (word + 1 - bits.length) 0
  if value then bits.modify word (· ||| BitVec.ofNat 64 1 <<< (idx % 64)) else bits

/-- Where a run of keys with the same next byte ends, `count` keys on at most. -/
def runEnd (keys : List (List UInt8)) (col : Nat) (label : UInt8) : Nat → Nat → Option Nat
  | 0, j => some j
  | count + 1, j => do
      let key ← keys[j]?
      let byte ← key[col]?
      if byte = label then runEnd keys col label count (j + 1) else some j

def Encoder.pushEdge (encoder : Encoder) (label : UInt8) (range : KeyRange) : Encoder :=
  { encoder with
    queue := encoder.queue ++ [range]
    labels := encoder.labels ++ [label]
    labelBitmap := setBit encoder.labelBitmap encoder.labelIdx false
    labelIdx := encoder.labelIdx + 1 }

/-- The runs from `j` up to `stop`; `none` is an index out of range, or that `fuel` is spent. -/
def Encoder.pushEdges (keys : List (List UInt8)) (stop col : Nat) :
    Nat → Nat → Encoder → Option Encoder
  | 0, j, encoder => if j < stop then none else some encoder
  | fuel + 1, j, encoder =>
    if j < stop then do
      let key ← keys[j]?
      let label ← key[col]?
      let next ← runEnd keys col label (stop - j) j
      pushEdges keys stop col fuel next (encoder.pushEdge label ⟨j, next, col + 1⟩)
    else some encoder

def Encoder.visit (keys : List (List UInt8)) (idx : Nat) (encoder : Encoder) : Option Encoder := do
  let range ← encoder.queue[idx]?
  let first ← keys[range.start]?
  let isLeaf := range.col == first.length
  let start := if isLeaf then range.start + 1 else range.start
  let leaves := if isLeaf then setBit encoder.leaves idx true else encoder.leaves
  let encoder ← pushEdges keys range.stop range.col (range.stop - start) start
    { encoder with leaves := leaves }
  return { encoder with
    labelBitmap := setBit encoder.labelBitmap encoder.labelIdx true
    labelIdx := encoder.labelIdx + 1 }

def Encoder.loop (keys : List (List UInt8)) : Nat → Nat → Encoder → Option Encoder
  | 0, _, _ => none
  | fuel + 1, idx, encoder =>
    if idx < encoder.queue.length then
      (encoder.visit keys idx).bind (loop keys fuel (idx + 1))
    else some encoder

def Encoder.traversal (encoder : Encoder) : DomainSetTraversal where
  leaves := encoder.leaves
  labelBitmap := encoder.labelBitmap
  labelIndex := DomainSetIndex.new encoder.labelBitmap
  labels := encoder.labels
  indexed := rfl

def sortKeys (keys : List (List UInt8)) : List (List UInt8) :=
  keys.mergeSort fun first second => decide (first ≤ second)

/-- A trie has no more nodes than its keys have bytes, apart from the root. -/
def encodeDomainSetKeys (keys : List (List UInt8)) : Option Encoder :=
  Encoder.loop (sortKeys keys) ((keys.map List.length).sum + 2) 0
    { leaves := [], labelBitmap := [], labels := [], labelIdx := 0, queue := [⟨0, keys.length, 0⟩] }

section Bits

theorem bitAt_append_zeros (ws : List (BitVec 64)) (n pos : Nat) :
    bitAt (ws ++ replicate n 0) pos = bitAt ws pos := by
  rw [bitAt, bitAt]
  rcases lt_or_ge (pos / 64) ws.length with pre | after
  · rw [getElem?_append_left pre]
  · rw [getElem?_append_right after, getElem?_eq_none after, getElem?_replicate]
    split
    · simp
    · rfl

theorem bitAt_setBit (ws : List (BitVec 64)) (idx : Nat) (v : Bool) (pos : Nat) :
    bitAt (setBit ws idx v) pos =
      (bitAt ws pos || (v && decide (pos = idx))) := by
  rw [← bitAt_append_zeros ws (idx / 64 + 1 - ws.length), setBit]
  cases v with
  | false => simp
  | true =>
    have hi :
        idx / 64 < (ws ++ replicate (idx / 64 + 1 - ws.length) 0).length := by
      simp
      omega
    generalize ws ++ replicate (idx / 64 + 1 - ws.length) 0 = resized at hi
    rw [if_pos rfl, Bool.true_and, bitAt, bitAt, getElem?_modify]
    by_cases same : idx / 64 = pos / 64
    · rw [← same, List.getElem?_eq_getElem hi]
      simp only [if_pos, Option.map_eq_map, Option.map_some, Option.any_some, BitVec.getLsbD_or,
        ← BitVec.twoPow_eq, BitVec.getLsbD_twoPow, ← Bool.decide_and]
      congr 2
      rw [eq_iff_iff]
      omega
    · have o : pos ≠ idx := by rintro rfl; exact same rfl
      cases resized[pos / 64]? <;> simp [same, o]

theorem lt_length_setBit (ws : List (BitVec 64)) (idx : Nat) (v : Bool) :
    idx < (setBit ws idx v).length * 64 := by
  have hl : (setBit ws idx v).length =
      ws.length + (idx / 64 + 1 - ws.length) := by
    cases v <;> simp [setBit]
  omega

theorem packs_setBit {ws : List (BitVec 64)} {bits : List Bool} (hp : Packs ws bits)
    (v : Bool) : Packs (setBit ws bits.length v) (bits ++ [v]) where
  bitAt_eq pos := by
    rw [bitAt_setBit, hp.bitAt_eq]
    rcases Nat.lt_trichotomy pos bits.length with pre | rfl | after
    · rw [getElem?_append_left pre, decide_eq_false pre.ne, Bool.and_false, Bool.or_false]
    · simp
    · rw [getElem?_eq_none (by omega), getElem?_eq_none (by simp; omega),
        decide_eq_false after.ne', Bool.and_false]
      rfl
  length_le := by
    rw [length_append, length_singleton]
    exact lt_length_setBit ws bits.length v

end Bits

section Runs

variable (keys : List (List UInt8))
  {pre mid after : List (List UInt8)} {r : KeyRange} {run : UInt8 × KeyRange}

def slice (range : KeyRange) : List (List UInt8) :=
  (keys.drop range.start).take (range.stop - range.start)

/-- The labels and ranges of the runs from `j` up to `stop`. -/
def edgesFrom (stop col : Nat) : Nat → Nat → Option (List (UInt8 × KeyRange))
  | 0, j => if j < stop then none else some []
  | fuel + 1, j =>
    if j < stop then do
      let key ← keys[j]?
      let label ← key[col]?
      let next ← runEnd keys col label (stop - j) j
      let rest ← edgesFrom stop col fuel next
      return (label, ⟨j, next, col + 1⟩) :: rest
    else some []

def terminal (range : KeyRange) : Bool :=
  (keys[range.start]?).any fun first => range.col == first.length

def runsStart (range : KeyRange) : Nat :=
  if terminal keys range then range.start + 1 else range.start

def kids (range : KeyRange) : List (UInt8 × KeyRange) :=
  (edgesFrom keys range.stop range.col (range.stop - runsStart keys range)
    (runsStart keys range)).getD []

def Encoder.pushAll (encoder : Encoder) (runs : List (UInt8 × KeyRange)) : Encoder :=
  runs.foldl (fun encoder run => encoder.pushEdge run.1 run.2) encoder

variable {keys}

theorem pushEdges_eq (stop col fuel j : Nat) (enc : Encoder) :
    Encoder.pushEdges keys stop col fuel j enc =
      (edgesFrom keys stop col fuel j).map enc.pushAll := by
  induction fuel generalizing j enc with rw [Encoder.pushEdges, edgesFrom]
  | zero =>
    split <;> rfl
  | succ fuel ih =>
    split
    · simp only [ih, Option.map_bind, Option.bind_eq_bind, Option.pure_def]
      congr 1
      funext key
      dsimp only [Function.comp]
      rw [Option.map_bind]
      congr 1
      funext label
      dsimp only [Function.comp]
      rw [map_bind]
      congr 1
      funext next
      dsimp only [Function.comp]
      cases edgesFrom keys stop col fuel next <;> rfl
    · rfl

theorem slice_of_append (hsp : keys = pre ++ mid ++ after) (col : Nat) :
    slice keys ⟨pre.length, pre.length + mid.length, col⟩ = mid := by
  rw [slice, hsp, append_assoc, drop_left, add_tsub_cancel_left, take_left]

theorem runEnd_eq {col : Nat} (l : UInt8)
    (hsp : keys = pre ++ mid ++ after) (hl : ∀ key ∈ mid, col < key.length) :
    ∃ run rest, mid = run ++ rest ∧ (∀ key ∈ run, key[col]? = some l) ∧
      (∀ key ∈ mid.head?, key[col]? = some l → run ≠ []) ∧
      runEnd keys col l mid.length pre.length = some (pre.length + run.length) := by
  induction mid generalizing pre with
  | nil => exact ⟨[], [], rfl, by simp, by simp, rfl⟩
  | cons key mid ih =>
    have hk : keys[pre.length]? = some key := by
      rw [hsp, append_assoc, getElem?_append_right (le_refl _), tsub_self]
      rfl
    obtain ⟨b, hc⟩ : ∃ b, key[col]? = some b := ⟨_, getElem?_eq_getElem (hl key mem_cons_self)⟩
    rw [length_cons, runEnd, hk]
    simp only [bind_eq_bind, bind_some, hc]
    by_cases same : b = l
    · subst same
      have hsh : keys = (pre ++ [key]) ++ mid ++ after := by
        rw [hsp, append_cons, append_assoc, append_assoc]
      obtain ⟨run, rest, cut, hla, _, he⟩ := ih hsh fun o hm => hl o (mem_cons_of_mem _ hm)
      refine ⟨key :: run, rest, by rw [cut, cons_append], ?_, ?_, ?_⟩
      · intro o hm
        rcases mem_cons.mp hm with rfl | hm
        · exact hc
        · exact hla o hm
      · exact fun _ _ _ => cons_ne_nil _ _
      · have snoc : (pre ++ [key]).length = pre.length + 1 := length_append
        rw [if_pos rfl, ← snoc, he, snoc, length_cons, add_assoc, add_comm 1]
    · rw [if_neg same]
      refine ⟨[], key :: mid, rfl, by simp, ?_, rfl⟩
      intro o hm hla
      obtain rfl : key = o := by simpa using hm
      rw [hc] at hla
      exact absurd (some.inj hla) same

def Cuts (keys : List (List UInt8)) (range : KeyRange) : Prop :=
  ∃ before after, keys = before ++ slice keys range ++ after ∧ range.start = before.length ∧
    range.stop = before.length + (slice keys range).length

/-- A run: a non-empty range of keys that go on with the label. -/
structure IsRun (keys : List (List UInt8)) (col : Nat) (run : UInt8 × KeyRange) : Prop where
  cuts : Cuts keys run.2
  col_eq : run.2.col = col + 1
  nonempty : slice keys run.2 ≠ []
  labelled : ∀ key ∈ slice keys run.2, key[col]? = some run.1

theorem isRun_of_append {col : Nat} {l : UInt8} {pre run after : List (List UInt8)}
    (hsp : keys = pre ++ run ++ after) (ne : run ≠ []) (hl : ∀ key ∈ run, key[col]? = some l) :
    IsRun keys col (l, ⟨pre.length, pre.length + run.length, col + 1⟩) := by
  have hsl := slice_of_append hsp (col + 1)
  refine ⟨⟨pre, after, ?_, rfl, ?_⟩, rfl, ?_, ?_⟩
  all_goals rw [hsl]
  · exact hsp
  · exact ne
  · exact hl

theorem edgesFrom_eq {col fuel : Nat} (hsp : keys = pre ++ mid ++ after)
    (long : ∀ key ∈ mid, col < key.length) (he : mid.length ≤ fuel) :
    ∃ runs, edgesFrom keys (pre.length + mid.length) col fuel pre.length = some runs ∧
      mid = runs.flatMap (fun run => slice keys run.2) ∧ ∀ run ∈ runs, IsRun keys col run := by
  induction fuel generalizing pre mid with
  | zero =>
    obtain rfl : mid = [] := length_eq_zero_iff.mp (Nat.le_zero.mp he)
    exact ⟨[], by rw [edgesFrom, if_neg (by simp)], rfl, by simp⟩
  | succ fuel ih =>
    cases mid with
    | nil => exact ⟨[], by rw [edgesFrom, if_neg (by simp)], rfl, by simp⟩
    | cons key mid =>
      have hk : keys[pre.length]? = some key := by
        rw [hsp, append_assoc, getElem?_append_right (le_refl _), tsub_self]
        rfl
      obtain ⟨l, hc⟩ : ∃ l, key[col]? = some l := ⟨_, getElem?_eq_getElem (long key mem_cons_self)⟩
      obtain ⟨run, rest, cut, hl, hst, hen⟩ := runEnd_eq l hsp long
      have ne : run ≠ [] := hst key (by simp) hc
      have hr : keys = pre ++ run ++ (rest ++ after) := by
        rw [hsp, cut]
        simp
      have hrs : keys = (pre ++ run) ++ rest ++ after := by
        rw [hsp, cut]
        simp
      have hsh : rest.length ≤ fuel := by
        have := congrArg List.length cut
        have := length_pos_iff.mpr ne
        rw [length_append] at *
        omega
      obtain ⟨runs, hi, hco, ha⟩ := ih hrs
        (fun o hm => long o (by rw [cut]; exact mem_append_right _ hm))
        hsh
      rw [length_append, add_assoc, ← length_append, ← cut] at hi
      refine ⟨_ :: runs, ?_, ?_, forall_mem_cons.mpr ⟨isRun_of_append hr ne hl, ha⟩⟩
      · rw [edgesFrom, if_pos (by simp), hk]
        simp only [Option.bind_eq_bind, Option.bind_some, hc, add_tsub_cancel_left, hen,
          hi, Option.pure_def]
      · rw [flatMap_cons, ← hco, cut]
        congr 1
        exact (slice_of_append hr (col + 1)).symm

/-- The keys of a range go on from one path of `col` bytes. -/
structure Sound (keys : List (List UInt8)) (range : KeyRange) : Prop where
  cuts : Cuts keys range
  nonempty : slice keys range ≠ []
  path : ∃ path, path.length = range.col ∧ ∀ key ∈ slice keys range, path <+: key

def Increasing (keys : List (List UInt8)) : Prop :=
  keys.Pairwise (· < ·)

theorem lt_length_of_lt {path fst key : List UInt8} (hf : path <+: fst)
    (hk : path <+: key) (hl : fst < key) : path.length < key.length := by
  obtain ⟨firstSuffix, rfl⟩ := hf
  obtain ⟨suffix, rfl⟩ := hk
  cases suffix with
  | cons b suffix => simp
  | nil =>
    rw [append_nil] at hl
    cases firstSuffix with
    | nil =>
      rw [List.append_nil] at hl
      exact absurd hl (List.lt_irrefl path)
    | cons b suffix =>
      have hg : path ++ [] < path ++ b :: suffix := append_left_lt (nil_lt_cons b suffix)
      rw [List.append_nil] at hg
      exact absurd hl (List.lt_asymm hg)

/-- What is left of the keys of a range behind their shared path. -/
def spell (keys : List (List UInt8)) (range : KeyRange) : List (List UInt8) :=
  (slice keys range).map (List.drop range.col)

theorem IsRun.map_drop {col : Nat} (hr : IsRun keys col run) :
    (slice keys run.2).map (List.drop col) = (spell keys run.2).map (run.1 :: ·) := by
  rw [spell, List.map_map, hr.col_eq]
  apply map_congr_left
  intro key hm
  obtain ⟨hi, hc⟩ := List.getElem?_eq_some_iff.mp (hr.labelled key hm)
  rw [drop_eq_getElem_cons hi, hc]
  rfl

def height (keys : List (List UInt8)) (range : KeyRange) : Nat :=
  ((spell keys range).map List.length).sum + 1

theorem sum_height_le {runs : List (UInt8 × KeyRange)} (ne : ∀ run ∈ runs, spell keys run.2 ≠ []) :
    (runs.map fun run => height keys run.2).sum ≤
      ((spellEdges (spell keys) runs).map List.length).sum := by
  induction runs with
  | nil => exact le_refl 0
  | cons run runs ih =>
    have hl (l : UInt8) (suffixes : List (List UInt8)) :
        ((suffixes.map (l :: ·)).map List.length).sum =
          (suffixes.map List.length).sum + suffixes.length := by
      induction suffixes with
      | nil => rfl
      | cons suffix suffixes ih =>
        simp only [map_cons, sum_cons, length_cons, ih]
        omega
    have hf := length_pos_iff.mpr (ne run mem_cons_self)
    have hr := ih fun o hm => ne o (mem_cons_of_mem _ hm)
    rw [map_cons, sum_cons, spellEdges, flatMap_cons, ← spellEdges,
      map_append, sum_append, hl, height]
    omega

variable (inc : Increasing keys)
include inc

variable (hs : Sound keys r)
include hs

theorem Sound.exists_own :
    ∃ own mid, slice keys r = own ++ mid ∧ own.length = (if terminal keys r then 1 else 0) ∧
      (∀ key ∈ own, key.length = r.col) ∧ ∀ key ∈ mid, r.col < key.length := by
  obtain ⟨⟨pre, after, hsp, hsta, _⟩, ne, path, hp, sh⟩ := hs
  obtain ⟨fst, os, slice_eq⟩ := exists_cons_of_ne_nil ne
  rw [slice_eq] at hsp sh
  have hst : keys[r.start]? = some fst := by
    rw [hsta, hsp, append_assoc, getElem?_append_right (le_refl _), tsub_self]
    rfl
  have ord : (fst :: os).Pairwise (· < ·) := by
    have hsu : (fst :: os).Sublist keys := by
      rw [hsp]
      exact (sublist_append_right _ _).trans (sublist_append_left _ _)
    exact inc.sublist hsu
  have ho : ∀ key ∈ os, r.col < key.length := by
    intro key hm
    rw [← hp]
    exact lt_length_of_lt (sh fst mem_cons_self)
      (sh key (mem_cons_of_mem _ hm)) (rel_of_pairwise_cons ord hm)
  have terminal_eq : terminal keys r = (r.col == fst.length) := by
    rw [terminal, hst, any_some]
  rw [terminal_eq, slice_eq]
  by_cases he : r.col = fst.length
  · refine ⟨[fst], os, rfl, by simp [he], ?_, ho⟩
    intro key hm
    rw [mem_singleton.mp hm, he]
  · refine ⟨[], fst :: os, rfl, by simp [he], by simp, ?_⟩
    have hf : r.col < fst.length := by
      have := (sh fst mem_cons_self).length_le
      omega
    exact forall_mem_cons.mpr ⟨hf, ho⟩

theorem Sound.kids_eq :
    edgesFrom keys r.stop r.col (r.stop - runsStart keys r)
        (runsStart keys r) = some (kids keys r) ∧
      (∃ own, own.length = (if terminal keys r then 1 else 0) ∧
        (∀ key ∈ own, key.length = r.col) ∧
        slice keys r = own ++ (kids keys r).flatMap fun run => slice keys run.2) ∧
      ∀ run ∈ kids keys r, IsRun keys r.col run := by
  obtain ⟨own, mid, slice_eq, ownLength, ownEnds, long⟩ := hs.exists_own inc
  obtain ⟨pre, after, split, start, stop⟩ := hs.cuts
  have runsSplit : keys = (pre ++ own) ++ mid ++ after := by
    rw [split, slice_eq]
    simp
  have runsAt : runsStart keys r = (pre ++ own).length := by
    rw [runsStart, length_append, ownLength, start]
    split <;> rfl
  have stopAt : r.stop = (pre ++ own).length + mid.length := by
    rw [stop, slice_eq, length_append, length_append, add_assoc]
  obtain ⟨runs, hit, covers, areRuns⟩ := edgesFrom_eq runsSplit long
    (by omega : mid.length ≤ r.stop - runsStart keys r)
  rw [← stopAt, ← runsAt] at hit
  have kids_eq : kids keys r = runs := by
    rw [kids, hit, getD_some]
  rw [kids_eq]
  exact ⟨hit, ⟨own, ownLength, ownEnds, by rw [slice_eq, covers]⟩, areRuns⟩

theorem Sound.kid (hm : run ∈ kids keys r) : Sound keys run.2 := by
  obtain ⟨_, ⟨own, _, _, slice_eq⟩, hru⟩ := hs.kids_eq inc
  obtain ⟨hc, col_eq, ne, hl⟩ := hru run hm
  obtain ⟨path, hp, sh⟩ := hs.path
  refine ⟨hc, ne, path ++ [run.1], ?_, ?_⟩
  · rw [length_append, length_singleton, hp, col_eq]
  · intro key hk
    have hr : key ∈ slice keys r := by
      rw [slice_eq]
      exact mem_append_right _ (mem_flatMap.mpr ⟨run, hm, hk⟩)
    obtain ⟨suffix, rfl⟩ := sh key hr
    have hn := hl _ hk
    rw [getElem?_append_right hp.le, hp, tsub_self] at hn
    cases suffix with
    | nil => cases hn
    | cons b suffix =>
      obtain rfl : b = run.1 := by simpa using hn
      exact ⟨suffix, by simp⟩

theorem Sound.spell_eq :
    spell keys r =
      (if terminal keys r then [[]] else []) ++ spellEdges (spell keys) (kids keys r) := by
  obtain ⟨_, ⟨own, hol, ho, slice_eq⟩, hr⟩ := hs.kids_eq inc
  rw [spell, slice_eq, map_append]
  congr 1
  · have hd : own.map (List.drop r.col) = replicate own.length [] := by
      rw [eq_replicate_iff]
      refine ⟨length_map _, fun suffix hm => ?_⟩
      obtain ⟨key, hk, rfl⟩ := mem_map.mp hm
      exact drop_eq_nil_of_le (ho key hk).le
    rw [hd, hol]
    split <;> rfl
  · rw [spellEdges, map_flatMap]
    exact flatMap_congr fun run hm => (hr run hm).map_drop

theorem Sound.sum_height_lt :
    ((kids keys r).map fun run => height keys run.2).sum < height keys r := by
  have ne : ∀ run ∈ kids keys r, spell keys run.2 ≠ [] := by
    intro run hm he
    exact (hs.kid inc hm).nonempty (map_eq_nil_iff.mp he)
  have hb := sum_height_le ne
  rw [height, hs.spell_eq inc, map_append, sum_append]
  omega

end Runs

section Encoding

variable {keys : List (List UInt8)} {enc : Encoder} {root : KeyRange} {r : KeyRange}
  {idx : Nat}

/-- What the arrays hold when the first `idx` ranges of the queue have been visited. -/
structure Encodes (keys : List (List UInt8)) (root : KeyRange) (idx : Nat) (encoder : Encoder) :
    Prop where
  queue_eq : encoder.queue =
    root :: (edges (kids keys) (encoder.queue.take idx)).map Prod.snd
  labels_eq : encoder.labels = (edges (kids keys) (encoder.queue.take idx)).map Prod.fst
  bitmap : Packs encoder.labelBitmap (bits (kids keys) (encoder.queue.take idx))
  labelIdx_eq : encoder.labelIdx = (bits (kids keys) (encoder.queue.take idx)).length
  leaves : ∀ index, bitAt encoder.leaves index =
    ((encoder.queue.take idx)[index]?).any (terminal keys)
  sound : ∀ range ∈ encoder.queue, Sound keys range

theorem pushAll_eq (runs : List (UInt8 × KeyRange)) (enc : Encoder) {written : List Bool}
    (hb : Packs enc.labelBitmap written) (hl : enc.labelIdx = written.length) :
    (enc.pushAll runs).queue = enc.queue ++ runs.map Prod.snd ∧
      (enc.pushAll runs).labels = enc.labels ++ runs.map Prod.fst ∧
      (enc.pushAll runs).leaves = enc.leaves ∧
      Packs (enc.pushAll runs).labelBitmap (written ++ replicate runs.length false) ∧
      (enc.pushAll runs).labelIdx = (written ++ replicate runs.length false).length := by
  induction runs generalizing enc written with
  | nil => simpa [Encoder.pushAll] using ⟨hb, hl⟩
  | cons run runs ih =>
    have hp : Packs (enc.pushEdge run.1 run.2).labelBitmap (written ++ [false]) := by
      rw [Encoder.pushEdge, hl]
      exact packs_setBit hb false
    obtain ⟨q, ls, hle, hb, hl⟩ := ih (enc.pushEdge run.1 run.2) hp
      (by rw [Encoder.pushEdge, hl, length_append, length_singleton])
    have hz : written ++ [false] ++ replicate runs.length false =
        written ++ replicate (run :: runs).length false := by
      rw [append_assoc, length_cons, replicate_succ, singleton_append]
    rw [hz] at hb hl
    refine ⟨?_, ?_, hle, hb, hl⟩
    · simpa [Encoder.pushAll, Encoder.pushEdge] using q
    · simpa [Encoder.pushAll, Encoder.pushEdge] using ls

theorem Encodes.leaves_snoc (he : Encodes keys root idx enc)
    (hi : idx < enc.queue.length) (i : Nat) :
    bitAt (if terminal keys r then setBit enc.leaves idx true else enc.leaves) i =
    ((enc.queue.take idx ++ [r])[i]?).any (terminal keys) := by
  have hl : (enc.queue.take idx).length = idx := length_take_of_le hi.le
  have set : bitAt (if terminal keys r then setBit enc.leaves idx true
      else enc.leaves) i =
        (bitAt enc.leaves i || (terminal keys r && decide (i = idx))) := by
    cases terminal keys r with
    | false => simp
    | true => rw [if_pos rfl, bitAt_setBit]
  rw [set, he.leaves]
  rcases Nat.lt_trichotomy i idx with pre | rfl | after
  · rw [getElem?_append_left (by omega), decide_eq_false pre.ne, Bool.and_false, Bool.or_false]
  · rw [getElem?_eq_none hl.le, getElem?_append_right hl.le, hl, tsub_self]
    simp
  · rw [getElem?_eq_none (by omega), getElem?_eq_none (by simp; omega), decide_eq_false after.ne']
    simp

/-- The leaf bit and the edges of a node, before its last bit. -/
def Encoder.edged (encoder : Encoder) (keys : List (List UInt8)) (idx : Nat) (range : KeyRange) :
    Encoder :=
  { encoder with
    leaves := if terminal keys range then setBit encoder.leaves idx true
      else encoder.leaves }.pushAll (kids keys range)

theorem Encodes.stores (he : Encodes keys root enc.queue.length enc) :
    Stores enc.traversal (kids keys) (terminal keys) root enc.queue := by
  obtain ⟨q, ls, hb, _, hl, _⟩ := he
  rw [take_length] at q ls hb
  simp only [take_length] at hl
  exact ⟨⟨q⟩, hb, ls, hl⟩

variable (inc : Increasing keys)
include inc

theorem visit_eq (hi : enc.queue[idx]? = some r) (hs : Sound keys r) :
    enc.visit keys idx =
      some { enc.edged keys idx r with
        labelBitmap := setBit (enc.edged keys idx r).labelBitmap
          (enc.edged keys idx r).labelIdx true
        labelIdx := (enc.edged keys idx r).labelIdx + 1 } := by
  have runs := (hs.kids_eq inc).1
  obtain ⟨⟨pre, after, hsp, start, _⟩, ne, _⟩ := hs
  obtain ⟨fst, os, slice_eq⟩ := exists_cons_of_ne_nil ne
  have hst : keys[r.start]? = some fst := by
    rw [start, hsp, slice_eq, append_assoc, getElem?_append_right (le_refl _), tsub_self]
    rfl
  have isLeaf : (r.col == fst.length) = terminal keys r := by
    rw [terminal, hst, any_some]
  rw [runsStart] at runs
  simp only [Encoder.visit, hi, Option.bind_eq_bind, Option.bind_some, hst, isLeaf,
    pushEdges_eq, runs, Option.map_some, Option.pure_def]
  rfl

theorem Encodes.visit (he : Encodes keys root idx enc) (hi : enc.queue[idx]? = some r) :
    ∃ visited, enc.visit keys idx = some visited ∧ Encodes keys root (idx + 1) visited ∧
      visited.queue = enc.queue ++ (kids keys r).map Prod.snd := by
  obtain ⟨hin, _⟩ := List.getElem?_eq_some_iff.mp hi
  have hs := he.sound r (mem_of_getElem? hi)
  obtain ⟨q, ls, hle, hb, hl⟩ := pushAll_eq (kids keys r)
    { enc with
      leaves := if terminal keys r then setBit enc.leaves idx true else enc.leaves }
    he.bitmap he.labelIdx_eq
  refine ⟨_, visit_eq inc hi hs, ?_, q⟩
  have ht : ((enc.edged keys idx r).queue).take (idx + 1) =
      enc.queue.take idx ++ [r] := by
    rw [Encoder.edged, q, take_append_of_le_length hin, take_add_one, hi]
    rfl
  have bits_snoc : bits (kids keys) (enc.queue.take idx ++ [r]) =
      bits (kids keys) (enc.queue.take idx) ++
        replicate (kids keys r).length false ++ [true] := by
    rw [Louds.bits_append, Louds.bits_cons, append_assoc]
    rfl
  have edges_snoc : edges (kids keys) (enc.queue.take idx ++ [r]) =
      edges (kids keys) (enc.queue.take idx) ++ kids keys r := by
    rw [Louds.edges_append, Louds.edges_cons]
    exact congrArg _ (append_nil _)
  constructor
  · rw [ht, edges_snoc, Encoder.edged, q, map_append, ← cons_append, ← he.queue_eq]
  · rw [ht, edges_snoc, Encoder.edged, ls, map_append, ← he.labels_eq]
  · rw [ht, bits_snoc, Encoder.edged, hl]
    exact packs_setBit hb true
  · rw [ht, bits_snoc, Encoder.edged, hl]
    exact (@length_append _ _ [true]).symm
  · intro i
    rw [ht, Encoder.edged, hle]
    exact he.leaves_snoc hin i
  · intro o hm
    rw [Encoder.edged, q] at hm
    rcases mem_append.mp hm with hm | hm
    · exact he.sound o hm
    · obtain ⟨run, hr, rfl⟩ := mem_map.mp hm
      exact hs.kid inc hr

/-- The loop visits every range that it queues. -/
theorem Encodes.loop {fuel idx : Nat} (hen : Encodes keys root idx enc)
    (he : ((enc.queue.drop idx).map (height keys)).sum < fuel) :
    ∃ final, enc.loop keys fuel idx = some final ∧
      Encodes keys root final.queue.length final := by
  induction fuel generalizing idx enc with
  | zero => exact absurd he (Nat.not_lt_zero _)
  | succ fuel ih =>
    rw [Encoder.loop]
    split
    · next inside =>
        have hi := getElem?_eq_getElem inside
        obtain ⟨visited, visit_eq, hene, q⟩ := hen.visit inc hi
        have hs := hen.sound _ (mem_of_getElem? hi)
        have less := hs.sum_height_lt inc
        rw [visit_eq, bind_some]
        apply ih hene
        rw [drop_eq_getElem_cons inside, map_cons, sum_cons] at he
        rw [q, List.drop_append_of_le_length (by omega : idx + 1 ≤ enc.queue.length),
          List.map_append, List.sum_append, List.map_map]
        change _ + ((kids keys enc.queue[idx]).map fun run => height keys run.2).sum < fuel
        omega
    · next past =>
        refine ⟨enc, rfl, ?_⟩
        have hw : enc.queue.take enc.queue.length = enc.queue.take idx := by
          rw [take_length, take_of_length_le (not_lt.mp past)]
        obtain ⟨q, ls, hb, hli, hl, hs⟩ := hen
        rw [← hw] at q ls hb hli
        rw [← hw] at hl
        exact ⟨q, ls, hb, hli, hl, hs⟩

theorem Encodes.spells (he : Encodes keys root idx enc) :
    Spells (kids keys) (terminal keys) (spell keys) (height keys) enc.queue where
  spell_eq r hm := (he.sound r hm).spell_eq inc
  nonempty r hm hem :=
    (he.sound r hm).nonempty (map_eq_nil_iff.mp hem)
  lower r hm run hr := by
    have ht := (he.sound r hm).sum_height_lt inc
    have hsi : height keys run.2 ≤ ((kids keys r).map fun o => height keys o.2).sum :=
      single_le_sum (by simp) _ (mem_map_of_mem hr)
    omega

end Encoding

section RoundTrip

variable (keys : List (List UInt8))

theorem sortKeys_perm : (sortKeys keys).Perm keys :=
  mergeSort_perm _ _

theorem increasing_sortKeys {keys : List (List UInt8)} (nd : keys.Nodup) :
    Increasing (sortKeys keys) := by
  have hso : (sortKeys keys).Pairwise fun fst snd => decide (fst ≤ snd) = true :=
    List.pairwise_mergeSort (by simpa using fun _ _ _ => List.le_trans)
      (by simpa using List.le_total) keys
  have hn : (sortKeys keys).Nodup := (sortKeys_perm keys).nodup_iff.mpr nd
  refine (hso.and hn).imp ?_
  rintro fst snd ⟨le, ne⟩
  exact Std.lt_of_le_of_ne (of_decide_eq_true le) ne

theorem encodes_start {keys : List (List UInt8)} (ne : keys ≠ []) :
    Encodes keys ⟨0, keys.length, 0⟩ 0
      { leaves := [], labelBitmap := [], labels := [], labelIdx := 0
        queue := [⟨0, keys.length, 0⟩] } := by
  have ha : slice keys ⟨0, keys.length, 0⟩ = keys := by
    rw [slice, drop_zero, Nat.sub_zero, take_length]
  refine ⟨rfl, rfl, ⟨fun _ => rfl, le_refl 0⟩, rfl, fun _ => rfl, ?_⟩
  intro r hm
  rw [mem_singleton.mp hm]
  refine ⟨⟨[], [], by simp [ha], rfl, by simp [ha]⟩, by rwa [ha], [], rfl, ?_⟩
  exact fun key _ => nil_prefix

theorem encodeDomainSetKeys_nil : encodeDomainSetKeys [] = none := by
  simp [encodeDomainSetKeys, sortKeys, Encoder.loop, Encoder.visit]

theorem spell_root : spell keys ⟨0, keys.length, 0⟩ = keys := by
  rw [spell, slice, drop_zero, Nat.sub_zero, take_length]
  exact map_id' _

theorem exists_encoder {keys : List (List UInt8)} (nd : keys.Nodup) (ne : keys ≠ []) :
    ∃ enc, encodeDomainSetKeys keys = some enc ∧
      Encodes (sortKeys keys) ⟨0, (sortKeys keys).length, 0⟩ enc.queue.length enc := by
  have hp := sortKeys_perm keys
  have hsn : sortKeys keys ≠ [] := by
    intro hem
    rw [hem] at hp
    exact ne (nil_perm.mp hp)
  have hr : height (sortKeys keys) ⟨0, (sortKeys keys).length, 0⟩ =
      (keys.map List.length).sum + 1 := by
    rw [height, spell_root, (hp.map List.length).sum_eq]
  have he : (([⟨0, (sortKeys keys).length, 0⟩] : List KeyRange).map
      (height (sortKeys keys))).sum < (keys.map List.length).sum + 2 := by
    rw [map_singleton, sum_singleton, hr]
    exact Nat.lt_succ_self _
  obtain ⟨enc, hl, hen⟩ := (encodes_start hsn).loop (increasing_sortKeys nd) he
  refine ⟨enc, ?_, hen⟩
  rw [encodeDomainSetKeys, ← hp.length_eq]
  exact hl

/-- The arrays that are written for a set of keys are walked back to these keys. -/
theorem encode_walk (limits : Limits) (distinct : keys.Nodup)
    (entries : keys.length ≤ limits.maxEntries)
    (bytes : (keys.map List.length).sum ≤ limits.maxBytes)
    (depth : ∀ key ∈ keys, key.length < limits.maxDepth) :
    (encodeDomainSetKeys keys = none ↔ keys = []) ∧
    ∀ encoder, encodeDomainSetKeys keys = some encoder →
      ∃ fuel walk, encoder.traversal.traverseBounded limits fuel 0 0 [] = some (.ok (), walk) ∧
        walk.emitted.Perm keys := by
  by_cases hn : keys = []
  · subst hn
    rw [encodeDomainSetKeys_nil]
    exact ⟨⟨fun _ => rfl, fun _ => rfl⟩, fun _ hfo => nomatch hfo⟩
  · have hp := sortKeys_perm keys
    have hi := increasing_sortKeys distinct
    obtain ⟨encoder, he, hen⟩ := exists_encoder distinct hn
    rw [he]
    refine ⟨by simp [hn], fun other hfo => ?_⟩
    obtain rfl : encoder = other := some.inj hfo
    have hf : Fits limits ⟨0, 0, [], [], []⟩
        (spell (sortKeys keys) ⟨0, (sortKeys keys).length, 0⟩) := by
      rw [spell_root]
      refine ⟨?_, ?_, fun key hm => depth key (hp.mem_iff.mp hm)⟩
      · rw [zero_add, hp.length_eq]
        exact entries
      · rw [zero_add, (hp.map List.length).sum_eq]
        exact bytes
    obtain ⟨fuel, walk, hw, hem⟩ := traverseBounded_spell hen.stores (hen.spells hi) hf
    rw [spell_root] at hem
    exact ⟨fuel, walk, hw, hem ▸ hp⟩

/-- A key that is the beginning of another one. -/
theorem encode_walk_nested :
    ∃ encoder fuel walk, encodeDomainSetKeys [[97, 98], [97]] = some encoder ∧
      encoder.traversal.traverseBounded ⟨2, 3, 3⟩ fuel 0 0 [] = some (.ok (), walk) ∧
      walk.emitted.Perm [[97, 98], [97]] := by
  obtain ⟨hm, hw⟩ :=
    encode_walk [[97, 98], [97]] ⟨2, 3, 3⟩ (by decide) (by decide) (by decide) (by decide)
  cases he : encodeDomainSetKeys [[97, 98], [97]] with
  | none => exact absurd (hm.mp he) (by decide)
  | some encoder =>
    obtain ⟨fuel, walk, hwa, hp⟩ := hw encoder he
    exact ⟨encoder, fuel, walk, rfl, hwa, hp⟩

end RoundTrip

end MeowRs.DomainSet
