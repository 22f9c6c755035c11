import MeowRs.FecDraining

/-!
# What the decoder returns

A set of shards is drained when it has as many packets as the generation has data rows, and the
decoder then forgets which packets it saw.  While a set that needs parity is drained only with every
packet of its generation that was fed in it, and two generations whose ids coincide do not share a
set, every blob is a payload that was not received, and a generation of which enough packets arrive
has its missing payloads returned once.
-/

namespace MeowRs.Fec

open List Option Nat

open ActionRuns LittleEndian ShardedMaps

namespace FecDecoder

variable {codecs : ℕ → ℕ → Codec} {codec : Codec} {decoder : FecDecoder} {packet : Bytes}

theorem decode_of_placed (long : fecHeaderSizePlus2 ≤ packet.length)
    (inRange : seqid packet < decoder.shards.paws) (untuned : decoder.shouldTune = false)
    (placed : decoder.misplaced packet = false) :
    ∃ judged : FecDecoder, judged.shards = decoder.shards ∧ judged.shouldTune = false ∧
      judged.shardSet = decoder.shardSet ∧
      decoder.decode codecs packet =
        judged.collect (codecs decoder.shards.data decoder.shards.parity) packet := by
  have known : (decoder.shouldTune || decoder.misplaced packet) = false := by
    rw [untuned, placed]
    rfl
  refine ⟨{ decoder with
    autoTune := decoder.autoTune.sample (flag packet == typeData) (seqid packet)
    shouldTune := decoder.shouldTune || decoder.misplaced packet }, rfl, known, rfl, ?_⟩
  rw [decode, if_neg (not_lt_of_ge long)]
  simp only [if_neg (not_le_of_gt inRange)]
  exact if_neg (Bool.eq_false_iff.mp known)

def shardOf (decoder : FecDecoder) (packet : Bytes) : ShardSet :=
  (decoder.shardSet.lookup (seqid packet / decoder.shards.size)).getD .empty

theorem collect_cases (codec : Codec) (decoder : FecDecoder) (packet : Bytes) :
    (seqid packet ∈ (decoder.shardOf packet).seqids ∧
        decoder.collect codec packet = (decoder, [])) ∨
      seqid packet ∉ (decoder.shardOf packet).seqids ∧
        ((decoder.shardOf packet).packets.length + 1 < decoder.shards.data ∧
          decoder.collect codec packet =
            (decoder.store (seqid packet / decoder.shards.size)
              ⟨seqid packet :: (decoder.shardOf packet).seqids,
                (decoder.shardOf packet).packets ++ [packet]⟩, []) ∨
        decoder.shards.data ≤ (decoder.shardOf packet).packets.length + 1 ∧
          decoder.collect codec packet =
            (decoder.store (seqid packet / decoder.shards.size) .empty,
              (Drained.drain decoder.shards.size
                ((decoder.shardOf packet).packets ++ [packet])).recover codec
                  decoder.shards.data)) := by
  have length : ((decoder.shardOf packet).packets ++ [packet]).length =
      (decoder.shardOf packet).packets.length + 1 := by simp
  by_cases seen : seqid packet ∈ (decoder.shardOf packet).seqids
  · exact .inl ⟨seen, if_pos (contains_iff_mem.mpr seen)⟩
  · have fresh := mt contains_iff_mem.mp seen
    refine .inr ⟨seen, ?_⟩
    by_cases full : decoder.shards.data ≤ (decoder.shardOf packet).packets.length + 1
    · exact .inr ⟨full, (if_neg fresh).trans (if_pos (length ▸ full))⟩
    · exact .inl ⟨Nat.lt_of_not_le full, (if_neg fresh).trans (if_neg (length ▸ full))⟩

theorem lookup_store {id key : ℕ} {set found : ShardSet}
    (lookup : (decoder.store id set).shardSet.lookup key = some found) :
    (key = id ∧ found = set) ∨ (key ≠ id ∧ decoder.shardSet.lookup key = some found) :=
  lookup_insert_eq_some (lookup_retain_eq_some.mp lookup).1

end FecDecoder

section Decoding

variable {shards : Shards} {headerOffset : ℕ} {codecs : ℕ → ℕ → Codec}
  {state next : State shards headerOffset} {number : ℕ} {packet : Bytes} {generation : ℕ}
  {set : ShardSet} {blobs : List Bytes} {numbers : List ℕ}

def shardId (shards : Shards) (number : ℕ) : ℕ :=
  number % shards.paws / shards.size

def State.shard (state : State shards headerOffset) (number : ℕ) : ShardSet :=
  (state.decoder.shardSet.lookup (shardId shards number)).getD .empty

/-- The decoder works with the encoder's shard counts. -/
structure Tuned (state : State shards headerOffset) : Prop where
  shards_eq : state.decoder.shards = shards
  untuned : state.decoder.shouldTune = false

/-- What a delivery does to the retained sets: the packet's own set becomes `reached`, and nothing
else changes except that sets are dropped. -/
structure Retains (state next : State shards headerOffset) (number : ℕ) (reached : ShardSet) :
    Prop where
  own : ∀ set, next.decoder.shardSet.lookup (shardId shards number) = some set → set = reached
  others : ∀ id, id ≠ shardId shards number → ∀ set, next.decoder.shardSet.lookup id = some set →
    state.decoder.shardSet.lookup id = some set

/-- The cases of a delivery: a duplicate of a packet held, one more packet, or the last one that a
generation needs. -/
inductive Decodes (codec : Codec) (state next : State shards headerOffset) (number : ℕ)
    (packet : Bytes) : List Bytes → Prop
  | duplicate (seen : number % shards.paws ∈ (state.shard number).seqids)
      (sets : next.decoder.shardSet = state.decoder.shardSet) :
      Decodes codec state next number packet []
  | one (fresh : number % shards.paws ∉ (state.shard number).seqids)
      (few : (state.shard number).packets.length + 1 < shards.data)
      (retains : Retains state next number ⟨number % shards.paws :: (state.shard number).seqids,
        (state.shard number).packets ++ [packet]⟩) :
      Decodes codec state next number packet []
  | last (fresh : number % shards.paws ∉ (state.shard number).seqids)
      (enough : shards.data ≤ (state.shard number).packets.length + 1)
      (retains : Retains state next number .empty) :
      Decodes codec state next number packet
        ((Drained.drain shards.size ((state.shard number).packets ++ [packet])).recover codec
          shards.data)

theorem retains_store {judged : FecDecoder} {log : List (ℕ × List Bytes)}
    (sets : judged.shardSet = state.decoder.shardSet) :
    Retains state { state with decoder := judged.store (shardId shards number) set, log := log }
      number set where
  own found lookup := by
    obtain ⟨_, same⟩ | ⟨other, _⟩ := FecDecoder.lookup_store lookup
    · exact same
    · exact absurd rfl other
  others id elsewhere found lookup := by
    obtain ⟨same, _⟩ | ⟨_, held⟩ := FecDecoder.lookup_store lookup
    · exact absurd same elsewhere
    · rw [← sets]
      exact held

theorem decodes_of_step (sending : Sending (codecs shards.data shards.parity) state)
    (tuned : Tuned state) (stepTo : step codecs state (.deliver number) = some next) :
    ∃ packet blobs, state.sent number = some packet ∧ next.log = (number, blobs) :: state.log ∧
      next.sent = state.sent ∧ next.payloads = state.payloads ∧ Tuned next ∧
      Decodes (codecs shards.data shards.parity) state next number packet blobs := by
  obtain ⟨packet, sent, same⟩ := map_eq_some_iff.mp stepTo
  have id := sending.seqid_eq sent
  have inRange : seqid packet < state.decoder.shards.paws := by
    rw [tuned.shards_eq, id]
    exact mod_lt _ shards.paws_pos
  have placed : state.decoder.misplaced packet = false := by
    rw [FecDecoder.misplaced, tuned.shards_eq, id, shards.mod_paws_mod_size, sending.flag_eq sent]
    split <;> simp
  obtain ⟨judged, sameShards, untuned, sameSets, decoded⟩ :=
    @FecDecoder.decode_of_placed codecs _ _ (sending.length_ge sent) inRange tuned.untuned placed
  rw [tuned.shards_eq] at sameShards decoded
  have key : seqid packet / judged.shards.size = shardId shards number := by
    rw [id, sameShards]
    rfl
  have held : judged.shardOf packet = state.shard number := by
    rw [FecDecoder.shardOf, key, sameSets]
    rfl
  have cases := FecDecoder.collect_cases (codecs shards.data shards.parity) judged packet
  rw [← decoded, held, id, sameShards] at cases
  obtain ⟨seen, whole⟩ | ⟨fresh, ⟨few, whole⟩ | ⟨enough, whole⟩⟩ := cases
  · rw [whole] at same
    cases same
    exact ⟨packet, [], sent, rfl, rfl, rfl, ⟨sameShards, untuned⟩, .duplicate seen sameSets⟩
  · rw [whole] at same
    cases same
    exact ⟨packet, [], sent, rfl, rfl, rfl, ⟨sameShards, untuned⟩,
      .one fresh few (retains_store sameSets)⟩
  · rw [whole] at same
    cases same
    exact ⟨packet, _, sent, rfl, rfl, rfl, ⟨sameShards, untuned⟩,
      .last fresh enough (retains_store sameSets)⟩

def State.latest (state : State shards headerOffset) (id : ℕ) : Option (ℕ × List Bytes) :=
  state.log.find? fun entry => shardId shards entry.1 = id

def received (log : List (ℕ × List Bytes)) : List ℕ :=
  log.map Prod.fst

/-- A packet is fed to a set that holds packets only if the packet fed last under that id is of the
same generation; and the last packet that a set with parity needs is fed only if every packet of its
generation that was fed before is in the set. -/
def Guarded (state : State shards headerOffset) : Action → Prop
  | .encode _ _ _ => True
  | .deliver number =>
    ((state.shard number).packets ≠ [] → ∀ entry ∈ state.latest (shardId shards number),
      entry.1 / shards.size = number / shards.size) ∧
    (number % shards.paws ∉ (state.shard number).seqids →
      (state.shard number).packets.length + 1 = shards.data →
      (∃ packet ∈ (state.sent number).toList ++ (state.shard number).packets,
        flag packet = typeParity) →
      ∀ fed ∈ received state.log, fed / shards.size = number / shards.size →
        ∃ packet ∈ (state.shard number).packets, state.sent fed = some packet)

/-- The packets of a set, by their numbers: all of one generation, the one that was fed last under
the set's id. -/
structure Held (state : State shards headerOffset) (id : ℕ) (set : ShardSet) (generation : ℕ)
    (numbers : List ℕ) : Prop where
  sent : Forall₂ (fun number packet => state.sent number = some packet) numbers set.packets
  seqids : ∀ seq, seq ∈ set.seqids ↔ ∃ number ∈ numbers, number % shards.paws = seq
  nodup : numbers.Nodup
  few : numbers.length < shards.data
  same : ∀ number ∈ numbers, number / shards.size = generation
  received : ∀ number ∈ numbers, number ∈ state.log.map Prod.fst
  latest : numbers ≠ [] → ∃ entry, state.latest id = some entry ∧ entry.1 / shards.size = generation

/-- Every retained set holds packets of one generation. -/
structure Holding (state : State shards headerOffset) : Prop where
  tuned : Tuned state
  sets : ∀ id set, state.decoder.shardSet.lookup id = some set →
    ∃ generation numbers, Held state id set generation numbers

theorem held_empty {id generation : ℕ} : Held state id .empty generation [] where
  sent := .nil
  seqids seq := by simp [ShardSet.empty]
  nodup := nodup_nil
  few := shards.data_pos
  same := nofun
  received := nofun
  latest nonempty := absurd rfl nonempty

theorem Holding.shard (holding : Holding state) (guarded : Guarded state (.deliver number)) :
    ∃ numbers, Held state (shardId shards number) (state.shard number) (number / shards.size)
      numbers := by
  unfold State.shard at *
  cases found : state.decoder.shardSet.lookup (shardId shards number) with
  | none => exact ⟨[], held_empty⟩
  | some set =>
    obtain ⟨generation, numbers, held⟩ := holding.sets _ set found
    cases numbers with
    | nil => exact ⟨[], { held with same := by simp, latest := by simp }⟩
    | cons first rest =>
      obtain ⟨entry, latest, entry_eq⟩ := held.latest (by simp)
      have nonempty : set.packets ≠ [] := by
        intro empty
        have lengths := held.sent.length_eq
        rw [empty] at lengths
        simp at lengths
      have same := guarded.1 (by rw [State.shard, found]; exact nonempty) entry latest
      rw [← entry_eq.symm.trans same]
      exact ⟨_, held⟩

theorem Held.frame {id generation : ℕ}
    (held : Held state id set generation numbers)
    (sent : ∀ number packet, state.sent number = some packet → next.sent number = some packet)
    (log : ∀ entry ∈ state.log, entry ∈ next.log) (latest : next.latest id = state.latest id) :
    Held next id set generation numbers :=
  { held with
    sent := held.sent.imp sent
    received := fun number member => by
      obtain ⟨entry, listed, same⟩ := mem_map.mp (held.received number member)
      exact mem_map.mpr ⟨entry, log entry listed, same⟩
    latest := by
      rw [latest]
      exact held.latest }

theorem latest_of_ne {id : ℕ} (log : next.log = (number, blobs) :: state.log)
    (elsewhere : id ≠ shardId shards number) : next.latest id = state.latest id := by
  rw [State.latest, log, find?_cons_of_neg]
  · rfl
  · simpa using elsewhere.symm

theorem latest_self (log : next.log = (number, blobs) :: state.log) :
    next.latest (shardId shards number) = some (number, blobs) := by
  rw [State.latest, log, find?_cons_of_pos]
  simp

theorem nodup_places (nodup : numbers.Nodup)
    (same : ∀ number ∈ numbers, number / shards.size = generation) :
    (numbers.map (· % shards.size)).Nodup := by
  apply nodup.map_on
  intro first firstMember second secondMember place
  exact eq_of_same_generation ((same first firstMember).trans (same second secondMember).symm) place

theorem Held.mem_of_mod {id generation other : ℕ}
    (held : Held state id set generation numbers) (same : number / shards.size = generation)
    (member : other ∈ numbers) (ids : other % shards.paws = number % shards.paws) :
    number ∈ numbers := by
  have place : other % shards.size = number % shards.size := by
    rw [← shards.mod_paws_mod_size other, ids, shards.mod_paws_mod_size]
  rw [← eq_of_same_generation ((held.same other member).trans same.symm) place]
  exact member

section

variable {numbers : List ℕ}
  (held : Held state (shardId shards number) set (number / shards.size) numbers)
  (sent : state.sent number = some packet) (fresh : number % shards.paws ∉ set.seqids)
include held fresh

theorem Held.grows :
    (numbers ++ [number]).Nodup ∧
      ∀ other ∈ numbers ++ [number], other / shards.size = number / shards.size := by
  constructor
  · apply nodup_append.mpr
    refine ⟨held.nodup, nodup_singleton _, ?_⟩
    rintro other member _ here rfl
    cases mem_singleton.mp here
    exact fresh ((held.seqids _).mpr ⟨number, member, rfl⟩)
  · intro other member
    obtain member | here := mem_append.mp member
    · exact held.same other member
    · rw [mem_singleton.mp here]

include sent

theorem Held.push (log : next.log = (number, blobs) :: state.log)
    (unchanged : next.sent = state.sent) (room : set.packets.length + 1 < shards.data) :
    Held next (shardId shards number)
      ⟨number % shards.paws :: set.seqids, set.packets ++ [packet]⟩ (number / shards.size)
      (numbers ++ [number]) where
  sent := by
    rw [unchanged]
    exact rel_append held.sent (.cons sent .nil)
  seqids seq := by
    rw [mem_cons, held.seqids]
    constructor
    · rintro (rfl | ⟨other, member, here⟩)
      · exact ⟨number, by simp, rfl⟩
      · exact ⟨other, mem_append_left _ member, here⟩
    · rintro ⟨other, member, here⟩
      obtain member | same := mem_append.mp member
      · exact .inr ⟨other, member, here⟩
      · cases mem_singleton.mp same
        exact .inl here.symm
  nodup := (held.grows fresh).1
  few := by
    rw [length_append, length_singleton, held.sent.length_eq]
    exact room
  same := (held.grows fresh).2
  received other member := by
    rw [log, map_cons]
    obtain member | same := mem_append.mp member
    · exact mem_cons_of_mem _ (held.received other member)
    · cases mem_singleton.mp same
      exact mem_cons_self
  latest _ := ⟨_, latest_self log, rfl⟩

theorem Held.gathers (sending : Sending (codecs shards.data shards.parity) state) :
    Gathers state (numbers ++ [number])
      (Drained.drain shards.size (set.packets ++ [packet])) :=
  gathers_drain sending (rel_append held.sent (.cons sent .nil))
    (nodup_places (held.grows fresh).1 (held.grows fresh).2)

end

theorem exists_right_of_mem {First Second : Type*} {relation : First → Second → Prop}
    {left : List First} {right : List Second} (related : Forall₂ relation left right)
    {entry : First} (member : entry ∈ left) : ∃ other ∈ right, relation entry other := by
  induction related with
  | nil => exact absurd member not_mem_nil
  | cons here _ ih =>
    obtain rfl | member := mem_cons.mp member
    · exact ⟨_, mem_cons_self, here⟩
    · obtain ⟨other, listed, related⟩ := ih member
      exact ⟨other, mem_cons_of_mem _ listed, related⟩

theorem exists_left_of_mem {First Second : Type*} {relation : First → Second → Prop}
    {left : List First} {right : List Second} (related : Forall₂ relation left right)
    {other : Second} (member : other ∈ right) : ∃ entry ∈ left, relation entry other :=
  exists_right_of_mem related.flip member

def dataNumbers (shards : Shards) (generation : ℕ) : List ℕ :=
  (range shards.data).map (generation * shards.size + ·)

theorem mem_dataNumbers {generation other : ℕ} :
    other ∈ dataNumbers shards generation ↔
      other / shards.size = generation ∧ other % shards.size < shards.data := by
  rw [dataNumbers, List.mem_map]
  constructor
  · rintro ⟨place, within, rfl⟩
    have inside : place < shards.size :=
      lt_of_lt_of_le (mem_range.mp within) (le_add_right _ _)
    rw [shards.div_size_add inside, shards.mod_size_add inside]
    exact ⟨rfl, mem_range.mp within⟩
  · rintro ⟨rfl, within⟩
    refine ⟨other % shards.size, mem_range.mpr within, ?_⟩
    exact div_add_mod' _ _

theorem nodup_dataNumbers : (dataNumbers shards generation).Nodup :=
  nodup_range.map fun _ _ same => add_left_cancel same

theorem length_dataNumbers :
    (dataNumbers shards generation).length = shards.data := by
  rw [dataNumbers, length_map, length_range]

theorem missing_eq_nil_iff {numbers : List ℕ} :
    missing shards generation numbers = [] ↔
      ∀ other ∈ dataNumbers shards generation, other ∈ numbers := by
  rw [missing, List.filter_eq_nil_iff]
  simp only [dataNumbers, List.mem_map, List.mem_range, forall_exists_index, and_imp,
    decide_eq_true_eq, not_not]
  constructor
  · rintro all _ place within rfl
    exact all place within
  · intro all place within
    exact all _ place within rfl

theorem missing_congr {first second : List ℕ}
    (same : ∀ other ∈ dataNumbers shards generation, other ∈ first ↔ other ∈ second) :
    missing shards generation first = missing shards generation second := by
  apply filter_congr
  intro place within
  exact decide_eq_decide.mpr (not_congr (same _ (mem_map_of_mem within)))

theorem dataNumbers_subset {numbers : List ℕ} (nodup : numbers.Nodup)
    (same : ∀ other ∈ numbers, other / shards.size = generation)
    (data : ∀ other ∈ numbers, other % shards.size < shards.data)
    (length : numbers.length = shards.data) :
    ∀ other ∈ dataNumbers shards generation, other ∈ numbers := by
  have within : numbers ⊆ dataNumbers shards generation := fun other member =>
    mem_dataNumbers.mpr ⟨same other member, data other member⟩
  have perm := (subperm_of_subset nodup within).perm_of_length_le
    (by rw [length_dataNumbers, length])
  exact fun other member => perm.mem_iff.mpr member

theorem exists_notMem {generation parityNumber : ℕ} {numbers : List ℕ}
    (length : numbers.length = shards.data) (member : parityNumber ∈ numbers)
    (parity : shards.data ≤ parityNumber % shards.size) :
    ∃ other ∈ dataNumbers shards generation, other ∉ numbers := by
  by_contra none
  push Not at none
  have nodup : (parityNumber :: dataNumbers shards generation).Nodup := by
    apply nodup_cons.mpr
    refine ⟨fun data => ?_, nodup_dataNumbers⟩
    have place := (mem_dataNumbers.mp data).2
    omega
  have bound := (subperm_of_subset nodup (cons_subset.mpr ⟨member, none⟩)).length_le
  rw [length_cons, length_dataNumbers, length] at bound
  omega

/-- As many packets of a generation as it has data rows were fed. -/
def Filled (shards : Shards) (generation : ℕ) (fed : List ℕ) : Prop :=
  ∃ numbers : List ℕ, numbers.Nodup ∧ numbers.length = shards.data ∧
    ∀ number ∈ numbers, number / shards.size = generation ∧ number ∈ fed

/-- A generation of which something was returned had been filled. -/
def Spent (shards : Shards) (log : List (ℕ × List Bytes)) : Prop :=
  ∀ entry ∈ log, entry.2 ≠ [] → Filled shards (entry.1 / shards.size) (received log)

theorem Spent.cons {log : List (ℕ × List Bytes)} (spent : Spent shards log)
    (filled : blobs ≠ [] → Filled shards (number / shards.size) (number :: received log)) :
    Spent shards ((number, blobs) :: log) := by
  intro entry member returned
  obtain rfl | before := mem_cons.mp member
  · exact filled returned
  · obtain ⟨numbers, nodup, length, fed⟩ := spent entry before returned
    exact ⟨numbers, nodup, length, fun other isFed =>
      ⟨(fed other isFed).1, mem_cons_of_mem _ (fed other isFed).2⟩⟩

/-- A set that holds every packet of its generation that was fed is the first to be drained. -/
theorem silent_of_held {id generation : ℕ} {numbers : List ℕ}
    (held : Held state id set generation numbers) (spent : Spent shards state.log)
    (allHeld : ∀ fed ∈ received state.log, fed / shards.size = generation → fed ∈ numbers)
    (entry : ℕ × List Bytes) (member : entry ∈ state.log) (same : entry.1 / shards.size = generation) :
    entry.2 = [] := by
  by_contra returned
  obtain ⟨drained, nodup, length, fed⟩ := spent entry member returned
  have inside : drained ⊆ numbers := fun other isFed =>
    allHeld other (fed other isFed).2 ((fed other isFed).1.trans same)
  have bound := (subperm_of_subset nodup inside).length_le
  have few := held.few
  omega

/-- What the last packet of a set brings out are the payloads that were not received.  If there is
parity in the set, nothing came out before, and not all the data was received. -/
theorem recovers_of_last (lawful : (codecs shards.data shards.parity).Lawful shards.data shards.parity)
    (sending : Sending (codecs shards.data shards.parity) state)
    (spent : Spent shards state.log) (guarded : Guarded state (.deliver number)) {numbers : List ℕ}
    (held : Held state (shardId shards number) (state.shard number) (number / shards.size) numbers)
    (sent : state.sent number = some packet)
    (fresh : number % shards.paws ∉ (state.shard number).seqids)
    (enough : shards.data ≤ (state.shard number).packets.length + 1)
    (returned : blobs = (Drained.drain shards.size ((state.shard number).packets ++ [packet])).recover
      (codecs shards.data shards.parity) shards.data) :
    Filled shards (number / shards.size) (number :: received state.log) ∧
      Recovers state (number / shards.size)
        (missing shards (number / shards.size) (number :: received state.log)) blobs ∧
      (blobs = [] ∨
        (∀ entry ∈ state.log, entry.1 / shards.size = number / shards.size → entry.2 = []) ∧
        missing shards (number / shards.size) (received state.log) ≠ []) := by
  obtain ⟨nodup, same⟩ := held.grows fresh
  have gathers := held.gathers sent fresh sending
  have length : (numbers ++ [number]).length = shards.data := by
    have few := held.few
    have lengths := held.sent.length_eq
    rw [length_append, length_singleton]
    omega
  have listed : ∀ other ∈ numbers ++ [number], other ∈ number :: received state.log := by
    intro other member
    obtain member | here := mem_append.mp member
    · exact mem_cons_of_mem _ (held.received other member)
    · rw [mem_singleton.mp here]
      exact mem_cons_self
  refine ⟨⟨_, nodup, length, fun other member => ⟨same other member, listed other member⟩⟩, ?_⟩
  by_cases data : ∀ other ∈ numbers ++ [number], other % shards.size < shards.data
  · have nothing : blobs = [] := by
      rw [returned, gathers.recover_of_data (le_of_eq length.symm) data]
    have none : missing shards (number / shards.size) (number :: received state.log) = [] :=
      missing_eq_nil_iff.mpr fun other member =>
        listed other (dataNumbers_subset nodup same data length other member)
    rw [none, nothing]
    exact ⟨.nil, .inl rfl⟩
  · push Not at data
    obtain ⟨parityNumber, member, parity⟩ := data
    have recovers := gathers.recover_of_parity lawful sending (nodup_places nodup same) length same
      member parity
    rw [← returned] at recovers
    have inSet : ∃ other ∈ (state.sent number).toList ++ (state.shard number).packets,
        flag other = typeParity := by
      obtain member | here := mem_append.mp member
      · obtain ⟨other, inPackets, sentOther⟩ := exists_right_of_mem held.sent member
        refine ⟨other, mem_append_right _ inPackets, ?_⟩
        rw [sending.flag_eq sentOther, if_neg (not_lt_of_ge parity)]
      · cases mem_singleton.mp here
        refine ⟨packet, mem_append_left _ (by rw [sent]; simp), ?_⟩
        rw [sending.flag_eq sent, if_neg (not_lt_of_ge parity)]
    have exactly : (state.shard number).packets.length + 1 = shards.data := by
      rw [← held.sent.length_eq, ← length, length_append, length_singleton]
    -- The packets of the generation that were fed before are among those drained.
    have allHeld : ∀ fed ∈ received state.log, fed / shards.size = number / shards.size →
        fed ∈ numbers := by
      intro fed inLog generation_eq
      obtain ⟨heldPacket, inPackets, sentFed⟩ := guarded.2 fresh exactly inSet fed inLog generation_eq
      obtain ⟨twin, twinMember, sentTwin⟩ := exists_left_of_mem held.sent inPackets
      have ids : twin % shards.paws = fed % shards.paws := by
        rw [← sending.seqid_eq sentTwin, sending.seqid_eq sentFed]
      exact held.mem_of_mod generation_eq twinMember ids
    have drained : ∀ other ∈ dataNumbers shards (number / shards.size),
        other ∈ received state.log → other ∈ numbers ++ [number] := fun other isData inLog =>
      mem_append_left _ (allHeld other inLog (mem_dataNumbers.mp isData).1)
    refine ⟨?_, .inr ⟨silent_of_held held spent allHeld, fun none => ?_⟩⟩
    · rwa [← missing_congr fun other isData => ⟨listed other, fun inLog => ?_⟩]
      obtain rfl | inLog := mem_cons.mp inLog
      · exact mem_append_right _ (mem_singleton.mpr rfl)
      · exact drained other isData inLog
    · obtain ⟨other, isData, absent⟩ :=
        @exists_notMem _ (number / shards.size) _ _ length member parity
      exact absent (drained other isData (missing_eq_nil_iff.mp none other isData))

end Decoding

end MeowRs.Fec
