import MeowRs.LittleEndian
import MeowRs.ShardedMaps

/-!
# The forward error correction of the kcptun transport

`FecEncoder` numbers data packets and, when a generation of them is complete, adds parity packets;
`FecDecoder` collects the packets of a generation and rebuilds the data rows that are missing.  The
Reed-Solomon codec itself is a parameter.
-/

namespace MeowRs.Fec

open LittleEndian ShardedMaps

/-- What the two ends use of `ReedSolomon`: the parity rows of some data rows, and the absent data
rows filled in.  Both fail on rows that do not fit the code. -/
structure Codec where
  encode : List Bytes → Option (List Bytes)
  reconstructData : List (Option Bytes) → Option (List (Option Bytes))

/-- The codec reconstructs the original rows from any `data` of them. -/
structure Codec.Lawful (data parity : ℕ) (codec : Codec) : Prop where
  encodes : ∀ (rows : List Bytes) (width : ℕ), rows.length = data → 0 < width →
    (∀ row ∈ rows, row.length = width) →
    ∃ parities, codec.encode rows = some parities ∧ parities.length = parity ∧
      ∀ row ∈ parities, row.length = width
  reconstructs : ∀ (rows parities : List Bytes) (shards : List (Option Bytes)) (present : List ℕ),
    rows.length = data → codec.encode rows = some parities → shards.length = data + parity →
    (∀ (index : ℕ) (row : Bytes), shards[index]? = some (some row) →
      (rows ++ parities)[index]? = some row) →
    present.Nodup → data ≤ present.length →
    (∀ index ∈ present, ∃ row, shards[index]? = some (some row)) →
    ∃ filled, codec.reconstructData shards = some filled ∧ filled.length = data + parity ∧
      ∀ (index : ℕ) (row : Bytes), rows[index]? = some row → filled[index]? = some (some row)

/-- The shard counts that a codec can be built for. -/
structure Shards where
  data : ℕ
  parity : ℕ
  data_pos : 0 < data
  parity_pos : 0 < parity
  total_le : data + parity ≤ 256

namespace Shards

variable (shards : Shards)

def size : ℕ :=
  shards.data + shards.parity

/-- `u32::MAX / shard_size * shard_size`: ids stay below a multiple of the generation's size. -/
def paws : ℕ :=
  (2 ^ 32 - 1) / shards.size * shards.size

end Shards

def fecHeaderSize : ℕ := 6

def fecHeaderSizePlus2 : ℕ := fecHeaderSize + 2

def typeData : ℕ := 0xf1

def typeParity : ℕ := 0xf2

def mtuLimit : ℕ := 1500

def maxShardSets : ℕ := 3

/-- `a.wrapping_sub(b) as i32`. -/
def itimediff (a b : ℕ) : ℤ :=
  let difference : ℕ := (a + (2 ^ 32 - b % 2 ^ 32)) % 2 ^ 32
  if difference < 2 ^ 31 then difference else (difference : ℤ) - 2 ^ 32

/-- `FecEncoder`; `headerOffset` bytes in front of each packet belong to the caller. -/
structure FecEncoder (shards : Shards) (headerOffset : ℕ) where
  next : ℕ
  shardCount : ℕ
  maxSize : ℕ
  shardCache : List Bytes
  tsLatest : Option ℕ

namespace FecEncoder

variable {shards : Shards} {headerOffset : ℕ}

def payloadOffset (_encoder : FecEncoder shards headerOffset) : ℕ :=
  headerOffset + fecHeaderSize

def new (shards : Shards) (headerOffset : ℕ) : FecEncoder shards headerOffset where
  next := 0
  shardCount := 0
  maxSize := 0
  shardCache := List.replicate shards.size (List.replicate mtuLimit 0)
  tsLatest := none

def advance (shards : Shards) (next count : ℕ) : ℕ :=
  (next + count) % 2 ^ 32 % shards.paws

def sealHeader (headerOffset : ℕ) (buf : Bytes) (next type : ℕ) : Bytes :=
  overwrite (overwrite buf headerOffset (leBytes 4 next)) (headerOffset + 4) (leBytes 2 type)

/-- The loop over the parity rows: each gets the next id. -/
def sealParities (shards : Shards) (headerOffset : ℕ) : ℕ → List Bytes → ℕ × List Bytes
  | next, [] => (next, [])
  | next, row :: rows =>
    let later := sealParities shards headerOffset (advance shards next 1) rows
    (later.1, sealHeader headerOffset row next typeParity :: later.2)

def skipParity (encoder : FecEncoder shards headerOffset) : FecEncoder shards headerOffset :=
  { encoder with next := advance shards encoder.next shards.parity }

/-- The data packet that `encode` leaves in `buf`. -/
def sealData (encoder : FecEncoder shards headerOffset) (buf : Bytes) : Bytes :=
  overwrite (sealHeader headerOffset buf encoder.next typeData) encoder.payloadOffset
    (leBytes 2 ((buf.length - encoder.payloadOffset) % 2 ^ 16))

/-- The generation is complete: parity, unless the last packet came too late. -/
def finish (codec : Codec) (encoder : FecEncoder shards headerOffset) (continuous : Bool) :
    FecEncoder shards headerOffset × List Bytes :=
  if continuous then
    let rows := encoder.shardCache.map fun row => resize row encoder.maxSize
    match codec.encode ((rows.take shards.data).map fun row => row.drop encoder.payloadOffset) with
    | some parities =>
      let coded := (rows.drop shards.data).zipWith
        (fun row parity => overwrite row encoder.payloadOffset parity) parities
      let packed := sealParities shards headerOffset encoder.next coded
      ({ encoder with next := packed.1, shardCache := rows.take shards.data ++ packed.2 }, packed.2)
    | none => ({ encoder with shardCache := rows }.skipParity, [])
  else
    (encoder.skipParity, [])

def collected (encoder : FecEncoder shards headerOffset) (packet : Bytes) :
    FecEncoder shards headerOffset :=
  { encoder with
    next := advance shards encoder.next 1
    shardCache := encoder.shardCache.set encoder.shardCount packet
    shardCount := encoder.shardCount + 1
    maxSize := max encoder.maxSize packet.length }

/-- `encode`: the encoder afterwards, the data packet and the parity packets.  Times are in
nanoseconds; a buffer too short for its header panics. -/
def encode (codec : Codec) (encoder : FecEncoder shards headerOffset) (buf : Bytes)
    (now rtoMs : ℕ) : Option (FecEncoder shards headerOffset × Bytes × List Bytes) :=
  if buf.length < encoder.payloadOffset + 2 then none
  else
    let packet := encoder.sealData buf
    let collected := encoder.collected packet
    if collected.shardCount = shards.data then
      let continuous := encoder.tsLatest.any fun latest => (now - latest) / 10 ^ 6 < rtoMs
      let finished := finish codec collected continuous
      some ({ finished.1 with shardCount := 0, maxSize := 0, tsLatest := some now }, packet,
        finished.2)
    else
      some ({ collected with tsLatest := some now }, packet, [])

end FecEncoder

/-- `FecPacket::seqid`. -/
def seqid (packet : Bytes) : ℕ :=
  leValue (packet.take 4)

/-- `FecPacket::flag`. -/
def flag (packet : Bytes) : ℕ :=
  leValue ((packet.drop 4).take 2)

structure ShardSet where
  seqids : List ℕ
  packets : List Bytes

def ShardSet.empty : ShardSet :=
  ⟨[], []⟩

/-- `AutoTune`: a ring of the last 258 types and ids. -/
structure AutoTune where
  pulses : List (Bool × ℕ)
  head : ℕ
  tail : ℕ
  count : ℕ

namespace AutoTune

def new : AutoTune :=
  ⟨List.replicate 258 (false, 0), 0, 0, 0⟩

def sample (tune : AutoTune) (bit : Bool) (seq : ℕ) : AutoTune :=
  let written := { tune with
    pulses := tune.pulses.set tune.tail (bit, seq), tail := (tune.tail + 1) % 258 }
  if tune.count < 258 then { written with count := tune.count + 1 }
  else { written with head := (tune.head + 1) % 258 }

/-- The samples from the first transition into `bit` on; a gap before it ends the search. -/
def leftEdge (bit : Bool) : List (Bool × ℕ) → Option (List (Bool × ℕ))
  | previous :: current :: rest =>
    if (previous.2 + 1) % 2 ^ 32 = current.2 then
      if previous.1 ≠ bit ∧ current.1 = bit then some (current :: rest)
      else leftEdge bit (current :: rest)
    else none
  | [_] | [] => none

/-- How many samples there are up to the first transition out of `bit`. -/
def rightEdge (bit : Bool) : ℕ → List (Bool × ℕ) → Option ℕ
  | width, previous :: current :: rest =>
    if (previous.2 + 1) % 2 ^ 32 = current.2 then
      if previous.1 = bit ∧ current.1 ≠ bit then some width
      else rightEdge bit (width + 1) (current :: rest)
    else none
  | _, [_] | _, [] => none

/-- `find_period`: the width of the first complete pulse of `bit` in the order of the ids. -/
def findPeriod (tune : AutoTune) (bit : Bool) : Option ℕ :=
  if tune.count < 3 then none
  else
    let samples := (List.range tune.count).map fun index =>
      tune.pulses.getD ((tune.head + index) % 258) (false, 0)
    let origin := samples.foldl
      (fun least sample => if itimediff sample.2 least < 0 then sample.2 else least)
      (samples.headD (false, 0)).2
    let distance : Bool × ℕ → ℕ := fun sample => (sample.2 + (2 ^ 32 - origin)) % 2 ^ 32
    let sorted := samples.mergeSort fun first second => decide (distance first ≤ distance second)
    (leftEdge bit sorted).bind (rightEdge bit 1)

end AutoTune

structure FecDecoder where
  shards : Shards
  shouldTune : Bool
  shardSet : AList fun _ : ℕ => ShardSet
  newestShardId : ℕ
  autoTune : AutoTune

/-- The cache into which a generation is drained. -/
structure Drained where
  rows : List (Option Bytes)
  presentData : List Bool
  numData : ℕ
  maxlen : ℕ

namespace Drained

def blank (size : ℕ) : Drained :=
  ⟨List.replicate size none, List.replicate size false, 0, 0⟩

def put (size : ℕ) (drained : Drained) (packet : Bytes) : Drained :=
  let index := seqid packet % size
  let isData := flag packet = typeData
  { rows := drained.rows.set index (some (packet.drop fecHeaderSize))
    presentData := if isData then drained.presentData.set index true else drained.presentData
    numData := if isData then drained.numData + 1 else drained.numData
    maxlen := max drained.maxlen (packet.length - fecHeaderSize) }

def drain (size : ℕ) (packets : List Bytes) : Drained :=
  packets.foldl (put size) (blank size)

/-- The rows that were absent, as the codec fills them in. -/
def recover (codec : Codec) (data : ℕ) (drained : Drained) : List Bytes :=
  if drained.numData < data then
    let padded := drained.rows.map fun row => row.map fun bytes => resize bytes drained.maxlen
    match codec.reconstructData padded with
    | some filled =>
      ((filled.zip drained.presentData).take data).filterMap fun entry =>
        if entry.2 then none else entry.1
    | none => []
  else []

end Drained

namespace FecDecoder

def new (shards : Shards) : FecDecoder where
  shards := shards
  shouldTune := false
  shardSet := ∅
  newestShardId := 0
  autoTune := .new

/-- A packet's type does not fit its place in the generation: the peer's shard counts differ. -/
def misplaced (decoder : FecDecoder) (packet : Bytes) : Bool :=
  if seqid packet % decoder.shards.size < decoder.shards.data then flag packet != typeData
  else flag packet != typeParity

/-- Adopt the shard counts that the samples show, if they show any. -/
def tune (decoder : FecDecoder) : FecDecoder :=
  match decoder.autoTune.findPeriod true, decoder.autoTune.findPeriod false with
  | some data, some parity =>
    if legal : 0 < data ∧ 0 < parity ∧ data + parity ≤ 256 then
      if data ≠ decoder.shards.data ∨ parity ≠ decoder.shards.parity then
        { decoder with
          shards := ⟨data, parity, legal.1, legal.2.1, legal.2.2⟩
          shardSet := ∅
          shouldTune := false }
      else { decoder with shouldTune := false }
    else decoder
  | _, _ => decoder

/-- Note the newest generation and drop those too far behind it. -/
def discardShards (decoder : FecDecoder) (shardId : ℕ) : FecDecoder :=
  let size := decoder.shards.size
  let start := fun id => id * size % 2 ^ 32
  let newest :=
    if 0 < itimediff (start shardId) (start decoder.newestShardId) then shardId
    else decoder.newestShardId
  { decoder with
    newestShardId := newest
    shardSet := retain
      (fun id _ => decide (itimediff (start newest) (start id) ≤ (maxShardSets * size : ℕ)))
      decoder.shardSet }

/-- Put a set back into the map, and drop what has become too old. -/
def store (decoder : FecDecoder) (shardId : ℕ) (shard : ShardSet) : FecDecoder :=
  { decoder with shardSet := decoder.shardSet.insert shardId shard }.discardShards shardId

/-- A packet of the expected shard counts into the set of its generation. -/
def collect (codec : Codec) (decoder : FecDecoder) (packet : Bytes) : FecDecoder × List Bytes :=
  let shardId := seqid packet / decoder.shards.size
  let shard := (decoder.shardSet.lookup shardId).getD .empty
  if shard.seqids.contains (seqid packet) then (decoder, [])
  else
    let pushed : ShardSet := ⟨seqid packet :: shard.seqids, shard.packets ++ [packet]⟩
    if decoder.shards.data ≤ pushed.packets.length then
      (decoder.store shardId .empty,
        (Drained.drain decoder.shards.size pushed.packets).recover codec decoder.shards.data)
    else
      (decoder.store shardId pushed, [])

/-- `decode`: the decoder afterwards and the recovered rows. -/
def decode (codecs : ℕ → ℕ → Codec) (decoder : FecDecoder) (packet : Bytes) :
    FecDecoder × List Bytes :=
  if packet.length < fecHeaderSizePlus2 then (decoder, [])
  else
    let sampled := { decoder with
      autoTune := decoder.autoTune.sample (flag packet == typeData) (seqid packet) }
    if decoder.shards.paws ≤ seqid packet then (sampled, [])
    else
      let judged := { sampled with shouldTune := sampled.shouldTune || sampled.misplaced packet }
      if judged.shouldTune then (judged.tune, [])
      else judged.collect (codecs decoder.shards.data decoder.shards.parity) packet

end FecDecoder

end MeowRs.Fec
