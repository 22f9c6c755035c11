import MeowRs.LittleEndian
import MeowRs.Numerals
import MeowRs.Results
import MeowRs.ShardedMaps

/-!
# AnyTLS padding

The first packets of an AnyTLS session are cut into records of random sizes.  Records cut frames
anywhere; what a record lacks behind the last frame is filled up with a frame of waste.  The scheme
of the sizes may come from the peer.
-/

namespace MeowRs.AnyTls

open List Option Text Nat Results

open BigEndian (beBytes beValue beValue_beBytes)
open ShardedMaps (lookup_insert_eq_some)

inductive Command where
  | waste | syn | push | fin | settings | alert | updatePaddingScheme | synAck | heartRequest
  | heartResponse | serverSettings
  deriving DecidableEq

namespace Command

def toByte : Command → UInt8
  | waste => 0
  | syn => 1
  | push => 2
  | fin => 3
  | settings => 4
  | alert => 5
  | updatePaddingScheme => 6
  | synAck => 7
  | heartRequest => 8
  | heartResponse => 9
  | serverSettings => 10

/-- An unknown command is treated as waste. -/
def ofByte : UInt8 → Command
  | 1 => syn
  | 2 => push
  | 3 => fin
  | 4 => settings
  | 5 => alert
  | 6 => updatePaddingScheme
  | 7 => synAck
  | 8 => heartRequest
  | 9 => heartResponse
  | 10 => serverSettings
  | _ => waste

theorem ofByte_toByte (cmd : Command) : ofByte cmd.toByte = cmd := by
  cases cmd <;> rfl

end Command

structure Frame where
  cmd : Command
  streamId : UInt32
  data : Bytes
  deriving DecidableEq

def headerOverheadSize : Nat := 7

/-- A frame on the wire; its length has 16 bits. -/
def Frame.bytes (frame : Frame) : Bytes :=
  let id := frame.streamId.toNat
  frame.cmd.toByte :: UInt8.ofNat (id / 2 ^ 24) :: UInt8.ofNat (id / 2 ^ 16) ::
    UInt8.ofNat (id / 2 ^ 8) :: UInt8.ofNat id :: (beBytes frame.data.length ++ frame.data)

/-- `FrameCodec::encode`. -/
def encode (dst : Bytes) (frame : Frame) : Except String Bytes :=
  if 65535 < frame.data.length then .error "AnyTLS frame payload exceeds u16 length"
  else .ok (dst ++ frame.bytes)

/-- `FrameCodec::decode`: the frame at the front of a buffer, if it is complete. -/
def decode : Bytes → Option (Frame × Bytes)
  | cmd :: i3 :: i2 :: i1 :: i0 :: d1 :: d0 :: rest =>
    if rest.length < beValue d1 d0 then none
    else
      some (⟨.ofByte cmd, .ofNat (beValue i3 i2 * 2 ^ 16 + beValue i1 i0),
        rest.take (beValue d1 d0)⟩, rest.drop (beValue d1 d0))
  | _ => none

/-- The frames that are complete, at most `fuel` of them, and what is left. -/
def decodeWithin : Nat → Bytes → List Frame × Bytes
  | 0, src => ([], src)
  | fuel + 1, src =>
    match decode src with
    | none => ([], src)
    | some (frame, rest) =>
      (frame :: (decodeWithin fuel rest).1, (decodeWithin fuel rest).2)

/-- A receiver decodes after every chunk. -/
def receive (src : Bytes) : List Bytes → List Frame × Bytes
  | [] => ([], src)
  | chunk :: chunks =>
    let decoded := decodeWithin (src ++ chunk).length (src ++ chunk)
    (decoded.1 ++ (receive decoded.2 chunks).1, (receive decoded.2 chunks).2)

inductive PaddingSize where
  | check
  | range (min max : Nat)

structure PaddingFactory where
  sizes : AList fun _ : Text => List PaddingSize
  stop : Nat

def maxPacketPadding : Nat := 1024 * 1024

/-- `StringMap::from_bytes`; `lossy` replaces what is no UTF-8. -/
def stringMap (lossy : Bytes → Text) (data : Bytes) : AList fun _ : Text => Text :=
  let lines := ((lossy data).splitOn 0x0a).map fun line =>
    if line.getLast? = some 0x0d then line.dropLast else line
  lines.foldl (fun map line =>
    match splitOnce line 0x3d with
    | some (key, value) => map.insert key.trim value.trim
    | none => map) ∅

def parseSize (value : Text) : Except String Nat :=
  match (parseUnsigned (2 ^ 16) value.trim).filter (0 < ·) with
  | some size => .ok size
  | none => .error "padding size must be between 1 and 65535"

/-- The sizes of one packet; `total` is what those before them come to. -/
def parseSizes (total : Nat) : List Text → Except String (List PaddingSize)
  | [] => .ok []
  | part :: parts =>
    if part = [0x63] then (parseSizes total parts).map (.check :: ·)
    else
      match splitOnce part 0x2d with
      | none => .error "invalid padding range"
      | some (first, second) =>
        (parseSize first).bind fun first => (parseSize second).bind fun second =>
          if maxPacketPadding < total + (max first second + headerOverheadSize) then
            .error "padding for one packet exceeds 1 MiB"
          else
            (parseSizes (total + (max first second + headerOverheadSize)) parts).map
              (.range (min first second) (max first second) :: ·)

/-- One entry of the scheme. -/
def addEntry (sizes : AList fun _ : Text => List PaddingSize) (entry : Sigma fun _ : Text => Text) :
    Except String (AList fun _ : Text => List PaddingSize) :=
  if (parseUnsigned (2 ^ 32) entry.1).isNone then .ok sizes
  else
    (parseSizes 0 ((entry.2.splitOn 0x2c).map trim)).map fun packet =>
      sizes.insert entry.1 packet

/-- `PaddingFactory::new`; `order` lists the entries of the hash map. -/
def PaddingFactory.new (lossy : Bytes → Text)
    (order : (AList fun _ : Text => Text) → List (Sigma fun _ : Text => Text)) (rawScheme : Bytes) :
    Except String PaddingFactory :=
  let scheme := stringMap lossy rawScheme
  match scheme.lookup (ofString "stop") with
  | none => .error "missing 'stop' in padding scheme"
  | some stop =>
    match parseUnsigned (2 ^ 32) stop with
    | none => .error "invalid 'stop' value"
    | some stop =>
      ((order scheme).foldlM addEntry ∅).map fun sizes => ⟨sizes, stop⟩

/-- The outcomes of a size; a check mark has no number. -/
def PaddingSize.Draws : PaddingSize → Option Nat → Prop
  | check, drawn => drawn = none
  | range min max, drawn => ∃ size, drawn = some size ∧ min ≤ size ∧ size ≤ max

/-- The outcomes of `generate_record_payload_sizes`. -/
def PaddingFactory.Draws (factory : PaddingFactory) (pkt : Nat) : List (Option Nat) → Prop :=
  Forall₂ PaddingSize.Draws ((factory.sizes.lookup (decimal pkt)).getD [])

def waste (size : Nat) : Frame :=
  ⟨.waste, 0, replicate size 0⟩

/-- The loop of `write_with_padding`: the records that are written. -/
def writeRecords : List (Option Nat) → Bytes → List Bytes
  | [], buffer => if buffer = [] then [] else [buffer]
  | none :: sizes, buffer => if buffer = [] then [] else writeRecords sizes buffer
  | some size :: sizes, buffer =>
    if size < buffer.length then buffer.take size :: writeRecords sizes (buffer.drop size)
    else if buffer ≠ [] then
      let padding := size - (buffer.length + headerOverheadSize)
      (buffer ++ if 0 < padding then (waste padding).bytes else []) :: writeRecords sizes []
    else (waste size).bytes :: writeRecords sizes []

def writeWithPadding (sendPadding : Bool) (factory : PaddingFactory) (pkt : Nat)
    (sizes : List (Option Nat)) (buffer : Bytes) : List Bytes :=
  if sendPadding = false ∨ factory.stop ≤ pkt ∨ sizes = [] then [buffer]
  else writeRecords sizes buffer

section Codec

variable {f : Frame} {fs : List Frame} {held rest more : Bytes}

def Frame.Fits (frame : Frame) : Prop :=
  frame.data.length ≤ 65535

/-- A buffer is decoded once it holds the frame at the front of its stream. -/
theorem decode_of_append (hf : f.Fits) (hc : held ++ rest = f.bytes ++ more) :
    decode held = if held.length < f.bytes.length then none
      else some (f, held.drop f.bytes.length) := by
  rcases held with _ | ⟨cmd, _ | ⟨i3, _ | ⟨i2, _ | ⟨i1, _ | ⟨i0, _ | ⟨d1, _ | ⟨d0, body⟩⟩⟩⟩⟩⟩⟩
  iterate 7 exact (if_pos (by simp [Frame.bytes, beBytes])).symm
  obtain ⟨command, id, data⟩ := f
  have hs := beValue_beBytes (lt_succ_of_le hf)
  simp only [Frame.bytes, beBytes, cons_append, nil_append, cons.injEq] at hc
  obtain ⟨rfl, rfl, rfl, rfl, rfl, rfl, rfl, hc⟩ := hc
  have hl : (Frame.mk command id data).bytes.length = data.length + 7 := by
    simp [Frame.bytes, beBytes]
  have hi : UInt32.ofNat (beValue (.ofNat (id.toNat / 2 ^ 24)) (.ofNat (id.toNat / 2 ^ 16)) *
      2 ^ 16 + beValue (.ofNat (id.toNat / 2 ^ 8)) (.ofNat id.toNat)) = id := by
    have hb := id.toNat_lt
    rw [← UInt32.toNat_inj, UInt32.toNat_ofNat']
    simp only [beValue, UInt8.toNat_ofNat']
    omega
  rw [decode, hs, hi, Command.ofByte_toByte, hl]
  by_cases whole : body.length < data.length
  · rw [if_pos whole, if_pos (by simpa using whole)]
  · have taken := congrArg (List.take data.length) hc
    rw [take_append_of_le_length (le_of_not_gt whole), take_left] at taken
    rw [if_neg whole, if_neg (by simpa using whole), taken]
    rfl

theorem decodeWithin_frames {fuel : Nat} (fits : ∀ f ∈ fs, f.Fits)
    (enough : held.length ≤ fuel) (cut : held ++ rest = fs.flatMap Frame.bytes) :
    ∃ later, fs = (decodeWithin fuel held).1 ++ later ∧
      (decodeWithin fuel held).2 ++ rest = later.flatMap Frame.bytes ∧
      decode (decodeWithin fuel held).2 = none := by
  induction fuel generalizing held fs with
  | zero =>
    obtain rfl := length_eq_zero_iff.mp (Nat.le_zero.mp enough)
    exact ⟨fs, rfl, cut, rfl⟩
  | succ fuel ih =>
    unfold decodeWithin
    cases hit : decode held with
    | none => exact ⟨fs, rfl, cut, hit⟩
    | some decoded =>
      cases fs with
      | nil =>
        obtain ⟨rfl, _⟩ := append_eq_nil_iff.mp cut
        cases hit
      | cons f fs =>
        rw [forall_mem_cons] at fits
        rw [decode_of_append fits.1 cut] at hit
        split at hit
        · cases hit
        · rename_i whole
          cases hit
          have smaller : (held.drop f.bytes.length).length ≤ fuel := by
            rw [length_drop]
            simp only [Frame.bytes, length_cons] at whole ⊢
            omega
          obtain ⟨later, split, left, quiet⟩ := @ih fs (held.drop f.bytes.length) fits.2
            smaller (by
              have dropped := congrArg (List.drop f.bytes.length) cut
              rwa [drop_append_of_le_length (le_of_not_gt whole), flatMap_cons,
                drop_left] at dropped)
          exact ⟨later, by rw [cons_append, ← split], left, quiet⟩

theorem receive_frames {src : Bytes} {chunks : List Bytes} (hf : ∀ f ∈ fs, f.Fits)
    (hq : decode src = none) (hc : src ++ chunks.flatten = fs.flatMap Frame.bytes) :
    receive src chunks = (fs, []) := by
  induction chunks generalizing src fs with
  | nil =>
    rw [flatten_nil] at hc
    cases fs with
    | nil =>
      obtain ⟨rfl, _⟩ := append_eq_nil_iff.mp hc
      rfl
    | cons f fs =>
      rw [decode_of_append (hf f mem_cons_self) hc, if_neg] at hq
      · cases hq
      · rw [append_nil] at hc
        rw [hc, flatMap_cons, length_append]
        omega
  | cons ch chunks ih =>
    obtain ⟨later, hs, hl, hq⟩ := decodeWithin_frames hf (le_refl _)
      (show src ++ ch ++ chunks.flatten = _ by
        rw [← hc, flatten_cons, append_assoc])
    have ha : receive _ chunks = (later, []) :=
      ih (fun f hm => hf f (hs ▸ mem_append_right _ hm)) hq hl
    rw [receive, ha, ← hs]

theorem encode_iff {dst buf : Bytes} :
    fs.foldlM encode dst = .ok buf ↔
      buf = dst ++ fs.flatMap Frame.bytes ∧ ∀ f ∈ fs, f.Fits := by
  induction fs generalizing dst with
  | nil => simp [pure, Except.pure, eq_comm]
  | cons f fs ih =>
    rw [foldlM_cons, forall_mem_cons, flatMap_cons, ← append_assoc]
    unfold encode Frame.Fits
    split
    · rename_i large
      exact ⟨nofun, fun ⟨_, hs, _⟩ => absurd hs (not_le_of_gt large)⟩
    · rename_i hs
      change fs.foldlM encode (dst ++ f.bytes) = _ ↔ _
      rw [ih]
      simp only [le_of_not_gt hs, true_and, Frame.Fits]

end Codec

section Records

def cost (sizes : List (Option Nat)) : Nat :=
  (sizes.map fun size => size.elim 0 (· + headerOverheadSize)).sum

theorem length_waste (size : Nat) : (waste size).bytes.length = size + headerOverheadSize := by
  simp [waste, Frame.bytes, beBytes, headerOverheadSize]

/-- The records are the buffer with waste behind it. -/
theorem writeRecords_eq {sizes : List (Option Nat)}
    (hs : ∀ size, some size ∈ sizes → size ≤ 65535) (buf : Bytes) :
    ∃ wastes : List Nat, (∀ size ∈ wastes, size ≤ 65535) ∧
      (writeRecords sizes buf).flatten = buf ++ (wastes.map waste).flatMap Frame.bytes ∧
      ((wastes.map waste).flatMap Frame.bytes).length ≤ cost sizes := by
  induction sizes generalizing buf with
  | nil =>
    refine ⟨[], nofun, ?_, zero_le _⟩
    unfold writeRecords
    split <;> simp_all
  | cons size sizes ih =>
    have hl := ih fun size hm => hs size (mem_cons_of_mem _ hm)
    cases size with
    | none =>
      unfold writeRecords
      split
      · subst buf
        exact ⟨[], nofun, rfl, zero_le _⟩
      · obtain ⟨wastes, hb, hf, hc⟩ := hl buf
        exact ⟨wastes, hb, hf, by simpa [cost] using hc⟩
    | some size =>
      have hw := hs size mem_cons_self
      have ht : cost (some size :: sizes) = size + headerOverheadSize + cost sizes := by
        simp [cost]
      unfold writeRecords
      split
      · obtain ⟨wastes, hb, hf, hc⟩ := hl (buf.drop size)
        refine ⟨wastes, hb, ?_, by omega⟩
        rw [flatten_cons, hf, ← append_assoc, take_append_drop]
      · obtain ⟨wastes, hb, hf, hc⟩ := hl []
        dsimp only
        split
        · split
          · refine ⟨(size - (buf.length + headerOverheadSize)) :: wastes, ?_, ?_, ?_⟩
            · rw [forall_mem_cons]
              exact ⟨by omega, hb⟩
            · rw [flatten_cons, hf]
              simp
            · rw [map_cons, flatMap_cons, length_append, length_waste]
              omega
          · refine ⟨wastes, hb, ?_, by omega⟩
            rw [flatten_cons, hf]
            simp
        · rename_i empty
          rw [not_not] at empty
          subst empty
          refine ⟨size :: wastes, forall_mem_cons.mpr ⟨hw, hb⟩, ?_, ?_⟩
          · rw [flatten_cons, hf]
            simp
          · rw [map_cons, flatMap_cons, length_append, length_waste]
            omega

end Records

section Scheme

variable {pkt : List PaddingSize}

def weight (packet : List PaddingSize) : Nat :=
  (packet.map fun
    | .check => 0
    | .range _ max => max + headerOverheadSize).sum

/-- The sizes of a packet fit their length fields, and they are bounded together. -/
structure Bounded (total : Nat) (packet : List PaddingSize) : Prop where
  small : ∀ min max, .range min max ∈ packet → max ≤ 65535
  total : total + weight packet ≤ maxPacketPadding

theorem le_of_parseSize {v : Text} {size : Nat} (hp : parseSize v = .ok size) : size ≤ 65535 := by
  unfold parseSize at hp
  split at hp
  · rename_i hi
    cases hp
    exact le_of_lt_succ (lt_of_parseUnsigned (filter_eq_some_iff.mp hi).1)
  · cases hp

theorem bounded_of_parseSizes {parts : List Text} {total : Nat} (hf : total ≤ maxPacketPadding)
    (hp : parseSizes total parts = .ok pkt) : Bounded total pkt := by
  induction parts generalizing total pkt with
  | nil =>
    cases hp
    exact ⟨nofun, hf⟩
  | cons part parts ih =>
    unfold parseSizes at hp
    split at hp
    · obtain ⟨later, rest, rfl⟩ := map_eq_ok.mp hp
      obtain ⟨hs, hb⟩ := ih hf rest
      exact ⟨fun min max hm => hs min max ((mem_cons.mp hm).resolve_left nofun),
        by simpa [weight] using hb⟩
    · split at hp
      · cases hp
      · obtain ⟨fst, hpf, hp⟩ := bind_eq_ok.mp hp
        obtain ⟨snd, hps, hp⟩ := bind_eq_ok.mp hp
        split at hp
        · cases hp
        · rename_i enough
          obtain ⟨later, rest, rfl⟩ := map_eq_ok.mp hp
          obtain ⟨hs, hb⟩ := ih (le_of_not_gt enough) rest
          have hfs := le_of_parseSize hpf
          have hss := le_of_parseSize hps
          refine ⟨fun min max hm => ?_, by simpa [weight, add_assoc] using hb⟩
          rcases mem_cons.mp hm with same | hm
          · cases same
            omega
          · exact hs min max hm

theorem bounded_of_foldlM {es : List (Sigma fun _ : Text => Text)}
    {sizes final : AList fun _ : Text => List PaddingSize}
    (hb : ∀ key pkt, sizes.lookup key = some pkt → Bounded 0 pkt)
    (ha : es.foldlM addEntry sizes = .ok final) (key : Text) (pkt : List PaddingSize)
    (hi : final.lookup key = some pkt) : Bounded 0 pkt := by
  induction es generalizing sizes with
  | nil =>
    cases ha
    exact hb key pkt hi
  | cons e es ih =>
    obtain ⟨next, hf, hl⟩ := bind_eq_ok.mp ha
    refine ih ?_ hl
    unfold addEntry at hf
    split at hf
    · cases hf
      exact hb
    · obtain ⟨parsed, ok, rfl⟩ := map_eq_ok.mp hf
      intro o pkt hi
      rcases lookup_insert_eq_some hi with ⟨_, rfl⟩ | ⟨_, hi⟩
      · exact bounded_of_parseSizes (zero_le _) ok
      · exact hb o pkt hi

variable {lossy : Bytes → Text}
  {ord : (AList fun _ : Text => Text) → List (Sigma fun _ : Text => Text)} {rawScheme : Bytes}
  {factory : PaddingFactory}

theorem bounded_of_new (acc : PaddingFactory.new lossy ord rawScheme = .ok factory)
    (key : Text) : Bounded 0 ((factory.sizes.lookup key).getD []) := by
  cases hit : factory.sizes.lookup key with
  | none => exact ⟨nofun, zero_le _⟩
  | some pkt =>
    unfold PaddingFactory.new at acc
    dsimp only at acc
    split at acc
    · cases acc
    · split at acc
      · cases acc
      · obtain ⟨sizes, had, rfl⟩ := map_eq_ok.mp acc
        exact bounded_of_foldlM (fun key pkt none => by simp at none) had key pkt hit

theorem Bounded.draws {sizes : List (Option Nat)} {total : Nat}
    (hbo : Bounded total pkt) (hd : Forall₂ PaddingSize.Draws pkt sizes) :
    (∀ size, some size ∈ sizes → size ≤ 65535) ∧ total + cost sizes ≤ maxPacketPadding := by
  induction hd generalizing total with
  | nil => exact ⟨nofun, hbo.total⟩
  | @cons spec size pkt sizes hdr _ ih =>
    obtain ⟨hs, hb⟩ := hbo
    cases spec with
    | check =>
      cases hdr
      have hl := @ih total ⟨fun min max hm => hs min max (mem_cons_of_mem _ hm),
        by simpa [weight] using hb⟩
      exact ⟨fun size hm => hl.1 size ((mem_cons.mp hm).resolve_left nofun),
        by simpa [cost] using hl.2⟩
    | range min max =>
      obtain ⟨size, rfl, _, le⟩ := hdr
      have most := hs min max mem_cons_self
      obtain ⟨hf, he⟩ := @ih (total + (max + headerOverheadSize))
        ⟨fun min max hm => hs min max (mem_cons_of_mem _ hm),
          by simpa [weight, add_assoc] using hb⟩
      refine ⟨fun o hm => ?_, ?_⟩
      · rcases mem_cons.mp hm with same | hm
        · cases same
          omega
        · exact hf o hm
      · simp only [cost, map_cons, sum_cons, elim_some] at he ⊢
        omega

end Scheme

/-- Whatever the scheme, the sizes and the chunks, the receiver gets the frames that were written,
but for waste; what is written is their encoding, and at most 1 MiB longer than the buffer. -/
theorem padding_bounded_transparent (lossy : Bytes → Text)
    (order : (AList fun _ : Text => Text) → List (Sigma fun _ : Text => Text)) (rawScheme : Bytes)
    (factory : PaddingFactory) (accepted : PaddingFactory.new lossy order rawScheme = .ok factory)
    (sendPadding : Bool) (pkt : Nat) (sizes : List (Option Nat)) (drawn : factory.Draws pkt sizes)
    (frames : List Frame) (buffer : Bytes) (encoded : frames.foldlM encode [] = .ok buffer)
    (chunks : List Bytes)
    (cut : chunks.flatten = (writeWithPadding sendPadding factory pkt sizes buffer).flatten) :
    (receive [] chunks).2 = [] ∧
      (receive [] chunks).1.filter (·.cmd ≠ .waste) = frames.filter (·.cmd ≠ .waste) ∧
      (receive [] chunks).1.foldlM encode [] = .ok chunks.flatten ∧
      chunks.flatten.length ≤ buffer.length + 2 ^ 20 := by
  obtain ⟨rfl, hf⟩ := encode_iff.mp encoded
  rw [nil_append] at cut ⊢
  obtain ⟨wastes, hb, hw, hc⟩ : ∃ wastes : List Nat, (∀ size ∈ wastes, size ≤ 65535) ∧
      chunks.flatten = (frames ++ wastes.map waste).flatMap Frame.bytes ∧
      ((wastes.map waste).flatMap Frame.bytes).length ≤ 2 ^ 20 := by
    rw [cut, writeWithPadding]
    split
    · exact ⟨[], nofun, by simp, zero_le _⟩
    · obtain ⟨hs, hc⟩ := (bounded_of_new accepted _).draws drawn
      obtain ⟨wastes, hb, flat, hwi⟩ := writeRecords_eq hs (frames.flatMap Frame.bytes)
      refine ⟨wastes, hb, by rw [flat, flatMap_append], ?_⟩
      rw [zero_add] at hc
      exact le_trans hwi hc
  have ha : ∀ frame ∈ frames ++ wastes.map waste, frame.Fits := by
    intro frame hm
    rcases mem_append.mp hm with ho | had
    · exact hf frame ho
    · obtain ⟨size, hcho, rfl⟩ := mem_map.mp had
      simpa [Frame.Fits, waste] using hb size hcho
  rw [receive_frames ha rfl (by rw [nil_append, hw])]
  refine ⟨rfl, ?_, encode_iff.mpr ⟨hw, ha⟩, ?_⟩
  · have hg : (wastes.map waste).filter (·.cmd ≠ .waste) = [] := by simp [waste]
    rw [filter_append, hg, append_nil]
  · rw [hw, flatMap_append, length_append]
    exact Nat.add_le_add_left hc _

def smallScheme : Bytes := ofString "stop=2\n1=30-30"

def smallFactory : PaddingFactory :=
  ⟨AList.insert [0x31] [.range 30 30] ∅, 2⟩

def oneFrame : Frame := ⟨.push, 1, [7]⟩

theorem padded_frame_received :
    (receive [] ((writeWithPadding true smallFactory 1 [some 30] oneFrame.bytes).flatten.map
      ([·]))).1.filter (·.cmd ≠ .waste) = [oneFrame] :=
  (padding_bounded_transparent id AList.entries smallScheme smallFactory (by rfl) true 1 [some 30]
    (.cons ⟨30, rfl, by decide, by decide⟩ .nil) [oneFrame] _ (by rfl) _ (by decide +kernel)).2.1

end MeowRs.AnyTls
