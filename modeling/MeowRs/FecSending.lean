import MeowRs.ActionRuns
import MeowRs.Fec

/-!
# What the encoder puts on the wire

Packets get numbers that never wrap around; the id on the wire is the number modulo `paws`.  A
generation is a stretch of `size` numbers, also when its parity is skipped, and when its parity is
sent the rows of the generation are a codeword.
-/

namespace MeowRs.Fec

open List Option Nat

open ActionRuns LittleEndian

namespace Shards

variable (shards : Shards)

theorem size_pos : 0 < shards.size :=
  lt_of_lt_of_le shards.data_pos (le_add_right _ _)

def turn : ℕ :=
  (2 ^ 32 - 1) / shards.size

theorem paws_eq : shards.paws = shards.size * shards.turn :=
  mul_comm _ _

theorem paws_le : shards.paws ≤ 2 ^ 32 - 1 :=
  div_mul_le_self _ _

theorem turn_pos : 0 < shards.turn := by
  apply div_pos _ shards.size_pos
  have hb := shards.total_le
  unfold size
  omega

theorem paws_pos : 0 < shards.paws := by
  rw [paws_eq]
  exact mul_pos shards.size_pos shards.turn_pos

theorem mod_paws_mod_size (number : ℕ) : number % shards.paws % shards.size = number % shards.size := by
  rw [paws_eq, mod_mul_right_mod]

theorem mod_paws_div_size (number : ℕ) :
    number % shards.paws / shards.size = number / shards.size % shards.turn := by
  rw [paws_eq, mod_mul_right_div_self]

theorem div_size_add {gen pl : ℕ} (hw : pl < shards.size) :
    (gen * shards.size + pl) / shards.size = gen := by
  rw [mul_comm, mul_add_div shards.size_pos, div_eq_of_lt hw, add_zero]

theorem mod_size_add {gen pl : ℕ} (hw : pl < shards.size) :
    (gen * shards.size + pl) % shards.size = pl := by
  rw [mul_comm, mul_add_mod, mod_eq_of_lt hw]

theorem add_mod_size {number n : ℕ} (hw : number % shards.size + n < shards.size) :
    (number + n) % shards.size = number % shards.size + n := by
  nth_rewrite 1 [← div_add_mod number shards.size]
  rw [add_assoc, mul_add_mod, mod_eq_of_lt hw]

theorem add_div_size {number n : ℕ} (hw : number % shards.size + n < shards.size) :
    (number + n) / shards.size = number / shards.size := by
  nth_rewrite 1 [← div_add_mod number shards.size]
  rw [add_assoc, mul_add_div shards.size_pos, div_eq_of_lt hw, add_zero]

theorem parity_place {number : ℕ} (hb : ¬number % shards.size < shards.data) :
    number % shards.size - shards.data < shards.parity ∧
      number / shards.size * shards.size + (shards.data + (number % shards.size - shards.data)) =
        number := by
  have hbo := mod_lt number shards.size_pos
  have hsp := div_add_mod' number shards.size
  have hs : shards.size = shards.data + shards.parity := rfl
  omega

end Shards

namespace FecEncoder

variable {sh : Shards} {headerOffset : ℕ} {enc : FecEncoder sh headerOffset}
  {buf : Bytes}

theorem advance_mod {number n : ℕ} (hs : number % sh.paws + n < 2 ^ 32) :
    advance sh (number % sh.paws) n = (number + n) % sh.paws := by
  rw [advance, mod_eq_of_lt hs, mod_add_mod]

theorem advance_one (number : ℕ) : advance sh (number % sh.paws) 1 = (number + 1) % sh.paws := by
  apply advance_mod
  have hl := mod_lt number sh.paws_pos
  have hb := sh.paws_le
  omega

theorem advance_parity {number : ℕ} (pl : number % sh.size = sh.data) :
    advance sh (number % sh.paws) sh.parity =
      (number + sh.parity) % sh.paws := by
  apply advance_mod
  have hb := sh.paws_le
  have ht : number % sh.paws / sh.size < sh.turn := by
    rw [sh.mod_paws_div_size]
    exact mod_lt _ sh.turn_pos
  have hs := div_add_mod (number % sh.paws) sh.size
  rw [sh.mod_paws_mod_size, pl] at hs
  have wh : sh.size * (number % sh.paws / sh.size + 1) ≤ sh.paws := by
    calc sh.size * (number % sh.paws / sh.size + 1) ≤ sh.size * sh.turn :=
        mul_le_mul_left _ ht
      _ = sh.paws := sh.paws_eq.symm
  rw [mul_add, mul_one] at wh
  unfold Shards.size at wh hs
  omega

theorem sealHeader_append {front id type rest : Bytes} {next kind : ℕ}
    (hs : front.length = headerOffset) (hi : id.length = 4) (ht : type.length = 2) :
    sealHeader headerOffset (front ++ (id ++ (type ++ rest))) next kind =
      front ++ (leBytes 4 next ++ (leBytes 2 kind ++ rest)) := by
  have hb : (front ++ leBytes 4 next).length = headerOffset + 4 := by
    rw [length_append, length_leBytes, hs]
  rw [sealHeader, overwrite_append hs (by rw [hi, length_leBytes]), ← append_assoc,
    overwrite_append hb (by rw [ht, length_leBytes]), append_assoc]

theorem drop_sealHeader {next kind : ℕ} (hf : headerOffset + 6 ≤ buf.length) :
    (sealHeader headerOffset buf next kind).drop headerOffset =
      leBytes 4 next ++ (leBytes 2 kind ++ buf.drop (headerOffset + 6)) := by
  obtain ⟨front, hdr, hs, hh, hc⟩ := exists_cut headerOffset 6 hf
  obtain ⟨id, type, hi, ht, hsp⟩ := exists_cut 4 2 (le_of_eq hh.symm)
  have header_eq : hdr = id ++ type := by
    rw [hsp, drop_of_length_le (le_of_eq hh), append_nil]
  rw [header_eq, append_assoc] at hc
  nth_rewrite 1 [hc]
  rw [sealHeader_append hs hi ht, drop_left' hs]

def dataWire (id : ℕ) (payload : Bytes) : Bytes :=
  leBytes 4 id ++ (leBytes 2 typeData ++ (leBytes 2 ((payload.length + 2) % 2 ^ 16) ++ payload))

theorem sealData_eq (hf : headerOffset + 8 ≤ buf.length) :
    ∃ front, front.length = headerOffset ∧
      enc.sealData buf = front ++ dataWire enc.next (buf.drop (headerOffset + 8)) := by
  obtain ⟨front, hdr, hs, hh, hc⟩ := exists_cut headerOffset 8 hf
  obtain ⟨id, rest, hi, hr, hsp⟩ := exists_cut 4 4 (le_of_eq hh.symm)
  obtain ⟨type, size, ht, hsl, ps⟩ := exists_cut 2 2 (le_of_eq hr.symm)
  rw [drop_of_length_le (le_of_eq hh), append_nil] at hsp
  rw [drop_of_length_le (le_of_eq hr), append_nil] at ps
  have hl : buf.length - enc.payloadOffset = (buf.drop (headerOffset + 8)).length + 2 := by
    rw [length_drop, payloadOffset, fecHeaderSize]
    omega
  rw [hsp, ps, append_assoc, append_assoc] at hc
  refine ⟨front, hs, ?_⟩
  have hb : (front ++ (leBytes 4 enc.next ++ leBytes 2 typeData)).length =
      enc.payloadOffset := by
    rw [length_append, length_append, length_leBytes, length_leBytes, hs]
    rfl
  have hsh : sealHeader headerOffset buf enc.next typeData =
      (front ++ (leBytes 4 enc.next ++ leBytes 2 typeData)) ++
        (size ++ buf.drop (headerOffset + 8)) := by
    nth_rewrite 1 [hc]
    rw [sealHeader_append hs hi ht]
    simp only [append_assoc]
  rw [sealData, hsh, overwrite_append hb (by rw [hsl, length_leBytes]), hl, dataWire]
  simp only [append_assoc]

theorem length_dataWire (id : ℕ) (p : Bytes) : (dataWire id p).length = p.length + 8 := by
  simp only [dataWire, length_append, length_leBytes]
  omega

theorem length_sealData (hf : headerOffset + 8 ≤ buf.length) :
    (enc.sealData buf).length = buf.length := by
  obtain ⟨front, hst, hs⟩ := @sealData_eq _ _ enc _ hf
  rw [hs, length_append, length_dataWire, length_drop, hst]
  omega

theorem drop_sealData (hf : headerOffset + 8 ≤ buf.length) :
    (enc.sealData buf).drop headerOffset =
      dataWire enc.next (buf.drop (headerOffset + 8)) := by
  obtain ⟨front, hst, hs⟩ := @sealData_eq _ _ enc _ hf
  rw [hs, drop_left' hst]

def parityWire (id : ℕ) (parity : Bytes) : Bytes :=
  leBytes 4 id ++ (leBytes 2 typeParity ++ parity)

theorem sealParities_eq (number : ℕ) (rows : List Bytes) :
    sealParities sh headerOffset (number % sh.paws) rows = ((number + rows.length) % sh.paws,
        rows.mapIdx fun i row =>
          sealHeader headerOffset row ((number + i) % sh.paws) typeParity) := by
  induction rows generalizing number with
  | nil => rfl
  | cons row rows ih =>
    rw [sealParities, advance_one, ih, mapIdx_cons, length_cons]
    simp only [add_zero, add_assoc, add_comm 1]

end FecEncoder

namespace FecEncoder

variable {shards sh : Shards} {headerOffset : ℕ} {codec : Codec}

theorem drop_sealHeader_overwrite {row par : Bytes} {id : ℕ}
    (len : row.length = headerOffset + fecHeaderSize + par.length) :
    (sealHeader headerOffset (overwrite row (headerOffset + fecHeaderSize) par) id typeParity).drop
      headerOffset = parityWire id par := by
  obtain ⟨front, f, hs, hf, hc⟩ :=
    exists_cut (headerOffset + fecHeaderSize) par.length (le_of_eq len.symm)
  rw [drop_of_length_le (le_of_eq len)] at hc
  have hw : overwrite row (headerOffset + fecHeaderSize) par = front ++ (par ++ []) := by
    nth_rewrite 1 [hc]
    exact overwrite_append hs hf
  have hb : (front ++ (par ++ [])).drop (headerOffset + 6) = par := by
    rw [append_nil]
    exact drop_left' hs
  have hl : headerOffset + 6 ≤ (front ++ (par ++ [])).length := by
    rw [length_append, hs]
    exact le_add_right _ _
  rw [hw, drop_sealHeader hl, hb, parityWire]

def dataRows (encoder : FecEncoder shards headerOffset) : List Bytes :=
  ((encoder.shardCache.map fun row => resize row encoder.maxSize).take shards.data).map
    fun row => row.drop encoder.payloadOffset

/-- A complete generation uses up its parity's numbers, and what is sent for them is the parity of
its rows. -/
theorem finish_spec (hl : codec.Lawful sh.data sh.parity) {enc : FecEncoder sh headerOffset}
    {number : ℕ} (next_eq : enc.next = number % sh.paws) (pl : number % sh.size = sh.data)
    (cache_length : enc.shardCache.length = sh.size) (wide : headerOffset + 8 ≤ enc.maxSize)
    (continuous : Bool) :
    (finish codec enc continuous).1.next = (number + sh.parity) % sh.paws ∧
      (finish codec enc continuous).1.shardCache.length = sh.size ∧
      ((finish codec enc continuous).2 = [] ∨ ∃ pars, codec.encode enc.dataRows = some pars ∧
          pars.length = sh.parity ∧ (∀ par ∈ pars, par.length = enc.maxSize - enc.payloadOffset) ∧
          (finish codec enc continuous).2.map (·.drop headerOffset) =
            pars.mapIdx fun i par =>
              parityWire ((number + i) % sh.paws) par) := by
  have hs : advance sh enc.next sh.parity =
      (number + sh.parity) % sh.paws := by
    rw [next_eq, advance_parity pl]
  have rows_length : enc.dataRows.length = sh.data := by
    simp [dataRows, cache_length, Shards.size]
  have rows_width : ∀ row ∈ enc.dataRows, row.length = enc.maxSize - enc.payloadOffset := by
    intro row hm
    obtain ⟨padded, hc, rfl⟩ := mem_map.mp hm
    obtain ⟨_, _, rfl⟩ := mem_map.mp (mem_of_mem_take hc)
    rw [length_drop, length_resize]
  have hp : 0 < enc.maxSize - enc.payloadOffset := by
    rw [payloadOffset, fecHeaderSize]
    omega
  obtain ⟨pars, he, parities_length, parities_width⟩ :=
    hl.encodes enc.dataRows _ rows_length hp rows_width
  unfold finish
  cases continuous with
  | false => exact ⟨hs, cache_length, .inl rfl⟩
  | true =>
    have hr := he
    unfold dataRows at hr
    simp only [if_true, hr]
    have coded_length : (zipWith (fun row par => overwrite row enc.payloadOffset par)
        ((enc.shardCache.map fun row => resize row enc.maxSize).drop sh.data)
        pars).length = sh.parity := by
      simp [cache_length, parities_length, Shards.size]
    rw [next_eq, sealParities_eq, coded_length]
    refine ⟨rfl, ?_, .inr ⟨pars, he, parities_length, parities_width, ?_⟩⟩
    · simp only [length_append, length_take, length_map, length_mapIdx,
        coded_length, cache_length, Shards.size]
      omega
    · apply ext_getElem
      · rw [length_map, length_mapIdx, length_mapIdx, coded_length, parities_length]
      · intro i _ hw
        simp only [getElem_map, getElem_mapIdx, getElem_zipWith, getElem_drop]
        apply drop_sealHeader_overwrite
        rw [length_resize, parities_width _ (getElem_mem _), payloadOffset, fecHeaderSize]
        omega

end FecEncoder

/-- The two ends and the network between them.  `total` is the number the next packet gets; `sent` and
`payloads` are what has been sent under each number, and `log` what was fed to the decoder and what it
returned, newest first. -/
structure State (shards : Shards) (headerOffset : ℕ) where
  encoder : FecEncoder shards headerOffset
  decoder : FecDecoder
  total : ℕ
  sent : ℕ → Option Bytes
  payloads : ℕ → Option Bytes
  log : List (ℕ × List Bytes)

def State.initial (shards : Shards) (headerOffset : ℕ) : State shards headerOffset where
  encoder := .new shards headerOffset
  decoder := .new shards
  total := 0
  sent := fun _ => none
  payloads := fun _ => none
  log := []

/-- Packets are lost by never being delivered; they may be delivered in any order, any number of
times. -/
inductive Action where
  | encode (buf : Bytes) (now rtoMs : ℕ)
  | deliver (number : ℕ)

section Step

variable {shards : Shards} {headerOffset : ℕ}

/-- How many numbers the packets of one `encode` take: the parity's are used up even when it is
skipped. -/
def used (shards : Shards) (shardCount : ℕ) : ℕ :=
  if shardCount + 1 = shards.data then 1 + shards.parity else 1

def step (codecs : ℕ → ℕ → Codec) (state : State shards headerOffset) :
    Action → Option (State shards headerOffset)
  | .encode buf now rtoMs =>
    (state.encoder.encode (codecs shards.data shards.parity) buf now rtoMs).map
      fun (encoder, packet, parities) =>
        { state with
          encoder := encoder
          total := state.total + used shards state.encoder.shardCount
          sent := fun other =>
            if other < state.total then state.sent other
            else ((packet :: parities)[other - state.total]?).map (·.drop headerOffset)
          payloads := fun other =>
            if other = state.total then some (buf.drop (headerOffset + fecHeaderSizePlus2))
            else state.payloads other }
  | .deliver number =>
    (state.sent number).map fun packet =>
      let decoded := state.decoder.decode codecs packet
      { state with decoder := decoded.1, log := (number, decoded.2) :: state.log }

end Step

section Sending

variable {shards : Shards} {headerOffset : ℕ} {codec : Codec}
  {s next : State shards headerOffset} {number : ℕ} {pkt : Bytes} {codecs : ℕ → ℕ → Codec}

/-- The rows of a generation whose parity was sent are a codeword. -/
structure Codeword (codec : Codec) (shards : Shards) (sent : ℕ → Option Bytes) (generation : ℕ)
    (rows parities : List Bytes) (width : ℕ) : Prop where
  rows_length : rows.length = shards.data
  parities_length : parities.length = shards.parity
  encodes : codec.encode rows = some parities
  data : ∀ place < shards.data, ∃ packet, sent (generation * shards.size + place) = some packet ∧
    packet.length ≤ width + fecHeaderSize ∧
    rows[place]? = some (resize (packet.drop fecHeaderSize) width)
  parity : ∀ place < shards.parity, ∃ parity, parities[place]? = some parity ∧
    parity.length = width ∧
    sent (generation * shards.size + (shards.data + place)) =
      some (FecEncoder.parityWire ((generation * shards.size + (shards.data + place)) % shards.paws)
        parity)

/-- What the encoder has sent, and what it holds of the generation that is open. -/
structure Sending (codec : Codec) (state : State shards headerOffset) : Prop where
  next_eq : state.encoder.next = state.total % shards.paws
  place : state.total % shards.size = state.encoder.shardCount
  count_lt : state.encoder.shardCount < shards.data
  cache_length : state.encoder.shardCache.length = shards.size
  opened : ∀ place < state.encoder.shardCount, ∃ row, state.encoder.shardCache[place]? = some row ∧
    headerOffset + 8 ≤ row.length ∧ row.length ≤ state.encoder.maxSize ∧
    state.sent (state.total - state.encoder.shardCount + place) = some (row.drop headerOffset)
  sent_lt : ∀ number packet, state.sent number = some packet → number < state.total
  emitted : ∀ number payload, state.payloads number = some payload →
    number % shards.size < shards.data ∧
      state.sent number = some (FecEncoder.dataWire (number % shards.paws) payload)
  data : ∀ number packet, state.sent number = some packet → number % shards.size < shards.data →
    ∃ payload, state.payloads number = some payload ∧
      packet = FecEncoder.dataWire (number % shards.paws) payload
  coded : ∀ number packet, state.sent number = some packet → shards.data ≤ number % shards.size →
    ∃ rows parities width, 2 ≤ width ∧
      Codeword codec shards state.sent (number / shards.size) rows parities width

theorem Codeword.extend {sent nx : ℕ → Option Bytes} {gen w : ℕ}
    {rows pars : List Bytes} (hk : ∀ number pkt, sent number = some pkt →
      nx number = some pkt) (word : Codeword codec shards sent gen rows pars w) :
    Codeword codec shards nx gen rows pars w :=
  { word with
    data := fun pl hw => by
      obtain ⟨pkt, sent, hr⟩ := word.data pl hw
      exact ⟨pkt, hk _ pkt sent, hr⟩
    parity := fun pl hw => by
      obtain ⟨par, hl, w, sent⟩ := word.parity pl hw
      exact ⟨par, hl, w, hk _ _ sent⟩ }

/-- What one `encode` adds to what was sent. -/
structure Emits (state next : State shards headerOffset) (payload : Bytes) (parities : List Bytes) :
    Prop where
  total : next.total = state.total + used shards state.encoder.shardCount
  decoder : next.decoder = state.decoder
  log : next.log = state.log
  old : ∀ number < state.total, next.sent number = state.sent number
  data : next.sent state.total = some (FecEncoder.dataWire state.encoder.next payload)
  parity : ∀ place, next.sent (state.total + 1 + place) =
    (parities.map (·.drop headerOffset))[place]?
  payload : next.payloads state.total = some payload
  payloads : ∀ number, number ≠ state.total → next.payloads number = state.payloads number

/-- The encoder with the row of one more packet. -/
abbrev State.filled (state : State shards headerOffset) (buf : Bytes) : FecEncoder shards headerOffset :=
  state.encoder.collected (state.encoder.sealData buf)

theorem step_encode_eq_some {buf : Bytes} {now rtoMs : ℕ}
    (hs : step codecs s (.encode buf now rtoMs) = some next) :
    headerOffset + 8 ≤ buf.length ∧ ∃ pars, Emits s next (buf.drop (headerOffset + 8)) pars ∧
      ((s.encoder.shardCount + 1 ≠ shards.data ∧ pars = [] ∧ next.encoder =
          { s.filled buf with tsLatest := some now }) ∨
        (s.encoder.shardCount + 1 = shards.data ∧ ∃ fin,
          (∃ continuous, fin = FecEncoder.finish (codecs shards.data shards.parity)
            (s.filled buf) continuous) ∧
          pars = fin.2 ∧ next.encoder =
            { fin.1 with shardCount := 0, maxSize := 0, tsLatest := some now })) := by
  obtain ⟨⟨enc, pkt, pars⟩, he, rfl⟩ := map_eq_some_iff.mp hs
  unfold FecEncoder.encode at he
  split at he
  · cases he
  have hl : headerOffset + 8 ≤ buf.length := le_of_not_gt ‹_›
  have hem : ∀ (enc : FecEncoder shards headerOffset) (pars : List Bytes), Emits s
      { s with
        encoder := enc
        total := s.total + used shards s.encoder.shardCount
        sent := fun o =>
          if o < s.total then s.sent o
          else ((s.encoder.sealData buf :: pars)[o - s.total]?).map (·.drop headerOffset)
        payloads := fun o =>
          if o = s.total then some (buf.drop (headerOffset + fecHeaderSizePlus2))
          else s.payloads o } (buf.drop (headerOffset + 8)) pars := by
    intro enc pars
    constructor
    · rfl
    · rfl
    · rfl
    · intro number hlt
      exact if_pos hlt
    · simp [FecEncoder.drop_sealData hl]
    · intro pl
      have i : s.total + 1 + pl - s.total = pl + 1 := by omega
      have hn : ¬s.total + 1 + pl < s.total := by omega
      simp only [if_neg hn, i, getElem?_cons_succ, getElem?_map]
    · exact if_pos rfl
    · intro number o
      exact if_neg o
  refine ⟨hl, pars, ?_⟩
  simp only at he
  split at he
  · cases he
    exact ⟨hem _ _, .inr ⟨‹_›, _, ⟨_, rfl⟩, rfl, rfl⟩⟩
  · cases he
    exact ⟨hem _ _, .inl ⟨‹_›, rfl, rfl⟩⟩

variable {p buf : Bytes} {pars : List Bytes}

theorem Emits.kept (hse : Sending codec s) (he : Emits s next p pars) (number : ℕ) (pkt : Bytes)
    (hs : s.sent number = some pkt) : next.sent number = some pkt := by
  rw [he.old number (hse.sent_lt number pkt hs), hs]

theorem Emits.cases (he : Emits s next p pars) (hs : next.sent number = some pkt) :
    (number < s.total ∧ s.sent number = some pkt) ∨
      (number = s.total ∧ pkt = FecEncoder.dataWire s.encoder.next p) ∨
      ∃ pl, number = s.total + 1 + pl ∧
        (pars.map (·.drop headerOffset))[pl]? = some pkt := by
  rcases lt_trichotomy number s.total with hl | same | ha
  · exact .inl ⟨hl, by rw [← he.old number hl, hs]⟩
  · subst same
    rw [he.data] at hs
    exact .inr (.inl ⟨rfl, (some.inj hs).symm⟩)
  · obtain ⟨pl, rfl⟩ := Nat.exists_eq_add_of_le ha
    rw [he.parity] at hs
    exact .inr (.inr ⟨pl, rfl, hs⟩)

section

variable (hse : Sending codec s)
include hse

theorem Emits.opened (he : Emits s next (buf.drop (headerOffset + 8)) pars)
    (hl : headerOffset + 8 ≤ buf.length) {pl : ℕ} (hw : pl < s.encoder.shardCount + 1) :
    ∃ row, (s.filled buf).shardCache[pl]? = some row ∧ headerOffset + 8 ≤ row.length ∧
      row.length ≤ (s.filled buf).maxSize ∧
      next.sent (s.total - s.encoder.shardCount + pl) = some (row.drop headerOffset) := by
  have hcl : s.encoder.shardCount ≤ s.total := by
    rw [← hse.place]
    exact mod_le _ _
  have hcr : s.encoder.shardCount < s.encoder.shardCache.length := by
    rw [hse.cache_length, Shards.size]
    exact lt_of_lt_of_le hse.count_lt (Nat.le_add_right _ _)
  rcases Nat.lt_succ_iff_lt_or_eq.mp hw with hp | rfl
  · obtain ⟨row, hc, hle, hm, hs⟩ := hse.opened pl hp
    refine ⟨row, ?_, hle, le_trans hm (le_max_left _ _), he.kept hse _ _ hs⟩
    simp only [FecEncoder.collected]
    rw [getElem?_set_ne (ne_of_gt hp), hc]
  · refine ⟨s.encoder.sealData buf, ?_, ?_, le_max_right _ _, ?_⟩
    · simp only [FecEncoder.collected]
      rw [getElem?_set_self hcr]
    · rw [FecEncoder.length_sealData hl]
      exact hl
    · rw [Nat.sub_add_cancel hcl, he.data, FecEncoder.drop_sealData hl]

theorem Emits.codeword (he : Emits s next (buf.drop (headerOffset + 8)) pars)
    (hl : headerOffset + 8 ≤ buf.length) (hf : s.encoder.shardCount + 1 = shards.data)
    {coded : List Bytes} (hen : codec.encode (s.filled buf).dataRows = some coded)
    (coded_length : coded.length = shards.parity) (coded_width : ∀ par ∈ coded, par.length =
      (s.filled buf).maxSize - s.encoder.payloadOffset)
    (parities_eq : pars.map (·.drop headerOffset) = coded.mapIdx fun i par =>
      FecEncoder.parityWire ((s.total + 1 + i) % shards.paws) par) :
    Codeword codec shards next.sent (s.total / shards.size)
      (s.filled buf).dataRows coded
      ((s.filled buf).maxSize -
        s.encoder.payloadOffset) := by
  have hst : s.total / shards.size * shards.size =
      s.total - s.encoder.shardCount := by
    have hs := div_add_mod s.total shards.size
    rw [hse.place, mul_comm] at hs
    omega
  constructor
  · simp only [FecEncoder.dataRows, FecEncoder.collected, length_map, length_take,
      length_set, hse.cache_length, Shards.size]
    omega
  · exact coded_length
  · exact hen
  · intro pl hw
    obtain ⟨row, hc, hle, hm, sent⟩ := he.opened hse hl (hf ▸ hw)
    refine ⟨row.drop headerOffset, ?_, ?_, ?_⟩
    · rw [hst, sent]
    · rw [length_drop, FecEncoder.payloadOffset, fecHeaderSize]
      omega
    · simp only [FecEncoder.dataRows, getElem?_map, getElem?_take_of_lt hw, hc, map_some, drop_drop]
      rw [drop_resize _ hm]
      · rfl
      · rw [FecEncoder.payloadOffset, fecHeaderSize]
        omega
  · intro pl hw
    have hli : pl < coded.length := by omega
    refine ⟨coded[pl], getElem?_eq_getElem hli, coded_width _ (getElem_mem _), ?_⟩
    have number : s.total / shards.size * shards.size + (shards.data + pl) =
        s.total + 1 + pl := by
      have hs := div_add_mod s.total shards.size
      rw [hse.place, mul_comm] at hs
      omega
    rw [number, he.parity, parities_eq, getElem?_mapIdx, getElem?_eq_getElem hli]
    rfl

theorem Emits.sending_next (he : Emits s next p pars) (hm : s.total < next.total)
    (hb : ∀ pl pkt, (pars.map (·.drop headerOffset))[pl]? = some pkt →
      s.total + 1 + pl < next.total ∧ shards.data ≤ (s.total + 1 + pl) % shards.size ∧
        ∃ rows pars w, 2 ≤ w ∧ Codeword codec shards next.sent
          ((s.total + 1 + pl) / shards.size) rows pars w)
    (next_eq : next.encoder.next = next.total % shards.paws)
    (pl : next.total % shards.size = next.encoder.shardCount)
    (count_lt : next.encoder.shardCount < shards.data)
    (cache_length : next.encoder.shardCache.length = shards.size)
    (ho : ∀ pl < next.encoder.shardCount, ∃ row, next.encoder.shardCache[pl]? = some row ∧
      headerOffset + 8 ≤ row.length ∧ row.length ≤ next.encoder.maxSize ∧
      next.sent (next.total - next.encoder.shardCount + pl) = some (row.drop headerOffset)) :
    Sending codec next where
  next_eq := next_eq
  place := pl
  count_lt := count_lt
  cache_length := cache_length
  opened := ho
  sent_lt number pkt hs := by
    obtain ⟨hlt, _⟩ | ⟨rfl, _⟩ | ⟨pl, rfl, hl⟩ := he.cases hs
    · omega
    · exact hm
    · exact (hb pl pkt hl).1
  emitted number p hh := by
    by_cases same : number = s.total
    · subst same
      rw [he.payload] at hh
      cases hh
      refine ⟨?_, by rw [he.data, hse.next_eq]⟩
      rw [hse.place]
      exact hse.count_lt
    · rw [he.payloads number same] at hh
      obtain ⟨pl, hs⟩ := hse.emitted number p hh
      exact ⟨pl, he.kept hse number _ hs⟩
  data number pkt hs hd := by
    obtain ⟨hlt, old⟩ | ⟨rfl, rfl⟩ | ⟨pl, rfl, hl⟩ := he.cases hs
    · obtain ⟨old, hh, same⟩ := hse.data number pkt old hd
      exact ⟨old, by rw [he.payloads number (Nat.ne_of_lt hlt), hh], same⟩
    · exact ⟨_, he.payload, by rw [hse.next_eq]⟩
    · exact absurd hd (not_lt.mpr (hb pl pkt hl).2.1)
  coded number pkt hs hp := by
    obtain ⟨hlt, old⟩ | ⟨rfl, rfl⟩ | ⟨pl, rfl, hl⟩ := he.cases hs
    · obtain ⟨rows, pars, w, hw, word⟩ := hse.coded number pkt old hp
      exact ⟨rows, pars, w, hw, word.extend (he.kept hse)⟩
    · rw [hse.place] at hp
      exact absurd hse.count_lt (not_lt.mpr hp)
    · exact (hb pl pkt hl).2.2

end

theorem Sending.encode (hla : (codecs shards.data shards.parity).Lawful shards.data shards.parity)
    (hse : Sending (codecs shards.data shards.parity) s) {now rtoMs : ℕ}
    (hs : step codecs s (.encode buf now rtoMs) = some next) :
    Sending (codecs shards.data shards.parity) next := by
  obtain ⟨hl, pars, he, hc⟩ := step_encode_eq_some hs
  have total_eq := he.total
  have hcl := hse.count_lt
  have hfo : (s.total + 1) % shards.size = s.encoder.shardCount + 1 := by
    have parity_pos := shards.parity_pos
    rw [shards.add_mod_size, hse.place]
    rw [hse.place, Shards.size]
    omega
  have hni : FecEncoder.advance shards s.encoder.next 1 = (s.total + 1) % shards.paws := by
    rw [hse.next_eq, FecEncoder.advance_one]
  have cache_length : (s.filled buf).shardCache.length = shards.size := by
    rw [State.filled, FecEncoder.collected, length_set, hse.cache_length]
  obtain ⟨hu, rfl, encoder_eq⟩ | ⟨hf, fin, ⟨continuous, rfl⟩, rfl, encoder_eq⟩ := hc
  · rw [used, if_neg hu] at total_eq
    apply he.sending_next hse
    · omega
    · simp
    · rw [encoder_eq, total_eq]
      exact hni
    · rw [encoder_eq, total_eq]
      exact hfo
    · rw [encoder_eq]
      show s.encoder.shardCount + 1 < shards.data
      omega
    · rw [encoder_eq]
      exact cache_length
    · rw [encoder_eq, total_eq]
      intro pl hw
      obtain ⟨row, hca, hle, hm, sent⟩ := he.opened hse hl hw
      refine ⟨row, hca, hle, hm, ?_⟩
      rw [← sent]
      congr 1
      show s.total + 1 - (s.encoder.shardCount + 1) + pl = _
      omega
  · rw [used, if_pos hf] at total_eq
    rw [hf] at hfo
    have wide : headerOffset + 8 ≤ (s.filled buf).maxSize := by
      apply le_trans hl
      rw [← FecEncoder.length_sealData hl]
      exact le_max_right _ _
    obtain ⟨finished_next, finished_cache, hsp⟩ :=
      FecEncoder.finish_spec hla hni hfo cache_length wide continuous
    apply he.sending_next hse
    · omega
    · intro pl pkt hli
      obtain hn | ⟨coded, hen, coded_length, coded_width, parities_eq⟩ := hsp
      · rw [hn] at hli
        simp at hli
      · have hw := (List.getElem?_eq_some_iff.mp (parities_eq ▸ hli)).1
        rw [length_mapIdx, coded_length] at hw
        have hr : s.total % shards.size + (1 + pl) < shards.size := by
          rw [hse.place, Shards.size]
          omega
        rw [add_assoc, shards.add_mod_size hr, shards.add_div_size hr, hse.place]
        refine ⟨by omega, by omega, _, coded, _, ?_,
          he.codeword hse hl hf hen coded_length coded_width parities_eq⟩
        rw [FecEncoder.payloadOffset, fecHeaderSize]
        omega
    · rw [encoder_eq, total_eq, ← add_assoc]
      exact finished_next
    · rw [encoder_eq, total_eq]
      have hspl := div_add_mod s.total shards.size
      rw [hse.place] at hspl
      rw [show s.total + (1 + shards.parity) = shards.size * (s.total / shards.size + 1) by
        nth_rewrite 1 [← hspl]
        rw [add_assoc]
        congr 1
        unfold Shards.size
        omega]
      exact mul_mod_right _ _
    · rw [encoder_eq]
      exact shards.data_pos
    · rw [encoder_eq]
      exact finished_cache
    · rw [encoder_eq]
      intro pl hw
      exact absurd hw (not_lt_zero pl)

theorem Sending.deliver (hse : Sending codec s)
    (hs : step codecs s (.deliver number) = some next) : Sending codec next := by
  obtain ⟨pkt, _, rfl⟩ := map_eq_some_iff.mp hs
  exact ⟨hse.next_eq, hse.place, hse.count_lt, hse.cache_length, hse.opened,
    hse.sent_lt, hse.emitted, hse.data, hse.coded⟩

theorem sending_initial : Sending codec (State.initial shards headerOffset) where
  next_eq := (zero_mod _).symm
  place := zero_mod _
  count_lt := shards.data_pos
  cache_length := length_replicate
  opened _ hw := absurd hw (not_lt_zero _)
  sent_lt := nofun
  emitted := nofun
  data := nofun
  coded := nofun

/-- The form of every packet on the wire: its id, its type and at least two bytes of a row. -/
theorem Sending.wire (hse : Sending codec s) (sent : s.sent number = some pkt) :
    ∃ row, 2 ≤ row.length ∧ pkt = leBytes 4 (number % shards.paws) ++
      (leBytes 2 (if number % shards.size < shards.data then typeData else typeParity) ++ row) := by
  by_cases pl : number % shards.size < shards.data
  · obtain ⟨p, _, hs⟩ := hse.data number pkt sent pl
    refine ⟨_, ?_, by rw [if_pos pl]; exact hs⟩
    rw [length_append, length_leBytes]
    exact le_add_right _ _
  · obtain ⟨rows, pars, w, wide, word⟩ :=
      hse.coded number pkt sent (le_of_not_gt pl)
    obtain ⟨hw, hs⟩ := shards.parity_place pl
    obtain ⟨par, _, hl, ho⟩ := word.parity _ hw
    rw [hs, sent] at ho
    refine ⟨par, hl ▸ wide, ?_⟩
    rw [if_neg pl]
    exact some.inj ho

end Sending

section Packets

variable {sh : Shards} {number kind : ℕ} {row : Bytes}

theorem seqid_append : seqid (leBytes 4 (number % sh.paws) ++ (leBytes 2 kind ++ row)) =
    number % sh.paws := by
  rw [seqid, take_append_of_le_length (by simp), take_of_length_le (by simp)]
  apply leValue_leBytes_of_lt
  have hl := mod_lt number sh.paws_pos
  have hb := sh.paws_le
  omega

theorem flag_append {id : ℕ} (hs : kind < 2 ^ 16) :
    flag (leBytes 4 id ++ (leBytes 2 kind ++ row)) = kind := by
  have hc : (leBytes 4 id ++ (leBytes 2 kind ++ row)).drop 4 = leBytes 2 kind ++ row :=
    drop_left' (length_leBytes 4 id)
  rw [flag, hc, take_append_of_le_length (by simp), take_of_length_le (by simp)]
  exact leValue_leBytes_of_lt hs

theorem drop_header_append {id : ℕ} :
    (leBytes 4 id ++ (leBytes 2 kind ++ row)).drop fecHeaderSize = row := by
  rw [← append_assoc]
  exact drop_left' (by simp [fecHeaderSize])

end Packets

end MeowRs.Fec
