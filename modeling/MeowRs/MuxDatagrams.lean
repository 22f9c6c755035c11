import MeowRs.ChunkedReads
import MeowRs.LittleEndian
import MeowRs.Polling

/-!
# Datagrams over a mux stream

A UDP flow goes over a mux stream as datagrams behind their lengths.  Both ends keep how far they
have come when a call is dropped: the writer the frame that it has begun, the reader the length and
the payload that it has read.
-/

namespace MeowRs.MuxDatagrams

open List Option ChunkedReads

open BigEndian (beBytes beValue beValue_beBytes)
open Polling (Poll WriteAnswer drain)

/-- `[len u16 BE][data]`. -/
def frame (data : Bytes) : Bytes :=
  beBytes data.length ++ data

/-- The frame a writer has begun, and how many of its bytes are written. -/
abbrev PacketWriter := Option (Bytes × Nat)

/-- What a call did: its result, the writer after it, the bytes the stream took, and the answers of
the stream that were not used.  It is pending where it was dropped. -/
structure Written where
  result : Poll (Except String Unit)
  writer : PacketWriter
  bytes : Bytes
  answers : List (WriteAnswer String)

def drainPending (writer : PacketWriter) (answers : List (WriteAnswer String)) : Written :=
  match writer with
  | none => ⟨.ready (.ok ()), none, [], answers⟩
  | some (frame, offset) =>
    let drained := drain "mux: zero-length write during datagram send" frame.length answers offset
    ⟨drained.outcome,
      if drained.outcome = .ready (.ok ()) then none else some (frame, drained.pos),
      (frame.take drained.pos).drop offset, drained.answers⟩

/-- What becomes of the frame of a call that was dropped: a retry keeps it, and otherwise it is
discarded or finished. -/
def settlePending (writer : PacketWriter) (data : Bytes) (answers : List (WriteAnswer String)) :
    Written :=
  match writer with
  | none => ⟨.ready (.ok ()), none, [], answers⟩
  | some (frame, offset) =>
    if frame.drop 2 = data then ⟨.ready (.ok ()), some (frame, offset), [], answers⟩
    else if offset = 0 then ⟨.ready (.ok ()), none, [], answers⟩
    else drainPending (some (frame, offset)) answers

/-- `write_datagram`; the last argument answers its flush. -/
def writeDatagram (writer : PacketWriter) (data : Bytes) (answers : List (WriteAnswer String))
    (flushed : Poll (Except String Unit)) : Written :=
  if 65535 < data.length then
    ⟨.ready (.error ("mux: UDP packet (" ++ toString data.length ++
      " bytes) exceeds u16 framing")), writer, [], answers⟩
  else
    let settled := settlePending writer data answers
    if settled.result = .ready (.ok ()) then
      let sent := drainPending (some (settled.writer.getD (frame data, 0))) settled.answers
      ⟨if sent.result = .ready (.ok ()) then flushed else sent.result, sent.writer,
        settled.bytes ++ sent.bytes, sent.answers⟩
    else settled

inductive ReadError where
  | eofInLength
  | eofInPayload
  | exceedsBuffer (packet room : Nat)
  deriving DecidableEq

def ReadError.text : ReadError → String
  | .eofInLength => "mux: EOF while reading UDP packet length"
  | .eofInPayload => "mux: EOF while reading UDP packet payload"
  | .exceedsBuffer packet room =>
    "mux: UDP packet (" ++ toString packet ++ " bytes) exceeds read buffer (" ++ toString room ++
      " bytes)"

structure PacketReader where
  len : Bytes
  size : Nat
  payload : Bytes
  deriving DecidableEq

namespace PacketReader

def new : PacketReader := ⟨[], 0, []⟩

/-- A datagram is handed over, or refused when it is larger than the caller's buffer. -/
def verdict (capacity : Nat) (datagram : Bytes) : Except ReadError Bytes :=
  if capacity < datagram.length then .error (.exceedsBuffer datagram.length capacity)
  else .ok datagram

/-- Up to the next read. -/
def advance (capacity : Nat) (reader : PacketReader) :
    PacketReader × Option (Except ReadError Bytes) :=
  if reader.len.length < 2 then (reader, none)
  else
    let size :=
      if reader.size = 0 ∧ reader.payload = [] then
        beValue (reader.len.getD 0 0) (reader.len.getD 1 0)
      else reader.size
    if reader.payload.length < size then ({ reader with size }, none)
    else (new, some (verdict capacity reader.payload))

def eofError (reader : PacketReader) : ReadError :=
  if reader.len.length < 2 then .eofInLength else .eofInPayload

/-- One `read_datagram` into a buffer of `capacity` bytes. -/
def readDatagram (capacity : Nat) : Reader UInt8 PacketReader (Except ReadError Bytes) where
  settle := advance capacity
  limit reader :=
    if reader.len.length < 2 then 2 - reader.len.length else reader.size - reader.payload.length
  take reader chunk :=
    advance capacity
      (if reader.len.length < 2 then { reader with len := reader.len ++ chunk }
        else { reader with payload := reader.payload ++ chunk })
  ended reader := (reader, .error reader.eofError)

end PacketReader

open PacketReader

structure Call where
  data : Bytes
  answers : List (WriteAnswer String)
  flushed : Poll (Except String Unit)

/-- A writer with what it has written and the datagrams of the calls that succeeded. -/
structure Uplink where
  writer : PacketWriter
  wire : Bytes
  sent : List Bytes

namespace Uplink

def new : Uplink := ⟨none, [], []⟩

def perform (uplink : Uplink) (call : Call) : Uplink :=
  let written := writeDatagram uplink.writer call.data call.answers call.flushed
  ⟨written.writer, uplink.wire ++ written.bytes,
    if written.result = .ready (.ok ()) then uplink.sent ++ [call.data] else uplink.sent⟩

end Uplink

/-- Complete frames, and a proper beginning of the frame of a datagram that was offered after
theirs. -/
structure Carries (offered : List Bytes) (stream : Bytes) (frames : List Bytes) : Prop where
  small : ∀ data ∈ frames, data.length ≤ 65535
  cut : ∃ data part rest, data.length ≤ 65535 ∧ stream = frames.flatMap frame ++ part ∧
    frame data = part ++ rest ∧ rest ≠ [] ∧ (part ≠ [] → (frames ++ [data]).Sublist offered)

/-- What a call of the reader returns for the datagrams that it has come to the end of: there is at
most one, and without one it is pending or the stream has ended. -/
def Answers (capacity : Nat) (result : Option (Except ReadError Bytes)) (datagrams : List Bytes) :
    Prop :=
  (datagrams = [] ∧
      (result = none ∨ ∃ reader : PacketReader, result = some (.error reader.eofError))) ∨
    ∃ datagram, datagrams = [datagram] ∧ result = some (verdict capacity datagram)

section Writing

variable {uplink : Uplink} {wire : Bytes} {sent offered frames : List Bytes}

/-- The beginning of a frame that is on the wire. -/
def begun (writer : PacketWriter) : Bytes :=
  writer.elim [] fun pending => pending.1.take pending.2

/-- The datagrams whose frames are complete, among those that were offered; a frame that is begun
stands behind them. -/
structure Committed (uplink : Uplink) (offered frames : List Bytes) : Prop where
  small : ∀ data ∈ frames, data.length ≤ 65535
  among : frames.Sublist offered
  pending : ∀ bytes offset, uplink.writer = some (bytes, offset) → offset < bytes.length ∧
    ∃ data, bytes = frame data ∧ data.length ≤ 65535 ∧ (frames ++ [data]).Sublist offered
  wire : uplink.wire = frames.flatMap frame ++ begun uplink.writer
  sent : uplink.sent.Sublist frames

theorem Committed.drain {bytes : Bytes} {offset : Nat}
    (hc : Committed ⟨some (bytes, offset), wire, sent⟩ offered frames)
    (ans : List (WriteAnswer String)) :
    let written := drainPending (some (bytes, offset)) ans
    ∃ done, Committed ⟨written.writer, wire ++ written.bytes, sent⟩ offered (frames ++ done) ∧
      (written.result = .ready (.ok ()) → written.writer = none ∧ done = [bytes.drop 2]) := by
  obtain ⟨hw, data, rfl, hsm, ha⟩ := hc.pending bytes offset rfl
  have ho : wire = frames.flatMap frame ++ (frame data).take offset := hc.wire
  dsimp only [drainPending]
  generalize zero : "mux: zero-length write during datagram send" = zeroWrite
  have he := @Polling.drain_outcome_iff _ zeroWrite _ ans _ (le_of_lt hw)
  obtain ⟨hf, hi⟩ := @Polling.drain_pos _ zeroWrite _ ans _ (le_of_lt hw)
  generalize Polling.drain zeroWrite (frame data).length ans offset = drained at *
  have hj : (frame data).take offset ++ ((frame data).take drained.pos).drop offset =
      (frame data).take drained.pos := by
    conv_rhs => rw [← take_append_drop offset ((frame data).take drained.pos),
      take_take, min_eq_left hf]
  split
  · rename_i ok
    refine ⟨[data], ⟨?_, ha, nofun, ?_, ?_⟩, fun _ => ⟨rfl, rfl⟩⟩
    · intro o hm
      rcases mem_append.mp hm with hp | hl
      · exact hc.small o hp
      · rwa [mem_singleton.mp hl]
    · rw [ho, append_assoc, hj, he.mp ok, take_length]
      simp [begun]
    · exact hc.sent.trans (sublist_append_left frames [data])
  · rename_i notOk
    refine ⟨[], ?_, fun ok => absurd ok notOk⟩
    rw [append_nil]
    refine ⟨hc.small, hc.among, ?_, ?_, hc.sent⟩
    · intro bytes pos hs
      cases hs
      exact ⟨lt_of_le_of_ne hi fun hen => notOk (he.mpr hen), data, rfl, hsm, ha⟩
    · rw [ho, append_assoc, hj]
      rfl

theorem Committed.offer (hc : Committed uplink offered frames) (data : Bytes) :
    Committed uplink (offered ++ [data]) frames :=
  { hc with
    among := hc.among.trans (sublist_append_left offered [data])
    pending := fun bs off hs => by
      obtain ⟨hw, data, hf, hsm, ha⟩ := hc.pending bs off hs
      exact ⟨hw, data, hf, hsm, ha.trans (sublist_append_left offered _)⟩ }

theorem Committed.begin {data : Bytes} (hsm : data.length ≤ 65535)
    (hc : Committed ⟨none, wire, sent⟩ offered frames) :
    Committed ⟨some (frame data, 0), wire, sent⟩ (offered ++ [data]) frames :=
  { hc.offer data with
    pending := fun bytes offset hs => by
      cases hs
      exact ⟨Nat.zero_lt_succ _, data, rfl, hsm, hc.among.append_right [data]⟩
    wire := hc.wire }

theorem Committed.discard {bs : Bytes} (hc : Committed ⟨some (bs, 0), wire, sent⟩ offered frames) :
    Committed ⟨none, wire, sent⟩ offered frames :=
  { hc with pending := nofun, wire := hc.wire }

/-- Before a frame is drained it is the frame of the call. -/
theorem Committed.settle {writer : PacketWriter} {data : Bytes} (hs : data.length ≤ 65535)
    (hc : Committed ⟨writer, wire, sent⟩ offered frames) (ans : List (WriteAnswer String)) :
    let settled := settlePending writer data ans
    ∃ done, Committed ⟨settled.writer, wire ++ settled.bytes, sent⟩ offered (frames ++ done) ∧
      (settled.result = .ready (.ok ()) → ∃ offset,
        settled.writer.getD (frame data, 0) = (frame data, offset) ∧
        Committed ⟨some (frame data, offset), wire ++ settled.bytes, sent⟩ (offered ++ [data])
          (frames ++ done)) := by
  unfold settlePending
  cases writer with
  | none =>
    refine ⟨[], ?_, fun _ => ⟨0, rfl, ?_⟩⟩
    · rw [append_nil, append_nil]
      exact hc
    · rw [append_nil, append_nil]
      exact hc.begin hs
  | some pending =>
    obtain ⟨bytes, offset⟩ := pending
    dsimp only
    split
    · rename_i retry
      obtain ⟨_, o, rfl, _⟩ := hc.pending bytes offset rfl
      obtain rfl : o = data := retry
      refine ⟨[], ?_, fun _ => ⟨offset, rfl, ?_⟩⟩
      · rw [append_nil, append_nil]
        exact hc
      · rw [append_nil, append_nil]
        exact hc.offer o
    · split
      · rename_i unsent
        subst unsent
        refine ⟨[], ?_, fun _ => ⟨0, rfl, ?_⟩⟩
        · rw [append_nil, append_nil]
          exact hc.discard
        · rw [append_nil, append_nil]
          exact hc.discard.begin hs
      · obtain ⟨done, hf, he⟩ := hc.drain ans
        refine ⟨done, hf, fun ok => ⟨0, ?_, ?_⟩⟩
        · rw [(he ok).1]
          rfl
        · rw [(he ok).1] at hf
          exact hf.begin hs

theorem Committed.perform (hc : Committed uplink offered frames) (call : Call) :
    ∃ frames, Committed (uplink.perform call) (offered ++ [call.data]) frames := by
  unfold Uplink.perform writeDatagram
  split
  · refine ⟨frames, ?_⟩
    dsimp only
    rw [append_nil, if_neg nofun]
    exact hc.offer call.data
  · rename_i small
    obtain ⟨done, settled, hb⟩ := hc.settle (le_of_not_gt small) call.answers
    dsimp only
    split
    · rename_i ok
      obtain ⟨off, framed, begun⟩ := hb ok
      obtain ⟨last, written, ends⟩ := begun.drain
        (settlePending uplink.writer call.data call.answers).answers
      rw [framed, ← append_assoc]
      refine ⟨_, { written with sent := ?_ }⟩
      split
      · rename_i drained
        rw [(ends drained).2]
        split
        · exact settled.sent.append_right [call.data]
        · exact settled.sent.trans (sublist_append_left _ _)
      · exact written.sent
    · exact ⟨_, settled.offer call.data⟩

theorem Committed.foldl (calls : List Call) (hc : Committed uplink offered frames) :
    ∃ frames, Committed (calls.foldl Uplink.perform uplink) (offered ++ calls.map Call.data)
      frames := by
  induction calls generalizing uplink offered frames with
  | nil =>
    rw [map_nil, append_nil]
    exact ⟨frames, hc⟩
  | cons call calls ih =>
    obtain ⟨frames, hn⟩ := hc.perform call
    rw [map_cons, append_cons]
    exact ih hn

theorem Committed.carries (hc : Committed uplink offered frames) :
    Carries offered uplink.wire frames := by
  refine ⟨hc.small, ?_⟩
  rw [hc.wire]
  cases hf : uplink.writer with
  | none => exact ⟨[], [], frame [], Nat.zero_le _, rfl, rfl, nofun, fun begun => absurd rfl begun⟩
  | some pending =>
    obtain ⟨bytes, offset⟩ := pending
    obtain ⟨hw, data, rfl, hs, among⟩ := hc.pending bytes offset hf
    refine ⟨data, _, (frame data).drop offset, hs, rfl, (take_append_drop _ _).symm, ?_,
      fun _ => among⟩
    rw [ne_eq, drop_eq_nil_iff]
    exact not_le_of_gt hw

end Writing

/-- A stream is read byte by byte. -/
inductive Decoder where
  | length (held : Bytes)
  | payload (size : Nat) (held : Bytes)

namespace Decoder

def enter (len : Bytes) : Decoder × List Bytes :=
  if beValue (len.getD 0 0) (len.getD 1 0) = 0 then (.length [], [[]])
  else (.payload (beValue (len.getD 0 0) (len.getD 1 0)) [], [])

/-- One byte, and the datagram that it ends. -/
def step : Decoder → UInt8 → Decoder × List Bytes
  | .length held, byte =>
    if (held ++ [byte]).length < 2 then (.length (held ++ [byte]), []) else enter (held ++ [byte])
  | .payload size held, byte =>
    if (held ++ [byte]).length < size then (.payload size (held ++ [byte]), [])
    else (.length [], [held ++ [byte]])

end Decoder

open Decoder

section Reading

def Relates (reader : PacketReader) : Decoder → Prop
  | .length held => reader = ⟨held, 0, []⟩ ∧ held.length < 2
  | .payload size held =>
    reader.len.length = 2 ∧ reader.size = size ∧ reader.payload = held ∧ held.length < size

theorem advance_of_relates {reader : PacketReader} {decoder : Decoder}
    (hr : Relates reader decoder) (capacity : Nat) : reader.advance capacity = (reader, none) := by
  cases decoder with
  | length held =>
    obtain ⟨rfl, hs⟩ := hr
    rw [advance, if_pos hs]
  | payload size held =>
    obtain ⟨len, size, payload⟩ := reader
    obtain ⟨hf, rfl, rfl, hm⟩ := hr
    dsimp only at hf hm
    have hc : ¬ (size = 0 ∧ payload = []) := by omega
    rw [advance, if_neg (by dsimp only; omega)]
    rw [if_neg hc, if_pos hm]

theorem ne_eof_of_advance {cap : Nat} {rd : PacketReader} {res : Except ReadError Bytes}
    (hr : (rd.advance cap).2 = some res) : ¬ ∃ rd : PacketReader, res = .error rd.eofError := by
  rintro ⟨o, rfl⟩
  unfold advance verdict eofError at hr
  dsimp only at hr
  split_ifs at hr <;> cases hr

theorem run_length {held ch : Bytes} (hs : ch ≠ []) (hf : (held ++ ch).length ≤ 2) :
    run step (.length held) ch = if (held ++ ch).length < 2 then (.length (held ++ ch), [])
      else enter (held ++ ch) :=
  run_collect (fun held b hsh => by rw [step, if_pos (by simpa using hsh)])
    (fun held b hl => by rw [step, if_neg (by simp [hl])]) held ch hs hf

theorem run_payload {size : Nat} {held ch : Bytes} (hs : ch ≠ [])
    (hf : (held ++ ch).length ≤ size) :
    run step (.payload size held) ch =
      if (held ++ ch).length < size then (.payload size (held ++ ch), [])
      else (.length [], [held ++ ch]) :=
  @run_collect _ _ _ step (.payload size) size (fun held => (.length [], [held]))
    (fun held b hsh => by rw [step, if_pos (by simpa using hsh)])
    (fun held b hl => by rw [step, if_neg (by simp [hl])]) held ch hs hf

theorem limit_pos {capacity : Nat} {reader : PacketReader} {decoder : Decoder}
    (hr : Relates reader decoder) : 0 < (readDatagram capacity).limit reader := by
  cases decoder with
  | length held =>
    obtain ⟨rfl, hs⟩ := hr
    dsimp only [readDatagram]
    rw [if_pos hs]
    omega
  | payload size held =>
    obtain ⟨hf, rfl, rfl, hm⟩ := hr
    dsimp only [readDatagram]
    rw [hf, if_neg (lt_irrefl 2)]
    omega

theorem takes (capacity : Nat) {reader : PacketReader} {decoder : Decoder} {chunk : Bytes}
    (hr : Relates reader decoder) (hs : chunk ≠ [])
    (hf : chunk.length ≤ (readDatagram capacity).limit reader) :
    Relates ((readDatagram capacity).take reader chunk).1 (run step decoder chunk).1 ∧
      Answers capacity ((readDatagram capacity).take reader chunk).2
        (run step decoder chunk).2 := by
  cases decoder with
  | length held =>
    obtain ⟨rfl, hsh⟩ := hr
    dsimp only [readDatagram] at hf ⊢
    rw [if_pos hsh] at hf ⊢
    have hw : (held ++ chunk).length ≤ 2 := by rw [length_append]; omega
    rw [run_length hs hw, advance]
    split
    · rename_i shorter
      exact ⟨⟨rfl, shorter⟩, .inl ⟨rfl, .inl rfl⟩⟩
    · rename_i full
      rw [if_pos (show (0 : Nat) = 0 ∧ ([] : Bytes) = [] from ⟨rfl, rfl⟩), enter]
      by_cases he : beValue ((held ++ chunk).getD 0 0) ((held ++ chunk).getD 1 0) = 0
      · rw [he]
        exact ⟨⟨rfl, Nat.zero_lt_succ 1⟩, .inr ⟨[], rfl, rfl⟩⟩
      · have hc := pos_of_ne_zero he
        rw [if_neg he, length_nil, if_pos hc]
        exact ⟨⟨le_antisymm hw (le_of_not_gt full), rfl, rfl, hc⟩, .inl ⟨rfl, .inl rfl⟩⟩
  | payload size held =>
    obtain ⟨len, size, payload⟩ := reader
    obtain ⟨full, rfl, rfl, more⟩ := hr
    dsimp only [readDatagram] at full more hf ⊢
    have behind : ¬ len.length < 2 := by omega
    rw [if_neg behind] at hf ⊢
    have hc : ¬ (size = 0 ∧ payload ++ chunk = []) := by omega
    rw [run_payload hs (by rw [length_append]; omega), advance, if_neg behind]
    dsimp only
    rw [if_neg hc]
    split
    · rename_i shorter
      exact ⟨⟨full, rfl, rfl, shorter⟩, .inl ⟨rfl, .inl rfl⟩⟩
    · exact ⟨⟨rfl, Nat.zero_lt_succ 1⟩, .inr ⟨_, rfl, rfl⟩⟩

theorem follows_readDatagram (cap : Nat) :
    ChunkedReads.Follows step Relates (fun res out => Answers cap res out.2)
      (readDatagram cap) where
  pending out := by
    constructor
    · rintro (⟨hn, _⟩ | ⟨_, _, he⟩)
      · exact hn
      · cases he
    · exact fun hn => .inl ⟨hn, .inl rfl⟩
  settles hr := by
    dsimp only [readDatagram]
    rw [advance_of_relates hr]
    exact ⟨hr, .inl ⟨rfl, .inl rfl⟩⟩
  asks hr _ := by
    dsimp only [readDatagram]
    rw [advance_of_relates hr]
    exact @limit_pos cap _ _ hr
  takes := by
    intro rd dec ch hr _ hs hf
    dsimp only [readDatagram] at hf ⊢
    rw [advance_of_relates hr] at hf ⊢
    exact takes cap hr hs hf
  ends hr _ := by
    dsimp only [readDatagram]
    rw [advance_of_relates hr]
    exact ⟨hr, .inl ⟨rfl, .inr ⟨_, rfl⟩⟩⟩

theorem run_beBytes {size : Nat} (hs : size ≤ 65535) :
    run step (.length []) (beBytes size) =
      if size = 0 then (.length [], [[]]) else (.payload size [], []) := by
  have v := beValue_beBytes (Nat.lt_succ_of_le hs)
  rw [@run_length [] (beBytes size) (cons_ne_nil _ _) (le_refl 2)]
  change (if beValue (UInt8.ofNat (size / 256)) (UInt8.ofNat size) = 0 then _
    else (Decoder.payload (beValue (UInt8.ofNat (size / 256)) (UInt8.ofNat size)) [], _)) = _
  rw [v]

theorem run_frame {data : Bytes} (hs : data.length ≤ 65535) :
    run step (.length []) (frame data) = (.length [], [data]) := by
  rw [frame, run_append, run_beBytes hs]
  by_cases he : data = []
  · subst he
    rfl
  · rw [if_neg (length_eq_zero_iff.not.mpr he), @run_payload data.length [] data he
      (le_refl _), nil_append, if_neg (lt_irrefl _)]
    rfl

theorem run_part {data part rest : Bytes} (hsm : data.length ≤ 65535)
    (hc : frame data = part ++ rest) (hm : rest ≠ []) : (run step (.length []) part).2 = [] := by
  match part, hc with
  | [], _ => rfl
  | [b], _ => rfl
  | high :: low :: held, hc =>
    obtain ⟨rfl, rfl, rfl⟩ : UInt8.ofNat (data.length / 256) = high ∧
        UInt8.ofNat data.length = low ∧ data = held ++ rest := by
      simpa [frame, beBytes] using hc
    have hs : held.length < (held ++ rest).length := by
      rw [length_append]
      exact Nat.lt_add_of_pos_right (length_pos_iff.mpr hm)
    change (run step (.length []) (beBytes (held ++ rest).length ++ held)).2 = []
    rw [run_append, run_beBytes hsm, if_neg (ne_of_gt (Nat.zero_lt_of_lt hs))]
    by_cases hn : held = []
    · rw [hn]
      rfl
    · rw [run_payload hn (le_of_lt hs), nil_append, if_pos hs]
      rfl

theorem run_frames {frames : List Bytes} (hs : ∀ data ∈ frames, data.length ≤ 65535) :
    run step (.length []) (frames.flatMap frame) = (.length [], frames) := by
  induction frames with
  | nil => rfl
  | cons data frames ih =>
    rw [forall_mem_cons] at hs
    rw [flatMap_cons, run_append, run_frame hs.1, ih hs.2]
    rfl

theorem Carries.run {offered frames : List Bytes} {str : Bytes} (hca : Carries offered str frames) :
    (run step (.length []) str).2 = frames := by
  obtain ⟨hs, data, part, rest, hf, rfl, hc, hm, _⟩ := hca
  rw [run_append, run_frames hs, run_part hf hc hm, append_nil]

end Reading

/-- Whatever calls are dropped, the wire carries the datagrams of those that succeeded, each
datagram that was offered at most once, and a reader hands over what a stream carries but for the
datagrams that are too large for its buffer. -/
theorem datagrams_survive (calls : List Call) :
    (∃ frames, Carries (calls.map Call.data) (calls.foldl Uplink.perform .new).wire frames ∧
      (calls.foldl Uplink.perform .new).sent.Sublist frames ∧
      frames.Sublist (calls.map Call.data)) ∧
    ∀ offered stream frames, Carries offered stream frames → ∀ closed reads,
      let outcome := session readDatagram closed reads PacketReader.new stream
      (∃ datagrams, Forall₂ (fun result => Answers result.1 result.2) outcome.2.2 datagrams ∧
        datagrams.flatten <+: frames ∧ (outcome.2.1 = [] → datagrams.flatten = frames)) ∧
      ∀ capacity answers reader,
        let polled := (readDatagram capacity).poll closed answers outcome.1 outcome.2.1
        polled.result = some (.error (eofError reader)) → polled.rest = [] ∧ closed = true := by
  constructor
  · have hs : Committed .new [] [] := ⟨nofun, .slnil, nofun, rfl, .slnil⟩
    obtain ⟨frames, hc⟩ := hs.foldl calls
    exact ⟨frames, hc.carries, hc.sent, hc.among⟩
  · intro offered stream frames hca closed reads
    have hr : Relates PacketReader.new (.length []) := ⟨rfl, Nat.zero_lt_succ 1⟩
    obtain ⟨taken, datagrams, cut, last, ha, hf⟩ :=
      session_follows follows_readDatagram closed reads hr stream
    have hw := hca.run
    rw [cut, run_append, ← hf] at hw
    refine ⟨⟨datagrams, ?_, ⟨_, hw⟩, fun hp => ?_⟩, ?_⟩
    · exact ha.imp fun _ _ ⟨_, answers⟩ => answers
    · rw [hp] at hw
      rwa [run, append_nil] at hw
    · intro capacity answers reader polled hre
      refine @ChunkedReads.Follows.ended_of_poll _ _ _ _ _ _ _ _ _ (follows_readDatagram capacity)
        (fun result => ∃ reader, result = .error (eofError reader)) closed ?_ ?_ answers _ _ last _
        _ hre ⟨reader, rfl⟩
      · exact fun _ _ => ne_eof_of_advance
      · exact fun _ _ _ _ => ne_eof_of_advance

def interruptedCalls : List Call :=
  [⟨[1, 2, 3], [.ready (.ok 4), .pending], .pending⟩,
    ⟨[9], [.ready (.ok 100), .ready (.ok 2), .ready (.ok 1)], .ready (.ok ())⟩]

def interruptedReads : List (Nat × List (Option Nat)) :=
  [(2, [some 0, none]), (2, [some 0, some 7]), (1, [some 9, some 9])]

theorem late_datagram_refused :
    ∃ datagrams, Forall₂ (fun result => Answers result.1 result.2)
      (session readDatagram true interruptedReads PacketReader.new
        (interruptedCalls.foldl Uplink.perform .new).wire).2.2 datagrams ∧
      datagrams.flatten = [[1, 2, 3], [9]] := by
  have hc : Carries (interruptedCalls.map Call.data)
      (interruptedCalls.foldl Uplink.perform .new).wire [[1, 2, 3], [9]] :=
    ⟨by decide, [], [], frame [], Nat.zero_le _, by decide +kernel, rfl, nofun,
      fun begun => absurd rfl begun⟩
  obtain ⟨⟨datagrams, han, _, ha⟩, _⟩ :=
    (datagrams_survive interruptedCalls).2 _ _ _ hc true interruptedReads
  exact ⟨datagrams, han, ha (by decide +kernel)⟩

end MeowRs.MuxDatagrams
