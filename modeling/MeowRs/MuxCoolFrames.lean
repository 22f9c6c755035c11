import MeowRs.ChunkedReads
import MeowRs.LittleEndian

/-!
# Frames of a Mux.Cool session

A frame has a meta block with its length in front, and a payload with its length in front if its
option has the data bit.  The reader goes through phases and begins a new frame when the last phase
of a frame is complete.  Keep-alive frames are taken to end with their meta block whatever their
option says, so one that has the data bit leaves the reader inside a frame.
-/

namespace MeowRs

open List Option ChunkedReads

namespace MuxCool

open BigEndian (beBytes beValue)

inductive Dest where
  | ipv4 (octets : Bytes)
  | ipv6 (octets : Bytes)
  | domain (name : Bytes)
  deriving DecidableEq

structure FrameMeta where
  sessionId : Nat
  status : UInt8
  option : UInt8
  dest : Option (Dest × Nat)

def statusNew : UInt8 := 0x01
def statusKeep : UInt8 := 0x02
def statusEnd : UInt8 := 0x03
def statusKeepAlive : UInt8 := 0x04

def networkTcp : UInt8 := 0x01
def networkUdp : UInt8 := 0x02

def maxMeta : Nat := 512

def hasData (option : UInt8) : Bool :=
  option &&& 0x01 != 0

def hasError (option : UInt8) : Bool :=
  option &&& 0x02 != 0

/-- `[port][atype][address]`. -/
def parseAddress : Bytes → Except String (Dest × Nat)
  | p0 :: p1 :: atype :: rest =>
    if atype = 0x01 then
      if rest.length < 4 then .error "mux.cool: truncated IPv4 address"
      else .ok (.ipv4 (rest.take 4), beValue p0 p1)
    else if atype = 0x03 then
      if rest.length < 16 then .error "mux.cool: truncated IPv6 address"
      else .ok (.ipv6 (rest.take 16), beValue p0 p1)
    else if atype = 0x02 then
      match rest with
      | [] => .error "mux.cool: truncated domain address"
      | len :: name =>
        if name.length < len.toNat then .error "mux.cool: truncated domain address"
        else .ok (.domain (name.take len.toNat), beValue p0 p1)
    else .error ("mux.cool: unknown address type " ++ toString atype.toNat)
  | _ => .error "mux.cool: truncated address"

def decodeMeta : Bytes → Except String FrameMeta
  | s0 :: s1 :: status :: option :: rest =>
    if status = statusEnd ∧ hasData option then .error "mux.cool: End frame with data option"
    else if status = statusNew ∨ status = statusKeep ∧ rest.head? = some networkUdp then
      match rest with
      | [] => .error "mux.cool: New frame without destination"
      | network :: address =>
        if network ≠ networkTcp ∧ network ≠ networkUdp then
          .error ("mux.cool: unknown network type " ++ toString network.toNat)
        else (parseAddress address).map fun dest => ⟨beValue s0 s1, status, option, some dest⟩
    else .ok ⟨beValue s0 s1, status, option, none⟩
  | _ => .error "mux.cool: meta shorter than 4 bytes"

inductive ReadPhase where
  | metaLen
  | metaBlock
  | dataLen
  | data
  deriving DecidableEq

/-- The state of the reader; its buffer has room for `need` bytes and holds some. -/
structure ReadState where
  phase : ReadPhase
  need : Nat
  held : Bytes
  sid : Nat
  option : UInt8
  dest : Option (Dest × Nat)
  deriving DecidableEq

inductive Event where
  | data (bytes : Bytes) (dest : Option (Dest × Nat))
  | eof
  | error (message : String)

namespace ReadState

def fresh : ReadState := ⟨.metaLen, 2, [], 0, 0, none⟩

def enter (state : ReadState) (phase : ReadPhase) (need : Nat) : ReadState :=
  { state with phase := phase, need := need, held := [] }

def resetHeader (state : ReadState) : ReadState :=
  state.enter .metaLen 2

def heldValue (state : ReadState) : Nat :=
  beValue (state.held.getD 0 0) (state.held.getD 1 0)

def finishMeta (state : ReadState) (frame : FrameMeta) :
    Except String (ReadState × Option (Nat × Event)) :=
  let state := { state with sid := frame.sessionId, option := frame.option, dest := frame.dest }
  if frame.status = statusNew then .error "mux.cool: server-initiated stream"
  else if frame.status = statusKeepAlive then .ok (state.resetHeader, none)
  else if frame.status = statusEnd then
    .ok (state.resetHeader, some (state.sid,
      if hasError state.option then .error "mux.cool: remote stream closed with error" else .eof))
  else if frame.status = statusKeep then
    if hasData state.option then .ok (state.enter .dataLen 2, none)
    else
      .ok (state.resetHeader,
        if hasError state.option then some (state.sid, .error "mux.cool: remote stream error")
        else none)
  else .error ("mux.cool: unknown frame status " ++ toString frame.status.toNat)

/-- What a read step does when its buffer is full: the state after it, and an event for a stream. -/
def complete (state : ReadState) : Except String (ReadState × Option (Nat × Event)) :=
  match state.phase with
  | .metaLen =>
    if maxMeta < state.heldValue then
      .error ("mux.cool: meta length " ++ toString state.heldValue ++ " exceeds 512")
    else .ok (state.enter .metaBlock state.heldValue, none)
  | .metaBlock => (decodeMeta state.held).bind state.finishMeta
  | .dataLen => .ok (state.enter .data state.heldValue, none)
  | .data =>
    .ok (state.resetHeader,
      if hasError state.option then some (state.sid, .error "mux.cool: remote stream error")
      else if state.held.isEmpty then none
      else some (state.sid, .data state.held state.dest))

/-- One read step after the other, for as long as the buffer is full. -/
def advance (state : ReadState) : Except String ReadState × List (Nat × Event) :=
  match state.complete with
  | .error error => (.error error, [])
  | .ok (next, event) =>
    if next.need = 0 then
      match next.complete with
      | .error error => (.error error, event.toList)
      | .ok (last, later) => (.ok last, event.toList ++ later.toList)
    else (.ok next, event.toList)

def receive : Except String ReadState → UInt8 → Except String ReadState × List (Nat × Event)
  | .error error, _ => (.error error, [])
  | .ok state, byte =>
    let state := { state with held := state.held ++ [byte] }
    if state.held.length < state.need then (.ok state, []) else state.advance

def AtFrame (state : Except String ReadState) : Prop :=
  ∃ sid option dest, state = .ok ⟨.metaLen, 2, [], sid, option, dest⟩

end ReadState

open ReadState

inductive Status where
  | keep
  | finish
  | keepAlive
  deriving DecidableEq

def Status.byte : Status → UInt8
  | keep => statusKeep
  | finish => statusEnd
  | keepAlive => statusKeepAlive

/-- A frame of a server; the extra bytes of its meta block start with a destination if they say so. -/
structure WireFrame where
  sid : Nat
  status : Status
  option : UInt8
  extra : Bytes
  payload : Bytes
  shortMeta : extra.length ≤ 508
  shortPayload : payload.length ≤ 65535
  noData : status = .finish → hasData option = false
  destination : status = .keep → extra.head? = some networkUdp →
    (parseAddress extra.tail).isOk = true

namespace WireFrame

def metaBlock (frame : WireFrame) : Bytes :=
  beBytes frame.sid ++ [frame.status.byte, frame.option] ++ frame.extra

def header (frame : WireFrame) : Bytes :=
  beBytes frame.metaBlock.length ++ frame.metaBlock

def tail (frame : WireFrame) : Bytes :=
  if hasData frame.option then beBytes frame.payload.length ++ frame.payload else []

def encode (frame : WireFrame) : Bytes :=
  frame.header ++ frame.tail

end WireFrame

section Boundaries

variable {state : Except String ReadState} {frame : WireFrame} {frames : List WireFrame}

/-- The bytes take the reader from one state to another, and not to the beginning of a frame on the
way. -/
def Within (state : Except String ReadState) (bytes : Bytes) (last : Except String ReadState) :
    Prop :=
  (run receive state bytes).1 = last ∧
    ∀ part, part <+: bytes → part ≠ [] → part ≠ bytes → ¬ AtFrame (run receive state part).1

theorem Within.append {state middle last : Except String ReadState} {first second : Bytes}
    (before : Within state first middle) (inside : ¬ AtFrame middle)
    (after : Within middle second last) : Within state (first ++ second) last := by
  refine ⟨by rw [run_append, before.1, after.1], fun part isPart some proper => ?_⟩
  rcases prefix_or_prefix_of_prefix isPart (prefix_append first second) with
    isFirst | ⟨more, rfl⟩
  · by_cases whole : part = first
    · rw [whole, before.1]
      exact inside
    · exact before.2 part isFirst some whole
  · rw [run_append, before.1]
    by_cases none : more = []
    · rw [none]
      exact inside
    · exact after.2 more ((prefix_append_right_inj first).mp isPart) none
        fun same => proper (by rw [same])

variable {sid : Nat} {option : UInt8} {dest : Option (Dest × Nat)}

theorem within_phase {phase : ReadPhase} {bytes : Bytes} (some : bytes ≠ []) :
    Within (.ok ⟨phase, bytes.length, [], sid, option, dest⟩) bytes
      (advance ⟨phase, bytes.length, bytes, sid, option, dest⟩).1 := by
  have collects := @run_collect _ _ _ receive
    (fun held => .ok ⟨phase, bytes.length, held, sid, option, dest⟩) bytes.length
    (fun held => advance ⟨phase, bytes.length, held, sid, option, dest⟩)
    (fun held byte short => by simp [receive, short])
    (fun held byte last => by simp [receive, last]) []
  refine ⟨?_, fun part isPart nonempty proper => ?_⟩
  · rw [collects bytes some (by simp)]
    simp
  · have shorter : part.length < bytes.length :=
      Nat.lt_of_le_of_ne isPart.length_le fun same => proper (isPart.eq_of_length same)
    rw [collects part nonempty shorter.le, nil_append, if_pos shorter]
    rintro ⟨_, _, _, same⟩
    exact nonempty (congrArg ReadState.held (Except.ok.inj same))

theorem decodeMeta_metaBlock (frame : WireFrame) :
    ∃ sid dest, decodeMeta frame.metaBlock = .ok ⟨sid, frame.status.byte, frame.option, dest⟩ := by
  have noData : ¬ (frame.status.byte = statusEnd ∧ hasData frame.option = true) := by
    rintro ⟨isEnd, data⟩
    cases status : frame.status with
    | finish => exact absurd data (by rw [frame.noData status]; decide)
    | keep | keepAlive => exact absurd isEnd (by rw [status]; decide)
  have notNew : frame.status.byte ≠ statusNew := by cases frame.status <;> decide
  simp only [WireFrame.metaBlock, beBytes, cons_append, nil_append, decodeMeta]
  rw [if_neg noData]
  split
  · rename_i hasDest
    obtain ⟨isKeep, announced⟩ := hasDest.resolve_left notNew
    have status : frame.status = .keep := by
      cases status : frame.status with
      | keep => rfl
      | finish | keepAlive => exact absurd isKeep (by rw [status]; decide)
    have parses := frame.destination status announced
    cases extra : frame.extra with
    | nil =>
      rw [extra] at announced
      cases announced
    | cons network address =>
      rw [extra, head?_cons, some.injEq] at announced
      rw [extra, tail_cons] at parses
      dsimp only
      rw [if_neg fun others => others.2 announced]
      cases parsed : parseAddress address with
      | error error =>
        rw [parsed] at parses
        cases parses
      | ok dest => exact ⟨_, _, rfl⟩
  · exact ⟨_, _, rfl⟩

theorem advance_of_complete {state next : ReadState} {event : Option (Nat × Event)}
    (completes : state.complete = .ok (next, event)) (positive : next.need ≠ 0) :
    state.advance.1 = .ok next := by
  unfold advance
  rw [completes]
  dsimp only
  rw [if_neg positive]

theorem complete_metaLen {length : Nat} (short : length ≤ maxMeta) :
    complete ⟨.metaLen, 2, beBytes length, sid, option, dest⟩ =
      .ok (⟨.metaBlock, length, [], sid, option, dest⟩, none) := by
  have value : heldValue ⟨.metaLen, 2, beBytes length, sid, option, dest⟩ = length :=
    BigEndian.beValue_beBytes (short.trans_lt (by decide))
  unfold complete
  rw [value, if_neg (not_lt.mpr short)]
  rfl

theorem complete_dataLen {length : Nat} (short : length ≤ 65535) :
    complete ⟨.dataLen, 2, beBytes length, sid, option, dest⟩ =
      .ok (⟨.data, length, [], sid, option, dest⟩, none) := by
  have value : heldValue ⟨.dataLen, 2, beBytes length, sid, option, dest⟩ = length :=
    BigEndian.beValue_beBytes (Nat.lt_succ_of_le short)
  unfold complete
  rw [value]
  rfl

theorem complete_metaBlock (frame : WireFrame) (need : Nat) :
    ∃ newSid newDest event,
      complete ⟨.metaBlock, need, frame.metaBlock, sid, option, dest⟩ =
        .ok (⟨if frame.status = .keep ∧ hasData frame.option then .dataLen else .metaLen, 2, [],
          newSid, frame.option, newDest⟩, event) := by
  obtain ⟨newSid, newDest, decoded⟩ := decodeMeta_metaBlock frame
  refine ⟨newSid, newDest, ?_⟩
  unfold complete
  rw [decoded]
  unfold Except.bind finishMeta
  cases frame.status with
  | keep =>
    by_cases data : hasData frame.option = true
    · exact ⟨none, by simp [data, Status.byte, statusKeep, statusNew, statusKeepAlive, statusEnd,
        enter]⟩
    · exact ⟨if hasError frame.option then some (newSid, .error "mux.cool: remote stream error")
        else none, by simp [data, Status.byte, statusKeep, statusNew, statusKeepAlive, statusEnd,
          resetHeader, enter]⟩
  | finish =>
    exact ⟨some (newSid, if hasError frame.option then
      .error "mux.cool: remote stream closed with error" else .eof),
      by simp [Status.byte, statusNew, statusKeepAlive, statusEnd, resetHeader, enter]⟩
  | keepAlive =>
    exact ⟨none, by simp [Status.byte, statusNew, statusKeepAlive, resetHeader, enter]⟩

theorem within_header (start : AtFrame state) (frame : WireFrame) :
    ∃ sid option dest, Within state frame.header
      (.ok ⟨if frame.status = .keep ∧ hasData frame.option then .dataLen else .metaLen, 2, [], sid,
        option, dest⟩) := by
  obtain ⟨sid, option, dest, rfl⟩ := start
  have long : frame.metaBlock.length = frame.extra.length + 4 := by
    simp [WireFrame.metaBlock, beBytes]
  have fits := frame.shortMeta
  have lengths := @within_phase sid option dest .metaLen (beBytes frame.metaBlock.length)
    (by simp [beBytes])
  have block := @within_phase sid option dest .metaBlock frame.metaBlock
    (by intro none; rw [none] at long; cases long)
  obtain ⟨newSid, newDest, event, completes⟩ :=
    @complete_metaBlock sid option dest frame frame.metaBlock.length
  rw [advance_of_complete completes (Nat.succ_ne_zero 1)] at block
  refine ⟨newSid, frame.option, newDest, Within.append ?_ ?_ block⟩
  · have entered := @complete_metaLen sid option dest frame.metaBlock.length
      (by simp only [maxMeta]; omega)
    rw [← advance_of_complete entered (by dsimp only; omega)]
    exact lengths
  · rintro ⟨_, _, _, same⟩
    cases congrArg ReadState.phase (Except.ok.inj same)

theorem within_payload {payload : Bytes} (short : payload.length ≤ 65535) :
    ∃ last, Within (.ok ⟨.dataLen, 2, [], sid, option, dest⟩)
      (beBytes payload.length ++ payload) last ∧ AtFrame last := by
  have entered := @complete_dataLen sid option dest payload.length short
  have lengths := @within_phase sid option dest .dataLen (beBytes payload.length) (by simp [beBytes])
  by_cases none : payload = []
  · subst none
    refine ⟨_, lengths, sid, option, dest, ?_⟩
    change (advance ⟨.dataLen, 2, beBytes ([] : Bytes).length, sid, option, dest⟩).1 = _
    unfold advance
    rw [entered]
    rfl
  · have content := @within_phase sid option dest .data payload none
    refine ⟨_, Within.append ?_ ?_ content, ?_⟩
    · rw [← advance_of_complete entered (by simpa using none)]
      exact lengths
    · rintro ⟨_, _, _, same⟩
      cases congrArg ReadState.phase (Except.ok.inj same)
    · refine ⟨sid, option, dest, advance_of_complete rfl (Nat.succ_ne_zero 1)⟩

theorem within_encode (start : AtFrame state)
    (honest : frame.status = .keepAlive → hasData frame.option = false) :
    ∃ last, Within state frame.encode last ∧ AtFrame last := by
  obtain ⟨sid, option, dest, head⟩ := within_header start frame
  rw [WireFrame.encode, WireFrame.tail]
  by_cases data : hasData frame.option = true
  · have isKeep : frame.status = .keep := by
      cases status : frame.status with
      | keep => rfl
      | finish => exact absurd data (by rw [frame.noData status]; decide)
      | keepAlive => exact absurd data (by rw [honest status]; decide)
    obtain ⟨last, payload, ends⟩ := @within_payload sid option dest _ frame.shortPayload
    rw [if_pos ⟨isKeep, data⟩] at head
    rw [if_pos data]
    refine ⟨last, head.append ?_ payload, ends⟩
    rintro ⟨_, _, _, same⟩
    cases congrArg ReadState.phase (Except.ok.inj same)
  · rw [if_neg fun both => data both.2] at head
    rw [if_neg data, append_nil]
    exact ⟨_, head, sid, option, dest, rfl⟩

def encodeAll (frames : List WireFrame) : Bytes :=
  frames.flatMap WireFrame.encode

/-- The reader begins a frame where one begins, and nowhere else. -/
def InSync (frames : List WireFrame) (state : Except String ReadState) : Prop :=
  ∀ part, part <+: encodeAll frames →
    (AtFrame (run receive state part).1 ↔ ∃ count, part = encodeAll (frames.take count))

theorem header_ne_nil (frame : WireFrame) : frame.header ≠ [] := by
  simp [WireFrame.header, beBytes]

theorem encodeAll_take_succ (frame : WireFrame) (frames : List WireFrame) (count : Nat) :
    encodeAll ((frame :: frames).take (count + 1)) =
      frame.encode ++ encodeAll (frames.take count) := by
  rw [take_succ_cons, encodeAll, flatMap_cons, encodeAll]

theorem inSync_cons_iff {state last : Except String ReadState} (start : AtFrame state)
    (within : Within state frame.encode last) (ends : AtFrame last) :
    InSync (frame :: frames) state ↔ InSync frames last := by
  have some : frame.encode ≠ [] := by simp [WireFrame.encode, header_ne_nil]
  have later : ∀ part, (∃ count, frame.encode ++ part = encodeAll ((frame :: frames).take count)) ↔
      ∃ count, part = encodeAll (frames.take count) := by
    intro part
    constructor
    · rintro ⟨_ | count, same⟩
      · exact absurd (append_eq_nil_iff.mp same).1 some
      · rw [encodeAll_take_succ] at same
        exact ⟨count, append_cancel_left same⟩
    · rintro ⟨count, rfl⟩
      exact ⟨count + 1, (encodeAll_take_succ frame frames count).symm⟩
  constructor
  · intro inSync part isPart
    have step := inSync (frame.encode ++ part) ((prefix_append_right_inj _).mpr isPart)
    rw [run_append, within.1, later] at step
    exact step
  · intro inSync part isPart
    rcases prefix_or_prefix_of_prefix isPart (prefix_append frame.encode _) with
      isFirst | ⟨more, rfl⟩
    · by_cases none : part = []
      · subst none
        exact iff_of_true start ⟨0, rfl⟩
      · by_cases whole : part = frame.encode
        · rw [whole, within.1]
          exact iff_of_true ends ((later []).mpr ⟨0, rfl⟩ |>.imp fun _ same => by simpa using same)
        · refine iff_of_false (within.2 part isFirst none whole) ?_
          rintro ⟨_ | count, same⟩
          · exact none same
          · rw [encodeAll_take_succ] at same
            exact whole (isFirst.eq_of_length (le_antisymm isFirst.length_le
              (by rw [same, length_append]; omega)))
    · rw [run_append, within.1, later]
      exact inSync more ((prefix_append_right_inj _).mp isPart)

/-- A keep-alive frame with a payload is left before its end. -/
theorem not_inSync_of_payload (start : AtFrame state) (isAlive : frame.status = .keepAlive)
    (data : hasData frame.option = true) : ¬ InSync (frame :: frames) state := by
  intro inSync
  obtain ⟨sid, option, dest, head, _⟩ := within_header start frame
  have isPart : frame.header <+: encodeAll (frame :: frames) :=
    ⟨frame.tail ++ encodeAll frames, by rw [← append_assoc]; rfl⟩
  rw [if_neg (by simp [isAlive])] at head
  obtain ⟨_ | count, same⟩ := (inSync frame.header isPart).mp (head ▸ ⟨sid, option, dest, rfl⟩)
  · exact header_ne_nil frame same
  · rw [encodeAll_take_succ, WireFrame.encode, WireFrame.tail, if_pos data] at same
    exact absurd (congrArg List.length same) (by simp [beBytes])

/-- The reader stays in step with the frames when and only when no keep-alive frame has a payload. -/
theorem inSync_iff (frames : List WireFrame) :
    InSync frames (.ok fresh) ↔
      ∀ frame ∈ frames, frame.status = .keepAlive → hasData frame.option = false := by
  have start : AtFrame (.ok fresh) := ⟨0, 0, none, rfl⟩
  generalize (.ok fresh : Except String ReadState) = state at start ⊢
  induction frames generalizing state with
  | nil =>
    refine iff_of_true (fun part isPart => ?_) nofun
    obtain rfl := prefix_nil.mp isPart
    exact iff_of_true start ⟨0, rfl⟩
  | cons frame frames ih =>
    rw [forall_mem_cons]
    by_cases honest : frame.status = .keepAlive → hasData frame.option = false
    · obtain ⟨last, within, ends⟩ := within_encode start honest
      exact (inSync_cons_iff start within ends).trans
        ((ih last ends).trans (and_iff_right honest).symm)
    · refine iff_of_false (fun inSync => ?_) fun both => honest both.1
      obtain ⟨isAlive, data⟩ := Classical.not_imp.mp honest
      exact not_inSync_of_payload start isAlive (by simpa using data) inSync

/-- A frame without extra bytes, from session 1. -/
def plainFrame (status : Status) (option : UInt8) (noData : status = .finish → hasData option = false) :
    WireFrame :=
  ⟨1, status, option, [], [], by decide, by decide, noData, nofun⟩

/-- A keep-alive frame with an empty payload. -/
theorem keepAlive_payload_out_of_sync :
    ¬ InSync [plainFrame .keepAlive 0x01 nofun] (.ok fresh) :=
  not_inSync_of_payload ⟨0, 0, none, rfl⟩ rfl (by decide)

/-- A datagram's frame with its destination, and one more with data of its own. -/
def keepFrames : List WireFrame :=
  [⟨1, .keep, 0x01, [networkUdp, 0, 53, 1, 8, 8, 8, 8], [1, 2, 3], by decide, by decide, nofun,
      fun _ _ => by decide +kernel⟩,
    ⟨2, .keep, 0x01, [], [4, 5], by decide, by decide, nofun, nofun⟩]

theorem keep_payloads_in_sync :
    InSync (keepFrames ++ [plainFrame .keepAlive 0 nofun] ++ keepFrames ++
      [plainFrame .finish 0 fun _ => rfl]) (.ok fresh) :=
  (inSync_iff _).mpr (by decide +kernel)

end Boundaries

end MuxCool

end MeowRs
