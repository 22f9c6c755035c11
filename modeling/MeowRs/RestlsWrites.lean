import MeowRs.ActionRuns
import MeowRs.LittleEndian
import MeowRs.Polling

/-!
# Restls writes

An authenticated Restls stream sends its data in TLS records whose sizes a script sets, line by line.
A line may interrupt: the stream then holds back what is written until a tagged record comes in.
What the transport takes of the outbox, how records come in and what is drawn at random is up to the
environment.
-/

namespace MeowRs.Restls

open List ActionRuns

open Polling (Poll)

def maxPlaintext : Nat := 16384
def recordHdr : Nat := 5
def authHeaderLen : Nat := 12
def gcmNonceLen : Nat := 8
def sendBufCap : Nat := 256 * 1024
def outboxCap : Nat := 256 * 1024
def maxUselessRecords : Nat := 32

inductive Command where
  | noop
  | respond (count : Nat)
  deriving DecidableEq

def Command.needInterrupt : Command → Bool
  | .noop => false
  | .respond _ => true

structure Line where
  fixed : Nat
  range : Nat
  command : Command

/-- What is drawn at random for a record. -/
structure Draw where
  target : Nat
  padding : Nat

def Line.targetLen (line : Line) (draw : Draw) : Nat :=
  if line.range ≠ 0 then line.fixed + draw.target % line.range else line.fixed

/-- The script, whether records carry a nonce, and the draws for the records by their counters. -/
structure Config where
  script : List Line
  tls12Gcm : Bool
  draws : Nat → Draw

def Config.headerLen (config : Config) : Nat :=
  authHeaderLen + if config.tls12Gcm then gcmNonceLen else 0

structure Layout where
  payloadLen : Nat
  dataLen : Nat
  paddingLen : Nat
  command : Command

/-- The layout of a record for `length` bytes of data. -/
def actAccordingToScript (config : Config) (length counter : Nat) : Layout :=
  let line := config.script[counter]?
  let target := line.elim length (·.targetLen (config.draws counter))
  let padding := if target = 0 then 19 + (config.draws counter).padding % 100 else 0
  let padding := if length < target then target - length else padding
  let payloadLen := min (min target length + padding + config.headerLen) maxPlaintext
  let room := payloadLen - config.headerLen
  ⟨payloadLen, room - min padding room, min padding room, line.elim .noop (·.command)⟩

structure Record where
  counter : Nat
  data : Bytes
  paddingLen : Nat
  command : Command
  bindsFinished : Bool

/-- The write side of a stream.  `outbox` counts the bytes that wait for the transport; `staged` and
`accepted` are the records and the data that writes have put into the stream so far, `acknowledged`
the data of those that returned a length, and `failed` whether one returned an error. -/
structure State where
  toServerCtr : Nat
  clientFinished : Bool
  sendBuf : Bytes
  writePending : Bool
  outbox : Nat
  uselessRecords : Nat
  staged : List Record
  accepted : Bytes
  acknowledged : Bytes
  failed : Bool

def State.new (clientFinished : Bool) : State :=
  ⟨0, clientFinished, [], false, 0, 0, [], [], [], false⟩

/-- Put the record for some data into the outbox. -/
def stage (config : Config) (state : State) (data : Bytes) : State :=
  let layout := actAccordingToScript config data.length state.toServerCtr
  { state with
    clientFinished := false
    outbox := state.outbox + (recordHdr + layout.payloadLen)
    toServerCtr := state.toServerCtr + 1
    staged := state.staged ++ [⟨state.toServerCtr, data.take layout.dataLen, layout.paddingLen,
      layout.command, state.clientFinished⟩] }

/-- The loop that puts the held data into records, until a line interrupts. -/
def flushLoop (config : Config) : Nat → State → State
  | 0, state => state
  | fuel + 1, state =>
    if state.sendBuf = [] then state
    else
      let layout := actAccordingToScript config state.sendBuf.length state.toServerCtr
      let next := { stage config state state.sendBuf with
        sendBuf := state.sendBuf.drop layout.dataLen }
      if layout.command.needInterrupt then { next with writePending := true }
      else flushLoop config fuel next

/-- Every turn goes on in the script or, behind its end, takes data. -/
def flushSendBuf (config : Config) (state : State) : State :=
  flushLoop config (config.script.length - state.toServerCtr + state.sendBuf.length) state

/-- Fake records, as long as the outbox is not too full; each ends the hold. -/
def stageFakes (config : Config) : Nat → State → State
  | 0, state => state
  | count + 1, state =>
    if outboxCap < state.outbox then state
    else stageFakes config count (stage config { state with writePending := false } [])

def handleCommand (config : Config) (state : State) (command : Command) (released : Bool) : State :=
  match command with
  | .noop => state
  | .respond count => stageFakes config (if released then count - 1 else count) state

/-- A record that came in: a tagged one, or another one for which the stream may queue a reply. -/
inductive Inbound where
  | alert
  | changeCipherSpec
  | tagged (dataLen : Nat) (command : Command)
  | cover (useless reply : Nat)

def processRecord (config : Config) (state : State) : Inbound → State
  | .alert => state
  | .changeCipherSpec => { state with uselessRecords := min (state.uselessRecords + 1) 255 }
  | .tagged dataLen command =>
    let useless := if dataLen = 0 then min (state.uselessRecords + 1) 255 else 0
    let state := { state with uselessRecords := useless }
    if maxUselessRecords < useless then state
    else if state.writePending then
      -- a record was released if there was data to release
      handleCommand config (flushSendBuf config { state with writePending := false }) command
        (state.sendBuf ≠ [])
    else handleCommand config state command false
  | .cover useless reply =>
    { state with
      uselessRecords := min (state.uselessRecords + useless) 255
      outbox := state.outbox + reply }

/-- The transport takes some bytes. -/
def drain (state : State) (taken : Nat) : State :=
  { state with outbox := state.outbox - taken }

/-- What the transport does in a poll: the bytes that it takes, and how it fails on the rest. -/
structure Answer where
  taken : Nat
  error : Option String

def pollDrain (state : State) (answer : Answer) : Poll (Except String Unit) :=
  if (drain state answer.taken).outbox = 0 then .ready (.ok ())
  else answer.error.elim .pending fun error => .ready (.error error)

def pollWrite (config : Config) (state : State) (buf : Bytes) (before after : Answer) :
    Poll (Except String Nat) × State :=
  let extended := { state with
    sendBuf := state.sendBuf ++ buf
    accepted := state.accepted ++ buf }
  if state.writePending then
    if buf ≠ [] ∧ sendBufCap < state.sendBuf.length + buf.length then (.pending, state)
    else (.ready (.ok buf.length), extended)
  else
    match pollDrain state before with
    | .pending => (.pending, drain state before.taken)
    | .ready (.error error) => (.ready (.error error), drain state before.taken)
    | .ready (.ok ()) =>
      let staged := flushSendBuf config (drain extended before.taken)
      -- the data stays in the stream even if the transport fails now
      match pollDrain staged after with
      | .ready (.error error) => (.ready (.error error), drain staged after.taken)
      | _ => (.ready (.ok buf.length), drain staged after.taken)

/-- Note what a write returned. -/
def State.record (state : State) (buf : Bytes) : Poll (Except String Nat) → State
  | .pending => state
  | .ready (.error _) => { state with failed := true }
  | .ready (.ok count) => { state with acknowledged := state.acknowledged ++ buf.take count }

inductive Action where
  | pollWrite (buf : Bytes) (before after : Answer)
  | pollFlush (taken : Nat)
  | inbound (record : Inbound) (taken : Nat)

def step (config : Config) (state : State) : Action → Option State
  | .pollWrite buf before after =>
    let written := pollWrite config state buf before after
    some (written.2.record buf written.1)
  | .pollFlush taken => some (drain state taken)
  | .inbound record taken => some (drain (processRecord config state record) taken)

/-- Whether a line interrupts before `length` bytes are out, from a line on. -/
def stopsShort (config : Config) : Nat → Nat → Nat → Bool
  | 0, _, _ => false
  | fuel + 1, counter, length =>
    let layout := actAccordingToScript config length counter
    length ≠ 0 &&
      if layout.command.needInterrupt then layout.dataLen < length
      else stopsShort config fuel (counter + 1) (length - layout.dataLen)

/-- A tagged record that asks for two responses or more does not come in while data is held that the
script stops short. -/
def Guard (config : Config) (state : State) : Action → Prop
  | .inbound (.tagged _ (.respond count)) _ =>
    state.writePending = true → 2 ≤ count → stopsShort config
      (config.script.length - state.toServerCtr + state.sendBuf.length) state.toServerCtr
      state.sendBuf.length = false
  | _ => True

/-- The records are in order and of the right sizes, and the data is in them or held. -/
structure Sound (config : Config) (state : State) : Prop where
  data : state.staged.flatMap Record.data ++ state.sendBuf = state.accepted
  counters : state.staged.map Record.counter = range state.toServerCtr
  sized : ∀ record ∈ state.staged,
    config.headerLen + record.data.length + record.paddingLen ≤ maxPlaintext
  finished : ∀ record ∈ state.staged, record.bindsFinished = true → record.counter = 0
  taken : state.toServerCtr ≠ 0 → state.clientFinished = false

/-- The data in the stream is that of the writes that returned a length, but for writes that failed
after they had staged theirs. -/
structure Reported (state : State) : Prop where
  acknowledged : state.acknowledged.Sublist state.accepted
  unfailed : state.failed = false → state.acknowledged = state.accepted

variable {cfg : Config} {s : State} {fuel : Nat}

theorem dataLen_le (cfg : Config) (len ctr : Nat) :
    (actAccordingToScript cfg len ctr).dataLen ≤ len := by
  simp only [actAccordingToScript]
  split_ifs <;> omega

theorem layout_le (cfg : Config) (len ctr : Nat) :
    cfg.headerLen + (actAccordingToScript cfg len ctr).dataLen +
      (actAccordingToScript cfg len ctr).paddingLen ≤ maxPlaintext := by
  have header : cfg.headerLen ≤ maxPlaintext := by
    unfold Config.headerLen
    split_ifs <;> decide
  simp only [actAccordingToScript]
  omega

/-- Behind the script a record takes data. -/
theorem dataLen_pos {len ctr : Nat} (past : cfg.script.length ≤ ctr) (pos : 0 < len) :
    0 < (actAccordingToScript cfg len ctr).dataLen := by
  have header : cfg.headerLen < maxPlaintext := by
    unfold Config.headerLen
    split_ifs <;> decide
  simp only [actAccordingToScript, getElem?_eq_none past, Option.elim]
  split_ifs <;> omega

/-- A record takes its data off the front of what is held. -/
theorem Sound.stage (sound : Sound cfg s) {data rest : Bytes} {pend : Bool}
    (split : data.take (actAccordingToScript cfg data.length s.toServerCtr).dataLen ++ rest =
      s.sendBuf) :
    Sound cfg { stage cfg s data with sendBuf := rest, writePending := pend } where
  data := by simp [Restls.stage, ← sound.data, ← split]
  counters := by simp [Restls.stage, sound.counters, range_succ]
  sized r mem := by
    rcases mem_append.mp mem with mem | mem
    · exact sound.sized r mem
    · rw [mem_singleton.mp mem]
      have fits := layout_le cfg data.length s.toServerCtr
      have le := dataLen_le cfg data.length s.toServerCtr
      simpa [length_take, min_eq_left le] using fits
  finished r mem binds := by
    rcases mem_append.mp mem with mem | mem
    · exact sound.finished r mem binds
    · rw [mem_singleton.mp mem] at binds ⊢
      by_contra later
      rw [sound.taken later] at binds
      cases binds
  taken _ := rfl

theorem Sound.flushLoop (sound : Sound cfg s) (fuel : Nat) : Sound cfg (flushLoop cfg fuel s) := by
  induction fuel generalizing s with
  | zero => exact sound
  | succ fuel ih =>
    simp only [Restls.flushLoop]
    split_ifs with empty interrupts
    · exact sound
    · exact sound.stage (take_append_drop _ _)
    · exact ih (sound.stage (take_append_drop _ _))

/-- The loop ends with the data out, or held behind a line that stops it short. -/
theorem flushLoop_ends (enough : cfg.script.length - s.toServerCtr + s.sendBuf.length ≤ fuel) :
    if stopsShort cfg fuel s.toServerCtr s.sendBuf.length then
      (flushLoop cfg fuel s).writePending = true
    else (flushLoop cfg fuel s).sendBuf = [] := by
  induction fuel generalizing s with
  | zero =>
    obtain ⟨-, empty⟩ : cfg.script.length - s.toServerCtr = 0 ∧ s.sendBuf = [] := by
      simpa using enough
    exact empty
  | succ fuel ih =>
    by_cases empty : s.sendBuf = []
    · simp [flushLoop, stopsShort, empty]
    have pos := length_pos_of_ne_nil empty
    simp only [flushLoop, stopsShort, empty, if_false, pos.ne', ne_eq, not_false_eq_true,
      decide_true, Bool.true_and]
    split
    · split_ifs with short
      · rfl
      · exact drop_eq_nil_of_le (by simpa using short)
    · have fewer : cfg.script.length - (s.toServerCtr + 1) + (s.sendBuf.length -
          (actAccordingToScript cfg s.sendBuf.length s.toServerCtr).dataLen) ≤ fuel := by
        rcases lt_or_ge s.toServerCtr cfg.script.length with inside | past
        · omega
        · have taken := dataLen_pos past pos
          omega
      have ends := ih (s := { stage cfg s s.sendBuf with sendBuf := s.sendBuf.drop _ })
        (by rwa [length_drop])
      rwa [length_drop] at ends

theorem Sound.stageFakes (sound : Sound cfg s) (n : Nat) : Sound cfg (stageFakes cfg n s) := by
  induction n generalizing s with
  | zero => exact sound
  | succ n ih =>
    simp only [Restls.stageFakes]
    split_ifs
    · exact sound
    · exact ih (@Sound.stage cfg s sound [] _ _ (by simp))

@[simp]
theorem stageFakes_sendBuf (n : Nat) : (stageFakes cfg n s).sendBuf = s.sendBuf := by
  induction n generalizing s with
  | zero => rfl
  | succ n ih =>
    simp only [stageFakes]
    split_ifs
    · rfl
    · rw [ih]
      rfl

theorem handleCommand_sendBuf (cmd : Command) (rel : Bool) :
    (handleCommand cfg s cmd rel).sendBuf = s.sendBuf := by
  cases cmd <;> simp [handleCommand]

theorem Sound.handleCommand (sound : Sound cfg s) (cmd : Command) (rel : Bool) :
    Sound cfg (handleCommand cfg s cmd rel) := by
  cases cmd with
  | noop => exact sound
  | respond n => exact sound.stageFakes _

/-- What a write appends to the accepted data is held or staged. -/
theorem Sound.accept (sound : Sound cfg s) (buf : Bytes) :
    Sound cfg { s with sendBuf := s.sendBuf ++ buf, accepted := s.accepted ++ buf } :=
  ⟨by rw [← append_assoc, sound.data], sound.counters, sound.sized, sound.finished, sound.taken⟩

theorem Sound.record (sound : Sound cfg s) (buf : Bytes) (result : Poll (Except String Nat)) :
    Sound cfg (s.record buf result) := by
  rcases result with (_ | _) | _ <;>
    exact ⟨sound.data, sound.counters, sound.sized, sound.finished, sound.taken⟩

/-- The other fields do not matter. -/
theorem Sound.of_eq (sound : Sound cfg s) (pend : Bool) (outbox useless : Nat) :
    Sound cfg { s with writePending := pend, outbox := outbox, uselessRecords := useless } :=
  ⟨sound.data, sound.counters, sound.sized, sound.finished, sound.taken⟩

/-- A write is refused, or it puts its data into the stream and returns its length or an error. -/
theorem pollWrite_cases (cfg : Config) (s : State) (buf : Bytes) (pre post : Answer) :
    let extended := { s with sendBuf := s.sendBuf ++ buf, accepted := s.accepted ++ buf }
    let written := pollWrite cfg s buf pre post
    ((∀ count, written.1 ≠ .ready (.ok count)) ∧ ∃ taken, written.2 = drain s taken) ∨
    ((written.1 = .ready (.ok buf.length) ∨ ∃ error, written.1 = .ready (.error error)) ∧
      (s.writePending = true ∧ written.2 = extended ∨ ∃ before after,
        written.2 = drain (flushSendBuf cfg (drain extended before)) after)) := by
  simp only [pollWrite]
  by_cases pend : s.writePending
  · rw [if_pos pend]
    split_ifs
    · exact .inl ⟨nofun, 0, rfl⟩
    · exact .inr ⟨.inl rfl, .inl ⟨pend, rfl⟩⟩
  · rw [if_neg pend]
    split
    · exact .inl ⟨nofun, _, rfl⟩
    · exact .inl ⟨nofun, _, rfl⟩
    · split
      · exact .inr ⟨.inr ⟨_, rfl⟩, .inr ⟨_, _, rfl⟩⟩
      · exact .inr ⟨.inl rfl, .inr ⟨_, _, rfl⟩⟩

/-- A tagged record is one too many without data, or it ends the hold if there is one and then its
command is followed. -/
theorem tagged_cases (cfg : Config) (s : State) (len : Nat) (cmd : Command) : ∃ useless,
    let ticked := { s with uselessRecords := useless }
    processRecord cfg s (.tagged len cmd) = ticked ∨
    (s.writePending = true ∧ processRecord cfg s (.tagged len cmd) = handleCommand cfg
      (flushSendBuf cfg { ticked with writePending := false }) cmd (s.sendBuf ≠ [])) ∨
    (s.writePending = false ∧
      processRecord cfg s (.tagged len cmd) = handleCommand cfg ticked cmd false) := by
  refine ⟨if len = 0 then min (s.uselessRecords + 1) 255 else 0, ?_⟩
  simp only [processRecord]
  by_cases limit : maxUselessRecords < if len = 0 then min (s.uselessRecords + 1) 255 else 0
  · exact .inl (if_pos limit)
  · rw [if_neg limit]
    cases s.writePending with
    | true => exact .inr (.inl ⟨rfl, rfl⟩)
    | false => exact .inr (.inr ⟨rfl, rfl⟩)

theorem Sound.step {act : Action} {next : State} (sound : Sound cfg s)
    (steps : step cfg s act = some next) : Sound cfg next := by
  cases act with
  | pollWrite buf pre post =>
    cases steps
    refine Sound.record ?_ _ _
    obtain ⟨-, taken, kept⟩ | ⟨-, ⟨-, held⟩ | ⟨before, after, staged⟩⟩ :=
      pollWrite_cases cfg s buf pre post
    · rw [kept]
      exact sound.of_eq _ _ _
    · rw [held]
      exact sound.accept buf
    · rw [staged]
      exact (((sound.accept buf).of_eq _ _ _).flushLoop _).of_eq _ _ _
  | pollFlush n =>
    cases steps
    exact sound.of_eq _ _ _
  | inbound r n =>
    cases steps
    refine Sound.of_eq (s := processRecord cfg s r) ?_ _ _ _
    cases r with
    | alert => exact sound
    | changeCipherSpec => exact sound.of_eq _ _ _
    | cover useless reply => exact sound.of_eq _ _ _
    | tagged len cmd =>
      obtain ⟨useless, ticks | ⟨-, released⟩ | ⟨-, handled⟩⟩ := tagged_cases cfg s len cmd
      · rw [ticks]
        exact sound.of_eq _ _ _
      · rw [released]
        exact ((sound.of_eq _ _ _).flushLoop _).handleCommand _ _
      · rw [handled]
        exact (sound.of_eq _ _ _).handleCommand _ _

/-- The hold is on while data is held. -/
def Held (state : State) : Prop :=
  state.sendBuf ≠ [] → state.writePending = true

theorem Held.record (held : Held s) (buf : Bytes) (result : Poll (Except String Nat)) :
    Held (s.record buf result) := by
  rcases result with (_ | _) | _ <;> exact held

/-- Data that is left after a release was stopped short. -/
theorem stopsShort_of_flushSendBuf (left : (flushSendBuf cfg s).sendBuf ≠ []) :
    (flushSendBuf cfg s).writePending = true ∧ stopsShort cfg
      (cfg.script.length - s.toServerCtr + s.sendBuf.length) s.toServerCtr s.sendBuf.length := by
  have ends := flushLoop_ends (le_refl (cfg.script.length - s.toServerCtr + s.sendBuf.length))
  split_ifs at ends with short
  · exact ⟨ends, short⟩
  · exact absurd ends left

theorem Held.step {act : Action} {next : State} (held : Held s) (guard : Guard cfg s act)
    (steps : step cfg s act = some next) : Held next := by
  cases act with
  | pollWrite buf pre post =>
    cases steps
    refine Held.record ?_ _ _
    obtain ⟨-, taken, kept⟩ | ⟨-, ⟨pend, extended⟩ | ⟨before, after, staged⟩⟩ :=
      pollWrite_cases cfg s buf pre post
    · rw [kept]
      exact held
    · rw [extended]
      exact fun _ => pend
    · rw [staged]
      exact fun left => (stopsShort_of_flushSendBuf left).1
  | pollFlush n =>
    cases steps
    exact held
  | inbound r n =>
    cases steps
    cases r with
    | alert => exact held
    | changeCipherSpec => exact held
    | cover useless reply => exact held
    | tagged len cmd =>
      intro left
      simp only [drain] at left ⊢
      obtain ⟨useless, ticks | ⟨pend, released⟩ | ⟨free, handled⟩⟩ := tagged_cases cfg s len cmd
      · rw [ticks] at left ⊢
        exact held left
      · rw [released, handleCommand_sendBuf] at left
        rw [released]
        obtain ⟨stays, short⟩ := stopsShort_of_flushSendBuf left
        cases cmd with
        | noop => exact stays
        | respond n =>
          -- the released record counts as the one response
          have few : n ≤ 1 := by
            by_contra more
            rw [guard pend (by omega)] at short
            cases short
          have some : s.sendBuf ≠ [] := by
            intro empty
            simp only [empty, length_nil] at short
            cases fuel : cfg.script.length - s.toServerCtr + 0 <;>
              simp [fuel, stopsShort] at short
          simp only [handleCommand, some, ne_eq, not_false_eq_true, decide_true, if_true,
            Nat.sub_eq_zero_of_le few]
          exact stays
      · rw [handled, handleCommand_sendBuf] at left
        rw [held left] at free
        cases free

/-- What writes have put into the stream, and what they have returned. -/
def State.ledger (state : State) : Bytes × Bytes × Bool :=
  (state.accepted, state.acknowledged, state.failed)

theorem flushLoop_ledger (fuel : Nat) : (flushLoop cfg fuel s).ledger = s.ledger := by
  induction fuel generalizing s with
  | zero => rfl
  | succ fuel ih =>
    simp only [flushLoop]
    split_ifs
    · rfl
    · rfl
    · rw [ih]
      rfl

theorem stageFakes_ledger (n : Nat) : (stageFakes cfg n s).ledger = s.ledger := by
  induction n generalizing s with
  | zero => rfl
  | succ n ih =>
    simp only [stageFakes]
    split_ifs
    · rfl
    · rw [ih]
      rfl

theorem handleCommand_ledger (cmd : Command) (rel : Bool) :
    (handleCommand cfg s cmd rel).ledger = s.ledger := by
  cases cmd with
  | noop => rfl
  | respond n => exact stageFakes_ledger _

theorem processRecord_ledger (r : Inbound) : (processRecord cfg s r).ledger = s.ledger := by
  cases r with
  | alert => rfl
  | changeCipherSpec => rfl
  | cover useless reply => rfl
  | tagged len cmd =>
    obtain ⟨useless, ticks | ⟨-, released⟩ | ⟨-, handled⟩⟩ := tagged_cases cfg s len cmd
    · rw [ticks]
      rfl
    · rw [released, handleCommand_ledger]
      exact flushLoop_ledger _
    · rw [handled, handleCommand_ledger]
      rfl

theorem Reported.of_ledger {next : State} (reported : Reported s) (same : next.ledger = s.ledger) :
    Reported next := by
  obtain ⟨accepted, acknowledged, failed⟩ :
      next.accepted = s.accepted ∧ next.acknowledged = s.acknowledged ∧ next.failed = s.failed := by
    simpa [State.ledger] using same
  exact ⟨by rw [accepted, acknowledged]; exact reported.acknowledged,
    by rw [accepted, acknowledged, failed]; exact reported.unfailed⟩

/-- A write that puts its data into the stream returns the length of it or an error. -/
theorem Reported.record {next : State} {buf : Bytes} {result : Poll (Except String Nat)}
    (reported : Reported s)
    (same : next.ledger = (s.accepted ++ buf, s.acknowledged, s.failed))
    (returns : result = .ready (.ok buf.length) ∨ ∃ error, result = .ready (.error error)) :
    Reported (next.record buf result) := by
  obtain ⟨accepted, acknowledged, failed⟩ : next.accepted = s.accepted ++ buf ∧
      next.acknowledged = s.acknowledged ∧ next.failed = s.failed := by
    simpa [State.ledger] using same
  rcases returns with rfl | ⟨error, rfl⟩
  · constructor
    · simp only [State.record, accepted, acknowledged, take_length]
      exact reported.acknowledged.append (Sublist.refl _)
    · simp only [State.record, accepted, acknowledged, take_length, failed]
      exact fun unfailed => by rw [reported.unfailed unfailed]
  · refine ⟨?_, nofun⟩
    simp only [State.record, accepted, acknowledged]
    exact reported.acknowledged.trans (sublist_append_left _ _)

theorem Reported.step {act : Action} {next : State} (reported : Reported s)
    (steps : step cfg s act = some next) : Reported next := by
  cases act with
  | pollWrite buf pre post =>
    cases steps
    obtain ⟨refused, taken, kept⟩ | ⟨returns, ⟨-, extended⟩ | ⟨before, after, staged⟩⟩ :=
      pollWrite_cases cfg s buf pre post
    · rw [kept]
      cases result : (pollWrite cfg s buf pre post).1 with
      | pending => exact reported.of_ledger rfl
      | ready value =>
        cases value with
        | error error => exact ⟨reported.acknowledged, nofun⟩
        | ok count => exact absurd result (refused count)
    · exact reported.record (by rw [extended]; rfl) returns
    · exact reported.record (by rw [staged]; exact flushLoop_ledger _) returns
  | pollFlush n =>
    cases steps
    exact reported.of_ledger rfl
  | inbound r n =>
    cases steps
    exact reported.of_ledger (processRecord_ledger r)

/-- In every run the accepted data is in the staged records, in order, and then in what is held; the
records are numbered, bounded and only the first one binds the client's Finished.  It is the data of
the writes that returned a length, but for those that failed at the end.  Held data waits
for the next tagged record, if no record that asks for more than one response comes in while data is
held that the script stops short. -/
theorem never_strands_of_guarded (config : Config) (clientFinished : Bool) {actions : List Action}
    {final : State} (runs : run (step config) (State.new clientFinished) actions = some final) :
    Sound config final ∧ Reported final ∧
      (Meets (step config) (Guard config) (State.new clientFinished) actions → Held final) := by
  have initial : Sound config (State.new clientFinished) :=
    ⟨rfl, rfl, fun _ => nofun, fun _ => nofun, fun later => absurd rfl later⟩
  refine ⟨invariant_of_run (fun _ _ _ sound => sound.step) initial runs,
    invariant_of_run (fun _ _ _ reported => reported.step) ⟨.slnil, fun _ => rfl⟩ runs,
    fun meets => ?_⟩
  exact invariant_of_meets (fun _ _ _ held guard => held.step guard)
    (fun some => absurd rfl some) meets runs

/-- Two lines of one byte that interrupt. -/
def twoStops : Config :=
  ⟨[⟨1, 0, .respond 1⟩, ⟨1, 0, .respond 1⟩], false, fun _ => ⟨0, 0⟩⟩

theorem never_strands_of_guarded_twoStops : ∃ final,
    run (step twoStops) (State.new true) [.pollWrite [1, 2, 3] ⟨0, none⟩ ⟨100, none⟩,
      .inbound (.tagged 1 (.respond 1)) 0] = some final ∧
    final.sendBuf = [3] ∧ Sound twoStops final ∧ final.acknowledged = final.accepted ∧
      Held final := by
  refine ⟨_, rfl, rfl, ?_⟩
  obtain ⟨sound, reported, held⟩ := @never_strands_of_guarded twoStops true
    [.pollWrite [1, 2, 3] ⟨0, none⟩ ⟨100, none⟩, .inbound (.tagged 1 (.respond 1)) 0] _ rfl
  exact ⟨sound, reported.unfailed rfl, held (by simp [Meets, Guard])⟩

theorem second_stop_stranded : ∃ final,
    run (step twoStops) (State.new true) [.pollWrite [1, 2, 3] ⟨0, none⟩ ⟨100, none⟩,
      .inbound (.tagged 1 (.respond 2)) 0] = some final ∧
    final.sendBuf = [3] ∧ final.writePending = false :=
  ⟨_, rfl, rfl, rfl⟩

end MeowRs.Restls
