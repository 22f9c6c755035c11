import MeowRs.ActionRuns

/-!
# The receive side of one smux stream

The session reader hands the payloads of a stream to its consumer through a bounded channel, the
inbox, and parks what does not fit in an overflow queue, the spill.  The consumer's `poll_read`
polls the inbox first and takes the spill's lock only afterwards, so the two tasks interleave at
four points: the reader's enqueue, the inbox poll, the spill pop and the wake-up poll.  Each of
them is one action here.
-/

namespace MeowRs.Smux

open List

def streamQueue : Nat := 2048

/-- The number of parked frames past which the reader retires the stream. -/
def spillQueue : Nat := 2048

/-- The payload of one inbound frame, or what is left of it. -/
abbrev Chunk := List UInt8

/-- What a finished call of `poll_read` returned. -/
inductive ReadPoll where
  | ready
  | pending
  | connectionAborted
  | brokenPipe
  deriving DecidableEq, Repr

/-- Where the consumer stands in `poll_read`; `remaining` is the free space of the caller's
buffer. -/
inductive ReadPhase where
  /-- No call is in progress. -/
  | idle (returned : Option ReadPoll)
  /-- At the head of the loop, before the inbox is polled. -/
  | pollInbox (remaining : Nat)
  /-- The inbox was polled without a chunk; `exhausted` when it reported the end of the channel. -/
  | popSpill (remaining : Nat) (exhausted : Bool)
  /-- The spill was empty too, before the wake-up is polled. -/
  | pollNotified (remaining : Nat)
  deriving DecidableEq, Repr

/-- One stream as its reader and its consumer share it, together with the payloads dispatched and
the bytes handed to the caller so far. -/
structure Stream where
  inbox : List Chunk
  spill : List Chunk
  permit : Bool
  pending : Option Chunk
  eof : Bool
  closed : Bool
  aborted : Bool
  dead : Bool
  flooded : Bool
  phase : ReadPhase
  dispatched : List Chunk
  delivered : List UInt8
  deriving DecidableEq, Repr

/-- The steps of the session's tasks that touch one stream. -/
inductive Action where
  /-- The reader enqueues the payload of a PSH frame. -/
  | dispatch (payload : Chunk)
  /-- The stream is marked aborted, by the stall watchdog or after a frame flood. -/
  | retire
  /-- The session is marked dead. -/
  | markDead
  /-- The last sender of the inbox is dropped. -/
  | dropSender
  /-- The caller polls with a buffer that has room for `remaining` bytes. -/
  | pollRead (remaining : Nat)
  /-- The inbox is polled; without `budget` left it reports `Pending` whatever it holds. -/
  | pollInbox (budget : Bool)
  | popSpill
  | pollNotified
  deriving DecidableEq, Repr

namespace Stream

variable {str : Stream}

def opened : Stream where
  inbox := []
  spill := []
  permit := false
  pending := none
  eof := false
  closed := false
  aborted := false
  dead := false
  flooded := false
  phase := .idle none
  dispatched := []
  delivered := []

/-- Hand as much of a chunk to the caller as its buffer takes and keep the remainder. -/
def serveChunk (stream : Stream) (chunk : Chunk) (remaining : Nat) : Stream :=
  let n := min chunk.length remaining
  let rest := chunk.drop n
  { stream with
    delivered := stream.delivered ++ chunk.take n
    pending := if rest.isEmpty then stream.pending else some rest
    phase := .idle (some .ready) }

/-- A chunk taken from one of the queues: an empty one is skipped. -/
def takeChunk (stream : Stream) (chunk : Chunk) (remaining : Nat) : Stream :=
  if chunk.isEmpty then { stream with phase := .pollInbox remaining }
  else stream.serveChunk chunk remaining

/-- The reader's enqueue, under the spill lock.  Zero-length frames never reach it; the reader has no
sender once the channel is closed, and forgets the stream once it has flooded its spill. -/
def dispatch (stream : Stream) (payload : Chunk) : Option Stream :=
  if payload.isEmpty || stream.closed || stream.flooded then none
  else
    let parked := !(stream.spill.isEmpty && decide (stream.inbox.length < streamQueue))
    let inbox := if parked then stream.inbox else stream.inbox ++ [payload]
    let spill := if parked then stream.spill ++ [payload] else stream.spill
    some { stream with
      inbox := inbox
      spill := spill
      permit := stream.permit || parked
      flooded := decide (spillQueue < spill.length)
      dispatched := stream.dispatched ++ [payload] }

/-- The part of `poll_read` before its loop. -/
def pollRead (stream : Stream) (remaining : Nat) : Stream :=
  if remaining = 0 then { stream with phase := .idle (some .ready) }
  else
    match stream.pending with
    | some chunk => { stream with pending := none }.serveChunk chunk remaining
    | none =>
      if stream.eof then { stream with phase := .idle (some .ready) }
      else { stream with phase := .pollInbox remaining }

def pollInbox (stream : Stream) (remaining : Nat) (budget : Bool) : Stream :=
  if budget then
    match stream.inbox with
    | chunk :: rest => { stream with inbox := rest }.takeChunk chunk remaining
    | [] => { stream with phase := .popSpill remaining stream.closed }
  else { stream with phase := .popSpill remaining false }

/-- One pop of the spill, and what follows when the channel had ended and the spill is empty. -/
def popSpill (stream : Stream) (remaining : Nat) (exhausted : Bool) : Stream :=
  match stream.spill with
  | chunk :: rest => { stream with spill := rest }.takeChunk chunk remaining
  | [] =>
    if !exhausted then { stream with phase := .pollNotified remaining }
    else if stream.aborted then { stream with phase := .idle (some .connectionAborted) }
    else if stream.dead then { stream with phase := .idle (some .brokenPipe) }
    else { stream with eof := true, phase := .idle (some .ready) }

/-- A poll of the wake-up: a stored permit is consumed and the queues are checked again. -/
def pollNotified (stream : Stream) (remaining : Nat) : Stream :=
  if stream.permit then { stream with permit := false, phase := .pollInbox remaining }
  else { stream with phase := .idle (some .pending) }

/-- The successor of a stream under an action, if the action is enabled. -/
def step (stream : Stream) : Action → Option Stream
  | .dispatch payload => stream.dispatch payload
  | .retire => some { stream with aborted := true }
  | .markDead => some { stream with dead := true }
  | .dropSender => some { stream with closed := true }
  | .pollRead remaining =>
    match stream.phase with
    | .idle _ => some (stream.pollRead remaining)
    | _ => none
  | .pollInbox budget =>
    match stream.phase with
    | .pollInbox remaining => some (stream.pollInbox remaining budget)
    | _ => none
  | .popSpill =>
    match stream.phase with
    | .popSpill remaining exhausted => some (stream.popSpill remaining exhausted)
    | _ => none
  | .pollNotified =>
    match stream.phase with
    | .pollNotified remaining => some (stream.pollNotified remaining)
    | _ => none

@[simp]
theorem step_dispatch (str : Stream) (p : Chunk) : str.step (.dispatch p) = str.dispatch p :=
  rfl

/-- The bytes taken from the reader and not yet handed to the caller, in the order in which a
consumer that drains the inbox before the spill delivers them. -/
def buffered (stream : Stream) : List UInt8 :=
  stream.pending.getD [] ++ (stream.inbox.flatten ++ stream.spill.flatten)

/-- Nothing is lost, duplicated or reordered so far: the delivered bytes followed by the buffered
ones are the dispatched payloads.  A call that has reached its loop holds no remainder. -/
structure InOrder (stream : Stream) : Prop where
  bytes : stream.delivered ++ stream.buffered = stream.dispatched.flatten
  looping : (∀ returned, stream.phase ≠ .idle returned) → stream.pending = none

theorem inOrder_opened : InOrder opened :=
  ⟨rfl, fun _ => rfl⟩

theorem InOrder.delivered_prefix (ho : InOrder str) : str.delivered <+: str.dispatched.flatten :=
  ⟨str.buffered, ho.bytes⟩

/-- Serving a chunk moves a part of it to the caller and keeps the rest at the front. -/
theorem serveChunk_inOrder {ch : Chunk} {rem : Nat} (hre : str.pending = none)
    (bs : str.delivered ++ (ch ++ (str.inbox.flatten ++ str.spill.flatten)) =
      str.dispatched.flatten) : InOrder (str.serveChunk ch rem) := by
  have hk : (str.serveChunk ch rem).pending.getD [] =
      ch.drop (min ch.length rem) := by
    cases hr : ch.drop (min ch.length rem) with
    | nil => simp [serveChunk, hr, hre]
    | cons head tail => simp [serveChunk, hr]
  refine ⟨?_, fun hru => absurd rfl (hru (some .ready))⟩
  rw [buffered, hk]
  calc str.delivered ++ ch.take (min ch.length rem) ++ (ch.drop (min ch.length rem) ++
          (str.inbox.flatten ++ str.spill.flatten))
      = str.delivered ++ (ch ++ (str.inbox.flatten ++ str.spill.flatten)) := by
        rw [append_assoc, ← append_assoc (ch.take _), take_append_drop]
    _ = str.dispatched.flatten := bs

theorem takeChunk_inOrder {ch : Chunk} {rem : Nat} (hr : str.pending = none)
    (bs : str.delivered ++ (ch ++ (str.inbox.flatten ++ str.spill.flatten)) =
      str.dispatched.flatten) : InOrder (str.takeChunk ch rem) := by
  cases ch with
  | nil => exact ⟨by simpa [takeChunk, buffered, hr] using bs, fun _ => hr⟩
  | cons head tail => exact serveChunk_inOrder hr bs

theorem dispatch_inOrder {str next : Stream} {p : Chunk} (ho : InOrder str)
    (hs : str.dispatch p = some next) : InOrder next := by
  obtain ⟨bs, hl⟩ := ho
  unfold dispatch at hs
  split at hs <;> cases hs
  refine ⟨?_, hl⟩
  rw [flatten_concat, ← bs]
  -- The inbox only grows while the spill is empty, so either queue's end is the end of both.
  cases hr : str.spill.isEmpty && decide (str.inbox.length < streamQueue) with
  | false => simp [buffered]
  | true =>
    have hsp : str.spill = [] := by simp_all
    simp [buffered, hsp]

theorem pollRead_inOrder (rem : Nat) (ho : InOrder str) : InOrder (str.pollRead rem) := by
  obtain ⟨bs, hl⟩ := ho
  unfold pollRead
  split
  · exact ⟨bs, fun hr => absurd rfl (hr (some .ready))⟩
  · split
    · rename_i ch held
      exact serveChunk_inOrder rfl (by simpa [buffered, held] using bs)
    · rename_i noRemainder
      split
      all_goals exact ⟨bs, fun _ => noRemainder⟩

theorem pollInbox_inOrder (rem : Nat) (budget : Bool)
    (bs : str.delivered ++ str.buffered = str.dispatched.flatten) (hr : str.pending = none) :
    InOrder (str.pollInbox rem budget) := by
  unfold pollInbox
  split
  · split
    · rename_i ch rest held
      exact takeChunk_inOrder hr (by simpa [buffered, held, hr] using bs)
    · exact ⟨bs, fun _ => hr⟩
  · exact ⟨bs, fun _ => hr⟩

theorem popSpill_inOrder (rem : Nat) (exhausted : Bool)
    (bs : str.delivered ++ str.buffered = str.dispatched.flatten) (hr : str.pending = none)
    (hd : str.spill ≠ [] → str.inbox = []) : InOrder (str.popSpill rem exhausted) := by
  unfold popSpill
  split
  · rename_i ch rest held
    have hi : str.inbox = [] := hd (by simp [held])
    exact takeChunk_inOrder hr (by simpa [buffered, held, hi, hr] using bs)
  · split
    · exact ⟨bs, fun _ => hr⟩
    · split
      · exact ⟨bs, fun _ => hr⟩
      · split <;> exact ⟨bs, fun _ => hr⟩

theorem pollNotified_inOrder (rem : Nat)
    (bs : str.delivered ++ str.buffered = str.dispatched.flatten)
    (hr : str.pending = none) : InOrder (str.pollNotified rem) := by
  unfold pollNotified
  split <;> exact ⟨bs, fun _ => hr⟩

/-- The spill is popped only while the inbox is empty: the inbox poll before it did not report
`Pending` for lack of budget, and the reader has enqueued nothing in between. -/
def PopsDrained (stream : Stream) (action : Action) : Prop :=
  action = .popSpill → stream.spill ≠ [] → stream.inbox = []

theorem step_inOrder (str : Stream) (act : Action) (next : Stream) (ho : InOrder str)
    (hp : PopsDrained str act) (hs : str.step act = some next) : InOrder next := by
  have bs := ho.bytes
  cases act with simp only [step] at hs
  | dispatch p => exact dispatch_inOrder ho hs
  | retire | markDead | dropSender =>
    cases hs
    exact ⟨bs, ho.looping⟩
  | pollRead rem =>
    split at hs <;> cases hs
    exact pollRead_inOrder rem ho
  | pollInbox budget =>
    split at hs <;> cases hs
    rename_i rem atPhase
    exact pollInbox_inOrder rem budget bs (ho.looping (by simp [atPhase]))
  | popSpill =>
    split at hs <;> cases hs
    rename_i rem exhausted atPhase
    exact popSpill_inOrder rem exhausted bs (ho.looping (by simp [atPhase])) (hp rfl)
  | pollNotified =>
    split at hs <;> cases hs
    rename_i rem atPhase
    exact pollNotified_inOrder rem bs (ho.looping (by simp [atPhase]))

/-- In every run of a fresh stream that pops the spill only while the inbox is empty, the caller
has received a prefix of the dispatched payloads. -/
theorem delivered_prefix_of_popsDrained (actions : List Action) (stream : Stream)
    (pops : ActionRuns.Meets step PopsDrained opened actions)
    (runs : ActionRuns.run step opened actions = some stream) :
    stream.delivered <+: stream.dispatched.flatten := by
  have ho : InOrder stream := ActionRuns.invariant_of_meets step_inOrder inOrder_opened pops runs
  exact ho.delivered_prefix

/-- While the spill is empty and the inbox has room, equal payloads queue up in the inbox. -/
theorem run_dispatch_replicate (str : Stream) (p : Chunk) (n : Nat) (hne : p ≠ [])
    (ha : str.closed = false) (hn : str.flooded = false) (hs : str.spill = [])
    (room : str.inbox.length + n ≤ streamQueue) :
    ActionRuns.run step str (replicate n (.dispatch p)) =
      some { str with
        inbox := str.inbox ++ replicate n p
        dispatched := str.dispatched ++ replicate n p } := by
  induction n generalizing str with
  | zero => simp
  | succ n ih =>
    let next : Stream := { str with
      inbox := str.inbox ++ [p]
      dispatched := str.dispatched ++ [p] }
    have hf : str.inbox.length < streamQueue := by omega
    have he : str.dispatch p = some next := by
      simp [next, dispatch, hne, ha, hn, hs, hf]
    have hr : next.inbox.length + n ≤ streamQueue := by
      rw [length_append, length_singleton]
      omega
    rw [replicate_succ, ActionRuns.run, step_dispatch, he, Option.bind_some, ih next ha hn hs hr]
    simp [next, replicate_succ]

/-- One byte after the other is read from the inbox. -/
theorem run_read_replicate (str : Stream) (byte : UInt8) (rest : List Chunk) (count : Nat)
    (idle : str.phase = .idle (some .ready)) (noPending : str.pending = none)
    (notEnded : str.eof = false) (queued : str.inbox = replicate count [byte] ++ rest) :
    ActionRuns.run step str (replicate count [.pollRead 1, .pollInbox true]).flatten =
      some { str with inbox := rest, delivered := str.delivered ++ replicate count byte } := by
  induction count generalizing str with
  | zero =>
    rw [replicate_zero, nil_append] at queued
    simp [← queued]
  | succ count ih =>
    let next : Stream := { str with
      inbox := replicate count [byte] ++ rest
      delivered := str.delivered ++ [byte] }
    have first : ActionRuns.run step str [.pollRead 1, .pollInbox true] = some next := by
      simp [ActionRuns.run, step, pollRead, pollInbox, takeChunk, serveChunk, next, idle, noPending,
        notEnded, queued, replicate_succ]
    rw [replicate_succ, flatten_cons, ActionRuns.run_append first,
      ih next idle noPending notEnded rfl]
    simp [next, replicate_succ]

/-- The frame behind a full inbox is parked, and popped when the inbox has been read. -/
theorem delivered_prefix_of_popsDrained_parked :
    ∃ actions stream, .popSpill ∈ actions ∧ ActionRuns.run step opened actions = some stream ∧
      stream.delivered = replicate streamQueue 0 ++ [1] ∧
      stream.delivered <+: stream.dispatched.flatten := by
  -- The queue's length stays a variable: its numeral would be unrolled.
  obtain ⟨count, atLimit⟩ : ∃ count, count = streamQueue := ⟨_, rfl⟩
  rw [← atLimit]
  let fills : List Action := .pollRead 0 :: replicate count (.dispatch [0])
  let reads : List Action :=
    .dispatch [1] :: (replicate count [.pollRead 1, .pollInbox true]).flatten
  let pops : List Action := [.pollRead 1, .pollInbox true, .popSpill]
  let full : Stream := { opened with
    inbox := replicate count [0], phase := .idle (some .ready)
    dispatched := replicate count [0] }
  let parked : Stream := { full with
    spill := [[1]], permit := true, dispatched := replicate count [0] ++ [[1]] }
  let drained : Stream := { parked with inbox := [], delivered := replicate count 0 }
  have filled : ActionRuns.run step opened fills = some full := by
    have started : step opened (.pollRead 0) =
        some { opened with phase := .idle (some .ready) } := rfl
    simp only [fills, ActionRuns.run, started, Option.bind_some]
    rw [run_dispatch_replicate _ [0] count (by simp) rfl rfl rfl (by simp [opened, atLimit])]
    simp only [full, opened, nil_append]
  have parks : step full (.dispatch [1]) = some parked := by
    simp [step, dispatch, full, parked, opened, spillQueue, atLimit.not_lt]
  have readAll : ActionRuns.run step full reads = some drained := by
    simp only [reads, ActionRuns.run, parks, Option.bind_some]
    exact run_read_replicate parked 0 [] count rfl rfl rfl (append_nil _).symm
  have runs : ActionRuns.run step opened (fills ++ (reads ++ pops)) = some
      { drained with spill := [], delivered := replicate count 0 ++ [1] } := by
    rw [ActionRuns.run_append filled, ActionRuns.run_append readAll]
    rfl
  refine ⟨_, _, by simp [pops], runs, rfl, delivered_prefix_of_popsDrained _ _ ?_ runs⟩
  have noPops : ∀ action ∈ fills ++ reads, ∀ stream, PopsDrained stream action := by
    intro action member stream isPop
    subst isPop
    simp [fills, reads] at member
  rw [← append_assoc]
  refine ActionRuns.meets_append (ActionRuns.meets_of_forall noPops)
    ((ActionRuns.run_append filled _).trans readAll)
    ⟨fun isPop => (by cases isPop), fun _ polled => ?_⟩
  cases polled
  refine ⟨fun isPop => (by cases isPop), fun _ polled => ?_⟩
  cases polled
  exact ⟨fun _ _ => rfl, fun _ _ => trivial⟩

/-- A burst of one frame more than the inbox holds, read by a consumer whose inbox poll reports
`Pending` for lack of budget: the parked frame overtakes the whole inbox. -/
theorem parked_frame_overtakes_inbox :
    ∃ stream, ActionRuns.run step opened
        (replicate streamQueue (.dispatch [0]) ++
          [.dispatch [1], .pollRead 1, .pollInbox false, .popSpill]) = some stream ∧
      stream.delivered = [1] ∧ ¬ stream.delivered <+: stream.dispatched.flatten := by
  have hb := run_dispatch_replicate opened [0] streamQueue (by simp) rfl rfl rfl (by simp [opened])
  refine ⟨{ opened with
      inbox := replicate streamQueue [0], permit := true, phase := .idle (some .ready)
      dispatched := replicate streamQueue [0] ++ [[1]], delivered := [1] },
    (ActionRuns.run_append hb _).trans ?_, rfl, ?_⟩
  · simp [ActionRuns.run, step, dispatch, opened, pollRead, pollInbox, popSpill, takeChunk,
      serveChunk, spillQueue]
  · have firstFrame : replicate streamQueue ([0] : Chunk) =
        [0] :: replicate (streamQueue - 1) [0] := rfl
    simp [firstFrame]

end Stream

end MeowRs.Smux
