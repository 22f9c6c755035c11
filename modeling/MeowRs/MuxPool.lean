import MeowRs.ActionRuns

/-!
# The session pool of a mux client

`offer` picks a pooled session under the pool lock, or dials a new one while still holding it, and
reserves a slot on the session's counter; the slot is given back when the open fails or is cancelled
or when its stream is dropped.  `reset` moves the generation on and drains the pool of older
sessions, at once if the lock is free and in a task of its own otherwise.  Every load, store and
exchange of a shared atomic is an action of its own, so a run is an interleaving of threads.
-/

namespace MeowRs.MuxPool

/-- The bounds of the pool.  `period` is the number of values of `Uint`: `2^64`, or `2^32` on
targets without 64-bit atomics. -/
structure Options where
  maxConnections : ℕ
  minStreams : ℕ
  maxStreams : ℕ
  period : ℕ
  period_pos : 0 < period

/-- `IDLE_TIMEOUT` in milliseconds. -/
def idleTimeout : ℕ :=
  60000

/-- A session is named by its place in the list of all sessions ever dialled.  `born` counts the
resets before its dial began; the code does not have it. -/
structure Session where
  streams : ℕ
  lastUsed : ℕ
  generation : ℕ
  unusable : Bool
  born : ℕ

inductive Holder where
  | opener (index : ℕ)
  | resetter (index : ℕ)
  deriving DecidableEq

/-- What the threads share.  `bumps` counts the resets; the code has only `generation`. -/
structure Shared where
  arena : List Session
  pool : List ℕ
  lock : Option Holder
  generation : ℕ
  bumps : ℕ

/-- Where an `open_stream_flags` call stands, and afterwards the stream it opened.  `attempt` counts
the rounds of its loop and `round` those of `offer_new_locked`. -/
inductive Open where
  | waiting (attempt : ℕ)
  | locked (attempt : ℕ)
  | stale (attempt generation : ℕ)
  | pruning (attempt now : ℕ) (kept rest : List ℕ)
  | aging (attempt now : ℕ) (kept : List ℕ) (session : ℕ) (rest : List ℕ)
  | weighing (attempt now : ℕ) (recent : Bool) (kept : List ℕ) (session : ℕ) (rest : List ℕ)
  | scanning (attempt : ℕ) (best : Option (ℕ × ℕ)) (rest : List ℕ)
  | choosing (attempt session : ℕ)
  | swapping (attempt session load : ℕ)
  | redialing (attempt round : ℕ)
  | dialing (attempt round generation born : ℕ)
  | created (attempt round generation born : ℕ)
  | checked (attempt generation born : ℕ)
  | opening (attempt session : ℕ)
  | storing (session : ℕ)
  | live (session : ℕ)
  | finished

/-- Where a `reset` call and the task it may spawn stand.  `number` is the place of its bump among
all bumps. -/
inductive Reset where
  | bumped (number : ℕ)
  | holding (number : ℕ)
  | loaded (number generation : ℕ)
  | deferred (number : ℕ)
  | taskHolding (number : ℕ)
  | taskLoaded (number generation : ℕ)
  | finished (number : ℕ)

namespace Open

def holdsLock : Open → Bool
  | locked _ | stale _ _ | pruning _ _ _ _ | aging _ _ _ _ _ | weighing _ _ _ _ _ _
  | scanning _ _ _ | choosing _ _ | swapping _ _ _ | redialing _ _ | dialing _ _ _ _
  | created _ _ _ _ | checked _ _ _ => true
  | waiting _ | opening _ _ | storing _ | live _ | finished => false

/-- The session on which an open that has not returned yet holds a slot. -/
def inFlight? : Open → Option ℕ
  | opening _ session | storing session => some session
  | waiting _ | locked _ | stale _ _ | pruning _ _ _ _ | aging _ _ _ _ _ | weighing _ _ _ _ _ _
  | scanning _ _ _ | choosing _ _ | swapping _ _ _ | redialing _ _ | dialing _ _ _ _
  | created _ _ _ _ | checked _ _ _ | live _ | finished => none

def live? : Open → Option ℕ
  | live session => some session
  | waiting _ | locked _ | stale _ _ | pruning _ _ _ _ | aging _ _ _ _ _ | weighing _ _ _ _ _ _
  | scanning _ _ _ | choosing _ _ | swapping _ _ _ | redialing _ _ | dialing _ _ _ _
  | created _ _ _ _ | checked _ _ _ | opening _ _ | storing _ | finished => none

def slot? (call : Open) : Option ℕ :=
  call.inFlight? <|> call.live?

end Open

namespace Reset

def returned? : Reset → Option ℕ
  | bumped _ | holding _ | loaded _ _ => none
  | deferred number | taskHolding number | taskLoaded number _ | finished number => some number

def holdsLock : Reset → Bool
  | holding _ | loaded _ _ | taskHolding _ | taskLoaded _ _ => true
  | bumped _ | deferred _ | finished _ => false

end Reset

namespace Shared

/-- `drain_stale`. -/
def drainStale (shared : Shared) (generation : ℕ) : Shared :=
  let fresh := fun session : Session => session.generation == generation
  { shared with
    pool := shared.pool.filter fun index => shared.arena[index]?.any fresh
    arena := shared.arena.mapIdx fun index session =>
      if shared.pool.contains index && !fresh session then { session with unusable := true }
      else session }

def withSession (shared : Shared) (index : ℕ) (session : Session) : Shared :=
  { shared with arena := shared.arena.set index session }

/-- The drop of a `Reservation` or of a stream: `streams.fetch_sub(1)`. -/
def release (shared : Shared) (index : ℕ) (session : Session) : Shared :=
  shared.withSession index
    { session with streams := if session.streams = 0 then 2 ^ 64 - 1 else session.streams - 1 }

def unlock (shared : Shared) : Shared :=
  { shared with lock := none }

end Shared

/-- Whether `offer` puts the next stream on the session with the fewest. -/
def reuse (options : Options) (pooled load : ℕ) : Bool :=
  if load = 0 then true
  else if 0 < options.maxConnections then
    decide (options.maxConnections ≤ pooled) || decide (load < options.minStreams)
  else
    decide (load < options.minStreams) ||
      (decide (0 < options.maxStreams) && decide (load < options.maxStreams))

/-- One comparison of `min_by_key`: the earlier of two equal minima stays. -/
def fewer (best : Option (ℕ × ℕ)) (session load : ℕ) : Option (ℕ × ℕ) :=
  match best with
  | none => some (session, load)
  | some (other, least) => if load < least then some (session, load) else some (other, least)

inductive Event where
  | advance (now : ℕ)
  | dialled
  | dialFails
  | opened
  | refused (unsupported : Bool)
  | close
  | cancel

/-- The steps of `offer` and `open_stream_flags` between two awaits. -/
def advance (options : Options) (shared : Shared) (self now : ℕ) : Open → Option (Shared × Open)
  | .waiting attempt =>
    if shared.lock = none then some ({ shared with lock := some (.opener self) }, .locked attempt)
    else none
  | .locked attempt => some (shared, .stale attempt shared.generation)
  | .stale attempt generation =>
    let drained := shared.drainStale generation
    some (drained, .pruning attempt (now % options.period) [] drained.pool)
  | .pruning attempt _ kept [] => some ({ shared with pool := kept }, .scanning attempt none kept)
  | .pruning attempt now kept (index :: rest) => do
      let session ← shared.arena[index]?
      if session.unusable then some (shared, .pruning attempt now kept rest)
      else some (shared, .aging attempt now kept index rest)
  | .aging attempt now kept index rest => do
      let session ← shared.arena[index]?
      let idle := (now + options.period - session.lastUsed) % options.period
      some (shared, .weighing attempt now (decide (idle < idleTimeout)) kept index rest)
  | .weighing attempt now recent kept index rest => do
      let session ← shared.arena[index]?
      if 0 < session.streams ∨ recent then
        some (shared, .pruning attempt now (kept ++ [index]) rest)
      else some (shared, .pruning attempt now kept rest)
  | .scanning attempt best (index :: rest) => do
      let session ← shared.arena[index]?
      some (shared, .scanning attempt (fewer best index session.streams) rest)
  | .scanning attempt none [] => some (shared, .redialing attempt 0)
  | .scanning attempt (some (index, _)) [] => some (shared, .choosing attempt index)
  | .choosing attempt index => do
      let session ← shared.arena[index]?
      if reuse options shared.pool.length session.streams then
        some (shared, .swapping attempt index session.streams)
      else some (shared, .redialing attempt 0)
  | .swapping attempt index load => do
      let session ← shared.arena[index]?
      if session.streams = load then
        some ((shared.withSession index { session with streams := load + 1 }).unlock,
          .opening attempt index)
      else some (shared, .choosing attempt index)
  | .redialing attempt round =>
    some (shared, .dialing attempt round shared.generation shared.bumps)
  | .created attempt round generation born =>
    if shared.generation = generation then some (shared, .checked attempt generation born)
    else if round = 0 then some (shared, .redialing attempt 1)
    else some (shared.unlock, .finished)
  | .checked attempt generation born =>
    let session : Session := ⟨1, now % options.period, generation, false, born⟩
    some ({ shared with
      arena := shared.arena ++ [session], pool := shared.pool ++ [shared.arena.length],
      lock := none }, .opening attempt shared.arena.length)
  | .storing index => do
      let session ← shared.arena[index]?
      some (shared.withSession index { session with lastUsed := now % options.period }, .live index)
  | .dialing _ _ _ _ | .opening _ _ | .live _ | .finished => none

/-- The open future is dropped at an await. -/
def cancel (shared : Shared) : Open → Option (Shared × Open)
  | .waiting _ => some (shared, .finished)
  | .dialing _ _ _ _ => some (shared.unlock, .finished)
  | .opening _ index => do
      let session ← shared.arena[index]?
      some (shared.release index session, .finished)
  | .locked _ | .stale _ _ | .pruning _ _ _ _ | .aging _ _ _ _ _ | .weighing _ _ _ _ _ _
  | .scanning _ _ _ | .choosing _ _ | .swapping _ _ _ | .redialing _ _ | .created _ _ _ _
  | .checked _ _ _ | .storing _ | .live _ | .finished => none

def openStep (options : Options) (shared : Shared) (self : ℕ) (call : Open) :
    Event → Option (Shared × Open)
  | .advance now => advance options shared self now call
  | .dialled =>
    match call with
    | .dialing attempt round generation born =>
      some (shared, .created attempt round generation born)
    | _ => none
  | .dialFails =>
    match call with
    | .dialing _ _ _ _ => some (shared.unlock, .finished)
    | _ => none
  | .opened =>
    match call with
    | .opening _ index => some (shared, .storing index)
    | _ => none
  | .refused unsupported =>
    match call with
    | .opening attempt index => do
        let session ← shared.arena[index]?
        let next := if unsupported ∨ attempt ≠ 0 then Open.finished else .waiting 1
        some (shared.release index session, next)
    | _ => none
  | .close =>
    match call with
    | .live index => do
        let session ← shared.arena[index]?
        some (shared.release index session, .finished)
    | _ => none
  | .cancel => cancel shared call

/-- The steps of `reset` and of its task.  `spawns` says whether there is a runtime to defer to. -/
def resetStep (shared : Shared) (self : ℕ) (spawns : Bool) : Reset → Option (Shared × Reset)
  | .bumped number =>
    if shared.lock = none then
      some ({ shared with lock := some (.resetter self) }, .holding number)
    else some (shared, if spawns then .deferred number else .finished number)
  | .holding number => some (shared, .loaded number shared.generation)
  | .loaded number generation => some ((shared.drainStale generation).unlock, .finished number)
  | .deferred number =>
    if shared.lock = none then
      some ({ shared with lock := some (.resetter self) }, .taskHolding number)
    else none
  | .taskHolding number => some (shared, .taskLoaded number shared.generation)
  | .taskLoaded number generation => some ((shared.drainStale generation).unlock, .finished number)
  | .finished _ => none

structure State where
  shared : Shared
  opens : List Open
  resets : List Reset

inductive Action where
  | startOpen
  | openEvent (index : ℕ) (event : Event)
  | die (session : ℕ)
  | callReset
  | advanceReset (index : ℕ) (spawns : Bool)

def step (options : Options) (state : State) : Action → Option State
  | .startOpen => some { state with opens := state.opens ++ [.waiting 0] }
  | .openEvent index event => do
      let call ← state.opens[index]?
      let (shared, next) ← openStep options state.shared index call event
      some { state with shared := shared, opens := state.opens.set index next }
  | .die index => do
      let session ← state.shared.arena[index]?
      some { state with shared := state.shared.withSession index { session with unusable := true } }
  | .callReset =>
    let bumps := state.shared.bumps + 1
    some { state with
      shared := { state.shared with
        generation := (state.shared.generation + 1) % options.period, bumps := bumps },
      resets := state.resets ++ [.bumped bumps] }
  | .advanceReset index spawns => do
      let reset ← state.resets[index]?
      let (shared, next) ← resetStep state.shared index spawns reset
      some { state with shared := shared, resets := state.resets.set index next }

def initial : State :=
  ⟨⟨[], [], none, 0, 0⟩, [], []⟩

namespace State

def inFlight (state : State) (session : ℕ) : ℕ :=
  state.opens.countP fun call => call.inFlight? == some session

def live (state : State) (session : ℕ) : ℕ :=
  state.opens.countP fun call => call.live? == some session

end State

end MeowRs.MuxPool
