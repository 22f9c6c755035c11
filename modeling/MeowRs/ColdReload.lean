import MeowRs.ActionRuns
import MeowRs.ShardedMaps

/-!
# Cold reloads and TCP admission

A TCP setup captures the reload generation, reads the route table, may wait for DNS as long as it
likes, and then registers through its `TcpAdmission`, which compares the generation again and
inserts the connection under one read lock.  `reload_routing` bumps the generation, drains both
connection registries shard by shard and installs the new table under the write lock.  One action
below is what one thread does between two points at which another thread can run.
-/

namespace MeowRs.ColdReload

open Nat

open ActionRuns ShardedMaps

/-- A route table as it was published: `serial` counts the installs before it. -/
structure Installed (Table : Type*) where
  serial : ℕ
  table : Table

/-- What a TCP setup has done so far.  The generation is that of its `TcpAdmission`. -/
inductive Setup (Table : Type*) where
  | idle
  | captured (generation : ℕ)
  | routed (generation : ℕ) (route : Installed Table)
  | validated (generation : ℕ) (route : Installed Table)
  | inserted (generation : ℕ) (route : Installed Table)
  | registered (generation : ℕ) (route : Installed Table)
  | refused (generation : ℕ) (route : Installed Table)

/-- The two tables that `close_all_connections_counted` drains, in this order. -/
inductive Registry where
  | api
  | headless

/-- Where a `reload_routing` call stands.  `generation` is the value it stored, `closed` the number
of closure requests so far. -/
inductive Reload (Table Mode : Type*) where
  | idle
  | compiled (table : Table) (mode : Option Mode)
  | locked (table : Table) (mode : Option Mode)
  | draining (generation : ℕ) (table : Table) (mode : Option Mode) (registry : Registry)
      (shard closed : ℕ)
  | drained (generation : ℕ) (table : Table) (mode : Option Mode) (closed : ℕ)
  | installed (generation : ℕ) (route : Installed Table) (mode : Option Mode) (closed : ℕ)
  | published (generation : ℕ) (route : Installed Table) (closed : ℕ)
  | unlocked (generation : ℕ) (route : Installed Table) (closed : ℕ)
  | returned (generation : ℕ) (route : Installed Table) (closed : ℕ)
  | panicked

namespace Setup

variable {Table : Type*}

def generation? : Setup Table → Option ℕ
  | idle => none
  | captured generation | routed generation _ | validated generation _ | inserted generation _
  | registered generation _ | refused generation _ => some generation

def route? : Setup Table → Option (Installed Table)
  | idle | captured _ => none
  | routed _ route | validated _ route | inserted _ route | registered _ route
  | refused _ route => some route

def reading : Setup Table → Bool
  | validated _ _ | inserted _ _ => true
  | idle | captured _ | routed _ _ | registered _ _ | refused _ _ => false

def entered : Setup Table → Bool
  | inserted _ _ | registered _ _ => true
  | idle | captured _ | routed _ _ | validated _ _ | refused _ _ => false

end Setup

namespace Reload

variable {Table Mode : Type*}

def generation? : Reload Table Mode → Option ℕ
  | idle | compiled _ _ | locked _ _ | panicked => none
  | draining generation _ _ _ _ _ | drained generation _ _ _ | installed generation _ _ _
  | published generation _ _ | unlocked generation _ _ | returned generation _ _ => some generation

def route? : Reload Table Mode → Option (Installed Table)
  | idle | compiled _ _ | locked _ _ | draining _ _ _ _ _ _ | drained _ _ _ _ | panicked => none
  | installed _ route _ _ | published _ route _ | unlocked _ route _ | returned _ route _ =>
    some route

def writing : Reload Table Mode → Bool
  | locked _ _ | draining _ _ _ _ _ _ | drained _ _ _ _ | installed _ _ _ _
  | published _ _ _ => true
  | idle | compiled _ _ | unlocked _ _ _ | returned _ _ _ | panicked => false

end Reload

/-- What the tunnel is built with: whether `set_headless` chose the light registry, and how the two
hash maps spread their keys over shards. -/
structure Config (Uuid : Type*) where
  headless : Bool
  shards : ℕ
  shard : Uuid → Fin shards
  headlessShards : ℕ
  headlessShard : ℕ → Fin headlessShards

/-- The tunnel and every thread that works on it.  Setups and reloads are numbered; the number of a
setup is also the identity of the counters it shares with its registry entry, and so the address
that is its key in the headless registry. -/
structure State (Table Mode Uuid : Type*) where
  generation : ℕ
  readers : List ℕ
  writer : Option ℕ
  route : Installed Table
  mode : Mode
  connections : AList fun _ : Uuid => ℕ
  headlessConnections : AList fun _ : ℕ => ℕ
  signalled : ℕ → Bool
  closing : List ℕ
  setups : ℕ → Setup Table
  reloads : ℕ → Reload Table Mode

inductive Action (Table Mode Uuid : Type*) where
  | capture (setup : ℕ)
  | readRoute (setup : ℕ)
  | validate (setup : ℕ)
  | insert (setup : ℕ) (uuid : Uuid)
  | finish (setup : ℕ)
  | closeConnection (uuid : Uuid)
  | closeHeadlessConnection (setup : ℕ)
  | signal (setup : ℕ)
  | updateRouting (table : Table)
  | setMode (mode : Mode)
  | compile (reload : ℕ) (table : Table) (mode : Option Mode)
  | lock (reload : ℕ)
  | bump (reload : ℕ)
  | drain (reload : ℕ)
  | install (reload : ℕ)
  | publish (reload : ℕ)
  | unlock (reload : ℕ)
  | finishReload (reload : ℕ)

namespace State

variable {Table Mode Uuid : Type*}

def initial (table : Table) (mode : Mode) : State Table Mode Uuid where
  generation := 0
  readers := []
  writer := none
  route := ⟨0, table⟩
  mode := mode
  connections := ∅
  headlessConnections := ∅
  signalled := fun _ => false
  closing := []
  setups := fun _ => .idle
  reloads := fun _ => .idle

def withSetup (state : State Table Mode Uuid) (setup : ℕ) (phase : Setup Table) :
    State Table Mode Uuid :=
  { state with setups := fun other => if other = setup then phase else state.setups other }

def withReload (state : State Table Mode Uuid) (reload : ℕ) (phase : Reload Table Mode) :
    State Table Mode Uuid :=
  { state with reloads := fun other => if other = reload then phase else state.reloads other }

/-- `install_routing`: the table is swapped inside one write section of the route lock. -/
def installRouting (state : State Table Mode Uuid) (table : Table) : State Table Mode Uuid :=
  { state with route := ⟨state.route.serial + 1, table⟩ }

/-- `ConnCounters::close` on every handle of the list. -/
def close (state : State Table Mode Uuid) (handles : List ℕ) : State Table Mode Uuid :=
  { state with signalled := fun setup => state.signalled setup || decide (setup ∈ handles) }

def Registered [DecidableEq Uuid] (state : State Table Mode Uuid) (setup : ℕ) : Prop :=
  (∃ uuid, state.connections.lookup uuid = some setup) ∨
    ∃ key, state.headlessConnections.lookup key = some setup

end State

/-- `u64::checked_add(1)`. -/
def checkedNext (generation : ℕ) : Option ℕ :=
  if generation + 1 < 2 ^ 64 then some (generation + 1) else none

section Step

variable {Table Mode Uuid : Type*} [DecidableEq Uuid]

/-- `TcpAdmission::track` and `track_named` up to the comparison: the read lock is kept only when
the generation is still the captured one. -/
def validate (state : State Table Mode Uuid) (setup generation : ℕ) (route : Installed Table) :
    State Table Mode Uuid :=
  if generation = state.generation then
    { state.withSetup setup (.validated generation route) with readers := setup :: state.readers }
  else
    state.withSetup setup (.refused generation route)

/-- The registry insert of `ConnectionGuard::track`. -/
def register (config : Config Uuid) (state : State Table Mode Uuid) (setup : ℕ) (uuid : Uuid) :
    State Table Mode Uuid :=
  if config.headless then
    { state with headlessConnections := state.headlessConnections.insert setup setup }
  else
    { state with connections := state.connections.insert uuid setup }

/-- One shard of `close_all_connections_counted`: under the shard's lock every entry is signalled
and removed.  Behind the last shard the loop goes on to the headless registry, if there is one. -/
def drainStep (config : Config Uuid) (state : State Table Mode Uuid) (reload generation : ℕ)
    (table : Table) (mode : Option Mode) (registry : Registry) (shard closed : ℕ) :
    State Table Mode Uuid :=
  match registry with
  | .api =>
    if shard < config.shards then
      let handles := inShard config.shard shard state.connections
      { (state.close handles).withReload reload
          (.draining generation table mode .api (shard + 1) (closed + handles.length)) with
        connections := drainShard config.shard shard state.connections }
    else
      state.withReload reload (.draining generation table mode .headless 0 closed)
  | .headless =>
    if config.headless && decide (shard < config.headlessShards) then
      let handles := inShard config.headlessShard shard state.headlessConnections
      { (state.close handles).withReload reload
          (.draining generation table mode .headless (shard + 1) (closed + handles.length)) with
        headlessConnections :=
          drainShard config.headlessShard shard state.headlessConnections }
    else
      state.withReload reload (.drained generation table mode closed)

def step (config : Config Uuid) (state : State Table Mode Uuid) :
    Action Table Mode Uuid → Option (State Table Mode Uuid)
  -- A read of the generation waits while a reload holds the write lock.
  | .capture setup =>
    match state.setups setup with
    | .idle =>
      if state.writer = none then
        some (state.withSetup setup (.captured state.generation))
      else
        none
    | _ => none
  | .readRoute setup =>
    match state.setups setup with
    | .captured generation => some (state.withSetup setup (.routed generation state.route))
    | _ => none
  | .validate setup =>
    match state.setups setup with
    | .routed generation route =>
      if state.writer = none then some (validate state setup generation route) else none
    | _ => none
  | .insert setup uuid =>
    match state.setups setup with
    | .validated generation route =>
      some (register config (state.withSetup setup (.inserted generation route)) setup uuid)
    | _ => none
  | .finish setup =>
    match state.setups setup with
    | .inserted generation route =>
      some { state.withSetup setup (.registered generation route) with
        readers := state.readers.filter (· ≠ setup) }
    | _ => none
  -- `close_connection` removes the entry first and signals its owner afterwards.
  | .closeConnection uuid =>
    match state.connections.lookup uuid with
    | some setup =>
      some { state with
        connections := state.connections.erase uuid
        closing := setup :: state.closing }
    | none => some state
  | .closeHeadlessConnection key =>
    match state.headlessConnections.lookup key with
    | some setup =>
      some { state with
        headlessConnections := state.headlessConnections.erase key
        closing := setup :: state.closing }
    | none => some state
  | .signal setup =>
    if setup ∈ state.closing then
      some { state.close [setup] with closing := state.closing.erase setup }
    else
      none
  | .updateRouting table => some (state.installRouting table)
  | .setMode mode => some { state with mode := mode }
  | .compile reload table mode =>
    match state.reloads reload with
    | .idle => some (state.withReload reload (.compiled table mode))
    | _ => none
  | .lock reload =>
    match state.reloads reload with
    | .compiled table mode =>
      if state.writer = none ∧ state.readers = [] then
        some { state.withReload reload (.locked table mode) with writer := some reload }
      else
        none
    | _ => none
  -- Out of generations the call panics, and unwinding releases the lock.
  | .bump reload =>
    match state.reloads reload with
    | .locked table mode =>
      match checkedNext state.generation with
      | some generation =>
        some { state.withReload reload (.draining generation table mode .api 0 0) with
          generation := generation }
      | none => some { state.withReload reload .panicked with writer := none }
    | _ => none
  | .drain reload =>
    match state.reloads reload with
    | .draining generation table mode registry shard closed =>
      some (drainStep config state reload generation table mode registry shard closed)
    | _ => none
  | .install reload =>
    match state.reloads reload with
    | .drained generation table mode closed =>
      let next := state.installRouting table
      some (next.withReload reload (.installed generation next.route mode closed))
    | _ => none
  | .publish reload =>
    match state.reloads reload with
    | .installed generation route mode closed =>
      some { state.withReload reload (.published generation route closed) with
        mode := mode.getD state.mode }
    | _ => none
  | .unlock reload =>
    match state.reloads reload with
    | .published generation route closed =>
      some { state.withReload reload (.unlocked generation route closed) with writer := none }
    | _ => none
  | .finishReload reload =>
    match state.reloads reload with
    | .unlocked generation route closed =>
      some (state.withReload reload (.returned generation route closed))
    | _ => none

end Step

section Order

variable {Table Mode Uuid : Type*} {state next : State Table Mode Uuid} {phase : Reload Table Mode}

/-- Readers and the writer of the generation lock are known to it and exclude each other. -/
structure Locked (state : State Table Mode Uuid) : Prop where
  reading : ∀ setup, (state.setups setup).reading = true → setup ∈ state.readers
  writing : ∀ reload, (state.reloads reload).writing = true → state.writer = some reload
  exclusive : state.writer ≠ none → state.readers = []

/-- Generations and tables grow together: whoever captured a generation captured it before every
reload that has a later one, and was routed by a table at least as new as every reload's that has
this one or an earlier one. -/
structure Ordered (state : State Table Mode Uuid) : Prop where
  captured_le : ∀ setup generation, (state.setups setup).generation? = some generation →
    generation ≤ state.generation
  held : ∀ setup, (state.setups setup).reading = true →
    (state.setups setup).generation? = some state.generation
  stored_le : ∀ reload generation, (state.reloads reload).generation? = some generation →
    generation ≤ state.generation
  captured_lt : ∀ reload stored, (state.reloads reload).writing = true →
    (state.reloads reload).generation? = some stored →
    ∀ setup generation, (state.setups setup).generation? = some generation → generation < stored
  installed_le : ∀ reload route, (state.reloads reload).route? = some route →
    route.serial ≤ state.route.serial
  routed_after : ∀ reload stored installed,
    (state.reloads reload).generation? = some stored →
    (state.reloads reload).route? = some installed →
    ∀ setup generation route, (state.setups setup).generation? = some generation →
      (state.setups setup).route? = some route → stored ≤ generation →
      installed.serial ≤ route.serial

theorem Ordered.transport (ordered : Ordered state)
    (generation : next.generation = state.generation)
    (route : next.route = state.route) (setups : next.setups = state.setups)
    (reloads : next.reloads = state.reloads) : Ordered next := by
  obtain ⟨captured_le, held, stored_le, captured_lt, installed_le, routed_after⟩ := ordered
  constructor <;> simp only [generation, route, setups, reloads] <;> assumption

theorem Reload.stored_of_route {route : Installed Table}
    (found : phase.route? = some route) : ∃ stored, phase.generation? = some stored := by
  cases phase with
  | installed generation | published generation | unlocked generation | returned generation =>
    exact ⟨generation, rfl⟩
  | _ => cases found

variable (ordered : Ordered state)
include ordered

theorem Ordered.withSetup {setup : ℕ} {phase : Setup Table}
    (captured : ∀ generation, phase.generation? = some generation → generation ≤ state.generation ∧
      ∀ reload stored, (state.reloads reload).writing = true →
        (state.reloads reload).generation? = some stored → generation < stored)
    (held : phase.reading = true → phase.generation? = some state.generation)
    (routed : ∀ generation route, phase.generation? = some generation →
      phase.route? = some route → ∀ reload stored installed,
        (state.reloads reload).generation? = some stored →
        (state.reloads reload).route? = some installed → stored ≤ generation →
        installed.serial ≤ route.serial) :
    Ordered (state.withSetup setup phase) where
  captured_le other := by
    simp only [State.withSetup]
    split
    · exact fun generation found => (captured generation found).1
    · exact ordered.captured_le other
  held other := by
    simp only [State.withSetup]
    split
    · exact held
    · exact ordered.held other
  stored_le := ordered.stored_le
  captured_lt reload stored writes stores other := by
    simp only [State.withSetup]
    split
    · exact fun generation found => (captured generation found).2 reload stored writes stores
    · exact ordered.captured_lt reload stored writes stores other
  installed_le := ordered.installed_le
  routed_after reload stored installed stores installs other := by
    simp only [State.withSetup]
    split
    · exact fun generation route found through =>
        routed generation route found through reload stored installed stores installs
    · exact ordered.routed_after reload stored installed stores installs other

/-- A setup that keeps its token and its route does not disturb the order. -/
theorem Ordered.advance {setup : ℕ} {before phase : Setup Table}
    (found : state.setups setup = before) (generation : next.generation = state.generation)
    (route : next.route = state.route) (setups : next.setups = (state.withSetup setup phase).setups)
    (reloads : next.reloads = state.reloads) (sameGeneration : phase.generation? = before.generation?)
    (sameRoute : phase.route? = before.route?)
    (held : phase.reading = true → phase.generation? = some state.generation) : Ordered next := by
  subst found
  refine Ordered.transport (ordered.withSetup ?_ held ?_) generation route setups reloads
  · intro generation found
    rw [sameGeneration] at found
    exact ⟨ordered.captured_le setup generation found, fun reload stored writes stores =>
      ordered.captured_lt reload stored writes stores setup generation found⟩
  · intro generation route found through reload stored installed stores installs
    rw [sameGeneration] at found
    rw [sameRoute] at through
    exact ordered.routed_after reload stored installed stores installs setup generation route found
      through

theorem Ordered.withReload {reload : ℕ}
    (stores : ∀ stored, phase.generation? = some stored → stored ≤ state.generation ∧
      (phase.writing = true → ∀ setup generation,
        (state.setups setup).generation? = some generation → generation < stored))
    (installs : ∀ stored installed, phase.generation? = some stored →
      phase.route? = some installed → installed.serial ≤ state.route.serial ∧
      ∀ setup generation route, (state.setups setup).generation? = some generation →
        (state.setups setup).route? = some route → stored ≤ generation →
        installed.serial ≤ route.serial) :
    Ordered (state.withReload reload phase) where
  captured_le := ordered.captured_le
  held := ordered.held
  stored_le other := by
    simp only [State.withReload]
    split
    · exact fun stored found => (stores stored found).1
    · exact ordered.stored_le other
  captured_lt other := by
    simp only [State.withReload]
    split
    · exact fun stored writes found => (stores stored found).2 writes
    · exact ordered.captured_lt other
  installed_le other := by
    simp only [State.withReload]
    split
    · intro installed found
      obtain ⟨stored, stores⟩ := Reload.stored_of_route found
      exact (installs stored installed stores found).1
    · exact ordered.installed_le other
  routed_after other := by
    simp only [State.withReload]
    split
    · exact fun stored installed found through => (installs stored installed found through).2
    · exact ordered.routed_after other

/-- A reload that keeps what it stored and installed does not disturb the order. -/
theorem Ordered.proceed {reload : ℕ} {before phase : Reload Table Mode}
    (found : state.reloads reload = before) (generation : next.generation = state.generation)
    (route : next.route = state.route) (setups : next.setups = state.setups)
    (reloads : next.reloads = (state.withReload reload phase).reloads)
    (sameGeneration : phase.generation? = before.generation?)
    (sameRoute : phase.route? = before.route?)
    (writing : phase.writing = true → phase.generation? ≠ none → before.writing = true) :
    Ordered next := by
  subst found
  refine Ordered.transport (ordered.withReload ?_ ?_) generation route setups reloads
  · intro stored found
    have writes := fun writes => writing writes (by rw [found]; exact Option.some_ne_none stored)
    rw [sameGeneration] at found
    exact ⟨ordered.stored_le reload stored found, fun holds setup generation captured =>
      ordered.captured_lt reload stored (writes holds) found setup generation captured⟩
  · intro stored installed found through
    rw [sameGeneration] at found
    rw [sameRoute] at through
    exact ⟨ordered.installed_le reload installed through,
      ordered.routed_after reload stored installed found through⟩

theorem Ordered.installRouting (table : Table) :
    Ordered (state.installRouting table) :=
  { ordered with
    installed_le := fun reload route found =>
      le_succ_of_le (ordered.installed_le reload route found) }

end Order

section Invariants

variable {Table Mode Uuid : Type*} [DecidableEq Uuid] {config : Config Uuid}
  {state next : State Table Mode Uuid} {action : Action Table Mode Uuid}
  {installed : Installed Table} {actions : List (Action Table Mode Uuid)}
  {phase : Reload Table Mode} {setup token reload generation closed : ℕ}

/-- Everything a step can do, with the guards it passed. -/
inductive Moves (config : Config Uuid) (state : State Table Mode Uuid)
    (action : Action Table Mode Uuid) : State Table Mode Uuid → Prop
  | capture (setup : ℕ) (phase : state.setups setup = .idle) (free : state.writer = none) :
      Moves config state action (state.withSetup setup (.captured state.generation))
  | readRoute (setup generation : ℕ) (phase : state.setups setup = .captured generation) :
      Moves config state action (state.withSetup setup (.routed generation state.route))
  | validate (setup generation : ℕ) (route : Installed Table)
      (phase : state.setups setup = .routed generation route) (free : state.writer = none)
      (same : generation = state.generation) :
      Moves config state action
        { state.withSetup setup (.validated generation route) with
          readers := setup :: state.readers }
  | refuse (setup generation : ℕ) (route : Installed Table)
      (phase : state.setups setup = .routed generation route) (free : state.writer = none)
      (stale : generation ≠ state.generation) :
      Moves config state action (state.withSetup setup (.refused generation route))
  | insert (setup generation : ℕ) (route : Installed Table) (uuid : Uuid)
      (phase : state.setups setup = .validated generation route)
      (acts : action = .insert setup uuid) :
      Moves config state action
        (register config (state.withSetup setup (.inserted generation route)) setup uuid)
  | finish (setup generation : ℕ) (route : Installed Table)
      (phase : state.setups setup = .inserted generation route) :
      Moves config state action
        { state.withSetup setup (.registered generation route) with
          readers := state.readers.filter (· ≠ setup) }
  | close (connections : AList fun _ : Uuid => ℕ) (headlessConnections : AList fun _ : ℕ => ℕ)
      (closing : List ℕ)
      (kept : ∀ uuid setup, connections.lookup uuid = some setup →
        state.connections.lookup uuid = some setup)
      (headlessKept : ∀ key setup, headlessConnections.lookup key = some setup →
        state.headlessConnections.lookup key = some setup)
      (left : ∀ setup, state.Registered setup → setup ∈ closing ∨
        (∃ uuid, connections.lookup uuid = some setup) ∨
          ∃ key, headlessConnections.lookup key = some setup)
      (unsignalled : ∀ setup ∈ state.closing, setup ∈ closing) :
      Moves config state action
        { state with
          connections := connections
          headlessConnections := headlessConnections
          closing := closing }
  | signal (setup : ℕ) (closing : List ℕ)
      (unsignalled : ∀ other ∈ state.closing, other = setup ∨ other ∈ closing) :
      Moves config state action { state.close [setup] with closing := closing }
  | updateRouting (table : Table) : Moves config state action (state.installRouting table)
  | setMode (mode : Mode) : Moves config state action { state with mode := mode }
  | compile (reload : ℕ) (table : Table) (mode : Option Mode)
      (phase : state.reloads reload = .idle) :
      Moves config state action (state.withReload reload (.compiled table mode))
  | lock (reload : ℕ) (table : Table) (mode : Option Mode)
      (phase : state.reloads reload = .compiled table mode) (free : state.writer = none)
      (unread : state.readers = []) :
      Moves config state action
        { state.withReload reload (.locked table mode) with writer := some reload }
  | bump (reload : ℕ) (table : Table) (mode : Option Mode)
      (phase : state.reloads reload = .locked table mode) :
      Moves config state action
        { state.withReload reload (.draining (state.generation + 1) table mode .api 0 0) with
          generation := state.generation + 1 }
  | panic (reload : ℕ) (table : Table) (mode : Option Mode)
      (phase : state.reloads reload = .locked table mode) :
      Moves config state action { state.withReload reload .panicked with writer := none }
  | drain (reload generation : ℕ) (table : Table) (mode : Option Mode) (shard closed : ℕ)
      (phase : state.reloads reload = .draining generation table mode .api shard closed)
      (below : shard < config.shards) :
      Moves config state action
        { (state.close (inShard config.shard shard state.connections)).withReload reload
            (.draining generation table mode .api (shard + 1)
              (closed + (inShard config.shard shard state.connections).length)) with
          connections := drainShard config.shard shard state.connections }
  | turn (reload generation : ℕ) (table : Table) (mode : Option Mode) (shard closed : ℕ)
      (phase : state.reloads reload = .draining generation table mode .api shard closed)
      (past : config.shards ≤ shard) :
      Moves config state action
        (state.withReload reload (.draining generation table mode .headless 0 closed))
  | drainHeadless (reload generation : ℕ) (table : Table) (mode : Option Mode) (shard closed : ℕ)
      (phase : state.reloads reload = .draining generation table mode .headless shard closed)
      (below : shard < config.headlessShards) :
      Moves config state action
        { (state.close (inShard config.headlessShard shard state.headlessConnections)).withReload
            reload (.draining generation table mode .headless (shard + 1)
              (closed + (inShard config.headlessShard shard state.headlessConnections).length)) with
          headlessConnections :=
            drainShard config.headlessShard shard state.headlessConnections }
  | drained (reload generation : ℕ) (table : Table) (mode : Option Mode) (shard closed : ℕ)
      (phase : state.reloads reload = .draining generation table mode .headless shard closed)
      (past : config.headless = true → config.headlessShards ≤ shard) :
      Moves config state action (state.withReload reload (.drained generation table mode closed))
  | install (reload generation : ℕ) (table : Table) (mode : Option Mode) (closed : ℕ)
      (phase : state.reloads reload = .drained generation table mode closed) :
      Moves config state action
        ((state.installRouting table).withReload reload
          (.installed generation ⟨state.route.serial + 1, table⟩ mode closed))
  | publish (reload generation : ℕ) (route : Installed Table) (mode : Option Mode) (closed : ℕ)
      (phase : state.reloads reload = .installed generation route mode closed) :
      Moves config state action
        { state.withReload reload (.published generation route closed) with
          mode := mode.getD state.mode }
  | unlock (reload generation : ℕ) (route : Installed Table) (closed : ℕ)
      (phase : state.reloads reload = .published generation route closed) :
      Moves config state action
        { state.withReload reload (.unlocked generation route closed) with writer := none }
  | finishReload (reload generation : ℕ) (route : Installed Table) (closed : ℕ)
      (phase : state.reloads reload = .unlocked generation route closed) :
      Moves config state action (state.withReload reload (.returned generation route closed))

theorem checkedNext_eq_some {generation next : ℕ} (checked : checkedNext generation = some next) :
    next = generation + 1 := by
  unfold checkedNext at checked
  split at checked
  · exact (Option.some.inj checked).symm
  · cases checked

theorem moves_drainStep (reload generation : ℕ) (table : Table) (mode : Option Mode)
    (registry : Registry) (shard closed : ℕ)
    (phase : state.reloads reload = .draining generation table mode registry shard closed) :
    Moves config state action
      (drainStep config state reload generation table mode registry shard closed) := by
  cases registry with
  | api =>
    simp only [drainStep]
    split
    · exact .drain reload generation table mode shard closed phase ‹_›
    · exact .turn reload generation table mode shard closed phase (le_of_not_gt ‹_›)
  | headless =>
    simp only [drainStep]
    split
    · rename_i below
      rw [Bool.and_eq_true, decide_eq_true_eq] at below
      exact .drainHeadless reload generation table mode shard closed phase below.2
    · rename_i past
      rw [Bool.and_eq_true, decide_eq_true_eq, not_and, not_lt] at past
      exact .drained reload generation table mode shard closed phase past

theorem left_of_erase {Key : Type*} [DecidableEq Key] {connections : AList fun _ : Key => ℕ}
    {key other : Key} {setup : ℕ} (erased : connections.lookup key = some token)
    (found : connections.lookup other = some setup) :
    setup = token ∨ (connections.erase key).lookup other = some setup := by
  by_cases same : other = key
  · subst same
    exact .inl (Option.some.inj (found.symm.trans erased))
  · exact .inr ((AList.lookup_erase_ne same).trans found)

theorem moves_of_step (stepTo : step config state action = some next) :
    Moves config state action next := by
  cases action with simp only [step] at stepTo
  | capture setup =>
    split at stepTo
    · split at stepTo <;> cases stepTo
      exact .capture setup ‹_› ‹_›
    · cases stepTo
  | readRoute setup =>
    split at stepTo <;> cases stepTo
    exact .readRoute setup _ ‹_›
  | validate setup =>
    split at stepTo
    · split at stepTo <;> cases stepTo
      unfold ColdReload.validate
      split
      · exact .validate setup _ _ ‹_› ‹_› ‹_›
      · exact .refuse setup _ _ ‹_› ‹_› ‹_›
    · cases stepTo
  | insert setup uuid =>
    split at stepTo <;> cases stepTo
    exact .insert setup _ _ uuid ‹_› rfl
  | finish setup =>
    split at stepTo <;> cases stepTo
    exact .finish setup _ _ ‹_›
  | closeConnection uuid =>
    split at stepTo <;> cases stepTo
    · rename_i token erased
      refine .close _ _ _ (fun _ _ found => (lookup_erase_eq_some found).2) (fun _ _ found => found)
        (fun other held => ?_) fun _ => List.mem_cons_of_mem _
      obtain ⟨key, found⟩ | light := held
      · obtain rfl | found := left_of_erase erased found
        · exact .inl List.mem_cons_self
        · exact .inr (.inl ⟨key, found⟩)
      · exact .inr (.inr light)
    · exact .close _ _ _ (fun _ _ found => found) (fun _ _ found => found) (fun _ => .inr) fun _ => id
  | closeHeadlessConnection key =>
    split at stepTo <;> cases stepTo
    · rename_i token erased
      refine .close _ _ _ (fun _ _ found => found) (fun _ _ found => (lookup_erase_eq_some found).2)
        (fun other held => ?_) fun _ => List.mem_cons_of_mem _
      obtain full | ⟨key, found⟩ := held
      · exact .inr (.inl full)
      · obtain rfl | found := left_of_erase erased found
        · exact .inl List.mem_cons_self
        · exact .inr (.inr ⟨key, found⟩)
    · exact .close _ _ _ (fun _ _ found => found) (fun _ _ found => found) (fun _ => .inr) fun _ => id
  | signal setup =>
    split at stepTo <;> cases stepTo
    refine .signal setup _ fun other member => ?_
    by_cases same : other = setup
    · exact .inl same
    · exact .inr ((List.mem_erase_of_ne same).mpr member)
  | updateRouting table =>
    cases stepTo
    exact .updateRouting table
  | setMode mode =>
    cases stepTo
    exact .setMode mode
  | compile reload table mode =>
    split at stepTo <;> cases stepTo
    exact .compile reload table mode ‹_›
  | lock reload =>
    split at stepTo
    · split at stepTo <;> cases stepTo
      rename_i free
      exact .lock reload _ _ ‹_› free.1 free.2
    · cases stepTo
  | bump reload =>
    split at stepTo
    · split at stepTo
      · cases stepTo
        rename_i generation checked
        cases checkedNext_eq_some checked
        exact .bump reload _ _ ‹_›
      · cases stepTo
        exact .panic reload _ _ ‹_›
    · cases stepTo
  | drain reload =>
    split at stepTo <;> cases stepTo
    exact moves_drainStep reload _ _ _ _ _ _ ‹_›
  | install reload =>
    split at stepTo <;> cases stepTo
    exact .install reload _ _ _ _ ‹_›
  | publish reload =>
    split at stepTo <;> cases stepTo
    exact .publish reload _ _ _ _ ‹_›
  | unlock reload =>
    split at stepTo <;> cases stepTo
    exact .unlock reload _ _ _ ‹_›
  | finishReload reload =>
    split at stepTo <;> cases stepTo
    exact .finishReload reload _ _ _ ‹_›

@[simp]
theorem register_fields (setup : ℕ) (uuid : Uuid) :
    (register config state setup uuid).generation = state.generation ∧
      (register config state setup uuid).readers = state.readers ∧
      (register config state setup uuid).writer = state.writer ∧
      (register config state setup uuid).route = state.route ∧
      (register config state setup uuid).setups = state.setups ∧
      (register config state setup uuid).reloads = state.reloads := by
  unfold register
  split <;> simp

theorem Locked.moves (locked : Locked state) (moves : Moves config state action next) : Locked next := by
  obtain ⟨reading, writing, exclusive⟩ := locked
  cases moves <;> constructor <;>
    try simp only [State.withSetup, State.withReload, State.close, State.installRouting,
      register_fields]
  all_goals grind [Setup.reading, Reload.writing]

theorem Ordered.moves (locked : Locked state) (ordered : Ordered state)
    (moves : Moves config state action next) : Ordered next := by
  cases moves with
  | capture setup phase free =>
    apply ordered.withSetup
    · intro generation captured
      cases captured
      refine ⟨le_refl _, fun reload stored writes _ => ?_⟩
      rw [locked.writing reload writes] at free
      cases free
    · intro reads
      cases reads
    · intro generation route _ routed
      cases routed
  | readRoute setup generation phase =>
    apply ordered.withSetup
    · intro captured found
      exact ⟨ordered.captured_le setup captured (by rw [phase]; exact found),
        fun reload stored writes stores =>
          ordered.captured_lt reload stored writes stores setup captured
            (by rw [phase]; exact found)⟩
    · intro reads
      cases reads
    · intro _ route _ routed reload _ installed _ installs _
      cases routed
      exact ordered.installed_le reload installed installs
  | validate setup generation route phase free same =>
    subst same
    exact ordered.advance phase rfl rfl rfl rfl rfl rfl fun _ => rfl
  | refuse setup generation route phase free stale | finish setup generation route phase =>
    exact ordered.advance phase rfl rfl rfl rfl rfl rfl nofun
  | insert setup generation route uuid phase =>
    have held := ordered.held setup
    rw [phase] at held
    obtain ⟨sameGeneration, _, _, sameRoute, sameSetups, sameReloads⟩ :=
      @register_fields _ _ _ _ config (state.withSetup setup (.inserted generation route)) setup uuid
    exact ordered.advance phase sameGeneration sameRoute sameSetups sameReloads rfl rfl
      fun _ => held rfl
  | close | signal | setMode => exact ordered.transport rfl rfl rfl rfl
  | updateRouting table => exact ordered.installRouting table
  | compile _ _ _ phase | panic _ _ _ phase | drain _ _ _ _ _ _ phase | turn _ _ _ _ _ _ phase
  | drainHeadless _ _ _ _ _ _ phase | drained _ _ _ _ _ _ phase | publish _ _ _ _ _ phase
  | unlock _ _ _ _ phase | finishReload _ _ _ _ phase =>
    exact ordered.proceed phase rfl rfl rfl rfl rfl rfl (by simp [Reload.writing])
  | lock reload table mode phase free unread =>
    exact ordered.proceed phase rfl rfl rfl rfl rfl rfl (by simp [Reload.generation?])
  | bump reload table mode phase =>
    -- The write lock is held, so nobody is between validation and insertion.
    have owner : state.writer = some reload := locked.writing reload (by rw [phase]; rfl)
    have unread : state.readers = [] :=
      locked.exclusive (by rw [owner]; exact Option.some_ne_none _)
    have bumped : Ordered { state with generation := state.generation + 1 } :=
      { ordered with
        captured_le := fun setup generation found =>
          le_succ_of_le (ordered.captured_le setup generation found)
        held := fun setup reads => by
          have member := locked.reading setup reads
          rw [unread] at member
          cases member
        stored_le := fun reload stored found =>
          le_succ_of_le (ordered.stored_le reload stored found) }
    have stored : Ordered (({ state with generation := state.generation + 1 } :
        State Table Mode Uuid).withReload reload
          (.draining (state.generation + 1) table mode .api 0 0)) := by
      apply bumped.withReload
      · intro stored found
        cases found
        exact ⟨le_refl _, fun _ setup generation captured =>
          lt_succ_of_le (ordered.captured_le setup generation captured)⟩
      · intro stored installed _ installs
        cases installs
    exact stored.transport rfl rfl rfl rfl
  | install reload generation table mode closed phase =>
    apply (ordered.installRouting table).withReload
    · intro stored found
      cases found
      exact ⟨ordered.stored_le reload generation (by rw [phase]; rfl), fun _ =>
        ordered.captured_lt reload generation (by rw [phase]; rfl) (by rw [phase]; rfl)⟩
    · -- Every token is older than the reload, so no setup has to meet the new table.
      intro stored installed found installs
      cases found
      cases installs
      refine ⟨le_refl _, fun setup captured route token _ later => ?_⟩
      have earlier := ordered.captured_lt reload generation (by rw [phase]; rfl)
        (by rw [phase]; rfl) setup captured token
      exact absurd later (not_le_of_gt earlier)

/-- What the progress of a reload says about the registries: shards it has passed are empty. -/
def Reload.Cleared (config : Config Uuid) (connections : AList fun _ : Uuid => ℕ)
    (headlessConnections : AList fun _ : ℕ => ℕ) : Reload Table Mode → Prop
  | .draining _ _ _ .api shard _ =>
    ∀ uuid setup, connections.lookup uuid = some setup → shard ≤ (config.shard uuid).val
  | .draining _ _ _ .headless shard _ =>
    (∀ uuid setup, connections.lookup uuid ≠ some setup) ∧
      ∀ key setup, headlessConnections.lookup key = some setup →
        shard ≤ (config.headlessShard key).val
  | .drained _ _ _ _ | .installed _ _ _ _ | .published _ _ _ =>
    (∀ uuid setup, connections.lookup uuid ≠ some setup) ∧
      ∀ key setup, headlessConnections.lookup key ≠ some setup
  | .idle | .compiled _ _ | .locked _ _ | .unlocked _ _ _ | .returned _ _ _ | .panicked => True

theorem Reload.cleared_of_not_writing (free : phase.writing = false)
    (connections : AList fun _ : Uuid => ℕ) (headlessConnections : AList fun _ : ℕ => ℕ) :
    phase.Cleared config connections headlessConnections := by
  cases phase <;> trivial

theorem Reload.Cleared.shrink {connections fewer : AList fun _ : Uuid => ℕ}
    {headlessConnections fewerHeadless : AList fun _ : ℕ => ℕ}
    (cleared : phase.Cleared config connections headlessConnections)
    (kept : ∀ uuid setup, fewer.lookup uuid = some setup → connections.lookup uuid = some setup)
    (headlessKept : ∀ key setup, fewerHeadless.lookup key = some setup →
      headlessConnections.lookup key = some setup) :
    phase.Cleared config fewer fewerHeadless := by
  cases phase with
  | draining _ _ _ registry _ _ =>
    cases registry with
    | api => exact fun uuid setup found => cleared uuid setup (kept uuid setup found)
    | headless =>
      exact ⟨fun uuid setup found => cleared.1 uuid setup (kept uuid setup found),
        fun key setup found => cleared.2 key setup (headlessKept key setup found)⟩
  | drained | installed | published =>
    exact ⟨fun uuid setup found => cleared.1 uuid setup (kept uuid setup found),
      fun key setup found => cleared.2 key setup (headlessKept key setup found)⟩
  | idle | compiled | locked | unlocked | returned | panicked => trivial

/-- The registries hold only connections that were inserted, and none that is older than a reload
that gave the lock back. -/
structure Swept (config : Config Uuid) (state : State Table Mode Uuid) : Prop where
  entered : ∀ setup, state.Registered setup → (state.setups setup).entered = true
  after : ∀ reload stored, (state.reloads reload).writing = false →
    (state.reloads reload).generation? = some stored → ∀ setup generation,
      state.Registered setup → (state.setups setup).generation? = some generation →
      stored ≤ generation
  cleared : ∀ reload,
    (state.reloads reload).Cleared config state.connections state.headlessConnections
  light : config.headless = false → ∀ key setup, state.headlessConnections.lookup key ≠ some setup

section

variable (swept : Swept config state)
include swept

theorem Swept.transport (connections : next.connections = state.connections)
    (headlessConnections : next.headlessConnections = state.headlessConnections)
    (setups : next.setups = state.setups) (reloads : next.reloads = state.reloads) :
    Swept config next := by
  obtain ⟨entered, after, cleared, light⟩ := swept
  constructor <;>
    simp only [State.Registered, connections, headlessConnections, setups, reloads] <;> assumption

theorem Swept.withSetup {setup : ℕ} {phase : Setup Table}
    (connections : next.connections = state.connections)
    (headlessConnections : next.headlessConnections = state.headlessConnections)
    (setups : next.setups = (state.withSetup setup phase).setups)
    (reloads : next.reloads = state.reloads) (keeps : (state.setups setup).entered = true →
      phase.entered = true ∧ phase.generation? = (state.setups setup).generation?) :
    Swept config next := by
  refine @Swept.transport _ _ _ _ _ (state.withSetup setup phase) _ ?_ connections
    headlessConnections setups reloads
  exact
    { swept with
      entered := fun other registered => by
        simp only [State.withSetup]
        split
        · subst other
          exact (keeps (swept.entered setup registered)).1
        · exact swept.entered other registered
      after := fun reload stored free stores other generation registered => by
        simp only [State.withSetup]
        split
        · subst other
          rw [(keeps (swept.entered setup registered)).2]
          exact swept.after reload stored free stores setup generation registered
        · exact swept.after reload stored free stores other generation registered }

theorem Swept.shrink (connections : AList fun _ : Uuid => ℕ)
    (headlessConnections : AList fun _ : ℕ => ℕ)
    (kept : ∀ uuid setup, connections.lookup uuid = some setup →
      state.connections.lookup uuid = some setup)
    (headlessKept : ∀ key setup, headlessConnections.lookup key = some setup →
      state.headlessConnections.lookup key = some setup) :
    Swept config
      { state with connections := connections, headlessConnections := headlessConnections } := by
  have registered : ∀ setup, State.Registered { state with
      connections := connections, headlessConnections := headlessConnections } setup →
      state.Registered setup := by
    rintro setup (⟨uuid, found⟩ | ⟨key, found⟩)
    · exact .inl ⟨uuid, kept uuid setup found⟩
    · exact .inr ⟨key, headlessKept key setup found⟩
  exact
    { entered := fun setup held => swept.entered setup (registered setup held)
      after := fun reload stored free stores setup generation held =>
        swept.after reload stored free stores setup generation (registered setup held)
      cleared := fun reload => (swept.cleared reload).shrink kept headlessKept
      light := fun light key setup found =>
        swept.light light key setup (headlessKept key setup found) }

theorem Swept.withReload {reload : ℕ} (connections : next.connections = state.connections)
    (headlessConnections : next.headlessConnections = state.headlessConnections)
    (setups : next.setups = state.setups)
    (reloads : next.reloads = (state.withReload reload phase).reloads)
    (cleared : phase.Cleared config state.connections state.headlessConnections)
    (after : phase.writing = false → ∀ stored, phase.generation? = some stored →
      ∀ setup generation, state.Registered setup →
        (state.setups setup).generation? = some generation → stored ≤ generation) :
    Swept config next := by
  refine @Swept.transport _ _ _ _ _ (state.withReload reload phase) _ ?_ connections
    headlessConnections setups reloads
  exact
    { swept with
      after := fun other stored => by
        simp only [State.withReload]
        split
        · exact fun free stores => after free stored stores
        · exact swept.after other stored
      cleared := fun other => by
        simp only [State.withReload]
        split
        · exact cleared
        · exact swept.cleared other }

end

/-- An insert happens under the read lock: no reload is at work, and every reload that stored a
generation stored one that the setup's token has reached. -/
theorem Swept.insert (locked : Locked state) (ordered : Ordered state) (swept : Swept config state)
    {setup generation : ℕ} {route : Installed Table} (uuid : Uuid)
    (phase : state.setups setup = .validated generation route) :
    Swept config
      (register config (state.withSetup setup (.inserted generation route)) setup uuid) := by
  have reads : (state.setups setup).reading = true := by rw [phase]; rfl
  have member := locked.reading setup reads
  have free : state.writer = none := by
    by_contra held
    rw [locked.exclusive held] at member
    cases member
  have idle : ∀ reload, (state.reloads reload).writing = false := by
    intro reload
    by_contra writes
    rw [Bool.not_eq_false] at writes
    rw [locked.writing reload writes] at free
    cases free
  have current : generation = state.generation := by
    have held := ordered.held setup reads
    rw [phase] at held
    exact Option.some.inj held
  have registered : ∀ other, (register config (state.withSetup setup (.inserted generation route))
      setup uuid).Registered other → other = setup ∨ state.Registered other := by
    intro other held
    unfold register at held
    split at held
    · obtain ⟨key, found⟩ | ⟨key, found⟩ := held
      · exact .inr (.inl ⟨key, found⟩)
      · obtain ⟨_, same⟩ | ⟨_, found⟩ := lookup_insert_eq_some found
        · exact .inl same
        · exact .inr (.inr ⟨key, found⟩)
    · obtain ⟨key, found⟩ | ⟨key, found⟩ := held
      · obtain ⟨_, same⟩ | ⟨_, found⟩ := lookup_insert_eq_some found
        · exact .inl same
        · exact .inr (.inl ⟨key, found⟩)
      · exact .inr (.inr ⟨key, found⟩)
  obtain ⟨_, _, _, _, sameSetups, sameReloads⟩ :=
    @register_fields _ _ _ _ config (state.withSetup setup (.inserted generation route)) setup uuid
  constructor
  · intro other held
    rw [sameSetups]
    simp only [State.withSetup]
    split
    · rfl
    · exact swept.entered other ((registered other held).resolve_left ‹_›)
  · intro reload stored unlocked stores other captured held
    rw [sameReloads] at unlocked stores
    rw [sameSetups]
    simp only [State.withSetup]
    split
    · intro token
      cases token
      rw [current]
      exact ordered.stored_le reload stored stores
    · exact swept.after reload stored unlocked stores other captured
        ((registered other held).resolve_left ‹_›)
  · intro reload
    rw [sameReloads]
    exact Reload.cleared_of_not_writing (idle reload) _ _
  · intro full key other
    simp only [register, full, Bool.false_eq_true, if_false]
    exact swept.light full key other

theorem Swept.moves (locked : Locked state) (ordered : Ordered state) (swept : Swept config state)
    (moves : Moves config state action next) : Swept config next := by
  cases moves with
  | capture _ phase | readRoute _ _ phase | validate _ _ _ phase | refuse _ _ _ phase =>
    exact swept.withSetup rfl rfl rfl rfl (by rw [phase]; simp [Setup.entered])
  | insert setup generation route uuid phase => exact swept.insert locked ordered uuid phase
  | finish setup generation route phase =>
    exact swept.withSetup rfl rfl rfl rfl (by rw [phase]; exact fun _ => ⟨rfl, rfl⟩)
  | close connections headlessConnections closing kept headlessKept =>
    exact (swept.shrink connections headlessConnections kept headlessKept).transport
      rfl rfl rfl rfl
  | signal | setMode | updateRouting => exact swept.transport rfl rfl rfl rfl
  | compile | lock | panic =>
    exact swept.withReload rfl rfl rfl rfl trivial (by simp [Reload.generation?])
  | bump =>
    exact swept.withReload rfl rfl rfl rfl (fun _ _ _ => zero_le _) (by simp [Reload.writing])
  | drain reload generation table mode shard closed phase below =>
    have cleared := swept.cleared reload
    rw [phase] at cleared
    have shrunk := swept.shrink (drainShard config.shard shard state.connections)
      state.headlessConnections (fun _ _ found => (lookup_drainShard_eq_some.mp found).1)
      fun _ _ found => found
    refine shrunk.withReload rfl rfl rfl rfl ?_ (by simp [Reload.writing])
    intro uuid setup found
    obtain ⟨before, other⟩ := lookup_drainShard_eq_some.mp found
    exact lt_of_le_of_ne (cleared uuid setup before) other.symm
  | turn reload generation table mode shard closed phase past =>
    have cleared := swept.cleared reload
    rw [phase] at cleared
    refine swept.withReload rfl rfl rfl rfl ⟨?_, fun _ _ _ => zero_le _⟩
      (by simp [Reload.writing])
    intro uuid setup found
    have reached := cleared uuid setup found
    exact absurd (config.shard uuid).isLt (not_lt_of_ge (le_trans past reached))
  | drainHeadless reload generation table mode shard closed phase below =>
    have cleared := swept.cleared reload
    rw [phase] at cleared
    have shrunk := swept.shrink state.connections
      (drainShard config.headlessShard shard state.headlessConnections)
      (fun _ _ found => found) fun _ _ found => (lookup_drainShard_eq_some.mp found).1
    refine shrunk.withReload rfl rfl rfl rfl ⟨cleared.1, ?_⟩ (by simp [Reload.writing])
    intro key setup found
    obtain ⟨before, other⟩ := lookup_drainShard_eq_some.mp found
    exact lt_of_le_of_ne (cleared.2 key setup before) other.symm
  | drained reload generation table mode shard closed phase past =>
    have cleared := swept.cleared reload
    rw [phase] at cleared
    refine swept.withReload rfl rfl rfl rfl ⟨cleared.1, ?_⟩ (by simp [Reload.writing])
    intro key setup found
    cases light : config.headless with
    | false => exact swept.light light key setup found
    | true =>
      have reached := cleared.2 key setup found
      exact absurd (config.headlessShard key).isLt
        (not_lt_of_ge (le_trans (past light) reached))
  | install reload _ _ _ _ phase | publish reload _ _ _ _ phase =>
    have cleared := swept.cleared reload
    rw [phase] at cleared
    exact swept.withReload rfl rfl rfl rfl cleared (by simp [Reload.writing])
  | unlock reload generation route closed phase =>
    -- Nothing is registered at the moment the lock is given back.
    have cleared := swept.cleared reload
    rw [phase] at cleared
    refine swept.withReload rfl rfl rfl rfl trivial fun _ _ _ setup _ registered => ?_
    obtain ⟨uuid, found⟩ | ⟨key, found⟩ := registered
    · exact absurd found (cleared.1 uuid setup)
    · exact absurd found (cleared.2 key setup)
  | finishReload reload generation route closed phase =>
    have after := swept.after reload generation
    rw [phase] at after
    refine swept.withReload rfl rfl rfl rfl trivial fun _ stored stores => ?_
    cases stores
    exact after rfl rfl

/-- The three invariants together. -/
structure Sound (config : Config Uuid) (state : State Table Mode Uuid) : Prop where
  locked : Locked state
  ordered : Ordered state
  swept : Swept config state

theorem Sound.step (sound : Sound config state) (stepTo : step config state action = some next) :
    Sound config next := by
  have moves := moves_of_step stepTo
  exact ⟨sound.locked.moves moves, sound.ordered.moves sound.locked moves,
    sound.swept.moves sound.locked sound.ordered moves⟩

theorem sound_initial (table : Table) (mode : Mode) :
    Sound config (State.initial table mode : State Table Mode Uuid) := by
  refine ⟨⟨?_, ?_, ?_⟩, ⟨?_, ?_, ?_, ?_, ?_, ?_⟩, ⟨?_, ?_, ?_, ?_⟩⟩ <;>
    simp [State.initial, State.Registered, Setup.reading, Reload.writing, Setup.generation?,
      Reload.generation?, Reload.route?, Reload.Cleared]

theorem Sound.run (sound : Sound config state)
    (runs : run (ColdReload.step config) state actions = some next) : Sound config next :=
  invariant_of_run (fun _ _ _ => Sound.step) sound runs

/-- A new connection gets an id that none of the registered ones has. -/
def Fresh (state : State Table Mode Uuid) : Action Table Mode Uuid → Prop
  | .insert _ uuid => state.connections.lookup uuid = none
  | _ => True

/-- A connection that was inserted is still registered, or it was signalled, or whoever removed it is
about to signal it. -/
structure Traced (state : State Table Mode Uuid) : Prop where
  keyed : ∀ key setup, state.headlessConnections.lookup key = some setup → key = setup
  found : ∀ setup, (state.setups setup).entered = true →
    state.Registered setup ∨ state.signalled setup = true ∨ setup ∈ state.closing

/-- A step that only takes connections out of the registries accounts for those. -/
theorem Traced.mono (traced : Traced state)
    (headlessKept : ∀ key setup, next.headlessConnections.lookup key = some setup →
      state.headlessConnections.lookup key = some setup)
    (entered : ∀ setup, (next.setups setup).entered = true → (state.setups setup).entered = true)
    (left : ∀ setup, state.Registered setup ∨ state.signalled setup = true ∨ setup ∈ state.closing →
      next.Registered setup ∨ next.signalled setup = true ∨ setup ∈ next.closing) : Traced next where
  keyed key setup held := traced.keyed key setup (headlessKept key setup held)
  found setup inside := left setup (traced.found setup (entered setup inside))

theorem Traced.withSetup (traced : Traced state) {setup : ℕ} {phase : Setup Table}
    (readers : List ℕ) (entered : phase.entered = true → (state.setups setup).entered = true) :
    Traced { state.withSetup setup phase with readers := readers } := by
  refine traced.mono (fun _ _ held => held) (fun other => ?_) fun _ => id
  simp only [State.withSetup]
  split
  · subst other
    exact entered
  · exact id

/-- An insert under an id that is not in use replaces no connection. -/
theorem Traced.insert (swept : Swept config state) (traced : Traced state) {setup generation : ℕ}
    {route : Installed Table} {uuid : Uuid} (unused : state.connections.lookup uuid = none)
    (phase : state.setups setup = .validated generation route) :
    Traced (register config (state.withSetup setup (.inserted generation route)) setup uuid) := by
  have vacant : state.headlessConnections.lookup setup = none := by
    by_contra taken
    obtain ⟨other, held⟩ := Option.ne_none_iff_exists'.mp taken
    obtain rfl := traced.keyed setup other held
    have inside := swept.entered setup (.inr ⟨setup, held⟩)
    rw [phase] at inside
    cases inside
  have others : ∀ other, other ≠ setup →
      ((state.withSetup setup (.inserted generation route)).setups other).entered = true →
        state.Registered other ∨ state.signalled other = true ∨ other ∈ state.closing := by
    intro other different inside
    rw [State.withSetup] at inside
    dsimp only at inside
    rw [if_neg different] at inside
    exact traced.found other inside
  unfold register
  split
  · refine ⟨fun key other held => ?_, fun other inside => ?_⟩
    · obtain ⟨rfl, rfl⟩ | ⟨_, held⟩ := lookup_insert_eq_some held
      · rfl
      · exact traced.keyed key other held
    · by_cases same : other = setup
      · subst same
        exact .inl (.inr ⟨other, AList.lookup_insert _⟩)
      · refine (others other same inside).imp_left (Or.imp_right ?_)
        exact fun ⟨key, held⟩ => ⟨key, lookup_insert_of_missing vacant held⟩
  · refine ⟨traced.keyed, fun other inside => ?_⟩
    by_cases same : other = setup
    · subst same
      exact .inl (.inl ⟨uuid, AList.lookup_insert _⟩)
    · refine (others other same inside).imp_left (Or.imp_left ?_)
      exact fun ⟨key, held⟩ => ⟨key, lookup_insert_of_missing unused held⟩

theorem signalled_of_drained {Key : Type*} [DecidableEq Key] {count : ℕ}
    (shardOf : Key → Fin count) (shard : ℕ) {connections : AList fun _ : Key => ℕ} {key : Key}
    (held : connections.lookup key = some setup) :
    setup ∈ inShard shardOf shard connections ∨
      (drainShard shardOf shard connections).lookup key = some setup := by
  by_cases here : (shardOf key).val = shard
  · refine .inl (List.mem_map.mpr ⟨⟨key, setup⟩, List.mem_filter.mpr ⟨?_, ?_⟩, rfl⟩)
    · exact AList.mem_lookup_iff.mp held
    · simpa using here
  · exact .inr (lookup_drainShard_eq_some.mpr ⟨held, here⟩)

theorem Traced.moves (swept : Swept config state) (traced : Traced state) (fresh : Fresh state action)
    (moves : Moves config state action next) : Traced next := by
  cases moves with
  | capture | readRoute | refuse => exact traced.withSetup _ nofun
  | validate => exact traced.withSetup _ nofun
  | finish setup generation route phase => exact traced.withSetup _ fun _ => by rw [phase]; rfl
  | insert setup generation route uuid phase acts =>
    subst acts
    exact traced.insert swept fresh phase
  | close connections headlessConnections closing kept headlessKept left unsignalled =>
    refine traced.mono headlessKept (fun _ => id) fun setup before => ?_
    obtain registered | signalled | member := before
    · obtain member | registered := left setup registered
      · exact .inr (.inr member)
      · exact .inl registered
    · exact .inr (.inl signalled)
    · exact .inr (.inr (unsignalled setup member))
  | signal setup closing unsignalled =>
    refine traced.mono (fun _ _ held => held) (fun _ => id) fun other before => ?_
    obtain registered | signalled | member := before
    · exact .inl registered
    · exact .inr (.inl (by simp [State.close, signalled]))
    · exact .inr ((unsignalled other member).imp_left fun same => by simp [State.close, same])
  | updateRouting | setMode | compile | lock | bump | panic | turn | drained | install | publish
  | unlock | finishReload => exact traced.mono (fun _ _ held => held) (fun _ => id) fun _ => id
  | drain reload generation table mode shard closed =>
    refine traced.mono (fun _ _ held => held) (fun _ => id) fun setup before => ?_
    obtain (⟨uuid, held⟩ | light) | signalled | member := before
    · obtain handle | held := signalled_of_drained config.shard shard held
      · exact .inr (.inl (by simp [State.close, State.withReload, handle]))
      · exact .inl (.inl ⟨uuid, held⟩)
    · exact .inl (.inr light)
    · exact .inr (.inl (by simp [State.close, State.withReload, signalled]))
    · exact .inr (.inr member)
  | drainHeadless reload generation table mode shard closed =>
    refine traced.mono (fun _ _ held => (lookup_drainShard_eq_some.mp held).1) (fun _ => id)
      fun setup before => ?_
    obtain (full | ⟨key, held⟩) | signalled | member := before
    · exact .inl (.inl full)
    · obtain handle | held := signalled_of_drained config.headlessShard shard held
      · exact .inr (.inl (by simp [State.close, State.withReload, handle]))
      · exact .inl (.inr ⟨key, held⟩)
    · exact .inr (.inl (by simp [State.close, State.withReload, signalled]))
    · exact .inr (.inr member)

theorem traced_of_run {table : Table} {mode : Mode}
    (fresh : Meets (step config) Fresh (State.initial table mode) actions)
    (runs : run (step config) (State.initial table mode) actions = some state) : Traced state := by
  have both := @invariant_of_meets _ _ (step config) Fresh
    (fun state => Sound config state ∧ Traced state)
    (fun before _ _ invariants fresh stepTo => ⟨invariants.1.step stepTo,
      invariants.2.moves invariants.1.swept fresh (moves_of_step stepTo)⟩)
    _ _ _ ⟨sound_initial table mode, nofun, nofun⟩ fresh runs
  exact both.2

theorem exists_route_of_entered {phase : Setup Table} (entered : phase.entered = true) :
    ∃ generation route, phase.generation? = some generation ∧ phase.route? = some route := by
  cases phase with
  | inserted generation route | registered generation route => exact ⟨generation, route, rfl, rfl⟩
  | idle | captured | routed | validated | refused => cases entered

/-- After a reload has returned, every registered connection was routed by its table or a later
one. -/
theorem Sound.routed_after_reload (sound : Sound config state) {reload generation closed setup : ℕ}
    (returned : state.reloads reload = .returned generation installed closed)
    (registered : state.Registered setup) :
    ∃ route, (state.setups setup).route? = some route ∧ installed.serial ≤ route.serial := by
  obtain ⟨token, route, captured, routed⟩ :=
    exists_route_of_entered (sound.swept.entered setup registered)
  have stores : (state.reloads reload).generation? = some generation := by rw [returned]; rfl
  have installs : (state.reloads reload).route? = some installed := by rw [returned]; rfl
  have reached : generation ≤ token :=
    sound.swept.after reload generation (by rw [returned]; rfl) stores setup token registered
      captured
  exact ⟨route, routed, sound.ordered.routed_after reload generation installed stores installs setup
    token route captured routed reached⟩

/-- A token, once captured, stays the same, and a reload that stores its generation afterwards
stores a later one. -/
theorem token_lt_stored (sound : Sound config state)
    (captured : (state.setups setup).generation? = some token)
    (later : ∀ stored, (state.reloads reload).generation? = some stored → token < stored)
    (stepTo : step config state action = some next) :
    (next.setups setup).generation? = some token ∧
      ∀ stored, (next.reloads reload).generation? = some stored → token < stored := by
  have moves := moves_of_step stepTo
  have bound := sound.ordered.captured_le setup token captured
  cases moves <;>
    simp only [State.withSetup, State.withReload, State.close, State.installRouting,
      register_fields] <;>
    grind [Setup.generation?, Reload.generation?]

theorem token_lt_stored_run
    (sound : Sound config state) (captured : (state.setups setup).generation? = some token)
    (later : ∀ stored, (state.reloads reload).generation? = some stored → token < stored)
    (runs : run (step config) state actions = some next) :
    (next.setups setup).generation? = some token ∧
      ∀ stored, (next.reloads reload).generation? = some stored → token < stored := by
  have kept := @invariant_of_run _ _ (step config)
    (fun state => Sound config state ∧ (state.setups setup).generation? = some token ∧
      ∀ stored, (state.reloads reload).generation? = some stored → token < stored)
    (by
      rintro before _ after ⟨sound, captured, later⟩ stepTo
      exact ⟨sound.step stepTo, token_lt_stored sound captured later stepTo⟩)
    _ _ _ ⟨sound, captured, later⟩ runs
  exact kept.2

theorem reading_of_enters {setup : ℕ} (outside : (state.setups setup).entered = false)
    (stepTo : step config state action = some next)
    (inside : (next.setups setup).entered = true) : (state.setups setup).reading = true := by
  have moves := moves_of_step stepTo
  cases moves <;>
    simp only [State.withSetup, State.withReload, State.close, State.installRouting,
      register_fields] at inside <;>
    grind [Setup.entered, Setup.reading]

theorem stored_of_returned {reload generation closed : ℕ}
    (returned : state.reloads reload = .returned generation installed closed)
    (stepTo : step config state action = some next) :
    next.reloads reload = .returned generation installed closed := by
  have moves := moves_of_step stepTo
  cases moves <;>
    simp only [State.withSetup, State.withReload, State.close, State.installRouting,
      register_fields] <;>
    grind

theorem outside_of_stale (sound : Sound config state)
    (captured : (state.setups setup).generation? = some token) (older : token < generation)
    (returned : state.reloads reload = .returned generation installed closed)
    (outside : (state.setups setup).entered = false)
    (stepTo : step config state action = some next) : (next.setups setup).entered = false := by
  by_contra inside
  rw [Bool.not_eq_false] at inside
  have reads := reading_of_enters outside stepTo inside
  have current := sound.ordered.held setup reads
  rw [captured] at current
  have stores : generation ≤ state.generation :=
    sound.ordered.stored_le reload generation (by rw [returned]; rfl)
  have same : token = state.generation := Option.some.inj current
  omega

theorem outside_of_stale_run
    (sound : Sound config state) (captured : (state.setups setup).generation? = some token)
    (older : token < generation)
    (returned : state.reloads reload = .returned generation installed closed)
    (outside : (state.setups setup).entered = false)
    (runs : run (step config) state actions = some next) : (next.setups setup).entered = false := by
  have kept := @invariant_of_run _ _ (step config)
    (fun state => Sound config state ∧ (state.setups setup).generation? = some token ∧
      state.reloads reload = .returned generation installed closed ∧
      (state.setups setup).entered = false)
    (by
      rintro before _ after ⟨sound, captured, returned, outside⟩ stepTo
      have later : ∀ stored, (before.reloads reload).generation? = some stored →
          token < stored := by
        intro stored stores
        rw [returned] at stores
        cases stores
        exact older
      exact ⟨sound.step stepTo, (token_lt_stored sound captured later stepTo).1,
        stored_of_returned returned stepTo,
        outside_of_stale sound captured older returned outside stepTo⟩)
    _ _ _ ⟨sound, captured, returned, outside⟩ runs
  exact kept.2.2.2

/-- A reload between two setups: the first is drained, the second captured its generation before and
is refused, the third registers on the new table. -/
def straddledReload : List (Action Bool Unit ℕ) :=
  [.capture 0, .readRoute 0, .validate 0, .insert 0 7, .finish 0, .capture 1, .readRoute 1,
    .compile 0 true none, .lock 0, .bump 0, .drain 0, .drain 0, .drain 0, .install 0, .publish 0,
    .unlock 0, .finishReload 0]

def lateSetups : List (Action Bool Unit ℕ) :=
  [.validate 1, .capture 2, .readRoute 2, .validate 2, .insert 2 8, .finish 2]

def oneShard : Config ℕ :=
  ⟨false, 1, fun _ => .last 0, 1, fun _ => .last 0⟩

theorem fresh_straddled :
    Meets (step oneShard) Fresh (State.initial false ()) (straddledReload ++ lateSetups) := by
  iterate 3
    refine ⟨trivial, fun _ stepTo => ?_⟩
    cases stepTo
  refine ⟨rfl, fun _ stepTo => ?_⟩
  cases stepTo
  iterate 17
    refine ⟨trivial, fun _ stepTo => ?_⟩
    cases stepTo
  exact ⟨rfl, fun _ _ => ⟨trivial, fun _ _ => trivial⟩⟩

end Invariants

end MeowRs.ColdReload
