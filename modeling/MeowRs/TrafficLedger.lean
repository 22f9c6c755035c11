import MeowRs.ActionRuns

/-!
# Settling flows into the traffic ledger

A flow counts its bytes in two counters.  `settle_ledger` reads the ledger's epoch and interface
label, swaps the epoch into the flow's tag, takes from each counter what it gained since the last
settle and files it under the lock of the pending map, if the epoch is still the one it read.  A
clear, which the writer thread runs, moves the epoch on, settles every tabled flow and drops what is
pending.  Every atomic access and every critical section is an action of its own.
-/

namespace MeowRs.TrafficLedger

open ActionRuns

@[grind cases]
inductive Direction where
  | upload
  | download
  deriving DecidableEq

/-- The first for uploads, the second for downloads. -/
def Direction.pick {Value : Type*} (direction : Direction) (first second : Value) : Value :=
  match direction with
  | upload => first
  | download => second

/-- A stretch of a flow's bytes in one direction, numbered in the order in which they are counted. -/
structure Span where
  start : ℕ
  stop : ℕ

namespace Span

def empty : Span :=
  ⟨0, 0⟩

/-- `u64::try_from(now.saturating_sub(before)).unwrap_or(0)`. -/
def amount (span : Span) : ℕ :=
  span.stop - span.start

def covers (span : Span) (byte : ℕ) : Bool :=
  decide (span.start ≤ byte) && decide (byte < span.stop)

@[simp]
theorem covers_eq_true {span : Span} {b : ℕ} :
    span.covers b = true ↔ span.start ≤ b ∧ b < span.stop := by
  simp [covers]

end Span

/-- The epoch and the label a settle works under. -/
structure Mark (Label : Type*) where
  epoch : ℕ
  interface : Label

/-- `ConnCounters` with its `LedgerTag`. -/
structure Flow (Host App Route : Type*) where
  host : Host
  route : Route
  app : Option App
  udp : Bool
  owed : Bool
  epoch : ℕ
  count : Direction → ℕ
  settled : Direction → ℕ

/-- Where a flow is in its life: its maker settles it once before it puts it into its table. -/
inductive Stage where
  | unborn
  | created (maker : ℕ)
  | tabled
  | removed
  deriving DecidableEq

/-- Where a thread stands in `settle_ledger`.  `dropping` is the branch of a changed epoch, in which
what is taken is thrown away; `upload` and `sent` are the result of the first `unsettled`. -/
inductive Settle (Label : Type*) where
  | idle
  | started (flow : ℕ)
  | read (flow epoch : ℕ)
  | marked (flow : ℕ) (mark : Mark Label)
  | loading (flow : ℕ) (mark : Mark Label) (dropping : Bool) (direction : Direction)
      (upload : Span) (sent : Bool)
  | storing (flow : ℕ) (mark : Mark Label) (dropping : Bool) (direction : Direction)
      (upload : Span) (sent : Bool) (now : ℕ)
  | owing (flow : ℕ) (mark : Mark Label) (dropping : Bool) (upload download : Span) (sent : Bool)
  | adding (flow : ℕ) (mark : Mark Label) (upload download : Span) (requests : ℕ)

/-- The writer thread: a pass of `settle_sources` over the shards of the tables, for a flush or for a
clear, and the take behind it. -/
inductive Writer where
  | idle
  | entering (clearing : Bool) (shard : ℕ)
  | visiting (clearing : Bool) (shard : ℕ) (queue : List ℕ)
  | waiting (clearing : Bool) (shard : ℕ) (queue : List ℕ) (flow : ℕ)
  | taking (clearing : Bool)

structure Counts where
  upload : ℕ
  download : ℕ
  requests : ℕ

namespace Counts

def saturating (total : ℕ) : ℕ :=
  min total (2 ^ 64 - 1)

def merge (counts other : Counts) : Counts where
  upload := saturating (counts.upload + other.upload)
  download := saturating (counts.download + other.download)
  requests := saturating (counts.requests + other.requests)

end Counts

/-- What one call of `Mark::add` put into the pending map. -/
structure Filing where
  flow : ℕ
  upload : Span
  download : Span
  requests : ℕ

def Filing.span (filing : Filing) (direction : Direction) : Span :=
  direction.pick filing.upload filing.download

/-- The ledger, the flows of a tunnel and the threads at work on them.  `filings` is the history of
what was added to `pending`, newest first.  Settling threads are numbered; number 0 is the writer. -/
structure State (Host App Route Label : Type*) where
  epoch : ℕ
  interface : Label
  pending : AList fun _ : Host × App × Route × Label => Counts
  filings : List Filing
  table : List ℕ
  stages : ℕ → Stage
  flows : ℕ → Flow Host App Route
  settles : ℕ → Settle Label
  writer : Writer

inductive Action (Host App Route Label : Type*) where
  | create (flow maker : ℕ) (host : Host) (route : Route) (app : Option App) (udp : Bool)
  | insert (flow : ℕ)
  | remove (flow : ℕ)
  | count (flow : ℕ) (direction : Direction) (bytes : ℕ)
  | begin (settler flow : ℕ)
  | settle (settler : ℕ)
  | setInterface (label : Label)
  | startFlush
  | startClear
  | enter
  | visit
  | visited
  | leave
  | take

namespace Settle

variable {Label : Type*}

def flow? : Settle Label → Option ℕ
  | idle => none
  | started flow | read flow _ | marked flow _ | loading flow _ _ _ _ _ | storing flow _ _ _ _ _ _
  | owing flow _ _ _ _ _ | adding flow _ _ _ _ => some flow

def epoch? : Settle Label → Option ℕ
  | idle | started _ => none
  | read _ epoch => some epoch
  | marked _ mark | loading _ mark _ _ _ _ | storing _ mark _ _ _ _ _ | owing _ mark _ _ _ _
  | adding _ mark _ _ _ => some mark.epoch

def swapped : Settle Label → Bool
  | idle | started _ | read _ _ | marked _ _ => false
  | loading _ _ _ _ _ _ | storing _ _ _ _ _ _ _ | owing _ _ _ _ _ _ | adding _ _ _ _ _ => true

def drops : Settle Label → Bool
  | idle | started _ | read _ _ | marked _ _ | adding _ _ _ _ _ => false
  | loading _ _ dropping _ _ _ | storing _ _ dropping _ _ _ _ | owing _ _ dropping _ _ _ => dropping

/-- The settle drops what the flow carried and has not yet come to the direction. -/
def unstored (direction : Direction) : Settle Label → Bool
  | idle | started _ | read _ _ | marked _ _ | owing _ _ _ _ _ _ | adding _ _ _ _ _ => false
  | loading _ _ dropping reached _ _ | storing _ _ dropping reached _ _ _ =>
    dropping && (decide (reached = .upload) || decide (direction = .download))

/-- The settle is under way and has not yet come to the direction. -/
def ahead (direction : Direction) : Settle Label → Bool
  | idle | owing _ _ _ _ _ _ | adding _ _ _ _ _ => false
  | started _ | read _ _ | marked _ _ => true
  | loading _ _ _ reached _ _ | storing _ _ _ reached _ _ _ =>
    decide (reached = .upload) || decide (direction = .download)

/-- The requests the settle is about to file. -/
def request (udp : Bool) : Settle Label → ℕ
  | idle | started _ | read _ _ | marked _ _ => 0
  | loading _ _ dropping reached _ sent | storing _ _ dropping reached _ sent _ =>
    if udp = true ∧ dropping = false ∧ reached = .download ∧ sent = true then 1 else 0
  | owing _ _ dropping _ _ sent => if udp = true ∧ dropping = false ∧ sent = true then 1 else 0
  | adding _ _ _ _ requests => requests

/-- The bytes the settle has taken in a direction and not yet filed. -/
def span? (direction : Direction) : Settle Label → Option Span
  | idle | started _ | read _ _ | marked _ _ => none
  | loading _ _ dropping reached upload _ | storing _ _ dropping reached upload _ _ =>
    if dropping = false ∧ reached = .download ∧ direction = .upload then some upload else none
  | owing _ _ dropping upload download _ =>
    if dropping = false then some (direction.pick upload download) else none
  | adding _ _ upload download _ => some (direction.pick upload download)

end Settle

section Step

variable {Host App Route Label : Type*}

namespace State

variable (state : State Host App Route Label)

/-- No flow yet; the memory of flows to come holds zeros and some names. -/
def initial (label : Label) (host : Host) (route : Route) : State Host App Route Label where
  epoch := 0
  interface := label
  pending := ∅
  filings := []
  table := []
  stages := fun _ => .unborn
  flows := fun _ =>
    { host := host, route := route, app := none, udp := false, owed := false, epoch := 0,
      count := fun _ => 0, settled := fun _ => 0 }
  settles := fun _ => .idle
  writer := .idle

def withStage (flow : ℕ) (stage : Stage) : State Host App Route Label :=
  { state with stages := fun other => if other = flow then stage else state.stages other }

def withFlow (flow : ℕ) (counters : Flow Host App Route) : State Host App Route Label :=
  { state with flows := fun other => if other = flow then counters else state.flows other }

def withSettle (settler : ℕ) (phase : Settle Label) : State Host App Route Label :=
  { state with settles := fun other => if other = settler then phase else state.settles other }

end State

/-- `fetch_max` on the settled counter. -/
def Flow.settle (flow : Flow Host App Route) (direction : Direction) (now : ℕ) :
    Flow Host App Route :=
  { flow with
    settled := fun other =>
      if other = direction then max (flow.settled direction) now else flow.settled other }

/-- `fetch_add` on a counter. -/
def Flow.record (flow : Flow Host App Route) (direction : Direction) (bytes : ℕ) :
    Flow Host App Route :=
  { flow with
    count := fun other =>
      if other = direction then flow.count direction + bytes else flow.count other }

variable [DecidableEq Host] [DecidableEq App] [DecidableEq Route] [DecidableEq Label]

/-- `Mark::add`: under the lock of the pending map, and only if no clear moved the epoch on. -/
def add (state : State Host App Route Label) (mark : Mark Label) (host : Host) (app : App)
    (route : Route) (filing : Filing) : State Host App Route Label :=
  if filing.upload.amount = 0 ∧ filing.download.amount = 0 ∧ filing.requests = 0 then state
  else if state.epoch = mark.epoch then
    let row := (host, app, route, mark.interface)
    let held := (state.pending.lookup row).getD ⟨0, 0, 0⟩
    { state with
      pending := state.pending.insert row
        (held.merge ⟨filing.upload.amount, filing.download.amount, filing.requests⟩)
      filings := filing :: state.filings }
  else
    state

/-- The swap of the tag's epoch and the branch on what it held. -/
def swap (state : State Host App Route Label) (settler flow : ℕ) (mark : Mark Label) :
    State Host App Route Label :=
  let tag := state.flows flow
  let swapped := state.withFlow flow { tag with epoch := mark.epoch }
  if tag.epoch ≠ mark.epoch then
    swapped.withSettle settler (.loading flow mark true .upload .empty false)
  else if tag.app.isNone then
    swapped.withSettle settler .idle
  else
    swapped.withSettle settler (.loading flow mark false .upload .empty false)

/-- The second half of `unsettled`: `fetch_max`, and what it took. -/
def store (state : State Host App Route Label) (settler flow : ℕ) (mark : Mark Label)
    (dropping : Bool) (direction : Direction) (upload : Span) (sent : Bool) (now : ℕ) :
    State Host App Route Label :=
  let before := (state.flows flow).settled direction
  let stored := state.withFlow flow ((state.flows flow).settle direction now)
  match direction with
  | .upload =>
    stored.withSettle settler (.loading flow mark dropping .download ⟨before, now⟩
      (decide (before = 0) && decide (0 < now)))
  | .download => stored.withSettle settler (.owing flow mark dropping upload ⟨before, now⟩ sent)

/-- Who counts as the request: a UDP flow's first bytes, a connection's owed flag. -/
def owe (state : State Host App Route Label) (settler flow : ℕ) (mark : Mark Label)
    (dropping : Bool) (upload download : Span) (sent : Bool) : State Host App Route Label :=
  let tag := state.flows flow
  let paid := state.withFlow flow { tag with owed := false }
  if dropping then paid.withSettle settler .idle
  else if tag.udp then
    state.withSettle settler (.adding flow mark upload download (if sent then 1 else 0))
  else
    paid.withSettle settler (.adding flow mark upload download (if tag.owed then 1 else 0))

/-- One atomic access of `settle_ledger`. -/
def settleStep (state : State Host App Route Label) (settler : ℕ) :
    Settle Label → Option (State Host App Route Label)
  | .idle => none
  | .started flow => some (state.withSettle settler (.read flow state.epoch))
  | .read flow epoch => some (state.withSettle settler (.marked flow ⟨epoch, state.interface⟩))
  | .marked flow mark => some (swap state settler flow mark)
  | .loading flow mark dropping direction upload sent =>
    some (state.withSettle settler (.storing flow mark dropping direction upload sent
      ((state.flows flow).count direction)))
  | .storing flow mark dropping direction upload sent now =>
    some (store state settler flow mark dropping direction upload sent now)
  | .owing flow mark dropping upload download sent =>
    some (owe state settler flow mark dropping upload download sent)
  | .adding flow mark upload download requests =>
    match (state.flows flow).app with
    | some app =>
      some ((add state mark (state.flows flow).host app (state.flows flow).route
        ⟨flow, upload, download, requests⟩).withSettle settler .idle)
    | none => none

def inShard (shards : ℕ) (shard : ℕ → Fin shards) (index : ℕ) (table : List ℕ) : List ℕ :=
  table.filter fun flow => (shard flow).val == index

/-- The shards of the connection tables and the UDP flow table, in the order of the settle pass. -/
structure Config where
  shards : ℕ
  shard : ℕ → Fin shards

def step (config : Config) (state : State Host App Route Label) :
    Action Host App Route Label → Option (State Host App Route Label)
  | .create flow maker host route app udp =>
    match state.stages flow, state.settles maker with
    | .unborn, .idle =>
      if maker = 0 then none
      else
        let counters : Flow Host App Route :=
          { host := host, route := route, app := app, udp := udp, owed := !udp,
            epoch := state.epoch, count := fun _ => 0, settled := fun _ => 0 }
        some (((state.withStage flow (.created maker)).withFlow flow counters).withSettle
          maker (.started flow))
    | _, _ => none
  | .insert flow =>
    match state.stages flow with
    | .created maker =>
      if (state.settles maker).flow? = some flow then none
      else some { state.withStage flow .tabled with table := flow :: state.table }
    | _ => none
  | .remove flow =>
    match state.stages flow with
    | .tabled =>
      some { state.withStage flow .removed with table := state.table.filter (· ≠ flow) }
    | _ => none
  | .count flow direction bytes =>
    match state.stages flow with
    | .unborn => none
    | _ => some (state.withFlow flow ((state.flows flow).record direction bytes))
  | .begin settler flow =>
    match state.stages flow, state.settles settler with
    | .tabled, .idle | .removed, .idle =>
      if settler = 0 then none else some (state.withSettle settler (.started flow))
    | _, _ => none
  | .settle settler => settleStep state settler (state.settles settler)
  | .setInterface label => some { state with interface := label }
  | .startFlush =>
    match state.writer with
    | .idle => some { state with writer := .entering false 0 }
    | _ => none
  -- `discard_pending`: the epoch is an `AtomicU32`.
  | .startClear =>
    match state.writer with
    | .idle =>
      some { state with epoch := (state.epoch + 1) % 2 ^ 32, writer := .entering true 0 }
    | _ => none
  | .enter =>
    match state.writer with
    | .entering clearing shard =>
      if shard < config.shards then
        some { state with
          writer := .visiting clearing shard
            (inShard config.shards config.shard shard state.table) }
      else
        some { state with writer := .taking clearing }
    | _ => none
  | .visit =>
    match state.writer, state.settles 0 with
    | .visiting clearing shard (flow :: queue), .idle =>
      some { state.withSettle 0 (.started flow) with
        writer := .waiting clearing shard queue flow }
    | _, _ => none
  | .visited =>
    match state.writer, state.settles 0 with
    | .waiting clearing shard queue _, .idle =>
      some { state with writer := .visiting clearing shard queue }
    | _, _ => none
  | .leave =>
    match state.writer with
    | .visiting clearing shard [] => some { state with writer := .entering clearing (shard + 1) }
    | _ => none
  | .take =>
    match state.writer with
    | .taking _ => some { state with writer := .idle, pending := ∅ }
    | _ => none

end Step

section Moves

variable {Host App Route Label : Type*} [DecidableEq Host] [DecidableEq App] [DecidableEq Route]
  [DecidableEq Label] {cfg : Config} {state next : State Host App Route Label}
  {act : Action Host App Route Label}

/-- Everything a step can do, with the guards it passed. -/
inductive Moves (config : Config) (state : State Host App Route Label) :
    Action Host App Route Label → State Host App Route Label → Prop
  | create (flow maker : ℕ) (host : Host) (route : Route) (app : Option App) (udp : Bool)
      (unborn : state.stages flow = .unborn) (free : state.settles maker = .idle)
      (other : maker ≠ 0) :
      Moves config state (.create flow maker host route app udp)
        (((state.withStage flow (.created maker)).withFlow flow
          { host := host, route := route, app := app, udp := udp, owed := !udp,
            epoch := state.epoch, count := fun _ => 0, settled := fun _ => 0 }).withSettle
          maker (.started flow))
  | insert (flow maker : ℕ) (created : state.stages flow = .created maker)
      (done : (state.settles maker).flow? ≠ some flow) :
      Moves config state (.insert flow)
        { state.withStage flow .tabled with table := flow :: state.table }
  | remove (flow : ℕ) (tabled : state.stages flow = .tabled) :
      Moves config state (.remove flow)
        { state.withStage flow .removed with table := state.table.filter (· ≠ flow) }
  | count (flow : ℕ) (direction : Direction) (bytes : ℕ) (born : state.stages flow ≠ .unborn) :
      Moves config state (.count flow direction bytes)
        (state.withFlow flow ((state.flows flow).record direction bytes))
  | begin (settler flow : ℕ)
      (shared : state.stages flow = .tabled ∨ state.stages flow = .removed)
      (free : state.settles settler = .idle) (other : settler ≠ 0) :
      Moves config state (.begin settler flow) (state.withSettle settler (.started flow))
  | read (settler flow : ℕ) (phase : state.settles settler = .started flow) :
      Moves config state (.settle settler) (state.withSettle settler (.read flow state.epoch))
  | mark (settler flow epoch : ℕ) (phase : state.settles settler = .read flow epoch) :
      Moves config state (.settle settler)
        (state.withSettle settler (.marked flow ⟨epoch, state.interface⟩))
  | swap (settler flow : ℕ) (mark : Mark Label) (phase : state.settles settler = .marked flow mark) :
      Moves config state (.settle settler) (swap state settler flow mark)
  | load (settler flow : ℕ) (mark : Mark Label) (dropping : Bool) (direction : Direction)
      (upload : Span) (sent : Bool)
      (phase : state.settles settler = .loading flow mark dropping direction upload sent) :
      Moves config state (.settle settler)
        (state.withSettle settler (.storing flow mark dropping direction upload sent
          ((state.flows flow).count direction)))
  | store (settler flow : ℕ) (mark : Mark Label) (dropping : Bool) (direction : Direction)
      (upload : Span) (sent : Bool) (now : ℕ)
      (phase : state.settles settler = .storing flow mark dropping direction upload sent now) :
      Moves config state (.settle settler)
        (store state settler flow mark dropping direction upload sent now)
  | owe (settler flow : ℕ) (mark : Mark Label) (dropping : Bool) (upload download : Span)
      (sent : Bool)
      (phase : state.settles settler = .owing flow mark dropping upload download sent) :
      Moves config state (.settle settler)
        (owe state settler flow mark dropping upload download sent)
  | add (settler flow : ℕ) (mark : Mark Label) (upload download : Span) (requests : ℕ) (app : App)
      (phase : state.settles settler = .adding flow mark upload download requests) :
      Moves config state (.settle settler)
        ((add state mark (state.flows flow).host app (state.flows flow).route
          ⟨flow, upload, download, requests⟩).withSettle settler .idle)
  | setInterface (label : Label) :
      Moves config state (.setInterface label) { state with interface := label }
  | startFlush (free : state.writer = .idle) :
      Moves config state .startFlush { state with writer := .entering false 0 }
  | startClear (free : state.writer = .idle) :
      Moves config state .startClear
        { state with epoch := (state.epoch + 1) % 2 ^ 32, writer := .entering true 0 }
  | enter (clearing : Bool) (shard : ℕ) (phase : state.writer = .entering clearing shard)
      (below : shard < config.shards) :
      Moves config state .enter
        { state with
          writer := .visiting clearing shard
            (inShard config.shards config.shard shard state.table) }
  | pass (clearing : Bool) (shard : ℕ) (phase : state.writer = .entering clearing shard)
      (past : config.shards ≤ shard) :
      Moves config state .enter { state with writer := .taking clearing }
  | visit (clearing : Bool) (shard flow : ℕ) (queue : List ℕ)
      (phase : state.writer = .visiting clearing shard (flow :: queue))
      (free : state.settles 0 = .idle) :
      Moves config state .visit
        { state.withSettle 0 (.started flow) with writer := .waiting clearing shard queue flow }
  | visited (clearing : Bool) (shard flow : ℕ) (queue : List ℕ)
      (phase : state.writer = .waiting clearing shard queue flow)
      (free : state.settles 0 = .idle) :
      Moves config state .visited { state with writer := .visiting clearing shard queue }
  | leave (clearing : Bool) (shard : ℕ) (phase : state.writer = .visiting clearing shard []) :
      Moves config state .leave { state with writer := .entering clearing (shard + 1) }
  | take (clearing : Bool) (phase : state.writer = .taking clearing) :
      Moves config state .take { state with writer := .idle, pending := ∅ }

theorem moves_settleStep {w : ℕ} (hs : settleStep state w (state.settles w) = some next) :
    Moves cfg state (.settle w) next := by
  cases ph : state.settles w with rw [ph] at hs
  | idle =>
    cases hs
  | started flow =>
    cases hs
    exact .read w flow ph
  | read flow epoch =>
    cases hs
    exact .mark w flow epoch ph
  | marked flow mark =>
    cases hs
    exact .swap w flow mark ph
  | loading flow mark dropping dir upload sent =>
    cases hs
    exact .load w flow mark dropping dir upload sent ph
  | storing flow mark dropping dir upload sent now =>
    cases hs
    exact .store w flow mark dropping dir upload sent now ph
  | owing flow mark dropping upload download sent =>
    cases hs
    exact .owe w flow mark dropping upload download sent ph
  | adding flow mark upload download requests =>
    simp only [settleStep] at hs
    split at hs <;> cases hs
    exact .add w flow mark upload download requests _ ph

theorem moves_of_step (hs : step cfg state act = some next) : Moves cfg state act next := by
  cases act with simp only [step] at hs
  | create flow maker host route app udp =>
    split at hs
    · split at hs <;> cases hs
      exact .create flow maker host route app udp ‹_› ‹_› ‹_›
    · cases hs
  | insert flow =>
    split at hs
    · split at hs <;> cases hs
      exact .insert flow _ ‹_› ‹_›
    · cases hs
  | remove flow =>
    split at hs <;> cases hs
    exact .remove flow ‹_›
  | count flow dir bytes =>
    split at hs <;> cases hs
    exact .count flow dir bytes ‹_›
  | begin w flow =>
    split at hs
    · split at hs <;> cases hs
      exact .begin w flow (Or.inl ‹_›) ‹_› ‹_›
    · split at hs <;> cases hs
      exact .begin w flow (Or.inr ‹_›) ‹_› ‹_›
    · cases hs
  | settle w => exact moves_settleStep hs
  | setInterface label =>
    cases hs
    exact .setInterface label
  | startFlush =>
    split at hs <;> cases hs
    exact .startFlush ‹_›
  | startClear =>
    split at hs <;> cases hs
    exact .startClear ‹_›
  | enter =>
    split at hs
    · split at hs
      · cases hs
        exact .enter _ _ ‹_› ‹_›
      · cases hs
        exact .pass _ _ ‹_› (le_of_not_gt ‹_›)
    · cases hs
  | visit =>
    split at hs <;> cases hs
    exact .visit _ _ _ _ ‹_› ‹_›
  | visited =>
    split at hs <;> cases hs
    exact .visited _ _ _ _ ‹_› ‹_›
  | leave =>
    split at hs <;> cases hs
    exact .leave _ _ ‹_›
  | take =>
    split at hs <;> cases hs
    exact .take _ ‹_›

end Moves

end MeowRs.TrafficLedger
