import MeowRs.LedgerClears
import Mathlib.Algebra.Order.BigOperators.Group.Finset

/-!
# Settles that overlap

What holds however many settles are at work on a flow.  The threads that settle a flow share its
counters and what was filed of it, and each has something of its own in its hands.  A count over all
of these that no access raises, or that every access keeps, is bounded or constant along every run:
so a request is never filed twice, and without a clear no byte is lost or filed twice.
-/

namespace MeowRs.TrafficLedger

open List State

open ActionRuns

section Tallies

variable {Host App Route Label : Type*} {state next : State Host App Route Label}
  {settler flow : ℕ}

/-- A count of something of a flow: what its counters and filings show, and what each settle of it
has in its hands. -/
structure Tally (Host App Route Label : Type*) where
  shown : Flow Host App Route → List Filing → ℕ
  held : Settle Label → ℕ
  idle : held .idle = 0
  started : ∀ flow, held (.started flow) = 0
  uncounted : ∀ counters filings count,
    shown { counters with count := count } filings = shown counters filings

namespace Tally

variable (tally : Tally Host App Route Label)

def ofAccount (account : Account Host App Route Label) : ℕ :=
  tally.shown account.counters account.filings + tally.held account.phase

def heldBy (flow : ℕ) (state : State Host App Route Label) (settler : ℕ) : ℕ :=
  if (state.settles settler).flow? = some flow then tally.held (state.settles settler) else 0

/-- The count over the settles of some threads. -/
def sum (flow : ℕ) (state : State Host App Route Label) (settlers : Finset ℕ) : ℕ :=
  tally.shown (state.flows flow) (state.filingsOf flow) +
    ∑ settler ∈ settlers, tally.heldBy flow state settler

variable {tally}

theorem heldBy_eq_held
    (works : (state.settles settler).flow? = some flow ∨ state.settles settler = .idle) :
    tally.heldBy flow state settler = tally.held (state.settles settler) := by
  unfold heldBy
  obtain works | idle := works
  · rw [if_pos works]
  · simp [idle, Settle.flow?, tally.idle]

theorem sum_insert {settlers : Finset ℕ} (apart : settler ∉ settlers)
    (works : (state.settles settler).flow? = some flow ∨ state.settles settler = .idle) :
    tally.sum flow state (insert settler settlers) =
      tally.ofAccount (state.account flow settler) +
        ∑ other ∈ settlers, tally.heldBy flow state other := by
  rw [sum, Finset.sum_insert apart, heldBy_eq_held works, ← add_assoc]
  rfl

theorem sum_le_insert (settler : ℕ) (settlers : Finset ℕ) :
    tally.sum flow state settlers ≤ tally.sum flow state (insert settler settlers) :=
  Nat.add_le_add_left (Finset.sum_le_sum_of_subset (Finset.subset_insert _ _)) _

end Tally

/-- What a step does to a flow: nothing that a tally sees, and no settle of it ends; or the access of
one settle of it, next to whatever others there are. -/
inductive Affects (flow : ℕ) (state next : State Host App Route Label) : Prop
  | spares (count : Direction → ℕ) (grows : ∀ direction, (state.flows flow).count direction ≤
        count direction)
      (counters : next.flows flow = { state.flows flow with count := count })
      (filings : next.filingsOf flow = state.filingsOf flow)
      (settles : ∀ settler, next.settles settler = state.settles settler ∨
        (state.settles settler).flow? ≠ some flow ∧
          ((next.settles settler).flow? ≠ some flow ∨ next.settles settler = .started flow))
  | settles (settler : ℕ) (works : (state.settles settler).flow? = some flow)
      (stays : (next.settles settler).flow? = some flow ∨ next.settles settler = .idle)
      (step : Account.Step flow (state.account flow settler) (next.account flow settler))
      (others : ∀ other, other ≠ settler → next.settles other = state.settles other)

theorem affects_begin {reached : ℕ} (free : state.settles settler = .idle)
    (flows : next.flows = state.flows) (filings : next.filings = state.filings)
    (settles : next.settles = (state.withSettle settler (.started reached)).settles) :
    Affects flow state next := by
  refine .spares _ (fun _ => le_refl _) (by rw [flows]) (by rw [filingsOf, filings]; rfl)
    fun other => ?_
  rw [settles]
  by_cases mine : other = settler
  · subst mine
    refine .inr ⟨by simp [free, Settle.flow?], ?_⟩
    by_cases same : reached = flow
    · subst same
      exact .inr (by simp [withSettle])
    · exact .inl (by simp [withSettle, Settle.flow?, same])
  · exact .inl (by simp [withSettle, mine])

namespace Tally

variable {tally : Tally Host App Route Label}

theorem sum_of_spares {count : Direction → ℕ}
    (counters : next.flows flow = { state.flows flow with count := count })
    (filings : next.filingsOf flow = state.filingsOf flow)
    (settles : ∀ settler, next.settles settler = state.settles settler ∨
      (state.settles settler).flow? ≠ some flow ∧
        ((next.settles settler).flow? ≠ some flow ∨ next.settles settler = .started flow))
    (settlers : Finset ℕ) : tally.sum flow next settlers = tally.sum flow state settlers := by
  have held : ∀ settler, tally.heldBy flow next settler = tally.heldBy flow state settler := by
    intro settler
    unfold heldBy
    obtain same | ⟨apart, elsewhere | started⟩ := settles settler
    · rw [same]
    · rw [if_neg apart, if_neg elsewhere]
    · rw [if_neg apart, started, tally.started, ite_self]
  rw [sum, sum, counters, filings, tally.uncounted,
    Finset.sum_congr rfl fun settler _ => held settler]

/-- The access of one settle, seen in a sum that has it. -/
theorem sum_of_settles {settler : ℕ} (works : (state.settles settler).flow? = some flow)
    (stays : (next.settles settler).flow? = some flow ∨ next.settles settler = .idle)
    (others : ∀ other, other ≠ settler → next.settles other = state.settles other)
    (settlers : Finset ℕ) : ∃ rest,
      tally.sum flow state (insert settler settlers) =
        tally.ofAccount (state.account flow settler) + rest ∧
      tally.sum flow next (insert settler settlers) =
        tally.ofAccount (next.account flow settler) + rest := by
  rw [← Finset.insert_erase (Finset.mem_insert_self settler settlers)]
  have apart := Finset.notMem_erase settler (insert settler settlers)
  refine ⟨∑ other ∈ (insert settler settlers).erase settler, tally.heldBy flow state other, ?_, ?_⟩
  · rw [sum_insert apart (.inl works)]
  · rw [sum_insert apart stays]
    congr 1
    refine Finset.sum_congr rfl fun other member => ?_
    unfold heldBy
    rw [others other (Finset.ne_of_mem_erase member)]

/-- A count that no access raises stays within a bound, over any settles. -/
theorem sum_le_of_affects {bound : ℕ} (affects : Affects flow state next)
    (lowers : ∀ settler, Account.Step flow (state.account flow settler) (next.account flow settler) →
      tally.ofAccount (next.account flow settler) ≤ tally.ofAccount (state.account flow settler))
    (bounded : ∀ settlers, tally.sum flow state settlers ≤ bound) (settlers : Finset ℕ) :
    tally.sum flow next settlers ≤ bound := by
  cases affects with
  | spares count grows counters filings settles =>
    rw [sum_of_spares counters filings settles]
    exact bounded settlers
  | settles settler works stays step others =>
    obtain ⟨rest, before, after⟩ := tally.sum_of_settles works stays others settlers
    calc tally.sum flow next settlers
      _ ≤ tally.sum flow next (insert settler settlers) := sum_le_insert settler settlers
      _ ≤ tally.sum flow state (insert settler settlers) := by
        rw [before, after]
        exact Nat.add_le_add_right (lowers settler step) rest
      _ ≤ bound := bounded _

/-- Over all settles of the flow the count is one. -/
def Balanced (tally : Tally Host App Route Label) (flow : ℕ) (state : State Host App Route Label) :
    Prop :=
  ∀ settlers : Finset ℕ, (∀ settler, (state.settles settler).flow? = some flow →
    settler ∈ settlers) → tally.sum flow state settlers = 1

/-- A count that every access keeps stays one. -/
theorem Balanced.affects (balanced : tally.Balanced flow state) (affects : Affects flow state next)
    (same : ∀ settler, Account.Step flow (state.account flow settler) (next.account flow settler) →
      tally.ofAccount (next.account flow settler) = tally.ofAccount (state.account flow settler)) :
    tally.Balanced flow next := by
  intro settlers all
  cases affects with
  | spares count grows counters filings settles =>
    rw [sum_of_spares counters filings settles]
    refine balanced settlers fun settler works => all settler ?_
    obtain kept | ⟨apart, _⟩ := settles settler
    · rw [kept]
      exact works
    · exact absurd works apart
  | settles settler works stays step others =>
    obtain ⟨rest, before, after⟩ := tally.sum_of_settles works stays others settlers
    have whole : tally.sum flow state (insert settler settlers) = 1 := by
      refine balanced _ fun other alsoWorks => ?_
      by_cases mine : other = settler
      · exact mine ▸ Finset.mem_insert_self _ _
      · exact Finset.mem_insert_of_mem (all other (by rw [others other mine]; exact alsoWorks))
    rw [before, ← same settler step, ← after] at whole
    by_cases member : settler ∈ settlers
    · rwa [Finset.insert_eq_of_mem member] at whole
    · -- The settle has ended and holds nothing any more.
      have ended : tally.heldBy flow next settler = 0 := if_neg fun goesOn => member (all _ goesOn)
      rwa [sum, Finset.sum_insert member, ended, zero_add] at whole

/-- The requests of a flow, with the one that its counters still owe. -/
def requests (udp : Bool) : Tally Host App Route Label where
  shown counters filings := (filings.map Filing.requests).sum + Account.unclaimed counters
  held := Settle.request udp
  idle := rfl
  started _ := rfl
  uncounted _ _ _ := rfl

/-- How often a byte of a flow is filed, with the settles that have taken it, or left to be taken. -/
def byte (direction : Direction) (byte : ℕ) : Tally Host App Route Label where
  shown counters filings :=
    filings.countP (fun filing => (filing.span direction).covers byte) +
      if counters.settled direction ≤ byte then 1 else 0
  held := Settle.inFlight direction byte
  idle := rfl
  started _ := rfl
  uncounted _ _ _ := rfl

end Tally

/-- No clear has come: every epoch is the ledger's. -/
structure Calm (state : State Host App Route Label) : Prop where
  tags : ∀ flow, (state.flows flow).epoch = state.epoch
  settles : ∀ settler, (state.settles settler).drops = false ∧
    ∀ epoch, (state.settles settler).epoch? = some epoch → epoch = state.epoch

theorem Calm.account (calm : Calm state) (flow settler : ℕ) : (state.account flow settler).Calm :=
  ⟨calm.tags flow, (calm.settles settler).1, (calm.settles settler).2⟩

theorem Calm.start (calm : Calm state) (settler flow : ℕ) :
    ∀ worker, ((state.withSettle settler (.started flow)).settles worker).drops = false ∧
      ∀ epoch, ((state.withSettle settler (.started flow)).settles worker).epoch? = some epoch →
        epoch = state.epoch := by
  intro worker
  simp only [withSettle]
  split
  · exact ⟨rfl, fun _ marked => by cases marked⟩
  · exact calm.settles worker

/-- A settle that began when `total` bytes had been counted is at work on them or has settled them. -/
def Settling (total : Direction → ℕ) (settler flow : ℕ) (state : State Host App Route Label) :
    Prop :=
  ((state.settles settler).flow? = some flow ∧ (state.account flow settler).Finishing total) ∨
    ∀ direction, total direction ≤ (state.flows flow).settled direction

theorem Settling.affects {total : Direction → ℕ} {settler : ℕ}
    (settling : Settling total settler flow state) (affects : Affects flow state next) :
    Settling total settler flow next := by
  cases affects with
  | spares count grows counters filings settles =>
    obtain ⟨works, finishing⟩ | settled := settling
    · have kept : next.settles settler = state.settles settler :=
        (settles settler).resolve_right fun apart => apart.1 works
      refine .inl ⟨by rw [kept]; exact works, ?_⟩
      refine finishing.mono kept (by simp [account, counters]) fun direction => ?_
      simp only [account, counters]
      exact ⟨grows direction, le_refl _⟩
    · exact .inr fun direction => by simp only [counters]; exact settled direction
  | settles worker works stays step others =>
    have grows := step.grows
    obtain ⟨alsoWorks, finishing⟩ | settled := settling
    · by_cases mine : settler = worker
      · subst mine
        have after := finishing.step step
        obtain goesOn | idle := stays
        · exact .inl ⟨goesOn, after⟩
        · refine .inr fun direction => (after.settled direction).resolve_right ?_
          simp [account, idle, Settle.ahead]
      · refine .inl ⟨by rw [others settler mine]; exact alsoWorks, ?_⟩
        exact finishing.mono (others settler mine) grows.2.1 grows.2.2
    · exact .inr fun direction => (settled direction).trans (grows.2.2 direction).2

theorem Affects.udp (affects : Affects flow state next) :
    (next.flows flow).udp = (state.flows flow).udp := by
  cases affects with
  | spares count grows counters => rw [counters]
  | settles settler works stays step => exact step.grows.1

/-- A flow has filed one request or still owes it, with all that its settles are about to file. -/
structure Single (state : State Host App Route Label) : Prop where
  known : Known state
  single : ∀ flow, state.stages flow ≠ .unborn → ∀ settlers,
    (Tally.requests (state.flows flow).udp).sum flow state settlers ≤ 1

/-- Every byte of a flow is filed once, about to be filed once, or left to be settled. -/
structure Complete (state : State Host App Route Label) : Prop where
  known : Known state
  calm : Calm state
  balanced : ∀ flow, state.stages flow ≠ .unborn → ∀ direction byte,
    (Tally.byte direction byte).Balanced flow state

def State.filed (state : State Host App Route Label) (flow : ℕ) (direction : Direction) (byte : ℕ) :
    ℕ :=
  (state.filingsOf flow).countP fun filing => (filing.span direction).covers byte

def State.requests (state : State Host App Route Label) (flow : ℕ) : ℕ :=
  ((state.filingsOf flow).map Filing.requests).sum

theorem Complete.filed_eq_one {total : Direction → ℕ} {settler : ℕ} (complete : Complete state)
    (born : state.stages flow ≠ .unborn) (settling : Settling total settler flow state)
    (free : ∀ settler, (state.settles settler).flow? ≠ some flow) {direction : Direction} {byte : ℕ}
    (counted : byte < total direction) : state.filed flow direction byte = 1 := by
  have settled := settling.resolve_left fun works => free settler works.1
  have whole := complete.balanced flow born direction byte ∅ fun settler works =>
    absurd works (free settler)
  have taken : ¬(state.flows flow).settled direction ≤ byte := by
    have all := settled direction
    omega
  simpa [State.filed, Tally.sum, Tally.byte, taken] using whole

end Tallies

section Overlaps

variable {Host App Route Label : Type*} [DecidableEq Host] [DecidableEq App] [DecidableEq Route]
  [DecidableEq Label] {config : Config} {state next : State Host App Route Label}
  {action : Action Host App Route Label} {flow : ℕ}

theorem affects_of_moves (moves : Moves config state action next)
    (born : state.stages flow ≠ .unborn) : Affects flow state next := by
  have moved := moves
  cases moves with
  | create other maker host route app udp unborn free notWriter =>
    have elsewhere : flow ≠ other := by
      rintro rfl
      exact born unborn
    refine .spares _ (fun _ => le_refl _) ?_ rfl fun settler => ?_
    · simp [withSettle, withFlow, withStage, elsewhere]
    · by_cases mine : settler = maker
      · subst mine
        refine .inr ⟨by simp [free, Settle.flow?], .inl ?_⟩
        simp [withSettle, Settle.flow?, elsewhere.symm]
      · left
        simp [withSettle, withFlow, withStage, mine]
  | count other direction bytes bornOther =>
    by_cases mine : flow = other
    · subst mine
      exact .spares _ (Account.le_record (state.flows flow) direction bytes)
        (by simp [withFlow, Flow.record]) rfl fun _ => .inl rfl
    · exact .spares _ (fun _ => le_refl _) (by simp [withFlow, mine]) rfl fun _ => .inl rfl
  | begin _ _ _ free | visit _ _ _ _ _ free => exact affects_begin free rfl rfl rfl
  | startClear | insert | remove | setInterface | startFlush | enter | pass | visited | leave
  | take => exact .spares _ (fun _ => le_refl _) rfl rfl fun _ => .inl rfl
  | read | mark | swap | load | store | owe | add =>
    obtain ⟨touched, phase, touches⟩ := touches_of_moves moved
    by_cases mine : touched = flow
    · subst mine
      exact .settles _ touches.works (by rw [touches.own]; exact touches.stays)
        (account_step touches.works moved) touches.others
    · have apart : some touched ≠ some flow := fun same => mine (Option.some.inj same)
      refine .spares _ (fun _ => le_refl _) (touches.flows flow (Ne.symm mine))
        (filingsOf_of_touches touches (Ne.symm mine)) fun settler => ?_
      by_cases own : (state.settles settler).flow? = some flow
      · refine .inl (touches.others settler ?_)
        rintro rfl
        exact apart (touches.works.symm.trans own)
      · exact .inr ⟨own, .inl fun works => own (touches.before works)⟩

theorem Calm.settle {settler : ℕ} (calm : Calm state)
    (moves : Moves config state (.settle settler) next) : Calm next := by
  obtain ⟨touched, phase, touches⟩ := touches_of_moves moves
  have after := (calm.account touched settler).step (account_step touches.works moves)
  refine ⟨fun flow => ?_, fun worker => ?_⟩
  · by_cases mine : flow = touched
    · exact mine ▸ after.current
    · rw [touches.flows flow mine, touches.epoch]
      exact calm.tags flow
  · by_cases mine : worker = settler
    · exact mine ▸ ⟨after.keeps, after.marked⟩
    · rw [touches.others worker mine, touches.epoch]
      exact calm.settles worker

theorem Calm.moves (calm : Calm state) (notClear : action ≠ .startClear)
    (moves : Moves config state action next) : Calm next := by
  have moved := moves
  cases moves with
  | create other maker host route app udp =>
    refine ⟨fun flow => ?_, calm.start maker other⟩
    simp only [withSettle, withFlow]
    split
    · rfl
    · exact calm.tags flow
  | count other direction bytes =>
    refine ⟨fun flow => ?_, calm.settles⟩
    simp only [withFlow]
    split
    · exact calm.tags other
    · exact calm.tags flow
  | begin settler other => exact ⟨calm.tags, calm.start settler other⟩
  | visit clearing shard other => exact ⟨calm.tags, calm.start 0 other⟩
  | startClear => exact absurd rfl notClear
  | insert | remove | setInterface | startFlush | enter | pass | visited | leave | take =>
    exact ⟨calm.tags, calm.settles⟩
  | read | mark | swap | load | store | owe | add => exact calm.settle moved

/-- Of a flow that is just made only its counters can be seen. -/
theorem Tally.sum_create (tally : Tally Host App Route Label) (known : Known state)
    {maker : ℕ} {host : Host} {route : Route} {app : Option App} {udp : Bool}
    (moves : Moves config state (.create flow maker host route app udp) next)
    (settlers : Finset ℕ) :
    tally.sum flow next settlers = tally.shown (next.flows flow) [] := by
  have fresh : next.filingsOf flow = [] := by
    cases moves with
    | create _ _ _ _ _ _ unborn => exact known.filingsOf_eq_nil unborn
  have none : ∀ settler, tally.heldBy flow next settler = 0 := by
    intro settler
    have settles : next.settles settler = .started flow ∨
        next.settles settler = state.settles settler ∧ state.stages flow = .unborn := by
      cases moves with
      | create _ _ _ _ _ _ unborn =>
        by_cases mine : settler = maker
        · exact .inl (by simp [withSettle, mine])
        · exact .inr ⟨by simp [withSettle, withFlow, withStage, mine], unborn⟩
    obtain started | ⟨same, unborn⟩ := settles
    · rw [Tally.heldBy, started, tally.started, ite_self]
    · rw [Tally.heldBy, same, if_neg fun works => known.settled settler flow works unborn]
  rw [Tally.sum, fresh, Finset.sum_eq_zero fun settler _ => none settler, add_zero]

theorem Single.step (once : Single state) (steps : step config state action = some next) :
    Single next := by
  have moves := moves_of_step steps
  refine ⟨once.known.moves moves, fun flow born settlers => ?_⟩
  by_cases unborn : state.stages flow = .unborn
  · obtain ⟨maker, host, route, app, udp, rfl⟩ := unborn_of_moves moves unborn born
    rw [Tally.sum_create _ once.known moves]
    cases moves
    cases udp <;> simp [Tally.requests, Account.unclaimed, withSettle, withFlow]
  · have affects := affects_of_moves moves unborn
    rw [affects.udp]
    refine Tally.sum_le_of_affects affects (fun settler step => ?_) (once.single flow unborn)
      settlers
    have lowers := step.requested_le
    simp only [Account.requested] at lowers
    rw [step.grows.1] at lowers
    simp only [Tally.ofAccount, Tally.requests]
    simp only [account] at lowers ⊢
    omega

theorem Complete.step (complete : Complete state) (notClear : action ≠ .startClear)
    (steps : step config state action = some next) : Complete next := by
  have moves := moves_of_step steps
  refine ⟨complete.known.moves moves, complete.calm.moves notClear moves,
    fun flow born direction byte => ?_⟩
  by_cases unborn : state.stages flow = .unborn
  · obtain ⟨maker, host, route, app, udp, rfl⟩ := unborn_of_moves moves unborn born
    intro settlers _
    rw [Tally.sum_create _ complete.known moves]
    cases moves
    simp [Tally.byte, withSettle, withFlow]
  · refine (complete.balanced flow unborn direction byte).affects (affects_of_moves moves unborn)
      fun settler step => ?_
    have same := (complete.calm.account flow settler).accounted_eq step direction byte
    simp only [Account.accounted, Account.filed] at same
    simp only [Tally.ofAccount, Tally.byte]
    omega

theorem known_of_run {actions : List (Action Host App Route Label)} {label : Label} {host : Host}
    {route : Route} (runs : run (step config) (initial label host route) actions = some state) :
    Known state :=
  invariant_of_run (fun _ _ _ known steps => known.moves (moves_of_step steps))
    (known_initial label host route) runs

theorem requests_le_one {actions : List (Action Host App Route Label)} {label : Label} {host : Host}
    {route : Route} (runs : run (step config) (initial label host route) actions = some state)
    (flow : ℕ) : state.requests flow ≤ 1 := by
  have start : Single (initial label host route : State Host App Route Label) :=
    ⟨known_initial label host route, fun _ born => absurd rfl born⟩
  have once := invariant_of_run (fun _ _ _ => Single.step) start runs
  by_cases unborn : state.stages flow = .unborn
  · rw [State.requests, once.known.filingsOf_eq_nil unborn]
    exact Nat.zero_le 1
  · exact (Nat.le_add_right _ _).trans ((Nat.le_add_right _ _).trans (once.single flow unborn ∅))

theorem complete_of_run {actions : List (Action Host App Route Label)} {label : Label} {host : Host}
    {route : Route} (unclear : .startClear ∉ actions)
    (runs : run (step config) (initial label host route) actions = some state) : Complete state := by
  have start : Complete (initial label host route : State Host App Route Label) :=
    ⟨known_initial label host route,
      ⟨fun _ => rfl, fun _ => ⟨rfl, fun _ marked => by cases marked⟩⟩,
      fun _ born => absurd rfl born⟩
  refine invariant_of_meets (fun _ _ _ complete notClear => complete.step notClear) start
    (meets_of_forall fun action member _ => ?_) runs
  exact ne_of_mem_of_not_mem member unclear

end Overlaps

end MeowRs.TrafficLedger
