import MeowRs.LedgerAccounts

/-!
# Clears and settles that do not overlap

With any number of threads the ledger can file bytes it was told to forget: a settle that finds the
epoch already swapped by another one takes what that other one was about to drop.  When the settles
of a flow do not overlap, and a flow enters its table with an up-to-date tag, every flow runs its own
`Account`, and the account's properties become properties of the ledger.
-/

namespace MeowRs.TrafficLedger

open List State

open ActionRuns

section Refinement

variable {Host App Route Label : Type*} {state next : State Host App Route Label}
  {phase : Settle Label} {settler flow : ℕ} {mark : Mark Label}
  {counters : Flow Host App Route}

/-- A settle of a flow begins only when no other settle of it is at work, a flow is tabled only while
its tag has the current epoch, and the epoch counter does not wrap around. -/
def Guarded (state : State Host App Route Label) : Action Host App Route Label → Prop
  | .begin _ flow => ∀ settler, (state.settles settler).flow? ≠ some flow
  | .visit => ∀ clearing shard flow queue, state.writer = .visiting clearing shard (flow :: queue) →
      ∀ settler, (state.settles settler).flow? ≠ some flow
  | .insert flow => (state.flows flow).epoch = state.epoch
  | .startClear => state.epoch + 1 < 2 ^ 32
  | _ => True

/-- At most one settle is at work on a flow; until the flow is tabled it is its maker's. -/
structure Serial (state : State Host App Route Label) : Prop where
  exclusive : ∀ first second flow, (state.settles first).flow? = some flow →
    (state.settles second).flow? = some flow → first = second
  maker : ∀ flow maker settler, state.stages flow = .created maker →
    (state.settles settler).flow? = some flow → settler = maker

def State.filingsOf (state : State Host App Route Label) (flow : ℕ) : List Filing :=
  state.filings.filter fun filing => filing.flow = flow

/-- The account of a flow as the ledger's state shows it. -/
structure Views (flow : ℕ) (state : State Host App Route Label)
    (account : Account Host App Route Label) : Prop where
  epoch : account.epoch = state.epoch
  counters : account.counters = state.flows flow
  filings : account.filings = state.filingsOf flow
  phase : (∃ settler, (state.settles settler).flow? = some flow ∧
      account.phase = state.settles settler) ∨
    ((∀ settler, (state.settles settler).flow? ≠ some flow) ∧ account.phase = .idle)

theorem Views.phase_eq_idle {flow : ℕ} {account : Account Host App Route Label}
    (views : Views flow state account)
    (free : ∀ settler, (state.settles settler).flow? ≠ some flow) : account.phase = .idle := by
  obtain ⟨settler, works, _⟩ | ⟨_, idle⟩ := views.phase
  · exact absurd works (free settler)
  · exact idle

theorem Views.frame {flow : ℕ} {account : Account Host App Route Label}
    (views : Views flow state account) (epoch : next.epoch = state.epoch)
    (counters : next.flows flow = state.flows flow)
    (filings : next.filingsOf flow = state.filingsOf flow)
    (settles : ∀ settler, (next.settles settler = state.settles settler) ∨
      ((next.settles settler).flow? ≠ some flow ∧ (state.settles settler).flow? ≠ some flow)) :
    Views flow next account := by
  refine ⟨views.epoch.trans epoch.symm, views.counters.trans counters.symm,
    views.filings.trans filings.symm, ?_⟩
  obtain ⟨settler, works, same⟩ | ⟨free, idle⟩ := views.phase
  · obtain kept | ⟨_, elsewhere⟩ := settles settler
    · exact .inl ⟨settler, by rw [kept]; exact works, by rw [kept]; exact same⟩
    · exact absurd works elsewhere
  · refine .inr ⟨fun settler => ?_, idle⟩
    obtain kept | ⟨elsewhere, _⟩ := settles settler
    · rw [kept]
      exact free settler
    · exact elsewhere

theorem Views.own {account : Account Host App Route Label} (serial : Serial state)
    (works : (state.settles settler).flow? = some flow ∨
      ∀ other, (state.settles other).flow? ≠ some flow)
    (epoch : account.epoch = next.epoch) (counters : account.counters = next.flows flow)
    (filings : account.filings = next.filingsOf flow)
    (own : next.settles settler = phase) (others : ∀ other, other ≠ settler →
      next.settles other = state.settles other)
    (same : account.phase = phase) (stays : phase.flow? = some flow ∨ phase = .idle) :
    Views flow next account := by
  refine ⟨epoch, counters, filings, ?_⟩
  obtain onFlow | idle := stays
  · exact .inl ⟨settler, by rw [own]; exact onFlow, by rw [own]; exact same⟩
  · refine .inr ⟨fun other => ?_, by rw [same, idle]⟩
    by_cases mine : other = settler
    · subst mine
      rw [own, idle]
      simp [Settle.flow?]
    · rw [others other mine]
      obtain works | free := works
      · exact fun alsoWorks => mine (serial.exclusive other settler flow alsoWorks works)
      · exact free other

/-- What an access of a settle touches: the settle itself and the one flow it works on. -/
structure Touches (settler flow : ℕ) (phase : Settle Label)
    (state next : State Host App Route Label) : Prop where
  works : (state.settles settler).flow? = some flow
  own : next.settles settler = phase
  others : ∀ other, other ≠ settler → next.settles other = state.settles other
  stays : phase.flow? = some flow ∨ phase = .idle
  stages : next.stages = state.stages
  epoch : next.epoch = state.epoch
  table : next.table = state.table
  writer : next.writer = state.writer
  flows : ∀ other, other ≠ flow → next.flows other = state.flows other
  count : (next.flows flow).count = (state.flows flow).count
  filings : next.filings = state.filings ∨
    ∃ filing, filing.flow = flow ∧ next.filings = filing :: state.filings

theorem Touches.before {other reached : ℕ} (touches : Touches settler flow phase state next)
    (works : (next.settles other).flow? = some reached) :
    (state.settles other).flow? = some reached := by
  by_cases mine : other = settler
  · subst mine
    rw [touches.own] at works
    obtain same | idle := touches.stays
    · rw [← works, same]
      exact touches.works
    · rw [idle] at works
      cases works
  · rw [← touches.others other mine]
    exact works

theorem touches_withSettle (works : (state.settles settler).flow? = some flow)
    (stays : phase.flow? = some flow ∨ phase = .idle) :
    Touches settler flow phase state (state.withSettle settler phase) where
  works := works
  own := by simp [withSettle]
  others other elsewhere := by simp [withSettle, elsewhere]
  stays := stays
  stages := rfl
  epoch := rfl
  table := rfl
  writer := rfl
  flows _ _ := rfl
  count := rfl
  filings := .inl rfl

theorem touches_withFlow (works : (state.settles settler).flow? = some flow)
    (stays : phase.flow? = some flow ∨ phase = .idle)
    (count : counters.count = (state.flows flow).count) :
    Touches settler flow phase state ((state.withFlow flow counters).withSettle settler phase) where
  works := works
  own := by simp [withSettle]
  others other elsewhere := by simp [withSettle, withFlow, elsewhere]
  stays := stays
  stages := rfl
  epoch := rfl
  table := rfl
  writer := rfl
  flows other elsewhere := by simp [withSettle, withFlow, elsewhere]
  count := by simp [withSettle, withFlow, count]
  filings := .inl rfl

theorem touches_swap (phase : state.settles settler = .marked flow mark) :
    ∃ reached, Touches settler flow reached state (swap state settler flow mark) := by
  have works : (state.settles settler).flow? = some flow := by rw [phase]; rfl
  unfold swap
  dsimp only
  split
  · exact ⟨_, touches_withFlow works (.inl rfl) rfl⟩
  · split
    · exact ⟨_, touches_withFlow works (.inr rfl) rfl⟩
    · exact ⟨_, touches_withFlow works (.inl rfl) rfl⟩

theorem touches_store {dropping : Bool}
    {direction : Direction} {upload : Span} {sent : Bool} {now : ℕ}
    (phase : state.settles settler = .storing flow mark dropping direction upload sent now) :
    ∃ reached, Touches settler flow reached state
      (store state settler flow mark dropping direction upload sent now) := by
  have works : (state.settles settler).flow? = some flow := by rw [phase]; rfl
  cases direction with
  | upload | download => exact ⟨_, touches_withFlow works (.inl rfl) rfl⟩

theorem touches_owe {dropping : Bool} {upload download : Span} {sent : Bool}
    (phase : state.settles settler = .owing flow mark dropping upload download sent) :
    ∃ reached, Touches settler flow reached state
      (owe state settler flow mark dropping upload download sent) := by
  have works : (state.settles settler).flow? = some flow := by rw [phase]; rfl
  unfold owe
  dsimp only
  split
  · exact ⟨_, touches_withFlow works (.inr rfl) rfl⟩
  · split
    · exact ⟨_, touches_withSettle works (.inl rfl)⟩
    · exact ⟨_, touches_withFlow works (.inl rfl) rfl⟩

def State.account (state : State Host App Route Label) (flow settler : ℕ) :
    Account Host App Route Label :=
  ⟨state.epoch, state.flows flow, state.filingsOf flow, state.settles settler⟩

theorem account_withFlow_withSettle :
    ((state.withFlow flow counters).withSettle settler phase).account flow settler =
      ⟨state.epoch, counters, state.filingsOf flow, phase⟩ := by
  simp [account, withSettle, withFlow, filingsOf]

theorem account_withSettle :
    (state.withSettle settler phase).account flow settler =
      ⟨state.epoch, state.flows flow, state.filingsOf flow, phase⟩ := by
  simp [account, withSettle, filingsOf]

theorem filingsOf_of_touches {settler flow other : ℕ}
    (touches : Touches settler flow phase state next) (elsewhere : other ≠ flow) :
    next.filingsOf other = state.filingsOf other := by
  unfold filingsOf
  obtain same | ⟨filing, owner, grown⟩ := touches.filings
  · rw [same]
  · rw [grown, filter_cons_of_neg]
    simp [owner, elsewhere.symm]

variable (serial : Serial state)
include serial

theorem Views.phase_eq {account : Account Host App Route Label} (views : Views flow state account)
    (works : (state.settles settler).flow? = some flow) : account.phase = state.settles settler := by
  obtain ⟨other, alsoWorks, same⟩ | ⟨none, _⟩ := views.phase
  · rw [same, serial.exclusive other settler flow alsoWorks works]
  · exact absurd works (none settler)

theorem Views.eq_account {account : Account Host App Route Label} (views : Views flow state account)
    (works : (state.settles settler).flow? = some flow) :
    account = state.account flow settler := by
  have phase := views.phase_eq serial works
  obtain ⟨sameEpoch, sameCounters, sameFilings, _⟩ := views
  exact congr (congr (congr (congrArg Account.mk sameEpoch) sameCounters) sameFilings) phase

theorem views_of_touches (touches : Touches settler flow phase state next) :
    Views flow next (next.account flow settler) :=
  Views.own serial (.inl touches.works) rfl rfl rfl touches.own touches.others touches.own
    touches.stays

theorem Views.begin {flow other settler : ℕ} {account : Account Host App Route Label}
    (views : Views flow state account) (free : state.settles settler = .idle)
    (alone : ∀ worker, (state.settles worker).flow? ≠ some other) :
    ∃ after, (after = account ∨ Account.Step flow account after) ∧
      Views flow (state.withSettle settler (.started other)) after := by
  by_cases mine : flow = other
  · subst mine
    refine ⟨_, .inr (.begin (views.phase_eq_idle alone)), ?_⟩
    have own : (state.withSettle settler (.started flow)).settles settler = .started flow := by
      simp [withSettle]
    have others : ∀ worker, worker ≠ settler →
        (state.withSettle settler (.started flow)).settles worker = state.settles worker := by
      intro worker elsewhere
      simp [withSettle, elsewhere]
    exact Views.own serial (.inr alone) views.epoch views.counters views.filings own others rfl
      (.inl rfl)
  · refine ⟨account, .inl rfl, views.frame rfl rfl rfl fun worker => ?_⟩
    by_cases own : worker = settler
    · subst own
      refine .inr ⟨?_, by rw [free]; simp [Settle.flow?]⟩
      simp [withSettle, Settle.flow?, Ne.symm mine]
    · left
      simp [withSettle, own]

theorem Serial.touch (touches : Touches settler flow phase state next) : Serial next := by
  constructor
  · intro first second reached onFirst onSecond
    exact serial.exclusive first second reached (touches.before onFirst) (touches.before onSecond)
  · intro reached maker other created onFlow
    rw [touches.stages] at created
    exact serial.maker reached maker other created (touches.before onFlow)

theorem Serial.start
    (free : ∀ other, (state.settles other).flow? ≠ some flow)
    (mine : ∀ maker, state.stages flow = .created maker → settler = maker) :
    Serial (state.withSettle settler (.started flow)) where
  exclusive first second reached := by
    simp only [withSettle]
    split <;> split <;> intro onFirst onSecond
    · exact (‹first = settler›).trans (‹second = settler›).symm
    · cases onFirst
      exact absurd onSecond (free second)
    · cases onSecond
      exact absurd onFirst (free first)
    · exact serial.exclusive first second reached onFirst onSecond
  maker reached maker other created := by
    simp only [withSettle]
    split
    · subst other
      intro onFlow
      cases onFlow
      exact mine maker created
    · exact serial.maker reached maker other created

theorem Serial.withStage {flow : ℕ} {stage : Stage} (free : ∀ maker, stage = .created maker →
      ∀ settler, (state.settles settler).flow? ≠ some flow) :
    Serial (state.withStage flow stage) where
  exclusive := serial.exclusive
  maker reached maker settler := by
    simp only [State.withStage]
    split
    · subst reached
      exact fun created works => absurd works (free maker created settler)
    · exact serial.maker reached maker settler

theorem Serial.withFlow : Serial (state.withFlow flow counters) :=
  ⟨serial.exclusive, serial.maker⟩

end Refinement

section Simulation

variable {Host App Route Label : Type*} [DecidableEq Host] [DecidableEq App] [DecidableEq Route]
  [DecidableEq Label] {config : Config} {state next : State Host App Route Label}
  {action : Action Host App Route Label} {account : Account Host App Route Label}

theorem add_fields {mark : Mark Label} {host : Host} {app : App} {route : Route} {filing : Filing}
    (added : add state mark host app route filing = next) :
    next.settles = state.settles ∧ next.stages = state.stages ∧ next.epoch = state.epoch ∧
      next.table = state.table ∧ next.writer = state.writer ∧ next.flows = state.flows ∧
      (next.filings = state.filings ∨ next.filings = filing :: state.filings) := by
  subst added
  unfold add
  split
  · simp
  · split <;> simp

theorem touches_add {settler flow requests : ℕ} {mark : Mark Label} {upload download : Span}
    (phase : state.settles settler = .adding flow mark upload download requests) (host : Host)
    (app : App) (route : Route) :
    Touches settler flow .idle state
      ((add state mark host app route ⟨flow, upload, download, requests⟩).withSettle settler
        .idle) := by
  generalize added : add state mark host app route _ = after
  obtain ⟨settles, stages, epoch, table, writer, flows, filings⟩ := add_fields added
  constructor
  · rw [phase]
    rfl
  · simp [withSettle]
  · intro other elsewhere
    simp [withSettle, elsewhere, settles]
  · exact .inr rfl
  · exact stages
  · exact epoch
  · exact table
  · exact writer
  · exact fun other _ => congrFun flows other
  · exact congrArg (fun flows => (flows flow).count) flows
  · exact filings.imp id fun filed => ⟨_, rfl, filed⟩

theorem touches_of_moves {settler : ℕ} (moves : Moves config state (.settle settler) next) :
    ∃ flow phase, Touches settler flow phase state next := by
  cases moves with
  | read _ flow phase | mark _ flow epoch phase
  | load _ flow mark dropping direction upload sent phase =>
    exact ⟨flow, _, touches_withSettle (by rw [phase]; rfl) (.inl rfl)⟩
  | swap _ flow mark phase => exact ⟨flow, touches_swap phase⟩
  | store _ flow mark dropping direction upload sent now phase => exact ⟨flow, touches_store phase⟩
  | owe _ flow mark dropping upload download sent phase => exact ⟨flow, touches_owe phase⟩
  | add _ flow mark upload download requests app phase => exact ⟨flow, _, touches_add phase _ _ _⟩

theorem account_step {flow settler : ℕ} (works : (state.settles settler).flow? = some flow)
    (moves : Moves config state (.settle settler) next) :
    Account.Step flow (state.account flow settler) (next.account flow settler) := by
  cases moves with
  | read _ reached phase =>
    rw [phase] at works
    cases works
    rw [account_withSettle]
    exact .read phase
  | mark _ reached epoch phase =>
    rw [phase] at works
    cases works
    rw [account_withSettle]
    exact .mark epoch state.interface phase
  | swap _ reached mark phase =>
    rw [phase] at works
    cases works
    unfold swap
    dsimp only
    split
    · rw [account_withFlow_withSettle]
      exact .drop mark phase ‹_›
    · rename_i same
      rw [not_not] at same
      have unchanged : { state.flows flow with epoch := mark.epoch } = state.flows flow := by
        rw [← same]
      rw [unchanged]
      split
      · rw [account_withFlow_withSettle]
        exact .skip mark phase same (Option.isNone_iff_eq_none.mp ‹_›)
      · rw [account_withFlow_withSettle]
        refine .keep mark phase same fun unknown => ‹¬_› ?_
        rw [show (state.flows flow).app = none from unknown]
        rfl
  | load _ reached mark dropping direction upload sent phase =>
    rw [phase] at works
    cases works
    rw [account_withSettle]
    exact .load mark dropping direction upload sent phase
  | store _ reached mark dropping direction upload sent now phase =>
    rw [phase] at works
    cases works
    cases direction with
    | upload =>
      simp only [store]
      rw [account_withFlow_withSettle]
      exact .storeUpload mark dropping upload sent now phase
    | download =>
      simp only [store]
      rw [account_withFlow_withSettle]
      exact .storeDownload mark dropping upload sent now phase
  | owe _ reached mark dropping upload download sent phase =>
    rw [phase] at works
    cases works
    unfold owe
    dsimp only
    split
    · subst dropping
      rw [account_withFlow_withSettle]
      exact .oweDropped mark upload download sent phase
    · rename_i keeping
      rw [Bool.not_eq_true] at keeping
      subst dropping
      split
      · rw [account_withSettle]
        exact .oweDatagrams mark upload download sent phase ‹_›
      · rename_i tcp
        rw [Bool.not_eq_true] at tcp
        rw [account_withFlow_withSettle]
        exact .oweConnection mark upload download sent phase tcp
  | add _ reached mark upload download requests app phase =>
    rw [phase] at works
    cases works
    unfold add
    split
    · rw [account_withSettle]
      exact .refuse mark upload download requests phase (.inr ‹_›)
    · split
      · have filed := @Account.Step.file _ _ _ _ flow (state.account flow settler) mark upload
          download requests phase ‹_›
        simpa [account, withSettle, filingsOf] using filed
      · rw [account_withSettle]
        exact .refuse mark upload download requests phase (.inl ‹_›)

theorem Views.settle {flow settler : ℕ} (serial : Serial state) (views : Views flow state account)
    (moves : Moves config state (.settle settler) next) :
    ∃ after, (after = account ∨ Account.Step flow account after) ∧ Views flow next after := by
  obtain ⟨touched, phase, touches⟩ := touches_of_moves moves
  by_cases mine : flow = touched
  · subst mine
    rw [views.eq_account serial touches.works]
    exact ⟨_, .inr (account_step touches.works moves), views_of_touches serial touches⟩
  · refine ⟨account, .inl rfl, views.frame touches.epoch (touches.flows flow mine)
      (filingsOf_of_touches touches mine) fun worker => ?_⟩
    by_cases own : worker = settler
    · subst own
      have apart : (state.settles worker).flow? ≠ some flow := fun works =>
        mine (Option.some.inj (works.symm.trans touches.works))
      exact .inr ⟨fun works => apart (touches.before works), apart⟩
    · exact .inl (touches.others worker own)

/-- Whatever happens, the account of a flow makes one of its own steps or none. -/
theorem Views.moves {flow : ℕ} (serial : Serial state)
    (views : Views flow state account) (born : state.stages flow ≠ .unborn)
    (guarded : Guarded state action) (notClear : action ≠ .startClear)
    (moves : Moves config state action next) :
    ∃ after, (after = account ∨ Account.Step flow account after) ∧ Views flow next after := by
  have moved := moves
  cases moves with
  | create other maker host route app udp unborn free notWriter =>
    have elsewhere : flow ≠ other := by
      rintro rfl
      exact born unborn
    refine ⟨account, .inl rfl, views.frame rfl ?_ rfl fun settler => ?_⟩
    · simp [withSettle, withFlow, withStage, elsewhere]
    · by_cases mine : settler = maker
      · subst mine
        refine .inr ⟨?_, by rw [free]; simp [Settle.flow?]⟩
        simp [withSettle, Settle.flow?, elsewhere.symm]
      · left
        simp [withSettle, withFlow, withStage, mine]
  | count other direction bytes bornOther =>
    by_cases mine : flow = other
    · subst mine
      refine ⟨_, .inr (.count direction bytes), ?_⟩
      exact ⟨views.epoch, by simp [withFlow, views.counters], views.filings, views.phase⟩
    · refine ⟨account, .inl rfl, views.frame rfl ?_ rfl fun settler => .inl rfl⟩
      simp [withFlow, mine]
  | begin settler other shared free notWriter => exact views.begin serial free guarded
  | visit clearing shard other queue phase free =>
    obtain ⟨after, steps, viewed⟩ :=
      views.begin serial free (guarded clearing shard other queue phase)
    exact ⟨after, steps, viewed.frame rfl rfl rfl fun _ => .inl rfl⟩
  | startClear => exact absurd rfl notClear
  | insert | remove | setInterface | startFlush | enter | pass | visited | leave | take =>
    exact ⟨account, .inl rfl, views.frame rfl rfl rfl fun _ => .inl rfl⟩
  | read | mark | swap | load | store | owe | add => exact views.settle serial moved

end Simulation

section Known

variable {Host App Route Label : Type*} [DecidableEq Host] [DecidableEq App] [DecidableEq Route]
  [DecidableEq Label] {config : Config} {state next : State Host App Route Label}
  {action : Action Host App Route Label} {flow : ℕ}

/-- The flows of the shard at hand that the writer has not come to yet. -/
def Writer.queue : Writer → List ℕ
  | .visiting _ _ queue | .waiting _ _ queue _ => queue
  | .idle | .entering _ _ | .taking _ => []

/-- Flows that were not made are nowhere, and have counted nothing. -/
structure Known (state : State Host App Route Label) : Prop where
  tabled : ∀ flow ∈ state.table, state.stages flow ≠ .unborn
  queued : ∀ flow ∈ state.writer.queue, state.stages flow ≠ .unborn
  settled : ∀ settler flow, (state.settles settler).flow? = some flow →
    state.stages flow ≠ .unborn
  filed : ∀ filing ∈ state.filings, state.stages filing.flow ≠ .unborn
  uncounted : ∀ flow direction, state.stages flow = .unborn →
    (state.flows flow).count direction = 0

omit [DecidableEq Host] [DecidableEq App] [DecidableEq Route] [DecidableEq Label] in
theorem known_initial (label : Label) (host : Host) (route : Route) :
    Known (initial label host route : State Host App Route Label) := by
  constructor <;> simp [initial, Settle.flow?, Writer.queue]

omit [DecidableEq Host] [DecidableEq App] [DecidableEq Route] [DecidableEq Label] in
theorem Known.filingsOf_eq_nil (known : Known state) (unborn : state.stages flow = .unborn) :
    state.filingsOf flow = [] := by
  refine filter_eq_nil_iff.mpr fun filing member => ?_
  rw [decide_eq_true_eq]
  rintro rfl
  exact known.filed filing member unborn

theorem born_of_moves (hmo : Moves config state action next)
    (hb : state.stages flow ≠ .unborn) : next.stages flow ≠ .unborn := by
  have hm := hmo
  cases hmo with
  | create | insert | remove =>
    simp only [withSettle, withFlow, withStage]
    split
    · simp
    · exact hb
  | read | mark | swap | load | store | owe | add =>
    obtain ⟨_, _, ht⟩ := touches_of_moves hm
    rw [ht.stages]
    exact hb
  | _ => exact hb

theorem unborn_of_moves (moves : Moves config state action next)
    (unborn : state.stages flow = .unborn) (born : next.stages flow ≠ .unborn) :
    ∃ maker host route app udp, action = .create flow maker host route app udp := by
  have moved := moves
  cases moves with
  | create other maker host route app udp =>
    by_cases mine : flow = other
    · subst mine
      exact ⟨maker, host, route, app, udp, rfl⟩
    · simp only [withSettle, withFlow, withStage, if_neg mine] at born
      exact absurd unborn born
  | insert other _ staged | remove other staged =>
    by_cases mine : flow = other
    · subst mine
      rw [unborn] at staged
      cases staged
    · simp only [withStage, if_neg mine] at born
      exact absurd unborn born
  | read | mark | swap | load | store | owe | add =>
    obtain ⟨_, _, touches⟩ := touches_of_moves moved
    rw [touches.stages] at born
    exact absurd unborn born
  | _ => exact absurd unborn born

theorem Known.uncounted_of_moves (known : Known state) (moves : Moves config state action next)
    (flow : ℕ) (direction : Direction) (unborn : next.stages flow = .unborn) :
    (next.flows flow).count direction = 0 := by
  have before : state.stages flow = .unborn := by
    by_contra born
    exact born_of_moves moves born unborn
  have zero := known.uncounted flow direction before
  have moved := moves
  cases moves with
  | create other maker host route app udp =>
    simp only [withSettle, withFlow]
    split
    · rfl
    · exact zero
  | count other counted bytes born =>
    have elsewhere : flow ≠ other := by
      rintro rfl
      exact born before
    simpa [withFlow, elsewhere] using zero
  | read | mark | swap | load | store | owe | add =>
    obtain ⟨touched, phase, touches⟩ := touches_of_moves moved
    have elsewhere : flow ≠ touched := by
      rintro rfl
      exact known.settled _ _ touches.works before
    rw [touches.flows flow elsewhere]
    exact zero
  | _ => exact zero

theorem Known.moves (known : Known state) (moves : Moves config state action next) : Known next := by
  have keeps : ∀ flow, state.stages flow ≠ .unborn → next.stages flow ≠ .unborn :=
    fun _ => born_of_moves moves
  have uncounted := known.uncounted_of_moves moves
  have moved := moves
  cases moves with
  | create other maker host route app udp unborn free notWriter =>
    refine ⟨fun flow member => keeps flow (known.tabled flow member),
      fun flow member => keeps flow (known.queued flow member), fun settler flow works => ?_,
      fun filing member => keeps _ (known.filed filing member), uncounted⟩
    simp only [withSettle] at works
    split at works
    · cases works
      simp [withSettle, withFlow, withStage]
    · exact keeps flow (known.settled settler flow works)
  | insert other maker created =>
    refine ⟨fun flow member => ?_, fun flow member => keeps flow (known.queued flow member),
      fun settler flow works => keeps flow (known.settled settler flow works),
      fun filing member => keeps _ (known.filed filing member), uncounted⟩
    obtain rfl | member := mem_cons.mp member
    · simp [withStage]
    · exact keeps flow (known.tabled flow member)
  | remove other tabled =>
    exact ⟨fun flow member => keeps flow (known.tabled flow (mem_filter.mp member).1),
      fun flow member => keeps flow (known.queued flow member),
      fun settler flow works => keeps flow (known.settled settler flow works),
      fun filing member => keeps _ (known.filed filing member), uncounted⟩
  | begin settler other shared =>
    refine ⟨known.tabled, known.queued, fun worker flow works => ?_, known.filed, uncounted⟩
    simp only [withSettle] at works
    split at works
    · cases works
      obtain tabled | removed := shared <;> simp_all [withSettle]
    · exact known.settled worker flow works
  | visit clearing shard other queue phase =>
    have queued := known.queued
    rw [phase] at queued
    refine ⟨known.tabled, fun flow member => queued flow (mem_cons_of_mem _ member),
      fun worker flow works => ?_, known.filed, uncounted⟩
    simp only [withSettle] at works
    split at works
    · cases works
      exact queued other mem_cons_self
    · exact known.settled worker flow works
  | enter =>
    exact ⟨known.tabled, fun flow member => known.tabled flow (mem_filter.mp member).1,
      known.settled, known.filed, uncounted⟩
  | visited _ _ _ _ phase | leave _ _ phase =>
    have queued := known.queued
    rw [phase] at queued
    exact ⟨known.tabled, queued, known.settled, known.filed, uncounted⟩
  | startFlush | startClear | pass | take =>
    exact ⟨known.tabled, fun _ member => absurd member not_mem_nil, known.settled, known.filed,
      uncounted⟩
  | count | setInterface => exact ⟨known.tabled, known.queued, known.settled, known.filed, uncounted⟩
  | read | mark | swap | load | store | owe | add =>
    obtain ⟨touched, phase, touches⟩ := touches_of_moves moved
    refine ⟨fun flow member => ?_, fun flow member => ?_, fun settler flow works => ?_,
      fun filing member => ?_, uncounted⟩ <;> rw [touches.stages]
    · exact known.tabled flow (touches.table ▸ member)
    · exact known.queued flow (touches.writer ▸ member)
    · exact known.settled settler flow (touches.before works)
    · obtain same | ⟨added, owner, grown⟩ := touches.filings
      · exact known.filed filing (same ▸ member)
      · rw [grown] at member
        obtain rfl | member := mem_cons.mp member
        · rw [owner]
          exact known.settled _ _ touches.works
        · exact known.filed filing member

end Known

section Pass

variable {Host App Route Label : Type*} {config : Config} {state next : State Host App Route Label}

/-- The writer is in a clear and will still settle the flow, or is about to finish settling it. -/
def PendingVisit (config : Config) (state : State Host App Route Label) (flow : ℕ) : Prop :=
  match state.writer with
  | .entering true shard => shard ≤ (config.shard flow).val
  | .visiting true shard queue => shard < (config.shard flow).val ∨ flow ∈ queue
  | .waiting true shard queue visited => shard < (config.shard flow).val ∨ flow ∈ queue ∨
      (visited = flow ∧ (state.settles 0).flow? = some flow)
  | .idle | .entering false _ | .visiting false _ _ | .waiting false _ _ _ | .taking _ => False

/-- Tabled flows have the current epoch in their tags, except while a clear is on its way to them;
only on its way does anyone drop what they carried. -/
structure Passing (config : Config) (state : State Host App Route Label) : Prop where
  listed : ∀ flow, state.stages flow = .tabled → flow ∈ state.table
  tabled : ∀ flow ∈ state.table, state.stages flow = .tabled
  queued : ∀ flow ∈ state.writer.queue, state.stages flow = .tabled ∨ state.stages flow = .removed
  visitor : ∀ flow, (state.settles 0).flow? = some flow →
    ∃ clearing shard queue, state.writer = .waiting clearing shard queue flow
  fresh : ∀ shard queue flow epoch, state.writer = .waiting true shard queue flow →
    (state.settles 0).epoch? = some epoch → epoch = state.epoch
  upToDate : ∀ flow, state.stages flow = .tabled →
    (state.flows flow).epoch = state.epoch ∨ PendingVisit config state flow
  drops : ∀ settler flow, state.stages flow = .tabled →
    (state.settles settler).flow? = some flow → (state.settles settler).drops = true →
    PendingVisit config state flow

theorem PendingVisit.frame {flow : ℕ} (pending : PendingVisit config state flow)
    (writer : next.writer = state.writer)
    (visit : ∀ shard queue, state.writer = .waiting true shard queue flow →
      (next.settles 0).flow? = (state.settles 0).flow?) : PendingVisit config next flow := by
  unfold PendingVisit at pending ⊢
  rw [writer]
  split at pending
  · exact pending
  · exact pending
  · obtain later | queued | ⟨rfl, works⟩ := pending
    · exact .inl later
    · exact .inr (.inl queued)
    · exact .inr (.inr ⟨rfl, by rw [visit _ _ ‹_›]; exact works⟩)
  all_goals exact pending

section

variable (passing : Passing config state)
include passing

/-- A clear stays on its way to a flow while a settle works, unless it was its own settle and ends. -/
theorem Passing.pending_touch {settler touched flow : ℕ} {phase : Settle Label}
    (touches : Touches settler touched phase state next)
    (goesOn : settler = 0 → touched = flow → phase ≠ .idle)
    (pending : PendingVisit config state flow) : PendingVisit config next flow := by
  apply pending.frame touches.writer
  intro shard queue writer
  by_cases mine : settler = 0
  · subst mine
    obtain ⟨clearing, otherShard, otherQueue, sameWriter⟩ := passing.visitor touched touches.works
    rw [writer] at sameWriter
    cases sameWriter
    rw [touches.own, touches.works]
    exact touches.stays.resolve_right (goesOn rfl rfl)
  · rw [touches.others 0 (Ne.symm mine)]

theorem Passing.frame (stages : ∀ flow,
      next.stages flow = state.stages flow ∨ (state.stages flow = .unborn ∧
        next.stages flow ≠ .tabled))
    (table : next.table = state.table) (writer : next.writer = state.writer)
    (epoch : next.epoch = state.epoch) (own : next.settles 0 = state.settles 0)
    (flows : ∀ flow, state.stages flow = .tabled →
      (next.flows flow).epoch = (state.flows flow).epoch)
    (settles : ∀ settler, next.settles settler = state.settles settler ∨
      (next.settles settler).drops = false) : Passing config next := by
  have still : ∀ flow, next.stages flow = .tabled → state.stages flow = .tabled := by
    intro flow tabled
    obtain same | ⟨_, other⟩ := stages flow
    · rw [← same]
      exact tabled
    · exact absurd tabled other
  have kept : ∀ flow, state.stages flow ≠ .unborn → next.stages flow = state.stages flow := by
    intro flow born
    exact (stages flow).resolve_right fun unborn => born unborn.1
  constructor
  · intro flow tabled
    rw [table]
    exact passing.listed flow (still flow tabled)
  · intro flow member
    rw [table] at member
    have tabled := passing.tabled flow member
    rw [kept flow (by rw [tabled]; simp), tabled]
  · intro flow member
    rw [writer] at member
    have shared := passing.queued flow member
    rw [kept flow (by rintro unborn; rw [unborn] at shared; simp at shared)]
    exact shared
  · intro flow works
    rw [own] at works
    rw [writer]
    exact passing.visitor flow works
  · intro shard queue flow read waiting reads
    rw [writer] at waiting
    rw [own] at reads
    rw [epoch]
    exact passing.fresh shard queue flow read waiting reads
  · intro flow tabled
    rw [flows flow (still flow tabled), epoch]
    refine (passing.upToDate flow (still flow tabled)).imp_right fun pending => ?_
    exact pending.frame writer fun _ _ _ => by rw [own]
  · intro settler flow tabled works dropping
    obtain same | keeping := settles settler
    · rw [same] at works dropping
      exact (passing.drops settler flow (still flow tabled) works dropping).frame writer
        fun _ _ _ => by rw [own]
    · rw [keeping] at dropping
      cases dropping

/-- The writer moves on, and no flow falls off its way. -/
theorem Passing.withWriter {writer : Writer}
    (queued : ∀ flow ∈ writer.queue, flow ∈ state.table ∨ flow ∈ state.writer.queue)
    (idle : ∀ flow, (state.settles 0).flow? ≠ some flow)
    (waits : ∀ shard queue flow, writer ≠ .waiting true shard queue flow)
    (pending : ∀ flow, state.stages flow = .tabled → PendingVisit config state flow →
      PendingVisit config { state with writer := writer } flow) :
    Passing config { state with writer := writer } where
  listed := passing.listed
  tabled := passing.tabled
  queued flow member := by
    obtain listed | before := queued flow member
    · exact .inl (passing.tabled flow listed)
    · exact passing.queued flow before
  visitor flow works := absurd works (idle flow)
  fresh shard queue flow _ waiting := absurd waiting (waits shard queue flow)
  upToDate flow tabled := (passing.upToDate flow tabled).imp_right (pending flow tabled)
  drops settler flow tabled works dropping :=
    pending flow tabled (passing.drops settler flow tabled works dropping)

theorem Passing.idle
    (waits : ∀ clearing shard queue flow, state.writer ≠ .waiting clearing shard queue flow)
    (flow : ℕ) : (state.settles 0).flow? ≠ some flow := by
  intro works
  obtain ⟨clearing, shard, queue, waiting⟩ := passing.visitor flow works
  exact waits clearing shard queue flow waiting

theorem Passing.startClear (free : state.writer = .idle) (epoch : ℕ) :
    Passing config { state with epoch := epoch, writer := .entering true 0 } where
  listed := passing.listed
  tabled := passing.tabled
  queued := by simp [Writer.queue]
  visitor flow works := absurd works (passing.idle (by rw [free]; simp) flow)
  fresh := by simp
  upToDate flow _ := .inr (Nat.zero_le _)
  drops _ flow _ _ _ := Nat.zero_le _

end

/-- A flow enters the table or leaves it; one that enters has the current tag and no settle. -/
theorem Passing.restage {flow : ℕ} {stage : Stage} {table : List ℕ} (passing : Passing config state)
    (shared : stage = .tabled ∨ stage = .removed)
    (listed : ∀ other, other ∈ table ↔ if other = flow then stage = .tabled else other ∈ state.table)
    (current : stage = .tabled → (state.flows flow).epoch = state.epoch)
    (unsettled : stage = .tabled → ∀ settler, (state.settles settler).flow? ≠ some flow) :
    Passing config { state.withStage flow stage with table := table } where
  listed other tabled := by
    simp only [withStage] at tabled
    refine (listed other).mpr ?_
    split at tabled
    · rwa [if_pos ‹_›]
    · rw [if_neg ‹_›]
      exact passing.listed other tabled
  tabled other member := by
    have before := (listed other).mp member
    simp only [withStage]
    split at before
    · rwa [if_pos ‹_›]
    · rw [if_neg ‹_›]
      exact passing.tabled other before
  queued other member := by
    simp only [withStage]
    split
    · exact shared
    · exact passing.queued other member
  visitor := passing.visitor
  fresh := passing.fresh
  upToDate other := by
    simp only [withStage]
    split
    · subst other
      exact fun tabled => .inl (current tabled)
    · exact passing.upToDate other
  drops settler other := by
    simp only [withStage]
    split
    · subst other
      exact fun tabled works => absurd works (unsettled tabled settler)
    · exact passing.drops settler other

theorem Passing.visit {clearing : Bool} {shard flow : ℕ} {queue : List ℕ}
    (passing : Passing config state)
    (phase : state.writer = .visiting clearing shard (flow :: queue)) :
    Passing config
      { state.withSettle 0 (.started flow) with
        writer := .waiting clearing shard queue flow } := by
  have pending : ∀ reached, PendingVisit config state reached → PendingVisit config
      { state.withSettle 0 (.started flow) with
        writer := .waiting clearing shard queue flow } reached := by
    intro reached before
    unfold PendingVisit at before ⊢
    rw [phase] at before
    cases clearing with
    | false => exact before
    | true =>
      obtain later | member := before
      · exact .inl later
      · obtain rfl | member := mem_cons.mp member
        · exact .inr (.inr ⟨rfl, by simp [withSettle, Settle.flow?]⟩)
        · exact .inr (.inl member)
  constructor
  · exact passing.listed
  · exact passing.tabled
  · intro reached member
    exact passing.queued reached (by rw [phase]; exact mem_cons_of_mem _ member)
  · intro reached works
    simp only [withSettle, if_true, Settle.flow?, Option.some.injEq] at works
    subst works
    exact ⟨clearing, shard, queue, rfl⟩
  · intro _ _ _ _ _ reads
    simp [withSettle, Settle.epoch?] at reads
  · exact fun reached tabled => (passing.upToDate reached tabled).imp_right (pending reached)
  · intro settler reached tabled
    simp only [withSettle]
    split
    · intro _ dropping
      cases dropping
    · exact fun works dropping =>
        pending reached (passing.drops settler reached tabled works dropping)

theorem Views.startClear {flow : ℕ} {account : Account Host App Route Label} {writer : Writer}
    (views : Views flow state account) (small : state.epoch + 1 < 2 ^ 32) :
    Views flow { state with epoch := (state.epoch + 1) % 2 ^ 32, writer := writer } account.bump where
  epoch := by
    rw [Nat.mod_eq_of_lt small, ← views.epoch]
    rfl
  counters := views.counters
  filings := views.filings
  phase := views.phase

theorem views_create {flow maker : ℕ} {counters : Flow Host App Route} (known : Known state)
    (unborn : state.stages flow = .unborn) :
    Views flow (((state.withStage flow (.created maker)).withFlow flow counters).withSettle maker
      (.started flow)) ⟨state.epoch, counters, [], .started flow⟩ := by
  refine ⟨rfl, ?_, ?_, .inl ⟨maker, ?_, ?_⟩⟩
  · simp [withSettle, withFlow]
  · exact (known.filingsOf_eq_nil unborn).symm
  · simp [withSettle, Settle.flow?]
  · simp [withSettle]

/-- The whole invariant: settles do not overlap, the writer's pass is on its way, and every flow that
was made has an orderly account. -/
structure Sound (config : Config) (state : State Host App Route Label) : Prop where
  known : Known state
  serial : Serial state
  passing : Passing config state
  accounts : ∀ flow, state.stages flow ≠ .unborn →
    ∃ account, Views flow state account ∧ account.Ordered

theorem sound_initial (label : Label) (host : Host) (route : Route) :
    Sound config (initial label host route : State Host App Route Label) := by
  refine ⟨known_initial label host route, ?_, ?_, ?_⟩
  · constructor <;> simp [initial, Settle.flow?]
  · constructor <;> simp [initial, Settle.flow?, Writer.queue]
  · simp [initial]

end Pass

section PassMoves

variable {Host App Route Label : Type*} [DecidableEq Host] [DecidableEq App] [DecidableEq Route]
  [DecidableEq Label] {config : Config} {state next : State Host App Route Label}
  {action : Action Host App Route Label}

theorem Passing.settle {settler touched : ℕ} {phase : Settle Label} (serial : Serial state)
    (passing : Passing config state) (ordered : Account.Ordered (state.account touched settler))
    (touches : Touches settler touched phase state next)
    (moves : Moves config state (.settle settler) next) : Passing config next := by
  have step := account_step touches.works moves
  have working : (state.account touched settler).phase ≠ .idle := by
    intro idle
    have works := touches.works
    rw [show state.settles settler = .idle from idle] at works
    cases works
  have nextPhase : (next.account touched settler).phase = phase := touches.own
  constructor
  · intro flow tabled
    rw [touches.stages] at tabled
    rw [touches.table]
    exact passing.listed flow tabled
  · intro flow member
    rw [touches.table] at member
    rw [touches.stages]
    exact passing.tabled flow member
  · intro flow member
    rw [touches.writer] at member
    rw [touches.stages]
    exact passing.queued flow member
  · intro flow works
    rw [touches.writer]
    exact passing.visitor flow (touches.before works)
  · intro shard queue flow read writer reads
    rw [touches.writer] at writer
    rw [touches.epoch]
    by_cases mine : settler = 0
    · subst mine
      obtain before | now := step.read_epoch reads
      · exact passing.fresh shard queue flow read writer before
      · exact now
    · rw [touches.others 0 (Ne.symm mine)] at reads
      exact passing.fresh shard queue flow read writer reads
  · intro flow tabled
    rw [touches.stages] at tabled
    rw [touches.epoch]
    by_cases mine : flow = touched
    · subst mine
      obtain current | pending := passing.upToDate flow tabled
      · exact .inl (step.current ordered current).1
      · by_cases ends : settler = 0 ∧ phase = .idle
        · -- The clear's own settle ends: it read the epoch after the bump and swapped it in.
          obtain ⟨rfl, rfl⟩ := ends
          obtain ⟨clearing, shard, queue, writer⟩ := passing.visitor flow touches.works
          have clears : clearing = true := by
            cases clearing with
            | true => rfl
            | false =>
              unfold PendingVisit at pending
              rw [writer] at pending
              cases pending
          subst clears
          have finished := step.finished ordered working nextPhase
          exact .inl (passing.fresh shard queue flow _ writer finished)
        · refine .inr (passing.pending_touch touches ?_ pending)
          exact fun writes _ idle => ends ⟨writes, idle⟩
    · rw [touches.flows flow mine]
      refine (passing.upToDate flow tabled).imp_right fun pending => ?_
      exact passing.pending_touch touches (fun _ same => absurd same.symm mine) pending
  · intro worker flow tabled works dropping
    rw [touches.stages] at tabled
    by_cases own : worker = settler
    · subst own
      obtain rfl : touched = flow :=
        Option.some.inj (touches.works.symm.trans (touches.before works))
      rw [touches.own] at works dropping
      have pending : PendingVisit config state touched := by
        obtain current | pending := passing.upToDate touched tabled
        · exact passing.drops worker touched tabled touches.works
            ((step.current ordered current).2 (by rw [nextPhase]; exact dropping))
        · exact pending
      refine passing.pending_touch touches (fun _ _ idle => ?_) pending
      rw [idle] at works
      cases works
    · rw [touches.others worker own] at works dropping
      refine passing.pending_touch touches (fun _ same => ?_)
        (passing.drops worker flow tabled works dropping)
      subst same
      exact absurd (serial.exclusive worker settler touched works touches.works) own

theorem Serial.moves (serial : Serial state) (known : Known state) (passing : Passing config state)
    (guarded : Guarded state action) (moves : Moves config state action next) : Serial next := by
  have moved := moves
  cases moves with
  | create flow maker host route app udp unborn free notWriter =>
    have alone := fun worker works => known.settled worker flow works unborn
    have staged : Serial (state.withStage flow (.created maker)) :=
      serial.withStage fun _ _ => alone
    exact staged.withFlow.start alone (by simp [State.withStage, State.withFlow])
  | insert flow maker created done =>
    have staged : Serial (state.withStage flow .tabled) := serial.withStage nofun
    exact ⟨staged.1, staged.2⟩
  | remove flow tabled =>
    have staged : Serial (state.withStage flow .removed) := serial.withStage nofun
    exact ⟨staged.1, staged.2⟩
  | count => exact serial.withFlow
  | begin settler flow shared free notWriter =>
    exact serial.start guarded (by grind)
  | visit clearing shard flow queue phase free =>
    have shared := passing.queued flow (by rw [phase]; exact mem_cons_self)
    have started : Serial (state.withSettle 0 (.started flow)) :=
      serial.start (guarded clearing shard flow queue phase) (by grind)
    exact ⟨started.1, started.2⟩
  | setInterface | startFlush | startClear | enter | pass | visited | leave | take =>
    exact ⟨serial.1, serial.2⟩
  | read | mark | swap | load | store | owe | add =>
    obtain ⟨touched, phase, touches⟩ := touches_of_moves moved
    exact serial.touch touches

theorem Passing.moves (sound : Sound config state) (guarded : Guarded state action)
    (moves : Moves config state action next) : Passing config next := by
  have moved := moves
  have passing := sound.passing
  cases moves with
  | create flow maker host route app udp unborn free notWriter =>
    apply passing.frame <;>
      simp only [withSettle, withFlow, withStage, if_neg (Ne.symm notWriter)]
    · intro reached
      split
      · subst reached
        exact .inr ⟨unborn, by simp⟩
      · exact .inl rfl
    · intro reached tabled
      split
      · subst reached
        rw [unborn] at tabled
        cases tabled
      · rfl
    · intro worker
      split
      · exact .inr rfl
      · exact .inl rfl
  | insert flow maker created done =>
    refine passing.restage (.inl rfl) (by grind) (fun _ => guarded) fun _ settler works => done ?_
    rwa [← sound.serial.maker flow maker settler created works]
  | remove flow tabled => exact passing.restage (.inr rfl) (by grind) (by simp) (by simp)
  | count flow direction bytes born =>
    apply passing.frame <;> simp only [withFlow, true_or, implies_true]
    intro reached _
    split
    · subst reached
      rfl
    · rfl
  | begin settler flow shared free notWriter =>
    apply passing.frame <;>
      simp only [withSettle, true_or, implies_true, if_neg (Ne.symm notWriter)]
    intro worker
    split
    · exact .inr rfl
    · exact .inl rfl
  | setInterface label =>
    exact passing.frame (fun _ => .inl rfl) rfl rfl rfl rfl (fun _ _ => rfl) fun _ => .inl rfl
  | startFlush free =>
    refine passing.withWriter (by simp [Writer.queue]) (passing.idle (by rw [free]; simp))
      (by simp) ?_
    intro flow _ pending
    unfold PendingVisit at pending
    rw [free] at pending
    cases pending
  | startClear free => exact passing.startClear free _
  | enter clearing shard phase below =>
    refine passing.withWriter ?_ (passing.idle (by rw [phase]; simp)) (by simp) ?_
    · exact fun flow member => .inl (mem_filter.mp member).1
    · intro flow tabled pending
      unfold PendingVisit at pending ⊢
      rw [phase] at pending
      cases clearing with
      | false => exact pending
      | true =>
        obtain here | later := Nat.eq_or_lt_of_le (show shard ≤ _ from pending)
        · right
          exact mem_filter.mpr ⟨passing.listed flow tabled, by simp [here]⟩
        · exact .inl later
  | pass clearing shard phase past =>
    refine passing.withWriter (by simp [Writer.queue]) (passing.idle (by rw [phase]; simp))
      (by simp) ?_
    intro flow _ pending
    unfold PendingVisit at pending
    rw [phase] at pending
    cases clearing with
    | false => cases pending
    | true =>
      omega
  | visit clearing shard flow queue phase free => exact passing.visit phase
  | visited clearing shard flow queue phase free =>
    refine passing.withWriter ?_ (by rw [free]; simp [Settle.flow?]) (by simp) ?_
    · intro reached member
      right
      rw [phase]
      exact member
    · intro reached _ pending
      unfold PendingVisit at pending ⊢
      rw [phase] at pending
      cases clearing with
      | false => exact pending
      | true =>
        obtain later | queued | ⟨_, works⟩ := pending
        · exact .inl later
        · exact .inr queued
        · rw [free] at works
          cases works
  | leave clearing shard phase =>
    refine passing.withWriter (by simp [Writer.queue]) (passing.idle (by rw [phase]; simp))
      (by simp) ?_
    intro flow _ pending
    unfold PendingVisit at pending ⊢
    rw [phase] at pending
    cases clearing with
    | false => exact pending
    | true => exact pending.resolve_right (not_mem_nil)
  | take clearing phase =>
    have moved : Passing config { state with writer := .idle } := by
      refine passing.withWriter (by simp [Writer.queue]) (passing.idle (by rw [phase]; simp))
        (by simp) ?_
      intro flow _ pending
      unfold PendingVisit at pending
      rw [phase] at pending
      cases pending
    exact moved.frame (fun _ => .inl rfl) rfl rfl rfl rfl (fun _ _ => rfl) fun _ => .inl rfl
  | read | mark | swap | load | store | owe | add =>
    obtain ⟨touched, phase, touches⟩ := touches_of_moves moved
    have born := sound.known.settled _ _ touches.works
    obtain ⟨account, views, ordered⟩ := sound.accounts touched born
    rw [views.eq_account sound.serial touches.works] at ordered
    exact passing.settle sound.serial ordered touches moved

theorem Sound.step (sound : Sound config state) (guarded : Guarded state action)
    (stepTo : step config state action = some next) : Sound config next := by
  have moves := moves_of_step stepTo
  refine ⟨sound.known.moves moves, sound.serial.moves sound.known sound.passing guarded moves,
    Passing.moves sound guarded moves, ?_⟩
  intro flow born
  by_cases unborn : state.stages flow = .unborn
  · obtain ⟨maker, host, route, app, udp, rfl⟩ := unborn_of_moves moves unborn born
    cases moves with
    | create _ _ _ _ _ _ _ free notWriter =>
      refine ⟨_, views_create sound.known unborn, ?_⟩
      constructor <;> simp [Settle.epoch?, Settle.swapped, Settle.span?]
  · obtain ⟨account, views, ordered⟩ := sound.accounts flow unborn
    by_cases clears : action = .startClear
    · subst clears
      cases moves with
      | startClear free =>
        exact ⟨account.bump, views.startClear guarded, ordered.bump⟩
    · obtain ⟨after, rfl | steps, viewed⟩ := views.moves sound.serial unborn guarded clears moves
      · exact ⟨_, viewed, ordered⟩
      · exact ⟨after, viewed, ordered.step steps⟩

end PassMoves

end MeowRs.TrafficLedger
