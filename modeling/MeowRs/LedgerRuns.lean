import MeowRs.LedgerOverlaps

/-!
# What the ledger has filed after a run

The properties of a flow's account, carried along whole runs of the ledger.  What overlapping settles
do to them is shown by a run at the end.
-/

namespace MeowRs.TrafficLedger

open List State

open ActionRuns

section Tracked

variable {Host App Route Label : Type*} {config : Config} {state : State Host App Route Label}
  {flow : ℕ}

/-- A flow that was made, with a property of its account. -/
structure Tracked (property : Account Host App Route Label → Prop) (flow : ℕ)
    (state : State Host App Route Label) : Prop where
  born : state.stages flow ≠ .unborn
  account : ∃ account, Views flow state account ∧ account.Ordered ∧ property account

/-- The action starts a settle of the flow. -/
def Begins (state : State Host App Route Label) (flow : ℕ) : Action Host App Route Label → Prop
  | .begin _ other => other = flow
  | .visit => ∃ clearing shard queue, state.writer = .visiting clearing shard (flow :: queue)
  | _ => False

/-- No clear is under way. -/
def Writer.clears : Writer → Bool
  | .idle => false
  | .entering clearing _ | .visiting clearing _ _ | .waiting clearing _ _ _ | .taking clearing =>
    clearing

theorem exact_of_tabled (sound : Sound config state) (tabled : state.stages flow = .tabled)
    (cleared : state.writer.clears = false) :
    Tracked (Account.Exact (state.flows flow).count) flow state := by
  have born : state.stages flow ≠ .unborn := by
    rw [tabled]
    exact nofun
  obtain ⟨account, views, ordered⟩ := sound.accounts flow born
  have done : ¬PendingVisit config state flow := by
    intro pending
    unfold PendingVisit at pending
    split at pending <;> simp_all [Writer.clears]
  refine ⟨born, account, views, ordered, ?_, ?_, ?_⟩
  · rw [views.epoch, views.counters]
    exact (sound.passing.upToDate flow tabled).resolve_right done
  · obtain ⟨settler, works, same⟩ | ⟨_, idle⟩ := views.phase
    · rw [same, Bool.eq_false_iff]
      exact fun drops => done (sound.passing.drops settler flow tabled works drops)
    · rw [idle]
      rfl
  · intro direction byte counted below
    have bound := ordered.settled_le direction
    rw [views.counters] at bound below
    omega

theorem filed_eq_one {first : Direction → ℕ} {account : Account Host App Route Label}
    (views : Views flow state account) (exact : account.Exact first)
    (free : ∀ settler, (state.settles settler).flow? ≠ some flow) {direction : Direction} {byte : ℕ}
    (recent : first direction ≤ byte) (settled : byte < (state.flows flow).settled direction) :
    state.filed flow direction byte = 1 := by
  rw [← views.counters] at settled
  have once := exact.once direction byte recent settled
  simpa [State.filed, Account.filed, Settle.inFlight, Settle.span?, views.phase_eq_idle free,
    views.filings] using once

end Tracked

section Runs

variable {Host App Route Label : Type*} [DecidableEq Host] [DecidableEq App] [DecidableEq Route]
  [DecidableEq Label] {config : Config} {state next first last : State Host App Route Label}
  {action : Action Host App Route Label} {actions : List (Action Host App Route Label)}

theorem sound_of_run (sound : Sound config first) (meets : Meets (step config) Guarded first actions)
    (runs : run (step config) first actions = some last) : Sound config last :=
  invariant_of_meets (fun _ _ _ sound guarded stepTo => Sound.step sound guarded stepTo) sound meets
    runs

theorem filings_of_step (stepTo : step config state action = some next) :
    ∃ recent, next.filings = recent ++ state.filings := by
  have moves := moves_of_step stepTo
  have moved := moves
  cases moves with
  | read | mark | swap | load | store | owe | add =>
    obtain ⟨_, _, touches⟩ := touches_of_moves moved
    obtain same | ⟨filing, _, grown⟩ := touches.filings
    · exact ⟨[], same⟩
    · exact ⟨[filing], grown⟩
  | _ => exact ⟨[], rfl⟩

theorem filings_of_run (runs : run (step config) first actions = some last) :
    ∃ recent, last.filings = recent ++ first.filings := by
  refine @invariant_of_run _ _ (step config)
    (fun state => ∃ recent, state.filings = recent ++ first.filings) ?_ _ _ _ ⟨[], rfl⟩ runs
  rintro state action next ⟨recent, grown⟩ stepTo
  obtain ⟨added, same⟩ := filings_of_step stepTo
  exact ⟨added ++ recent, by rw [same, grown, append_assoc]⟩

variable {property : Account Host App Route Label → Prop} {flow : ℕ}

theorem tracked_of_step (tracked : Tracked property flow state) (sound : Sound config state)
    (guarded : Guarded state action) (stepTo : step config state action = some next)
    (kept : ∀ account after, account.Ordered → property account →
      Account.Step flow account after → property after)
    (bumped : action = .startClear → ∀ account, property account → property account.bump) :
    Tracked property flow next := by
  have moves := moves_of_step stepTo
  obtain ⟨born, account, views, ordered, holds⟩ := tracked
  refine ⟨born_of_moves moves born, ?_⟩
  by_cases clears : action = .startClear
  · subst clears
    cases moves with
    | startClear free =>
      exact ⟨account.bump, views.startClear guarded, ordered.bump, bumped rfl account holds⟩
  · obtain ⟨after, rfl | steps, viewed⟩ := views.moves sound.serial born guarded clears moves
    · exact ⟨_, viewed, ordered, holds⟩
    · exact ⟨after, viewed, ordered.step steps, kept account after ordered holds steps⟩

/-- What every access of a settle keeps, and every clear of the run, holds after the run. -/
theorem tracked_of_run (tracked : Tracked property flow first) (sound : Sound config first)
    (kept : ∀ account after, account.Ordered → property account →
      Account.Step flow account after → property after)
    (bumped : .startClear ∈ actions → ∀ account, property account → property account.bump)
    (meets : Meets (step config) Guarded first actions)
    (runs : run (step config) first actions = some last) : Tracked property flow last := by
  induction actions generalizing first with
  | nil =>
    cases runs
    exact tracked
  | cons action actions ih =>
    obtain ⟨next, stepTo, rest⟩ := run_cons_eq_some runs
    have stepped := tracked_of_step tracked sound meets.1 stepTo kept fun clears =>
      bumped (clears ▸ mem_cons_self)
    exact ih stepped (sound.step meets.1 stepTo)
      (fun member => bumped (mem_cons_of_mem _ member)) (meets.2 next stepTo) rest

/-- After a clear has started nothing of what was counted before is filed. -/
theorem filed_after_clear (sound : Sound config first)
    (meets : Meets (step config) Guarded first (.startClear :: actions))
    (runs : run (step config) first (.startClear :: actions) = some last) :
    ∃ recent, last.filings = recent ++ first.filings ∧
      ∀ filing ∈ recent, ∀ direction byte, (filing.span direction).covers byte = true →
        (first.flows filing.flow).count direction ≤ byte := by
  obtain ⟨recent, grown⟩ := filings_of_run runs
  refine ⟨recent, grown, fun filing member direction byte covered => ?_⟩
  by_cases unborn : first.stages filing.flow = .unborn
  · rw [sound.known.uncounted filing.flow direction unborn]
    exact Nat.zero_le byte
  obtain ⟨next, stepTo, rest⟩ := run_cons_eq_some runs
  obtain ⟨account, views, ordered⟩ := sound.accounts filing.flow unborn
  have moves := moves_of_step stepTo
  have cleared : Tracked (Account.Cleared (account.epoch + 1) account.counters.count account.filings)
      filing.flow next := by
    refine ⟨born_of_moves moves unborn, ?_⟩
    cases moves with
    | startClear free =>
      exact ⟨account.bump, views.startClear meets.1, ordered.bump, ordered.cleared_bump⟩
  obtain ⟨_, after, viewed, _, behind⟩ := tracked_of_run cleared (sound.step meets.1 stepTo)
    (fun _ _ ordered cleared steps => cleared.step ordered steps) (fun _ _ => Account.Cleared.bump)
    (meets.2 next stepTo) rest
  obtain ⟨added, same, starts⟩ := behind.recent
  -- The flow's own share of what was filed since is what its account has added.
  have share : added = recent.filter fun other => other.flow = filing.flow := by
    have split : added ++ account.filings =
        (recent.filter fun other => other.flow = filing.flow) ++ account.filings := by
      rw [← same, viewed.filings, views.filings, filingsOf, filingsOf, grown,
        filter_append]
    exact append_cancel_right split
  have mine : filing ∈ added := by
    rw [share]
    exact mem_filter.mpr ⟨member, by simp⟩
  rw [← views.counters]
  exact le_trans (starts filing mine direction) (Span.covers_eq_true.mp covered).1

theorem born_of_begins (known : Known state) (stepTo : step config state action = some next)
    (begins : Begins state flow action) : state.stages flow ≠ .unborn := by
  cases moves_of_step stepTo with
  | begin _ _ shared =>
    cases begins
    obtain tabled | removed := shared
    · simp [tabled]
    · simp [removed]
  | visit =>
    obtain ⟨_, _, _, phase⟩ := begins
    exact known.queued flow (by rw [phase]; exact mem_cons_self)
  | _ => exact absurd begins id

theorem settling_of_begins (stepTo : step config state action = some next)
    (begins : Begins state flow action) (known : (state.flows flow).app ≠ none) :
    ∃ settler, Settling (state.flows flow).count settler flow next := by
  obtain ⟨settler, started, flows⟩ : ∃ settler, next.settles settler = .started flow ∧
      next.flows = state.flows := by
    cases moves_of_step stepTo with
    | begin settler =>
      cases begins
      exact ⟨settler, by simp [withSettle], rfl⟩
    | visit _ _ reached _ phase =>
      obtain ⟨_, _, _, same⟩ := begins
      rw [phase] at same
      cases same
      exact ⟨0, by simp [withSettle], rfl⟩
    | _ => exact absurd begins id
  refine ⟨settler, .inl ⟨by rw [started]; rfl, ?_⟩⟩
  constructor <;> simp [account, started, flows, known, Settle.ahead]

theorem settling_of_run {total : Direction → ℕ} {settler : ℕ} (born : first.stages flow ≠ .unborn)
    (settling : Settling total settler flow first)
    (runs : run (step config) first actions = some last) :
    last.stages flow ≠ .unborn ∧ Settling total settler flow last := by
  refine @invariant_of_run _ _ (step config)
    (fun state => state.stages flow ≠ .unborn ∧ Settling total settler flow state) ?_ _ _ _
    ⟨born, settling⟩ runs
  rintro state action next ⟨born, settling⟩ stepTo
  have moves := moves_of_step stepTo
  exact ⟨born_of_moves moves born, settling.affects (affects_of_moves moves born)⟩

/-- What was counted when a settle began is settled when the flow's settles have ended. -/
theorem settled_of_begins (known : Known state) (begins : Begins state flow action)
    (runs : run (step config) state (action :: actions) = some last)
    (app : (state.flows flow).app ≠ none) :
    last.stages flow ≠ .unborn ∧ ∃ settler, Settling (state.flows flow).count settler flow last := by
  obtain ⟨next, stepTo, rest⟩ := run_cons_eq_some runs
  obtain ⟨settler, settling⟩ := settling_of_begins stepTo begins app
  have born := born_of_moves (moves_of_step stepTo) (born_of_begins known stepTo begins)
  have made := settling_of_run born settling rest
  exact ⟨made.1, settler, made.2⟩

/-- Bytes that a settle found counted, from where the account was exact on, are filed once when the
flow's settles have ended. -/
theorem filed_of_finished {between rest : List (Action Host App Route Label)}
    {middle : State Host App Route Label} {bound : Direction → ℕ} (sound : Sound config first)
    (exact : Tracked (Account.Exact bound) flow first)
    (unclear : .startClear ∉ between ++ action :: rest)
    (meets : Meets (step config) Guarded first (between ++ action :: rest))
    (reaches : run (step config) first between = some middle)
    (runs : run (step config) middle (action :: rest) = some last) {settler : ℕ}
    (settling : Settling (middle.flows flow).count settler flow last)
    (free : ∀ settler, (last.settles settler).flow? ≠ some flow) {direction : Direction} {byte : ℕ}
    (recent : bound direction ≤ byte) (counted : byte < (middle.flows flow).count direction) :
    last.filed flow direction byte = 1 := by
  obtain ⟨_, account, views, _, exactly⟩ := tracked_of_run exact sound
    (fun _ _ ordered exact steps => exact.step ordered steps) (absurd · unclear) meets
    ((run_append reaches _).trans runs)
  have settled := settling.resolve_left fun works => free settler works.1
  exact filed_eq_one views exactly free recent (counted.trans_le (settled direction))

/-- A request is filed once at most, and without a clear every byte that a settle found counted is
filed once.  With clears this takes that the settles of a flow do not overlap, that flows enter their
tables with the current epoch and that the epoch does not wrap around. -/
theorem ledger_counts_once_of_guarded (config : Config) (label : Label) (host : Host) (route : Route)
    (early late : List (Action Host App Route Label)) (first last : State Host App Route Label)
    (reaches : run (step config) (initial label host route) early = some first)
    (ends : run (step config) first late = some last) :
    (Meets (step config) Guarded (initial label host route) (early ++ late) →
      ∀ rest, late = .startClear :: rest →
        ∃ recent, last.filings = recent ++ first.filings ∧
          ∀ filing ∈ recent, ∀ direction byte, (filing.span direction).covers byte = true →
            (first.flows filing.flow).count direction ≤ byte) ∧
      (∀ flow between action rest middle, late = between ++ action :: rest → .startClear ∉ late →
        run (step config) first between = some middle → Begins middle flow action →
        (middle.flows flow).app ≠ none →
        (∀ settler, (last.settles settler).flow? ≠ some flow) →
        (Meets (step config) Guarded (initial label host route) (early ++ late) →
          first.stages flow = .tabled → first.writer.clears = false → ∀ direction byte,
            (first.flows flow).count direction ≤ byte →
            byte < (middle.flows flow).count direction → last.filed flow direction byte = 1) ∧
        (.startClear ∉ early → ∀ direction byte,
          byte < (middle.flows flow).count direction → last.filed flow direction byte = 1)) ∧
      ∀ flow, last.requests flow ≤ 1 := by
  have start := @sound_initial Host App Route Label config label host route
  have whole := (run_append reaches late).trans ends
  refine ⟨?_, ?_, requests_le_one whole⟩
  · rintro guarded rest rfl
    exact filed_after_clear (sound_of_run start (meets_of_append guarded) reaches)
      (meets_of_run_append guarded reaches) ends
  · rintro flow between action rest middle rfl unclear reaching begins app free
    have known := known_of_run ((run_append reaches between).trans reaching)
    obtain ⟨born, settler, settling⟩ := settled_of_begins known begins
      ((run_append reaching _).symm.trans ends) app
    constructor
    · intro guarded tabled done direction byte recent counted
      have sound := sound_of_run start (meets_of_append guarded) reaches
      exact filed_of_finished sound (exact_of_tabled sound tabled done) unclear
        (meets_of_run_append guarded reaches) reaching ((run_append reaching _).symm.trans ends)
        settling free recent counted
    · intro never direction byte counted
      have clearless : .startClear ∉ early ++ (between ++ action :: rest) := by
        rw [mem_append, not_or]
        exact ⟨never, unclear⟩
      exact (complete_of_run clearless whole).filed_eq_one born settling free counted

end Runs

def oneShard : Config :=
  ⟨1, fun _ => .last 0⟩

/-- A connection that its maker settles and tables, and that then uploads ten bytes. -/
def uploads : List (Action Unit Unit Unit Unit) :=
  [.create 0 1 () () (some ()) false, .settle 1, .settle 1, .settle 1, .settle 1, .settle 1,
    .settle 1, .settle 1, .settle 1, .settle 1, .insert 0, .count 0 .upload 10]

def clears : List (Action Unit Unit Unit Unit) :=
  [.startClear, .enter, .visit, .settle 0, .settle 0, .settle 0, .settle 0, .settle 0, .settle 0,
    .settle 0, .settle 0, .visited, .leave, .enter, .take]

/-- Five more bytes, and a settle of the connection. -/
def settlesAgain : List (Action Unit Unit Unit Unit) :=
  [.count 0 .upload 5, .begin 2 0, .settle 2, .settle 2, .settle 2, .settle 2, .settle 2, .settle 2,
    .settle 2, .settle 2, .settle 2]

theorem guarded_clears :
    Meets (step oneShard) Guarded (initial () () ()) (uploads ++ (clears ++ settlesAgain)) := by
  iterate 10
    refine ⟨trivial, ?_⟩
    rintro _ ⟨⟩
  -- The flow is tabled under the epoch it was made in.
  refine ⟨rfl, ?_⟩
  rintro _ ⟨⟩
  refine ⟨trivial, ?_⟩
  rintro _ ⟨⟩
  refine ⟨show 0 + 1 < 2 ^ 32 by decide, ?_⟩
  rintro _ ⟨⟩
  refine ⟨trivial, ?_⟩
  rintro _ ⟨⟩
  refine ⟨?_, ?_⟩
  · rintro _ _ _ _ ⟨⟩ (_ | _ | w) ⟨⟩
  rintro _ ⟨⟩
  iterate 13
    refine ⟨trivial, ?_⟩
    rintro _ ⟨⟩
  refine ⟨?_, ?_⟩
  · rintro (_ | _ | _ | w) ⟨⟩
  rintro _ ⟨⟩
  iterate 9
    refine ⟨trivial, ?_⟩
    rintro _ ⟨⟩
  trivial

/-- Ten bytes are forgotten by the clear, the five that follow are filed. -/
theorem ledger_counts_once_of_guarded_clears :
    ∃ first middle last : State Unit Unit Unit Unit,
      run (step oneShard) (initial () () ()) (uploads ++ clears) = some first ∧
        run (step oneShard) first [.count 0 .upload 5] = some middle ∧
        run (step oneShard) first settlesAgain = some last ∧
        (first.flows 0).count .upload = 10 ∧ (middle.flows 0).count .upload = 15 ∧
        last.filed 0 .upload 12 = 1 := by
  refine ⟨_, _, _, rfl, rfl, rfl, rfl, rfl, ?_⟩
  have once := ledger_counts_once_of_guarded oneShard () () () (uploads ++ clears) settlesAgain _ _
    rfl rfl
  refine (once.2.1 0 [.count 0 .upload 5] _ _ _ rfl (by simp [settlesAgain]) rfl rfl (by decide)
    ?_).1 guarded_clears rfl rfl .upload 12 (by decide) (by decide)
  rintro (_ | _ | _ | settler) ⟨⟩

/-- The settle of a clear has put the new epoch into the tag; another one finds it there and takes
what the first was about to drop. -/
def overlapping : List (Action Unit Unit Unit Unit) :=
  [.startClear, .enter, .visit, .settle 0, .settle 0, .settle 0, .begin 2 0, .settle 2, .settle 2,
    .settle 2, .settle 2, .settle 2, .settle 2, .settle 2, .settle 2, .settle 0, .settle 0,
    .settle 0, .settle 0, .settle 0, .visited, .leave, .enter, .take]

/-- When settles of a flow overlap, a byte counted before a clear started can be filed when the clear
is over. -/
theorem overlapping_files_forgotten_bytes :
    ∃ first cleared last : State Unit Unit Unit Unit,
      run (step oneShard) (initial () () ()) uploads = some first ∧
        run (step oneShard) first overlapping = some cleared ∧
        run (step oneShard) cleared [.settle 2] = some last ∧
        (first.flows 0).count .upload = 10 ∧ cleared.writer = .idle ∧
        cleared.filed 0 .upload 0 = 0 ∧ last.filed 0 .upload 0 = 1 :=
  ⟨_, _, _, rfl, rfl, rfl, rfl, rfl, rfl, rfl⟩

end MeowRs.TrafficLedger
