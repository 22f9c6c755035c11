import MeowRs.TrafficLedger

/-!
# One flow's account with the ledger

A flow as one of its settles sees it: the flow's counters and tag, the epoch, the settle itself, and
what was filed.  When the settles of a flow do not overlap, what the ledger promises about its bytes
is a property of the runs of this small machine.
-/

namespace MeowRs.TrafficLedger

open Nat

/-- How often the settle has a byte in its hands. -/
def Settle.inFlight {Label : Type*} (direction : Direction) (byte : ℕ) (phase : Settle Label) : ℕ :=
  match phase.span? direction with
  | some span => if span.covers byte then 1 else 0
  | none => 0

/-- A flow as a settler sees it. -/
structure Account (Host App Route Label : Type*) where
  epoch : ℕ
  counters : Flow Host App Route
  filings : List Filing
  phase : Settle Label

namespace Account

variable {Host App Route Label : Type*} {flow : ℕ} {account next : Account Host App Route Label}
  {counted : Direction → ℕ}

def bump (account : Account Host App Route Label) : Account Host App Route Label :=
  { account with epoch := account.epoch + 1 }

/-- One access of the settle, or bytes being counted. -/
inductive Step (flow : ℕ) (account : Account Host App Route Label) :
    Account Host App Route Label → Prop
  | count (direction : Direction) (bytes : ℕ) :
      Step flow account { account with counters := account.counters.record direction bytes }
  | begin (free : account.phase = .idle) : Step flow account { account with phase := .started flow }
  | read (phase : account.phase = .started flow) :
      Step flow account { account with phase := .read flow account.epoch }
  | mark (epoch : ℕ) (label : Label) (phase : account.phase = .read flow epoch) :
      Step flow account { account with phase := .marked flow ⟨epoch, label⟩ }
  | drop (mark : Mark Label) (phase : account.phase = .marked flow mark)
      (changed : account.counters.epoch ≠ mark.epoch) :
      Step flow account
        { account with
          counters := { account.counters with epoch := mark.epoch }
          phase := .loading flow mark true .upload .empty false }
  | skip (mark : Mark Label) (phase : account.phase = .marked flow mark)
      (same : account.counters.epoch = mark.epoch) (unknown : account.counters.app = none) :
      Step flow account { account with phase := .idle }
  | keep (mark : Mark Label) (phase : account.phase = .marked flow mark)
      (same : account.counters.epoch = mark.epoch) (known : account.counters.app ≠ none) :
      Step flow account { account with phase := .loading flow mark false .upload .empty false }
  | load (mark : Mark Label) (dropping : Bool) (direction : Direction) (upload : Span) (sent : Bool)
      (phase : account.phase = .loading flow mark dropping direction upload sent) :
      Step flow account
        { account with
          phase := .storing flow mark dropping direction upload sent
            (account.counters.count direction) }
  | storeUpload (mark : Mark Label) (dropping : Bool) (upload : Span) (sent : Bool) (now : ℕ)
      (phase : account.phase = .storing flow mark dropping .upload upload sent now) :
      Step flow account
        { account with
          counters := account.counters.settle .upload now
          phase := .loading flow mark dropping .download
            ⟨account.counters.settled .upload, now⟩
            (decide (account.counters.settled .upload = 0) && decide (0 < now)) }
  | storeDownload (mark : Mark Label) (dropping : Bool) (upload : Span) (sent : Bool) (now : ℕ)
      (phase : account.phase = .storing flow mark dropping .download upload sent now) :
      Step flow account
        { account with
          counters := account.counters.settle .download now
          phase := .owing flow mark dropping upload
            ⟨account.counters.settled .download, now⟩ sent }
  | oweDropped (mark : Mark Label) (upload download : Span) (sent : Bool)
      (phase : account.phase = .owing flow mark true upload download sent) :
      Step flow account
        { account with
          counters := { account.counters with owed := false }
          phase := .idle }
  | oweDatagrams (mark : Mark Label) (upload download : Span) (sent : Bool)
      (phase : account.phase = .owing flow mark false upload download sent)
      (udp : account.counters.udp = true) :
      Step flow account
        { account with phase := .adding flow mark upload download (if sent then 1 else 0) }
  | oweConnection (mark : Mark Label) (upload download : Span) (sent : Bool)
      (phase : account.phase = .owing flow mark false upload download sent)
      (tcp : account.counters.udp = false) :
      Step flow account
        { account with
          counters := { account.counters with owed := false }
          phase := .adding flow mark upload download (if account.counters.owed then 1 else 0) }
  | file (mark : Mark Label) (upload download : Span) (requests : ℕ)
      (phase : account.phase = .adding flow mark upload download requests)
      (current : account.epoch = mark.epoch) :
      Step flow account
        { account with
          filings := ⟨flow, upload, download, requests⟩ :: account.filings
          phase := .idle }
  | refuse (mark : Mark Label) (upload download : Span) (requests : ℕ)
      (phase : account.phase = .adding flow mark upload download requests)
      (idle : account.epoch ≠ mark.epoch ∨
        upload.amount = 0 ∧ download.amount = 0 ∧ requests = 0) :
      Step flow account { account with phase := .idle }

/-- Epochs only grow from the tag over the settle's mark to the ledger, and nothing that was taken
or filed lies beyond the settled counters. -/
structure Ordered (account : Account Host App Route Label) : Prop where
  tag_le : account.counters.epoch ≤ account.epoch
  mark_bounds : ∀ epoch, account.phase.epoch? = some epoch →
    account.counters.epoch ≤ epoch ∧ epoch ≤ account.epoch
  swapped : account.phase.swapped = true → account.phase.epoch? = some account.counters.epoch
  settled_le : ∀ direction, account.counters.settled direction ≤ account.counters.count direction
  now_le : ∀ other mark dropping direction upload sent now,
    account.phase = .storing other mark dropping direction upload sent now →
    now ≤ account.counters.count direction
  taken_le : ∀ direction span, account.phase.span? direction = some span →
    span.stop ≤ account.counters.settled direction
  filed_le : ∀ filing ∈ account.filings, ∀ direction,
    (filing.span direction).stop ≤ account.counters.settled direction

theorem le_record (counters : Flow Host App Route) (direction : Direction) (bytes : ℕ)
    (other : Direction) : counters.count other ≤ (counters.record direction bytes).count other := by
  simp only [Flow.record]
  split
  · subst other
    exact le_add_right _ _
  · exact le_refl _

theorem Ordered.step (ordered : Ordered account) (step : Step flow account next) : Ordered next := by
  obtain ⟨epoch, counters, filings, current⟩ := account
  obtain ⟨tag_le, mark_bounds, swapped, settled_le, now_le, taken_le, filed_le⟩ := ordered
  cases step with
  | count direction bytes =>
    have grows := le_record counters direction bytes
    exact ⟨tag_le, mark_bounds, swapped, fun other => le_trans (settled_le other) (grows other),
      fun other mark dropping reached upload sent now phase =>
        le_trans (now_le other mark dropping reached upload sent now phase) (grows reached),
      taken_le, filed_le⟩
  | _ =>
    cases ‹current = _›
    constructor <;> simp only [Settle.epoch?, Settle.swapped, Settle.span?] at * <;>
      grind [Flow.settle, Direction.pick, Filing.span]

theorem Step.current (ordered : Ordered account) (step : Step flow account next)
    (current : account.counters.epoch = account.epoch) :
    next.counters.epoch = account.epoch ∧
      (next.phase.drops = true → account.phase.drops = true) := by
  obtain ⟨epoch, counters, filings, phase⟩ := account
  have bounds := ordered.mark_bounds
  cases step with
  | count direction bytes => exact ⟨current, id⟩
  | _ =>
    cases ‹phase = _›
    simp only [Settle.epoch?, Settle.drops] at *
    grind [Flow.settle]

theorem Step.finished (ordered : Ordered account) (step : Step flow account next)
    (working : account.phase ≠ .idle) (idle : next.phase = .idle) :
    account.phase.epoch? = some next.counters.epoch := by
  obtain ⟨epoch, counters, filings, phase⟩ := account
  have swapped := ordered.swapped
  cases step with
  | count direction bytes => exact absurd idle working
  | _ =>
    cases ‹phase = _›
    simp only [Settle.epoch?, Settle.swapped] at * <;> grind

theorem Step.read_epoch {epoch : ℕ} (step : Step flow account next)
    (read : next.phase.epoch? = some epoch) :
    account.phase.epoch? = some epoch ∨ epoch = account.epoch := by
  obtain ⟨current, counters, filings, phase⟩ := account
  cases step with
  | count direction bytes => exact Or.inl read
  | _ =>
    simp only [Settle.epoch?] at *
    grind

theorem Ordered.bump (ordered : Ordered account) : Ordered account.bump :=
  { ordered with
    tag_le := le_succ_of_le ordered.tag_le
    mark_bounds := fun epoch read =>
      ⟨(ordered.mark_bounds epoch read).1, le_succ_of_le (ordered.mark_bounds epoch read).2⟩ }

/-- The account some time after a clear moved the epoch to `since`, when `counted` bytes had been
counted and `before` had been filed: whoever works under the new epoch starts behind those bytes. -/
structure Cleared (since : ℕ) (counted : Direction → ℕ) (before : List Filing)
    (account : Account Host App Route Label) : Prop where
  reached : since ≤ account.epoch
  counted_le : ∀ direction, counted direction ≤ account.counters.count direction
  settled : since ≤ account.counters.epoch → ∀ direction,
    counted direction ≤ account.counters.settled direction ∨
      account.phase.unstored direction = true
  loaded : ∀ other mark dropping direction upload sent now,
    account.phase = .storing other mark dropping direction upload sent now → since ≤ mark.epoch →
    counted direction ≤ now
  taken : ∀ direction span epoch, account.phase.span? direction = some span →
    account.phase.epoch? = some epoch → since ≤ epoch → counted direction ≤ span.start
  recent : ∃ recent, account.filings = recent ++ before ∧
    ∀ filing ∈ recent, ∀ direction, counted direction ≤ (filing.span direction).start

theorem Ordered.cleared_bump (ordered : Ordered account) :
    Cleared (account.epoch + 1) account.counters.count account.filings account.bump where
  reached := le_refl _
  counted_le _ := le_refl _
  settled fresh := absurd fresh (not_le_of_gt (Nat.lt_succ_of_le ordered.tag_le))
  loaded _ mark _ _ _ _ _ phase fresh := by
    have bounds := ordered.mark_bounds mark.epoch
    rw [show account.phase = _ from phase] at bounds
    exact absurd fresh (not_le_of_gt (Nat.lt_succ_of_le (bounds rfl).2))
  taken _ _ epoch _ read fresh :=
    absurd fresh
      (not_le_of_gt (Nat.lt_succ_of_le (ordered.mark_bounds epoch read).2))
  recent := ⟨[], rfl, by simp⟩

theorem Cleared.bump {since : ℕ} {before : List Filing}
    (cleared : Cleared since counted before account) : Cleared since counted before account.bump :=
  { cleared with reached := le_succ_of_le cleared.reached }

theorem Cleared.step {since : ℕ} {before : List Filing}
    (ordered : Ordered account) (cleared : Cleared since counted before account)
    (step : Step flow account next) : Cleared since counted before next := by
  obtain ⟨epoch, counters, filings, current⟩ := account
  obtain ⟨tag_le, mark_bounds, swapped, settled_le, now_le, taken_le, filed_le⟩ := ordered
  obtain ⟨reached, counted_le, settled, loaded, taken, recent⟩ := cleared
  cases step with
  | count direction bytes =>
    exact ⟨reached,
      fun other => le_trans (counted_le other) (le_record counters direction bytes other),
      settled, loaded, taken, recent⟩
  | file mark upload download requests phase live =>
    cases phase
    obtain ⟨recent, rfl, behind⟩ := recent
    have fresh : ∀ direction, counted direction ≤ (direction.pick upload download).start :=
      fun direction => taken direction _ mark.epoch rfl rfl (live ▸ reached)
    refine ⟨reached, counted_le, ?_, ?_, ?_, _ :: recent, rfl, ?_⟩
    · exact fun under direction =>
        Or.inl ((settled under direction).resolve_right (by simp [Settle.unstored]))
    · intro _ _ _ _ _ _ _ phase
      cases phase
    · intro direction span _ held
      cases held
    · intro filing member
      obtain rfl | member := List.mem_cons.mp member
      · exact fresh
      · exact behind filing member
  | _ =>
    cases ‹current = _›
    constructor <;> simp only [Settle.epoch?, Settle.swapped, Settle.span?, Settle.unstored] at * <;>
      grind [Flow.settle, Direction.pick, Filing.span]

/-- How often a byte has been filed. -/
def filed (account : Account Host App Route Label) (direction : Direction) (byte : ℕ) : ℕ :=
  account.filings.countP fun filing => (filing.span direction).covers byte

/-- The account while no clear comes: the tag is up to date, nothing is dropped, and every byte from
`first` on that has been settled is filed once or about to be. -/
structure Exact (first : Direction → ℕ) (account : Account Host App Route Label) : Prop where
  current : account.counters.epoch = account.epoch
  keeps : account.phase.drops = false
  once : ∀ direction byte, first direction ≤ byte → byte < account.counters.settled direction →
    account.filed direction byte + account.phase.inFlight direction byte = 1

theorem Ordered.filed_eq_zero (ordered : Ordered account) {direction : Direction} {byte : ℕ}
    (beyond : account.counters.settled direction ≤ byte) : account.filed direction byte = 0 := by
  apply List.countP_eq_zero.mpr
  intro filing member covered
  have below := ordered.filed_le filing member direction
  rw [Span.covers_eq_true] at covered
  omega

/-- A settle that began when `total` bytes had been counted has them settled when it ends. -/
structure Finishing (total : Direction → ℕ) (account : Account Host App Route Label) : Prop where
  known : account.counters.app ≠ none
  counted : ∀ direction, total direction ≤ account.counters.count direction
  loaded : ∀ other mark dropping direction upload sent now,
    account.phase = .storing other mark dropping direction upload sent now →
    total direction ≤ account.counters.settled direction ∨ total direction ≤ now
  settled : ∀ direction, total direction ≤ account.counters.settled direction ∨
    account.phase.ahead direction = true

theorem Finishing.step {total : Direction → ℕ} (finishing : Finishing total account)
    (step : Step flow account next) : Finishing total next := by
  obtain ⟨epoch, counters, filings, phase⟩ := account
  obtain ⟨known, counted, loaded, settled⟩ := finishing
  cases step with
  | count direction bytes =>
    exact ⟨known, fun other => le_trans (counted other) (le_record counters direction bytes other),
      loaded, settled⟩
  | _ =>
    constructor <;> simp only [Settle.ahead] at * <;> grind [Flow.settle]

/-- What has been filed as a request, or is about to be. -/
def requested (account : Account Host App Route Label) : ℕ :=
  (account.filings.map Filing.requests).sum + account.phase.request account.counters.udp

/-- What the flag of a connection or the settled bytes of a UDP flow leave to be requested. -/
def unclaimed (counters : Flow Host App Route) : ℕ :=
  if (if counters.udp then counters.settled .upload = 0 else counters.owed = true) then 1 else 0

/-- No access files a request that was not there before, unless it is left in the counters. -/
theorem Step.requested_le (step : Step flow account next) :
    next.requested + unclaimed next.counters ≤ account.requested + unclaimed account.counters := by
  obtain ⟨epoch, counters, filings, phase⟩ := account
  cases step with
  | count dir bytes => exact le_refl _
  | _ =>
    cases ‹phase = _›
    simp only [requested, unclaimed, Settle.request, Flow.settle, List.map_cons, List.sum_cons]
    grind

/-- The account while no clear comes and none has come: every epoch is the ledger's. -/
structure Calm (account : Account Host App Route Label) : Prop where
  current : account.counters.epoch = account.epoch
  keeps : account.phase.drops = false
  marked : ∀ epoch, account.phase.epoch? = some epoch → epoch = account.epoch

theorem Calm.step (calm : Calm account) (step : Step flow account next) : Calm next := by
  obtain ⟨epoch, counters, filings, phase⟩ := account
  obtain ⟨current, keeps, marked⟩ := calm
  cases step with
  | count dir bytes => exact ⟨current, keeps, marked⟩
  | _ =>
    cases ‹phase = _›
    constructor <;> simp only [Settle.epoch?, Settle.drops, Flow.settle] at * <;> grind

/-- How often a byte is filed, about to be filed or left to be settled. -/
def accounted (account : Account Host App Route Label) (direction : Direction) (byte : ℕ) : ℕ :=
  account.filed direction byte + account.phase.inFlight direction byte +
    if account.counters.settled direction ≤ byte then 1 else 0

theorem Calm.accounted_eq (calm : Calm account) (step : Step flow account next) (dir : Direction)
    (b : ℕ) : next.accounted dir b = account.accounted dir b := by
  obtain ⟨epoch, counters, filings, phase⟩ := account
  obtain ⟨current, keeps, marked⟩ := calm
  cases step with
  | count dir bytes => rfl
  | _ =>
    cases ‹phase = _›
    simp only [accounted, filed, Settle.inFlight, Settle.span?, Settle.epoch?, Settle.drops,
      Flow.settle, Direction.pick] at * <;>
    grind [Filing.span, Span.covers, Span.amount, Direction.pick]

theorem Ordered.accounted_eq_one (ordered : Ordered account) {dir : Direction} {b : ℕ}
    (beyond : account.counters.settled dir ≤ b) : account.accounted dir b = 1 := by
  have held : account.phase.inFlight dir b = 0 := by
    unfold Settle.inFlight
    split
    · rename_i taken
      have bound := ordered.taken_le dir _ taken
      exact if_neg (by rw [Span.covers_eq_true]; omega)
    · rfl
  rw [accounted, ordered.filed_eq_zero beyond, held, if_pos beyond]

theorem Exact.step {first : Direction → ℕ} (ordered : Ordered account) (exact : Exact first account)
    (step : Step flow account next) : Exact first next := by
  have calm : Calm account := ⟨exact.current, exact.keeps, fun _ marked =>
    le_antisymm (ordered.mark_bounds _ marked).2
      (exact.current ▸ (ordered.mark_bounds _ marked).1)⟩
  refine ⟨(calm.step step).current, (calm.step step).keeps, fun dir b recent settled => ?_⟩
  have whole : account.accounted dir b = 1 := by
    by_cases beyond : account.counters.settled dir ≤ b
    · exact ordered.accounted_eq_one beyond
    · rw [accounted, exact.once dir b recent (not_le.mp beyond), if_neg beyond]
  rwa [← calm.accounted_eq step, accounted, if_neg (not_le.mpr settled)] at whole

theorem le_settle (counters : Flow Host App Route) (dir : Direction) (now : ℕ) (o : Direction) :
    counters.settled o ≤ (counters.settle dir now).settled o := by
  simp only [Flow.settle]
  split
  · subst o
    exact le_max_left _ _
  · exact le_refl _

/-- What the counters keep at every access. -/
theorem Step.grows (step : Step flow account next) : next.counters.udp = account.counters.udp ∧
    next.counters.app = account.counters.app ∧ ∀ dir,
      account.counters.count dir ≤ next.counters.count dir ∧
        account.counters.settled dir ≤ next.counters.settled dir := by
  obtain ⟨epoch, counters, filings, phase⟩ := account
  cases step with
  | count dir bytes => exact ⟨rfl, rfl, fun o => ⟨le_record counters dir bytes o, le_refl _⟩⟩
  | storeUpload mark dropping upload sent now | storeDownload mark dropping upload sent now =>
    exact ⟨rfl, rfl, fun o => ⟨le_refl _, le_settle counters _ now o⟩⟩
  | _ => exact ⟨rfl, rfl, fun _ => ⟨le_refl _, le_refl _⟩⟩

/-- What others do to the counters meanwhile does not matter. -/
theorem Finishing.mono {total : Direction → ℕ} (finishing : Finishing total account)
    (phase : next.phase = account.phase) (app : next.counters.app = account.counters.app)
    (grows : ∀ dir, account.counters.count dir ≤ next.counters.count dir ∧
      account.counters.settled dir ≤ next.counters.settled dir) : Finishing total next where
  known := app ▸ finishing.known
  counted dir := (finishing.counted dir).trans (grows dir).1
  loaded other mark dropping dir upload sent now storing :=
    (finishing.loaded other mark dropping dir upload sent now (phase ▸ storing)).imp_left
      fun settled => settled.trans (grows dir).2
  settled dir := (finishing.settled dir).imp (fun settled => settled.trans (grows dir).2)
    fun ahead => phase ▸ ahead

end Account

end MeowRs.TrafficLedger
