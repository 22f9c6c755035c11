import MeowRs.MuxSlots

/-!
# Every run of the pool

The counters, the bounds and the dates of the sessions hold after every action, whichever thread it
belongs to.  An open that starts after a reset sees only generations that were current at or after
that reset, so a session it is handed was not dialled before it unless the generation has come round
again in the meantime.
-/

namespace MeowRs.MuxPool

open List Option Nat

open ActionRuns Shared

def State.held (state : State) (index : ℕ) : ℕ :=
  state.opens.countP fun call => decide (call.slot? = some index)

structure Sound (options : Options) (state : State) : Prop where
  clock : state.shared.generation = state.shared.bumps % options.period
  counted : ∀ index, state.shared.streamsAt index = state.held index
  opensLock : ∀ (index : ℕ) (call : Open), state.opens[index]? = some call →
    call.holdsLock = true → state.shared.lock = some (.opener index)
  resetsLock : ∀ (index : ℕ) (reset : Reset), state.resets[index]? = some reset →
    reset.holdsLock = true → state.shared.lock = some (.resetter index)
  dated : AllDated options state.shared
  valid : ∀ (index : ℕ) (call : Open), state.opens[index]? = some call →
    Valid options state.shared call
  bounded : 0 < options.maxConnections → state.shared.pool.length ≤ options.maxConnections
  capped : options.maxConnections = 0 → ∀ index, state.shared.streamsAt index ≤ slotBound options

theorem sound_initial (opts : Options) : Sound opts initial where
  clock := (zero_mod opts.period).symm
  counted := fun _ => rfl
  opensLock := by simp [initial]
  resetsLock := by simp [initial]
  dated := fun ses hm => by cases hm
  valid := by simp [initial]
  bounded := fun _ => zero_le _
  capped := fun _ _ => zero_le _

section Lists

variable {α : Type*} {list : List α} {i : ℕ} {old new : α}

theorem of_getElem?_set {o : ℕ} {v : α} (hst : (list.set i new)[o]? = some v) :
    (o = i ∧ v = new) ∨ (o ≠ i ∧ list[o]? = some v) := by
  rw [getElem?_set] at hst
  split_ifs at hst with hs
  · cases hst
    exact Or.inl ⟨hs.symm, rfl⟩
  · exact Or.inr ⟨fun eq => hs eq.symm, hst⟩

theorem of_getElem?_append {o : ℕ} {v : α} (hs : (list ++ [new])[o]? = some v) :
    (o = list.length ∧ v = new) ∨ list[o]? = some v := by
  rcases Nat.lt_or_ge o list.length with hi | hb
  · rw [getElem?_append_left hi] at hs
    exact Or.inr hs
  · rw [getElem?_append_right hb, getElem?_singleton] at hs
    split_ifs at hs with hl
    cases hs
    exact Or.inl ⟨by omega, rfl⟩

theorem countP_set_add (hi : list[i]? = some old) (counts : α → Bool) :
    (list.set i new).countP counts + (if counts old then 1 else 0) =
      list.countP counts + if counts new then 1 else 0 := by
  obtain ⟨hin, hh⟩ := List.getElem?_eq_some_iff.mp hi
  have he : (if counts old then 1 else 0) ≤ list.countP counts := by
    split_ifs with hc
    · exact countP_pos_iff.mpr ⟨old, mem_of_getElem? hi, hc⟩
    · exact zero_le _
  rw [countP_set hin, hh]
  omega

end Lists

namespace Sound

variable {opts : Options} {s : State} {i : ℕ} {after : Shared}

section

variable (sound : Sound opts s)
include sound

theorem positive {call : Open} (hi : s.opens[i]? = some call) (ses : ℕ)
    (hh : call.slot? = some ses) : 0 < s.shared.streamsAt ses := by
  rw [sound.counted, State.held, countP_pos_iff]
  exact ⟨call, mem_of_getElem? hi, by simpa using hh⟩

theorem holdsLock_eq_false {i o : ℕ} {call held : Open}
    (hi : s.opens[i]? = some call) (hs : s.opens[o]? = some held)
    (hh : held.holdsLock = true) (ne : o ≠ i) : call.holdsLock = false := by
  by_contra mine
  have ho := sound.opensLock o held hs hh
  rw [sound.opensLock i call hi (by simpa using mine)] at ho
  cases ho
  exact ne rfl

theorem openEvent {call next : Open} (hit : s.opens[i]? = some call)
    (moves : Moves opts i s.shared call after next) :
    Sound opts { s with shared := after, opens := s.opens.set i next } := by
  have pos := sound.positive hit
  have valid := sound.valid i call hit
  have locked := sound.opensLock i call hit
  constructor
  case clock => rw [moves.clock_eq.1, moves.clock_eq.2, sound.clock]
  case counted =>
    intro ses
    have balance := moves.slots pos ses
    have counts := @countP_set_add _ _ _ _ next hit fun call => decide (call.slot? = some ses)
    rw [sound.counted] at balance
    simp only [Open.held, decide_eq_true_eq] at balance counts
    simp only [State.held] at balance ⊢
    omega
  case opensLock =>
    intro o held stored holds
    rcases of_getElem?_set stored with ⟨rfl, rfl⟩ | ⟨ne, prev⟩
    · rcases moves.lock_cases with ⟨same, still⟩ | ⟨-, taken, -, -⟩ | ⟨-, -, given⟩
      · rw [same]
        exact locked (still ▸ holds)
      · exact taken
      · rw [given] at holds
        cases holds
    · have owner := sound.opensLock o held prev holds
      rcases moves.lock_cases with ⟨same, -⟩ | ⟨free, -, -, -⟩ | ⟨mine, -, -⟩
      · rw [same]
        exact owner
      · rw [free] at owner
        cases owner
      · rw [locked mine] at owner
        cases owner
        exact absurd rfl ne
  case resetsLock =>
    intro o reset stored holds
    have owner := sound.resetsLock o reset stored holds
    rcases moves.lock_cases with ⟨same, -⟩ | ⟨free, -, -, -⟩ | ⟨mine, -, -⟩
    · rw [same]
      exact owner
    · rw [free] at owner
      cases owner
    · rw [locked mine] at owner
      cases owner
  case dated => exact moves.dated valid sound.dated
  case valid =>
    intro o held stored
    rcases of_getElem?_set stored with ⟨rfl, rfl⟩ | ⟨ne, prev⟩
    · exact moves.valid sound.clock valid
    · refine (sound.valid o held prev).frame (fun holds => moves.pool_eq ?_)
        (Nat.le_of_eq moves.clock_eq.2.symm)
      exact sound.holdsLock_eq_false hit prev holds ne
  case bounded =>
    exact fun pos => moves.bounded valid pos (sound.bounded pos)
  case capped =>
    exact fun unbounded => moves.capped unbounded valid pos (sound.capped unbounded)

theorem withResets {resets : List Reset} (hc : after.generation = after.bumps % opts.period)
    (hb : s.shared.bumps ≤ after.bumps)
    (hk : ∀ (i : ℕ) (call : Open), s.opens[i]? = some call → call.holdsLock = true →
      after.lock = s.shared.lock ∧ after.pool = s.shared.pool)
    (hsh : after.pool.length ≤ s.shared.pool.length)
    (hs : ∀ i, after.streamsAt i = s.shared.streamsAt i) (hd : AllDated opts after)
    (hr : ∀ (i : ℕ) (reset : Reset), resets[i]? = some reset →
      reset.holdsLock = true → after.lock = some (.resetter i)) :
    Sound opts { s with shared := after, resets := resets } where
  clock := hc
  counted := fun i => (hs i).trans (sound.counted i)
  opensLock := fun i call hi hh =>
    (hk i call hi hh).1.trans (sound.opensLock i call hi hh)
  resetsLock := hr
  dated := hd
  valid := fun i call hi =>
    (sound.valid i call hi).frame (fun hh => (hk i call hi hh).2) hb
  bounded := fun hp => Nat.le_trans hsh (sound.bounded hp)
  capped := fun hu i => by
    rw [hs i]
    exact sound.capped hu i

theorem startOpen :
    Sound opts { s with opens := s.opens ++ [.waiting 0] } where
  clock := sound.clock
  counted := fun i => by
    rw [sound.counted i, State.held, State.held, countP_append]
    rfl
  opensLock := by
    intro i call hi hh
    rcases of_getElem?_append hi with ⟨-, rfl⟩ | hp
    · cases hh
    · exact sound.opensLock i call hp hh
  resetsLock := sound.resetsLock
  dated := sound.dated
  valid := by
    intro i call hi
    rcases of_getElem?_append hi with ⟨-, rfl⟩ | hp
    · trivial
    · exact sound.valid i call hp
  bounded := sound.bounded
  capped := sound.capped

theorem callReset :
    Sound opts
      { s with
        shared := { s.shared with
          generation := (s.shared.generation + 1) % opts.period, bumps := s.shared.bumps + 1 },
        resets := s.resets ++ [.bumped (s.shared.bumps + 1)] } := by
  refine sound.withResets ?_ (Nat.le_succ _) (fun _ _ _ _ => ⟨rfl, rfl⟩) (Nat.le_refl _)
    (fun _ => rfl) (fun ses hm => ?_) fun i reset hi hh => ?_
  · change (s.shared.generation + 1) % opts.period = (s.shared.bumps + 1) % opts.period
    rw [sound.clock, mod_add_mod]
  · obtain ⟨hs, hp⟩ := sound.dated ses hm
    exact ⟨hs, le_succ_of_le hp⟩
  · rcases of_getElem?_append hi with ⟨-, rfl⟩ | prev
    · cases hh
    · exact sound.resetsLock i reset prev hh

theorem die {ses : Session} (hi : s.shared.arena[i]? = some ses) :
    Sound opts
      { s with
        shared := s.shared.withSession i { ses with unusable := true } } := by
  refine sound.withResets sound.clock (Nat.le_refl _) (fun _ _ _ _ => ⟨rfl, rfl⟩) (Nat.le_refl _)
    (fun o => ?_) (sound.dated.withSession hi ⟨rfl, rfl⟩) sound.resetsLock
  rw [streamsAt_withSession hi]
  split_ifs with hs
  · rw [hs, streamsAt_of_found hi]
  · rfl

theorem advanceReset {spawns : Bool} {reset next : Reset} (hi : s.resets[i]? = some reset)
    (hs : resetStep s.shared i spawns reset = some (after, next)) :
    Sound opts { s with shared := after, resets := s.resets.set i next } := by
  have hl := sound.resetsLock i reset hi
  rcases resetStep_cases hs with
    ⟨free, rfl, -, -⟩ | ⟨rfl, still⟩ | ⟨mine, given, gen, rfl⟩
  · refine sound.withResets sound.clock (Nat.le_refl _) (fun o call hst hh => ?_)
      (Nat.le_refl _) (fun _ => rfl) sound.dated fun o held hst hh => ?_
    · have ho := sound.opensLock o call hst hh
      rw [free] at ho
      cases ho
    · rcases of_getElem?_set hst with ⟨rfl, rfl⟩ | ⟨-, hp⟩
      · rfl
      · have ho := sound.resetsLock o held hp hh
        rw [free] at ho
        cases ho
  · refine sound.withResets sound.clock (Nat.le_refl _) (fun _ _ _ _ => ⟨rfl, rfl⟩)
      (Nat.le_refl _) (fun _ => rfl) sound.dated fun o held hst hh => ?_
    rcases of_getElem?_set hst with ⟨rfl, rfl⟩ | ⟨-, hp⟩
    · exact hl (still ▸ hh)
    · exact sound.resetsLock o held hp hh
  · refine sound.withResets sound.clock (Nat.le_refl _) (fun o call hst hh => ?_)
      (length_filter_le _ _) (fun o => streamsAt_drainStale s.shared gen o)
      (sound.dated.drainStale gen) fun o held hst hh => ?_
    · have ho := sound.opensLock o call hst hh
      rw [hl mine] at ho
      cases ho
    · rcases of_getElem?_set hst with ⟨rfl, rfl⟩ | ⟨ne, hp⟩
      · rw [given] at hh
        cases hh
      · have ho := sound.resetsLock o held hp hh
        rw [hl mine] at ho
        cases ho
        exact absurd rfl ne

end

end Sound

variable {opts : Options}

/-- What a step of the pool can be. -/
inductive Performs (options : Options) (state : State) : State → Prop
  | starts : Performs options state { state with opens := state.opens ++ [.waiting 0] }
  | opens {index : ℕ} {call moved : Open} {after : Shared}
      (found : state.opens[index]? = some call)
      (moves : Moves options index state.shared call after moved) :
      Performs options state { state with shared := after, opens := state.opens.set index moved }
  | dies {index : ℕ} {session : Session} (found : state.shared.arena[index]? = some session) :
      Performs options state
        { state with shared := state.shared.withSession index { session with unusable := true } }
  | calls :
      Performs options state
        { state with
          shared := { state.shared with
            generation := (state.shared.generation + 1) % options.period,
            bumps := state.shared.bumps + 1 },
          resets := state.resets ++ [.bumped (state.shared.bumps + 1)] }
  | resets {index : ℕ} {spawns : Bool} {reset moved : Reset} {after : Shared}
      (found : state.resets[index]? = some reset)
      (steps : resetStep state.shared index spawns reset = some (after, moved)) :
      Performs options state { state with shared := after, resets := state.resets.set index moved }

theorem performs_of_step {s next : State} {act : Action}
    (hs : step opts s act = some next) : Performs opts s next := by
  cases act with
  | startOpen =>
    cases hs
    exact .starts
  | openEvent i event =>
    obtain ⟨call, hi, hs⟩ := bind_eq_some_iff.mp hs
    obtain ⟨⟨after, moved⟩, hm, hs⟩ := bind_eq_some_iff.mp hs
    cases hs
    exact .opens hi (moves_of_openStep hm)
  | die i =>
    obtain ⟨ses, hi, hs⟩ := bind_eq_some_iff.mp hs
    cases hs
    exact .dies hi
  | callReset =>
    cases hs
    exact .calls
  | advanceReset i spawns =>
    obtain ⟨reset, hi, hs⟩ := bind_eq_some_iff.mp hs
    obtain ⟨⟨after, moved⟩, hm, hs⟩ := bind_eq_some_iff.mp hs
    cases hs
    exact .resets hi hm

theorem sound_of_step {s next : State} {act : Action} (sound : Sound opts s)
    (hs : step opts s act = some next) : Sound opts next := by
  cases performs_of_step hs with
  | starts => exact sound.startOpen
  | opens hi hm => exact sound.openEvent hi hm
  | dies hi => exact sound.die hi
  | calls => exact sound.callReset
  | resets hi hm => exact sound.advanceReset hi hm

theorem sound_of_run {acts : List Action} {final : State}
    (hr : run (step opts) initial acts = some final) : Sound opts final :=
  invariant_of_run (fun _ _ _ sound hs => sound_of_step sound hs) (sound_initial opts) hr

section Recency

variable {opts : Options} {n : ℕ} {sh after : Shared}

/-- The generation was current at some moment since the reset of that number. -/
def RecentGeneration (options : Options) (number bumps generation : ℕ) : Prop :=
  ∃ count, number ≤ count ∧ count ≤ bumps ∧ generation = count % options.period

def RecentSession (options : Options) (number : ℕ) (shared : Shared) (index : ℕ) : Prop :=
  ∃ session : Session, shared.arena[index]? = some session ∧
    RecentGeneration options number shared.bumps session.generation

/-- The open deals only with generations that were current since the reset of that number. -/
def Recent (options : Options) (number : ℕ) (shared : Shared) : Open → Prop
  | .waiting _ | .locked _ | .redialing _ _ | .finished => True
  | .stale _ generation | .dialing _ _ generation _ | .created _ _ generation _
  | .checked _ generation _ => RecentGeneration options number shared.bumps generation
  | .pruning _ _ _ _ | .aging _ _ _ _ _ | .weighing _ _ _ _ _ _ | .scanning _ _ _
  | .choosing _ _ | .swapping _ _ _ =>
    ∀ index ∈ shared.pool, RecentSession options number shared index
  | .opening _ index | .storing index | .live index => RecentSession options number shared index

theorem RecentGeneration.mono {bumps later gen : ℕ} (hg : bumps ≤ later)
    (hr : RecentGeneration opts n bumps gen) : RecentGeneration opts n later gen := by
  obtain ⟨k, hsi, hp, hs⟩ := hr
  exact ⟨k, hsi, Nat.le_trans hp hg, hs⟩

theorem RecentSession.keep {i : ℕ} (hr : RecentSession opts n sh i) (hk : Keeps sh after)
    (hg : sh.bumps ≤ after.bumps) : RecentSession opts n after i := by
  obtain ⟨ses, hi, hc⟩ := hr
  obtain ⟨later, hst, hs, -⟩ := hk i ses hi
  refine ⟨later, hst, ?_⟩
  rw [hs]
  exact hc.mono hg

theorem Recent.frame {call : Open} (hr : Recent opts n sh call) (hk : Keeps sh after)
    (hg : sh.bumps ≤ after.bumps) (hp : call.holdsLock = true → after.pool = sh.pool) :
    Recent opts n after call := by
  cases call with
  | waiting | locked | redialing | finished => trivial
  | stale | dialing | created | checked => exact hr.mono hg
  | pruning | aging | weighing | scanning | choosing | swapping =>
    intro i hm
    rw [hp rfl] at hm
    exact (hr i hm).keep hk hg
  | opening | storing | live => exact hr.keep hk hg

theorem Thinks.recent {call next : Open} (ht : Thinks opts sh call next)
    (hcl : sh.generation = sh.bumps % opts.period) (hre : n ≤ sh.bumps)
    (hr : Recent opts n sh call) : Recent opts n sh next := by
  have hc : RecentGeneration opts n sh.bumps sh.generation := ⟨sh.bumps, hre, Nat.le_refl _, hcl⟩
  cases ht with
  | load | dial => exact hc
  | alone | pass | redial | abandon => trivial
  | discard | inspect | age | keep | evict | scan | choose | take | retry | dialled | check
  | opened => exact hr

theorem Moves.recent {self : ℕ} {call next : Open} (moves : Moves opts self sh call after next)
    (clock : sh.generation = sh.bumps % opts.period) (reached : n ≤ sh.bumps)
    (valid : Valid opts sh call) (recent : Recent opts n sh call) : Recent opts n after next := by
  have keeps := moves.keeps
  have grows := Nat.le_of_eq moves.clock_eq.2.symm
  cases moves with
  | thinks thinks => exact thinks.recent clock reached recent
  | acquire | unlock => trivial
  | drain att gen now =>
    -- Only sessions of the loaded generation are left in the pool.
    intro i mem
    obtain ⟨-, fresh⟩ := mem_filter.mp mem
    rcases hit : sh.arena[i]? with _ | ses
    · rw [hit] at fresh
      cases fresh
    · rw [hit] at fresh
      have same : ses.generation = gen := eq_of_beq fresh
      have cur : RecentSession opts n sh i := by
        refine ⟨ses, hit, ?_⟩
        rw [same]
        exact recent
      exact cur.keep keeps grows
  | settle att now kept =>
    intro i mem
    exact (recent i (valid.subset (mem_append_left _ mem))).keep keeps grows
  | reserve att i hit => exact (recent i valid.1).keep keeps grows
  | push att gen born lastUsed =>
    exact ⟨_, getElem?_concat_length, recent⟩
  | store i lastUsed hit => exact recent.keep keeps grows
  | release holds hit ends => rcases ends with rfl | rfl <;> trivial

/-- The opens from `first` on were started after the reset of that number. -/
structure Later (options : Options) (number first : ℕ) (state : State) : Prop where
  reached : number ≤ state.shared.bumps
  recent : ∀ (index : ℕ) (call : Open), first ≤ index → state.opens[index]? = some call →
    Recent options number state.shared call

variable {fst : ℕ} {s next : State}

theorem Later.withResets (hl : Later opts n fst s) {resets : List Reset} (hk : Keeps s.shared after)
    (hg : s.shared.bumps ≤ after.bumps) (hp : ∀ (i : ℕ) (call : Open), s.opens[i]? = some call →
      call.holdsLock = true → after.pool = s.shared.pool) :
    Later opts n fst { s with shared := after, resets := resets } where
  reached := Nat.le_trans hl.reached hg
  recent := fun i call hs hi =>
    (hl.recent i call hs hi).frame hk hg (hp i call hi)

theorem later_of_step {act : Action} (sound : Sound opts s) (hl : Later opts n fst s)
    (hs : step opts s act = some next) : Later opts n fst next := by
  cases performs_of_step hs with
  | starts =>
    refine ⟨hl.reached, fun i call hst hi => ?_⟩
    rcases of_getElem?_append hi with ⟨-, rfl⟩ | hp
    · trivial
    · exact hl.recent i call hst hp
  | @opens i call moved sh hi hm =>
    refine ⟨hm.clock_eq.2 ▸ hl.reached, fun o held hst hsto => ?_⟩
    rcases of_getElem?_set hsto with ⟨rfl, rfl⟩ | ⟨ne, hp⟩
    · exact hm.recent sound.clock hl.reached (sound.valid o call hi) (hl.recent o call hst hi)
    · refine (hl.recent o held hst hp).frame hm.keeps
        (Nat.le_of_eq hm.clock_eq.2.symm) fun hh => hm.pool_eq ?_
      exact sound.holdsLock_eq_false hi hp hh ne
  | dies hi =>
    exact hl.withResets (keeps_withSession hi ⟨rfl, rfl⟩) (Nat.le_refl _) fun _ _ _ _ => rfl
  | calls => exact hl.withResets (Keeps.of_arena rfl) (le_succ _) fun _ _ _ _ => rfl
  | @resets i spawns reset moved sh hi hm =>
    rcases resetStep_cases hm with ⟨-, rfl, -, -⟩ | ⟨rfl, -⟩ | ⟨mine, -, gen, rfl⟩
    · exact hl.withResets (Keeps.of_arena rfl) (Nat.le_refl _) fun _ _ _ _ => rfl
    · exact hl.withResets (Keeps.of_arena rfl) (Nat.le_refl _) fun _ _ _ _ => rfl
    · refine hl.withResets (keeps_drainStale s.shared gen) (Nat.le_refl _) fun o call hsto hh => ?_
      have ho := sound.opensLock o call hsto hh
      rw [sound.resetsLock i reset hi mine] at ho
      cases ho

/-- A recent session was dialled after the reset, unless the generation has come round since. -/
theorem RecentSession.number_le_born {i : ℕ} {ses : Session} (hr : RecentSession opts n sh i)
    (hd : AllDated opts sh) (hi : sh.arena[i]? = some ses)
    (hy : sh.bumps < ses.born + opts.period) : n ≤ ses.born := by
  obtain ⟨stored, hh, k, hsi, hp, hs⟩ := hr
  rw [hi] at hh
  cases hh
  obtain ⟨hg, -⟩ := hd ses (mem_of_getElem? hi)
  by_contra older
  have hc : k % opts.period = ses.born % opts.period := by
    rw [← hs, hg]
  have hm : opts.period ∣ k - ses.born := dvd_of_mod_eq_zero (sub_mod_eq_zero_of_mod_eq hc)
  have hf := le_of_dvd (by omega) hm
  omega

end Recency

variable {opts : Options}

/-- The place of the reset's bump among all bumps. -/
def Reset.number : Reset → ℕ
  | .bumped number | .holding number | .loaded number _ | .deferred number | .taskHolding number
  | .taskLoaded number _ | .finished number => number

theorem Reset.number_of_returned {reset : Reset} {n : ℕ}
    (hr : reset.returned? = some n) : reset.number = n := by
  cases reset <;> cases hr <;> rfl

theorem number_eq_of_resetStep {sh after : Shared} {self : ℕ} {spawns : Bool} {reset next : Reset}
    (hs : resetStep sh self spawns reset = some (after, next)) : next.number = reset.number := by
  cases reset with
  | bumped n =>
    simp only [resetStep] at hs
    split_ifs at hs <;> cases hs <;> rfl
  | deferred n =>
    simp only [resetStep] at hs
    split_ifs at hs
    cases hs
    rfl
  | holding | loaded | taskHolding | taskLoaded =>
    cases hs
    rfl
  | finished => cases hs

/-- No reset has a number that no bump had yet. -/
def Numbered (state : State) : Prop :=
  ∀ (index : ℕ) (reset : Reset), state.resets[index]? = some reset →
    reset.number ≤ state.shared.bumps

theorem numbered_of_step {s next : State} {act : Action} (hn : Numbered s)
    (hs : step opts s act = some next) : Numbered next := by
  intro i reset hi
  cases performs_of_step hs with
  | starts | dies => exact hn i reset hi
  | opens hh hm =>
    rw [hm.clock_eq.2]
    exact hn i reset hi
  | calls =>
    rcases of_getElem?_append hi with ⟨-, rfl⟩ | hp
    · exact Nat.le_refl _
    · exact Nat.le_succ_of_le (hn i reset hp)
  | @resets self spawns old moved after hh hm =>
    have hb : after.bumps = s.shared.bumps := by
      rcases resetStep_cases hm with ⟨-, rfl, -, -⟩ | ⟨rfl, -⟩ | ⟨-, -, gen, rfl⟩
      all_goals rfl
    rw [hb]
    rcases of_getElem?_set hi with ⟨rfl, rfl⟩ | ⟨-, hp⟩
    · rw [number_eq_of_resetStep hm]
      exact hn i old hh
    · exact hn i reset hp

theorem numbered_of_run {acts : List Action} {final : State}
    (hr : run (step opts) initial acts = some final) : Numbered final :=
  @invariant_of_run _ _ (step opts) Numbered (fun _ _ _ hn hs => numbered_of_step hn hs) _ _ _
    (fun i reset hi => by simp [initial] at hi) hr

theorem countP_slot (opens : List Open) (i : ℕ) :
    (opens.countP fun call => decide (call.slot? = some i)) =
      (opens.countP fun call => call.inFlight? == some i) +
        opens.countP fun call => call.live? == some i := by
  induction opens with
  | nil => rfl
  | cons call rest ih =>
    simp only [countP_cons, ih]
    cases call <;> simp [Open.slot?, Open.inFlight?, Open.live?] <;> omega

/-- In every run: a session's counter is the number of its opens in flight and of its live streams,
and whoever is to give a slot back finds the counter positive; the pool and the sessions keep within
their bounds; and an open that was started after a reset had returned holds no slot on a session
whose dial began before that reset, if fewer than `period` resets were made since the dial. -/
theorem pool_accounts {options : Options} {actions : List Action} {final : State}
    (runs : run (step options) initial actions = some final) :
    (∀ (index : ℕ) (session : Session), final.shared.arena[index]? = some session →
        session.streams = final.inFlight index + final.live index) ∧
      (∀ call ∈ final.opens, ∀ index, call.slot? = some index → 0 < final.shared.streamsAt index) ∧
      (0 < options.maxConnections → final.shared.pool.length ≤ options.maxConnections) ∧
      (options.maxConnections = 0 → ∀ session ∈ final.shared.arena,
        session.streams ≤ max 1 (max options.minStreams options.maxStreams)) ∧
      ∀ (first second : List Action) (middle : State), actions = first ++ second →
        run (step options) initial first = some middle →
        ∀ reset ∈ middle.resets, ∀ number, reset.returned? = some number →
        ∀ (index : ℕ) (call : Open) (slot : ℕ) (session : Session), middle.opens.length ≤ index →
          final.opens[index]? = some call → call.slot? = some slot →
          final.shared.arena[slot]? = some session →
          final.shared.bumps < session.born + options.period → number ≤ session.born := by
  have sound := sound_of_run runs
  refine ⟨fun index session hf => ?_, fun call hm index hh => ?_, sound.bounded,
    fun hu session hm => ?_, ?_⟩
  · rw [← streamsAt_of_found hf, sound.counted]
    exact countP_slot final.opens index
  · obtain ⟨place, hf⟩ := mem_iff_getElem?.mp hm
    exact sound.positive hf index hh
  · obtain ⟨index, hf⟩ := mem_iff_getElem?.mp hm
    rw [← streamsAt_of_found hf]
    exact sound.capped hu index
  · intro first second middle hsp hbe reset hm number hre index call slot session
      hst hsto hh hf young
    obtain ⟨place, hp⟩ := mem_iff_getElem?.mp hm
    have hr : number ≤ middle.shared.bumps := by
      rw [← Reset.number_of_returned hre]
      exact numbered_of_run hbe place reset hp
    have hfr : Later options number middle.opens.length middle := by
      refine ⟨hr, fun other held hl hpr => ?_⟩
      exact absurd (List.getElem?_eq_some_iff.mp hpr).1 (Nat.not_lt_of_le hl)
    rw [hsp, run_append hbe] at runs
    obtain ⟨-, hla⟩ := @invariant_of_run _ _ (step options)
      (fun state => Sound options state ∧ Later options number middle.opens.length state)
      (fun _ _ _ hb hs => ⟨sound_of_step hb.1 hs, later_of_step hb.1 hb.2 hs⟩)
      middle final second ⟨sound_of_run hbe, hfr⟩ runs
    have hrec := hla.recent index call hst hsto
    have hha : RecentSession options number final.shared slot := by
      cases call <;> first | cases hh; exact hrec | cases hh
    exact hha.number_le_born sound.dated hf young

def advances (index count : ℕ) : List Action :=
  replicate count (.openEvent index (.advance 0))

def twoConnections : Options where
  maxConnections := 2
  minStreams := 1
  maxStreams := 0
  period := 2 ^ 64
  period_pos := by decide

/-- A session is dialled, and a reset takes the free lock and drains the pool. -/
def drainedSession : List Action :=
  [.startOpen] ++ advances 0 6 ++ [.openEvent 0 .dialled] ++ advances 0 2 ++
    [.openEvent 0 .opened] ++ advances 0 1 ++ [.callReset] ++
    replicate 3 (.advanceReset 0 true)

def drainedState : State :=
  ⟨⟨[⟨1, 0, 0, true, 0⟩], [], none, 1, 1⟩, [.live 0], [.finished 1]⟩

def openFresh : List Action :=
  [.startOpen] ++ advances 1 6 ++ [.openEvent 1 .dialled] ++ advances 1 2

def openFreshState : State :=
  ⟨⟨[⟨1, 0, 0, true, 0⟩, ⟨1, 0, 1, false, 1⟩], [1], none, 1, 1⟩, [.live 0, .opening 0 1],
    [.finished 1]⟩

theorem run_openFresh :
    run (step twoConnections) initial (drainedSession ++ openFresh) = some openFreshState := by
  with_unfolding_all rfl

theorem pool_accounts_drainedSession :
    openFreshState.shared.arena[1]? = some ⟨1, 0, 1, false, 1⟩ ∧
      openFreshState.shared.pool.length ≤ 2 ∧
      1 = openFreshState.inFlight 1 + openFreshState.live 1 ∧ 1 ≤ 1 := by
  obtain ⟨hc, -, hb, -, hf⟩ := pool_accounts run_openFresh
  refine ⟨rfl, hb (by decide), hc 1 ⟨1, 0, 1, false, 1⟩ rfl, ?_⟩
  exact hf drainedSession openFresh drainedState rfl (by with_unfolding_all rfl) (.finished 1)
    mem_cons_self 1 rfl 1 (.opening 0 1) 1 ⟨1, 0, 1, false, 1⟩ (Nat.le_refl _) rfl rfl rfl
    (by decide)

/-- The first open dials a session; the second waits on its dial and holds the lock; the first
stream is closed again. -/
def dialInProgress : List Action :=
  [.startOpen] ++ advances 0 6 ++ [.openEvent 0 .dialled] ++ advances 0 2 ++
    [.openEvent 0 .opened] ++ advances 0 1 ++ [.startOpen] ++ advances 1 11 ++ [.openEvent 0 .close]

def dialInProgressState : State :=
  ⟨⟨[⟨0, 0, 0, false, 0⟩], [0], some (.opener 1), 0, 0⟩, [.finished, .dialing 0 0 0 0], []⟩

/-- A reset that finds the lock taken, and no runtime to defer to. -/
def contendedResets (first count : ℕ) : List Action :=
  (range count).flatMap fun index => [.callReset, .advanceReset (first + index) false]

theorem run_contendedResets {s : State} (hl : s.shared.lock ≠ none)
    (hc : s.shared.generation = s.shared.bumps % opts.period) (n : ℕ) :
    run (step opts) s (contendedResets s.resets.length n) =
      some { s with
        shared := { s.shared with
          generation := (s.shared.bumps + n) % opts.period, bumps := s.shared.bumps + n },
        resets := s.resets ++
          (range n).map fun i => .finished (s.shared.bumps + i + 1) } := by
  induction n with
  | zero =>
    simp [contendedResets, ← hc]
  | succ n ih =>
    rw [contendedResets, range_succ, flatMap_append, ← contendedResets, run_append ih]
    simp [run, step, resetStep, hl, Nat.mod_add_mod, Nat.add_assoc]

theorem run_resetsDuringDial {n : ℕ} (hp : 0 < n) :
    ∃ resets : List Reset, .finished 1 ∈ resets ∧
      run (step twoConnections) initial (dialInProgress ++ contendedResets 0 n) =
        some ⟨⟨[⟨0, 0, 0, false, 0⟩], [0], some (.opener 1), n % 2 ^ 64, n⟩,
          [.finished, .dialing 0 0 0 0], resets⟩ := by
  refine ⟨(range n).map fun i => .finished (0 + i + 1), mem_map.mpr ⟨0, mem_range.mpr hp, rfl⟩, ?_⟩
  have resets := @run_contendedResets twoConnections dialInProgressState (nofun)
    rfl n
  refine resets.trans ?_
  simp only [dialInProgressState, twoConnections, Nat.zero_add, nil_append]

/-- The dial fails, and the lock is free for an open that was started after the resets. -/
def openAfterResets : List Action :=
  [.startOpen, .openEvent 1 .dialFails] ++ advances 2 11

theorem run_openAfterResets (resets : List Reset) :
    run (step twoConnections)
        ⟨⟨[⟨0, 0, 0, false, 0⟩], [0], some (.opener 1), 0, 2 ^ 64⟩, [.finished, .dialing 0 0 0 0],
          resets⟩ openAfterResets =
      some ⟨⟨[⟨1, 0, 0, false, 0⟩], [0], none, 0, 2 ^ 64⟩,
        [.finished, .finished, .opening 0 0], resets⟩ := by
  with_unfolding_all rfl

/-- After `2^64` resets during one dial the generation is the old one again: an open that starts
then is handed the session that was dialled before all of them. -/
theorem wrapped_generation_hands_out_old_session :
    ∃ (first second : List Action) (middle final : State) (reset : Reset) (number index : ℕ)
      (call : Open) (slot : ℕ) (session : Session),
      run (step twoConnections) initial first = some middle ∧
      run (step twoConnections) initial (first ++ second) = some final ∧
      reset ∈ middle.resets ∧ reset.returned? = some number ∧ middle.opens.length ≤ index ∧
      final.opens[index]? = some call ∧ call.slot? = some slot ∧
      final.shared.arena[slot]? = some session ∧ session.born < number := by
  obtain ⟨resets, hl, hr⟩ := @run_resetsDuringDial (2 ^ 64) (by decide)
  have hh := (run_append hr openAfterResets).trans (run_openAfterResets resets)
  exact ⟨_, _, _, _, .finished 1, 1, 2, .opening 0 0, 0, ⟨1, 0, 0, false, 0⟩, hr, hh, hl,
    rfl, Nat.le_refl _, rfl, rfl, rfl, Nat.zero_lt_one⟩

end MeowRs.MuxPool
