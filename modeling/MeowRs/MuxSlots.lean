import MeowRs.MuxMoves

/-!
# Slots, lock and bounds of the pool

Each step of an open moves at most one slot, and moves it together with the session's counter.  The
pool changes only under the lock, so what an open has found out about the pool while it holds the
lock stays true until it gives the lock back.
-/

namespace MeowRs.MuxPool

open List Option

namespace Shared

def streamsAt (shared : Shared) (index : ℕ) : ℕ :=
  shared.arena[index]?.elim 0 Session.streams

variable {sh : Shared} {i : ℕ} {ses old : Session}

theorem streamsAt_of_found (hit : sh.arena[i]? = some ses) : sh.streamsAt i = ses.streams := by
  simp [streamsAt, hit]

theorem getElem?_withSession (hit : sh.arena[i]? = some old) (o : ℕ) :
    (sh.withSession i ses).arena[o]? =
      if o = i then some ses else sh.arena[o]? := by
  have inside : i < sh.arena.length := (List.getElem?_eq_some_iff.mp hit).1
  simp only [withSession, getElem?_set, inside, if_true, eq_comm]

theorem streamsAt_withSession (hit : sh.arena[i]? = some old) (o : ℕ) :
    (sh.withSession i ses).streamsAt o =
      if o = i then ses.streams else sh.streamsAt o := by
  rw [streamsAt, getElem?_withSession hit]
  split_ifs <;> rfl

theorem getElem?_drainStale (sh : Shared) (gen o : ℕ) :
    ∃ closes : Session → Bool, (sh.drainStale gen).arena[o]? =
      sh.arena[o]?.map fun ses =>
        if closes ses then { ses with unusable := true } else ses := by
  refine ⟨fun ses => sh.pool.contains o && !(ses.generation == gen), ?_⟩
  simp only [drainStale, getElem?_mapIdx]

theorem streamsAt_drainStale (sh : Shared) (gen o : ℕ) :
    (sh.drainStale gen).streamsAt o = sh.streamsAt o := by
  obtain ⟨closes, hit⟩ := sh.getElem?_drainStale gen o
  rw [streamsAt, streamsAt, hit]
  cases sh.arena[o]? with
  | none => rfl
  | some ses =>
    simp only [map_some, elim_some]
    split_ifs <;> rfl

def Keeps (shared after : Shared) : Prop :=
  ∀ (index : ℕ) (session : Session), shared.arena[index]? = some session →
    ∃ later : Session, after.arena[index]? = some later ∧ later.generation = session.generation ∧
      later.born = session.born

theorem Keeps.of_arena {after : Shared} (same : after.arena = sh.arena) : Keeps sh after :=
  fun _ ses hit => ⟨ses, same ▸ hit, rfl, rfl⟩

theorem keeps_withSession (hit : sh.arena[i]? = some old)
    (same : ses.generation = old.generation ∧ ses.born = old.born) :
    Keeps sh (sh.withSession i ses) := by
  intro o held stored
  rw [getElem?_withSession hit]
  split_ifs with eq
  · subst eq
    rw [hit] at stored
    cases stored
    exact ⟨ses, rfl, same⟩
  · exact ⟨held, stored, rfl, rfl⟩

theorem keeps_drainStale (sh : Shared) (gen : ℕ) : Keeps sh (sh.drainStale gen) := by
  intro i ses hit
  obtain ⟨closes, drained⟩ := sh.getElem?_drainStale gen i
  rw [drained, hit, map_some]
  refine ⟨_, rfl, ?_⟩
  split_ifs <;> exact ⟨rfl, rfl⟩

end Shared

open Shared

namespace Thinks

variable {opts : Options} {sh : Shared} {call next : Open}

theorem slot_eq (thinks : Thinks opts sh call next) : next.slot? = call.slot? := by
  cases thinks <;> rfl

theorem holdsLock_eq (thinks : Thinks opts sh call next) : next.holdsLock = call.holdsLock := by
  cases thinks <;> rfl

end Thinks

def Open.held (call : Open) (index : ℕ) : ℕ :=
  if call.slot? = some index then 1 else 0

theorem Open.held_opening (att ses i : ℕ) :
    (Open.opening att ses).held i = if i = ses then 1 else 0 := by
  simp [held, slot?, inFlight?, live?, eq_comm]

theorem Open.held_of_holdsLock {call : Open} (holds : call.holdsLock = true) (i : ℕ) :
    call.held i = 0 := by
  cases call <;> first | rfl | cases holds

theorem Open.holdsLock_of_slot {call : Open} {i : ℕ} (holds : call.slot? = some i) :
    call.holdsLock = false := by
  cases call <;> first | rfl | cases holds

namespace Moves

variable {opts : Options} {self : ℕ} {sh after : Shared} {call next : Open}

section

variable (moves : Moves opts self sh call after next)
include moves

theorem slots (pos : ∀ i, call.slot? = some i → 0 < sh.streamsAt i) (i : ℕ) :
    after.streamsAt i + call.held i = sh.streamsAt i + next.held i := by
  cases moves with
  | thinks thinks => rw [Open.held, Open.held, thinks.slot_eq]
  | acquire att free => rfl
  | drain att gen now => rw [streamsAt_drainStale]; rfl
  | settle att now kept => rfl
  | @reserve att o ses hit =>
    change (sh.withSession o _).streamsAt i + 0 = _ + Open.held (.opening _ _) i
    rw [streamsAt_withSession hit, Open.held_opening]
    split_ifs with same
    · rw [same, streamsAt_of_found hit]
    · rfl
  | push att gen born lastUsed =>
    change Shared.streamsAt _ i + 0 = _
    rw [Open.held_opening, streamsAt, streamsAt]
    rcases Nat.lt_trichotomy i sh.arena.length with inside | rfl | beyond
    · rw [getElem?_append_left inside, if_neg (Nat.ne_of_lt inside)]
    · simp
    · rw [if_neg (Nat.ne_of_gt beyond), getElem?_eq_none (Nat.le_of_lt beyond),
        getElem?_eq_none]
      rw [length_append]
      exact beyond
  | @store o lastUsed ses hit =>
    rw [streamsAt_withSession hit]
    split_ifs with same
    · rw [same, streamsAt_of_found hit]
      rfl
    · rfl
  | @release _ _ o ses holds hit ends =>
    have ended : next.held i = 0 := by rcases ends with rfl | rfl <;> rfl
    have counter := pos o holds
    rw [streamsAt_of_found hit] at counter
    rw [Shared.release, streamsAt_withSession hit, ended, Open.held, holds]
    by_cases same : i = o
    · rw [if_pos same, same, streamsAt_of_found hit, if_pos rfl, if_neg (Nat.ne_of_gt counter)]
      exact Nat.sub_add_cancel counter
    · rw [if_neg same, if_neg fun eq => same (some.inj eq).symm]
  | unlock holds =>
    rw [Open.held_of_holdsLock holds]
    rfl

theorem lock_cases :
    (after.lock = sh.lock ∧ next.holdsLock = call.holdsLock) ∨
      (sh.lock = none ∧ after.lock = some (.opener self) ∧ call.holdsLock = false ∧
        next.holdsLock = true) ∨
      (call.holdsLock = true ∧ after.lock = none ∧ next.holdsLock = false) := by
  cases moves with
  | thinks thinks => exact .inl ⟨rfl, thinks.holdsLock_eq⟩
  | acquire att free => exact .inr (.inl ⟨free, rfl, rfl, rfl⟩)
  | drain att gen now | settle att now kept | store o lastUsed hit => exact .inl ⟨rfl, rfl⟩
  | reserve att o hit | push att gen born lastUsed => exact .inr (.inr ⟨rfl, rfl, rfl⟩)
  | release holds hit ends =>
    refine .inl ⟨rfl, ?_⟩
    rw [Open.holdsLock_of_slot holds]
    rcases ends with rfl | rfl <;> rfl
  | unlock holds => exact .inr (.inr ⟨holds, rfl, rfl⟩)

theorem pool_eq (unlocked : call.holdsLock = false) : after.pool = sh.pool := by
  cases moves with
  | thinks | acquire | reserve | store | release | unlock => rfl
  | drain | settle | push => cases unlocked

theorem clock_eq :
    after.generation = sh.generation ∧ after.bumps = sh.bumps := by
  cases moves <;> exact ⟨rfl, rfl⟩

theorem keeps : Keeps sh after := by
  cases moves with
  | thinks | acquire | settle | unlock => exact Keeps.of_arena rfl
  | drain att gen now => exact keeps_drainStale sh gen
  | @reserve att o ses hit =>
    have kept := @keeps_withSession sh o { ses with streams := ses.streams + 1 }
      ses hit ⟨rfl, rfl⟩
    exact kept
  | store o lastUsed hit | release holds hit ends => exact keeps_withSession hit ⟨rfl, rfl⟩
  | push att gen born lastUsed =>
    intro i ses hit
    refine ⟨ses, ?_, rfl, rfl⟩
    have inside : i < sh.arena.length := (List.getElem?_eq_some_iff.mp hit).1
    rwa [getElem?_append_left inside]

end

end Moves

variable {opts : Options}

def Room (options : Options) (shared : Shared) : Prop :=
  0 < options.maxConnections → shared.pool.length < options.maxConnections

/-- The generation is the one of the given number of resets. -/
def Dated (options : Options) (shared : Shared) (generation born : ℕ) : Prop :=
  generation = born % options.period ∧ born ≤ shared.bumps

/-- What an open knows about the pool. -/
def Valid (options : Options) (shared : Shared) : Open → Prop
  | .pruning _ _ kept rest => (kept ++ rest).Sublist shared.pool
  | .aging _ _ kept index rest => (kept ++ index :: rest).Sublist shared.pool
  | .weighing _ _ _ kept index rest => (kept ++ index :: rest).Sublist shared.pool
  | .scanning _ best rest =>
    (best = none → rest = shared.pool) ∧ (∀ index ∈ rest, index ∈ shared.pool) ∧
      ∀ index load, best = some (index, load) → index ∈ shared.pool
  | .choosing _ index => index ∈ shared.pool
  | .swapping _ index load =>
    index ∈ shared.pool ∧ reuse options shared.pool.length load = true
  | .redialing _ _ => Room options shared
  | .dialing _ _ generation born | .created _ _ generation born | .checked _ generation born =>
    Room options shared ∧ Dated options shared generation born
  | .waiting _ | .locked _ | .stale _ _ | .opening _ _ | .storing _ | .live _ | .finished => True

theorem Valid.frame {sh after : Shared} {call : Open} (valid : Valid opts sh call)
    (pool : call.holdsLock = true → after.pool = sh.pool)
    (bumps : sh.bumps ≤ after.bumps) : Valid opts after call := by
  cases call with
  | waiting | locked | stale | opening | storing | live | finished => trivial
  | pruning | aging | weighing | choosing | swapping | scanning | redialing =>
    simpa only [Valid, Room, pool rfl] using valid
  | dialing | created | checked =>
    obtain ⟨room, same, past⟩ := valid
    refine ⟨?_, same, Nat.le_trans past bumps⟩
    rwa [Room, pool rfl]

theorem mem_of_fewer {best : Option (ℕ × ℕ)} {i load o least : ℕ}
    (hit : fewer best i load = some (o, least)) : o = i ∨ ∃ load, best = some (o, load) := by
  rcases best with _ | ⟨old, few⟩
  · cases hit
    exact .inl rfl
  · simp only [fewer] at hit
    split_ifs at hit
    · cases hit
      exact .inl rfl
    · cases hit
      exact .inr ⟨_, rfl⟩

theorem fewer_ne_none (best : Option (ℕ × ℕ)) (i load : ℕ) : fewer best i load ≠ none := by
  rcases best with _ | ⟨old, few⟩
  · simp [fewer]
  · simp only [fewer]
    split_ifs <;> simp

theorem room_of_refused {sh : Shared} {load : ℕ}
    (refused : reuse opts sh.pool.length load = false) : Room opts sh := by
  intro pos
  simp only [reuse, pos, if_true] at refused
  split_ifs at refused
  simp only [Bool.or_eq_false_iff, decide_eq_false_iff_not] at refused
  exact Nat.lt_of_not_le refused.1

theorem Thinks.valid {sh : Shared} {call next : Open} (thinks : Thinks opts sh call next)
    (clock : sh.generation = sh.bumps % opts.period)
    (valid : Valid opts sh call) : Valid opts sh next := by
  cases thinks with
  | load | opened | abandon => trivial
  | discard att now kept i rest =>
    exact ((sublist_cons_self i rest).append_left kept).trans valid
  | inspect | age => exact valid
  | keep att now recent kept i rest => simpa [Valid] using valid
  | evict att now recent kept i rest =>
    exact ((sublist_cons_self i rest).append_left kept).trans valid
  | scan att best i load rest =>
    obtain ⟨-, ms, chosen⟩ := valid
    refine ⟨fun none => absurd none (fewer_ne_none best i load), fun o mem =>
      ms o (mem_cons_of_mem i mem), fun o least hit => ?_⟩
    rcases mem_of_fewer hit with rfl | ⟨load, prev⟩
    · exact ms o mem_cons_self
    · exact chosen o load prev
  | alone att =>
    intro pos
    rw [← valid.1 rfl]
    exact pos
  | choose att i load => exact valid.2.2 i load rfl
  | take att i load reused => exact ⟨valid, reused⟩
  | pass att i load refused => exact room_of_refused refused
  | retry att i load => exact valid.1
  | dial att round => exact ⟨valid, clock, Nat.le_refl _⟩
  | dialled | check => exact valid
  | redial att round gen born => exact valid.1

namespace Moves

variable {opts : Options} {self : ℕ} {sh after : Shared} {call next : Open}

theorem valid (moves : Moves opts self sh call after next)
    (clock : sh.generation = sh.bumps % opts.period)
    (valid : Valid opts sh call) : Valid opts after next := by
  cases moves with
  | thinks thinks => exact thinks.valid clock valid
  | acquire | reserve | push | store | unlock => trivial
  | drain att gen now => exact List.Sublist.refl _
  | settle att now kept =>
    exact ⟨fun _ => rfl, fun _ mem => mem, nofun⟩
  | release holds hit ends => rcases ends with rfl | rfl <;> trivial

theorem bounded (moves : Moves opts self sh call after next) (valid : Valid opts sh call)
    (pos : 0 < opts.maxConnections) (pre : sh.pool.length ≤ opts.maxConnections) :
    after.pool.length ≤ opts.maxConnections := by
  cases moves with
  | thinks | acquire | reserve | store | release | unlock => exact pre
  | drain att gen now => exact Nat.le_trans (length_filter_le _ _) pre
  | settle att now kept =>
    have shorter : kept.length ≤ sh.pool.length := by simpa using valid.length_le
    exact Nat.le_trans shorter pre
  | push att gen born lastUsed =>
    rw [length_append]
    exact valid.1 pos

end Moves

variable {opts : Options} {sh after : Shared}

def slotBound (options : Options) : ℕ :=
  max 1 (max options.minStreams options.maxStreams)

theorem lt_slotBound_of_reuse (unbounded : opts.maxConnections = 0) {pooled load : ℕ}
    (reused : reuse opts pooled load = true) : load < slotBound opts := by
  simp only [reuse, unbounded, Nat.lt_irrefl, if_false] at reused
  split_ifs at reused with idle
  · rw [slotBound]
    omega
  · simp only [Bool.or_eq_true, Bool.and_eq_true, decide_eq_true_eq] at reused
    rw [slotBound]
    omega

theorem Moves.capped {self : ℕ} {call next : Open} (moves : Moves opts self sh call after next)
    (unbounded : opts.maxConnections = 0) (valid : Valid opts sh call)
    (pos : ∀ i, call.slot? = some i → 0 < sh.streamsAt i)
    (pre : ∀ i, sh.streamsAt i ≤ slotBound opts) (i : ℕ) : after.streamsAt i ≤ slotBound opts := by
  have balance := moves.slots pos i
  cases moves with
  | thinks | acquire | settle | unlock => exact pre i
  | drain att gen now =>
    rw [streamsAt_drainStale]
    exact pre i
  | @reserve att o ses hit =>
    change (sh.withSession o _).streamsAt i ≤ _
    rw [streamsAt_withSession hit]
    split_ifs
    · exact lt_slotBound_of_reuse unbounded valid.2
    · exact pre i
  | push att gen born lastUsed =>
    rw [Open.held_opening] at balance
    split_ifs at balance with new
    · have fresh : sh.streamsAt i = 0 := by simp [streamsAt, new]
      have one : 1 ≤ slotBound opts := Nat.le_max_left _ _
      exact Nat.le_trans (by omega) one
    · exact Nat.le_trans (by omega) (pre i)
  | @store o lastUsed ses hit =>
    rw [streamsAt_withSession hit]
    split_ifs with same
    · rw [← streamsAt_of_found hit]
      exact pre o
    · exact pre i
  | release holds hit ends =>
    have ended : next.held i = 0 := by rcases ends with rfl | rfl <;> rfl
    exact Nat.le_trans (by omega) (pre i)

def AllDated (options : Options) (shared : Shared) : Prop :=
  ∀ session ∈ shared.arena, Dated options shared session.generation session.born

theorem AllDated.withSession {sh : Shared} {i : ℕ} {ses old : Session} (pre : AllDated opts sh)
    (hit : sh.arena[i]? = some old) (same : ses.generation = old.generation ∧ ses.born = old.born) :
    AllDated opts (sh.withSession i ses) := by
  intro o mem
  rcases mem_or_eq_of_mem_set mem with prev | rfl
  · exact pre o prev
  · rw [same.1, same.2]
    exact pre old (mem_of_getElem? hit)

theorem AllDated.drainStale {sh : Shared} (pre : AllDated opts sh)
    (gen : ℕ) : AllDated opts (sh.drainStale gen) := by
  intro ses mem
  obtain ⟨i, hit⟩ := mem_iff_getElem?.mp mem
  obtain ⟨closes, drained⟩ := sh.getElem?_drainStale gen i
  rw [drained] at hit
  obtain ⟨old, stored, rfl⟩ := map_eq_some_iff.mp hit
  have dated := pre old (mem_of_getElem? stored)
  split_ifs <;> exact dated

theorem Moves.dated {self : ℕ} {call next : Open} (moves : Moves opts self sh call after next)
    (valid : Valid opts sh call) (pre : AllDated opts sh) : AllDated opts after := by
  cases moves with
  | thinks | acquire | settle | unlock => exact pre
  | drain att gen now => exact pre.drainStale gen
  | @reserve att o ses hit =>
    have dated := @AllDated.withSession _ _ _ { ses with streams := ses.streams + 1 } _
      pre hit ⟨rfl, rfl⟩
    exact dated
  | push att gen born lastUsed =>
    intro ses mem
    rcases mem_append.mp mem with prev | new
    · exact pre ses prev
    · cases mem_singleton.mp new
      exact valid.2
  | store o lastUsed hit | release holds hit ends => exact pre.withSession hit ⟨rfl, rfl⟩

/-- What a step of a reset or of its task can do. -/
theorem resetStep_cases {self : ℕ} {spawns : Bool} {reset next : Reset}
    (steps : resetStep sh self spawns reset = some (after, next)) :
    (sh.lock = none ∧ after = { sh with lock := some (.resetter self) } ∧
        reset.holdsLock = false ∧ next.holdsLock = true) ∨
      (after = sh ∧ next.holdsLock = reset.holdsLock) ∨
      (reset.holdsLock = true ∧ next.holdsLock = false ∧
        ∃ gen, after = (sh.drainStale gen).unlock) := by
  cases reset with
  | bumped n =>
    simp only [resetStep] at steps
    split_ifs at steps with free spawned
    · cases steps
      exact .inl ⟨free, rfl, rfl, rfl⟩
    all_goals
      cases steps
      exact .inr (.inl ⟨rfl, rfl⟩)
  | holding n | taskHolding n =>
    cases steps
    exact .inr (.inl ⟨rfl, rfl⟩)
  | loaded n gen | taskLoaded n gen =>
    cases steps
    exact .inr (.inr ⟨rfl, rfl, gen, rfl⟩)
  | deferred n =>
    simp only [resetStep] at steps
    split_ifs at steps with free
    cases steps
    exact .inl ⟨free, rfl, rfl, rfl⟩
  | finished n => cases steps

end MeowRs.MuxPool
