import MeowRs.ActionRuns

/-!
# Refreshes of a rule provider

A refresh takes a generation when its fetch completes, then parses its payload and writes the cache
file, and then installs the rules; each of the three runs under a lock of its own, so refreshes may
overtake each other between them.  The download of the start may be adopted as the first generation.
-/

namespace MeowRs.RuleRefresh

open ActionRuns Function

section Slots

variable {A : Type}

/-- A value with the generation it comes from. -/
structure Slot (A : Type) where
  gen : Nat
  value : A

/-- Replace the value unless it is at least as new. -/
def Slot.put (slot : Slot A) (gen : Nat) (value : A) : Slot A :=
  if gen ≤ slot.gen then slot else ⟨gen, value⟩

/-- The slot has the content of its generation, or is untouched. -/
structure Slot.Holds (content : Nat → Option A) (initial : A) (slot : Slot A) : Prop where
  value : slot.value = (content slot.gen).getD initial
  known : slot.gen = 0 ∨ (content slot.gen).isSome

variable {content later : Nat → Option A} {initial v : A} {slot : Slot A} {gen : Nat}

theorem Slot.le_put (slot : Slot A) (gen : Nat) (v : A) :
    slot.gen ≤ (slot.put gen v).gen ∧ gen ≤ (slot.put gen v).gen := by
  rw [put]
  split
  case isTrue older => exact ⟨le_rfl, older⟩
  case isFalse newer => exact ⟨Nat.le_of_not_le newer, le_rfl⟩

theorem Slot.Holds.put (hh : slot.Holds content initial) (hi : content gen = some v) :
    (slot.put gen v).Holds content initial := by
  rw [Slot.put]
  split
  · exact hh
  · exact ⟨by rw [hi]; rfl, .inr (by rw [hi]; rfl)⟩

theorem Slot.Holds.congr (hh : slot.Holds content initial)
    (hs : slot.gen = 0 ∨ (content slot.gen).isSome → later slot.gen = content slot.gen) :
    slot.Holds later initial := by
  obtain ⟨v, hk⟩ := hh
  exact ⟨by rw [hs hk, v], by rwa [hs hk]⟩

end Slots

variable {Payload Rules Format : Type}

structure Provider (Payload Rules Format : Type) where
  parse : Payload → Option (Rules × Format)
  hasCache : Bool

/-- How far the call that was given a generation has come. -/
inductive Stage (Payload Rules Format : Type) where
  | free
  | fetched (bytes : Payload)
  | parsed (bytes : Payload) (found : Rules × Format)
  | returned (bytes : Payload)

def Stage.payload? : Stage Payload Rules Format → Option Payload
  | free => none
  | fetched bytes | parsed bytes _ | returned bytes => some bytes

/-- The provider with its calls.  `refreshed` records that a refresh completed its fetch; until then
a call has no part in the state. -/
structure State (Payload Rules Format : Type) where
  refreshGen : Nat
  cache : Slot (Option Payload)
  live : Slot (Rules × Format)
  stages : Nat → Stage Payload Rules Format
  refreshed : Bool

namespace State

def initial (cache : Option Payload) (rules : Rules × Format) : State Payload Rules Format :=
  ⟨1, ⟨0, cache⟩, ⟨0, rules⟩, fun _ => .free, false⟩

def setStage (state : State Payload Rules Format) (gen : Nat)
    (stage : Stage Payload Rules Format) : State Payload Rules Format :=
  { state with stages := update state.stages gen stage }

/-- Give a payload the next generation. -/
def assign (state : State Payload Rules Format) (bytes : Payload) : State Payload Rules Format :=
  { state.setStage state.refreshGen (.fetched bytes) with refreshGen := state.refreshGen + 1 }

end State

inductive Action (Payload : Type) where
  | fetchCompletes (bytes : Payload)
  | adoptDownload (bytes : Payload)
  | parsePayload (gen : Nat)
  | installPayload (gen : Nat)

variable (provider : Provider Payload Rules Format)

def step (state : State Payload Rules Format) :
    Action Payload → Option (State Payload Rules Format)
  | .fetchCompletes bytes => some { state.assign bytes with refreshed := true }
  | .adoptDownload bytes => some (if state.refreshGen = 1 then state.assign bytes else state)
  | .parsePayload gen =>
    match state.stages gen with
    | .fetched bytes =>
      match provider.parse bytes with
      | none => some (state.setStage gen (.returned bytes))
      | some found =>
        let cache := if provider.hasCache then state.cache.put gen (some bytes) else state.cache
        some ({ state with cache := cache }.setStage gen (.parsed bytes found))
    | _ => none
  | .installPayload gen =>
    match state.stages gen with
    | .parsed bytes found =>
      some ({ state with live := state.live.put gen found }.setStage gen (.returned bytes))
    | _ => none

/-- The payload of a generation and what it parsed to. -/
def source (state : State Payload Rules Format) (gen : Nat) : Option (Payload × Rules × Format) :=
  (state.stages gen).payload?.bind fun bytes => (provider.parse bytes).map (bytes, ·)

def rulesOf (state : State Payload Rules Format) (gen : Nat) : Option (Rules × Format) :=
  (source provider state gen).map Prod.snd

def bytesOf (state : State Payload Rules Format) (gen : Nat) : Option (Option Payload) :=
  (source provider state gen).map fun found => some found.1

/-- The highest generation whose payload parsed, or 0. -/
def IsNewest (state : State Payload Rules Format) (gen : Nat) : Prop :=
  (gen = 0 ∨ (source provider state gen).isSome) ∧
    ∀ other, (source provider state other).isSome → other ≤ gen

/-- The payload of the generation was written and installed, or a newer one was. -/
def Done (state : State Payload Rules Format) (gen : Nat) : Prop :=
  (provider.hasCache = true → gen ≤ state.cache.gen) ∧ gen ≤ state.live.gen

structure Sound (cache : Option Payload) (rules : Rules × Format)
    (state : State Payload Rules Format) : Prop where
  live : state.live.Holds (rulesOf provider state) rules
  file : state.cache.Holds (bytesOf provider state) cache
  started : 0 < state.refreshGen ∧ (state.refreshed = true → 1 < state.refreshGen)
  numbered : ∀ gen, state.stages gen ≠ .free → 0 < gen ∧ gen < state.refreshGen
  parsed : ∀ gen bytes found, state.stages gen = .parsed bytes found →
    provider.parse bytes = some found ∧ (provider.hasCache = true → gen ≤ state.cache.gen)
  returned : ∀ gen bytes, state.stages gen = .returned bytes → (provider.parse bytes).isSome →
    Done provider state gen

variable {provider} {cache : Option Payload} {rules found : Rules × Format}
  {state next : State Payload Rules Format} {gen : Nat} {bytes : Payload}
  {stage : Stage Payload Rules Format} {action : Action Payload}

theorem stages_setStage {o : Nat} {held : Stage Payload Rules Format}
    (hh : (state.setStage gen stage).stages o = held) :
    o = gen ∧ stage = held ∨ state.stages o = held := by
  simp only [State.setStage] at hh
  by_cases hs : o = gen
  · rw [hs, update_self] at hh
    exact .inl ⟨hs, hh⟩
  · rw [update_of_ne hs] at hh
    exact .inr hh

section Steps

variable (sound : Sound provider cache rules state)
include sound

/-- A call with a payload goes on with it. -/
theorem Sound.setStage (hfe : (state.stages gen).payload? = some bytes)
    (hk : stage.payload? = some bytes) (hpar : ∀ bytes found, stage = .parsed bytes found →
      provider.parse bytes = some found ∧ (provider.hasCache = true → gen ≤ state.cache.gen))
    (ret : ∀ bytes, stage = .returned bytes → (provider.parse bytes).isSome →
      Done provider state gen) : Sound provider cache rules (state.setStage gen stage) := by
  have hs : source provider (state.setStage gen stage) = source provider state := by
    funext o
    by_cases hg : o = gen
    · simp only [hg, source, State.setStage, update_self, hk, hfe]
    · simp only [source, State.setStage, update_of_ne hg]
  refine ⟨sound.live.congr fun _ => ?_, sound.file.congr fun _ => ?_, sound.started, ?_, ?_, ?_⟩
  · rw [rulesOf, hs, rulesOf]
  · rw [bytesOf, hs, bytesOf]
  · intro o hh
    by_cases hg : o = gen
    · refine hg ▸ sound.numbered gen fun hf => ?_
      simp [hf, Stage.payload?] at hfe
    · exact sound.numbered o (by simpa only [State.setStage, update_of_ne hg] using hh)
  · intro o bytes found hp
    rcases stages_setStage hp with ⟨rfl, hst⟩ | hp
    · exact hpar bytes found hst
    · exact sound.parsed o bytes found hp
  · intro o bytes hr
    rcases stages_setStage hr with ⟨rfl, hst⟩ | hr
    · exact ret bytes hst
    · exact sound.returned o bytes hr

theorem Sound.assign (bytes : Payload) {later : Bool} :
    Sound provider cache rules { state.assign bytes with refreshed := later } := by
  have hf : state.stages state.refreshGen = .free :=
    by_contra fun hh => lt_irrefl _ (sound.numbered _ hh).2
  have hs {gen : Nat} (hk : gen = 0 ∨ (source provider state gen).isSome) :
      source provider { state.assign bytes with refreshed := later } gen =
        source provider state gen := by
    have ho : gen ≠ state.refreshGen := by
      rintro rfl
      rcases hk with hz | hso
      · exact sound.started.1.ne' hz
      · simp [source, hf, Stage.payload?] at hso
    simp only [source, State.assign, State.setStage, update_of_ne ho]
  refine ⟨sound.live.congr fun hk => ?_, sound.file.congr fun hk => ?_,
    ⟨Nat.succ_pos _, fun _ => Nat.succ_lt_succ sound.started.1⟩, ?_, ?_, ?_⟩
  · exact congrArg (Option.map Prod.snd) (hs (by simpa [rulesOf] using hk))
  · exact congrArg (Option.map _) (hs (by simpa [bytesOf] using hk))
  · intro gen hh
    by_cases hn : gen = state.refreshGen
    · exact hn ▸ ⟨sound.started.1, Nat.lt_succ_self _⟩
    · simp only [State.assign, State.setStage, update_of_ne hn] at hh
      exact (sound.numbered gen hh).imp_right Nat.lt_succ_of_lt
  · intro gen bytes found hp
    rcases stages_setStage hp with ⟨-, hst⟩ | hp
    · cases hst
    · exact sound.parsed gen bytes found hp
  · intro gen bytes hr
    rcases stages_setStage hr with ⟨-, hst⟩ | hr
    · cases hst
    · exact sound.returned gen bytes hr

/-- The cache file is written, and everything else stays. -/
theorem Sound.writeCache {written : Slot (Option Payload)}
    (hf : written.Holds (bytesOf provider state) cache) (hg : state.cache.gen ≤ written.gen) :
    Sound provider cache rules { state with cache := written } :=
  { sound with
    file := hf
    parsed := fun gen bytes found hpa => (sound.parsed gen bytes found hpa).imp_right
      fun hp hc => (hp hc).trans hg
    returned := fun gen bytes hr hs =>
      (sound.returned gen bytes hr hs).imp_left fun hp hc =>
        (hp hc).trans hg }

theorem Sound.install (hso : rulesOf provider state gen = some found) :
    Sound provider cache rules { state with live := state.live.put gen found } :=
  { sound with
    live := sound.live.put hso
    returned := fun o bytes hr hs =>
      (sound.returned o bytes hr hs).imp_right (le_trans · (state.live.le_put gen found).1) }

theorem Sound.step (hs : step provider state action = some next) :
    Sound provider cache rules next := by
  cases action with
  | fetchCompletes bytes =>
    cases hs
    exact sound.assign bytes
  | adoptDownload bytes =>
    cases hs
    split
    · exact sound.assign bytes
    · exact sound
  | parsePayload gen =>
    simp only [RuleRefresh.step] at hs
    split at hs <;> try cases hs
    rename_i bytes isFetched
    have hpa : (state.stages gen).payload? = some bytes := by rw [isFetched]; rfl
    split at hs <;> cases hs
    · rename_i unparsed
      refine sound.setStage hpa rfl nofun ?_
      rintro _ ⟨⟩ hsom
      simp [unparsed] at hsom
    · rename_i found hp
      have hso : bytesOf provider state gen = some (some bytes) := by
        simp [bytesOf, source, hpa, hp]
      split
      · obtain ⟨hg, hr⟩ := state.cache.le_put gen (some bytes)
        refine (sound.writeCache (sound.file.put hso) hg).setStage hpa rfl ?_ nofun
        rintro _ _ ⟨⟩
        exact ⟨hp, fun _ => hr⟩
      · refine sound.setStage hpa rfl ?_ nofun
        rintro _ _ ⟨⟩
        exact ⟨hp, fun hc => absurd hc ‹_›⟩
  | installPayload gen =>
    simp only [RuleRefresh.step] at hs
    split at hs <;> cases hs
    rename_i bytes found isParsed
    obtain ⟨hp, hw⟩ := sound.parsed gen bytes found isParsed
    have hpa : (state.stages gen).payload? = some bytes := by rw [isParsed]; rfl
    have hso : rulesOf provider state gen = some found := by
      simp [rulesOf, source, hpa, hp]
    refine (sound.install hso).setStage hpa rfl nofun fun _ _ _ => ?_
    exact ⟨hw, (state.live.le_put gen found).2⟩

end Steps

theorem sound_of_run {acts : List (Action Payload)}
    (hr : run (step provider) (.initial cache rules) acts = some state) :
    Sound provider cache rules state := by
  refine invariant_of_run (fun _ _ _ sound => sound.step) ?_ hr
  exact ⟨⟨rfl, .inl rfl⟩, ⟨rfl, .inl rfl⟩, by simp [State.initial], by simp [State.initial],
    by simp [State.initial], by simp [State.initial]⟩

theorem step_mono (hs : step provider state action = some next) :
    state.live.gen ≤ next.live.gen ∧ state.cache.gen ≤ next.cache.gen := by
  cases action with
  | fetchCompletes bytes =>
    cases hs
    exact ⟨le_rfl, le_rfl⟩
  | adoptDownload bytes =>
    cases hs
    split <;> exact ⟨le_rfl, le_rfl⟩
  | parsePayload gen =>
    simp only [step] at hs
    split at hs <;> try cases hs
    split at hs <;> cases hs
    · exact ⟨le_rfl, le_rfl⟩
    · simp only [State.setStage]
      split
      · exact ⟨le_rfl, (state.cache.le_put ..).1⟩
      · exact ⟨le_rfl, le_rfl⟩
  | installPayload gen =>
    simp only [step] at hs
    split at hs <;> cases hs
    exact ⟨(state.live.le_put ..).1, le_rfl⟩

/-- No step takes the rules or the cache file back to an older generation.  When all calls have
returned, both come from the newest payload that parsed.  The download of the start is given a
generation only before any refresh completes its fetch. -/
theorem refreshes_never_regress {actions : List (Action Payload)}
    (runs : run (step provider) (.initial cache rules) actions = some state) :
    (∀ action next, step provider state action = some next →
      state.live.gen ≤ next.live.gen ∧ state.cache.gen ≤ next.cache.gen) ∧
    ((∀ gen, state.stages gen = .free ∨ ∃ bytes, state.stages gen = .returned bytes) →
      ∃ best, IsNewest provider state best ∧
        state.live.value = (rulesOf provider state best).getD rules ∧ (provider.hasCache = true →
          state.cache.value = (bytesOf provider state best).getD cache)) ∧
    ∀ bytes next gen, step provider state (.adoptDownload bytes) = some next →
      next.stages gen ≠ state.stages gen → state.refreshed = false ∧ gen = 1 := by
  have sound := sound_of_run runs
  refine ⟨fun action next => step_mono, fun hq => ?_, ?_⟩
  · have hd gen (hs : (source provider state gen).isSome) : Done provider state gen := by
      rcases hq gen with free | ⟨bytes, hr⟩
      · simp [source, free, Stage.payload?] at hs
      · refine sound.returned gen bytes hr ?_
        simpa [source, hr, Stage.payload?] using hs
    have hl := sound.live.known
    have hf := sound.file.known
    rw [rulesOf, Option.isSome_map] at hl
    rw [bytesOf, Option.isSome_map] at hf
    refine ⟨state.live.gen, ⟨hl, fun gen hs => (hd gen hs).2⟩, sound.live.value, fun hc => ?_⟩
    -- With a cache both generations are the newest one.
    have same : state.cache.gen = state.live.gen := by
      apply le_antisymm
      · exact hf.elim (fun hz => by omega) fun hs => (hd _ hs).2
      · exact hl.elim (fun hz => by omega) fun hs => (hd _ hs).1 hc
    exact same ▸ sound.file.value
  · intro bytes next gen hste hm
    cases hste
    split at hm
    · rename_i first
      have hst := sound.started.2
      rw [first, lt_self_iff_false, imp_false, Bool.not_eq_true] at hst
      refine ⟨hst, by_contra fun ho => hm ?_⟩
      simp only [State.assign, State.setStage, update_of_ne (first ▸ ho)]
    · exact absurd rfl hm

/-- The download of the start takes generation 1 and a refresh generation 2; the refresh installs
first, and the download is dropped. -/
theorem refreshes_never_regress_adopted :
    let provider : Provider Nat Nat Bool := ⟨fun bytes => some (bytes, true), true⟩
    let ran := run (step provider) (.initial none (0, false))
      [.adoptDownload 7, .fetchCompletes 8, .parsePayload 2, .installPayload 2, .parsePayload 1,
        .installPayload 1]
    ran.map (fun state => (state.live.value, state.cache.value)) = some ((8, true), some 8) ∧
      ∀ state, ran = some state → ∀ action next, step provider state action = some next →
        state.live.gen ≤ next.live.gen ∧ state.cache.gen ≤ next.cache.gen :=
  ⟨rfl, fun _ runs => (refreshes_never_regress runs).1⟩

end MeowRs.RuleRefresh
