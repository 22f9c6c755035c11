import Mathlib

/-!
# Runs of guarded transition functions

A system is a partial transition function `step : State → Action → Option State`; an action that is
not enabled has no successor.  A run is a list of actions, so one quantifier over lists of actions
ranges over every interleaving of the parties that share the state.
-/

namespace ActionRuns

variable {State Action : Type*} (step : State → Action → Option State)

/-- The state after performing the actions in order, if every one of them is enabled. -/
def run : State → List Action → Option State
  | state, [] => some state
  | state, action :: actions => (step state action).bind (run · actions)

/-- Every action of the run is performed in a state that meets `condition`. -/
def Meets (condition : State → Action → Prop) : State → List Action → Prop
  | _, [] => True
  | state, action :: actions =>
    condition state action ∧
      ∀ next, step state action = some next → Meets condition next actions

variable {step}

@[simp]
theorem run_nil (s : State) : run step s [] = some s :=
  rfl

theorem run_cons_eq_some {s final : State} {act : Action} {acts : List Action}
    (hr : run step s (act :: acts) = some final) :
    ∃ next, step s act = some next ∧ run step next acts = some final :=
  Option.bind_eq_some_iff.mp hr

theorem run_append {s mid : State} {fst : List Action} (hr : run step s fst = some mid)
    (snd : List Action) : run step s (fst ++ snd) = run step mid snd := by
  induction fst generalizing s with
  | nil =>
    cases hr
    rfl
  | cons act acts ih =>
    obtain ⟨next, hs, rest⟩ := run_cons_eq_some hr
    simp only [List.cons_append, run, hs, Option.bind_some]
    exact ih rest

theorem meets_of_forall {condition : State → Action → Prop} {s : State} {acts : List Action}
    (holds : ∀ act ∈ acts, ∀ s, condition s act) : Meets step condition s acts := by
  induction acts generalizing s with
  | nil => trivial
  | cons act acts ih =>
    obtain ⟨first, rest⟩ := List.forall_mem_cons.mp holds
    exact ⟨first s, fun _ _ => ih rest⟩

theorem meets_append {condition : State → Action → Prop} {s mid : State} {fst snd : List Action}
    (first : Meets step condition s fst) (runs : run step s fst = some mid)
    (second : Meets step condition mid snd) : Meets step condition s (fst ++ snd) := by
  induction fst generalizing s with
  | nil =>
    cases runs
    exact second
  | cons act acts ih =>
    obtain ⟨next, stepped, rest⟩ := run_cons_eq_some runs
    refine ⟨first.1, fun other same => ?_⟩
    obtain rfl := Option.some.inj (stepped.symm.trans same)
    exact ih (first.2 next stepped) rest

theorem meets_of_append {condition : State → Action → Prop} {s : State} {fst snd : List Action}
    (hm : Meets step condition s (fst ++ snd)) : Meets step condition s fst := by
  induction fst generalizing s with
  | nil => trivial
  | cons act acts ih => exact ⟨hm.1, fun next hs => ih (hm.2 next hs)⟩

theorem meets_of_run_append {condition : State → Action → Prop} {s mid : State}
    {fst snd : List Action} (hm : Meets step condition s (fst ++ snd))
    (hr : run step s fst = some mid) : Meets step condition mid snd := by
  induction fst generalizing s with
  | nil =>
    cases hr
    exact hm
  | cons act acts ih =>
    obtain ⟨next, hs, rest⟩ := run_cons_eq_some hr
    exact ih (hm.2 next hs) rest

/-- An invariant that every step meeting `condition` preserves holds after every run whose steps
all meet it. -/
theorem invariant_of_meets {condition : State → Action → Prop} {invariant : State → Prop}
    (hp : ∀ s act next, invariant s → condition s act →
      step s act = some next → invariant next) {s final : State} {acts : List Action}
    (hi : invariant s) (hm : Meets step condition s acts)
    (hr : run step s acts = some final) : invariant final := by
  induction acts generalizing s with
  | nil =>
    cases hr
    exact hi
  | cons act acts ih =>
    obtain ⟨next, hs, rest⟩ := run_cons_eq_some hr
    obtain ⟨hh, hl⟩ := hm
    exact ih (hp s act next hi hh hs) (hl next hs) rest

theorem invariant_of_run {invariant : State → Prop}
    (hp : ∀ s act next, invariant s → step s act = some next →
      invariant next) {s final : State} {acts : List Action} (hi : invariant s)
    (hr : run step s acts = some final) : invariant final := by
  induction acts generalizing s with
  | nil =>
    cases hr
    exact hi
  | cons act acts ih =>
    obtain ⟨next, hs, rest⟩ := run_cons_eq_some hr
    exact ih (hp s act next hi hs) rest

end ActionRuns
