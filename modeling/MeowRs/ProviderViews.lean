import MeowRs.ActionRuns

/-!
# Filtered views of a provider

A group that filters the nodes of a provider holds a view of them.  A new view is filled under the
lock of the provider's slot and registered under another; a commit writes the slot and then fills
the registered views again.  The state also counts the writes of the slot, and a view notes the
count at which it was filled first.
-/

namespace MeowRs.ProviderViews

open ActionRuns

variable {Node : Type}

/-- A view; it is `held` as long as its group is there. -/
structure View (Node : Type) where
  filter : Node → Bool
  contents : List Node
  registered : Bool
  held : Bool
  seededAt : Nat

structure State (Node : Type) where
  slot : List Node
  committing : Bool
  derived : List Nat
  views : List (View Node)
  writes : Nat

namespace State

def initial : State Node :=
  ⟨[], false, [], [], 0⟩

def upgrade (state : State Node) (view : Nat) : Bool :=
  state.views[view]?.any (·.held)

def setView (state : State Node) (view : Nat) (found : View Node) : State Node :=
  { state with views := state.views.set view found }

end State

/-- The lock sections of `derived_slot` and of `commit`, the end of a group, and a prune. -/
inductive Action (Node : Type) where
  | seed (filter : Node → Bool)
  | register (view : Nat)
  | writeSlot (proxies : List Node)
  | updateDerived
  | dropGroup (view : Nat)
  | pruneDeadDerived

def step (state : State Node) : Action Node → Option (State Node)
  | .seed filter =>
    some { state with
      views := state.views ++ [⟨filter, state.slot.filter filter, false, true, state.writes⟩] }
  | .register view =>
    state.views[view]?.bind fun found =>
      if found.registered then none
      else
        some { state.setView view { found with registered := true } with
          derived := state.derived ++ [view] }
  | .writeSlot proxies =>
    if state.committing then none
    else some { state with slot := proxies, committing := true, writes := state.writes + 1 }
  | .updateDerived =>
    if state.committing then
      some { state with
        committing := false
        derived := state.derived.filter state.upgrade
        views := state.views.mapIdx fun view found =>
          if view ∈ state.derived ∧ found.held then
            { found with contents := state.slot.filter found.filter }
          else found }
    else none
  | .dropGroup view =>
    state.views[view]?.bind fun found =>
      if found.registered then some (state.setView view { found with held := false }) else none
  | .pruneDeadDerived => some { state with derived := state.derived.filter state.upgrade }

/-- No commit and no `derived_slot` call is in progress. -/
def Quiet (state : State Node) : Prop :=
  state.committing = false ∧ ∀ found ∈ state.views, found.registered = true

/-- Every view that is held has the nodes that its filter keeps. -/
def Follows (state : State Node) : Prop :=
  ∀ found ∈ state.views, found.held = true → found.contents = state.slot.filter found.filter

/-- A view is registered before the slot is written again, or in time for a commit to fill it. -/
def InTime (state : State Node) : Action Node → Prop
  | .register view => ∀ found ∈ state.views[view]?,
      state.committing = true ∨ found.seededAt = state.writes
  | _ => True

/-- A view has the nodes of the slot until the slot is written again.  The registered views that are
held are known to the provider, and up to date unless a commit is about to fill them. -/
structure Tracked (state : State Node) : Prop where
  seeded : ∀ found ∈ state.views, found.seededAt ≤ state.writes ∧
    (found.seededAt = state.writes → found.contents = state.slot.filter found.filter)
  known : ∀ view found, state.views[view]? = some found → found.registered = true →
    found.held = true → view ∈ state.derived ∧
      (state.committing = true ∨ found.contents = state.slot.filter found.filter)

variable {s next : State Node} {act : Action Node}

namespace Tracked

theorem setView (tracked : Tracked s) {view : Nat} {old hit : View Node}
    (isView : s.views[view]? = some old) (sameFilter : hit.filter = old.filter)
    (sameContents : hit.contents = old.contents) (sameSeed : hit.seededAt = old.seededAt)
    (fresh : hit.registered = true → hit.held = true → view ∈ s.derived ∧
      (s.committing = true ∨ hit.contents = s.slot.filter hit.filter)) :
    Tracked (s.setView view hit) where
  seeded found member := by
    rcases List.mem_or_eq_of_mem_set member with isOld | rfl
    · exact tracked.seeded found isOld
    · rw [sameSeed, sameContents, sameFilter]
      exact tracked.seeded old (List.mem_of_getElem? isView)
  known other found isFound := by
    simp only [State.setView, List.getElem?_set] at isFound
    split_ifs at isFound with same inBounds
    · subst same
      cases isFound
      exact fresh
    · exact tracked.known other found isFound

theorem prune (tracked : Tracked s) :
    Tracked { s with derived := s.derived.filter s.upgrade } := by
  refine ⟨tracked.seeded, fun view found isFound registered held => ?_⟩
  obtain ⟨member, filled⟩ := tracked.known view found isFound registered held
  refine ⟨List.mem_filter.mpr ⟨member, ?_⟩, filled⟩
  rw [State.upgrade, show s.views[view]? = some found from isFound]
  exact held

theorem seed (tracked : Tracked s) (filter : Node → Bool) :
    Tracked { s with
      views := s.views ++ [⟨filter, s.slot.filter filter, false, true, s.writes⟩] } where
  seeded found member := by
    rcases List.mem_append.mp member with isOld | isNew
    · exact tracked.seeded found isOld
    · cases List.mem_singleton.mp isNew
      exact ⟨le_refl _, fun _ => rfl⟩
  known view found isFound registered held := by
    rcases lt_or_ge view s.views.length with old | new
    · rw [List.getElem?_append_left old] at isFound
      exact tracked.known view found isFound registered held
    · rw [List.getElem?_append_right new] at isFound
      cases List.mem_singleton.mp (List.mem_of_getElem? isFound)
      cases registered

theorem refill (tracked : Tracked s) : Tracked { s with
    committing := false
    derived := s.derived.filter s.upgrade
    views := s.views.mapIdx fun view found =>
      if view ∈ s.derived ∧ found.held then { found with contents := s.slot.filter found.filter }
      else found } where
  seeded found member := by
    obtain ⟨view, inBounds, rfl⟩ := List.mem_mapIdx.mp member
    have old := tracked.seeded _ (List.getElem_mem inBounds)
    split_ifs
    · exact ⟨old.1, fun _ => rfl⟩
    · exact old
  known view found isFound registered held := by
    rw [List.getElem?_mapIdx] at isFound
    obtain ⟨old, isOld, rfl⟩ := Option.map_eq_some_iff.mp isFound
    by_cases filled : view ∈ s.derived ∧ old.held = true
    · rw [if_pos filled]
      refine ⟨List.mem_filter.mpr ⟨filled.1, ?_⟩, .inr rfl⟩
      rw [State.upgrade, isOld]
      exact filled.2
    · rw [if_neg filled] at registered held
      exact absurd ⟨(tracked.known view old isOld registered held).1, held⟩ filled

theorem step (tracked : Tracked s) (inTime : InTime s act) (stepped : step s act = some next) :
    Tracked next := by
  cases act with
  | seed filter =>
    cases stepped
    exact tracked.seed filter
  | register view =>
    obtain ⟨found, isView, stepped⟩ := Option.bind_eq_some_iff.mp stepped
    obtain ⟨_, ⟨⟩⟩ := Option.ite_none_left_eq_some.mp stepped
    have wider : Tracked { s with derived := s.derived ++ [view] } := by
      refine ⟨tracked.seeded, fun other found isFound registered held => ?_⟩
      obtain ⟨member, filled⟩ := tracked.known other found isFound registered held
      exact ⟨List.mem_append_left _ member, filled⟩
    refine wider.setView isView rfl rfl rfl fun _ _ => ⟨List.mem_append_right _ (by simp), ?_⟩
    exact (inTime found isView).imp_right (tracked.seeded found (List.mem_of_getElem? isView)).2
  | writeSlot proxies =>
    obtain ⟨_, ⟨⟩⟩ := Option.ite_none_left_eq_some.mp stepped
    refine ⟨fun found member => ?_, fun view found isFound registered held => ?_⟩
    · have before := (tracked.seeded found member).1
      exact ⟨Nat.le_succ_of_le before, fun same => absurd same (by dsimp only; omega)⟩
    · exact ⟨(tracked.known view found isFound registered held).1, .inl rfl⟩
  | updateDerived =>
    obtain ⟨_, ⟨⟩⟩ := Option.ite_none_right_eq_some.mp stepped
    exact tracked.refill
  | dropGroup view =>
    obtain ⟨found, isView, stepped⟩ := Option.bind_eq_some_iff.mp stepped
    obtain ⟨_, ⟨⟩⟩ := Option.ite_none_right_eq_some.mp stepped
    exact tracked.setView isView rfl rfl rfl (by simp)
  | pruneDeadDerived =>
    cases stepped
    exact tracked.prune

end Tracked

/-- If every view is registered before the slot is written again, or in time for a commit to fill
it, then the views follow the provider whenever nothing is in progress. -/
theorem follows_of_inTime {actions : List (Action Node)} {final : State Node}
    (inTime : Meets step InTime State.initial actions)
    (runs : run step State.initial actions = some final) (quiet : Quiet final) : Follows final := by
  have start : Tracked (State.initial : State Node) :=
    ⟨fun _ member => absurd member List.not_mem_nil, fun _ _ isFound => by cases isFound⟩
  have tracked : Tracked final :=
    invariant_of_meets (fun _ _ _ tracked inTime stepped => tracked.step inTime stepped) start
      inTime runs
  intro found member held
  obtain ⟨view, isFound⟩ := List.getElem?_of_mem member
  have filled := (tracked.known view found isFound (quiet.2 found member) held).2
  exact filled.resolve_left (by simp [quiet.1])

/-- One view is registered before the slot is written again, and one while a commit runs. -/
def refreshedFirst : List (Action Nat) :=
  [.writeSlot [1, 2], .updateDerived, .seed (· == 1), .seed (· == 2), .register 1,
    .writeSlot [1, 3], .register 0, .updateDerived]

theorem follows_of_inTime_refreshed :
    ∃ final, run step State.initial refreshedFirst = some final ∧ Follows final := by
  refine ⟨_, rfl, @follows_of_inTime _ refreshedFirst _ ?_ rfl ⟨rfl, by decide⟩⟩
  iterate 4
    refine ⟨trivial, fun _ stepped => ?_⟩
    cases stepped
  refine ⟨fun _ isView => ?_, fun _ stepped => ?_⟩
  · cases isView
    exact .inr rfl
  cases stepped
  refine ⟨trivial, fun _ stepped => ?_⟩
  cases stepped
  refine ⟨fun _ _ => .inl rfl, fun _ stepped => ?_⟩
  cases stepped
  exact ⟨trivial, fun _ _ => trivial⟩

/-- A whole commit falls between the two lock sections of a new view. -/
def overtaken : List (Action Nat) :=
  [.seed fun _ => true, .writeSlot [1], .updateDerived, .register 0]

theorem overtaken_view_stale :
    ∃ final, run step State.initial overtaken = some final ∧ Quiet final ∧ ¬Follows final := by
  refine ⟨_, rfl, ⟨rfl, by decide⟩, fun follows => ?_⟩
  exact absurd (follows _ List.mem_cons_self rfl) (by decide)

end MeowRs.ProviderViews
