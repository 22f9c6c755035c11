import MeowRs.MuxPool

/-!
# What the steps of the pool do

A step of an open either only changes where the open stands, or it takes or gives back the lock, a
slot or a part of the pool.  Everything later is read off these two relations.
-/

namespace MeowRs.MuxPool

open Option

variable {sh after : Shared} {opts : Options} {call next : Open}

/-- The steps of an open that leave the shared state alone. -/
inductive Thinks (options : Options) (shared : Shared) : Open → Open → Prop
  | load (attempt : ℕ) : Thinks options shared (.locked attempt) (.stale attempt shared.generation)
  | discard (attempt now : ℕ) (kept : List ℕ) (index : ℕ) (rest : List ℕ) :
      Thinks options shared (.pruning attempt now kept (index :: rest))
        (.pruning attempt now kept rest)
  | inspect (attempt now : ℕ) (kept : List ℕ) (index : ℕ) (rest : List ℕ) :
      Thinks options shared (.pruning attempt now kept (index :: rest))
        (.aging attempt now kept index rest)
  | age (attempt now : ℕ) (recent : Bool) (kept : List ℕ) (index : ℕ) (rest : List ℕ) :
      Thinks options shared (.aging attempt now kept index rest)
        (.weighing attempt now recent kept index rest)
  | keep (attempt now : ℕ) (recent : Bool) (kept : List ℕ) (index : ℕ) (rest : List ℕ) :
      Thinks options shared (.weighing attempt now recent kept index rest)
        (.pruning attempt now (kept ++ [index]) rest)
  | evict (attempt now : ℕ) (recent : Bool) (kept : List ℕ) (index : ℕ) (rest : List ℕ) :
      Thinks options shared (.weighing attempt now recent kept index rest)
        (.pruning attempt now kept rest)
  | scan (attempt : ℕ) (best : Option (ℕ × ℕ)) (index load : ℕ) (rest : List ℕ) :
      Thinks options shared (.scanning attempt best (index :: rest))
        (.scanning attempt (fewer best index load) rest)
  | alone (attempt : ℕ) :
      Thinks options shared (.scanning attempt none []) (.redialing attempt 0)
  | choose (attempt index load : ℕ) :
      Thinks options shared (.scanning attempt (some (index, load)) []) (.choosing attempt index)
  | take (attempt index load : ℕ) (reused : reuse options shared.pool.length load = true) :
      Thinks options shared (.choosing attempt index) (.swapping attempt index load)
  | pass (attempt index load : ℕ) (refused : reuse options shared.pool.length load = false) :
      Thinks options shared (.choosing attempt index) (.redialing attempt 0)
  | retry (attempt index load : ℕ) :
      Thinks options shared (.swapping attempt index load) (.choosing attempt index)
  | dial (attempt round : ℕ) :
      Thinks options shared (.redialing attempt round)
        (.dialing attempt round shared.generation shared.bumps)
  | dialled (attempt round generation born : ℕ) :
      Thinks options shared (.dialing attempt round generation born)
        (.created attempt round generation born)
  | check (attempt round generation born : ℕ) :
      Thinks options shared (.created attempt round generation born)
        (.checked attempt generation born)
  | redial (attempt round generation born : ℕ) :
      Thinks options shared (.created attempt round generation born) (.redialing attempt 1)
  | opened (attempt index : ℕ) : Thinks options shared (.opening attempt index) (.storing index)
  | abandon (attempt : ℕ) : Thinks options shared (.waiting attempt) .finished

inductive Moves (options : Options) (self : ℕ) (shared : Shared) : Open → Shared → Open → Prop
  | thinks {call next : Open} (thinks : Thinks options shared call next) :
      Moves options self shared call shared next
  | acquire (attempt : ℕ) (free : shared.lock = none) :
      Moves options self shared (.waiting attempt) { shared with lock := some (.opener self) }
        (.locked attempt)
  | drain (attempt generation now : ℕ) :
      Moves options self shared (.stale attempt generation) (shared.drainStale generation)
        (.pruning attempt now [] (shared.drainStale generation).pool)
  | settle (attempt now : ℕ) (kept : List ℕ) :
      Moves options self shared (.pruning attempt now kept []) { shared with pool := kept }
        (.scanning attempt none kept)
  | reserve (attempt index : ℕ) {session : Session} (found : shared.arena[index]? = some session) :
      Moves options self shared (.swapping attempt index session.streams)
        (shared.withSession index { session with streams := session.streams + 1 }).unlock
        (.opening attempt index)
  | push (attempt generation born lastUsed : ℕ) :
      Moves options self shared (.checked attempt generation born)
        { shared with
          arena := shared.arena ++ [⟨1, lastUsed, generation, false, born⟩],
          pool := shared.pool ++ [shared.arena.length], lock := none }
        (.opening attempt shared.arena.length)
  | store (index lastUsed : ℕ) {session : Session} (found : shared.arena[index]? = some session) :
      Moves options self shared (.storing index)
        (shared.withSession index { session with lastUsed := lastUsed }) (.live index)
  | release {call next : Open} {index : ℕ} {session : Session} (holds : call.slot? = some index)
      (found : shared.arena[index]? = some session) (ends : next = .finished ∨ next = .waiting 1) :
      Moves options self shared call (shared.release index session) next
  | unlock {call : Open} (holds : call.holdsLock = true) :
      Moves options self shared call shared.unlock .finished

theorem moves_of_advance {self now : ℕ} (hs : advance opts sh self now call = some (after, next)) :
    Moves opts self sh call after next := by
  cases call with
  | waiting attempt =>
    simp only [advance] at hs
    split at hs <;> cases hs
    exact .acquire attempt ‹_›
  | locked attempt =>
    cases hs
    exact .thinks (.load attempt)
  | stale attempt gen =>
    cases hs
    exact .drain attempt gen _
  | pruning attempt started kept rest =>
    cases rest with
    | nil =>
      cases hs
      exact .settle attempt started kept
    | cons i rest =>
      obtain ⟨ses, -, hs⟩ := bind_eq_some_iff.mp hs
      split at hs
      · cases hs
        exact .thinks (.discard attempt started kept i rest)
      · cases hs
        exact .thinks (.inspect attempt started kept i rest)
  | aging attempt started kept i rest =>
    obtain ⟨ses, -, hs⟩ := bind_eq_some_iff.mp hs
    cases hs
    exact .thinks (.age attempt started _ kept i rest)
  | weighing attempt started recent kept i rest =>
    obtain ⟨ses, -, hs⟩ := bind_eq_some_iff.mp hs
    split at hs
    · cases hs
      exact .thinks (.keep attempt started recent kept i rest)
    · cases hs
      exact .thinks (.evict attempt started recent kept i rest)
  | scanning attempt best rest =>
    cases rest with
    | nil =>
      rcases best with _ | ⟨i, load⟩
      · cases hs
        exact .thinks (.alone attempt)
      · cases hs
        exact .thinks (.choose attempt i load)
    | cons i rest =>
      obtain ⟨ses, -, hs⟩ := bind_eq_some_iff.mp hs
      cases hs
      exact .thinks (.scan attempt best i _ rest)
  | choosing attempt i =>
    obtain ⟨ses, -, hs⟩ := bind_eq_some_iff.mp hs
    split at hs
    · cases hs
      exact .thinks (.take attempt i _ ‹_›)
    · cases hs
      exact .thinks (.pass attempt i ses.streams (Bool.eq_false_iff.mpr ‹_›))
  | swapping attempt i load =>
    obtain ⟨ses, hf, hs⟩ := bind_eq_some_iff.mp hs
    split at hs
    next same =>
      cases hs
      subst same
      exact .reserve attempt i hf
    next changed =>
      cases hs
      exact .thinks (.retry attempt i load)
  | redialing attempt round =>
    cases hs
    exact .thinks (.dial attempt round)
  | created attempt round gen born =>
    simp only [advance] at hs
    split at hs
    · cases hs
      exact .thinks (.check attempt round gen born)
    · split at hs
      · cases hs
        exact .thinks (.redial attempt round gen born)
      · cases hs
        exact .unlock rfl
  | checked attempt gen born =>
    cases hs
    exact .push attempt gen born _
  | storing i =>
    obtain ⟨ses, hf, hs⟩ := bind_eq_some_iff.mp hs
    cases hs
    exact .store i _ hf
  | dialing _ _ _ _ | opening _ _ | live _ | finished => cases hs

theorem moves_of_cancel {self : ℕ} (hs : cancel sh call = some (after, next)) :
    Moves opts self sh call after next := by
  cases call with
  | waiting attempt =>
    cases hs
    exact .thinks (.abandon attempt)
  | dialing attempt round gen born =>
    cases hs
    exact .unlock rfl
  | opening attempt i =>
    obtain ⟨ses, hf, hs⟩ := bind_eq_some_iff.mp hs
    cases hs
    exact .release rfl hf (Or.inl rfl)
  | locked _ | stale _ _ | pruning _ _ _ _ | aging _ _ _ _ _ | weighing _ _ _ _ _ _
  | scanning _ _ _ | choosing _ _ | swapping _ _ _ | redialing _ _ | created _ _ _ _
  | checked _ _ _ | storing _ | live _ | finished => cases hs

theorem moves_of_openStep {self : ℕ} {event : Event}
    (hs : openStep opts sh self call event = some (after, next)) :
    Moves opts self sh call after next := by
  cases event with simp only [openStep] at hs
  | advance now => exact moves_of_advance hs
  | dialled =>
    split at hs <;> cases hs
    exact .thinks (.dialled _ _ _ _)
  | dialFails =>
    split at hs <;> cases hs
    exact .unlock rfl
  | opened =>
    split at hs <;> cases hs
    exact .thinks (.opened _ _)
  | refused unsupported =>
    split at hs
    · obtain ⟨ses, hi, hs⟩ := bind_eq_some_iff.mp hs
      cases hs
      refine .release rfl hi ?_
      split_ifs
      · exact Or.inl rfl
      · exact Or.inr rfl
    · cases hs
  | close =>
    split at hs
    · obtain ⟨ses, hi, hs⟩ := bind_eq_some_iff.mp hs
      cases hs
      exact .release rfl hi (Or.inl rfl)
    · cases hs
  | cancel => exact moves_of_cancel hs

end MeowRs.MuxPool
