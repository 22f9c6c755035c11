import MeowRs.ProxyGroups

/-!
# Dial failures of a group

An automatic group counts the failed dials of all its members in one streak.  The failure that makes
the streak long enough within its window has its own member marked dead.
-/

namespace MeowRs.DialFailures

open List Text

open ProxyLayer (AdapterType)

/-- What an error tells the group. -/
structure DialError where
  isCapabilityError : Bool
  isLocalResourceError : Bool
  text : Text

def DialError.isRefused (err : DialError) : Bool :=
  decide (ofString "refused" <:+: err.text)

structure DialFailureState where
  count : Nat
  firstAt : Option Nat

def dialFailureThreshold : Nat := 5

/-- Five seconds; instants are counted in nanoseconds. -/
def dialFailureWindow : Nat := 5000000000

namespace DialFailureState

def onSuccess : DialFailureState :=
  ⟨0, none⟩

/-- The streak after a failure, and whether the failure escalates. -/
def onFailure (state : DialFailureState) (now : Nat) (err : DialError) : DialFailureState × Bool :=
  if err.isCapabilityError || err.isLocalResourceError then (state, false)
  else if err.isRefused then (state, true)
  else
    let count := state.count + 1
    if count = 1 then (⟨1, some now⟩, false)
    else if state.firstAt.any fun start => decide (dialFailureWindow < now - start) then
      (⟨0, none⟩, false)
    else if dialFailureThreshold ≤ count then (⟨0, none⟩, true)
    else (⟨count, state.firstAt⟩, false)

end DialFailureState

def isExempt (adapterType : AdapterType) : Bool :=
  adapterType ∈ [.direct, .compatible, .reject, .rejectDrop, .pass, .passRule]

/-- How a dial ends; one that is dropped may be past its deadline. -/
inductive Outcome where
  | success
  | error (err : DialError) (frontFailed : Bool)
  | dropped (expired : Bool)

structure Dial (Member : Type) where
  member : Member
  adapterType : AdapterType
  now : Nat
  outcome : Outcome

def deadlineElapsed : DialError :=
  ⟨false, false, ofString "IO error: outbound dial deadline elapsed"⟩

variable {Member : Type}

namespace Dial

/-- The error that an attempt has recorded. -/
def recorded (dial : Dial Member) : Option DialError :=
  match dial.outcome with
  | .success => none
  | .error err frontFailed => if frontFailed then none else some err
  | .dropped expired => if expired then some deadlineElapsed else none

def isSuccess (dial : Dial Member) : Bool :=
  match dial.outcome with
  | .success => true
  | _ => false

/-- A failure that is the member's own. -/
def counts (dial : Dial Member) : Bool :=
  dial.recorded.any fun err => !err.isCapabilityError && !err.isLocalResourceError

def isRefused (dial : Dial Member) : Bool :=
  dial.recorded.any DialError.isRefused

/-- The streak after the dial, and whether its member is marked dead. -/
def record (dial : Dial Member) (state : DialFailureState) : DialFailureState × Bool :=
  if dial.isSuccess then (.onSuccess, false)
  else
    match dial.recorded with
    | none => (state, false)
    | some err => if isExempt dial.adapterType then (state, false) else state.onFailure dial.now err

end Dial

/-- The streak after some dials, the latest first. -/
def track : List (Dial Member) → DialFailureState
  | [] => .onSuccess
  | dial :: earlier => (dial.record (track earlier)).1

def sinceSuccess (dials : List (Dial Member)) : List (Dial Member) :=
  dials.takeWhile (!·.isSuccess)

def ownFailures [DecidableEq Member] (member : Member) (dials : List (Dial Member)) : Nat :=
  (sinceSuccess dials).countP fun dial => dial.counts && decide (dial.member = member)

/-- A member is marked dead for a refused connection or for five failures of its own. -/
def Lawful [DecidableEq Member] (earlier : List (Dial Member)) (dial : Dial Member) : Prop :=
  (dial.record (track earlier)).2 = true →
    dial.isRefused = true ∨ 5 ≤ ownFailures dial.member (dial :: earlier)

/-- The dial is the fifth failure of the group within the window. -/
structure Completes (state : DialFailureState) (dial : Dial Member) : Prop where
  tracked : isExempt dial.adapterType = false
  counts : dial.counts = true
  unrefused : dial.isRefused = false
  fourth : state.count = 4
  inWindow : ∀ start ∈ state.firstAt, dial.now - start ≤ dialFailureWindow

open DialFailureState

variable {prev : List (Dial Member)} {dial : Dial Member} {s : DialFailureState}

/-- What a dial does to the streak. -/
theorem record_cases (dial : Dial Member) (hf : s.count ≤ 4) :
    (Completes s dial ∧ dial.isSuccess = false ∧ dial.record s = (.onSuccess, true)) ∨
    (¬Completes s dial ∧ ((dial.record s).2 = true → dial.isRefused = true) ∧
      ((dial.record s).1 = .onSuccess ∨ dial.isSuccess = false ∧ ((dial.record s).1 = s ∨
            dial.counts = true ∧ s.count < 4 ∧
              (dial.record s).1.count = s.count + 1))) := by
  unfold Dial.record
  cases hs : dial.isSuccess with
  | true =>
    have nothing : dial.recorded = none := by
      unfold Dial.isSuccess at hs
      split at hs <;> simp_all [Dial.recorded]
    refine .inr ⟨fun hc => ?_, by simp, .inl rfl⟩
    simpa [Dial.counts, nothing] using hc.counts
  | false =>
    rw [if_neg Bool.false_ne_true]
    cases hi : dial.recorded with
    | none =>
      refine .inr ⟨fun hc => ?_, by simp, .inr ⟨rfl, .inl rfl⟩⟩
      simpa [Dial.counts, hi] using hc.counts
    | some err =>
      dsimp only
      split_ifs with he
      · refine .inr ⟨fun hc => ?_, by simp, .inr ⟨rfl, .inl rfl⟩⟩
        exact absurd he (by simp [hc.tracked])
      unfold onFailure
      dsimp only
      split_ifs with hig refused alone late full
      · refine .inr ⟨fun hc => ?_, by simp, .inr ⟨rfl, .inl rfl⟩⟩
        have hcou := hc.counts
        simp only [Dial.counts, hi, Option.any_some] at hcou
        simp_all
      all_goals
        have hcou : dial.counts = true := by simpa [Dial.counts, hi] using hig
      · have isRefused : dial.isRefused = true := by simpa [Dial.isRefused, hi] using refused
        refine .inr ⟨fun hc => ?_, fun _ => isRefused, .inr ⟨rfl, .inl rfl⟩⟩
        exact absurd isRefused (by simp [hc.unrefused])
      · refine .inr ⟨fun hc => ?_, by simp, .inr ⟨rfl, .inr ⟨hcou, by omega, alone.symm⟩⟩⟩
        have := hc.fourth
        omega
      · refine .inr ⟨fun hc => ?_, by simp, .inl rfl⟩
        cases start : s.firstAt with
        | none => simp [start] at late
        | some fst =>
          have inWindow := hc.inWindow fst start
          simp only [start, Option.any_some, decide_eq_true_eq] at late
          omega
      · refine .inl ⟨⟨by simpa using he, hcou, ?_, ?_, ?_⟩, rfl, rfl⟩
        · simpa [Dial.isRefused, hi] using refused
        · rw [dialFailureThreshold] at full
          omega
        · intro fst start
          simp only [Option.mem_def.mp start, Option.any_some, decide_eq_true_eq] at late
          exact Nat.le_of_not_lt late
      · rw [dialFailureThreshold] at full
        refine .inr ⟨fun hc => ?_, by simp, .inr ⟨rfl, .inr ⟨hcou, by omega, rfl⟩⟩⟩
        have := hc.fourth
        omega

theorem sinceSuccess_cons (hn : dial.isSuccess = false) :
    sinceSuccess (dial :: prev) = dial :: sinceSuccess prev :=
  takeWhile_cons_of_pos (by simp [hn])

/-- The streak is shorter than five, and no longer than the failures since the last success. -/
theorem track_count (prev : List (Dial Member)) :
    (track prev).count ≤ 4 ∧
      (track prev).count ≤ (sinceSuccess prev).countP Dial.counts := by
  induction prev with
  | nil => exact ⟨Nat.zero_le _, Nat.zero_le _⟩
  | cons dial prev ih =>
    rw [track]
    rcases record_cases dial ih.1 with
      ⟨-, -, reset⟩ | ⟨-, -, reset | ⟨failed, same | ⟨counts, few, grown⟩⟩⟩
    · rw [reset]
      exact ⟨Nat.zero_le _, Nat.zero_le _⟩
    · rw [reset]
      exact ⟨Nat.zero_le _, Nat.zero_le _⟩
    · rw [same, sinceSuccess_cons failed, countP_cons]
      omega
    · rw [grown, sinceSuccess_cons failed, countP_cons, if_pos counts]
      omega

variable [DecidableEq Member]

/-- The dead mark of a dial blames the member's own failures if no other member failed since the last
success, and exactly if it does so when the dial is the fifth failure of the group. -/
theorem lawful_iff (earlier : List (Dial Member)) (dial : Dial Member) :
    ((∀ other ∈ sinceSuccess earlier, other.counts = true → other.member = dial.member) →
      Lawful earlier dial) ∧
    (Lawful earlier dial ↔
      (Completes (track earlier) dial → 4 ≤ ownFailures dial.member earlier)) := by
  have hl : Lawful earlier dial ↔
      (Completes (track earlier) dial → 4 ≤ ownFailures dial.member earlier) := by
    rcases record_cases dial (track_count earlier).1 with ⟨hc, hf, hm⟩ | ⟨hu, hr, -⟩
    · have ho : ownFailures dial.member (dial :: earlier) = ownFailures dial.member earlier + 1 := by
        rw [ownFailures, sinceSuccess_cons hf, countP_cons, ← ownFailures]
        simp [hc.counts]
      simp [Lawful, hm, hc, hc.unrefused, ho]
    · exact ⟨fun _ hc => absurd hc hu, fun _ hm => .inl (hr hm)⟩
  refine ⟨fun ha => hl.mpr fun hc => ?_, hl⟩
  have ho : ownFailures dial.member earlier = (sinceSuccess earlier).countP Dial.counts := by
    refine countP_congr fun other hme => ?_
    simpa using ha other hme
  rw [ho, ← hc.fourth]
  exact (track_count earlier).2

def timedOut (member now : Nat) : Dial Nat :=
  ⟨member, .trojan, now, .dropped true⟩

/-- One failure of each of five members within the window. -/
theorem fifth_member_blamed :
    ((timedOut 5 5).record (track [timedOut 4 4, timedOut 3 3, timedOut 2 2, timedOut 1 1])).2 =
        true ∧
      ¬Lawful [timedOut 4 4, timedOut 3 3, timedOut 2 2, timedOut 1 1] (timedOut 5 5) := by
  unfold Lawful
  decide +kernel

end MeowRs.DialFailures
