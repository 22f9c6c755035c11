/-!
# Polled transports

A poll is ready with a value or pending.  A writer answers each offer of bytes with the number it
accepts.  A buffer is drained by offering what is left of it until nothing is left, the writer is not
ready, or it fails; the position in the buffer says how far that went.
-/

namespace Polling

inductive Poll (α : Type) where
  | ready (value : α)
  | pending
  deriving DecidableEq

/-- What a writer answers to offers: a number of bytes, of which it accepts no more than it was
offered, or an error. -/
abbrev WriteAnswer (ε : Type) := Poll (Except ε Nat)

/-- How far a buffer was drained, and the answers that were not used. -/
structure Drained (ε : Type) where
  outcome : Poll (Except ε Unit)
  pos : Nat
  answers : List (WriteAnswer ε)

variable {ε : Type}

/-- Drain a buffer of some length from a position on; without an answer the writer is not ready. -/
def drain (zeroWrite : ε) (length : Nat) : List (WriteAnswer ε) → Nat → Drained ε
  | [], pos => ⟨if pos < length then .pending else .ready (.ok ()), pos, []⟩
  | answer :: answers, pos =>
    if pos < length then
      match answer with
      | .pending => ⟨.pending, pos, answers⟩
      | .ready (.error error) => ⟨.ready (.error error), pos, answers⟩
      | .ready (.ok count) =>
        if count = 0 then ⟨.ready (.error zeroWrite), pos, answers⟩
        else drain zeroWrite length answers (pos + min count (length - pos))
    else ⟨.ready (.ok ()), pos, answer :: answers⟩

variable {zeroWrite : ε} {len : Nat}

theorem drain_pos (ans : List (WriteAnswer ε)) {pos : Nat} (le : pos ≤ len) :
    pos ≤ (drain zeroWrite len ans pos).pos ∧
      (drain zeroWrite len ans pos).pos ≤ len := by
  induction ans generalizing pos with
  | nil => exact ⟨Nat.le_refl pos, le⟩
  | cons answer ans ih =>
    unfold drain
    split
    · match answer with
      | .pending => exact ⟨Nat.le_refl pos, le⟩
      | .ready (.error error) => exact ⟨Nat.le_refl pos, le⟩
      | .ready (.ok n) =>
        dsimp only
        split
        · exact ⟨Nat.le_refl pos, le⟩
        · have hl := @ih (pos + min n (len - pos)) (by omega)
          exact ⟨by omega, hl.2⟩
    · exact ⟨Nat.le_refl pos, le⟩

/-- Draining ends well exactly at the end. -/
theorem drain_outcome_iff {ans : List (WriteAnswer ε)} {pos : Nat} (le : pos ≤ len) :
    (drain zeroWrite len ans pos).outcome = .ready (.ok ()) ↔
      (drain zeroWrite len ans pos).pos = len := by
  induction ans generalizing pos with
  | nil =>
    rw [drain]
    by_cases hm : pos < len
    · simp [hm, Nat.ne_of_lt hm]
    · simp [Nat.le_antisymm le (Nat.le_of_not_lt hm)]
  | cons answer ans ih =>
    unfold drain
    by_cases hm : pos < len
    · rw [if_pos hm]
      match answer with
      | .pending => simp [Nat.ne_of_lt hm]
      | .ready (.error error) => simp [Nat.ne_of_lt hm]
      | .ready (.ok n) =>
        dsimp only
        split
        · simp [Nat.ne_of_lt hm]
        · exact ih (by omega)
    · simp [Nat.le_antisymm le (Nat.le_of_not_lt hm)]

end Polling
