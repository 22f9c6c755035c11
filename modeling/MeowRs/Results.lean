import Mathlib

/-!
# Results of fallible computations

What a computation that ended well tells about its steps.
-/

namespace Results

variable {ε ε' α β : Type} {fst : Except ε α}

theorem bind_eq_ok {next : α → Except ε β} {res : β} :
    fst.bind next = .ok res ↔ ∃ v, fst = .ok v ∧ next v = .ok res := by
  cases fst <;> simp [Except.bind]

theorem mapError_eq_ok {report : ε → ε'} {v : α} : fst.mapError report = .ok v ↔ fst = .ok v := by
  cases fst <;> simp [Except.mapError]

theorem map_eq_ok {f : α → β} {res : β} : fst.map f = .ok res ↔ ∃ v, fst = .ok v ∧ f v = res := by
  cases fst <;> simp [Except.map]

end Results
