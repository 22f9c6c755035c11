import Mathlib.Data.List.Forall2

/-!
# Readers of chunked streams

A reader asks its transport for at most so many units at a time, gets as many as the transport likes,
and goes on until it has something to return or the transport is not ready.  What it does with a
stream does not depend on the chunks when it follows a machine that takes one unit at a time.  Two
kinds of states make up most formats: those that count units down and those that collect them.
-/

namespace ChunkedReads

open List Option

variable {σ τ α β ρ κ : Type}

/-- What a machine does with a stream, unit by unit: the state after it and what it puts out. -/
def run (step : τ → α → τ × List β) : τ → List α → τ × List β
  | state, [] => (state, [])
  | state, unit :: units =>
    ((run step (step state unit).1 units).1,
      (step state unit).2 ++ (run step (step state unit).1 units).2)

section Machine

variable {step : τ → α → τ × List β}

theorem run_append (s : τ) (fst snd : List α) :
    run step s (fst ++ snd) = ((run step (run step s fst).1 snd).1,
      (run step s fst).2 ++ (run step (run step s fst).1 snd).2) := by
  induction fst generalizing s with
  | nil => rfl
  | cons unit us ih => simp only [cons_append, run, ih, append_assoc]

/-- States that count units down, each of which is put out or not. -/
theorem run_countdown {counting : Nat → τ} {emit : α → List β}
    (hc : ∀ n unit, step (counting (n + 1)) unit = (counting n, emit unit))
    (us : List α) (left : Nat) :
    run step (counting (us.length + left)) us = (counting left, us.flatMap emit) := by
  induction us with
  | nil => simp [run]
  | cons unit us ih =>
    rw [length_cons, Nat.add_right_comm, run, hc, ih, flatMap_cons]

/-- States that collect units until there are `need` of them. -/
theorem run_collect {collecting : List α → τ} {need : Nat} {finish : List α → τ × List β}
    (hm : ∀ held unit, held.length + 1 < need →
      step (collecting held) unit = (collecting (held ++ [unit]), []))
    (hl : ∀ held unit, held.length + 1 = need →
      step (collecting held) unit = finish (held ++ [unit]))
    (held us : List α) (some : us ≠ []) (hf : (held ++ us).length ≤ need) :
    run step (collecting held) us = if (held ++ us).length < need then (collecting (held ++ us), [])
      else finish (held ++ us) := by
  induction us generalizing held with
  | nil => exact absurd rfl some
  | cons unit us ih =>
    cases us with
    | nil =>
      rw [run, run, append_nil, length_append, length_singleton]
      by_cases hs : held.length + 1 < need
      · rw [if_pos hs, hm held unit hs]
      · rw [if_neg hs, hl held unit (by simp at hf; omega)]
    | cons next us =>
      have hj : held ++ unit :: next :: us = (held ++ [unit]) ++ next :: us := by simp
      rw [run, hm held unit (by simp at hf; omega), ih _ (cons_ne_nil _ _)
        (by simp at hf ⊢; omega), nil_append, hj]

end Machine

/-- One call of a reader: what it does before it asks for units, how many it asks for, what it does
with those it gets, and what it does when the stream has ended.  It returns, or goes on. -/
structure Reader (α σ ρ : Type) where
  settle : σ → σ × Option ρ
  limit : σ → Nat
  take : σ → List α → σ × Option ρ
  ended : σ → σ × ρ

/-- A reader that gets one unit at a time, as a machine. -/
def Reader.unitStep (reader : Reader α σ ρ) (out : ρ → List β) (state : σ) (unit : α) :
    σ × List β :=
  ((reader.take state [unit]).1, (reader.take state [unit]).2.elim [] out)

/-- What a call leaves behind; it is pending without a result. -/
structure Polled (α σ ρ : Type) where
  state : σ
  rest : List α
  result : Option ρ

/-- Call a reader with what is left of the stream.  The transport answers that it is not ready, or
how many units it hands over beyond the first. -/
def Reader.poll (reader : Reader α σ ρ) (closed : Bool) :
    List (Option Nat) → σ → List α → Polled α σ ρ
  | [], state, stream => ⟨(reader.settle state).1, stream, (reader.settle state).2⟩
  | answer :: answers, state, stream =>
    match reader.settle state with
    | (state, some result) => ⟨state, stream, some result⟩
    | (state, none) =>
      match answer with
      | none => ⟨state, stream, none⟩
      | some extra =>
        if stream.isEmpty then
          if closed then ⟨(reader.ended state).1, stream, some (reader.ended state).2⟩
          else ⟨state, stream, none⟩
        else
          let size := min (extra + 1) (reader.limit state)
          match reader.take state (stream.take size) with
          | (state, some result) => ⟨state, stream.drop size, some result⟩
          | (state, none) => reader.poll closed answers state (stream.drop size)

/-- The calls of a reader, one after the other. -/
def session (reader : κ → Reader α σ ρ) (closed : Bool) :
    List (κ × List (Option Nat)) → σ → List α → σ × List α × List (κ × Option ρ)
  | [], state, stream => (state, stream, [])
  | (call, answers) :: calls, state, stream =>
    let polled := (reader call).poll closed answers state stream
    let (last, rest, results) := session reader closed calls polled.state polled.rest
    (last, rest, (call, polled.result) :: results)

/-- A reader follows a machine; `yields` says which results stand for what the machine puts out
before it comes to a state. -/
structure Follows (step : τ → α → τ × List β) (relates : σ → τ → Prop)
    (yields : Option ρ → τ × List β → Prop) (reader : Reader α σ ρ) : Prop where
  pending : ∀ outcome, yields none outcome ↔ outcome.2 = []
  settles : ∀ {state abstract}, relates state abstract →
    relates (reader.settle state).1 abstract ∧ yields (reader.settle state).2 (abstract, [])
  asks : ∀ {state abstract}, relates state abstract → (reader.settle state).2 = none →
    0 < reader.limit (reader.settle state).1
  takes : ∀ {state abstract chunk}, relates state abstract → (reader.settle state).2 = none →
    chunk ≠ [] → chunk.length ≤ reader.limit (reader.settle state).1 →
    relates (reader.take (reader.settle state).1 chunk).1 (run step abstract chunk).1 ∧
      yields (reader.take (reader.settle state).1 chunk).2 (run step abstract chunk)
  ends : ∀ {state abstract}, relates state abstract → (reader.settle state).2 = none →
    relates (reader.ended (reader.settle state).1).1 abstract ∧
      yields (some (reader.ended (reader.settle state).1).2) (abstract, [])

variable {step : τ → α → τ × List β} {relates : σ → τ → Prop}

theorem take_ne_nil {str : List α} (hs : str ≠ []) {size : Nat} (hp : 0 < size) :
    str.take size ≠ [] := by
  simpa [take_eq_nil_iff, hs] using Nat.ne_of_gt hp

/-- A call does what the machine does with the units it takes. -/
theorem Follows.poll {yields : Option ρ → τ × List β → Prop} {rd : Reader α σ ρ}
    (hf : Follows step relates yields rd) (closed : Bool) (ans : List (Option Nat))
    {s : σ} {abstract : τ} (hr : relates s abstract) (str : List α) :
    ∃ taken, str = taken ++ (rd.poll closed ans s str).rest ∧
      relates (rd.poll closed ans s str).state (run step abstract taken).1 ∧
      yields (rd.poll closed ans s str).result (run step abstract taken) := by
  induction ans generalizing s abstract str with
  | nil => exact ⟨[], rfl, hf.settles hr⟩
  | cons answer ans ih =>
    have hs := hf.settles hr
    have ha := hf.asks hr
    have hta := fun ch => @Follows.takes _ _ _ _ _ _ _ _ _ hf _ _ ch hr
    have he := hf.ends hr
    unfold Reader.poll
    generalize rd.settle s = out at hs ha hta he ⊢
    obtain ⟨s, _ | res⟩ := out
    · cases answer with
      | none => exact ⟨[], rfl, hs⟩
      | some extra =>
        dsimp only
        split
        · split
          · exact ⟨[], rfl, he rfl⟩
          · exact ⟨[], rfl, hs⟩
        · rename_i ne
          rw [List.isEmpty_iff] at ne
          have hp : 0 < rd.limit s := ha rfl
          generalize sized : min (extra + 1) (rd.limit s) = size
          have ht := hta (str.take size) rfl
            (take_ne_nil ne (by omega)) (by rw [length_take]; dsimp only; omega)
          generalize rd.take s (str.take size) = out at ht ⊢
          obtain ⟨next, _ | res⟩ := out
          · obtain ⟨taken, hc, hl⟩ := ih ht.1 (str.drop size)
            refine ⟨str.take size ++ taken, ?_, ?_⟩
            · rw [append_assoc, ← hc, take_append_drop]
            · rw [run_append, (hf.pending _).mp ht.2, nil_append]
              exact hl
          · exact ⟨str.take size, (take_append_drop size str).symm, ht⟩
    · exact ⟨[], rfl, hs⟩

theorem Follows.ended_of_poll {yields : Option ρ → τ × List β → Prop} {rd : Reader α σ ρ}
    (hfo : Follows step relates yields rd) {final : ρ → Prop} {closed : Bool}
    (hse : ∀ s res, (rd.settle s).2 = some res → ¬ final res)
    (hta : ∀ s ch res, ch ≠ [] → (rd.take s ch).2 = some res →
      ¬ final res) {ans : List (Option Nat)} {s : σ} {abstract : τ} (rel : relates s abstract)
    {str : List α} {res : ρ} (ret : (rd.poll closed ans s str).result = some res)
    (hfi : final res) : (rd.poll closed ans s str).rest = [] ∧ closed = true := by
  induction ans generalizing s abstract str with
  | nil => exact absurd hfi (hse s res ret)
  | cons answer ans ih =>
    have hset := hse s
    have asks := hfo.asks rel
    have hfol := fun ch => @Follows.takes _ _ _ _ _ _ _ _ _ hfo _ _ ch rel
    unfold Reader.poll at ret ⊢
    generalize rd.settle s = out at hset asks hfol ret ⊢
    obtain ⟨s, _ | early⟩ := out
    · cases answer with
      | none => cases ret
      | some extra =>
        dsimp only at ret ⊢
        split at ret
        · rename_i isEmpty
          rw [if_pos isEmpty]
          split at ret
          · rename_i isClosed
            rw [if_pos isClosed]
            exact ⟨isEmpty_iff.mp isEmpty, isClosed⟩
          · cases ret
        · rename_i ne
          rw [if_neg ne]
          rw [List.isEmpty_iff] at ne
          have pos : 0 < rd.limit s := asks rfl
          generalize sized : min (extra + 1) (rd.limit s) = size at ret ⊢
          have some := take_ne_nil ne (show 0 < size by omega)
          have took := fun res => hta s _ res some
          have next := (hfol (str.take size) rfl some
            (by rw [length_take]; dsimp only; omega)).1
          generalize rd.take s (str.take size) = out at took next ret ⊢
          obtain ⟨nextState, _ | early⟩ := out
          · exact ih next ret
          · exact absurd hfi (took res ret)
    · exact absurd hfi (hset res ret)

/-- The results of the calls stand for what the machine puts out for the units they take. -/
theorem session_follows {rd : κ → Reader α σ ρ} {yields : κ → Option ρ → τ × List β → Prop}
    (hfo : ∀ call, Follows step relates (yields call) (rd call)) (closed : Bool)
    (calls : List (κ × List (Option Nat))) {s : σ} {abstract : τ}
    (hr : relates s abstract) (str : List α) :
    ∃ taken outputs, str = taken ++ (session rd closed calls s str).2.1 ∧
      relates (session rd closed calls s str).1 (run step abstract taken).1 ∧
      Forall₂ (fun res output => ∃ last, yields res.1 res.2 (last, output))
        (session rd closed calls s str).2.2 outputs ∧
      outputs.flatten = (run step abstract taken).2 := by
  induction calls generalizing s abstract str with
  | nil => exact ⟨[], [], rfl, hr, .nil, rfl⟩
  | cons call calls ih =>
    obtain ⟨call, ans⟩ := call
    obtain ⟨taken, hc, hn, hy⟩ := (hfo call).poll closed ans hr str
    obtain ⟨later, outputs, hl, hlr, hly, hf⟩ := ih hn ((rd call).poll closed ans s str).rest
    refine ⟨taken ++ later, (run step abstract taken).2 :: outputs, ?_, ?_, ?_, ?_⟩
    · rw [append_assoc, session, ← hl, ← hc]
    · rw [run_append, session]
      exact hlr
    · rw [session]
      exact .cons ⟨_, hy⟩ hly
    · rw [flatten_cons, hf, run_append]

theorem session_delivers {rd : κ → Reader α σ ρ} {yields : κ → Option ρ → τ × List β → Prop}
    {out : ρ → List β} (hfo : ∀ call, Follows step relates (yields call) (rd call))
    (ho : ∀ call res outcome, yields call res outcome → outcome.2 = res.elim [] out)
    (closed : Bool) (calls : List (κ × List (Option Nat))) {s : σ} {abstract : τ}
    (hr : relates s abstract) (str : List α) :
    ∃ taken, str = taken ++ (session rd closed calls s str).2.1 ∧
      ((session rd closed calls s str).2.2.flatMap fun res =>
        res.2.elim [] out) = (run step abstract taken).2 := by
  obtain ⟨taken, outputs, hc, _, hy, hf⟩ := session_follows hfo closed calls hr str
  refine ⟨taken, hc, ?_⟩
  rw [← hf]
  clear hf
  generalize (session rd closed calls s str).2.2 = results at hy ⊢
  induction hy with
  | nil => rfl
  | cons yields _ ih =>
    obtain ⟨_, yields⟩ := yields
    rw [flatMap_cons, flatten_cons, ih, ← ho _ _ _ yields]

/-- A reader keeps a relation between its state, the units taken and what its results put out. -/
structure Keeps (inv : σ → List α → List β → Prop) (out : ρ → List β) (reader : Reader α σ ρ) :
    Prop where
  settles : ∀ {state taken told}, inv state taken told →
    inv (reader.settle state).1 taken (told ++ (reader.settle state).2.elim [] out)
  asks : ∀ {state taken told}, inv state taken told → (reader.settle state).2 = none →
    0 < reader.limit (reader.settle state).1
  takes : ∀ {state taken told chunk}, inv state taken told → (reader.settle state).2 = none →
    chunk ≠ [] → chunk.length ≤ reader.limit (reader.settle state).1 →
    inv (reader.take (reader.settle state).1 chunk).1 (taken ++ chunk)
      (told ++ (reader.take (reader.settle state).1 chunk).2.elim [] out)
  ends : ∀ {state taken told}, inv state taken told → (reader.settle state).2 = none →
    inv (reader.ended (reader.settle state).1).1 taken
      (told ++ out (reader.ended (reader.settle state).1).2)

section Keeping

variable {inv : σ → List α → List β → Prop} {out : ρ → List β} {s : σ} {us : List α} {bs : List β}

theorem Keeps.poll {rd : Reader α σ ρ} (hk : Keeps inv out rd) (closed : Bool)
    (ans : List (Option Nat)) (hi : inv s us bs) (str : List α) :
    ∃ taken, str = taken ++ (rd.poll closed ans s str).rest ∧
      inv (rd.poll closed ans s str).state (us ++ taken)
        (bs ++ (rd.poll closed ans s str).result.elim [] out) := by
  induction ans generalizing s us bs str with
  | nil => exact ⟨[], rfl, by simpa [Reader.poll] using hk.settles hi⟩
  | cons answer ans ih =>
    have hs := hk.settles hi
    have ha := hk.asks hi
    have hh := fun ch => @Keeps.takes _ _ _ _ _ _ _ hk _ _ _ ch hi
    have he := hk.ends hi
    unfold Reader.poll
    generalize rd.settle s = settled at hs ha hh he ⊢
    obtain ⟨s, _ | res⟩ := settled
    · cases answer with
      | none => exact ⟨[], rfl, by simpa using hs⟩
      | some extra =>
        dsimp only
        split
        · split
          · exact ⟨[], rfl, by simpa using he rfl⟩
          · exact ⟨[], rfl, by simpa using hs⟩
        · rename_i hne
          rw [List.isEmpty_iff] at hne
          have hp : 0 < rd.limit s := ha rfl
          generalize hsize : min (extra + 1) (rd.limit s) = size
          have ht := hh (str.take size) rfl
            (take_ne_nil hne (by omega)) (by rw [length_take]; dsimp only; omega)
          generalize rd.take s (str.take size) = took at ht ⊢
          obtain ⟨next, _ | res⟩ := took
          · obtain ⟨taken, hc, hhl⟩ := ih ht (str.drop size)
            refine ⟨str.take size ++ taken, ?_, by simpa using hhl⟩
            rw [append_assoc, ← hc, take_append_drop]
          · exact ⟨str.take size, (take_append_drop size str).symm, ht⟩
    · exact ⟨[], rfl, by simpa using hs⟩

/-- What every call keeps, the calls keep. -/
theorem session_keeps {rd : κ → Reader α σ ρ} (hk : ∀ call, Keeps inv out (rd call))
    (closed : Bool) (calls : List (κ × List (Option Nat))) (hi : inv s us bs) (str : List α) :
    ∃ taken, str = taken ++ (session rd closed calls s str).2.1 ∧
      inv (session rd closed calls s str).1 (us ++ taken) (bs ++
        (session rd closed calls s str).2.2.flatMap fun res => res.2.elim [] out) := by
  induction calls generalizing s us bs str with
  | nil => exact ⟨[], rfl, by simpa [session] using hi⟩
  | cons call calls ih =>
    obtain ⟨fst, hf, hp⟩ := (hk call.1).poll closed call.2 hi str
    obtain ⟨snd, hs, hh⟩ := ih hp _
    refine ⟨fst ++ snd, ?_, ?_⟩
    · rw [append_assoc]
      exact hf.trans (congrArg _ hs)
    · rw [← append_assoc]
      rw [append_assoc bs] at hh
      exact hh

end Keeping

end ChunkedReads
