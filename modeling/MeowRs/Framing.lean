import Mathlib.Data.List.Infix

/-!
# Framed streams

A decoder goes through a stream unit by unit and is done where a message ends; it takes no unit after
that.  So the message at the front of a stream is determined, and whatever a decoder has taken is a
part of it.  A language for every state of the decoder says which units complete the message.
-/

namespace Framing

variable {σ α ε : Type} {consume : σ → α → Except ε σ}

/-- The decoder takes all units. -/
inductive Feeds (consume : σ → α → Except ε σ) : σ → List α → σ → Prop
  | nil (state : σ) : Feeds consume state [] state
  | cons {state next last : σ} {unit : α} {units : List α} (taken : consume state unit = .ok next)
      (later : Feeds consume next units last) : Feeds consume state (unit :: units) last

namespace Feeds

theorem append {s mid last : σ} {fst snd : List α} (hp : Feeds consume s fst mid)
    (ha : Feeds consume mid snd last) : Feeds consume s (fst ++ snd) last := by
  induction hp with
  | nil => exact ha
  | cons ht _ ih => exact .cons ht (ih ha)

theorem exists_of_append {s last : σ} {fst snd : List α} (hf : Feeds consume s (fst ++ snd) last) :
    ∃ mid, Feeds consume s fst mid ∧ Feeds consume mid snd last := by
  induction fst generalizing s with
  | nil => exact ⟨s, .nil s, hf⟩
  | cons unit us ih =>
    cases hf with
    | cons ht hl =>
      obtain ⟨mid, hp, ha⟩ := ih hl
      exact ⟨mid, .cons ht hp, ha⟩

theorem unique {s last o : σ} {us : List α} (hf : Feeds consume s us last)
    (ho : Feeds consume s us o) : last = o := by
  induction hf with
  | nil =>
    cases ho
    rfl
  | cons ht _ ih =>
    cases ho with
    | cons hot hol =>
      rw [ht] at hot
      cases hot
      exact ih hol

variable {done : σ} (hc : ∀ unit next, consume done unit ≠ .ok next)
include hc

theorem nil_of_done {last : σ} {us : List α} (hf : Feeds consume done us last) : us = [] := by
  cases hf with
  | nil => rfl
  | cons ht _ => exact absurd ht (hc _ _)

/-- What a decoder has taken of a stream is a part of the message at its front. -/
theorem isPrefix_of_done {s last : σ} {msg us str : List α} (hco : Feeds consume s msg done)
    (hfr : msg <+: str) (hf : Feeds consume s us last) (ht : us <+: str) : us <+: msg := by
  rcases List.prefix_or_prefix_of_prefix ht hfr with hw | ⟨behind, rfl⟩
  · exact hw
  · obtain ⟨mid, hp, ha⟩ := hf.exists_of_append
    obtain rfl := hp.unique hco
    rw [nil_of_done hc ha, List.append_nil]

end Feeds

/-- A language that every unit leads through its states is what the decoder completes. -/
theorem feeds_iff_of_language {done : σ} {language : σ → List α → Prop}
    (nil : ∀ s, language s [] ↔ s = done) (cons : ∀ s unit us, language s (unit :: us) ↔
      ∃ next, consume s unit = .ok next ∧ language next us) (s : σ) (us : List α) :
    Feeds consume s us done ↔ language s us := by
  induction us generalizing s with
  | nil =>
    rw [nil]
    constructor
    · intro hfe
      cases hfe
      rfl
    · rintro rfl
      exact .nil _
  | cons unit us ih =>
    rw [cons]
    constructor
    · intro hfe
      cases hfe with
      | cons hta hla => exact ⟨_, hta, (ih _).mp hla⟩
    · rintro ⟨next, hta, hla⟩
      exact .cons hta ((ih next).mpr hla)

end Framing
