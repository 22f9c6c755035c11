import Mathlib.Data.List.AList

/-!
# Pairs of mutually inverse finite maps

Two lookup functions are inverse when each finds exactly what the other one maps back.  The pair is
edited on both sides at once; the lemmas here say when such an edit keeps the functions inverse.
-/

namespace InverseMaps

open AList

open Function

variable {α β : Type*} {backward : β → Option α} {forward : α → Option β}

/-- Each function finds exactly the pairs that the other one finds. -/
def Inverse (forward : α → Option β) (backward : β → Option α) : Prop :=
  ∀ a b, forward a = some b ↔ backward b = some a

theorem inverse_none : Inverse (fun _ : α => (none : Option β)) (fun _ => none) := by
  intro a b
  simp

theorem Inverse.symm (hi : Inverse forward backward) : Inverse backward forward :=
  fun b a => (hi a b).symm

variable [DecidableEq α]

theorem lookup_insert_update (map : AList fun _ : α => β) (a : α) (b : β) :
    (fun key => (map.insert a b).lookup key) =
      update (fun key => map.lookup key) a (some b) := by
  funext key
  rcases eq_or_ne key a with rfl | ho
  · simp
  · rw [lookup_insert_ne ho, update_of_ne ho]

theorem lookup_erase_update (map : AList fun _ : α => β) (a : α) :
    (fun key => (map.erase a).lookup key) =
      update (fun key => map.lookup key) a none := by
  funext key
  rcases eq_or_ne key a with rfl | ho
  · simp
  · rw [lookup_erase_ne ho, update_of_ne ho]

variable [DecidableEq β]

/-- Tie a key to a value on both sides, or untie them, if neither is tied to another one. -/
theorem Inverse.update_both (hi : Inverse forward backward) {a : α} {b : β}
    (hf : ∀ v, forward a = some v → v = b) (hb : ∀ key, backward b = some key → key = a)
    (tied : Bool) :
    Inverse (update forward a (if tied then some b else none))
      (update backward b (if tied then some a else none)) := by
  intro key v
  rcases eq_or_ne key a with rfl | hk
  · rcases eq_or_ne v b with rfl | hv
    · cases tied <;> simp
    · have hn : backward v ≠ some key := fun h => hv (hf v ((hi key v).mpr h))
      cases tied <;> simp [hv, hv.symm, hn]
  · rcases eq_or_ne v b with rfl | hv
    · have hn : forward key ≠ some v := fun h => hk (hb key ((hi key v).mp h))
      cases tied <;> simp [hk, hk.symm, hn]
    · simpa [hk, hv] using hi key v

theorem Inverse.insert (hi : Inverse forward backward) {a : α} {b : β}
    (hf : forward a = none) (hfv : backward b = none) :
    Inverse (update forward a (some b)) (update backward b (some a)) :=
  hi.update_both (fun _ h => by simp [hf] at h) (fun _ h => by simp [hfv] at h) true

theorem Inverse.erase (hi : Inverse forward backward) {a : α} {b : β}
    (hm : forward a = some b) : Inverse (update forward a none) (update backward b none) := by
  refine hi.update_both (fun v h => ?_) (fun key h => ?_) false
  · exact Option.some.inj (h.symm.trans hm)
  · exact Option.some.inj (h.symm.trans ((hi a b).mp hm))

omit [DecidableEq α] in
/-- Inserting the reversed pairs of a list, whose values differ, one after another. -/
theorem lookup_foldl_insert_reverse {pairs : List (Sigma fun _ : α => β)}
    (distinct : (pairs.map Sigma.snd).Nodup) (map : AList fun _ : β => α) (a : α) (b : β) :
    (pairs.foldl (fun reverse pair => reverse.insert pair.2 pair.1) map).lookup b = some a ↔
      ⟨a, b⟩ ∈ pairs ∨ b ∉ pairs.map Sigma.snd ∧ map.lookup b = some a := by
  induction pairs generalizing map with
  | nil => simp
  | cons pair pairs ih =>
    obtain ⟨fresh, distinct⟩ := List.nodup_cons.mp distinct
    rw [List.foldl_cons, ih distinct]
    rcases eq_or_ne b pair.2 with rfl | otherValue
    · have notLater : ∀ key, (⟨key, pair.2⟩ : Sigma fun _ : α => β) ∉ pairs :=
        fun key member => fresh (List.mem_map.mpr ⟨_, member, rfl⟩)
      have isPair : (⟨a, pair.2⟩ : Sigma fun _ : α => β) = pair ↔ pair.1 = a := by
        constructor
        · rintro same
          exact (congrArg Sigma.fst same).symm
        · rintro rfl
          rfl
      simp only [notLater, fresh, isPair, List.mem_cons, List.map_cons, not_false_eq_true,
        true_and, false_or, or_false, lookup_insert, Option.some.injEq,
        not_true_eq_false, false_and]
    · have notPair : (⟨a, b⟩ : Sigma fun _ : α => β) ≠ pair := fun same =>
        otherValue (congrArg Sigma.snd same)
      simp [notPair, otherValue, lookup_insert_ne otherValue]

/-- Reversing a map without repeated values gives its inverse. -/
theorem inverse_reverse {map : AList fun _ : α => β}
    (hi : ∀ a a' b, map.lookup a = some b → map.lookup a' = some b → a = a') :
    Inverse (fun a => map.lookup a) (fun b =>
      (map.entries.foldl (fun reverse pair => reverse.insert pair.2 pair.1)
        (∅ : AList fun _ : β => α)).lookup b) := by
  have nd : (map.entries.map Sigma.snd).Nodup := by
    refine List.Nodup.map_on ?_ map.nodupKeys.nodup
    rintro ⟨a, b⟩ hf ⟨a', b'⟩ snd rfl
    have hs := hi a a' b (mem_lookup_iff.mpr hf) (mem_lookup_iff.mpr snd)
    rw [hs]
  intro a b
  rw [lookup_foldl_insert_reverse nd]
  simpa using mem_lookup_iff

end InverseMaps
