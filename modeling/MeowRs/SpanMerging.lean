import Mathlib.Data.List.Sort
import MeowRs.Intervals

/-!
# Merging spans

Spans of numbers in any order are sorted and those that overlap or touch are merged.  The merged
spans hold the same numbers and are an interval list.
-/

namespace MeowRs.Intervals

open List Option

variable {spans : List (Nat × Nat)} {span : Nat × Nat}

def spansContain (spans : List (Nat × Nat)) (value : Nat) : Bool :=
  spans.any fun span => span.1 ≤ value && value ≤ span.2

/-- Merge spans into the last one while they overlap or touch it. -/
def mergeInto : Nat × Nat → List (Nat × Nat) → List (Nat × Nat)
  | last, [] => [last]
  | last, span :: spans =>
    if span.1 ≤ last.2 + 1 then mergeInto (last.1, max last.2 span.2) spans
    else last :: mergeInto span spans

def mergeSpans : List (Nat × Nat) → List (Nat × Nat)
  | [] => []
  | first :: spans => mergeInto first spans

def spanLe (first second : Nat × Nat) : Prop :=
  first.1 < second.1 ∨ first.1 = second.1 ∧ first.2 ≤ second.2

instance : DecidableRel spanLe := fun first second =>
  inferInstanceAs (Decidable (first.1 < second.1 ∨ first.1 = second.1 ∧ first.2 ≤ second.2))

instance : Std.Total spanLe where
  total first second := by
    unfold spanLe
    omega

instance : IsTrans (Nat × Nat) spanLe where
  trans first second third := by
    unfold spanLe
    omega

def natNext (value : Nat) : Option Nat :=
  some (value + 1)

theorem isNext_natNext : IsNext natNext where
  lt_iff := by
    intro value after isNext other
    cases isNext
    exact Nat.lt_succ_iff
  top := nofun

theorem spansContain_iff {value : Nat} :
    spansContain spans value = true ↔ Member spans value := by
  simp [spansContain, Member]

theorem spansContain_mergeInto (last : Nat × Nat) (spans : List (Nat × Nat))
    (sorted : (last :: spans).Pairwise fun first second => first.1 ≤ second.1) (value : Nat) :
    spansContain (mergeInto last spans) value = spansContain (last :: spans) value := by
  induction spans generalizing last with
  | nil => rfl
  | cons span spans ih =>
    rw [pairwise_cons, pairwise_cons] at sorted
    obtain ⟨lastLe, spanLe, rest⟩ := sorted
    have lowLe : last.1 ≤ span.1 := lastLe span mem_cons_self
    rw [mergeInto]
    split
    · rename_i touches
      have merged := ih (last.1, max last.2 span.2) (pairwise_cons.mpr
        ⟨fun later member => lastLe later (mem_cons_of_mem span member), rest⟩)
      rw [merged]
      simp only [spansContain, any_cons, ← Bool.or_assoc]
      congr 1
      rw [Bool.eq_iff_iff]
      simp only [Bool.or_eq_true, Bool.and_eq_true, decide_eq_true_eq]
      omega
    · have later := ih span (pairwise_cons.mpr ⟨spanLe, rest⟩)
      simp only [spansContain, any_cons] at later ⊢
      rw [later]

theorem spansContain_merge (spans : List (Nat × Nat)) (value : Nat) :
    spansContain (mergeSpans (spans.insertionSort spanLe)) value = spansContain spans value := by
  have perm := perm_insertionSort spanLe spans
  have sorted : (spans.insertionSort spanLe).Pairwise fun first second => first.1 ≤ second.1 :=
    (pairwise_insertionSort spanLe spans).imp fun le => by
      unfold spanLe at le
      omega
  have merged : ∀ list : List (Nat × Nat),
      (list.Pairwise fun first second => first.1 ≤ second.1) →
        spansContain (mergeSpans list) value = spansContain list value := by
    intro list listSorted
    cases list with
    | nil => rfl
    | cons first rest => exact spansContain_mergeInto first rest listSorted value
  rw [merged _ sorted]
  exact perm.any_eq

theorem le_of_mem_mergeInto {last : Nat × Nat}
    (sorted : (last :: spans).Pairwise fun first second => first.1 ≤ second.1)
    (member : span ∈ mergeInto last spans) : last.1 ≤ span.1 := by
  induction spans generalizing last with
  | nil =>
    obtain rfl := mem_singleton.mp member
    exact le_refl _
  | cons next spans ih =>
    rw [pairwise_cons, pairwise_cons] at sorted
    obtain ⟨lastLe, nextLe, rest⟩ := sorted
    rw [mergeInto] at member
    split at member
    · exact @ih (last.1, max last.2 next.2) (pairwise_cons.mpr
        ⟨fun later inRest => lastLe later (mem_cons_of_mem next inRest), rest⟩) member
    · rcases mem_cons.mp member with rfl | later
      · exact le_refl _
      · exact (lastLe next mem_cons_self).trans
          (ih (pairwise_cons.mpr ⟨nextLe, rest⟩) later)

theorem sorted_mergeInto {last : Nat × Nat}
    (sorted : (last :: spans).Pairwise fun first second => first.1 ≤ second.1)
    (ordered : ∀ span ∈ last :: spans, span.1 ≤ span.2) :
    Sorted natNext (mergeInto last spans) := by
  induction spans generalizing last with
  | nil => exact ⟨ordered, pairwise_singleton _ _⟩
  | cons next spans ih =>
    rw [forall_mem_cons] at ordered
    obtain ⟨lastOrdered, restOrdered⟩ := ordered
    have tailSorted := (pairwise_cons.mp sorted).2
    rw [mergeInto]
    split
    · rename_i touches
      refine ih ?_ (forall_mem_cons.mpr
        ⟨?_, (forall_mem_cons.mp restOrdered).2⟩)
      · exact pairwise_cons.mpr ⟨fun later inRest =>
          (pairwise_cons.mp sorted).1 later (mem_cons_of_mem next inRest),
          (pairwise_cons.mp tailSorted).2⟩
      · exact lastOrdered.trans (le_max_left _ _)
    · rename_i apart
      have rest := ih tailSorted restOrdered
      refine ⟨forall_mem_cons.mpr ⟨lastOrdered, rest.ordered⟩,
        pairwise_cons.mpr ⟨fun later inRest => ?_, rest.apart⟩⟩
      have above := le_of_mem_mergeInto tailSorted inRest
      simp only [endsBefore, natNext, any_some, decide_eq_true_eq]
      omega

theorem sorted_merge (ordered : ∀ span ∈ spans, span.1 ≤ span.2) :
    Sorted natNext (mergeSpans (spans.insertionSort spanLe)) := by
  have perm := perm_insertionSort spanLe spans
  have sorted : (spans.insertionSort spanLe).Pairwise fun first second => first.1 ≤ second.1 :=
    (pairwise_insertionSort spanLe spans).imp fun le => by
      unfold spanLe at le
      omega
  have sortedOrdered : ∀ span ∈ spans.insertionSort spanLe, span.1 ≤ span.2 :=
    fun span member => ordered span (perm.mem_iff.mp member)
  cases shape : spans.insertionSort spanLe with
  | nil => exact ⟨nofun, Pairwise.nil⟩
  | cons first rest =>
    rw [shape] at sorted sortedOrdered
    exact sorted_mergeInto sorted sortedOrdered

end MeowRs.Intervals
