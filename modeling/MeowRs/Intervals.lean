import Mathlib.Data.List.TakeWhile
import Mathlib.Order.MinMax

/-!
# Interval lists

Sorted lists of closed intervals that neither overlap nor touch.  `next` is the successor, which the
largest value does not have.  The lists are searched by the point where a predicate turns false; on a
sorted list that is what a binary search finds.
-/

namespace MeowRs.Intervals

open List Option

variable {A : Type} [LinearOrder A] {ivs : List (A × A)}

/-- The number of elements before the first one that fails a predicate. -/
def partitionPoint {α : Type} (holds : α → Bool) (items : List α) : Nat :=
  (items.takeWhile holds).length

/-- Whether `[start, stop]` lies in one interval of a list. -/
def covers (intervals : List (A × A)) (start stop : A) : Bool :=
  match intervals[partitionPoint (·.1 ≤ start) intervals - 1]? with
  | some interval => 0 < partitionPoint (·.1 ≤ start) intervals && stop ≤ interval.2
  | none => false

/-- Whether an interval ends before `start` and does not touch it. -/
def endsBefore (next : A → Option A) (start : A) (interval : A × A) : Bool :=
  (next interval.2).any (· < start)

/-- Whether an interval starts by the value after `stop`. -/
def startsBy (next : A → Option A) (stop : A) (interval : A × A) : Bool :=
  (next stop).all (interval.1 ≤ ·)

/-- One interval for `[start, stop]` and a run of intervals that it overlaps or touches. -/
def mergeRun (start stop : A) (run : List (A × A)) : A × A :=
  (run.head?.elim start (min start ·.1), run.getLast?.elim stop (max stop ·.2))

/-- Add `[start, stop]` to a list. -/
def insert (next : A → Option A) (intervals : List (A × A)) (start stop : A) : List (A × A) :=
  let first := partitionPoint (endsBefore next start) intervals
  let last := first + partitionPoint (startsBy next stop) (intervals.drop first)
  intervals.take first ++
    mergeRun start stop ((intervals.take last).drop first) :: intervals.drop last

def Member (intervals : List (A × A)) (value : A) : Prop :=
  ∃ interval ∈ intervals, interval.1 ≤ value ∧ value ≤ interval.2

theorem member_append {fst snd : List (A × A)} {v : A} :
    Member (fst ++ snd) v ↔ Member fst v ∨ Member snd v := by
  simp only [Member, mem_append, or_and_right, exists_or]

theorem member_cons {iv : A × A} {v : A} :
    Member (iv :: ivs) v ↔
      iv.1 ≤ v ∧ v ≤ iv.2 ∨ Member ivs v := by
  simp only [Member, mem_cons, or_and_right, exists_or, exists_eq_left]

theorem take_partitionPoint {α : Type} (p : α → Bool) (xs : List α) :
    xs.take (partitionPoint p xs) = xs.takeWhile p :=
  (prefix_iff_eq_take.mp ( takeWhile_prefix p)).symm

theorem drop_partitionPoint {α : Type} (p : α → Bool) (xs : List α) :
    xs.drop (partitionPoint p xs) = xs.dropWhile p := by
  have hp : xs.take (partitionPoint p xs) ++ xs.drop (partitionPoint p xs) =
      xs.takeWhile p ++ xs.dropWhile p := by
    rw [take_append_drop, takeWhile_append_dropWhile]
  rw [take_partitionPoint] at hp
  exact append_cancel_left hp

theorem holds_before_partitionPoint {α : Type} {p : α → Bool} {xs : List α}
    {point i : Nat} {item : α} (hit : partitionPoint p xs = point)
    (pre : i < point) (hi : xs[i]? = some item) : p item = true := by
  subst hit
  have hk : item ∈ xs.takeWhile p := by
    rw [← take_partitionPoint]
    exact mem_of_getElem? ((getElem?_take_of_lt pre).trans hi)
  exact mem_takeWhile_imp hk

theorem not_holds_at_partitionPoint {α : Type} {p : α → Bool} {xs : List α} {point : Nat}
    {item : α} (hi : partitionPoint p xs = point) (hp : xs[point]? = some item) :
    p item = false := by
  subst hi
  have fst : (xs.dropWhile p).head? = some item := by
    rw [← drop_partitionPoint, head?_drop, hp]
  have hf := head?_dropWhile_not p xs
  rw [fst] at hf
  exact hf

theorem partitionPoint_le {α : Type} (p : α → Bool) (xs : List α) :
    partitionPoint p xs ≤ xs.length :=
  ( takeWhile_prefix p).length_le

/-- `next` is the successor function of the order. -/
structure IsNext (next : A → Option A) : Prop where
  lt_iff : ∀ {a b}, next a = some b → ∀ c, c < b ↔ c ≤ a
  top : ∀ {a}, next a = none → ∀ c, c ≤ a

/-- Sorted, without overlaps and without neighbours that touch. -/
structure Sorted (next : A → Option A) (intervals : List (A × A)) : Prop where
  ordered : ∀ interval ∈ intervals, interval.1 ≤ interval.2
  apart : intervals.Pairwise fun interval later => endsBefore next later.1 interval = true

theorem covers_eq_true {start stop : A} (hc : covers ivs start stop = true) {v : A}
    (ha : start ≤ v) (hb : v ≤ stop) : Member ivs v := by
  unfold covers at hc
  split at hc
  · rename_i iv hit
    simp only [Bool.and_eq_true, decide_eq_true_eq] at hc
    obtain ⟨hp, he⟩ := hc
    -- the interval is the last one that starts by `start`
    have hs : iv ∈ ivs.takeWhile (·.1 ≤ start) := by
      rw [← take_partitionPoint]
      apply mem_of_getElem?
      rw [getElem?_take_of_lt (Nat.sub_lt hp Nat.one_pos)]
      exact hit
    have hsb : iv.1 ≤ start := by simpa using mem_takeWhile_imp hs
    exact ⟨iv, ( takeWhile_prefix _).subset hs, hsb.trans ha, hb.trans he⟩
  · cases hc

section Insert

variable {next : A → Option A} {start stop : A}

theorem lt_of_endsBefore (hn : IsNext next) {iv : A × A} {v : A}
    (pre : endsBefore next v iv = true) : iv.2 < v := by
  unfold endsBefore at pre
  cases ha : next iv.2 with
  | none =>
    rw [ha] at pre
    cases pre
  | some bound =>
    rw [ha, any_some, decide_eq_true_eq] at pre
    exact ((hn.lt_iff ha iv.2).mpr le_rfl).trans pre

theorem endsBefore_mono {fst snd : A} (le : fst ≤ snd) {iv : A × A}
    (pre : endsBefore next fst iv = true) : endsBefore next snd iv = true := by
  unfold endsBefore at pre ⊢
  cases ha : next iv.2 with
  | none =>
    rw [ha] at pre
    cases pre
  | some bound =>
    rw [ha, any_some, decide_eq_true_eq] at pre
    rw [any_some, decide_eq_true_eq]
    exact pre.trans_le le

end Insert

section Canonical

variable {next : A → Option A} {iv : A × A} {v : A}

theorem Sorted.tail (hs : Sorted next (iv :: ivs)) : Sorted next ivs where
  ordered ltr hm := hs.ordered ltr (mem_cons_of_mem _ hm)
  apart := (pairwise_cons.mp hs.apart).2

theorem Sorted.endsBefore_of_member (hs : Sorted next (iv :: ivs)) (hm : Member ivs v) :
    endsBefore next v iv = true := by
  obtain ⟨ltr, hi, ha, _⟩ := hm
  exact endsBefore_mono ha ((pairwise_cons.mp hs.apart).1 ltr hi)

section

variable (hn : IsNext next)
include hn

theorem Sorted.first_le (hs : Sorted next (iv :: ivs)) (hm : Member (iv :: ivs) v) : iv.1 ≤ v := by
  rcases member_cons.mp hm with ⟨ha, _⟩ | hl
  · exact ha
  · have ho := hs.ordered iv mem_cons_self
    exact ho.trans (lt_of_endsBefore hn (hs.endsBefore_of_member hl)).le

/-- An interval does not end before the first one of a list that has all its values and starts with
it: the value after its end would lie in the gap. -/
theorem Sorted.last_le {fst o : A × A} (hsr : Sorted next (fst :: ivs)) (hs : fst.1 = o.1)
    (hv : ∀ v, o.1 ≤ v → v ≤ o.2 → Member (fst :: ivs) v) : o.2 ≤ fst.2 := by
  by_contra hb
  rw [not_le] at hb
  cases ha : next fst.2 with
  | none => exact absurd (hn.top ha o.2) (not_le.mpr hb)
  | some gap =>
    have hp : fst.2 < gap := (hn.lt_iff ha fst.2).mpr le_rfl
    have hw : gap ≤ o.2 := by
      rw [← not_lt, hn.lt_iff ha]
      exact not_le.mpr hb
    have hf : o.1 ≤ gap := by
      rw [← hs]
      exact (hsr.ordered fst mem_cons_self).trans hp.le
    rcases member_cons.mp (hv gap hf hw) with ⟨_, blw⟩ | hl
    · exact absurd blw (not_le.mpr hp)
    · have hap := hsr.endsBefore_of_member hl
      rw [endsBefore, ha, any_some, decide_eq_true_eq] at hap
      exact lt_irrefl gap hap

theorem Sorted.member_tail_iff (hs : Sorted next (iv :: ivs)) :
    Member ivs v ↔ Member (iv :: ivs) v ∧ iv.2 < v := by
  rw [member_cons]
  constructor
  · intro hl
    exact ⟨Or.inr hl, lt_of_endsBefore hn (hs.endsBefore_of_member hl)⟩
  · rintro ⟨⟨_, hb⟩ | hl, hbe⟩
    · exact absurd hb (not_le.mpr hbe)
    · exact hl

/-- A set of values has only one sorted list of intervals that are apart. -/
theorem Sorted.eq_of_member_iff {ivs os : List (A × A)} (hsr : Sorted next ivs)
    (ho : Sorted next os) (hs : ∀ v, Member ivs v ↔ Member os v) : ivs = os := by
  induction ivs generalizing os with
  | nil =>
    cases os with
    | nil => rfl
    | cons o os =>
      have hot : Member (o :: os) o.1 :=
        member_cons.mpr (Or.inl ⟨le_rfl, ho.ordered o mem_cons_self⟩)
      obtain ⟨_, hm, _⟩ := (hs o.1).mpr hot
      exact absurd hm not_mem_nil
  | cons fst ivs ih =>
    have hf : Member (fst :: ivs) fst.1 :=
      member_cons.mpr (Or.inl ⟨le_rfl, hsr.ordered fst mem_cons_self⟩)
    cases os with
    | nil =>
      obtain ⟨_, hm, _⟩ := (hs fst.1).mp hf
      exact absurd hm not_mem_nil
    | cons o os =>
      have hot : Member (o :: os) o.1 :=
        member_cons.mpr (Or.inl ⟨le_rfl, ho.ordered o mem_cons_self⟩)
      have hsts : fst.1 = o.1 := le_antisymm (hsr.first_le hn ((hs _).mpr hot))
          (ho.first_le hn ((hs _).mp hf))
      have hst : fst.2 = o.2 := by
        apply le_antisymm
        · exact ho.last_le hn hsts.symm fun v ha hb =>
            (hs v).mp (member_cons.mpr (Or.inl ⟨ha, hb⟩))
        · exact hsr.last_le hn hsts fun v ha hb =>
            (hs v).mpr (member_cons.mpr (Or.inl ⟨ha, hb⟩))
      obtain rfl : fst = o := Prod.ext hsts hst
      rw [ih hsr.tail ho.tail fun v => by
        rw [hsr.member_tail_iff hn, ho.member_tail_iff hn, hs]]

theorem Sorted.covers_of_member (hs : Sorted next ivs) (hm : Member ivs v) :
    covers ivs v v = true := by
  obtain ⟨iv, hli, ha, hb⟩ := hm
  obtain ⟨pre, aft, rfl⟩ := append_of_mem hli
  obtain ⟨_, ⟨hap, _⟩, hp⟩ := by
    have prs := hs.apart
    rw [pairwise_append, pairwise_cons] at prs
    exact prs
  -- the intervals up to this one start by the value, the ones after it do not
  have hpo : partitionPoint (·.1 ≤ v) (pre ++ iv :: aft) = pre.length + 1 := by
    have he : ∀ o ∈ pre, decide (o.1 ≤ v) = true := by
      intro o hbe
      have ho := hs.ordered o (mem_append_left _ hbe)
      have hl := lt_of_endsBefore hn (hp o hbe iv mem_cons_self)
      exact decide_eq_true (ho.trans (hl.le.trans ha))
    have late : aft.takeWhile (fun o => decide (o.1 ≤ v)) = [] := by
      cases aft with
      | nil => rfl
      | cons o rest =>
        have hl := lt_of_endsBefore hn (hap o mem_cons_self)
        exact takeWhile_cons_of_neg (by simpa using hb.trans_lt hl)
    rw [partitionPoint, takeWhile_append_of_pos he, takeWhile_cons_of_pos (by simpa using ha), late]
    simp
  simp [covers, hpo, hb]

end

theorem Sorted.apart_of_ne (hsr : Sorted next ivs) {fst snd : A × A} (hf : fst ∈ ivs)
    (hsi : snd ∈ ivs) (hd : fst ≠ snd) :
    endsBefore next snd.1 fst = true ∨ endsBefore next fst.1 snd = true := by
  induction ivs with
  | nil => exact absurd hf not_mem_nil
  | cons iv ivs ih =>
    have ha := (pairwise_cons.mp hsr.apart).1
    rcases mem_cons.mp hf with rfl | hfl
    · rcases mem_cons.mp hsi with rfl | hs
      · exact absurd rfl hd
      · exact Or.inl (ha snd hs)
    · rcases mem_cons.mp hsi with rfl | hs
      · exact Or.inr (ha fst hfl)
      · exact ih hsr.tail hfl hs

/-- A search covers exactly the intervals whose values all belong to the list. -/
theorem Sorted.covers_iff (hn : IsNext next)
    (hs : Sorted next ivs) {start stop : A} (le : start ≤ stop) :
    covers ivs start stop = true ↔
      ∀ v, start ≤ v → v ≤ stop → Member ivs v := by
  refine ⟨fun hc v hab blw => covers_eq_true hc hab blw, fun ms => ?_⟩
  have hi := hs.covers_of_member hn (ms start le_rfl le)
  unfold covers at hi ⊢
  split
  · rename_i iv hpo
    rw [hpo] at hi
    simp only [Bool.and_eq_true, decide_eq_true_eq] at hi ⊢
    refine ⟨hi.1, ?_⟩
    by_contra hbe
    rw [not_le] at hbe
    -- the value after the interval is asked for, and no interval of the list has it
    cases ha : next iv.2 with
    | none => exact absurd (hn.top ha stop) (not_le.mpr hbe)
    | some gap =>
      have hp : iv.2 < gap := (hn.lt_iff ha iv.2).mpr le_rfl
      have hw : gap ≤ stop := by
        rw [← not_lt, hn.lt_iff ha]
        exact not_le.mpr hbe
      obtain ⟨o, hli, low, high⟩ := ms gap (hi.2.trans hp.le) hw
      have hd : o ≠ iv := by
        rintro rfl
        exact absurd high (not_le.mpr hp)
      rcases hs.apart_of_ne hli (mem_of_getElem? hpo) hd with pre | hb
      · have hl := lt_of_endsBefore hn pre
        have ho := hs.ordered iv (mem_of_getElem? hpo)
        exact absurd (hl.trans_le ho) (not_lt.mpr (hp.le.trans high))
      · rw [endsBefore, ha, any_some, decide_eq_true_eq] at hb
        exact absurd low (not_le.mpr hb)
  · rename_i absent
    rw [absent] at hi
    cases hi

end Canonical

section Insertion

variable {next : A → Option A} {start stop v : A} {pre run post : List (A × A)}

theorem Sorted.sublist {os : List (A × A)} (hs : Sorted next ivs) (sub : os <+ ivs) :
    Sorted next os where
  ordered iv hm := hs.ordered iv (sub.subset hm)
  apart := hs.apart.sublist sub

section

variable (hn : IsNext next)
include hn

/-- The list falls into the intervals before the new one, those it meets and those after it. -/
theorem exists_insert_eq (hsr : Sorted next ivs) (start stop : A) :
    ∃ pre run post, ivs = pre ++ (run ++ post) ∧
      insert next ivs start stop = pre ++ mergeRun start stop run :: post ∧
      (∀ iv ∈ pre, endsBefore next start iv) ∧ (∀ iv ∈ run.head?, ¬endsBefore next start iv) ∧
      (∀ iv ∈ run, startsBy next stop iv) ∧ ∀ iv ∈ post, endsBefore next iv.1 (start, stop) := by
  obtain ⟨rest, hr⟩ : ∃ rest, ivs.dropWhile (endsBefore next start) = rest := ⟨_, rfl⟩
  have hsp : ivs.drop (partitionPoint (endsBefore next start) ivs) = rest :=
    (drop_partitionPoint _ _).trans hr
  refine ⟨ivs.takeWhile (endsBefore next start), rest.takeWhile (startsBy next stop),
    rest.dropWhile (startsBy next stop), ?_, ?_, fun iv => mem_takeWhile_imp, ?_,
    fun iv => mem_takeWhile_imp, ?_⟩
  · rw [takeWhile_append_dropWhile, ← hr, takeWhile_append_dropWhile]
  · simp only [insert, take_partitionPoint, hsp, ← drop_drop, drop_partitionPoint, drop_take,
      Nat.add_sub_cancel_left]
  · intro iv hh
    have hf := head?_dropWhile_not (endsBefore next start) ivs
    rw [hr] at hf
    cases rest with
    | nil => cases hh
    | cons fst os =>
      by_cases hs : startsBy next stop fst
      · rw [takeWhile_cons_of_pos hs] at hh
        cases hh
        simpa using hf
      · rw [takeWhile_cons_of_neg hs] at hh
        cases hh
  · have hf := head?_dropWhile_not (startsBy next stop) rest
    have tail : Sorted next (rest.dropWhile (startsBy next stop)) :=
      hsr.sublist ((dropWhile_sublist _).trans (hr ▸ dropWhile_sublist _))
    cases hl : rest.dropWhile (startsBy next stop) with
    | nil => exact fun _ hm => absurd hm not_mem_nil
    | cons fst os =>
      rw [hl] at hf tail
      intro iv hm
      refine endsBefore_mono (tail.first_le hn (v := iv.1) ⟨iv, hm, le_rfl, tail.ordered iv hm⟩) ?_
      cases ha : next stop with
      | none => simp [startsBy, ha] at hf
      | some bound => simpa [startsBy, endsBefore, ha] using hf

theorem Sorted.le_getLast (hs : Sorted next ivs) {last : A × A} (hl : last ∈ ivs.getLast?)
    (hm : Member ivs v) : v ≤ last.2 := by
  obtain ⟨init, rfl⟩ := getLast?_eq_some_iff.mp hl
  rcases member_append.mp hm with ⟨iv, hin, -, hb⟩ | ⟨iv, hi, -, hb⟩
  · have ha := (pairwise_append.mp hs.apart).2.2 iv hin last mem_cons_self
    have ho := hs.ordered last (by simp)
    exact hb.trans ((lt_of_endsBefore hn ha).le.trans ho)
  · rwa [← mem_singleton.mp hi]

/-- The merged interval has the values of the new one and of those it meets. -/
theorem member_mergeRun (hsr : Sorted next run) (ht : ∀ iv ∈ run.head?,
    ¬endsBefore next start iv) (hs : ∀ iv ∈ run, startsBy next stop iv) :
    (mergeRun start stop run).1 ≤ v ∧ v ≤ (mergeRun start stop run).2 ↔
      start ≤ v ∧ v ≤ stop ∨ Member run v := by
  rcases eq_nil_or_concat run with rfl | ⟨init, last, hr⟩
  · simp [mergeRun, Member]
  have hla : run.getLast? = some last := by simp [hr]
  cases run with
  | nil => cases hla
  | cons fst os =>
    simp only [mergeRun, hla, head?_cons, Option.elim, min_le_iff, le_max_iff]
    constructor
    · rintro ⟨hab, hb⟩
      rcases lt_or_ge v start with he | hf
      · -- the first interval reaches up to the new one
        refine .inr ⟨fst, mem_cons_self, hab.resolve_left (not_le.mpr he), ?_⟩
        have hre := ht fst rfl
        cases ha : next fst.2 with
        | none => exact hn.top ha v
        | some bound =>
          rw [endsBefore, ha, any_some, decide_eq_true_eq, not_lt] at hre
          exact (hn.lt_iff ha v).mp (he.trans_le hre)
      rcases le_or_gt v stop with hu | hl
      · exact .inl ⟨hf, hu⟩
      · -- the last interval starts right behind the new one at the latest
        have hru := mem_of_getLast? hla
        refine .inr ⟨last, hru, ?_, hb.resolve_left (not_le.mpr hl)⟩
        have hrd := hs last hru
        cases ha : next stop with
        | none => exact absurd (hn.top ha v) (not_le.mpr hl)
        | some bound =>
          rw [startsBy, ha, all_some, decide_eq_true_eq] at hrd
          exact hrd.trans (not_lt.mp fun less => not_le.mpr hl ((hn.lt_iff ha v).mp less))
    · rintro (⟨hab, hb⟩ | hm)
      · exact ⟨.inl hab, .inl hb⟩
      · exact ⟨.inr (hsr.first_le hn hm), .inr (hsr.le_getLast hn hla hm)⟩

theorem member_insert (hsr : Sorted next ivs) :
    Member (insert next ivs start stop) v ↔ start ≤ v ∧ v ≤ stop ∨ Member ivs v := by
  obtain ⟨pre, run, post, rfl, hi, -, ht, hs, -⟩ :=
    exists_insert_eq hn hsr start stop
  have hr : Sorted next run := hsr.sublist (by simp)
  rw [hi, member_append, member_cons, member_mergeRun hn hr ht hs, member_append, member_append]
  grind

theorem Sorted.insert (hs : Sorted next ivs) (le : start ≤ stop) :
    Sorted next (insert next ivs start stop) := by
  obtain ⟨pre, run, post, rfl, hi, hbe, ht, hsts, hb⟩ :=
    exists_insert_eq hn hs start stop
  have hr : Sorted next run := hs.sublist (by simp)
  have hbn : (mergeRun start stop run).1 ≤ start ∧ stop ≤ (mergeRun start stop run).2 :=
    ⟨((member_mergeRun hn hr ht hsts).mpr (.inl ⟨le_rfl, le⟩)).1,
      ((member_mergeRun hn hr ht hsts).mpr (.inl ⟨le, le_rfl⟩)).2⟩
  obtain ⟨hpap, ⟨-, hpa, hrp⟩, hpre⟩ := by
    have prs := hs.apart
    rw [pairwise_append, pairwise_append] at prs
    exact prs
  rw [hi]
  refine ⟨fun iv hm => ?_, ?_⟩
  · rcases mem_append.mp hm with hpr | hm
    · exact hs.ordered iv (by simp [hpr])
    rcases mem_cons.mp hm with rfl | hp
    · exact hbn.1.trans (le.trans hbn.2)
    · exact hs.ordered iv (by simp [hp])
  · refine pairwise_append.mpr ⟨hpap, pairwise_cons.mpr ⟨fun iv hp => ?_, hpa⟩,
      fun iv hpr ltr hir => ?_⟩
    · rcases eq_nil_or_concat run with rfl | ⟨init, last, rfl⟩
      · exact hb iv hp
      · have he := hrp last (by simp) iv hp
        rcases le_total stop last.2 with hl | hl
        · simpa [mergeRun, endsBefore, hl] using he
        · simpa [mergeRun, endsBefore, hl] using hb iv hp
    · rcases mem_cons.mp hir with rfl | hp
      · cases run with
        | nil => exact hbe iv hpr
        | cons fst os =>
          rcases le_total start fst.1 with hl | hl
          · simpa [mergeRun, hl] using hbe iv hpr
          · simpa [mergeRun, hl] using hpre iv hpr fst (by simp)
      · exact hpre iv hpr ltr (by simp [hp])

end

end Insertion

end MeowRs.Intervals
