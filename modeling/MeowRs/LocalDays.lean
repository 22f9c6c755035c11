import Mathlib.Order.Bounds.Basic

/-!
# Local days

The traffic ledger files what was counted under the local day.  The zone is a UTC offset with at most
one change to come, so the local time runs in two straight pieces, with a jump either way between
them.
-/

namespace MeowRs

/-- Seconds east of UTC, and the second of the next change with the offset from then on. -/
structure TimeZone where
  offset : Int
  next : Option (Int × Int)

namespace TimeZone

def secondsPerDay : Int := 86400
def i32Min : Int := -2147483648
def i32Max : Int := 2147483647
def lateFlush : Int := 120

def offsetAt (zone : TimeZone) (unix : Int) : Int :=
  match zone.next with
  | some (change, offset) => if change ≤ unix then offset else zone.offset
  | none => zone.offset

def localDay (zone : TimeZone) (unix : Int) : Int :=
  (unix + zone.offsetAt unix) / secondsPerDay

/-- The local day as an `i32`. -/
def day (zone : TimeZone) (unix : Int) : Int :=
  if i32Min ≤ zone.localDay unix ∧ zone.localDay unix ≤ i32Max then zone.localDay unix else i32Max

def nextMidnight (zone : TimeZone) (unix : Int) : Int :=
  let start := (zone.day unix + 1) * secondsPerDay
  let midnight := start - zone.offsetAt unix
  match zone.next with
  | some (change, offset) => if change ≤ midnight then max (start - offset) change else midnight
  | none => midnight

/-- The day that a flush at `now` files under. -/
def flushDay (zone : TimeZone) (now dayEnd : Int) : Int :=
  if 0 ≤ now - dayEnd ∧ now - dayEnd ≤ lateFlush then zone.day (dayEnd - 1) else zone.day now

/-- The local day fits an `i32`. -/
def Fits (zone : TimeZone) (unix : Int) : Prop :=
  i32Min ≤ zone.localDay unix ∧ zone.localDay unix ≤ i32Max

/-- The local day of a second fits, and so do those of the seconds up to the next midnight. -/
def Representable (zone : TimeZone) (unix : Int) : Prop :=
  zone.Fits unix ∧ ∀ t, unix < t → t ≤ zone.nextMidnight unix → zone.Fits t

variable {zone : TimeZone} {unix t : Int}

theorem localDay_lt_iff {d : Int} :
    d < zone.localDay t ↔ (d + 1) * secondsPerDay ≤ t + zone.offsetAt t := by
  rw [← Int.add_one_le_iff, localDay, Int.le_ediv_iff_mul_le (by decide)]

/-- On the offset of `unix`, and on the one after the change, the local day turns where
`nextMidnight` says. -/
theorem nextMidnight_spec (isDay : zone.day unix = zone.localDay unix) :
    unix < zone.nextMidnight unix ∧ zone.day unix < zone.localDay (zone.nextMidnight unix) ∧
    ∀ t, unix ≤ t → t < zone.nextMidnight unix → ¬zone.day unix < zone.localDay t := by
  have notYet : ¬zone.day unix < zone.localDay unix := by rw [isDay]; exact lt_irrefl _
  simp only [localDay_lt_iff] at notYet ⊢
  unfold nextMidnight
  generalize (zone.day unix + 1) * secondsPerDay = start at *
  unfold offsetAt at *
  cases change : zone.next with
  | none =>
    simp only [change] at notYet ⊢
    exact ⟨by omega, by omega, fun t _ _ => by omega⟩
  | some change' =>
    simp only [change] at notYet ⊢
    -- the change comes by the midnight on the offset of `unix`, or after it
    refine ⟨?_, ?_, fun t _ _ => ?_⟩ <;> split_ifs at * <;> omega

/-- The next midnight is the first second of a later local day.  If the offset does not change until
then, a flush by then, or a little late, files under the day that ends. -/
theorem nextMidnight_exact (zone : TimeZone) {unix : Int} (fits : Representable zone unix) :
    IsLeast {t | unix < t ∧ zone.day unix < zone.day t} (zone.nextMidnight unix) ∧
    ((∀ t, unix < t → t ≤ zone.nextMidnight unix - 1 → zone.offsetAt t = zone.offsetAt unix) →
      ∀ now, unix ≤ now → now ≤ zone.nextMidnight unix + lateFlush →
        zone.flushDay now (zone.nextMidnight unix) = zone.day unix) := by
  obtain ⟨later, turned, before⟩ := @nextMidnight_spec zone unix (if_pos fits.1)
  have isDay : ∀ t, unix ≤ t → t ≤ zone.nextMidnight unix → zone.day t = zone.localDay t := by
    intro t after bound
    rcases after.eq_or_lt with rfl | past
    · exact if_pos fits.1
    · exact if_pos (fits.2 t past bound)
  refine ⟨⟨⟨later, ?_⟩, fun t ⟨after, turns⟩ => ?_⟩, fun steady now after bound => ?_⟩
  · rwa [isDay _ later.le le_rfl]
  · by_contra early
    rw [not_le] at early
    rw [isDay t after.le early.le] at turns
    exact before t after.le early turns
  · have same : ∀ t, unix ≤ t → t ≤ zone.nextMidnight unix - 1 → zone.day t = zone.day unix := by
      intro t after bound
      rw [isDay t after (by omega)]
      refine le_antisymm (not_lt.mp (before t after (by omega))) ?_
      rw [isDay unix le_rfl later.le]
      rcases after.eq_or_lt with rfl | past
      · exact le_rfl
      · rw [localDay, localDay, steady t past bound]
        exact Int.ediv_le_ediv (by decide) (by omega)
    rw [flushDay]
    split_ifs with late
    · exact same _ (by omega) le_rfl
    · exact same now after (by omega)

/-- The clock goes forward by an hour in the course of the day. -/
theorem nextMidnight_exact_forward :
    IsLeast {t | 0 < t ∧ day ⟨3600, some (7200, 7200)⟩ 0 < day ⟨3600, some (7200, 7200)⟩ t} 79200 := by
  have inRange : ∀ t, 0 ≤ t → t ≤ 79200 → Fits ⟨3600, some (7200, 7200)⟩ t := by
    intro t after bound
    simp only [Fits, localDay, offsetAt, i32Min, i32Max, secondsPerDay]
    split_ifs <;> omega
  exact (nextMidnight_exact ⟨3600, some (7200, 7200)⟩ ⟨inRange 0 le_rfl (by decide),
    fun t after bound => inRange t after.le bound⟩).1

end TimeZone

end MeowRs
