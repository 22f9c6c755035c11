import Mathlib.Data.List.MinMax
import Mathlib.Data.List.Perm.Basic

/-!
# The packet-ID replay window

`meow-common`'s `ReplayWindow` filters packet IDs with a bitmap of 32 limbs of
64 bits.  Position `i`, counted back from the newest accepted ID, lives in
bit `i % 64` of limb `i / 64`, and accepting a newer ID moves every recorded
bit toward the higher limbs.  This file proves that the in-place limb shift
moves positions exactly, and from this that a whole sequence of calls accepts
an ID precisely when it is fresh and not older than the window.
-/

namespace MeowRs

open Option

def windowLimbs : Nat := 32

def windowBits : Nat := windowLimbs * 64

/-- The largest packet ID accepted so far and the bitmap of recorded
positions. -/
structure ReplayWindow where
  maxSeen : BitVec 64
  bits : Vector (BitVec 64) 32

namespace ReplayWindow

variable {accepted : List (BitVec 64)} {window : ReplayWindow} {id : BitVec 64}
  {ids : List (BitVec 64)}

def new : ReplayWindow :=
  ⟨0, Vector.replicate 32 0⟩

/-- The value one iteration of the shift loop stores into limb `i`. -/
def shiftedLimb (bits : Vector (BitVec 64) 32) (limbs rem i : Nat) :
    BitVec 64 :=
  let v := if limbs ≤ i then bits[i - limbs]! else 0
  if rem ≠ 0 then
    let v := v <<< rem
    if limbs < i then v ||| (bits[i - limbs - 1]! >>> (64 - rem)) else v
  else v

/-- The descending in-place loop of `shift`, with the limbs `0, ..., count - 1`
still to be written. -/
def shiftLoop (limbs rem : Nat) :
    Nat → Vector (BitVec 64) 32 → Vector (BitVec 64) 32
  | 0, bits => bits
  | i + 1, bits =>
    shiftLoop limbs rem i
      (bits.set! i (shiftedLimb bits limbs rem i))

/-- Move every recorded bit `distance` positions toward older offsets. -/
def shift (bits : Vector (BitVec 64) 32) (distance : BitVec 64) :
    Vector (BitVec 64) 32 :=
  if windowBits ≤ distance.toNat then
    Vector.replicate 32 0
  else
    let limbs := (distance / 64).toNat
    let rem := (distance % 64).toNat
    shiftLoop limbs rem windowLimbs bits

/-- `check_and_set`: whether `id` may be processed, and the window with `id`
recorded when it may. -/
def checkAndSet (window : ReplayWindow) (id : BitVec 64) :
    Bool × ReplayWindow :=
  if id = BitVec.allOnes 64 then
    (false, window)
  else if window.maxSeen < id then
    let bits := shift window.bits (id - window.maxSeen)
    (true, ⟨id, bits.set! 0 (bits[0]! ||| 1#64)⟩)
  else
    let diff := window.maxSeen - id
    if windowBits ≤ diff.toNat then
      (false, window)
    else
      let index := (diff / 64).toNat
      let limb := window.bits[index]!
      let mask := 1#64 <<< (diff % 64).toNat
      if limb &&& mask ≠ 0 then
        (false, window)
      else
        (true, { window with bits := window.bits.set! index (limb ||| mask) })

def run (window : ReplayWindow) (ids : List (BitVec 64)) : ReplayWindow :=
  ids.foldl (fun current id => (checkAndSet current id).2) window

/-- The IDs for which the calls of a sequence return `true`, in call order. -/
def acceptedIds (window : ReplayWindow) :
    List (BitVec 64) → List (BitVec 64)
  | [] => []
  | id :: rest =>
    if (checkAndSet window id).1 then
      id :: acceptedIds (checkAndSet window id).2 rest
    else
      acceptedIds (checkAndSet window id).2 rest

/-- The largest ID of a list, `0` for the empty list. -/
def largestId (ids : List (BitVec 64)) : Nat :=
  (ids.map BitVec.toNat).foldr max 0

/-- Whether position `pos` of a bitmap is recorded. -/
def recorded (bits : Vector (BitVec 64) 32) (pos : Nat) : Bool :=
  (bits[pos / 64]!).getLsbD (pos % 64)

theorem get_set (bits : Vector (BitVec 64) 32) (value : BitVec 64) {i j : Nat} (within : j < 32) :
    (bits.set! i value)[j]! = if i = j then value else bits[j]! := by
  rw [getElem!_pos _ j within, getElem!_pos _ j within, Vector.getElem_set!]

theorem shiftedLimb_congr {first second : Vector (BitVec 64) 32} {limbs rem i : Nat}
    (agree : ∀ j ≤ i, first[j]! = second[j]!) :
    shiftedLimb first limbs rem i = shiftedLimb second limbs rem i := by
  simp only [shiftedLimb, agree (i - limbs) (by omega),
    agree (i - limbs - 1) (by omega)]

/-- Descending order makes the in-place loop read only limbs it has not
written yet. -/
theorem shiftLoop_get (limbs rem : Nat) {count j : Nat}
    (bits : Vector (BitVec 64) 32) (bound : count ≤ 32) (within : j < 32) :
    (shiftLoop limbs rem count bits)[j]! =
      if j < count then shiftedLimb bits limbs rem j else bits[j]! := by
  induction count generalizing bits with
  | zero => simp [shiftLoop]
  | succ i ih =>
    rw [shiftLoop, ih _ (by omega)]
    by_cases below : j < i
    · rw [if_pos below, if_pos (by omega)]
      apply shiftedLimb_congr
      intro k atMost
      rw [get_set _ _ (by omega), if_neg (by omega)]
    · rw [if_neg below, get_set _ _ within]
      by_cases atLimb : i = j
      · rw [if_pos atLimb, if_pos (by omega), atLimb]
      · rw [if_neg atLimb, if_neg (by omega)]

/-- A shifted limb collects the bits that lie `limbs * 64 + rem` positions
lower, across the limb boundary. -/
theorem recorded_add (bits : Vector (BitVec 64) 32) {limb offset : Nat} (bound : offset < 64) :
    recorded bits (limb * 64 + offset) = (bits[limb]!).getLsbD offset := by
  rw [recorded, show (limb * 64 + offset) / 64 = limb by omega,
    show (limb * 64 + offset) % 64 = offset by omega]

theorem shiftedLimb_getLsbD (bits : Vector (BitVec 64) 32)
    {limbs rem i offset : Nat} (remBound : rem < 64) (bitBound : offset < 64) :
    (shiftedLimb bits limbs rem i).getLsbD offset =
      (decide (limbs * 64 + rem ≤ i * 64 + offset) &&
        recorded bits (i * 64 + offset - (limbs * 64 + rem))) := by
  by_cases reached : limbs * 64 + rem ≤ i * 64 + offset
  · by_cases sameLimb : rem ≤ offset
    · have position : i * 64 + offset - (limbs * 64 + rem) =
          (i - limbs) * 64 + (offset - rem) := by omega
      have carryClear : ∀ limb : BitVec 64,
          limb.getLsbD (64 - rem + offset) = false := by
        intro limb
        exact BitVec.getLsbD_of_ge _ _ (by omega)
      have limbReached : limbs ≤ i := by omega
      have shiftedBound : offset - rem < 64 := by omega
      rw [position, recorded_add _ shiftedBound]
      by_cases aligned : rem = 0
      · simp [shiftedLimb, aligned, limbReached, bitBound,
          show limbs * 64 ≤ i * 64 + offset by omega]
      · by_cases carries : limbs < i <;>
          simp [shiftedLimb, aligned, limbReached, carries, bitBound, reached, carryClear,
            not_lt.mpr sameLimb, shiftedBound]
    · have position : i * 64 + offset - (limbs * 64 + rem) =
          (i - limbs - 1) * 64 + (64 - rem + offset) := by omega
      have carries : limbs < i := by omega
      rw [position, recorded_add _ (by omega)]
      simp [shiftedLimb, show rem ≠ 0 by omega, carries, carries.le, reached,
        show offset < rem by omega]
  · have beforeLimb : i < limbs ∨ i = limbs ∧ offset < rem := by omega
    rcases beforeLimb with below | ⟨rfl, belowBit⟩
    · simp [shiftedLimb, reached, show ¬ limbs ≤ i by omega,
        show ¬ limbs < i by omega]
    · simp [shiftedLimb, reached, show rem ≠ 0 by omega, belowBit]

/-- The limb shift moves every recorded position by exactly `distance`. -/
theorem recorded_shift (bits : Vector (BitVec 64) 32) (distance : BitVec 64)
    {pos : Nat} (within : pos < windowBits) :
    recorded (shift bits distance) pos =
      (decide (distance.toNat ≤ pos) && recorded bits (pos - distance.toNat)) := by
  have limbBound : pos / 64 < 32 := by
    simp only [windowBits, windowLimbs] at within
    omega
  by_cases cleared : windowBits ≤ distance.toNat
  · rw [shift, if_pos cleared, recorded,
      getElem!_pos (Vector.replicate 32 (0 : BitVec 64)) (pos / 64) limbBound,
      Vector.getElem_replicate]
    simp [show ¬ distance.toNat ≤ pos by omega]
  · have split : distance.toNat / 64 * 64 + distance.toNat % 64 =
        distance.toNat := by omega
    have posSplit : pos / 64 * 64 + pos % 64 = pos := by omega
    have limbsValue : (distance / 64).toNat = distance.toNat / 64 := by simp
    have remValue : (distance % 64).toNat = distance.toNat % 64 := by simp
    rw [shift, if_neg cleared, recorded, limbsValue, remValue,
      shiftLoop_get _ _ _ (by simp [windowLimbs]) limbBound,
      if_pos (by simpa [windowLimbs] using limbBound),
      shiftedLimb_getLsbD bits (Nat.mod_lt _ (by omega)) (Nat.mod_lt _ (by omega)),
      split, posSplit]

@[simp]
theorem largestId_concat (ids : List (BitVec 64)) (id : BitVec 64) :
    largestId (ids ++ [id]) = max (largestId ids) id.toNat := by
  induction ids with
  | nil => simp [largestId]
  | cons first rest ih =>
    simp only [largestId, List.cons_append, List.map_cons, List.foldr_cons]
      at ih ⊢
    rw [ih, max_assoc]

theorem toNat_le_largestId (member : id ∈ ids) : id.toNat ≤ largestId ids := by
  induction ids with
  | nil => simp at member
  | cons first rest ih =>
    rcases List.mem_cons.mp member with rfl | inRest
    · exact le_max_left _ _
    · exact le_trans (ih inRest) (le_max_right _ _)

theorem largestId_le {bound : Nat}
    (bounded : ∀ id ∈ ids, id.toNat ≤ bound) : largestId ids ≤ bound := by
  induction ids with
  | nil => simp [largestId]
  | cons first rest ih =>
    exact max_le (bounded first (by simp))
      (ih fun id member => bounded id (by simp [member]))

theorem largestId_congr {first second : List (BitVec 64)}
    (sameSet : ∀ id, id ∈ first ↔ id ∈ second) :
    largestId first = largestId second := by
  apply le_antisymm
  · exact largestId_le fun id member => toNat_le_largestId ((sameSet id).mp member)
  · exact largestId_le fun id member => toNat_le_largestId ((sameSet id).mpr member)

/-- The acceptance rule of the window in terms of the IDs accepted so far. -/
def Admissible (accepted : List (BitVec 64)) (id : BitVec 64) : Prop :=
  id ≠ BitVec.allOnes 64 ∧ id ∉ accepted ∧
    (largestId accepted < id.toNat ∨ largestId accepted - id.toNat < 2048)

/-- A window tracks a list of accepted IDs when its maximum is theirs and
every in-window position is recorded exactly for an accepted ID. -/
structure Tracks (window : ReplayWindow) (accepted : List (BitVec 64)) :
    Prop where
  maxSeen_eq : window.maxSeen.toNat = largestId accepted
  recorded_iff : ∀ pos < windowBits, ∀ id : BitVec 64,
    id.toNat + pos = window.maxSeen.toNat →
      (recorded window.bits pos = true ↔ id ∈ accepted)

theorem tracks_new : Tracks new [] where
  maxSeen_eq := by simp [new, largestId]
  recorded_iff := by
    intro pos within id _
    have limbBound : pos / 64 < 32 := by
      simp only [windowBits, windowLimbs] at within
      omega
    rw [recorded, new, getElem!_pos (Vector.replicate 32 (0 : BitVec 64)) _ limbBound,
      Vector.getElem_replicate]
    simp

theorem and_mask_ne_zero (limb : BitVec 64) {offset : Nat} (bitBound : offset < 64) :
    (limb &&& 1#64 <<< offset) ≠ 0 ↔ limb.getLsbD offset = true := by
  rw [← BitVec.twoPow_eq, BitVec.and_twoPow]
  have maskBit : (BitVec.twoPow 64 offset).getLsbD offset = true := by
    simp [bitBound]
  cases limb.getLsbD offset with
  | false => simp
  | true =>
    simp only [if_true, iff_true]
    intro isZero
    simp [isZero] at maskBit

theorem recorded_set_or (bits : Vector (BitVec 64) 32) {pos : Nat}
    (target : Nat) (within : pos < windowBits) :
    recorded (bits.set! (target / 64)
        (bits[target / 64]! ||| 1#64 <<< (target % 64))) pos =
      (recorded bits pos || decide (pos = target)) := by
  have limbBound : pos / 64 < 32 := by
    simp only [windowBits, windowLimbs] at within
    omega
  rw [recorded, get_set _ _ limbBound]
  by_cases sameLimb : target / 64 = pos / 64
  · rw [if_pos sameLimb, BitVec.getLsbD_or, sameLimb, recorded]
    congr 1
    have bitBound : pos % 64 < 64 := Nat.mod_lt _ (by omega)
    rw [BitVec.getLsbD_shiftLeft]
    simp only [bitBound, decide_true, Bool.true_and, BitVec.getLsbD_one]
    by_cases equal : pos = target
    · simp [equal]
    · have : pos % 64 ≠ target % 64 := by omega
      simp only [equal, decide_false, Bool.and_eq_false_iff,
        Bool.not_eq_false', decide_eq_true_eq, decide_eq_false_iff_not]
      omega
  · rw [if_neg sameLimb, recorded]
    have different : pos ≠ target := fun equal => sameLimb (by rw [equal])
    simp [different]

/-- What one call can do: accept a newer ID, accept an unrecorded in-window ID,
or reject and leave the window alone. -/
theorem checkAndSet_cases (window : ReplayWindow) (id : BitVec 64) :
    (id ≠ BitVec.allOnes 64 ∧ window.maxSeen < id ∧
      checkAndSet window id =
        (true, ⟨id, (shift window.bits (id - window.maxSeen)).set! 0
          ((shift window.bits (id - window.maxSeen))[0]! ||| 1#64)⟩)) ∨
    (id ≠ BitVec.allOnes 64 ∧ id.toNat ≤ window.maxSeen.toNat ∧
      window.maxSeen.toNat - id.toNat < windowBits ∧
      recorded window.bits (window.maxSeen.toNat - id.toNat) = false ∧
      checkAndSet window id =
        (true, ⟨window.maxSeen, window.bits.set!
          ((window.maxSeen.toNat - id.toNat) / 64)
          (window.bits[(window.maxSeen.toNat - id.toNat) / 64]! |||
            1#64 <<< ((window.maxSeen.toNat - id.toNat) % 64))⟩)) ∨
    (checkAndSet window id = (false, window) ∧
      (id = BitVec.allOnes 64 ∨
        id.toNat ≤ window.maxSeen.toNat ∧
          (windowBits ≤ window.maxSeen.toNat - id.toNat ∨
            window.maxSeen.toNat - id.toNat < windowBits ∧
              recorded window.bits (window.maxSeen.toNat - id.toNat) = true))) := by
  by_cases atTop : id = BitVec.allOnes 64
  · exact .inr (.inr ⟨by rw [checkAndSet, if_pos atTop], .inl atTop⟩)
  by_cases newer : window.maxSeen < id
  · exact .inl ⟨atTop, newer, by rw [checkAndSet, if_neg atTop, if_pos newer]⟩
  have older : id.toNat ≤ window.maxSeen.toNat := by
    have := mt BitVec.lt_def.mpr newer
    omega
  have distance : (window.maxSeen - id).toNat =
      window.maxSeen.toNat - id.toNat :=
    BitVec.toNat_sub_of_le (BitVec.le_def.mpr older)
  have quotient : ((window.maxSeen - id) / 64).toNat =
      (window.maxSeen.toNat - id.toNat) / 64 := by simp [distance]
  have remainder : ((window.maxSeen - id) % 64).toNat =
      (window.maxSeen.toNat - id.toNat) % 64 := by simp [distance]
  have maskTest := and_mask_ne_zero
    (window.bits[(window.maxSeen.toNat - id.toNat) / 64]!)
    (Nat.mod_lt (window.maxSeen.toNat - id.toNat) (by omega : 64 > 0))
  rw [checkAndSet, if_neg atTop, if_neg newer]
  simp only [distance, quotient, remainder]
  by_cases tooOld : windowBits ≤ window.maxSeen.toNat - id.toNat
  · exact .inr (.inr ⟨by rw [if_pos tooOld], .inr ⟨older, .inl tooOld⟩⟩)
  have within : window.maxSeen.toNat - id.toNat < windowBits := by omega
  rw [if_neg tooOld]
  cases seen : recorded window.bits (window.maxSeen.toNat - id.toNat) with
  | false =>
    refine .inr (.inl ⟨atTop, older, within, rfl, ?_⟩)
    rw [if_neg (mt maskTest.mp (by simpa [recorded] using seen))]
  | true =>
    refine .inr (.inr ⟨?_, .inr ⟨older, .inr ⟨within, rfl⟩⟩⟩)
    rw [if_pos (maskTest.mpr seen)]

section

variable (tracks : Tracks window accepted)
include tracks

/-- Recording an ID newer than the maximum: the bitmap moves by the distance
and position zero becomes the new ID. -/
theorem Tracks.record_newer (newer : window.maxSeen < id) :
    Tracks ⟨id, (shift window.bits (id - window.maxSeen)).set! 0
    ((shift window.bits (id - window.maxSeen))[0]! ||| 1#64)⟩
    (accepted ++ [id]) := by
  have newerNat : window.maxSeen.toNat < id.toNat := BitVec.lt_def.mp newer
  have distance : (id - window.maxSeen).toNat =
      id.toNat - window.maxSeen.toNat :=
    BitVec.toNat_sub_of_le (BitVec.le_of_lt newer)
  have maxEq := tracks.maxSeen_eq
  constructor
  · rw [largestId_concat, ← maxEq]
    exact (max_eq_right newerNat.le).symm
  · intro pos within other position
    have zeroTarget := recorded_set_or
      (shift window.bits (id - window.maxSeen)) 0 within
    simp only [Nat.zero_div, Nat.zero_mod, BitVec.shiftLeft_zero] at zeroTarget
    simp only at position
    rw [zeroTarget, recorded_shift _ _ within, distance, List.mem_append,
      List.mem_singleton]
    by_cases isNew : pos = 0
    · have : other = id := BitVec.eq_of_toNat_eq (by omega)
      simp [isNew, this]
    · have otherNe : other ≠ id := by
        rintro rfl
        omega
      by_cases reached : id.toNat - window.maxSeen.toNat ≤ pos
      · have := tracks.recorded_iff
          (pos - (id.toNat - window.maxSeen.toNat)) (by omega) other (by omega)
        simp [isNew, otherNe, reached, this]
      · have unseen : other ∉ accepted := by
          intro member
          have := toNat_le_largestId member
          omega
        simp [isNew, otherNe, reached, unseen]

theorem Tracks.record_older (older : id.toNat ≤ window.maxSeen.toNat) :
    Tracks ⟨window.maxSeen, window.bits.set!
    ((window.maxSeen.toNat - id.toNat) / 64)
    (window.bits[(window.maxSeen.toNat - id.toNat) / 64]! |||
        1#64 <<< ((window.maxSeen.toNat - id.toNat) % 64))⟩
    (accepted ++ [id]) := by
  constructor
  · rw [largestId_concat, ← tracks.maxSeen_eq]
    exact (max_eq_left older).symm
  · intro pos within other position
    have otherSeen := tracks.recorded_iff pos within other position
    simp only at position
    rw [recorded_set_or _ _ within, List.mem_append, List.mem_singleton]
    by_cases target : pos = window.maxSeen.toNat - id.toNat
    · have : other = id := BitVec.eq_of_toNat_eq (by omega)
      simp [target, this]
    · have : other ≠ id := by
        rintro rfl
        omega
      simp [target, this, otherSeen]

/-- One call answers the acceptance rule and keeps the window tracking the
accepted IDs. -/
theorem checkAndSet_tracks (id : BitVec 64) :
    ((checkAndSet window id).1 = true ↔ Admissible accepted id) ∧
      Tracks (checkAndSet window id).2
    (if (checkAndSet window id).1 then accepted ++ [id] else accepted) := by
  have maxEq := tracks.maxSeen_eq
  have width : windowBits = 2048 := rfl
  rcases checkAndSet_cases window id with
    ⟨notTop, newer, answer⟩ | ⟨notTop, older, within, unseen, answer⟩ | ⟨answer, reason⟩
  · have newerNat : window.maxSeen.toNat < id.toNat := BitVec.lt_def.mp newer
    have fresh : id ∉ accepted := by
      intro member
      have := toNat_le_largestId member
      omega
    rw [answer]
    refine ⟨?_, by simpa using tracks.record_newer newer⟩
    simp only [true_iff]
    exact ⟨notTop, fresh, .inl (by omega)⟩
  · have seen := tracks.recorded_iff _ within id (by omega)
    rw [answer]
    refine ⟨?_, by simpa using tracks.record_older older⟩
    simp only [true_iff]
    refine ⟨notTop, ?_, .inr (by omega)⟩
    intro member
    rw [seen.mpr member] at unseen
    cases unseen
  · rw [answer]
    refine ⟨?_, by simpa using tracks⟩
    simp only [Bool.false_eq_true, false_iff]
    rintro ⟨notTop, fresh, position⟩
    rcases reason with atTop | ⟨older, tooOld | ⟨within, seen⟩⟩
    · exact notTop atTop
    · omega
    · exact fresh ((tracks.recorded_iff _ within id (by omega)).mp seen)

theorem run_tracks (ids : List (BitVec 64)) :
    Tracks (run window ids) (accepted ++ acceptedIds window ids) := by
  induction ids generalizing window accepted with
  | nil => simpa [run, acceptedIds] using tracks
  | cons id rest ih =>
    have restTracks := ih (checkAndSet_tracks tracks id).2
    by_cases taken : (checkAndSet window id).1 = true
    all_goals simpa [run, acceptedIds, taken] using restTracks

/-- From a window that tracks `accepted`, a run accepts only IDs outside
`accepted`, each once. -/
theorem acceptedIds_nodup (nodup : accepted.Nodup) (ids : List (BitVec 64)) :
    (accepted ++ acceptedIds window ids).Nodup := by
  induction ids generalizing window accepted with
  | nil => simpa [acceptedIds] using nodup
  | cons id rest ih =>
    have step := checkAndSet_tracks tracks id
    by_cases taken : (checkAndSet window id).1 = true
    · have fresh : id ∉ accepted := (step.1.mp taken).2.1
      have nextTracks := step.2
      rw [if_pos taken] at nextTracks
      have nextNodup : (accepted ++ [id]).Nodup := by
        rw [List.perm_append_singleton id accepted |>.nodup_iff]
        exact List.nodup_cons.mpr ⟨fresh, nodup⟩
      simpa [acceptedIds, taken] using ih nextTracks nextNodup
    · have nextTracks := step.2
      rw [if_neg taken] at nextTracks
      simpa [acceptedIds, taken] using ih nextTracks nodup

end

/-- After any sequence of earlier calls on a fresh window, a call accepts `id`
exactly when `id` is not `u64::MAX`, was not accepted before, and is newer than
the largest accepted ID or less than 2048 behind it.  Hence no ID is accepted
twice, and the answer depends on the earlier calls only through the set of
accepted IDs, not through the order in which they arrived. -/
theorem checkAndSet_exact :
    (∀ (earlier : List (BitVec 64)) (id : BitVec 64),
      (checkAndSet (run new earlier) id).1 = true ↔
        id ≠ BitVec.allOnes 64 ∧ id ∉ acceptedIds new earlier ∧
          (largestId (acceptedIds new earlier) < id.toNat ∨
            largestId (acceptedIds new earlier) - id.toNat < 2048)) ∧
      (∀ calls : List (BitVec 64), (acceptedIds new calls).Nodup) ∧
      ∀ (first second : List (BitVec 64)) (id : BitVec 64),
        (∀ other, other ∈ acceptedIds new first ↔ other ∈ acceptedIds new second) →
          (checkAndSet (run new first) id).1 = (checkAndSet (run new second) id).1 := by
  have exact : ∀ (earlier : List (BitVec 64)) (id : BitVec 64),
      (checkAndSet (run new earlier) id).1 = true ↔
        Admissible (acceptedIds new earlier) id := by
    intro earlier id
    exact (checkAndSet_tracks (run_tracks tracks_new earlier) id).1
  refine ⟨exact, ?_, ?_⟩
  · intro calls
    exact acceptedIds_nodup tracks_new List.nodup_nil calls
  · intro first second id sameSet
    have sameLargest : largestId (acceptedIds new first) =
        largestId (acceptedIds new second) :=
      largestId_congr sameSet
    rw [Bool.eq_iff_iff, exact, exact, Admissible, Admissible, sameSet, sameLargest]

/-- The same in-window ID is judged alike after the same two IDs in either
order. -/
theorem checkAndSet_exact_reordered :
    (checkAndSet (run new [100, 50]) 7).1 = (checkAndSet (run new [50, 100]) 7).1 :=
  checkAndSet_exact.2.2 [100, 50] [50, 100] 7 (by
    have firstIds : acceptedIds new [100, 50] = [100, 50] := by decide +kernel
    have secondIds : acceptedIds new [50, 100] = [50, 100] := by decide +kernel
    intro other
    rw [firstIds, secondIds]
    exact (List.Perm.swap _ _ _).mem_iff)

end ReplayWindow

end MeowRs
