import Mathlib.Data.Nat.Count
import Mathlib.Data.Nat.Factorization.Basic
import MeowRs.Intervals

/-!
# Rank and select over packed bits

A bit sequence is stored in words, lowest bit first, and reads as zero past the last word.  The rank
of a position is the number of ones before it; a directory holds the rank of each word's first bit.
Select goes the other way: the last directory entry that is not too large names the word, and
clearing its lowest ones leads to the bit.
-/

namespace MeowRs.RankSelect

open List Option Intervals

variable {width : Nat}

def bitAt (words : List (BitVec width)) (index : Nat) : Bool :=
  (words[index / width]?).any (·.getLsbD (index % width))

def rank (words : List (BitVec width)) (position : Nat) : Nat :=
  Nat.count (bitAt words · = true) position

def rankWithin (word : BitVec width) (position : Nat) : Nat :=
  Nat.count (word.getLsbD · = true) position

/-- The ones before each word, and after the last one their total. -/
def directory : Nat → List (BitVec width) → List Nat
  | seen, [] => [seen]
  | seen, word :: words => seen :: directory (seen + word.cpop.toNat) words

/-- As many ones as `position` says, from the lowest bit up. -/
def lowMask (width position : Nat) : BitVec width :=
  BitVec.ofNat width 1 <<< position - BitVec.ofNat width 1

def clearLowest (word : BitVec width) : BitVec width :=
  word &&& (word - BitVec.ofNat width 1)

section Words

variable {word : BitVec width}

theorem toNat_cpop_eq_rankWithin (word : BitVec width) :
    word.cpop.toNat = rankWithin word width := by
  have hc (pos : Nat) : word.cpopNatRec pos 0 = rankWithin word pos := by
    induction pos with
    | zero => rfl
    | succ pos ih =>
      rw [BitVec.cpopNatRec_succ, BitVec.cpopNatRec_eq, ih, rankWithin, rankWithin, Nat.count_succ]
      cases word.getLsbD pos <;> simp
  rw [BitVec.toNat_cpop, hc]

theorem getLsbD_mask (word : BitVec width) {pos : Nat} (hb : pos < width) (i : Nat) :
    (word &&& lowMask width pos).getLsbD i =
      (word.getLsbD i && decide (i < pos)) := by
  have hsm : 2 ^ pos < 2 ^ width := Nat.pow_lt_pow_right (by decide) hb
  have hp : 0 < 2 ^ pos := Nat.two_pow_pos pos
  have ho : (BitVec.ofNat width 1).toNat = 1 := Nat.mod_eq_of_lt (by omega)
  have hs : (BitVec.ofNat width 1 <<< pos).toNat = 2 ^ pos := by
    rw [BitVec.toNat_shiftLeft, ho, Nat.shiftLeft_eq, Nat.one_mul, Nat.mod_eq_of_lt hsm]
  have hol : BitVec.ofNat width 1 ≤ BitVec.ofNat width 1 <<< pos := by
    rw [BitVec.le_def, hs, ho]
    exact hp
  rw [lowMask, BitVec.getLsbD_and, BitVec.getLsbD, BitVec.getLsbD, BitVec.toNat_sub_of_le hol,
    hs, ho, Nat.testBit_two_pow_sub_one]

theorem toNat_cpop_mask (word : BitVec width) {pos : Nat} (hb : pos < width) :
    (word &&& lowMask width pos).cpop.toNat = rankWithin word pos := by
  have hc {bound : Nat} (le : pos ≤ bound) :
      rankWithin (word &&& lowMask width pos) bound = rankWithin word pos := by
    rw [rankWithin, rankWithin, ← Nat.add_sub_cancel' le, Nat.count_add]
    have hl : Nat.count (fun i => (word &&& lowMask width pos).getLsbD
        i = true) pos = Nat.count (word.getLsbD · = true) pos := by
      rw [Nat.count_eq_card_filter_range, Nat.count_eq_card_filter_range]
      congr 1
      apply Finset.filter_congr
      intro i hm
      rw [getLsbD_mask word hb, decide_eq_true (Finset.mem_range.mp hm), Bool.and_true]
    have hu : Nat.count (fun i => (word &&& lowMask width pos).getLsbD
        (pos + i) = true) (bound - pos) = 0 := by
      rw [Nat.count_iff_forall_not]
      simp [getLsbD_mask word hb]
    rw [hl, hu, add_zero]
  rw [toNat_cpop_eq_rankWithin, hc hb.le]

/-- Subtracting one turns the lowest one into a zero and leaves every higher bit. -/
theorem testBit_and_sub_one {v : Nat} (nonzero : v ≠ 0) :
    ∃ lowest, v.testBit lowest = true ∧ (∀ i < lowest, v.testBit i = false) ∧
      ∀ i, (v &&& (v - 1)).testBit i =
        (v.testBit i && decide (i ≠ lowest)) := by
  obtain ⟨lowest, odd, ⟨half, rfl⟩, rfl⟩ := Nat.exists_eq_two_pow_mul_odd nonzero
  have pos : 0 < 2 ^ lowest := Nat.two_pow_pos lowest
  have pre : 2 ^ lowest * (2 * half + 1) - 1 = 2 ^ lowest * (2 * half) + (2 ^ lowest - 1) := by
    rw [Nat.mul_add, Nat.mul_one]
    omega
  have bits (i : Nat) : (2 ^ lowest * (2 * half + 1)).testBit i =
      if i < lowest then false else (2 * half + 1).testBit (i - lowest) := by
    have split := Nat.testBit_two_pow_mul_add (2 * half + 1) pos i
    rwa [add_zero, Nat.zero_testBit] at split
  have bitsBefore (i : Nat) : (2 ^ lowest * (2 * half + 1) - 1).testBit i =
      if i < lowest then true else (2 * half).testBit (i - lowest) := by
    rw [pre, Nat.testBit_two_pow_mul_add _ (by omega : 2 ^ lowest - 1 < 2 ^ lowest)]
    split
    · next below => rw [Nat.testBit_two_pow_sub_one, decide_eq_true below]
    · rfl
  have higher (i : Nat) :
      (2 * half + 1).testBit (i + 1) = (2 * half).testBit (i + 1) := by
    rw [Nat.testBit_succ, Nat.testBit_succ]
    congr 1
    omega
  refine ⟨lowest, by rw [bits]; simp, fun i below => by rw [bits, if_pos below], ?_⟩
  intro i
  rw [Nat.testBit_and, bits, bitsBefore]
  rcases lt_trichotomy i lowest with below | rfl | above
  · simp only [if_pos below, Bool.false_and]
  · simp
  · have succ : i - lowest = (i - lowest - 1) + 1 := by omega
    rw [if_neg above.not_gt, if_neg above.not_gt, succ, higher, Bool.and_self,
      decide_eq_true above.ne', Bool.and_true]

/-- Clearing the lowest one keeps the ones that have another one below them. -/
theorem getLsbD_clearLowest (i : Nat) :
    (clearLowest word).getLsbD i =
      (word.getLsbD i && decide (0 < rankWithin word i)) := by
  by_cases hz : word = BitVec.ofNat width 0
  · subst hz
    simp [clearLowest]
  · have hn : word.toNat ≠ 0 := fun hze =>
      hz (BitVec.eq_of_toNat_eq (by simpa using hze))
    obtain ⟨lowest, hon, hb, hc⟩ := testBit_and_sub_one hn
    have hw : 1 < 2 ^ width := by
      omega
    have one : (BitVec.ofNat width 1).toNat = 1 := Nat.mod_eq_of_lt hw
    have ho : BitVec.ofNat width 1 ≤ word := by
      rw [BitVec.le_def, one]
      omega
    rw [clearLowest, BitVec.getLsbD, BitVec.toNat_and, BitVec.toNat_sub_of_le ho, one, hc]
    change (word.getLsbD i && _) = _
    cases hi : word.getLsbD i with
    | false => rfl
    | true =>
      have hl : lowest ≤ i := by
        by_contra above
        have := hb i (by omega)
        rw [BitVec.getLsbD, this] at hi
        cases hi
      have hp : 0 < rankWithin word i ↔ i ≠ lowest := by
        rw [Nat.pos_iff_ne_zero, rankWithin, Nat.count_ne_iff_exists]
        constructor
        · rintro ⟨o, hol, hot⟩ rfl
          rw [BitVec.getLsbD, hb o hol] at hot
          cases hot
        · exact fun ne => ⟨lowest, by omega, hon⟩
      simp only [hp]

theorem rankWithin_clearLowest (pos : Nat) :
    rankWithin (clearLowest word) pos = rankWithin word pos - 1 := by
  induction pos with
  | zero => rfl
  | succ pos ih =>
    have hn (o : BitVec width) : rankWithin o (pos + 1) =
        rankWithin o pos + if o.getLsbD pos = true then 1 else 0 :=
      Nat.count_succ _ _
    rw [hn, hn, ih, getLsbD_clearLowest]
    cases word.getLsbD pos <;> by_cases hp : 0 < rankWithin word pos
    all_goals simp [hp]
    all_goals omega

theorem rankWithin_clearLowest_iterate (word : BitVec width) (cleared pos : Nat) :
    rankWithin (clearLowest^[cleared] word) pos = rankWithin word pos - cleared := by
  induction cleared with
  | zero => rfl
  | succ cleared ih => rw [Function.iterate_succ_apply', rankWithin_clearLowest, ih, Nat.sub_sub]

/-- After some of the lowest ones are cleared, those remain that had as many below them. -/
theorem getLsbD_clearLowest_iterate (cleared i : Nat) :
    (clearLowest^[cleared] word).getLsbD i =
      (word.getLsbD i && decide (cleared ≤ rankWithin word i)) := by
  induction cleared with
  | zero => simp
  | succ cleared ih =>
    rw [Function.iterate_succ_apply', getLsbD_clearLowest, ih, rankWithin_clearLowest_iterate,
      Bool.and_assoc, ← Bool.decide_and]
    congr 2
    rw [eq_iff_iff]
    omega

theorem ctz_lt_width (hn : word ≠ BitVec.ofNat width 0) : word.ctz.toNat < width :=
  BitVec.lt_of_getLsbD (BitVec.getLsbD_true_ctz_of_ne_zero hn)

theorem rankWithin_ctz (word : BitVec width) : rankWithin word word.ctz.toNat = 0 := by
  rw [rankWithin, Nat.count_iff_forall_not]
  intro i hb
  rw [BitVec.getLsbD_false_of_lt_ctz hb]
  exact Bool.false_ne_true

/-- The lowest one that is left has exactly the cleared ones below it. -/
theorem ctz_clearLowest_iterate {cleared : Nat}
    (hno : clearLowest^[cleared] word ≠ BitVec.ofNat width 0) :
    word.getLsbD (clearLowest^[cleared] word).ctz.toNat = true ∧
      rankWithin word (clearLowest^[cleared] word).ctz.toNat = cleared := by
  have ho := BitVec.getLsbD_true_ctz_of_ne_zero hno
  rw [getLsbD_clearLowest_iterate, Bool.and_eq_true, decide_eq_true_eq] at ho
  have hn := rankWithin_ctz (clearLowest^[cleared] word)
  rw [rankWithin_clearLowest_iterate] at hn
  exact ⟨ho.1, by omega⟩

theorem clearLowest_iterate_eq_zero_iff {cleared : Nat} :
    clearLowest^[cleared] word = BitVec.ofNat width 0 ↔ word.cpop.toNat ≤ cleared := by
  rw [toNat_cpop_eq_rankWithin]
  constructor
  · intro hz
    have hr := rankWithin_clearLowest_iterate word cleared width
    have he : rankWithin (BitVec.ofNat width 0) width = 0 := by
      rw [← toNat_cpop_eq_rankWithin, BitVec.cpop_zero]
      rfl
    rw [hz, he] at hr
    omega
  · intro hf
    apply BitVec.eq_of_getLsbD_eq
    intro i hb
    rw [getLsbD_clearLowest_iterate, BitVec.getLsbD_zero, Bool.and_eq_false_imp]
    intro ho
    have hl : rankWithin word i < rankWithin word width := Nat.count_strict_mono ho hb
    exact decide_eq_false (by omega)

end Words

section Directory

variable {ws : List (BitVec width)} {word : BitVec width}

theorem length_directory (seen : Nat) (ws : List (BitVec width)) :
    (directory seen ws).length = ws.length + 1 := by
  induction ws generalizing seen with
  | nil => rfl
  | cons word ws ih => rw [directory, length_cons, length_cons, ih]

theorem bitAt_of_getElem? {i bit : Nat} (hb : bit < width) (hi : ws[i]? = some word) :
    bitAt ws (i * width + bit) = word.getLsbD bit := by
  have hq : (i * width + bit) / width = i := by
    rw [mul_comm, Nat.mul_add_div (by omega), Nat.div_eq_of_lt hb, add_zero]
  have hr : (i * width + bit) % width = bit := by
    rw [mul_comm, Nat.mul_add_mod, Nat.mod_eq_of_lt hb]
  rw [bitAt, hq, hr, hi, any_some]

theorem rank_add_of_getElem? {i bit : Nat} (le : bit ≤ width) (hi : ws[i]? = some word) :
    rank ws (i * width + bit) = rank ws (i * width) + rankWithin word bit := by
  rw [rank, Nat.count_add, rank, rankWithin]
  congr 1
  rw [Nat.count_eq_card_filter_range, Nat.count_eq_card_filter_range]
  congr 1
  apply Finset.filter_congr
  intro o hm
  rw [bitAt_of_getElem? (lt_of_lt_of_le (Finset.mem_range.mp hm) le) hi]

theorem rank_succ_word {i : Nat} (hi : ws[i]? = some word) :
    rank ws ((i + 1) * width) = rank ws (i * width) + word.cpop.toNat := by
  rw [Nat.succ_mul, rank_add_of_getElem? (le_refl width) hi, toNat_cpop_eq_rankWithin]

theorem directory_getElem? {i : Nat} (le : i ≤ ws.length) :
    (directory 0 ws)[i]? = some (rank ws (i * width)) := by
  have hs (seen : Nat) (rest : List (BitVec width)) {i : Nat} (le : i ≤ rest.length) :
      (directory seen rest)[i]? =
        some (seen + ((rest.take i).map (·.cpop.toNat)).sum) := by
    induction rest generalizing seen i with
    | nil =>
      obtain rfl : i = 0 := Nat.le_zero.mp le
      rfl
    | cons word rest ih =>
      cases i with
      | zero => rfl
      | succ i =>
        rw [directory, getElem?_cons_succ, ih _ (Nat.le_of_succ_le_succ le),
          take_succ_cons, map_cons, sum_cons, add_assoc]
  have hr {i : Nat} (le : i ≤ ws.length) :
      rank ws (i * width) = ((ws.take i).map (·.cpop.toNat)).sum := by
    induction i with
    | zero => simp [rank]
    | succ i ih =>
      have hi := getElem?_eq_getElem (Nat.lt_of_succ_le le)
      rw [rank_succ_word hi, ih (by omega), take_add_one, hi, toList_some,
        map_append, sum_append, map_singleton, sum_singleton]
  rw [hs 0 ws le, hr le, zero_add]

theorem rank_le (ws : List (BitVec width)) (pos : Nat) : rank ws pos ≤ pos :=
  Nat.count_le _

/-- The search ends at the last word that the wanted one does not lie before. -/
theorem partitionPoint_directory (ws : List (BitVec width)) (nth : Nat) :
    ∃ i, partitionPoint (· ≤ nth) (directory 0 ws) = i + 1 ∧
      i ≤ ws.length ∧ rank ws (i * width) ≤ nth ∧
      (i < ws.length → nth < rank ws ((i + 1) * width)) := by
  have hst : (directory 0 ws)[0]? = some 0 := by
    rw [directory_getElem? (Nat.zero_le _), Nat.zero_mul]
    rfl
  generalize hi : partitionPoint (· ≤ nth) (directory 0 ws) = point
  have hin : point ≤ ws.length + 1 := by
    rw [← hi, ← length_directory 0 ws]
    exact partitionPoint_le _ _
  cases point with
  | zero =>
    -- The first entry is zero, which is never too large.
    have ht := not_holds_at_partitionPoint hi hst
    simp at ht
  | succ i =>
    have hil : i ≤ ws.length := Nat.le_of_succ_le_succ hin
    refine ⟨i, rfl, hil, ?_, ?_⟩
    · have hs := holds_before_partitionPoint hi (Nat.lt_succ_self i) (directory_getElem? hil)
      exact of_decide_eq_true hs
    · intro hb
      have hl := not_holds_at_partitionPoint hi (directory_getElem? (Nat.succ_le_of_lt hb))
      exact not_le.mp (of_decide_eq_false hl)

theorem lt_of_bitAt {pos : Nat} (hon : bitAt ws pos = true) : pos < ws.length * width := by
  by_contra past
  have hwp : 0 < width := by
    by_contra none
    obtain rfl : width = 0 := by omega
    simp [bitAt] at hon
  have hmi : ws[pos / width]? = none :=
    getElem?_eq_none ((Nat.le_div_iff_mul_le hwp).mpr (not_lt.mp past))
  rw [bitAt, hmi] at hon
  cases hon

theorem rank_strictMono {fst snd : Nat} (ho : bitAt ws fst = true)
    (hl : fst < snd) : rank ws fst < rank ws snd :=
  Nat.count_strict_mono ho hl

theorem rank_injective {fst snd : Nat} (hf : bitAt ws fst = true)
    (hs : bitAt ws snd = true) (eq : rank ws fst = rank ws snd) : fst = snd :=
  Nat.count_injective hf hs eq

/-- A word that the wanted one lies in yields it. -/
theorem select_within {i nth : Nat} (hi : ws[i]? = some word)
    (he : rank ws (i * width) ≤ nth) (hl : nth < rank ws ((i + 1) * width)) :
    let rem := clearLowest^[nth - rank ws (i * width)] word
    rem ≠ BitVec.ofNat width 0 ∧ bitAt ws (i * width + rem.ctz.toNat) = true ∧
      rank ws (i * width + rem.ctz.toNat) = nth := by
  intro rem
  have hn : rem ≠ BitVec.ofNat width 0 := by
    rw [rank_succ_word hi] at hl
    rw [Ne, clearLowest_iterate_eq_zero_iff]
    omega
  have hb := ctz_lt_width hn
  obtain ⟨hon, ho⟩ := ctz_clearLowest_iterate hn
  refine ⟨hn, (bitAt_of_getElem? hb hi).trans hon, ?_⟩
  rw [rank_add_of_getElem? hb.le hi, ho]
  omega

end Directory

section Packed

/-- Words that hold a list of bits and nothing after it. -/
structure Packs (words : List (BitVec width)) (bits : List Bool) : Prop where
  bitAt_eq : ∀ position, bitAt words position = (bits[position]?).getD false
  length_le : bits.length ≤ words.length * width

variable {ws : List (BitVec width)} {bits : List Bool}

theorem Packs.rank_eq (hpa : Packs ws bits) {pos : Nat} (hi : pos ≤ bits.length) :
    rank ws pos = (bits.take pos).count true := by
  induction pos with
  | zero => rfl
  | succ pos ih =>
    have hp := getElem?_eq_getElem (Nat.lt_of_succ_le hi)
    rw [rank, Nat.count_succ, ← rank, ih (by omega), take_add_one, hp,
      count_append, hpa.bitAt_eq, hp]
    cases bits[pos] <;> rfl

end Packed

end MeowRs.RankSelect
