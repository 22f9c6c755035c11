import Mathlib.Data.Nat.Digits.Defs
import MeowRs.Text

/-!
# Numbers in texts

Unsigned numbers as the source reads them from a payload and prints them into a key, and texts that
are put together with separators.  What matters of the printed forms is that they can be told apart.
-/

namespace MeowRs.Text

open List

open Nat

def digitByte (digit : Nat) : UInt8 :=
  if digit < 10 then UInt8.ofNat (0x30 + digit) else UInt8.ofNat (0x57 + digit)

def numeral (base value : Nat) : Text :=
  if value = 0 then [0x30] else ((digits base value).map digitByte).reverse

def decimal (value : Nat) : Text :=
  numeral 10 value

theorem digitByte_toNat {d : Nat} (hs : d < 16) :
    (digitByte d).toNat = if d < 10 then 0x30 + d else 0x57 + d := by
  unfold digitByte
  split
  all_goals
    rw [UInt8.toNat_ofNat']
    omega

theorem digitByte_injOn {fst snd : Nat} (hf : fst < 16) (hss : snd < 16)
    (hs : digitByte fst = digitByte snd) : fst = snd := by
  have hv := congrArg UInt8.toNat hs
  rw [digitByte_toNat hf, digitByte_toNat hss] at hv
  split at hv <;> split at hv <;> omega

section Numeral

variable {base : Nat} (hl : 1 < base) (hu : base ≤ 16)
include hl hu

theorem lt_of_mem_digits {v d : Nat} (hm : d ∈ digits base v) : d < 16 :=
  lt_of_lt_of_le (digits_lt_base hl hm) hu

theorem numeral_injective : Function.Injective (numeral base) := by
  have mapped : ∀ first snd : List Nat, (∀ digit ∈ first, digit < 16) →
      (∀ digit ∈ snd, digit < 16) → first.map digitByte = snd.map digitByte →
        first = snd := by
    intro first
    induction first with
    | nil =>
      intro snd _ _ same
      exact (map_eq_nil_iff.mp same.symm).symm
    | cons digit first ih =>
      intro snd firstSmall secondSmall same
      cases snd with
      | nil => cases same
      | cons o snd =>
        rw [map_cons, map_cons, cons.injEq] at same
        rw [forall_mem_cons] at firstSmall secondSmall
        rw [digitByte_injOn firstSmall.1 secondSmall.1 same.1,
          ih snd firstSmall.2 secondSmall.2 same.2]
  have notZero : ∀ value, value ≠ 0 →
      ((digits base value).map digitByte).reverse ≠ [0x30] := by
    intro value positive isZero
    have digits : (digits base value).map digitByte = [0].map digitByte := by
      rw [← reverse_inj, isZero]
      rfl
    have single := mapped _ _ (fun _ => lt_of_mem_digits hl hu) (by simp) digits
    apply positive
    rw [← ofDigits_digits base value, single]
    simp
  intro first snd same
  unfold numeral at same
  split at same <;> split at same
  · omega
  · exact absurd same.symm (notZero snd ‹_›)
  · exact absurd same (notZero first ‹_›)
  · rw [reverse_inj] at same
    exact digits.injective base
      (mapped _ _ (fun _ => lt_of_mem_digits hl hu) (fun _ => lt_of_mem_digits hl hu) same)

theorem notMem_numeral {v : Nat} {b : UInt8} (hs : b.toNat < 0x30 ∨ 0x67 ≤ b.toNat) :
    b ∉ numeral base v := by
  intro hm
  unfold numeral at hm
  split at hm
  · rw [mem_singleton] at hm
    rw [hm] at hs
    simp at hs
  · obtain ⟨d, hd, rfl⟩ := mem_map.mp (mem_reverse.mp hm)
    have hsm := lt_of_mem_digits hl hu hd
    rw [digitByte_toNat hsm] at hs
    split at hs <;> omega

end Numeral

theorem decimal_injective : Function.Injective decimal :=
  numeral_injective (by decide) (by decide)

theorem notMem_decimal {v : Nat} {b : UInt8}
    (hs : b.toNat < 0x30 ∨ 0x67 ≤ b.toNat) : b ∉ decimal v :=
  notMem_numeral (by decide) (by decide) hs

theorem decimal_ne_nil (v : Nat) : decimal v ≠ [] := by
  unfold decimal numeral
  split
  · exact cons_ne_nil _ _
  · simpa using digits_ne_nil_iff_ne_zero.mpr ‹_›

def digitValue (byte : UInt8) : Option Nat :=
  if 0x30 ≤ byte ∧ byte ≤ 0x39 then some (byte.toNat - 0x30) else none

def parseDigits : Nat → Text → Option Nat
  | value, [] => some value
  | value, byte :: rest =>
    match digitValue byte with
    | some digit => parseDigits (10 * value + digit) rest
    | none => none

/-- Read an unsigned number of a machine type with `bound` values; a plus sign may stand first. -/
def parseUnsigned (bound : Nat) (text : Text) : Option Nat :=
  let digits := if text.head? = some 0x2b then text.tail else text
  if digits.isEmpty then none else (parseDigits 0 digits).filter (· < bound)

theorem lt_of_parseUnsigned {bound v : Nat} {text : Text}
    (hr : parseUnsigned bound text = some v) : v < bound := by
  unfold parseUnsigned at hr
  generalize (if text.head? = some 0x2b then text.tail else text) = ds at hr
  dsimp only at hr
  split at hr
  · cases hr
  · simpa using (Option.filter_eq_some_iff.mp hr).2

theorem parseDigits_append (start : Nat) (front back : Text) :
    parseDigits start (front ++ back) = (parseDigits start front).bind (parseDigits · back) := by
  induction front generalizing start with
  | nil => rfl
  | cons byte rest ih =>
    rw [cons_append, parseDigits, parseDigits]
    cases digitValue byte with
    | none => rfl
    | some digit => exact ih _

theorem parseDigits_digits {ds : List Nat} (small : ∀ digit ∈ ds, digit < 10) :
    parseDigits 0 (ds.map digitByte).reverse = some (ofDigits 10 ds) := by
  induction ds with
  | nil => rfl
  | cons digit ds ih =>
    obtain ⟨first, rest⟩ := forall_mem_cons.mp small
    have isDigit : digitValue (digitByte digit) = some digit := by
      clear small ih
      decide +revert
    rw [map_cons, reverse_cons, parseDigits_append, ih rest, Option.bind_some, parseDigits, isDigit,
      ofDigits_cons, add_comm]
    rfl

theorem colon_notMem_decimal (v : Nat) : 0x3a ∉ decimal v := by
  unfold decimal numeral
  split
  · decide
  · intro member
    obtain ⟨digit, isDigit, isColon⟩ := mem_map.mp (mem_reverse.mp member)
    have small := digits_lt_base (by decide) isDigit
    have value := digitByte_toNat (show digit < 16 by omega)
    rw [isColon, if_pos small] at value
    change 0x3a = _ at value
    omega

theorem parseUnsigned_decimal {bound v : Nat} (below : v < bound) :
    parseUnsigned bound (decimal v) = some v := by
  have noSign : (decimal v).head? ≠ some 0x2b := fun head =>
    notMem_decimal (.inl (by decide)) (mem_of_mem_head? head)
  have read : parseDigits 0 (decimal v) = some v := by
    unfold decimal numeral
    split
    · rename_i zero
      rw [zero]
      rfl
    · rw [parseDigits_digits fun _ => digits_lt_base (by decide), ofDigits_digits]
  simp [parseUnsigned, noSign, decimal_ne_nil, read, below]

def splitOnce (text : Text) (separator : UInt8) : Option (Text × Text) :=
  if separator ∈ text then
    some (text.takeWhile (· ≠ separator), (text.dropWhile (· ≠ separator)).tail)
  else none

def rsplitOnce (text : Text) (separator : UInt8) : Option (Text × Text) :=
  (splitOnce text.reverse separator).map fun (last, first) => (first.reverse, last.reverse)

end MeowRs.Text
