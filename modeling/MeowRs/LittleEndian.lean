import Mathlib.Algebra.Order.Ring.Nat

/-!
# Numbers in byte buffers

Numbers of a fixed width, least significant byte first, and the two ways in which code writes to a
buffer: copying bytes over a part of it, and resizing it with zeros.  Numbers of two bytes are also
written with the most significant byte first.
-/

abbrev Bytes := List UInt8

namespace LittleEndian

open List Option

def leBytes : ℕ → ℕ → Bytes
  | 0, _ => []
  | width + 1, value => UInt8.ofNat value :: leBytes width (value / 256)

def leValue : Bytes → ℕ
  | [] => 0
  | byte :: rest => byte.toNat + 256 * leValue rest

@[simp]
theorem length_leBytes (w v : ℕ) : (leBytes w v).length = w := by
  induction w generalizing v with
  | zero => rfl
  | succ w ih => simp [leBytes, ih]

theorem leValue_leBytes (w v : ℕ) : leValue (leBytes w v) = v % 256 ^ w := by
  induction w generalizing v with
  | zero => simp [leBytes, leValue, Nat.mod_one]
  | succ w ih =>
    simp only [leBytes, leValue, ih, UInt8.toNat_ofNat']
    rw [show (256 : ℕ) ^ (w + 1) = 256 * 256 ^ w from pow_succ' 256 w]
    exact (Nat.mod_mul).symm

theorem leValue_leBytes_of_lt {w v : ℕ} (hs : v < 256 ^ w) : leValue (leBytes w v) = v := by
  rw [leValue_leBytes, Nat.mod_eq_of_lt hs]

/-- `buf[offset..offset + bytes.len()].copy_from_slice(bytes)`. -/
def overwrite (buf : Bytes) (offset : ℕ) (bytes : Bytes) : Bytes :=
  buf.take offset ++ bytes ++ buf.drop (offset + bytes.length)

/-- `row.resize(size, 0)`. -/
def resize (row : Bytes) (size : ℕ) : Bytes :=
  row.take size ++ replicate (size - row.length) 0

theorem overwrite_append {front old rest bs : Bytes} {off : ℕ} (hst : front.length = off)
    (hs : old.length = bs.length) :
    overwrite (front ++ (old ++ rest)) off bs = front ++ (bs ++ rest) := by
  subst hst
  rw [overwrite, take_left, ← drop_drop, drop_left, ← hs, drop_left, append_assoc]

theorem exists_cut {buf : Bytes} (fst snd : ℕ) (hl : fst + snd ≤ buf.length) :
    ∃ front f, front.length = fst ∧ f.length = snd ∧
      buf = front ++ (f ++ buf.drop (fst + snd)) := by
  refine ⟨buf.take fst, (buf.drop fst).take snd, ?_, ?_, ?_⟩
  · rw [length_take]
    omega
  · rw [length_take, length_drop]
    omega
  · rw [← drop_drop, take_append_drop, take_append_drop]

@[simp]
theorem length_resize (row : Bytes) (size : ℕ) : (resize row size).length = size := by
  simp only [resize, length_append, length_take, length_replicate]
  omega

theorem resize_eq_append {row : Bytes} {size : ℕ} (hf : row.length ≤ size) :
    resize row size = row ++ replicate (size - row.length) 0 := by
  rw [resize, take_of_length_le hf]

theorem resize_self (row : Bytes) : resize row row.length = row := by
  simp [resize]

theorem drop_resize {row : Bytes} {size off : ℕ} (hw : off ≤ row.length) (hf : row.length ≤ size) :
    (resize row size).drop off = resize (row.drop off) (size - off) := by
  have hs : (row.drop off).length ≤ size - off := by
    rw [length_drop]
    omega
  rw [resize_eq_append hf, resize_eq_append hs, drop_append_of_le_length hw, length_drop]
  congr 2
  omega

end LittleEndian

namespace BigEndian

/-- `value.to_be_bytes()` for a `u16`. -/
def beBytes (value : ℕ) : Bytes :=
  [UInt8.ofNat (value / 256), UInt8.ofNat value]

/-- `u16::from_be_bytes([high, low])`. -/
def beValue (high low : UInt8) : ℕ :=
  high.toNat * 256 + low.toNat

theorem beValue_beBytes {v : ℕ} (hs : v < 65536) :
    beValue (UInt8.ofNat (v / 256)) (UInt8.ofNat v) = v := by
  simp only [beValue, UInt8.toNat_ofNat']
  omega

end BigEndian
