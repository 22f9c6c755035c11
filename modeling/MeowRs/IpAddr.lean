import Mathlib.Data.BitVec

/-!
# IP addresses and networks

An address of either family, with the wrapping successor and predecessor the address pools step
through, and a network given by an address and a prefix length.  The two families are handled alike;
the lemmas below speak of an address only through its family and its integer value.
-/

namespace MeowRs

open BitVec

open Nat

/-- The two address families. -/
inductive Family where
  | v4
  | v6
  deriving DecidableEq, Repr

def Family.bits : Family → Nat
  | .v4 => 32
  | .v6 => 128

inductive IpAddr where
  | v4 (value : BitVec 32)
  | v6 (value : BitVec 128)
  deriving DecidableEq, Repr

namespace IpAddr

def family : IpAddr → Family
  | .v4 _ => .v4
  | .v6 _ => .v6

def toNat : IpAddr → Nat
  | .v4 value => value.toNat
  | .v6 value => value.toNat

def nextAddr : IpAddr → IpAddr
  | .v4 value => .v4 (value + 1)
  | .v6 value => .v6 (value + 1)

def prevAddr : IpAddr → IpAddr
  | .v4 value => .v4 (value - 1)
  | .v6 value => .v6 (value - 1)

def addrLess : IpAddr → IpAddr → Bool
  | .v4 a, .v4 b => a < b
  | .v6 a, .v6 b => a < b
  | _, _ => false

def containedInRange (ip first last : IpAddr) : Bool :=
  !addrLess ip first && addrLess ip last

theorem toNat_lt (ip : IpAddr) : ip.toNat < 2 ^ ip.family.bits := by
  cases ip <;> exact isLt _

theorem ext_iff {a b : IpAddr} : a = b ↔ a.family = b.family ∧ a.toNat = b.toNat := by
  cases a <;> cases b <;> simp [family, toNat, toNat_inj]

theorem addrLess_iff {a b : IpAddr} :
    addrLess a b = true ↔ a.family = b.family ∧ a.toNat < b.toNat := by
  cases a <;> cases b <;> simp [addrLess, family, toNat, lt_def]

@[simp]
theorem family_nextAddr (ip : IpAddr) : ip.nextAddr.family = ip.family := by
  cases ip <;> rfl

@[simp]
theorem family_prevAddr (ip : IpAddr) : ip.prevAddr.family = ip.family := by
  cases ip <;> rfl

theorem toNat_nextAddr (ip : IpAddr) : ip.nextAddr.toNat = (ip.toNat + 1) % 2 ^ ip.family.bits := by
  cases ip <;> simp [nextAddr, toNat, family, Family.bits, toNat_add]

theorem toNat_nextAddr_four (ip : IpAddr) :
    ip.nextAddr.nextAddr.nextAddr.nextAddr.toNat = (ip.toNat + 4) % 2 ^ ip.family.bits := by
  simp only [toNat_nextAddr, family_nextAddr, mod_add_mod]

theorem toNat_nextAddr_of_lt (ip bound : IpAddr) (hfa : ip.family = bound.family)
    (hb : ip.toNat < bound.toNat) : ip.nextAddr.toNat = ip.toNat + 1 := by
  have hf : ip.toNat + 1 < 2 ^ ip.family.bits := by
    have := bound.toNat_lt
    rw [← hfa] at this
    omega
  rw [toNat_nextAddr, mod_eq_of_lt hf]

@[simp]
theorem nextAddr_prevAddr (ip : IpAddr) : ip.prevAddr.nextAddr = ip := by
  cases ip <;> simp [prevAddr, nextAddr]

theorem toNat_prevAddr_of_pos {ip : IpAddr} (hp : 0 < ip.toNat) :
    ip.prevAddr.toNat + 1 = ip.toNat := by
  have hs : ip.toNat = (ip.prevAddr.toNat + 1) % 2 ^ ip.prevAddr.family.bits := by
    rw [← toNat_nextAddr, nextAddr_prevAddr]
  have hb := ip.prevAddr.toNat_lt
  rcases lt_or_eq_of_le (succ_le_of_lt hb) with hf | hw
  · rw [hs, mod_eq_of_lt hf]
  · rw [← succ_eq_add_one, hw, mod_self] at hs
    omega

end IpAddr

/-- A network: an address, whose host bits are ignored, and a prefix length its family has. -/
structure IpNet where
  addr : IpAddr
  prefixLen : Nat
  prefixLen_le : prefixLen ≤ addr.family.bits

namespace IpNet

def hostmask (width prefixLen : Nat) : BitVec width :=
  allOnes width >>> prefixLen

def network (net : IpNet) : IpAddr :=
  match net.addr with
  | .v4 value => .v4 (value &&& ~~~ hostmask 32 net.prefixLen)
  | .v6 value => .v6 (value &&& ~~~ hostmask 128 net.prefixLen)

def broadcast (net : IpNet) : IpAddr :=
  match net.addr with
  | .v4 value => .v4 (value ||| hostmask 32 net.prefixLen)
  | .v6 value => .v6 (value ||| hostmask 128 net.prefixLen)

def family (net : IpNet) : Family :=
  net.addr.family

def contains (net : IpNet) (ip : IpAddr) : Bool :=
  !IpAddr.addrLess ip net.network && !IpAddr.addrLess net.broadcast ip &&
    ip.family == net.family

@[simp]
theorem family_network (net : IpNet) : net.network.family = net.family := by
  unfold network family
  split <;> simp_all [IpAddr.family]

@[simp]
theorem family_broadcast (net : IpNet) : net.broadcast.family = net.family := by
  unfold broadcast family
  split <;> simp_all [IpAddr.family]

theorem contains_iff {net : IpNet} {ip : IpAddr} :
    net.contains ip = true ↔ ip.family = net.family ∧ net.network.toNat ≤ ip.toNat ∧
      ip.toNat ≤ net.broadcast.toNat := by
  simp only [contains, Bool.and_eq_true, Bool.not_eq_true', beq_iff_eq, ← Bool.not_eq_true,
    IpAddr.addrLess_iff, family_network, family_broadcast]
  constructor
  · rintro ⟨⟨ha, hb⟩, hf⟩
    refine ⟨hf, ?_, ?_⟩
    · by_contra ho
      exact ha ⟨hf, by omega⟩
    · by_contra ho
      exact hb ⟨hf.symm, by omega⟩
  · rintro ⟨hf, ha, hb⟩
    exact ⟨⟨fun ho => by omega, fun ho => by omega⟩, hf⟩

theorem network_le_broadcast (net : IpNet) : net.network.toNat ≤ net.broadcast.toNat := by
  obtain ⟨addr, plen, hb⟩ := net
  cases addr with
  | v4 v | v6 v =>
    exact and_le_left.trans left_le_or

theorem getLsbD_hostmask {w plen i : Nat} :
    (hostmask w plen).getLsbD i = decide (i < w - plen) := by
  simp only [hostmask, getLsbD_ushiftRight, getLsbD_allOnes, decide_eq_decide]
  omega

theorem toNat_and_hostmask {w plen : Nat} (v : BitVec w) :
    (v &&& ~~~ hostmask w plen).toNat =
      v.toNat / 2 ^ (w - plen) * 2 ^ (w - plen) := by
  rw [← Nat.shiftRight_eq_div_pow, ← Nat.shiftLeft_eq]
  apply Nat.eq_of_testBit_eq
  intro i
  rw [testBit_toNat, getLsbD_and, getLsbD_not, getLsbD_hostmask,
    Nat.testBit_shiftLeft, Nat.testBit_shiftRight, testBit_toNat]
  by_cases ho : i < w - plen
  · simp [ho, not_le.mpr ho]
  · have hs : w - plen + (i - (w - plen)) = i := by omega
    rw [hs]
    cases hb : v.getLsbD i with
    | false => simp
    | true =>
      have hi : i < w := lt_of_getLsbD hb
      simp [ho, hi, le_of_not_gt ho]

theorem toNat_or_hostmask {w plen : Nat} (v : BitVec w) :
    (v ||| hostmask w plen).toNat = v.toNat / 2 ^ (w - plen) * 2 ^ (w - plen) +
        (2 ^ (w - plen) - 1) := by
  have hsm : 2 ^ (w - plen) - 1 < 2 ^ (w - plen) := Nat.sub_lt (Nat.two_pow_pos _) Nat.one_pos
  rw [mul_comm, Nat.two_pow_add_eq_or_of_lt hsm]
  apply eq_of_testBit_eq
  intro i
  rw [testBit_toNat, getLsbD_or, getLsbD_hostmask, testBit_or,
    testBit_two_pow_mul, testBit_two_pow_sub_one, testBit_div_two_pow, testBit_toNat]
  by_cases ho : i < w - plen
  · simp [ho]
  · have hs : i - (w - plen) + (w - plen) = i := by omega
    simp [ho, hs, le_of_not_gt ho]

def size (net : IpNet) : Nat :=
  2 ^ (net.family.bits - net.prefixLen)

theorem toNat_network (net : IpNet) : net.network.toNat = net.addr.toNat / net.size * net.size := by
  obtain ⟨addr, plen, hb⟩ := net
  cases addr <;> exact toNat_and_hostmask _

theorem toNat_broadcast (net : IpNet) :
    net.broadcast.toNat = net.network.toNat + (net.size - 1) := by
  rw [toNat_network]
  obtain ⟨addr, plen, hb⟩ := net
  cases addr <;> exact toNat_or_hostmask _

end IpNet

end MeowRs
