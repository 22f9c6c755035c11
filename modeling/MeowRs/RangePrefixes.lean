import MeowRs.IpAddr
import MeowRs.WordBits

/-!
# Address ranges as networks

`push_range_prefixes` of the rule-set parser cuts an interval of addresses into networks: at each
address it takes the largest aligned block that does not pass the end of the interval.  Machine
arithmetic that would overflow has no result here, so a result says that none did.
-/

namespace MeowRs

open List

open BitVec

open Nat

namespace IpAddr

def ofNat : Family → Nat → IpAddr
  | .v4, value => .v4 (BitVec.ofNat 32 value)
  | .v6, value => .v6 (BitVec.ofNat 128 value)

@[simp]
theorem family_ofNat (fam : Family) (v : Nat) : (ofNat fam v).family = fam := by
  cases fam <;> rfl

theorem toNat_ofNat {fam : Family} {v : Nat} (hf : v < 2 ^ fam.bits) : (ofNat fam v).toNat = v := by
  cases fam <;> exact mod_eq_of_lt hf

/-- `Ipv6Addr::to_ipv4_mapped`. -/
def toIpv4Mapped (addr : BitVec 128) : Option (BitVec 32) :=
  if addr >>> 32 = 0xffff#128 then some (addr.setWidth 32) else none

end IpAddr

namespace IpNet

/-- `Ipv4Net::new` and `Ipv6Net::new`; a prefix length the family does not have is refused. -/
def new (addr : IpAddr) (prefixLen : Nat) : Option IpNet :=
  if bounded : prefixLen ≤ addr.family.bits then some ⟨addr, prefixLen, bounded⟩ else none

end IpNet

namespace RangePrefixes

/-- The width of the type in which the loop counts the remaining addresses. -/
def countBits : Family → Nat
  | .v4 => 64
  | .v6 => 128

/-- The block the loop takes at `start` when `remaining` addresses are left, as a number of bits. -/
def blockBits (family : Family) (start remaining : Nat) : Nat :=
  min (WordBits.trailingZeros family.bits start)
    (countBits family - 1 - WordBits.leadingZeros (countBits family) remaining)

def saturatingAdd {bits : Nat} (value : BitVec bits) (step : Nat) : BitVec bits :=
  if value.toNat + step < 2 ^ bits then BitVec.ofNat bits (value.toNat + step)
  else allOnes bits

section Block

variable {fam : Family} {start rem : Nat}

theorem two_pow_blockBits_dvd : 2 ^ blockBits fam start rem ∣ start :=
  (pow_dvd_pow 2 (min_le_left _ _)).trans (WordBits.two_pow_trailingZeros_dvd _ _)

theorem two_pow_blockBits_le (hp : 0 < rem) (hf : rem < 2 ^ countBits fam) :
    2 ^ blockBits fam start rem ≤ rem := by
  have hw : blockBits fam start rem ≤ Nat.log2 rem := by
    rw [← WordBits.sub_leadingZeros hp.ne' hf]
    exact Nat.min_le_right _ _
  exact (Nat.pow_le_pow_right (by decide) hw).trans (Nat.log2_self_le hp.ne')

end Block

variable {fam : Family} {start stop : Nat}

theorem toNat_saturatingAdd {bits step : Nat} {v bound : BitVec bits}
    (hf : v.toNat + step ≤ bound.toNat) : (saturatingAdd v step).toNat = v.toNat + step := by
  have hs : v.toNat + step < 2 ^ bits := lt_of_le_of_lt hf bound.isLt
  rw [saturatingAdd, if_pos hs, toNat_ofNat, mod_eq_of_lt hs]

/-- The loop of `push_v4_range` and `push_v6_range` from `start` on. -/
def loop (family : Family) (stop start : BitVec family.bits) : Option (List IpNet) :=
  if start ≤ stop then
    let remaining := stop.toNat - start.toNat + 1
    let block := blockBits family start.toNat remaining
    let step := 2 ^ block
    -- the count of addresses and the shifted one have to fit their types
    if _overflows : 2 ^ countBits family ≤ remaining ∨ family.bits ≤ block then none
    else
      let net := IpNet.new (IpAddr.ofNat family start.toNat) (family.bits - block)
      if remaining = step then some net.toList
      else (loop family stop (saturatingAdd start step)).map (net.toList ++ ·)
  else some []
termination_by stop.toNat + 1 - start.toNat
decreasing_by
  rename_i le differs
  have least : step ≤ remaining := two_pow_blockBits_le (Nat.succ_pos _) (by omega)
  have positive : 0 < step := Nat.two_pow_pos block
  have counted : remaining = stop.toNat - start.toNat + 1 := rfl
  rw [le_def] at le
  rw [@toNat_saturatingAdd _ step _ stop (by omega)]
  omega

/-- `push_v4_range` and `push_v6_range`. -/
def pushRange (family : Family) (start stop : BitVec family.bits) : Option (List IpNet) :=
  if start = 0 ∧ stop = allOnes family.bits then
    some (IpNet.new (IpAddr.ofNat family 0) 0).toList
  else loop family stop start

def pushV4Range (start stop : BitVec 32) : Option (List IpNet) :=
  pushRange .v4 start stop

def pushV6Range (start stop : BitVec 128) : Option (List IpNet) :=
  pushRange .v6 start stop

def pushRangePrefixes (start stop : BitVec 128) : Option (List IpNet) :=
  match IpAddr.toIpv4Mapped start, IpAddr.toIpv4Mapped stop with
  | some startV4, some stopV4 => pushV4Range startV4 stopV4
  | none, none => pushV6Range start stop
  | _, _ => some []

/-- Networks of a family, aligned, in increasing order and without overlaps, that hold exactly the
addresses from `start` to `stop`. -/
structure Cuts (family : Family) (start stop : Nat) (nets : List IpNet) : Prop where
  families : ∀ net ∈ nets, net.family = family
  aligned : ∀ net ∈ nets, net.network = net.addr
  increasing : nets.Pairwise fun net later => net.broadcast.toNat < later.network.toNat
  exact : ∀ value, (∃ net ∈ nets, net.network.toNat ≤ value ∧ value ≤ net.broadcast.toNat) ↔
    start ≤ value ∧ value ≤ stop

theorem cuts_nil (he : stop < start) :
    Cuts fam start stop [] where
  families := nofun
  aligned := nofun
  increasing := .nil
  exact v := by
    constructor
    · rintro ⟨_, hm, _⟩
      exact absurd hm not_mem_nil
    · omega

/-- An aligned block is one network. -/
theorem exists_block {start block : Nat} (hf : start < 2 ^ fam.bits)
    (hsm : block ≤ fam.bits) (hal : 2 ^ block ∣ start) :
    ∃ net, IpNet.new (IpAddr.ofNat fam start) (fam.bits - block) = some net ∧
      Cuts fam start (start + 2 ^ block - 1) [net] := by
  have hb : fam.bits - block ≤ (IpAddr.ofNat fam start).family.bits := by
    rw [IpAddr.family_ofNat]
    exact sub_le _ _
  refine ⟨⟨_, _, hb⟩, dif_pos hb, ?_⟩
  generalize isNet : IpNet.mk (IpAddr.ofNat fam start) (fam.bits - block) hb = net
  have hnf : net.family = fam := by
    rw [← isNet]
    exact IpAddr.family_ofNat fam start
  have hs : net.size = 2 ^ block := by
    rw [IpNet.size, hnf, ← isNet, Nat.sub_sub_self hsm]
  have ha : net.addr.toNat = start := by
    rw [← isNet]
    exact IpAddr.toNat_ofNat hf
  have hn : net.network.toNat = start := by
    rw [IpNet.toNat_network, ha, hs, Nat.div_mul_cancel hal]
  have hbr : net.broadcast.toNat = start + 2 ^ block - 1 := by
    rw [IpNet.toNat_broadcast, hn, hs]
    omega
  refine ⟨?_, ?_, pairwise_singleton _ _, fun v => ?_⟩
  · simpa using hnf
  · simpa [IpAddr.ext_iff, IpNet.family] using hn.trans ha.symm
  · simp [hn, hbr]

theorem Cuts.append {start mid stop : Nat} {nets later : List IpNet} (hc : Cuts fam start mid nets)
    (hl : Cuts fam (mid + 1) stop later) (hs : start ≤ mid + 1) (hm : mid ≤ stop) :
    Cuts fam start stop (nets ++ later) where
  families := forall_mem_append.mpr ⟨hc.families, hl.families⟩
  aligned := forall_mem_append.mpr ⟨hc.aligned, hl.aligned⟩
  increasing := by
    refine pairwise_append.mpr ⟨hc.increasing, hl.increasing, ?_⟩
    intro net hn o hla
    have hb := ((hc.exact net.broadcast.toNat).mp ⟨net, hn, net.network_le_broadcast, le_refl _⟩).2
    have ha := ((hl.exact o.network.toNat).mp ⟨o, hla, le_refl _, o.network_le_broadcast⟩).1
    omega
  exact v := by
    simp only [mem_append, or_and_right, exists_or, hc.exact v, hl.exact v]
    omega

/-- Every interval but the whole address space is cut without an overflow. -/
theorem exists_loop {stop start : BitVec fam.bits}
    (hp : stop.toNat - start.toNat + 1 < 2 ^ fam.bits) :
    ∃ nets, loop fam stop start = some nets ∧ Cuts fam start.toNat stop.toNat nets := by
  have hna : 2 ^ fam.bits ≤ 2 ^ countBits fam := by
    cases fam <;> decide
  induction dist : stop.toNat + 1 - start.toNat using Nat.strongRecOn generalizing start with
  | ind dist ih =>
    rw [loop]
    by_cases le : start ≤ stop
    · rw [if_pos le]
      rw [le_def] at le
      generalize counted : stop.toNat - start.toNat + 1 = rem at hp
      generalize isBlock : blockBits fam start.toNat rem = block
      have hal : 2 ^ block ∣ start.toNat := isBlock ▸ two_pow_blockBits_dvd
      have hle : 2 ^ block ≤ rem := isBlock ▸ two_pow_blockBits_le (by omega) (by omega)
      have hs : block < fam.bits :=
        (Nat.pow_lt_pow_iff_right (by decide)).mp (lt_of_le_of_lt hle hp)
      obtain ⟨net, hn, cut⟩ := exists_block start.isLt hs.le hal
      dsimp only
      rw [isBlock, dif_neg (by omega), hn]
      by_cases hl : rem = 2 ^ block
      · rw [if_pos hl]
        refine ⟨_, rfl, ?_⟩
        have he : start.toNat + 2 ^ block - 1 = stop.toNat := by omega
        exact he ▸ cut
      · rw [if_neg hl]
        have ha := @toNat_saturatingAdd _ (2 ^ block) start stop (by omega)
        obtain ⟨nets, hlo, hc⟩ := @ih _ (by rw [← dist, ha]; omega)
          (saturatingAdd start (2 ^ block)) (by omega) rfl
        refine ⟨net :: nets, by rw [hlo]; rfl, ?_⟩
        have hf : start.toNat + 2 ^ block - 1 + 1 =
            (saturatingAdd start (2 ^ block)).toNat := by omega
        exact cut.append (hf ▸ hc) (by omega) (by omega)
    · rw [if_neg le]
      rw [le_def] at le
      exact ⟨[], rfl, cuts_nil (by omega)⟩

theorem exists_pushRange (start stop : BitVec fam.bits) :
    ∃ nets, pushRange fam start stop = some nets ∧
      Cuts fam start.toNat stop.toNat nets := by
  unfold pushRange
  by_cases hw : start = 0 ∧ stop = allOnes fam.bits
  · obtain ⟨net, hn, hc⟩ := @exists_block fam 0 fam.bits (Nat.two_pow_pos _)
      (le_refl _) (Nat.dvd_zero _)
    rw [Nat.sub_self] at hn
    rw [if_pos hw, hn]
    rw [hw.1, hw.2, toNat_allOnes]
    simpa using hc
  · rw [if_neg hw]
    apply exists_loop
    by_contra spans
    apply hw
    constructor
    · apply eq_of_toNat_eq
      simp only [ofNat_eq_ofNat, toNat_zero]
      omega
    · apply eq_of_toNat_eq
      rw [toNat_allOnes]
      omega

/-- The addresses between two 16-byte addresses: IPv4 ones between mapped addresses, IPv6 ones
between others, and none between a mapped address and another one. -/
def Between (start stop : BitVec 128) (ip : IpAddr) : Prop :=
  match IpAddr.toIpv4Mapped start, IpAddr.toIpv4Mapped stop with
  | some startV4, some stopV4 =>
    ip.family = .v4 ∧ startV4.toNat ≤ ip.toNat ∧ ip.toNat ≤ stopV4.toNat
  | none, none => ip.family = .v6 ∧ start.toNat ≤ ip.toNat ∧ ip.toNat ≤ stop.toNat
  | _, _ => False

theorem Cuts.contains_iff {nets : List IpNet} (hc : Cuts fam start stop nets) {ip : IpAddr} :
    (∃ net ∈ nets, net.contains ip = true) ↔
      ip.family = fam ∧ start ≤ ip.toNat ∧ ip.toNat ≤ stop := by
  simp only [IpNet.contains_iff]
  constructor
  · rintro ⟨net, hm, hf, hi⟩
    exact ⟨hf.trans (hc.families net hm), (hc.exact _).mp ⟨net, hm, hi⟩⟩
  · rintro ⟨hf, hi⟩
    obtain ⟨net, hm, hw⟩ := (hc.exact _).mpr hi
    exact ⟨net, hm, hf.trans (hc.families net hm).symm, hw⟩

theorem Cuts.eq_nil {nets : List IpNet}
    (hc : Cuts fam start stop nets) (he : stop < start) : nets = [] := by
  apply eq_nil_iff_forall_not_mem.mpr
  intro net hm
  have hi := (hc.exact _).mp ⟨net, hm, le_refl _, net.network_le_broadcast⟩
  omega

/-- An IPv4-mapped address is above another one exactly when its IPv4 address is. -/
theorem toNat_toIpv4Mapped {addr : BitVec 128} {v : BitVec 32}
    (hm : IpAddr.toIpv4Mapped addr = some v) : addr.toNat = 0xffff * 2 ^ 32 + v.toNat := by
  unfold IpAddr.toIpv4Mapped at hm
  split at hm
  · rename_i high
    cases hm
    have hq := congrArg BitVec.toNat high
    rw [toNat_ushiftRight, shiftRight_eq_div_pow] at hq
    rw [toNat_setWidth]
    have hh : (0xffff#128).toNat = 0xffff := rfl
    omega
  · cases hm

/-- A range is cut, without an overflow, into aligned networks in increasing order and without
overlaps that hold exactly its addresses; a range from a mapped to an unmapped address or back, or
one whose end lies before its start, gives no network. -/
theorem pushRangePrefixes_exact (start stop : BitVec 128) :
    ∃ nets, pushRangePrefixes start stop = some nets ∧
      (nets.Pairwise fun net later => net.broadcast.toNat < later.network.toNat) ∧
      (∀ net ∈ nets, net.network = net.addr) ∧
      (∀ ip, (∃ net ∈ nets, net.contains ip = true) ↔ Between start stop ip) ∧
      ((IpAddr.toIpv4Mapped start).isSome ≠ (IpAddr.toIpv4Mapped stop).isSome ∨ stop < start →
        nets = []) := by
  unfold pushRangePrefixes Between
  cases hs : IpAddr.toIpv4Mapped start with
  | none =>
    cases hsm : IpAddr.toIpv4Mapped stop with
    | none =>
      obtain ⟨nets, hp, hc⟩ := @exists_pushRange .v6 start stop
      refine ⟨nets, hp, hc.increasing, hc.aligned, fun ip => hc.contains_iff, ?_⟩
      rintro (hm | he)
      · exact absurd rfl hm
      · exact hc.eq_nil (lt_def.mp he)
    | some stopV4 => exact ⟨[], rfl, .nil, nofun, by simp, fun _ => rfl⟩
  | some startV4 =>
    cases hsm : IpAddr.toIpv4Mapped stop with
    | none => exact ⟨[], rfl, .nil, nofun, by simp, fun _ => rfl⟩
    | some stopV4 =>
      obtain ⟨nets, hp, hc⟩ := @exists_pushRange .v4 startV4 stopV4
      refine ⟨nets, hp, hc.increasing, hc.aligned, fun ip => hc.contains_iff, ?_⟩
      rintro (hm | he)
      · exact absurd rfl hm
      · rw [lt_def, toNat_toIpv4Mapped hs, toNat_toIpv4Mapped hsm] at he
        have hb : stopV4.toNat < startV4.toNat := by omega
        exact hc.eq_nil hb

/-- The IPv4 addresses from `10.0.0.1` to `10.0.0.6`, mapped. -/
theorem pushRangePrefixes_exact_mapped :
    ∃ nets, pushRangePrefixes 0xffff0a000001#128 0xffff0a000006#128 = some nets ∧
      ∀ ip, (∃ net ∈ nets, net.contains ip = true) ↔
        Between 0xffff0a000001#128 0xffff0a000006#128 ip := by
  obtain ⟨nets, pushed, _, _, exact, _⟩ :=
    pushRangePrefixes_exact 0xffff0a000001#128 0xffff0a000006#128
  exact ⟨nets, pushed, exact⟩

end RangePrefixes

end MeowRs
