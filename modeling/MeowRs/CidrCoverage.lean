import MeowRs.IpRangeSets

/-!
# Networks that earlier rules cover

A rule for a network whose addresses all match earlier rules never fires and is dropped.
`CidrCoverage` keeps the union of the earlier networks as a list of intervals for each family.
-/

namespace MeowRs

open List

/-- An address as a number. -/
abbrev Addr (family : Family) : Type := Fin (2 ^ family.bits)

/-- `checked_add(1)`. -/
def Addr.checkedNext {family : Family} (addr : Addr family) : Option (Addr family) :=
  if fits : addr.val + 1 < 2 ^ family.bits then some ⟨addr.val + 1, fits⟩ else none

theorem Addr.isNext_checkedNext {fam : Family} : Intervals.IsNext (@checkedNext fam) where
  lt_iff {a b} hn c := by
    simp only [checkedNext, Option.dite_none_right_eq_some, Option.some.injEq] at hn
    obtain ⟨_, rfl⟩ := hn
    rw [Fin.lt_def, Fin.le_def]
    exact Nat.lt_succ_iff
  top {a} ht c := by
    simp only [checkedNext, dite_eq_right_iff, reduceCtorEq] at ht
    rw [Fin.le_def]
    have := c.isLt
    by_contra less
    exact ht (by omega)

def IpNet.first (net : IpNet) : Addr net.family :=
  ⟨net.network.toNat, by simpa using net.network.toNat_lt⟩

def IpNet.last (net : IpNet) : Addr net.family :=
  ⟨net.broadcast.toNat, by simpa using net.broadcast.toNat_lt⟩

structure CidrCoverage where
  v4 : List (Addr .v4 × Addr .v4)
  v6 : List (Addr .v6 × Addr .v6)

namespace CidrCoverage

def new : CidrCoverage :=
  ⟨[], []⟩

def intervals (coverage : CidrCoverage) : (family : Family) → List (Addr family × Addr family)
  | .v4 => coverage.v4
  | .v6 => coverage.v6

def covers (coverage : CidrCoverage) (net : IpNet) : Bool :=
  Intervals.covers (coverage.intervals net.family) net.first net.last

def absorb (coverage : CidrCoverage) (net : IpNet) : CidrCoverage :=
  match net.family, net.first, net.last with
  | .v4, first, last =>
    { coverage with v4 := Intervals.insert Addr.checkedNext coverage.v4 first last }
  | .v6, first, last =>
    { coverage with v6 := Intervals.insert Addr.checkedNext coverage.v6 first last }

theorem intervals_absorb (cov : CidrCoverage) (net : IpNet) :
    (cov.absorb net).intervals net.family =
      Intervals.insert Addr.checkedNext (cov.intervals net.family) net.first net.last := by
  rw [absorb]
  generalize net.first = fst
  generalize net.last = last
  revert fst last
  cases net.family <;> exact fun _ _ => rfl

theorem intervals_absorb_of_ne (cov : CidrCoverage) {net : IpNet} {fam : Family}
    (ne : net.family ≠ fam) : (cov.absorb net).intervals fam = cov.intervals fam := by
  rw [absorb]
  generalize net.first = fst
  generalize net.last = last
  revert fst last ne
  cases net.family <;> cases fam <;> simp [intervals]

/-- The lists are sorted, and hold the addresses of some networks. -/
structure Holds (nets : List IpNet) (coverage : CidrCoverage) : Prop where
  sorted : ∀ family, Intervals.Sorted Addr.checkedNext (coverage.intervals family)
  member : ∀ {family} (addr : Addr family), Intervals.Member (coverage.intervals family) addr ↔
    ∃ net ∈ nets, net.family = family ∧ net.network.toNat ≤ addr ∧ addr ≤ net.broadcast.toNat

theorem holds_new : Holds [] new where
  sorted fam := by cases fam <;> exact ⟨by simp [new, intervals], by simp [new, intervals]⟩
  member {fam} addr := by cases fam <;> simp [new, intervals, Intervals.Member]

theorem Holds.absorb {nets : List IpNet} {cov : CidrCoverage} (ho : Holds nets cov)
    (net : IpNet) : Holds (net :: nets) (cov.absorb net) where
  sorted fam := by
    by_cases hs : net.family = fam
    · subst hs
      rw [intervals_absorb]
      exact (ho.sorted _).insert Addr.isNext_checkedNext net.network_le_broadcast
    · rw [intervals_absorb_of_ne cov hs]
      exact ho.sorted fam
  member {fam} addr := by
    simp only [mem_cons, exists_eq_or_imp, ← ho.member]
    by_cases hs : net.family = fam
    · subst hs
      rw [intervals_absorb, Intervals.member_insert Addr.isNext_checkedNext (ho.sorted _)]
      simp only [true_and]
      rfl
    · rw [intervals_absorb_of_ne cov hs]
      simp [hs]

/-- The coverage after absorbing some networks, the latest first. -/
def ofNets : List IpNet → CidrCoverage
  | [] => new
  | net :: earlier => (ofNets earlier).absorb net

theorem holds_ofNets (nets : List IpNet) : Holds nets (ofNets nets) := by
  induction nets with
  | nil => exact holds_new
  | cons net nets ih => exact ih.absorb net

/-- After absorbing any networks, the lists are sorted, disjoint and without neighbours that touch,
and exactly the networks are covered whose addresses all lie in absorbed ones. -/
theorem covers_exact (nets : List IpNet) :
    (∀ family, Intervals.Sorted Addr.checkedNext ((ofNets nets).intervals family)) ∧
    ∀ net, (ofNets nets).covers net = true ↔
      ∀ ip, net.contains ip = true → ∃ absorbed ∈ nets, absorbed.contains ip = true := by
  have ho := holds_ofNets nets
  refine ⟨ho.sorted, fun net => ?_⟩
  rw [covers, (ho.sorted _).covers_iff Addr.isNext_checkedNext net.network_le_broadcast]
  simp only [ho.member, IpNet.contains_iff]
  constructor
  · rintro hc ip ⟨family, hab, hbe⟩
    have hf := ip.toNat_lt
    rw [family] at hf
    obtain ⟨absorbed, hm, hs, hb⟩ := hc ⟨ip.toNat, hf⟩ hab hbe
    exact ⟨absorbed, hm, family.trans hs.symm, hb⟩
  · intro hc addr hab hbe
    obtain ⟨ip, family, ha⟩ := IpRangeSet.exists_addr addr.isLt
    rw [← ha]
    obtain ⟨absorbed, hm, hs, hb⟩ := hc ip ⟨family, ha ▸ hab, ha ▸ hbe⟩
    exact ⟨absorbed, hm, hs.symm.trans family, hb⟩

theorem Holds.member_iff {nets cov} (ho : Holds nets cov) (ip : IpAddr) :
    Intervals.Member (cov.intervals ip.family) ⟨ip.toNat, ip.toNat_lt⟩ ↔
      ∃ net ∈ nets, net.contains ip = true := by
  simp only [ho.member, IpNet.contains_iff, @eq_comm _ ip.family]

/-- The coverage depends on nothing but the addresses that the networks hold. -/
theorem ofNets_eq_iff (nets others : List IpNet) : ofNets nets = ofNets others ↔
    ∀ ip, (∃ net ∈ nets, net.contains ip = true) ↔ ∃ net ∈ others, net.contains ip = true := by
  have ho := holds_ofNets nets
  have hs := holds_ofNets others
  simp only [← ho.member_iff, ← hs.member_iff]
  refine ⟨fun h _ => by rw [h], fun h => ?_⟩
  have hi fam : (ofNets nets).intervals fam = (ofNets others).intervals fam := by
    refine Intervals.Sorted.eq_of_member_iff Addr.isNext_checkedNext (ho.sorted fam) (hs.sorted fam)
      fun addr => ?_
    obtain ⟨ip, rfl, ha⟩ := IpRangeSet.exists_addr addr.isLt
    simpa only [ha] using h ip
  exact congrArg₂ mk (hi .v4) (hi .v6)

end CidrCoverage

end MeowRs
