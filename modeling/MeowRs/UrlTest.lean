import MeowRs.Text

/-!
# The pick of a url-test group

A dial goes through the fastest member that is alive, or stays with the incumbent while that one is
not slower by more than the tolerance.  One pass over the members finds both.  A delay of zero has
not been measured.  Where nothing was measured and the incumbent is gone, the pick is the first
member, alive or not.
-/

namespace MeowRs.UrlTest

open List

structure Proxy where
  name : Text
  alive : Bool
  aliveForUrl : Bool
  lastDelay : Nat
  delay_le : lastDelay ≤ 65535

structure UrlTestGroup where
  staticProxies : List Proxy
  providerSlots : List (List Proxy)
  tolerance : Nat
  fixed : Option Text
  fastest : Option Text

structure Scan where
  best : Option Proxy := none
  bestDelay : Nat := 65535
  current : Option Proxy := none
  currentDelay : Nat := 65535
  currentAlive : Bool := false
  firstAny : Option Proxy := none

def visit (currentName : Option Text) (scan : Scan) (p : Proxy) : Scan :=
  let scan := if scan.firstAny.isNone then { scan with firstAny := some p } else scan
  if p.alive then
    let scan :=
      if currentName = some p.name then
        { scan with currentAlive := true, currentDelay := p.lastDelay, current := some p }
      else scan
    if 0 < p.lastDelay ∧ p.lastDelay < scan.bestDelay then
      { scan with bestDelay := p.lastDelay, best := some p }
    else scan
  else scan

namespace UrlTestGroup

def memberProxyList (group : UrlTestGroup) : List Proxy :=
  group.staticProxies ++ group.providerSlots.flatten

def fixedProxyIfAlive (group : UrlTestGroup) : Option Proxy :=
  group.fixed.bind fun name =>
    let test := fun p : Proxy => p.name == name && p.aliveForUrl
    (group.staticProxies.find? test).or (group.providerSlots.findSome? (·.find? test))

def scan (group : UrlTestGroup) : Scan :=
  group.providerSlots.foldl (fun scan slot => slot.foldl (visit group.fastest) scan)
    (group.staticProxies.foldl (visit group.fastest) {})

/-- The member a dial goes through, and the group with its incumbent. -/
def pickForDial (group : UrlTestGroup) : Option Proxy × UrlTestGroup :=
  match group.fixedProxyIfAlive with
  | some proxy => (some proxy, group)
  | none =>
    let scan := group.scan
    let stay := (scan.current.or (scan.best.or scan.firstAny), group)
    match scan.best with
    | some bp =>
      if min (scan.bestDelay + group.tolerance) 65535 < scan.currentDelay ∨
          scan.currentAlive = false then
        (some bp, { group with fastest := some bp.name })
      else stay
    | none =>
      if scan.currentAlive = false then
        (scan.firstAny, { group with fastest := scan.firstAny.map Proxy.name })
      else stay

end UrlTestGroup

def Measured (p : Proxy) : Prop :=
  p.alive = true ∧ 0 < p.lastDelay

/-- The first of the members with the least delay that was measured. -/
def FirstFastest (members : List Proxy) (p : Proxy) : Prop :=
  Measured p ∧ ∃ before after, members = before ++ p :: after ∧
    (∀ other ∈ before, Measured other → p.lastDelay < other.lastDelay) ∧
    ∀ other ∈ after, Measured other → p.lastDelay ≤ other.lastDelay

/-- A pick that is alive whenever some member is, and near the fastest one. -/
def NearFastest (group : UrlTestGroup) (pick : Option Proxy) : Prop :=
  (∃ p ∈ group.memberProxyList, p.alive = true) →
    ∃ p ∈ group.memberProxyList, pick = some p ∧ p.alive = true ∧
      ((∃ other ∈ group.memberProxyList, Measured other) →
        (group.fastest = some p.name ∧ (p.lastDelay = 0 ∨ ∀ other ∈ group.memberProxyList,
          Measured other → p.lastDelay ≤ other.lastDelay + group.tolerance)) ∨
        FirstFastest group.memberProxyList p)

/-- Some member is alive and has a delay below the largest one, or is the incumbent; or else the
first member is alive, and measured if any is. -/
def HasCandidate (group : UrlTestGroup) : Prop :=
  (∃ p ∈ group.memberProxyList, Measured p ∧ p.lastDelay < 65535) ∨
    (∃ p ∈ group.memberProxyList, p.alive = true ∧ group.fastest = some p.name) ∨
    ∃ p ∈ group.memberProxyList.head?, p.alive = true ∧
      ((∃ other ∈ group.memberProxyList, Measured other) → Measured p)

section Scanning

variable {name : Option Text} {seen : List Proxy} {scan : Scan} {p : Proxy}

/-- What a pass knows of the members it has seen. -/
structure Sees (name : Option Text) (seen : List Proxy) (scan : Scan) : Prop where
  first : scan.firstAny = seen.head?
  least : ∀ p ∈ seen, Measured p → scan.bestDelay ≤ p.lastDelay
  unmeasured : scan.best = none → scan.bestDelay = 65535
  best : ∀ p, scan.best = some p →
    scan.bestDelay = p.lastDelay ∧ p.lastDelay < 65535 ∧ FirstFastest seen p
  absent : scan.current = none → scan.currentAlive = false ∧
    ∀ p ∈ seen, p.alive = true → name ≠ some p.name
  current : ∀ p, scan.current = some p → scan.currentAlive = true ∧
    scan.currentDelay = p.lastDelay ∧ p ∈ seen ∧ p.alive = true ∧ name = some p.name

theorem FirstFastest.concat {fastest : Proxy} (hf : FirstFastest seen fastest)
    (hs : Measured p → fastest.lastDelay ≤ p.lastDelay) : FirstFastest (seen ++ [p]) fastest := by
  obtain ⟨hm, pre, after, rfl, hp, hla⟩ := hf
  refine ⟨hm, pre, after ++ [p], by simp, hp, fun o mem => ?_⟩
  rcases mem_append.mp mem with hb | hl
  · exact hla o hb
  · exact mem_singleton.mp hl ▸ hs

/-- What a visit changes: the first member, the best one and the incumbent, each on its own. -/
theorem visit_cases {after : Scan} (hv : visit name scan p = after) :
    after.firstAny = scan.firstAny.or (some p) ∧
      (Measured p ∧ p.lastDelay < scan.bestDelay ∧ after.best = some p ∧
          after.bestDelay = p.lastDelay ∨
        (Measured p → scan.bestDelay ≤ p.lastDelay) ∧ after.best = scan.best ∧
          after.bestDelay = scan.bestDelay) ∧
      (p.alive = true ∧ name = some p.name ∧ after.current = some p ∧
          after.currentDelay = p.lastDelay ∧ after.currentAlive = true ∨
        (p.alive = true → name ≠ some p.name) ∧ after.current = scan.current ∧
          after.currentDelay = scan.currentDelay ∧ after.currentAlive = scan.currentAlive) := by
  subst hv
  obtain ⟨best, bestDelay, cur, currentDelay, currentAlive, firstAny⟩ := scan
  unfold visit Measured
  cases firstAny <;> by_cases ha : p.alive = true <;> by_cases hn : name = some p.name <;>
    by_cases hb : 0 < p.lastDelay ∧ p.lastDelay < bestDelay <;>
    simp [ha, hn, hb] <;> omega

theorem Sees.visit (sees : Sees name seen scan) : Sees name (seen ++ [p]) (visit name scan p) := by
  generalize visited : UrlTest.visit name scan p = after
  obtain ⟨hfa, hbes, hcur⟩ := visit_cases visited
  have hbo : ∀ {holds : Proxy → Prop}, (∀ o ∈ seen, holds o) → holds p →
      ∀ o ∈ seen ++ [p], holds o := by
    intro holds prev last o mem
    rcases mem_append.mp mem with pre | hla
    · exact prev o pre
    · exact mem_singleton.mp hla ▸ last
  constructor
  · rw [hfa, sees.first]
    cases seen <;> rfl
  · rcases hbes with ⟨_, less, _, hde⟩ | ⟨more, _, hde⟩
    · rw [hde]
      exact hbo (fun o mem hme => less.le.trans (sees.least o mem hme))
        fun _ => le_rfl
    · rw [hde]
      exact hbo sees.least more
  · rcases hbes with ⟨_, _, hbe, _⟩ | ⟨_, hbe, hde⟩
    · rw [hbe]
      nofun
    · rw [hbe, hde]
      exact sees.unmeasured
  · rcases hbes with ⟨hme, less, hbe, hde⟩ | ⟨more, hbe, hde⟩
    · rw [hbe, hde]
      rintro _ ⟨⟩
      have hbel : p.lastDelay < 65535 := by
        cases hkn : scan.best with
        | none => exact sees.unmeasured hkn ▸ less
        | some o => exact ((sees.best o hkn).1 ▸ less).trans (sees.best o hkn).2.1
      refine ⟨rfl, hbel, hme, seen, [], rfl, fun o mem hmea => ?_, nofun⟩
      exact less.trans_le (sees.least o mem hmea)
    · rw [hbe, hde]
      intro fastest hkn
      obtain ⟨same, hbel, fst⟩ := sees.best fastest hkn
      exact ⟨same, hbel, fst.concat (same ▸ more)⟩
  · rcases hcur with ⟨_, _, hcu, _⟩ | ⟨hnn, hcu, _, hali⟩
    · rw [hcu]
      nofun
    · rw [hcu, hali]
      intro none
      exact ⟨(sees.absent none).1, hbo (sees.absent none).2 hnn⟩
  · rcases hcur with ⟨hali, hna, hcu, hde, hal⟩ | ⟨_, hcu, hde, hal⟩
    · rw [hcu, hde, hal]
      rintro _ ⟨⟩
      exact ⟨rfl, rfl, by simp, hali, hna⟩
    · rw [hcu, hde, hal]
      intro o hkn
      obtain ⟨hli, same, mem, hali, hna⟩ := sees.current o hkn
      exact ⟨hli, same, mem_append_left _ mem, hali, hna⟩

theorem sees_scan (g : UrlTestGroup) : Sees g.fastest g.memberProxyList g.scan := by
  have ha : ∀ ms : List Proxy, Sees g.fastest ms (ms.foldl (visit g.fastest) {}) := by
    intro ms
    induction ms using reverseRecOn with
    | nil => exact ⟨rfl, nofun, fun _ => rfl, nofun, fun _ => ⟨rfl, nofun⟩, nofun⟩
    | append_singleton ms p ih =>
      rw [foldl_append]
      exact ih.visit
  have hp : g.scan = g.memberProxyList.foldl (visit g.fastest) {} := by
    rw [UrlTestGroup.memberProxyList, foldl_append, foldl_flatten]
    rfl
  rw [hp]
  exact ha _

end Scanning

section Picking

variable {g : UrlTestGroup} {p : Proxy}

theorem mem_of_firstFastest {ms : List Proxy} (hf : FirstFastest ms p) : p ∈ ms := by
  obtain ⟨_, pre, after, rfl, _⟩ := hf
  simp

theorem FirstFastest.le {ms : List Proxy} (hf : FirstFastest ms p) {o : Proxy}
    (mem : o ∈ ms) (hm : Measured o) : p.lastDelay ≤ o.lastDelay := by
  obtain ⟨_, pre, after, rfl, hp, hl⟩ := hf
  rcases mem_append.mp mem with hfr | hb
  · exact (hp o hfr hm).le
  · rcases mem_cons.mp hb with rfl | hbe
    · exact le_rfl
    · exact hl o hbe hm

/-- Without a member fixed by the user that is alive, the pick is one of three. -/
theorem pickForDial_cases (hu : g.fixedProxyIfAlive = none) :
    (∃ p, g.pickForDial.1 = some p ∧ p.lastDelay < 65535 ∧ FirstFastest g.memberProxyList p) ∨
      (∃ p ∈ g.memberProxyList, g.pickForDial.1 = some p ∧ p.alive = true ∧
        g.fastest = some p.name ∧ ∀ o ∈ g.memberProxyList, Measured o →
          p.lastDelay ≤ o.lastDelay + g.tolerance) ∨
      g.pickForDial.1 = g.memberProxyList.head? ∧
        (∀ p ∈ g.memberProxyList, Measured p → 65535 ≤ p.lastDelay) ∧
        ∀ p ∈ g.memberProxyList, p.alive = true → g.fastest ≠ some p.name := by
  have hs := sees_scan g
  unfold UrlTestGroup.pickForDial
  rw [hu]
  dsimp only
  cases hbe : g.scan.best with
  | some bp =>
    obtain ⟨hde, hb, hf⟩ := hs.best bp hbe
    dsimp only
    split
    · exact .inl ⟨bp, rfl, hb, hf⟩
    · rename_i stays
      rw [not_or, not_lt] at stays
      cases hc : g.scan.current with
      | none => exact absurd (hs.absent hc).1 stays.2
      | some incumbent =>
        obtain ⟨_, same, mem, ha, hn⟩ := hs.current incumbent hc
        refine .inr (.inl ⟨incumbent, mem, rfl, ha, hn, fun o ho hm => ?_⟩)
        have hl := hf.le ho hm
        omega
  | none =>
    have hl := hs.least
    rw [hs.unmeasured hbe] at hl
    cases hc : g.scan.current with
    | none =>
      obtain ⟨hd, hab⟩ := hs.absent hc
      rw [if_pos hd, hs.first]
      exact .inr (.inr ⟨rfl, hl, hab⟩)
    | some incumbent =>
      obtain ⟨hli, _, mem, ha, hn⟩ := hs.current incumbent hc
      rw [if_neg (by simp [hli])]
      refine .inr (.inl ⟨incumbent, mem, rfl, ha, hn, fun o ho hm => ?_⟩)
      have most := hl o ho hm
      have hw := incumbent.delay_le
      omega

/-- The pick is alive and near the fastest member exactly when the pass finds a candidate. -/
theorem nearFastest_iff (group : UrlTestGroup) (unfixed : group.fixedProxyIfAlive = none) :
    NearFastest group group.pickForDial.1 ↔
      ((∃ p ∈ group.memberProxyList, p.alive = true) → HasCandidate group) := by
  refine imp_congr_right fun hs => ?_
  rcases pickForDial_cases unfixed with ⟨p, hp, hb, hf⟩ | ⟨p, hm, hp, ha, hna,
    hn⟩ | ⟨hp, most, absent⟩
  · have hm := mem_of_firstFastest hf
    exact iff_of_true ⟨p, hm, hp, hf.1.1, fun _ => .inr hf⟩ (.inl ⟨p, hm, hf.1, hb⟩)
  · exact iff_of_true ⟨p, hm, hp, ha, fun _ => .inl ⟨hna, .inr hn⟩⟩ (.inr (.inl ⟨p, hm, ha, hna⟩))
  · rw [hp]
    constructor
    · rintro ⟨p, hm, hh, ha, hn⟩
      refine .inr (.inr ⟨p, hh, ha, fun hmea => ?_⟩)
      rcases hn hmea with ⟨hna, _⟩ | hf
      · exact absurd hna (absent p hm ha)
      · exact hf.1
    · rintro (⟨p, hm, hmea, hb⟩ | ⟨p, hm, ha, hna⟩ | ⟨p, hh, ha, hf⟩)
      · exact absurd (most p hm hmea) (not_le_of_gt hb)
      · exact absurd hna (absent p hm ha)
      · refine ⟨p, mem_of_mem_head? hh, hh, ha, fun hmea => .inr ?_⟩
        obtain ⟨rest, hw⟩ := List.head?_eq_some_iff.mp hh
        refine ⟨hf hmea, [], rest, hw, nofun, fun other hbeh hi => ?_⟩
        exact p.delay_le.trans (most other (hw ▸ mem_cons_of_mem p hbeh) hi)

end Picking

def deadProxy : Proxy := ⟨[0x61], false, false, 0, Nat.zero_le _⟩

def unprobedProxy : Proxy := ⟨[0x62], true, true, 0, Nat.zero_le _⟩

/-- A member that is alive and was never probed, behind a dead one. -/
def unprobedGroup : UrlTestGroup := ⟨[deadProxy], [[unprobedProxy]], 0, none, none⟩

theorem unprobedGroup_picks_dead : ¬ NearFastest unprobedGroup unprobedGroup.pickForDial.1 := by
  intro hn
  obtain ⟨p, _, hp, ha, _⟩ :=
    hn ⟨unprobedProxy, by simp [unprobedGroup, UrlTestGroup.memberProxyList], rfl⟩
  obtain rfl : deadProxy = p := Option.some.inj hp
  cases ha

theorem nearFastest_reordered :
    NearFastest ⟨[unprobedProxy], [[deadProxy]], 0, some [0x61], none⟩ (some unprobedProxy) :=
  (nearFastest_iff ⟨[unprobedProxy], [[deadProxy]], 0, some [0x61], none⟩ rfl).mpr fun _ =>
    .inr (.inr ⟨unprobedProxy, rfl, rfl, by
      simp [UrlTestGroup.memberProxyList, Measured, deadProxy, unprobedProxy]⟩)

end MeowRs.UrlTest
