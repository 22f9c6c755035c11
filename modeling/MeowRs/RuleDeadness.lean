import MeowRs.RuleFolding
import MeowRs.TextRuns

/-!
# Rules that are deleted

A rule is deleted when it says of itself that it never matches, or when its opcodes fold to a
constant.  Neither deletes a rule that could match.  For a geosite rule this rests on the parser,
which refuses a payload without a category name: such a category is taken to be missing from the
database, while a lookup would ask for its bucket all the same.
-/

namespace MeowRs

open List Option Text Bool

section Deadness

variable {rt : Runtime} {md : Metadata}

namespace GeoSiteRule

/-- The parser's guard: the payload has a category name in front of its attributes. -/
def Named (rule : GeoSiteRule) : Prop :=
  trim (((trim rule.payloadRaw).splitOn GeositeDb.attributeMark).headD []) ≠ []

theorem Named.base {rule : GeoSiteRule} (named : rule.Named) :
    (GeositeDb.splitCategoryAttrs rule.category).1 ≠ [] := by
  have keeps (byte : UInt8) :
      byteToAsciiLowercase byte = GeositeDb.attributeMark ↔ byte = GeositeDb.attributeMark :=
    byteToAsciiLowercase_eq_iff (by decide)
  rw [Named] at named
  rw [GeositeDb.splitCategoryAttrs, rule.category_eq, trim_toAsciiLowercase, trim_trim,
    splitOn_toAsciiLowercase_of_keeps keeps]
  cases pieces : (trim rule.payloadRaw).splitOn GeositeDb.attributeMark with
  | nil =>
    rw [pieces] at named
    exact absurd rfl named
  | cons base attrs =>
    rw [pieces] at named
    intro empty
    rw [map_cons] at empty
    dsimp only at empty
    rw [trim_toAsciiLowercase] at empty
    exact named (map_eq_nil_iff.mp empty)

theorem matchMetadata_of_never {rule : GeoSiteRule} (named : rule.Named)
    (never : @neverMatches rt rule = true) : @matchMetadata rt rule md = false := by
  rw [matchMetadata]
  cases isDb : rule.db with
  | none => rfl
  | some db =>
    rw [neverMatches, isDb, all_some, or_eq_true] at never
    rcases never with noPayload | unresolved
    · simp [noPayload]
    · rw [isNone_iff_eq_none] at unresolved
      simp [GeositeDb.lookup_eq_resolveKeys named.base, unresolved]

end GeoSiteRule

theorem SimpleRule.matchMetadata_of_never (hs : md.Supplied rt) {rule : SimpleRule rt}
    (hn : rule.neverMatches = true) (named : ∀ site, rule = .geoSite site → site.Named) :
    rule.matchMetadata md = false := by
  cases rule with
  | process rule => exact @Predicate.accepts_of_never _ _ hs (.processName _) hn
  | processPath rule =>
    rw [neverMatches, not_eq_true'] at hn
    rw [matchMetadata, (hs hn).2, ProcessPathRule.accepts]
    rfl
  | uid rule => exact @Predicate.accepts_of_never _ _ hs (.uid _) hn
  | geoSite rule => exact GeoSiteRule.matchMetadata_of_never (named rule rfl) hn
  | geoIp rule | srcGeoIp rule | ipAsn rule => exact IpRangeSet.any_of_isEmpty hn _
  | _ => exact absurd hn nofun

namespace Rule

/-- A rule that says so never matches, if its geosite rules name their categories. -/
theorem matchMetadata_of_never (hsu : md.Supplied rt) {rule : Rule rt}
    (hna : ∀ site, .geoSite site ∈ rule.leaves → site.Named)
    (hn : rule.neverMatches = true) : rule.matchMetadata md = false := by
  have ho : ∀ {rs : List (Rule rt)}, (∀ site, .geoSite site ∈ leavesOf rs → site.Named) →
        ∀ rule ∈ rs, ∀ site, .geoSite site ∈ rule.leaves → site.Named := by
    intro rs hna rule hm site hi
    refine hna site ?_
    rw [leavesOf_eq, mem_flatMap]
    exact ⟨rule, hm, hi⟩
  induction rule using Rule.induction with
  | simple rule =>
    refine SimpleRule.matchMetadata_of_never hsu hn fun site hs => ?_
    exact hna site (hs ▸ mem_cons_self)
  | and rs ad ih =>
    rw [neverMatches, anyNever_eq, List.any_eq_true] at hn
    obtain ⟨rule, hm, hn⟩ := hn
    rw [matchMetadata, allMatch_eq, List.all_eq_false]
    refine ⟨rule, hm, ?_⟩
    rw [ih rule hm (ho hna rule hm) hn]
    exact false_ne_true
  | or rs ad ih =>
    rw [neverMatches, allNever_eq, List.all_eq_true] at hn
    rw [matchMetadata, anyMatch_eq, List.any_eq_false]
    intro rule hm
    rw [ih rule hm (ho hna rule hm) (hn rule hm)]
    exact false_ne_true
  | not rule ad ih => exact absurd hn nofun
  | subRule blockName block ih =>
    rw [neverMatches, allNever_eq, List.all_eq_true] at hn
    have hu : anyMatch md block = false := by
      rw [anyMatch_eq, List.any_eq_false]
      intro rule hm
      rw [ih rule hm (ho hna rule hm) (hn rule hm)]
      exact false_ne_true
    rw [matchMetadata, hu, ite_self]

theorem matchAndResolve_of_unmatched {probe : TargetProbe} {rule : Rule rt}
    (hu : rule.matchMetadata md = false) : rule.matchAndResolve md probe = none := by
  induction rule using Rule.induction with
  | simple rule | and rs ad ih | or rs ad ih =>
    rw [matchAndResolve, if_neg]
    exact eq_false_iff.mp hu
  | not rule ad ih =>
    rw [matchMetadata, not_eq_false'] at hu
    rw [matchAndResolve, if_pos hu]
  | subRule blockName block ih =>
    rw [matchMetadata] at hu
    rw [matchAndResolve]
    split at hu
    · rw [if_pos (by assumption)]
    · rw [if_neg (by assumption)]
      rw [anyMatch_eq, List.any_eq_false] at hu
      -- No rule of the block has a target, so the walk over it finds none.
      have hw : ∀ rs : List (Rule rt), (∀ rule ∈ rs, rule.matchAndResolve md probe = none) →
            resolveBlock md probe rs = none := by
        intro rs he
        induction rs with
        | nil => rfl
        | cons fst rs hi =>
          rw [forall_mem_cons] at he
          rw [resolveBlock, he.1]
          exact hi he.2
      apply hw
      intro rule hm
      exact ih rule hm (eq_false_iff.mpr (hu rule hm))

end Rule

/-- Folding keeps what a tree accepts, and a rule whose geosite rules passed the parser's guard and
that says it never matches has no target for any connection. -/
theorem deadness_sound (runtime : Runtime) :
    (∀ (op : RuleOp runtime) (metadata : Metadata), metadata.Supplied runtime →
      (foldOp op = .never → op.matchesOp metadata = false) ∧
      (foldOp op = .always → op.matchesOp metadata = true) ∧
      ∀ folded, foldOp op = .op folded → folded.matchesOp metadata = op.matchesOp metadata) ∧
    ∀ rule : Rule runtime, (∀ site, .geoSite site ∈ rule.leaves → site.Named) →
      rule.neverMatches = true →
        ∀ (metadata : Metadata) (probe : TargetProbe), metadata.Supplied runtime →
          rule.matchAndResolve metadata probe = none := by
  refine ⟨fun op metadata supplied => ?_, fun rule named never metadata probe supplied => ?_⟩
  · have keeps := accepts_foldOp supplied op
    refine ⟨fun isNever => ?_, fun isAlways => ?_, fun folded isOp => ?_⟩
    · rw [← keeps, isNever]
      rfl
    · rw [← keeps, isAlways]
      rfl
    · rw [← keeps, isOp]
      rfl
  · exact Rule.matchAndResolve_of_unmatched (Rule.matchMetadata_of_never supplied named never)

section Instances

def netNumber (net : IpNet) : Nat :=
  match net.addr with
  | .v4 value => 2 * (value.toNat * 129 + net.prefixLen)
  | .v6 value => 2 * (value.toNat * 129 + net.prefixLen) + 1

def netOfNumber (number : Nat) : Option IpNet :=
  let addr : IpAddr :=
    if number % 2 = 0 then .v4 (BitVec.ofNat 32 (number / 2 / 129))
    else .v6 (BitVec.ofNat 128 (number / 2 / 129))
  if fits : number / 2 % 129 ≤ addr.family.bits then some ⟨addr, number / 2 % 129, fits⟩ else none

theorem netOfNumber_netNumber (net : IpNet) : netOfNumber (netNumber net) = some net := by
  obtain ⟨addr, plen, hf⟩ := net
  cases addr with
  | v4 v =>
    have hs : plen ≤ 32 := hf
    have hp : netNumber ⟨.v4 v, plen, hf⟩ % 2 = 0 ∧ netNumber ⟨.v4 v, plen, hf⟩ / 2 % 129 = plen ∧
        netNumber ⟨.v4 v, plen, hf⟩ / 2 / 129 = v.toNat := by
      dsimp only [netNumber]
      omega
    simp only [netOfNumber, hp, if_pos, BitVec.ofNat_toNat, BitVec.setWidth_eq]
    exact dif_pos hs
  | v6 v =>
    have hs : plen ≤ 128 := hf
    have hp : netNumber ⟨.v6 v, plen, hf⟩ % 2 = 1 ∧ netNumber ⟨.v6 v, plen, hf⟩ / 2 % 129 = plen ∧
        netNumber ⟨.v6 v, plen, hf⟩ / 2 / 129 = v.toNat := by
      dsimp only [netNumber]
      omega
    simp only [netOfNumber, hp, BitVec.ofNat_toNat, BitVec.setWidth_eq]
    exact dif_pos hs

/-- Networks written as numbers in unary. -/
def numberedNets : NetText where
  parse text := netOfNumber text.length
  display net := replicate (netNumber net) 0
  parse_display net := by rw [List.length_replicate, netOfNumber_netNumber]

/-- A runtime without process information, whose geosite database has one category of one domain. -/
def geositeRuntime (category domain : String) : Runtime where
  platform := ⟨false, false, false, some⟩
  cases := ⟨toAsciiLowercase, toAsciiUppercase, fun _ => rfl, fun _ => rfl⟩
  regex := ⟨Empty, fun _ => none, fun _ _ => none, nofun, nofun, nofun⟩
  nets := numberedNets
  ruleSets _ := ⟨.domain, fun _ => false, false, false⟩
  ipRangeSets _ := ⟨⟨[], []⟩, ⟨[], []⟩⟩
  geositeDbs _ :=
    { categories := AList.singleton (ofString category)
        ((DomainTrie.new.insert toAsciiLowercase (ofString domain) ()).2)
      regexCompiled := ∅
      keywords := ∅ }

def hostMetadata (host : Text) : Metadata where
  network := .tcp
  connType := .inner
  srcIp := none
  dstIp := none
  srcPort := 0
  dstPort := 443
  host := host
  process := []
  processPath := []
  uid := none
  dscp := none
  srcGeoIp := []
  dstGeoIp := []
  sniffHost := []
  inName := []
  inPort := 0
  inUser := none

def anyTarget : TargetProbe where
  check _ := .usable
  isPassRule _ := false

/-- A conjunction with a rule for a missing category never matches. -/
theorem deadness_sound_missing_category :
    (Rule.and [.simple (.final ⟨[]⟩), .simple (.geoSite ⟨ofString "us@ads", ofString "US@ads", [],
        some 0, by decide⟩)] (ofString "PROXY") :
      Rule (geositeRuntime "cn" "bing.cn")).matchAndResolve
        (hostMetadata (ofString "bing.cn")) anyTarget = none := by
  refine (deadness_sound (geositeRuntime "cn" "bing.cn")).2 _ (fun site leaf => ?_)
    (by decide +kernel) _ _ fun _ => ⟨rfl, rfl⟩
  rcases mem_cons.mp leaf with final | leaf
  · cases final
  · cases mem_singleton.mp leaf
    rw [GeoSiteRule.Named]
    decide

end Instances

end Deadness

end MeowRs
