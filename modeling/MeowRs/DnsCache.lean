import MeowRs.IpAddr
import MeowRs.LruCache
import MeowRs.Text

/-!
# The DNS cache

An entry of the cache holds the answers for both address families of a domain: one list of
addresses, an expiry for each family, a bit set of the families that were asked for, and a byte with
the kind of a negative answer for each of them.  The two families of a domain do not influence each
other: what a lookup says about one is what it would say if only that family had ever been merged.
-/

namespace MeowRs.Dns

open Option

open Function

open Text

/-- A set of address families, as a byte. -/
structure QueryFamilies where
  bits : BitVec 8
  deriving DecidableEq, Repr

namespace QueryFamilies

def ipv4 : QueryFamilies := ⟨1#8⟩

def ipv6 : QueryFamilies := ⟨2#8⟩

def ofFamily : Family → QueryFamilies
  | .v4 => ipv4
  | .v6 => ipv6

def contains (families family : QueryFamilies) : Bool :=
  families.bits &&& family.bits == family.bits

def union (families other : QueryFamilies) : QueryFamilies :=
  ⟨families.bits ||| other.bits⟩

def containsIp (families : QueryFamilies) (ip : IpAddr) : Bool :=
  families.contains (ofFamily ip.family)

def other (family : QueryFamilies) : QueryFamilies :=
  if family = ipv4 then ipv6 else ipv4

end QueryFamilies

/-- What a caller records about an answer without addresses. -/
inductive FamilyNeg where
  | none
  | noData
  | nxDomain
  deriving DecidableEq, Repr

/-- The kinds of negative answers of both families, two bits each. -/
structure NegKind where
  bits : BitVec 8
  deriving DecidableEq, Repr

namespace NegKind

def noneKind : BitVec 8 := 0#8

def noDataKind : BitVec 8 := 1#8

def nxDomainKind : BitVec 8 := 2#8

def empty : NegKind := ⟨0#8⟩

def familyShift (family : QueryFamilies) : Nat :=
  if family = .ipv4 then 0 else 2

def withKind (neg : NegKind) (family : QueryFamilies) (kind : BitVec 8) : NegKind :=
  ⟨neg.bits &&& ~~~ (3#8 <<< familyShift family) ||| (kind &&& 3#8) <<< familyShift family⟩

def get (neg : NegKind) (family : QueryFamilies) : BitVec 8 :=
  neg.bits >>> familyShift family &&& 3#8

def familyKind (neg : NegKind) (family : QueryFamilies) : FamilyNeg :=
  if neg.get family = noDataKind then .noData
  else if neg.get family = nxDomainKind then .nxDomain
  else .none

end NegKind

def FamilyNeg.kind : FamilyNeg → BitVec 8
  | .none => NegKind.noneKind
  | .noData => NegKind.noDataKind
  | .nxDomain => NegKind.nxDomainKind

/-- Instants and durations are counted in nanoseconds. -/
structure CacheEntry where
  ips : List IpAddr
  expireV4 : Nat
  expireV6 : Nat
  source : Option Text
  queried : QueryFamilies
  neg : NegKind

namespace CacheEntry

def expire (entry : CacheEntry) (family : QueryFamilies) : Nat :=
  if family = .ipv4 then entry.expireV4 else entry.expireV6

def fresh (entry : CacheEntry) (family : QueryFamilies) (now : Nat) : Bool :=
  entry.queried.contains family && now < entry.expire family

def familyIps (entry : CacheEntry) (family : QueryFamilies) : List IpAddr :=
  entry.ips.filter family.containsIp

end CacheEntry

inductive FamilyCacheHit where
  | answer (ips : List IpAddr) (remaining : Nat)
  | noData
  | nxDomain
  | miss
  deriving DecidableEq, Repr

structure CacheLookup where
  ips : List IpAddr
  ttl : Nat
  v4 : FamilyCacheHit
  v6 : FamilyCacheHit

def familyHit (entry : CacheEntry) (family : QueryFamilies) (fresh : Bool) (now : Nat) :
    FamilyCacheHit :=
  if !fresh then .miss
  else
    let ips := entry.familyIps family
    if ips.isEmpty then
      match entry.neg.familyKind family with
      | .nxDomain => .nxDomain
      | _ => .noData
    else .answer ips (entry.expire family - now)

def durationMax : Nat := (2 ^ 64 - 1) * 10 ^ 9 + 999999999

/-- The addresses of the answers, and the least time that is left to one of them. -/
def joinAnswers (hits : List FamilyCacheHit) : List IpAddr × Nat :=
  hits.foldl
    (fun (ips, least) hit =>
      match hit with
      | .answer hitIps ttl => (ips ++ hitIps, if ttl < least then ttl else least)
      | _ => (ips, least))
    ([], durationMax)

def CacheEntry.lookup (entry : CacheEntry) (now : Nat) : Option CacheLookup :=
  let v4Fresh := entry.fresh .ipv4 now
  let v6Fresh := entry.fresh .ipv6 now
  if v4Fresh || v6Fresh then
    let v4 := familyHit entry .ipv4 v4Fresh now
    let v6 := familyHit entry .ipv6 v6Fresh now
    let (ips, least) := joinAnswers [v4, v6]
    some { ips, ttl := if least = durationMax then 0 else least, v4, v6 }
  else none

def dedupInto (kept : List IpAddr) : List IpAddr → List IpAddr
  | [] => kept
  | ip :: rest => if ip ∈ kept then dedupInto kept rest else dedupInto (kept ++ [ip]) rest

def dedup (ips : List IpAddr) : List IpAddr :=
  dedupInto [] ips

/-- The arguments of a merge.  Callers pass addresses of the family only. -/
structure MergeCall where
  domain : Text
  family : QueryFamilies
  ips : List IpAddr
  ttl : Nat
  source : Option Text
  neg : FamilyNeg
  ips_family : ∀ ip ∈ ips, family.containsIp ip = true

namespace MergeCall

def preservesExisting (call : MergeCall) (existing : CacheEntry) (now : Nat) : Bool :=
  existing.fresh call.family now && call.neg = .noData && call.ips.isEmpty &&
    (existing.neg.get call.family = NegKind.nxDomainKind ||
      !(existing.familyIps call.family).isEmpty)

def setExpire (family : QueryFamilies) (expire : Nat) (entry : CacheEntry) : CacheEntry :=
  if family = .ipv4 then { entry with expireV4 := expire } else { entry with expireV6 := expire }

/-- The entry before the existing one is looked at; it has no addresses yet. -/
def freshEntry (call : MergeCall) (now : Nat) : CacheEntry where
  ips := []
  expireV4 := now + call.ttl
  expireV6 := now + call.ttl
  source := call.source
  queried := call.family
  neg := NegKind.empty.withKind call.family call.neg.kind

/-- A fresh answer of the same family is kept against a late answer without data. -/
def keepSame (call : MergeCall) (existing : CacheEntry) (now : Nat) (entry : CacheEntry) :
    CacheEntry :=
  if call.preservesExisting existing now then
    let kept := existing.familyIps call.family
    setExpire call.family (existing.expire call.family)
      { entry with
        ips := entry.ips ++ kept
        neg := entry.neg.withKind call.family
          (if kept.isEmpty then NegKind.nxDomainKind else NegKind.noneKind) }
  else entry

/-- A fresh answer of the other family is carried over. -/
def keepOther (call : MergeCall) (existing : CacheEntry) (now : Nat) (entry : CacheEntry) :
    CacheEntry :=
  let other := call.family.other
  if existing.fresh other now then
    setExpire other (existing.expire other)
      { entry with
        queried := entry.queried.union other
        ips := entry.ips ++ existing.familyIps other
        neg := entry.neg.withKind other (existing.neg.get other) }
  else entry

def mergeEntry (call : MergeCall) (existing : Option CacheEntry) (now : Nat) : CacheEntry :=
  let merged :=
    match existing with
    | some existing =>
      let entry := call.keepOther existing now (call.keepSame existing now (call.freshEntry now))
      { entry with source := entry.source.or existing.source }
    | none => call.freshEntry now
  { merged with ips := dedup (merged.ips ++ call.ips) }

end MergeCall

structure ReverseEntry where
  domain : Text
  expireAt : Nat

def reverseTtlFloor : Nat := 600 * 10 ^ 9

def shardCount : Nat := 16

def fnv1a32 (bytes : Text) : BitVec 32 :=
  bytes.foldl (fun hash byte => (hash ^^^ BitVec.ofNat 32 byte.toNat) * 0x01000193#32) 0x811c9dc5#32

def shardOf (bytes : Text) : Fin shardCount :=
  ⟨(fnv1a32 bytes).toNat % shardCount, Nat.mod_lt _ (by decide)⟩

def bytesOf (count value : Nat) : Text :=
  (List.range count).reverse.map fun index => UInt8.ofNat (value / 256 ^ index)

def octets : IpAddr → Text
  | .v4 value => bytesOf 4 value.toNat
  | .v6 value => bytesOf 16 value.toNat

def normalizeDomain (domain : Text) : Text :=
  if domain.any isAsciiUppercase then toAsciiLowercase domain else domain

/-- The cache: shards of entries by domain and of domains by address, with a cap for each shard. -/
structure DnsCache where
  cache : Fin shardCount → LruCache Text CacheEntry
  reverse : Fin shardCount → LruCache IpAddr ReverseEntry
  fwdShardCap : Nat
  revShardCap : Nat
  fwdShardCap_pos : 0 < fwdShardCap

namespace DnsCache

def perShardCap (total least : Nat) : Nat :=
  max (total / shardCount) least

def new (capacity : Nat) : DnsCache where
  cache := fun _ => ∅
  reverse := fun _ => ∅
  fwdShardCap := perShardCap (max capacity shardCount) 8
  revShardCap := perShardCap (max (capacity * 4) shardCount) 16
  fwdShardCap_pos := lt_of_lt_of_le (by decide) (le_max_right _ 8)

/-- Store under a key, and evict when the shard grows over its cap. -/
def putCapped {κ ν : Type} [DecidableEq κ] (cap : Nat) (shard : LruCache κ ν) (key : κ) (value : ν) :
    LruCache κ ν :=
  let shard := shard.put key value
  if cap < shard.len then shard.popLru.2 else shard

def noteReverse (cache : DnsCache) (domain : Text) (expireAt : Nat) (ip : IpAddr) : DnsCache :=
  let index := shardOf (octets ip)
  { cache with
    reverse := update cache.reverse index
      (putCapped cache.revShardCap (cache.reverse index) ip ⟨domain, expireAt⟩) }

/-- Merge an answer for one family; a call for another set of families is refused. -/
def mergeFamily (cache : DnsCache) (call : MergeCall) (now : Nat) : DnsCache :=
  if call.family ≠ .ipv4 ∧ call.family ≠ .ipv6 then cache
  else
    let key := normalizeDomain call.domain
    let cache := call.ips.foldl
      (fun cache ip => cache.noteReverse key (now + max call.ttl reverseTtlFloor) ip) cache
    let index := shardOf key
    let found := (cache.cache index).get key
    { cache with
      cache := update cache.cache index
        (putCapped cache.fwdShardCap found.2 key (call.mergeEntry found.1 now)) }

/-- Look a domain up; an entry without a fresh family is removed. -/
def getLookup (cache : DnsCache) (domain : Text) (now : Nat) : Option CacheLookup × DnsCache :=
  let key := normalizeDomain domain
  let index := shardOf key
  let found := (cache.cache index).get key
  match found.1 with
  | none => (none, { cache with cache := update cache.cache index found.2 })
  | some entry =>
    match entry.lookup now with
    | some lookup =>
      (some lookup, { cache with cache := update cache.cache index found.2 })
    | none =>
      (none, { cache with cache := update cache.cache index (found.2.pop key).2 })

def outcome (cache : DnsCache) (domain : Text) (family : Family) (now : Nat) : FamilyCacheHit :=
  match (cache.getLookup domain now).1, family with
  | none, _ => .miss
  | some lookup, .v4 => lookup.v4
  | some lookup, .v6 => lookup.v6

/-- A call to the cache, with its time. -/
inductive Call where
  | merge (call : MergeCall) (now : Nat)
  | lookup (domain : Text) (now : Nat)

namespace Call

def time : Call → Nat
  | .merge _ now => now
  | .lookup _ now => now

def isMergeOf (domain : Text) (family : Family) : Call → Bool
  | .merge call _ =>
    normalizeDomain call.domain = normalizeDomain domain && call.family = .ofFamily family
  | .lookup _ _ => false

end Call

def perform (cache : DnsCache) : Call → DnsCache
  | .merge call now => cache.mergeFamily call now
  | .lookup domain now => (cache.getLookup domain now).2

def run (cache : DnsCache) (calls : List Call) : DnsCache :=
  calls.foldl perform cache

def evicts (cache : DnsCache) : Call → Bool
  | .merge call now =>
    let key := normalizeDomain call.domain
    let shard := (cache.cache (shardOf key)).get key
    (call.family = .ipv4 || call.family = .ipv6) &&
      cache.fwdShardCap < (shard.2.put key (call.mergeEntry shard.1 now)).len
  | .lookup _ _ => false

/-- A run in which no entry is evicted for want of capacity. -/
def Unevicted (cache : DnsCache) : List Call → Prop
  | [] => True
  | call :: calls => cache.evicts call = false ∧ Unevicted (cache.perform call) calls

end DnsCache

section Dedup

theorem nodup_dedupInto {kept : List IpAddr} (hn : kept.Nodup) (ips : List IpAddr) :
    (dedupInto kept ips).Nodup := by
  induction ips generalizing kept with
  | nil => exact hn
  | cons ip ips ih =>
    rw [dedupInto]
    split
    · exact ih hn
    · rename_i isNew
      apply ih
      apply hn.append (List.nodup_singleton ip)
      rwa [List.disjoint_singleton]

theorem nodup_dedup (ips : List IpAddr) : (dedup ips).Nodup :=
  nodup_dedupInto List.nodup_nil ips

theorem filter_dedupInto (keep : IpAddr → Bool) (kept ips : List IpAddr) :
    (dedupInto kept ips).filter keep = dedupInto (kept.filter keep) (ips.filter keep) := by
  induction ips generalizing kept with
  | nil => rfl
  | cons ip ips ih =>
    rw [dedupInto]
    cases hk : keep ip with
    | true =>
      rw [List.filter_cons_of_pos hk, dedupInto]
      by_cases hs : ip ∈ kept
      · rw [if_pos hs, if_pos (List.mem_filter.mpr ⟨hs, hk⟩), ih]
      · rw [if_neg hs, if_neg fun hm => hs (List.mem_filter.mp hm).1, ih,
          List.filter_append, List.filter_cons_of_pos hk, List.filter_nil]
    | false =>
      have hd : ¬ keep ip = true := by rw [hk]; exact Bool.false_ne_true
      rw [List.filter_cons_of_neg hd]
      split
      · exact ih kept
      · rw [ih, List.filter_append, List.filter_cons_of_neg hd, List.filter_nil, List.append_nil]

theorem filter_dedup (keep : IpAddr → Bool) (ips : List IpAddr) :
    (dedup ips).filter keep = dedup (ips.filter keep) :=
  filter_dedupInto keep [] ips

theorem dedupInto_of_nodup {kept ips : List IpAddr} (hn : (kept ++ ips).Nodup) :
    dedupInto kept ips = kept ++ ips := by
  induction ips generalizing kept with
  | nil => exact (List.append_nil kept).symm
  | cons ip ips ih =>
    have hne : ip ∉ kept := by
      intro hm
      exact (List.nodup_append.mp hn).2.2 ip hm ip List.mem_cons_self rfl
    rw [dedupInto, if_neg hne, ih]
    · simp
    · simpa using hn

theorem dedup_of_nodup {ips : List IpAddr} (hn : ips.Nodup) : dedup ips = ips :=
  dedupInto_of_nodup hn

end Dedup

section Families

def otherFamily : Family → Family
  | .v4 => .v6
  | .v6 => .v4

theorem other_ofFamily (fam : Family) :
    (QueryFamilies.ofFamily fam).other = .ofFamily (otherFamily fam) := by
  cases fam <;> rfl

theorem contains_ofFamily (fam other : Family) :
    (QueryFamilies.ofFamily fam).contains (.ofFamily other) = decide (other = fam) := by
  cases fam <;> cases other <;> rfl

theorem containsIp_ofFamily (fam : Family) (ip : IpAddr) :
    (QueryFamilies.ofFamily fam).containsIp ip = decide (ip.family = fam) :=
  contains_ofFamily fam ip.family

theorem familyIps_eq (e : CacheEntry) (fam : Family) :
    e.familyIps (.ofFamily fam) = e.ips.filter (·.family = fam) := by
  rw [CacheEntry.familyIps]
  congr 1
  funext ip
  exact containsIp_ofFamily fam ip

theorem contains_union (families : QueryFamilies) (added fam : Family) :
    (families.union (.ofFamily added)).contains (.ofFamily fam) =
      (families.contains (.ofFamily fam) || decide (fam = added)) := by
  obtain ⟨bits⟩ := families
  revert bits
  cases added <;> cases fam <;> decide +kernel

theorem get_withKind (neg : NegKind) (fam other : Family) (kind : BitVec 8) :
    (neg.withKind (.ofFamily fam) kind).get (.ofFamily other) =
      if other = fam then kind &&& 3#8 else neg.get (.ofFamily other) := by
  have hs : NegKind.familyShift (.ofFamily .v4) = 0 ∧
      NegKind.familyShift (.ofFamily .v6) = 2 := by decide
  cases fam <;> cases other <;>
    simp only [NegKind.withKind, NegKind.get, hs, reduceCtorEq, if_true, if_false] <;>
    ext index bounded <;> interval_cases index <;> simp

end Families

section Records

/-- What is known about one family: its addresses, when they expire, and the kind of a negative
answer. -/
structure FamilyRecord where
  ips : List IpAddr
  expire : Nat
  kind : BitVec 8

def freshAt (now : Nat) (record : Option FamilyRecord) : Option FamilyRecord :=
  record.filter (now < ·.expire)

theorem freshAt_freshAt {prev now : Nat} (le : prev ≤ now) (record : Option FamilyRecord) :
    freshAt now (freshAt prev record) = freshAt now record := by
  cases record with
  | none => rfl
  | some record =>
    by_cases hfr : now < record.expire
    · have he : prev < record.expire := lt_of_le_of_lt le hfr
      simp [freshAt, Option.filter, hfr, he]
    · by_cases he : prev < record.expire <;>
        simp [freshAt, Option.filter, hfr, he]

def report (now : Nat) (record : Option FamilyRecord) : FamilyCacheHit :=
  match freshAt now record with
  | none => .miss
  | some record =>
    if record.ips.isEmpty then
      if record.kind = NegKind.nxDomainKind then .nxDomain else .noData
    else .answer record.ips (record.expire - now)

def CacheEntry.record (entry : CacheEntry) (family : Family) : Option FamilyRecord :=
  if entry.queried.contains (.ofFamily family) then
    some ⟨entry.familyIps (.ofFamily family), entry.expire (.ofFamily family),
      entry.neg.get (.ofFamily family)⟩
  else none

theorem CacheEntry.isSome_freshAt_record (e : CacheEntry) (fam : Family) (now : Nat) :
    (freshAt now (e.record fam)).isSome = e.fresh (.ofFamily fam) now := by
  rw [record, fresh]
  cases e.queried.contains (.ofFamily fam) with
  | false => rfl
  | true =>
    by_cases ht : now < e.expire (.ofFamily fam) <;>
      simp [freshAt, Option.filter, ht]

theorem CacheEntry.freshAt_record {e : CacheEntry} {fam : Family} {now : Nat}
    (hfr : e.fresh (.ofFamily fam) now = true) :
    freshAt now (e.record fam) = some ⟨e.familyIps (.ofFamily fam),
      e.expire (.ofFamily fam), e.neg.get (.ofFamily fam)⟩ := by
  rw [fresh, Bool.and_eq_true, decide_eq_true_eq] at hfr
  rw [record, if_pos hfr.1, freshAt, filter_some, decide_eq_true hfr.2, if_pos rfl]

theorem familyHit_eq_report (e : CacheEntry) (fam : Family) (now : Nat) :
    familyHit e (.ofFamily fam) (e.fresh (.ofFamily fam) now) now =
      report now (e.record fam) := by
  rw [report]
  cases hfr : e.fresh (.ofFamily fam) now with
  | false =>
    rw [← e.isSome_freshAt_record, isSome_eq_false_iff, isNone_iff_eq_none] at hfr
    rw [hfr]
    rfl
  | true =>
    rw [CacheEntry.freshAt_record hfr, familyHit, NegKind.familyKind]
    cases he : (e.familyIps (.ofFamily fam)).isEmpty with
    | false => simp [he]
    | true =>
      by_cases hi : e.neg.get (.ofFamily fam) = NegKind.noDataKind
      · have hnn : NegKind.noDataKind ≠ NegKind.nxDomainKind := by decide
        simp [he, hi, hnn]
      · by_cases hn : e.neg.get (.ofFamily fam) = NegKind.nxDomainKind
        · have hnnd : NegKind.nxDomainKind ≠ NegKind.noDataKind := by decide
          simp [he, hn, hnnd]
        · simp [he, hi, hn]

/-- What a merge makes of the record of its own family. -/
def MergeCall.mergeRecord (call : MergeCall) (held : Option FamilyRecord) (now : Nat) :
    FamilyRecord :=
  match held with
  | some record =>
    if call.neg = .noData ∧ call.ips = [] ∧
        (record.kind = NegKind.nxDomainKind ∨ record.ips ≠ []) then
      ⟨dedup record.ips, record.expire,
        if record.ips.isEmpty then NegKind.nxDomainKind else NegKind.noneKind⟩
    else ⟨dedup call.ips, now + call.ttl, call.neg.kind⟩
  | none => ⟨dedup call.ips, now + call.ttl, call.neg.kind⟩

section MergeEntry

variable {call : MergeCall} {fam : Family} {now : Nat}

theorem filter_familyIps (e : CacheEntry) (fam kept : Family) :
    (e.familyIps (.ofFamily fam)).filter (·.family = kept) =
      if kept = fam then e.familyIps (.ofFamily fam) else [] := by
  rw [familyIps_eq]
  split
  · rename_i same
    rw [same, List.filter_filter]
    simp
  · rename_i ne
    rw [List.filter_eq_nil_iff]
    intro ip hm
    have hfa := (List.mem_filter.mp hm).2
    rw [decide_eq_true_eq] at hfa ⊢
    exact fun hk => ne (hk.symm.trans hfa)

theorem otherFamily_ne (fam : Family) : otherFamily fam ≠ fam := by
  cases fam <;> exact nofun

section

variable (hf : call.family = .ofFamily fam)
include hf

theorem filter_call_ips :
    call.ips.filter (·.family = fam) = call.ips := by
  rw [List.filter_eq_self]
  intro ip hm
  have hfa := call.ips_family ip hm
  rwa [hf, containsIp_ofFamily] at hfa

theorem filter_call_ips_other :
    call.ips.filter (·.family = otherFamily fam) = [] := by
  rw [List.filter_eq_nil_iff]
  intro ip hm
  have hfa := call.ips_family ip hm
  rw [hf, containsIp_ofFamily, decide_eq_true_eq] at hfa
  cases fam <;> simp [hfa, otherFamily]

theorem preservesExisting_iff (ex : CacheEntry) :
    call.preservesExisting ex now = true ↔
      ∃ record, freshAt now (ex.record fam) = some record ∧ call.neg = .noData ∧
        call.ips = [] ∧ (record.kind = NegKind.nxDomainKind ∨ record.ips ≠ []) := by
  simp only [MergeCall.preservesExisting, hf, Bool.and_eq_true, Bool.or_eq_true,
    decide_eq_true_eq, List.isEmpty_iff, Bool.not_eq_true', ← Bool.not_eq_true]
  constructor
  · rintro ⟨⟨⟨hfr, hd⟩, he⟩, hk⟩
    exact ⟨_, CacheEntry.freshAt_record hfr, hd, he, hk⟩
  · rintro ⟨record, hr, hd, he, hk⟩
    have hfr : ex.fresh (.ofFamily fam) now = true := by
      rw [← ex.isSome_freshAt_record, hr]
      rfl
    rw [CacheEntry.freshAt_record hfr, some.injEq] at hr
    subst hr
    exact ⟨⟨⟨hfr, hd⟩, he⟩, hk⟩

end

@[simp]
theorem expire_setExpire (set fam : Family) (expire : Nat) (e : CacheEntry) :
    (MergeCall.setExpire (.ofFamily set) expire e).expire (.ofFamily fam) =
      if fam = set then expire else e.expire (.ofFamily fam) := by
  cases set <;> cases fam <;> rfl

@[simp]
theorem ips_setExpire (fam : QueryFamilies) (expire : Nat) (e : CacheEntry) :
    (MergeCall.setExpire fam expire e).ips = e.ips := by
  unfold MergeCall.setExpire
  split <;> rfl

@[simp]
theorem queried_setExpire (fam : QueryFamilies) (expire : Nat) (e : CacheEntry) :
    (MergeCall.setExpire fam expire e).queried = e.queried := by
  unfold MergeCall.setExpire
  split <;> rfl

@[simp]
theorem neg_setExpire (fam : QueryFamilies) (expire : Nat) (e : CacheEntry) :
    (MergeCall.setExpire fam expire e).neg = e.neg := by
  unfold MergeCall.setExpire
  split <;> rfl

theorem expire_freshEntry (call : MergeCall) (fam : QueryFamilies) (now : Nat) :
    (call.freshEntry now).expire fam = now + call.ttl := by
  unfold CacheEntry.expire
  split <;> rfl

theorem record_eq {e : CacheEntry} {ips : List IpAddr} {source : Option Text}
    (hq : e.queried.contains (.ofFamily fam) = true) :
    ({ e with ips := ips, source := source } : CacheEntry).record fam =
      some ⟨ips.filter (·.family = fam), e.expire (.ofFamily fam), e.neg.get (.ofFamily fam)⟩ := by
  rw [CacheEntry.record, if_pos hq, familyIps_eq]
  rfl

theorem kind_and_mask (neg : FamilyNeg) : neg.kind &&& 3#8 = neg.kind := by
  cases neg <;> decide

section

variable (hf : call.family = .ofFamily fam)
include hf

theorem keepOther_same (ex e : CacheEntry) (hq : e.queried.contains (.ofFamily fam) = true) :
    (call.keepOther ex now e).queried.contains (.ofFamily fam) = true ∧
      (call.keepOther ex now e).ips.filter (·.family = fam) = e.ips.filter (·.family = fam) ∧
      (call.keepOther ex now e).expire (.ofFamily fam) = e.expire (.ofFamily fam) ∧
      (call.keepOther ex now e).neg.get (.ofFamily fam) =
        e.neg.get (.ofFamily fam) := by
  have ne := (otherFamily_ne fam).symm
  rw [MergeCall.keepOther, hf, other_ofFamily]
  split
  · simp [contains_union, hq, filter_familyIps, ne, get_withKind]
    rfl
  · exact ⟨hq, rfl, rfl, rfl⟩

/-- A merge sets the record of its family from the fresh record it finds there. -/
theorem record_mergeEntry (ex : Option CacheEntry) :
    (call.mergeEntry ex now).record fam =
      some (call.mergeRecord (freshAt now (ex.bind (·.record fam))) now) := by
  have hpq : (call.freshEntry now).queried.contains (.ofFamily fam) = true := by
    simp [MergeCall.freshEntry, hf, contains_ofFamily]
  have hpn : (call.freshEntry now).neg.get (.ofFamily fam) = call.neg.kind := by
    simp [MergeCall.freshEntry, hf, get_withKind, kind_and_mask]
  cases ex with
  | none =>
    rw [MergeCall.mergeEntry, record_eq hpq, filter_dedup, hpn, expire_freshEntry]
    simp [MergeCall.freshEntry, filter_call_ips hf, freshAt, MergeCall.mergeRecord]
  | some ex =>
    have hqu : (call.keepSame ex now (call.freshEntry now)).queried.contains
        (.ofFamily fam) = true := by
      rw [MergeCall.keepSame]
      split
      · simpa using hpq
      · exact hpq
    obtain ⟨hq, hi, expire, neg⟩ := keepOther_same hf ex
      (call.keepSame ex now (call.freshEntry now)) hqu
    simp only [MergeCall.mergeEntry, bind_some]
    rw [record_eq hq, filter_dedup, List.filter_append, hi, expire, neg, filter_call_ips hf]
    cases hp : call.preservesExisting ex now with
    | true =>
      obtain ⟨record, hr, hd, he, hk⟩ := (preservesExisting_iff hf ex).mp hp
      have hfr : ex.fresh (.ofFamily fam) now = true := by
        rw [← ex.isSome_freshAt_record, hr]
        rfl
      have hs := (CacheEntry.freshAt_record hfr).symm.trans hr
      rw [hr, MergeCall.mergeRecord, if_pos ⟨hd, he, hk⟩,
        ← some.inj hs, MergeCall.keepSame, if_pos hp, hf]
      have hm : ∀ kept : List IpAddr,
          (if kept = [] then NegKind.nxDomainKind else NegKind.noneKind) &&& 3#8 =
            if kept = [] then NegKind.nxDomainKind else NegKind.noneKind := by
        intro kept
        split <;> decide
      simp [he, MergeCall.freshEntry, filter_familyIps, get_withKind, hm]
    | false =>
      have hpl : call.mergeRecord (freshAt now (ex.record fam)) now =
          ⟨dedup call.ips, now + call.ttl, call.neg.kind⟩ := by
        unfold MergeCall.mergeRecord
        split
        · rename_i record hr
          rw [if_neg]
          rintro ⟨hd, he, hk⟩
          rw [(preservesExisting_iff hf ex).mpr ⟨record, hr, hd, he, hk⟩] at hp
          exact absurd hp nofun
        · rfl
      rw [hpl, MergeCall.keepSame, hp, if_neg Bool.false_ne_true, hpn, expire_freshEntry]
      rfl

theorem keepSame_other (ex : CacheEntry) :
    (call.keepSame ex now (call.freshEntry now)).queried.contains
        (.ofFamily (otherFamily fam)) = false ∧
      (call.keepSame ex now (call.freshEntry now)).ips.filter
        (·.family = otherFamily fam) = [] := by
  have ne := otherFamily_ne fam
  rw [MergeCall.keepSame]
  split
  · simp [MergeCall.freshEntry, hf, contains_ofFamily, filter_familyIps, ne]
  · simp [MergeCall.freshEntry, hf, contains_ofFamily, ne]

theorem record_mergeEntry_other {ex : Option CacheEntry} (hn : ∀ e ∈ ex, e.ips.Nodup) :
    (call.mergeEntry ex now).record (otherFamily fam) =
      freshAt now (ex.bind (·.record (otherFamily fam))) := by
  cases ex with
  | none =>
    rw [MergeCall.mergeEntry, CacheEntry.record, if_neg]
    · rfl
    · simp [MergeCall.freshEntry, hf, contains_ofFamily, otherFamily_ne]
  | some ex =>
    obtain ⟨hu, hi⟩ := @keepSame_other call fam now hf ex
    simp only [MergeCall.mergeEntry, bind_some]
    cases hfr : ex.fresh (.ofFamily (otherFamily fam)) now with
    | true =>
      rw [CacheEntry.freshAt_record hfr, MergeCall.keepOther, hf, other_ofFamily,
        if_pos hfr, record_eq (by simp [contains_union])]
      have hk : (ex.familyIps (.ofFamily (otherFamily fam))).Nodup := (hn ex rfl).filter _
      have hm : ex.neg.get (.ofFamily (otherFamily fam)) &&& 3#8 =
          ex.neg.get (.ofFamily (otherFamily fam)) := by
        rw [NegKind.get, BitVec.and_assoc, BitVec.and_self]
      simp [filter_dedup, hi, filter_familyIps, filter_call_ips_other hf, get_withKind,
        dedup_of_nodup hk, hm]
    | false =>
      have hs : freshAt now (ex.record (otherFamily fam)) = none := by
        rw [← ex.isSome_freshAt_record, isSome_eq_false_iff, isNone_iff_eq_none] at hfr
        exact hfr
      rw [hs, MergeCall.keepOther, hf, other_ofFamily, hfr,
        if_neg Bool.false_ne_true, CacheEntry.record, if_neg]
      rw [← Bool.not_eq_true] at hu
      exact hu

end

theorem nodup_mergeEntry (ex : Option CacheEntry) : (call.mergeEntry ex now).ips.Nodup :=
  nodup_dedup _

end MergeEntry

end Records

namespace DnsCache

section Entries

variable {cache : DnsCache} {call : MergeCall} {now : Nat}

def entry (cache : DnsCache) (key : Text) : Option CacheEntry :=
  (cache.cache (shardOf key)).peek key

theorem peek_put {κ ν : Type} [DecidableEq κ] (shard : LruCache κ ν) (key other : κ) (v : ν) :
    (shard.put key v).peek other = if other = key then some v else shard.peek other := by
  split
  · rename_i same
    rw [same]
    exact AList.lookup_insert shard
  · rename_i ne
    exact AList.lookup_insert_ne ne

theorem entry_update {key : Text} {shard : LruCache Text CacheEntry} {v : Option CacheEntry}
    (hk : shard.peek key = v)
    (he : ∀ other, other ≠ key → shard.peek other = (cache.cache (shardOf key)).peek other)
    (other : Text) :
    ({ cache with cache := update cache.cache (shardOf key) shard } : DnsCache).entry
      other = if other = key then v else cache.entry other := by
  dsimp only [entry]
  by_cases hs : other = key
  · rw [if_pos hs, hs, update_self, hk]
  · rw [if_neg hs]
    by_cases hsh : shardOf other = shardOf key
    · rw [hsh, update_self, he other hs]
    · rw [update_of_ne hsh]

theorem cache_noteReverse (cache : DnsCache) (ips : List IpAddr) (key : Text) (expireAt : Nat) :
    (ips.foldl (fun cache ip => cache.noteReverse key expireAt ip) cache).cache = cache.cache ∧
      (ips.foldl (fun cache ip => cache.noteReverse key expireAt ip) cache).fwdShardCap =
        cache.fwdShardCap := by
  induction ips generalizing cache with
  | nil => exact ⟨rfl, rfl⟩
  | cons ip ips ih => exact ih (cache.noteReverse key expireAt ip)

theorem mergeFamily_refused (hr : call.family ≠ .ipv4 ∧ call.family ≠ .ipv6) :
    cache.mergeFamily call now = cache :=
  if_pos hr

/-- A merge without an eviction changes the entry of its domain only. -/
theorem entry_mergeFamily (hs : call.family = .ipv4 ∨ call.family = .ipv6)
    (hu : cache.evicts (.merge call now) = false) (key : Text) :
    (cache.mergeFamily call now).entry key = if key = normalizeDomain call.domain then
        some (call.mergeEntry (cache.entry (normalizeDomain call.domain)) now)
      else cache.entry key := by
  have ha : ¬ (call.family ≠ .ipv4 ∧ call.family ≠ .ipv6) := by
    rintro ⟨hn, hh⟩
    rcases hs with hv | hi
    · exact hn hv
    · exact hh hi
  rw [mergeFamily, if_neg ha]
  dsimp only
  obtain ⟨hca, hc⟩ := cache_noteReverse cache call.ips (normalizeDomain call.domain)
    (now + max call.ttl reverseTtlFloor)
  generalize call.ips.foldl (fun cache ip => cache.noteReverse (normalizeDomain call.domain)
    (now + max call.ttl reverseTtlFloor) ip) cache = noted at hca hc
  have fits : ¬ cache.fwdShardCap < (((cache.cache (shardOf (normalizeDomain call.domain))).get
      (normalizeDomain call.domain)).2.put (normalizeDomain call.domain)
        (call.mergeEntry (cache.entry (normalizeDomain call.domain)) now)).len := by
    simpa [evicts, hs, entry] using hu
  have he : ∀ key, noted.entry key = cache.entry key := by
    intro key
    rw [entry, entry, hca]
  rw [← he key]
  apply entry_update
  · rw [hca, hc, putCapped, LruCache.get_fst]
    exact (congrArg (LruCache.peek · _) (if_neg fits)).trans ((peek_put _ _ _ _).trans (if_pos rfl))
  · intro other ne
    rw [hca, hc, putCapped, LruCache.get_fst]
    refine (congrArg (LruCache.peek · _) (if_neg fits)).trans ?_
    rw [peek_put, if_neg ne, LruCache.peek_get]

theorem entry_getLookup (dom key : Text) :
    (cache.getLookup dom now).2.entry key = if key = normalizeDomain dom then
        (cache.entry (normalizeDomain dom)).filter fun e => (e.lookup now).isSome
      else cache.entry key := by
  have hu : ∀ other, ((cache.cache (shardOf (normalizeDomain dom))).get
      (normalizeDomain dom)).2.peek other =
        (cache.cache (shardOf (normalizeDomain dom))).peek other :=
    fun other => LruCache.peek_get _ _ _
  unfold getLookup
  dsimp only
  rw [LruCache.get_fst]
  cases found : (cache.cache (shardOf (normalizeDomain dom))).peek (normalizeDomain dom) with
  | none =>
    have ha : cache.entry (normalizeDomain dom) = none := found
    rw [ha]
    exact entry_update ((hu _).trans found) (fun other _ => hu other) key
  | some e =>
    have hp : cache.entry (normalizeDomain dom) = some e := found
    rw [hp]
    dsimp only
    cases hi : e.lookup now with
    | none =>
      rw [filter_some, hi, isSome_none, if_neg Bool.false_ne_true]
      apply entry_update
      · exact AList.lookup_erase _ _
      · intro other ne
        exact (AList.lookup_erase_ne ne).trans (hu other)
    | some lookup =>
      rw [filter_some, hi, isSome_some, if_pos rfl]
      exact entry_update ((hu _).trans found) (fun other _ => hu other) key

end Entries

section Runs

variable {cache : DnsCache} {dom : Text} {fam : Family} {shard : LruCache Text CacheEntry}
  {key : Text}

def record (cache : DnsCache) (domain : Text) (family : Family) : Option FamilyRecord :=
  (cache.entry (normalizeDomain domain)).bind (·.record family)

def Clean (cache : DnsCache) : Prop :=
  ∀ key entry, cache.entry key = some entry → entry.ips.Nodup

theorem lookup_isSome (e : CacheEntry) (now : Nat) :
    (e.lookup now).isSome = (e.fresh .ipv4 now || e.fresh .ipv6 now) := by
  rw [CacheEntry.lookup]
  cases e.fresh .ipv4 now || e.fresh .ipv6 now <;> rfl

theorem freshAt_of_lookup_none {e : CacheEntry} {now : Nat} (none : e.lookup now = none) :
    freshAt now (e.record fam) = Option.none := by
  have hst := lookup_isSome e now
  rw [none, isSome_none, eq_comm, Bool.or_eq_false_iff] at hst
  rw [← not_isSome_iff_eq_none, e.isSome_freshAt_record]
  cases fam with
  | v4 => exact Bool.eq_false_iff.mp hst.1
  | v6 => exact Bool.eq_false_iff.mp hst.2

theorem outcome_eq_report (cache : DnsCache) (dom : Text) (fam : Family) (now : Nat) :
    cache.outcome dom fam now = report now (cache.record dom fam) := by
  unfold outcome getLookup
  dsimp only
  rw [LruCache.get_fst]
  have hpr : cache.record dom fam =
      ((cache.cache (shardOf (normalizeDomain dom))).peek (normalizeDomain dom)).bind
        (·.record fam) := rfl
  rw [hpr]
  cases (cache.cache (shardOf (normalizeDomain dom))).peek (normalizeDomain dom) with
  | none => rfl
  | some e =>
    rw [bind_some]
    dsimp only
    cases hit : e.lookup now with
    | none =>
      rw [report, freshAt_of_lookup_none hit]
    | some lookup =>
      rw [← familyHit_eq_report]
      rw [CacheEntry.lookup] at hit
      split at hit
      · obtain rfl := some.inj hit
        cases fam <;> rfl
      · exact absurd hit nofun

/-- The record that the merges of one family alone lead to. -/
def replay (domain : Text) (family : Family) (held : Option FamilyRecord) (calls : List Call) :
    Option FamilyRecord :=
  calls.foldl
    (fun held call =>
      match call with
      | .merge merge now =>
        if call.isMergeOf domain family then some (merge.mergeRecord (freshAt now held) now)
        else held
      | .lookup _ _ => held)
    held

theorem clean_perform (hc : cache.Clean) {call : Call} (hu : cache.evicts call = false) :
    (cache.perform call).Clean := by
  intro key e hp
  cases call with
  | merge call now =>
    by_cases hs : call.family = .ipv4 ∨ call.family = .ipv6
    · rw [perform, entry_mergeFamily hs hu] at hp
      split at hp
      · rw [← some.inj hp]
        exact nodup_mergeEntry _
      · exact hc key e hp
    · rw [perform, mergeFamily_refused (not_or.mp hs)] at hp
      exact hc key e hp
  | lookup dom now =>
    rw [perform, entry_getLookup] at hp
    split at hp
    · exact hc _ e (filter_eq_some_iff.mp hp).1
    · exact hc key e hp

/-- One call does to the fresh record of a family what the call says about that family. -/
theorem freshAt_record_perform (hcl : cache.Clean) {call : Call}
    (hune : cache.evicts call = false) {held : Option FamilyRecord} {start : Nat}
    (hag : ∀ now, start ≤ now → freshAt now (cache.record dom fam) = freshAt now held)
    (hst : start ≤ call.time) {now : Nat} (hla : call.time ≤ now) :
    freshAt now ((cache.perform call).record dom fam) =
      freshAt now (replay dom fam held [call]) := by
  have hun := hag now (hst.trans hla)
  cases call with
  | merge call time =>
    rw [Call.time] at hst hla
    have kept (other : Call.isMergeOf dom fam (.merge call time) = false) :
        replay dom fam held [.merge call time] = held :=
      if_neg (Bool.eq_false_iff.mp other)
    by_cases hsi : call.family = .ipv4 ∨ call.family = .ipv6
    · by_cases hke : normalizeDomain dom = normalizeDomain call.domain
      · rw [record, perform, entry_mergeFamily hsi hune, if_pos hke, bind_some]
        by_cases hfa : call.family = .ofFamily fam
        · -- The call is about this family: both sides merge into the same fresh record.
          have hme : Call.isMergeOf dom fam (.merge call time) = true := by
            simp [Call.isMergeOf, hke, hfa]
          have hmer : replay dom fam held [.merge call time] =
              some (call.mergeRecord (freshAt time held) time) := if_pos hme
          rw [record_mergeEntry hfa, hmer, ← hag time hst, record, hke]
        · -- The call is about the other family, whose merge keeps this one while it is fresh.
          have hot : call.family = .ofFamily (otherFamily fam) := by
            cases fam with
            | v4 => exact hsi.resolve_left hfa
            | v6 => exact hsi.resolve_right hfa
          have other := @record_mergeEntry_other call (otherFamily fam) time hot
            (cache.entry (normalizeDomain call.domain)) (fun e => hcl _ e)
          have back : otherFamily (otherFamily fam) = fam := by
            cases fam <;> rfl
          rw [back] at other
          rw [other, kept (by simp [Call.isMergeOf, hfa]), freshAt_freshAt hla, ← hun, record, hke]
      · rw [record, perform, entry_mergeFamily hsi hune, if_neg hke,
          kept (by simp [Call.isMergeOf, Ne.symm hke]), ← hun, record]
    · rw [not_or] at hsi
      rw [perform, mergeFamily_refused hsi, hun, kept]
      cases fam <;> simp [Call.isMergeOf, QueryFamilies.ofFamily, hsi]
  | lookup looked time =>
    rw [Call.time] at hla
    change _ = freshAt now held
    rw [← hun, record, record, perform, entry_getLookup]
    split
    · rename_i hke
      rw [hke]
      cases cache.entry (normalizeDomain looked) with
      | none => rfl
      | some e =>
        rw [filter_some]
        cases hit : e.lookup time with
        | some lookup => rfl
        | none =>
          have hsta := @freshAt_of_lookup_none fam e time hit
          rw [isSome_none, if_neg Bool.false_ne_true, bind_some,
            ← freshAt_freshAt hla (e.record fam), hsta]
          rfl
    · rfl

theorem replay_cons (held : Option FamilyRecord) (call : Call) (calls : List Call) :
    replay dom fam held (call :: calls) = replay dom fam (replay dom fam held [call]) calls :=
  rfl

/-- A run leads to the record that the merges of the family alone lead to. -/
theorem freshAt_record_run (hc : cache.Clean) {calls : List Call}
    (hu : cache.Unevicted calls) {held : Option FamilyRecord} {start now : Nat}
    (ha : ∀ now, start ≤ now → freshAt now (cache.record dom fam) = freshAt now held)
    (ho : (start :: (calls.map Call.time ++ [now])).Pairwise (· ≤ ·)) :
    freshAt now ((cache.run calls).record dom fam) =
      freshAt now (replay dom fam held calls) := by
  induction calls generalizing cache held start with
  | nil =>
    rw [List.map_nil, List.nil_append, List.pairwise_cons] at ho
    exact ha now (ho.1 now List.mem_cons_self)
  | cons call calls ih =>
    obtain ⟨fst, hr⟩ := hu
    rw [List.map_cons, List.cons_append, List.pairwise_cons] at ho
    apply ih (clean_perform hc fst) hr _ ho.2
    intro now hl
    exact freshAt_record_perform hc fst ha (ho.1 _ List.mem_cons_self) hl

theorem replay_filter (held : Option FamilyRecord) (calls : List Call) :
    replay dom fam held (calls.filter (Call.isMergeOf dom fam)) =
      replay dom fam held calls := by
  induction calls generalizing held with
  | nil => rfl
  | cons call calls ih =>
    cases hm : call.isMergeOf dom fam with
    | true =>
      rw [List.filter_cons_of_pos hm, replay_cons, ih, ← replay_cons]
    | false =>
      rw [List.filter_cons_of_neg (Bool.eq_false_iff.mp hm), ih, replay_cons]
      congr 1
      cases call with
      | merge call now => exact (if_neg (Bool.eq_false_iff.mp hm)).symm
      | lookup looked now => rfl

def Only (key : Text) (cache : DnsCache) : Prop :=
  ∀ index, ∀ other ∈ (cache.cache index).keys, other = key

section

variable (only : ∀ other ∈ shard.keys, other = key)
include only

theorem len_le_one : shard.len ≤ 1 := by
  obtain ⟨es, hn⟩ := shard
  match es, hn with
  | [], _ => exact Nat.zero_le 1
  | [_], _ => exact le_rfl
  | fst :: snd :: later, hn =>
    have hs : fst.1 = snd.1 := (only fst.1 List.mem_cons_self).trans
        (only snd.1 (List.mem_cons_of_mem _ List.mem_cons_self)).symm
    rw [List.nodupKeys_cons, hs] at hn
    exact absurd List.mem_cons_self hn.1

theorem only_put (e : CacheEntry) : ∀ other ∈ (shard.put key e).keys, other = key := by
  intro other hm
  have hp : other ∈ shard.put key e := hm
  rcases AList.mem_insert shard |>.mp hp with hs | hm
  · exact hs
  · exact only other hm

theorem only_get (looked : Text) : ∀ other ∈ (shard.get looked).2.keys, other = key := by
  intro other hm
  apply only
  have hp : ((shard.get looked).2.peek other).isSome := AList.lookup_isSome.mpr hm
  rw [LruCache.peek_get] at hp
  exact AList.lookup_isSome.mp hp

end

theorem unevicted_of_only (only : cache.Only key) {calls : List Call}
    (hme : ∀ call ∈ calls, ∃ merge now, call = .merge merge now ∧
      normalizeDomain merge.domain = key) : cache.Unevicted calls := by
  induction calls generalizing cache with
  | nil => trivial
  | cons call calls ih =>
    rw [List.forall_mem_cons] at hme
    obtain ⟨⟨merge, now, rfl, hk⟩, hr⟩ := hme
    have hst : ∀ e other, other ∈ (((cache.cache (shardOf key)).get key).2.put key
        e).keys → other = key :=
      fun e => only_put (only_get (only _) key) e
    have fits : ∀ e, ¬ cache.fwdShardCap <
        (((cache.cache (shardOf key)).get key).2.put key e).len := by
      intro e
      have hsm := len_le_one (hst e)
      have hp := cache.fwdShardCap_pos
      omega
    refine ⟨?_, ih ?_ hr⟩
    · rw [evicts, hk]
      simp [fits]
    · rw [perform, mergeFamily]
      split
      · exact only
      · obtain ⟨hca, hc⟩ := cache_noteReverse cache merge.ips key
          (now + max merge.ttl reverseTtlFloor)
        intro i other hm
        dsimp only at hm
        rw [hk, hca, hc] at hm
        by_cases hs : i = shardOf key
        · rw [hs, update_self, putCapped, if_neg (fits _)] at hm
          exact hst _ other hm
        · rw [update_of_ne hs] at hm
          exact only i other hm

/-- What a lookup reports about one family of a domain is what the merges of that family alone would
make it report. -/
theorem outcome_eq_replay (capacity : Nat) (calls : List Call) (domain : Text) (family : Family)
    (now : Nat) (ordered : (calls.map Call.time ++ [now]).Pairwise (· ≤ ·))
    (unevicted : (new capacity).Unevicted calls) :
    ((new capacity).run calls).outcome domain family now =
      ((new capacity).run (calls.filter (Call.isMergeOf domain family))).outcome domain family
        now := by
  have hc : (new capacity).Clean := fun _ _ ha => absurd ha nofun
  have he : (new capacity).record domain family = none := rfl
  have hfs : ∀ {calls : List Call}, (calls.map Call.time ++ [now]).Pairwise (· ≤ ·) →
      (new capacity).Unevicted calls →
        freshAt now (((new capacity).run calls).record domain family) =
          freshAt now (replay domain family none calls) := by
    intro calls ordered unevicted
    apply @freshAt_record_run _ _ _ hc _ unevicted _ 0
    · intro now _
      rw [he]
    · exact List.pairwise_cons.mpr ⟨fun _ _ => Nat.zero_le _, ordered⟩
  have hal : (new capacity).Unevicted (calls.filter (Call.isMergeOf domain family)) := by
    apply @unevicted_of_only _ (normalizeDomain domain)
    · intro index other hm
      exact absurd hm List.not_mem_nil
    · intro call hm
      have hme := (List.mem_filter.mp hm).2
      cases call with
      | merge merge time =>
        rw [Call.isMergeOf, Bool.and_eq_true, decide_eq_true_eq] at hme
        exact ⟨merge, time, rfl, hme.1⟩
      | lookup looked time => exact absurd hme nofun
  have hao : ((calls.filter (Call.isMergeOf domain family)).map Call.time ++
      [now]).Pairwise (· ≤ ·) := by
    apply List.Pairwise.sublist _ ordered
    exact (List.filter_sublist.map Call.time).append (List.Sublist.refl _)
  rw [outcome_eq_report, outcome_eq_report, report, report, hfs ordered unevicted,
    hfs hao hal, replay_filter]

/-- An address for 100 time units, no IPv6 data for 10, and a lookup after 20. -/
def dualStackCalls : List Call :=
  [ .merge ⟨ofString "a.com", .ipv4, [.v4 1#32], 100, none, .none, by decide⟩ 0,
    .merge ⟨ofString "A.com", .ipv6, [], 10, none, .noData, by decide⟩ 0,
    .lookup (ofString "a.com") 20]

theorem outcome_eq_replay_dualStack :
    ((new 16).run dualStackCalls).outcome (ofString "a.com") .v4 30 =
        ((new 16).run (dualStackCalls.filter (Call.isMergeOf (ofString "a.com") .v4))).outcome
          (ofString "a.com") .v4 30 ∧
      ((new 16).run dualStackCalls).outcome (ofString "a.com") .v4 30 = .answer [.v4 1#32] 70 :=
  ⟨outcome_eq_replay 16 dualStackCalls (ofString "a.com") .v4 30 (by decide)
    ⟨by decide +kernel, by decide +kernel, by decide +kernel, trivial⟩, by decide +kernel⟩

end Runs

end DnsCache

end MeowRs.Dns
