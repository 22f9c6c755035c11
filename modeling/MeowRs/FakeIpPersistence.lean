import MeowRs.FakeIpPool

/-!
# Fake-IP mappings across restarts

A pool on a file store writes its snapshot at any moment of a run; the next process loads it and
builds a pool over the network configured by then, which need not be the one the snapshot was
written under.  The new pool checks the stored cursor against its range, and nothing else.
-/

namespace MeowRs.FakeIp

open Text

open Store

namespace Pool

/-- The states of its store that a call passes through, each of which may be written out. -/
def callStores (pool : Pool FileStore) : Call → List FileStore
  | .lookup host =>
    let folded := toAsciiLowercase host
    match pool.store.state.entries.lookup folded with
    | some _ => [pool.store]
    | none =>
      let (candidate, cycle) := pool.advance
      let cleared := clearAt pool.store cycle candidate
      let filled := FileStore.put cleared folded candidate
      [pool.store, cleared, filled, filled.putState candidate cycle]
  | .lookBack _ => [pool.store]
  | .flush =>
    let flushed := FileStore.flush pool.store
    [pool.store, flushed, flushed.putState pool.first.prevAddr false]

end Pool

variable {written loaded : PersistedSnapshot}

/-- The same snapshot, up to the order in which a hash map lists its entries. -/
structure Reloaded (written loaded : PersistedSnapshot) : Prop where
  entries : written.entries.entries.Perm loaded.entries.entries
  offset : written.offset = loaded.offset
  cycle : written.cycle = loaded.cycle

/-- The snapshots that a chain of earlier pools, over any networks, leaves in the file. -/
inductive Written : PersistedSnapshot → Prop
  | missing : Written .default
  | persisted {earlier loaded : PersistedSnapshot} {net : IpNet} {pool : Pool FileStore}
      {calls : List Pool.Call} {call : Pool.Call} {store : FileStore} (written : Written earlier)
      (reloaded : Reloaded earlier loaded)
      (opened : Pool.new net (FileStore.fromSnapshot loaded) = .ok pool)
      (passes : store ∈ (pool.performAll calls).callStores call) : Written store.state

/-- A store whose two directions are inverse and whose hosts are in lower case. -/
structure Folded (store : FileStore) : Prop where
  paired : Paired store
  lower (ip : IpAddr) (host : Text) :
    addrHost store ip = some host → toAsciiLowercase host = host

theorem Folded.of_le {larger smaller : FileStore} (folded : Folded larger) (hp : Paired smaller)
    (le : ∀ ip host, addrHost smaller ip = some host → addrHost larger ip = some host) :
    Folded smaller :=
  ⟨hp, fun ip host hm => folded.lower ip host (le ip host hm)⟩

/-- What a written snapshot has kept: one address per host and hosts in lower case. -/
structure PersistedSnapshot.Clean (snapshot : PersistedSnapshot) : Prop where
  injective (host other : Text) (ip : IpAddr) : snapshot.entries.lookup host = some ip →
    snapshot.entries.lookup other = some ip → host = other
  lower (host : Text) (ip : IpAddr) : snapshot.entries.lookup host = some ip →
    toAsciiLowercase host = host

theorem Folded.clean {store : FileStore} (folded : Folded store) : store.state.Clean where
  injective host o ip hm hom := by
    have hb := (folded.paired host ip).mp hm
    have ho := (folded.paired o ip).mp hom
    rw [hb] at ho
    exact Option.some.inj ho
  lower host ip hm := folded.lower ip host ((folded.paired host ip).mp hm)

theorem PersistedSnapshot.Clean.folded {snapshot : PersistedSnapshot} (hc : snapshot.Clean) :
    Folded (FileStore.fromSnapshot snapshot) := by
  have hp : Paired (FileStore.fromSnapshot snapshot) := InverseMaps.inverse_reverse hc.injective
  exact ⟨hp, fun ip host hm => hc.lower host ip ((hp host ip).mpr hm)⟩

theorem Reloaded.lookup (hr : Reloaded written loaded)
    (host : Text) : loaded.entries.lookup host = written.entries.lookup host :=
  (AList.perm_lookup hr.entries).symm

theorem Reloaded.clean (hr : Reloaded written loaded) (hc : written.Clean) : loaded.Clean where
  injective host o ip hm ho := by
    rw [hr.lookup] at hm ho
    exact hc.injective host o ip hm ho
  lower host ip hm := by
    rw [hr.lookup] at hm
    exact hc.lower host ip hm

namespace Pool

variable {pool : Pool FileStore}

theorem folded_flush (pool : Pool FileStore) : Folded pool.flush.store :=
  ⟨paired_pool_flush pool, fun ip host hm => by cases hm⟩

variable (folded : Folded pool.store)
include folded

theorem folded_lookup (host : Text) : Folded (pool.lookup host).2.store := by
  refine ⟨paired_lookup folded.paired host, fun ip o hm => ?_⟩
  rcases addrHost_lookup_le folded.paired hm with rfl | ho
  · rw [addrHost_lookup folded.paired host] at hm
    obtain rfl := Option.some.inj hm
    exact toAsciiLowercase_idem host
  · exact folded.lower ip o ho

theorem folded_performAll (calls : List Call) : Folded (pool.performAll calls).store := by
  induction calls generalizing pool with
  | nil => exact folded
  | cons call calls ih =>
    apply ih
    cases call with
    | lookup host => exact folded_lookup folded host
    | lookBack ip =>
      refine folded.of_le (paired_perform folded.paired (.lookBack ip)) ?_
      intro o host hm
      rwa [← addrHost_lookBack pool ip]
    | flush => exact folded_flush pool

theorem folded_filled {host : Text} (hf : hostAddr pool.store (toAsciiLowercase host) = none) :
    Folded (FileStore.put (clearAt pool.store pool.advance.2 pool.advance.1)
      (toAsciiLowercase host) pool.advance.1) := by
  have hl := folded_lookup folded host
  rw [lookup_of_unmapped hf] at hl
  exact ⟨hl.paired, hl.lower⟩

theorem folded_callStores (call : Call)
    {store : FileStore} (hp : store ∈ pool.callStores call) : Folded store := by
  cases call with
  | lookup host =>
    simp only [callStores] at hp
    split at hp
    · obtain rfl := List.mem_singleton.mp hp
      exact folded
    · rename_i free
      have hf := folded_filled folded free
      simp only [List.mem_cons, List.not_mem_nil, or_false] at hp
      rcases hp with rfl | rfl | rfl | rfl
      · exact folded
      · refine folded.of_le (paired_clearAt folded.paired _ _) fun ip o hm => ?_
        rw [addrHost_clearAt] at hm
        rcases eq_or_ne ip pool.advance.1 with rfl | ho
        · simp at hm
        · rwa [Function.update_of_ne ho] at hm
      · exact hf
      · exact ⟨hf.paired, hf.lower⟩
  | lookBack ip =>
    obtain rfl := List.mem_singleton.mp hp
    exact folded
  | flush =>
    have hfl := folded_flush pool
    simp only [callStores, List.mem_cons, List.not_mem_nil, or_false] at hp
    rcases hp with rfl | rfl | rfl
    · exact folded
    · exact ⟨hfl.paired, hfl.lower⟩
    · exact hfl

end Pool

theorem store_new {σ : Type} [Store σ] {net : IpNet} {store : σ} {pool : Pool σ}
    (hn : Pool.new net store = .ok pool) : pool.store = store := by
  unfold Pool.new at hn
  cases ha : anchorAddrs net with
  | error cause =>
    rw [ha] at hn
    cases hn
  | ok anchor =>
    rw [ha] at hn
    cases hn
    rfl

theorem Written.clean {snapshot : PersistedSnapshot} (written : Written snapshot) :
    snapshot.Clean := by
  induction written with
  | missing =>
    constructor
    · intro host o ip hm
      cases hm
    · intro host ip hm
      cases hm
  | persisted written hr ho hp ih =>
    have loaded := (hr.clean ih).folded
    rw [← store_new ho] at loaded
    exact (Pool.folded_callStores (Pool.folded_performAll loaded _) _ hp).clean

namespace Pool

def afterLookups {σ : Type} [Store σ] (pool : Pool σ) (hosts : List Text) : Pool σ :=
  pool.performAll (hosts.map .lookup)

theorem isFakeIp_lookup {σ : Type} [Store σ] [LawfulStore σ] {pool : Pool σ} (hv : Valid pool)
    (host : Text) : (pool.lookup host).2.isFakeIp (pool.lookup host).1 = true := by
  have ha := allocatable_lookup hv.cursor hv.paired hv.inRange host
  have hm := addrHost_lookup hv.paired host
  have hc := hv.cursor.lookup host
  rw [← ipnet_lookup pool host] at ha
  obtain ⟨hf, hl, hi⟩ := ha
  have hg := hc.anchored.gatewayValue
  have hco : (pool.lookup host).2.ipnet.contains (pool.lookup host).1 = true :=
    IpNet.contains_iff.mpr ⟨hf, by omega, by omega⟩
  have hn : (pool.lookup host).1 ≠ (pool.lookup host).2.gateway := by
    intro hs
    rw [hs] at hl
    omega
  have hnl : (pool.lookup host).1 ≠ (pool.lookup host).2.last := by
    rw [hc.anchored.lastEq]
    intro hs
    rw [hs] at hi
    omega
  have exists_ : exist (pool.lookup host).2.store (pool.lookup host).1 = true := by
    rw [LawfulStore.exist_eq, hm]
    rfl
  simp [isFakeIp, hco, hn, hnl, exists_]

/-- After a restart every later lookup answers inside the allocatable range exactly when the network
has such a range at all and every mapping of the loaded snapshot lies in it. -/
theorem lookups_allocatable_iff {snapshot loaded : PersistedSnapshot} {net : IpNet}
    {pool : Pool FileStore} (written : Written snapshot) (reloaded : Reloaded snapshot loaded)
    (accepted : new net (FileStore.fromSnapshot loaded) = .ok pool) :
    (∀ hosts host, Allocatable net ((pool.afterLookups hosts).lookup host).1 ∧
      ((pool.afterLookups hosts).lookup host).2.isFakeIp
        ((pool.afterLookups hosts).lookup host).1 = true) ↔
      net.network.toNat + 4 < net.broadcast.toNat ∧
        ∀ host ip, snapshot.entries.lookup host = some ip → Allocatable net ip := by
  have folded : Folded pool.store := by
    rw [store_new accepted]
    exact (reloaded.clean written.clean).folded
  have hs : ∀ host, hostAddr pool.store host = snapshot.entries.lookup host := by
    intro host
    rw [store_new accepted, ← reloaded.lookup]
    rfl
  constructor
  · intro hr
    have hf : ∀ host, Allocatable net (pool.lookup host).1 := fun host => (hr [] host).1
    refine ⟨?_, fun host ip hm => ?_⟩
    · obtain ⟨_, low, hi⟩ := hf []
      omega
    · rw [← hs] at hm
      have hlo := folded.lower ip host ((folded.paired host ip).mp hm)
      have han : pool.lookup host = (ip, pool.afterRead host) := lookup_of_mapped (by rwa [hlo])
      have ha := hf host
      rwa [han] at ha
  · rintro ⟨hro, he⟩ hosts host
    obtain ⟨roomyPool, hn, hne, hsto, hc⟩ := new_of_roomy hro (FileStore.fromSnapshot loaded)
    obtain rfl : roomyPool = pool := Except.ok.inj (hn.symm.trans accepted)
    have hv : Valid roomyPool := by
      refine ⟨hc, folded.paired, fun ip other hm => ?_⟩
      rw [hne]
      exact he other ip ((hs other).symm.trans ((folded.paired other ip).mpr hm))
    have hl := hv.performAll (hosts.map .lookup)
    have ha := allocatable_lookup hl.cursor hl.paired hl.inRange host
    rw [ipnet_performAll, hne] at ha
    exact ⟨ha, isFakeIp_lookup hl host⟩

def firstSnapshot : PersistedSnapshot where
  entries := AList.singleton (ofString "a.com") (.v4 0xc6120004#32)
  offset := some (.v4 0xc6120004#32)
  cycle := false

theorem written_firstSnapshot : Written firstSnapshot :=
  @Written.persisted .default .default ⟨.v4 0xc6120000#32, 16, by decide⟩ _ []
    (.lookup (ofString "a.com")) _ .missing ⟨.refl _, rfl, rfl⟩ rfl
    (.tail _ (.tail _ (.tail _ (.head _))))

theorem lookups_allocatable_iff_same_range :
    ∃ pool, new ⟨.v4 0xc6120000#32, 16, by decide⟩ (FileStore.fromSnapshot firstSnapshot) =
        .ok pool ∧
      Allocatable ⟨.v4 0xc6120000#32, 16, by decide⟩
        ((pool.afterLookups [ofString "b"]).lookup (ofString "A.com")).1 := by
  refine ⟨_, rfl, ((lookups_allocatable_iff written_firstSnapshot ⟨.refl _, rfl, rfl⟩ rfl).mpr
    ⟨by decide, fun host ip hm => ?_⟩ _ _).1⟩
  have he := AList.mem_lookup_iff.mp hm
  obtain ⟨rfl, rfl⟩ : host = ofString "a.com" ∧ ip = .v4 0xc6120004#32 := by
    simpa [firstSnapshot] using he
  decide

/-- A host mapped under `198.18.0.0/16` keeps its old address after the range has moved to
`10.0.0.0/8`. -/
theorem stored_mapping_outside_new_range :
    Written firstSnapshot ∧
      ∃ pool, new ⟨.v4 0x0a000000#32, 8, by decide⟩ (FileStore.fromSnapshot firstSnapshot) =
          .ok pool ∧
        (pool.lookup (ofString "a.com")).1 = .v4 0xc6120004#32 ∧
        ¬ Allocatable ⟨.v4 0x0a000000#32, 8, by decide⟩ (.v4 0xc6120004#32) ∧
        (pool.lookup (ofString "a.com")).2.isFakeIp (.v4 0xc6120004#32) = false :=
  ⟨written_firstSnapshot, _, rfl, by decide, by decide, by decide⟩

end Pool

end MeowRs.FakeIp
