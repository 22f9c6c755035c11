import MeowRs.InverseMaps
import MeowRs.IpAddr
import MeowRs.LruCache
import MeowRs.Text

/-!
# Stores behind a fake-IP pool

A pool keeps its host-to-address mappings in a store it only sees through one interface.  There are
two of them: an in-memory pair of LRU caches that evicts by itself, and a snapshot that is written
to a file.  `LawfulStore` is what a pool relies on; both stores are shown to provide it.
-/

namespace MeowRs.FakeIp

open Function

/-- The operations of a store.  Reads return the store too, since they may move recency. -/
class Store (σ : Type) where
  getByHost : σ → Text → Option IpAddr × σ
  getByIp : σ → IpAddr → Option Text × σ
  put : σ → Text → IpAddr → σ
  delByIp : σ → IpAddr → σ
  exist : σ → IpAddr → Bool
  flush : σ → σ
  putState : σ → IpAddr → Bool → σ := fun store _ _ => store
  getState : σ → Option (IpAddr × Bool) := fun _ => none
  isPersistent : σ → Bool := fun _ => false

namespace Store

variable {σ : Type} [Store σ]

def hostAddr (store : σ) (host : Text) : Option IpAddr :=
  (getByHost store host).1

def addrHost (store : σ) (ip : IpAddr) : Option Text :=
  (getByIp store ip).1

def Paired (store : σ) : Prop :=
  InverseMaps.Inverse (hostAddr store) (addrHost store)

theorem hostAddr_none_of_le {larger smaller : σ} (hp : Paired larger) (hps : Paired smaller)
    (le : ∀ ip host, addrHost smaller ip = some host → addrHost larger ip = some host) {host : Text}
    (hf : hostAddr larger host = none) : hostAddr smaller host = none := by
  cases hm : hostAddr smaller host with
  | none => rfl
  | some ip =>
    have hb := le ip host ((hps host ip).mp hm)
    rw [(hp host ip).mpr hb] at hf
    cases hf

end Store

open Store InverseMaps

/-- What a pool relies on: reads do not change the mappings, a deletion removes one pair, and an
insertion of a fresh pair adds it and may drop others, but keeps the directions inverse. -/
class LawfulStore (σ : Type) [Store σ] : Prop where
  hostAddr_getByHost (store : σ) (host : Text) :
    hostAddr (getByHost store host).2 = hostAddr store
  addrHost_getByHost (store : σ) (host : Text) :
    addrHost (getByHost store host).2 = addrHost store
  hostAddr_getByIp (store : σ) (ip : IpAddr) :
    hostAddr (getByIp store ip).2 = hostAddr store
  addrHost_getByIp (store : σ) (ip : IpAddr) :
    addrHost (getByIp store ip).2 = addrHost store
  exist_eq (store : σ) (ip : IpAddr) : exist store ip = (addrHost store ip).isSome
  paired_delByIp {store : σ} (paired : Paired store) (ip : IpAddr) : Paired (delByIp store ip)
  addrHost_delByIp (store : σ) (ip : IpAddr) :
    addrHost (delByIp store ip) = update (addrHost store) ip none
  paired_put {store : σ} (paired : Paired store) {host : Text} {ip : IpAddr}
    (freeHost : hostAddr store host = none) (freeAddr : addrHost store ip = none) :
    Paired (put store host ip)
  addrHost_put {store : σ} (paired : Paired store) {host : Text} {ip : IpAddr}
    (freeHost : hostAddr store host = none) (freeAddr : addrHost store ip = none) :
    addrHost (put store host ip) ip = some host
  addrHost_put_ne {store : σ} (paired : Paired store) {host other : Text} {ip otherIp : IpAddr}
    (freeHost : hostAddr store host = none) (freeAddr : addrHost store ip = none)
    (mapped : addrHost (put store host ip) otherIp = some other) :
    otherIp = ip ∨ addrHost store otherIp = some other
  addrHost_flush (store : σ) : addrHost (flush store) = fun _ => none
  paired_flush (store : σ) : Paired (flush store)
  hostAddr_putState (store : σ) (offset : IpAddr) (cycle : Bool) :
    hostAddr (putState store offset cycle) = hostAddr store
  addrHost_putState (store : σ) (offset : IpAddr) (cycle : Bool) :
    addrHost (putState store offset cycle) = addrHost store

/-- Evict the least recently used entry of a cache that exceeds its cap, and its counterpart in the
reverse cache while that still points back at it. -/
def evictPair {κ ν : Type} [DecidableEq κ] [DecidableEq ν] (cap : Nat) (cache : LruCache κ ν)
    (reverse : LruCache ν κ) : LruCache κ ν × LruCache ν κ :=
  if cap < cache.len then
    match cache.popLru with
    | (some (key, value), rest) =>
      (rest, if reverse.peek value = some key then (reverse.pop value).2 else reverse)
    | (none, rest) => (rest, reverse)
  else (cache, reverse)

/-- Two caches that are inverse to each other and whose most recent entries are one pair. -/
structure NewestPair {κ ν : Type} [DecidableEq κ] [DecidableEq ν] (cache : LruCache κ ν)
    (reverse : LruCache ν κ) (key : κ) (value : ν) : Prop where
  inverse : Inverse cache.peek reverse.peek
  mapped : cache.peek key = some value
  newest : cache.newest = some key
  newestReverse : reverse.newest = some value

theorem NewestPair.symm {κ ν : Type} [DecidableEq κ] [DecidableEq ν] {cache : LruCache κ ν}
    {reverse : LruCache ν κ} {key : κ} {v : ν} (hp : NewestPair cache reverse key v) :
    NewestPair reverse cache v key :=
  ⟨hp.inverse.symm, (hp.inverse key v).mp hp.mapped, hp.newestReverse, hp.newest⟩

/-- An eviction removes at most one pair, on both sides, and never the newest one. -/
theorem evictPair_newestPair {κ ν : Type} [DecidableEq κ] [DecidableEq ν] {cap : Nat}
    {cache : LruCache κ ν} {reverse : LruCache ν κ} {key : κ} {v : ν} (hc : 1 ≤ cap)
    (hp : NewestPair cache reverse key v) :
    NewestPair (evictPair cap cache reverse).1 (evictPair cap cache reverse).2 key v ∧
      ∀ o hit, (evictPair cap cache reverse).1.peek o = some hit →
        cache.peek o = some hit := by
  unfold evictPair
  split
  · rename_i exceeds
    split
    · rename_i evicted evictedValue rest hpo
      obtain ⟨hem, rfl⟩ := LruCache.popLru_eq_some hpo
      have he : reverse.peek evictedValue = some evicted := (hp.inverse evicted evictedValue).mp hem
      have hn : evicted ≠ key := LruCache.popLru_ne_newest hpo hp.newest (by omega)
      have hnnv : evictedValue ≠ v := by
        rintro rfl
        have : reverse.peek evictedValue = some key := (hp.inverse _ _).mp hp.mapped
        rw [he] at this
        exact hn (Option.some.inj this)
      have hpr : LruCache.peek (cache.pop evicted).2 =
          update cache.peek evicted none := lookup_erase_update cache evicted
      have hpre : LruCache.peek (reverse.pop evictedValue).2 =
          update reverse.peek evictedValue none :=
        lookup_erase_update reverse evictedValue
      rw [if_pos he]
      refine ⟨⟨?_, ?_, ?_, ?_⟩, ?_⟩
      · rw [hpr, hpre]
        exact hp.inverse.erase hem
      · rw [hpr, update_of_ne hn.symm]
        exact hp.mapped
      · exact LruCache.newest_pop hp.newest hn
      · exact LruCache.newest_pop hp.newestReverse hnnv
      · intro o hit hf
        rw [hpr] at hf
        rcases eq_or_ne o evicted with rfl | ho
        · simp at hf
        · rwa [update_of_ne ho] at hf
    · rename_i rest hpo
      unfold LruCache.popLru at hpo
      split at hpo <;> cases hpo
      exact ⟨hp, fun _ _ hf => hf⟩
  · exact ⟨hp, fun _ _ hf => hf⟩

/-- The in-memory store: two LRU caches and the number of pairs they may hold. -/
structure MemoryStore where
  byHost : LruCache Text IpAddr
  byIp : LruCache IpAddr Text
  cap : Nat
  capPos : 1 ≤ cap

namespace MemoryStore

def new (size : Nat) : MemoryStore where
  byHost := ∅
  byIp := ∅
  cap := max size 1
  capPos := le_max_right size 1

def getByHost (store : MemoryStore) (host : Text) : Option IpAddr × MemoryStore :=
  match store.byHost.get host with
  | (some ip, byHost) =>
    (some ip, { store with byHost := byHost, byIp := (store.byIp.get ip).2 })
  | (none, byHost) => (none, { store with byHost := byHost })

def getByIp (store : MemoryStore) (ip : IpAddr) : Option Text × MemoryStore :=
  match store.byIp.get ip with
  | (some host, byIp) =>
    (some host, { store with byIp := byIp, byHost := (store.byHost.get host).2 })
  | (none, byIp) => (none, { store with byIp := byIp })

def put (store : MemoryStore) (host : Text) (ip : IpAddr) : MemoryStore :=
  let byHost := store.byHost.put host ip
  let byIp := store.byIp.put ip host
  let (byIp, byHost) := evictPair store.cap byIp byHost
  let (byHost, byIp) := evictPair store.cap byHost byIp
  { store with byHost := byHost, byIp := byIp }

def delByIp (store : MemoryStore) (ip : IpAddr) : MemoryStore :=
  match store.byIp.pop ip with
  | (some host, byIp) =>
    let byHost :=
      if store.byHost.peek host = some ip then (store.byHost.pop host).2 else store.byHost
    { store with byHost := byHost, byIp := byIp }
  | (none, byIp) => { store with byIp := byIp }

def flush (store : MemoryStore) : MemoryStore :=
  { store with byHost := ∅, byIp := ∅ }

instance : Store MemoryStore where
  getByHost := getByHost
  getByIp := getByIp
  put := put
  delByIp := delByIp
  exist store ip := store.byIp.contains ip
  flush := flush

section

variable (store : MemoryStore)
include store

theorem hostAddr_eq : hostAddr store = store.byHost.peek := by
  funext host
  change (getByHost store host).1 = _
  unfold getByHost
  rw [← LruCache.get_fst]
  split <;> simp_all

theorem addrHost_eq : addrHost store = store.byIp.peek := by
  funext ip
  change (getByIp store ip).1 = _
  unfold getByIp
  rw [← LruCache.get_fst]
  split <;> simp_all

theorem peek_getByHost (host : Text) :
    (getByHost store host).2.byHost.peek = store.byHost.peek ∧
      (getByHost store host).2.byIp.peek = store.byIp.peek := by
  have ht : (store.byHost.get host).2.peek = store.byHost.peek :=
    funext (LruCache.peek_get store.byHost host)
  unfold getByHost
  split
  · rename_i ip byHost got
    rw [got] at ht
    exact ⟨ht, funext (LruCache.peek_get store.byIp ip)⟩
  · rename_i byHost got
    rw [got] at ht
    exact ⟨ht, rfl⟩

theorem peek_getByIp (ip : IpAddr) :
    (getByIp store ip).2.byHost.peek = store.byHost.peek ∧
      (getByIp store ip).2.byIp.peek = store.byIp.peek := by
  have ht : (store.byIp.get ip).2.peek = store.byIp.peek :=
    funext (LruCache.peek_get store.byIp ip)
  unfold getByIp
  split
  · rename_i host byIp got
    rw [got] at ht
    exact ⟨funext (LruCache.peek_get store.byHost host), ht⟩
  · rename_i byIp got
    rw [got] at ht
    exact ⟨rfl, ht⟩

theorem peek_byIp_delByIp (ip : IpAddr) :
    (delByIp store ip).byIp.peek = update store.byIp.peek ip none := by
  have hp : LruCache.peek (store.byIp.pop ip).2 = update store.byIp.peek ip none :=
    lookup_erase_update store.byIp ip
  unfold delByIp
  split <;> rename_i got <;> rw [got] at hp <;> exact hp

end

theorem inverse_delByIp {store : MemoryStore} (hi : Inverse store.byHost.peek store.byIp.peek)
    (ip : IpAddr) : Inverse (delByIp store ip).byHost.peek (delByIp store ip).byIp.peek := by
  rw [peek_byIp_delByIp]
  cases hm : store.byIp.peek ip with
  | none =>
    have hu : (delByIp store ip).byHost = store.byHost := by
      simp [delByIp, LruCache.pop, hm]
    rw [hu, ← hm, update_eq_self]
    exact hi
  | some host =>
    have hmh : store.byHost.peek host = some ip := (hi host ip).mpr hm
    have he : (delByIp store ip).byHost = (store.byHost.pop host).2 := by
      simp [delByIp, LruCache.pop, hm, hmh]
    have hp : LruCache.peek (store.byHost.pop host).2 =
        update store.byHost.peek host none := lookup_erase_update store.byHost host
    rw [he, hp]
    exact hi.erase hmh

/-- A fresh pair becomes the newest one of both caches and survives both evictions. -/
theorem put_newestPair {store : MemoryStore}
    (hi : Inverse store.byHost.peek store.byIp.peek) {host : Text} {ip : IpAddr}
    (hf : store.byHost.peek host = none) (hfa : store.byIp.peek ip = none) :
    NewestPair (put store host ip).byHost (put store host ip).byIp host ip ∧
      ∀ otherIp o, (put store host ip).byIp.peek otherIp = some o →
        otherIp = ip ∨ store.byIp.peek otherIp = some o := by
  have hph : (store.byHost.put host ip).peek = update store.byHost.peek host (some ip) :=
    lookup_insert_update store.byHost host ip
  have hp : (store.byIp.put ip host).peek = update store.byIp.peek ip (some host) :=
    lookup_insert_update store.byIp ip host
  have hin : NewestPair (store.byIp.put ip host) (store.byHost.put host ip) ip host := by
    refine ⟨?_, by simp [hp], rfl, rfl⟩
    rw [hph, hp]
    exact (hi.insert hf hfa).symm
  obtain ⟨hai, hki⟩ := evictPair_newestPair store.capPos hin
  obtain ⟨ha, hk⟩ := evictPair_newestPair store.capPos hai.symm
  refine ⟨ha, fun otherIp o hit => ?_⟩
  have hfh := (ha.inverse o otherIp).mpr hit
  have hfi := hki otherIp o ((hai.inverse otherIp o).mpr (hk o otherIp hfh))
  rcases eq_or_ne otherIp ip with hs | ho
  · exact Or.inl hs
  · rw [hp, update_of_ne ho] at hfi
    exact Or.inr hfi

instance : LawfulStore MemoryStore where
  hostAddr_getByHost store host := by
    rw [hostAddr_eq, hostAddr_eq]
    exact (peek_getByHost store host).1
  addrHost_getByHost store host := by
    rw [addrHost_eq, addrHost_eq]
    exact (peek_getByHost store host).2
  hostAddr_getByIp store ip := by
    rw [hostAddr_eq, hostAddr_eq]
    exact (peek_getByIp store ip).1
  addrHost_getByIp store ip := by
    rw [addrHost_eq, addrHost_eq]
    exact (peek_getByIp store ip).2
  exist_eq store ip := by
    rw [addrHost_eq]
    rfl
  paired_delByIp {store} paired ip := by
    rw [Paired, hostAddr_eq, addrHost_eq] at paired ⊢
    exact inverse_delByIp paired ip
  addrHost_delByIp store ip := by
    rw [addrHost_eq, addrHost_eq]
    exact peek_byIp_delByIp store ip
  paired_put {store} paired host ip freeHost freeAddr := by
    rw [Paired, hostAddr_eq, addrHost_eq] at paired ⊢
    rw [hostAddr_eq] at freeHost
    rw [addrHost_eq] at freeAddr
    exact (put_newestPair paired freeHost freeAddr).1.inverse
  addrHost_put {store} paired host ip freeHost freeAddr := by
    rw [Paired, hostAddr_eq, addrHost_eq] at paired
    rw [hostAddr_eq] at freeHost
    rw [addrHost_eq] at freeAddr ⊢
    exact (put_newestPair paired freeHost freeAddr).1.symm.mapped
  addrHost_put_ne {store} paired host other ip otherIp freeHost freeAddr mapped := by
    rw [Paired, hostAddr_eq, addrHost_eq] at paired
    rw [hostAddr_eq] at freeHost
    rw [addrHost_eq] at freeAddr mapped ⊢
    exact (put_newestPair paired freeHost freeAddr).2 otherIp other mapped
  addrHost_flush store := by
    rw [addrHost_eq]
    rfl
  paired_flush store := by
    rw [Paired, hostAddr_eq, addrHost_eq]
    exact inverse_none
  hostAddr_putState _ _ _ := rfl
  addrHost_putState _ _ _ := rfl

end MemoryStore

/-- What the file store writes to its file: the mappings, the cursor and the wrap flag. -/
structure PersistedSnapshot where
  entries : AList fun _ : Text => IpAddr
  offset : Option IpAddr
  cycle : Bool

def PersistedSnapshot.default : PersistedSnapshot where
  entries := ∅
  offset := none
  cycle := false

/-- The persistent store: the snapshot and the reverse map kept beside it. -/
structure FileStore where
  state : PersistedSnapshot
  reverse : AList fun _ : IpAddr => Text

namespace FileStore

def fromSnapshot (snapshot : PersistedSnapshot) : FileStore where
  state := snapshot
  reverse := snapshot.entries.entries.foldl (fun reverse entry => reverse.insert entry.2 entry.1) ∅

def put (store : FileStore) (host : Text) (ip : IpAddr) : FileStore where
  state := { store.state with entries := store.state.entries.insert host ip }
  reverse := store.reverse.insert ip host

def delByIp (store : FileStore) (ip : IpAddr) : FileStore :=
  match store.reverse.lookup ip with
  | some host =>
    let entries :=
      if store.state.entries.lookup host = some ip then store.state.entries.erase host
      else store.state.entries
    { state := { store.state with entries := entries }, reverse := store.reverse.erase ip }
  | none => { store with reverse := store.reverse.erase ip }

def flush (_ : FileStore) : FileStore where
  state := { entries := ∅, offset := none, cycle := false }
  reverse := ∅

def putState (store : FileStore) (offset : IpAddr) (cycle : Bool) : FileStore :=
  { store with state := { store.state with offset := some offset, cycle := cycle } }

def getState (store : FileStore) : Option (IpAddr × Bool) :=
  store.state.offset.map fun offset => (offset, store.state.cycle)

instance : Store FileStore where
  getByHost store host := (store.state.entries.lookup host, store)
  getByIp store ip := (store.reverse.lookup ip, store)
  put := put
  delByIp := delByIp
  exist store ip := (store.reverse.lookup ip).isSome
  flush := flush
  putState := putState
  getState := getState
  isPersistent _ := true

theorem addrHost_delByIp_eq (store : FileStore) (ip : IpAddr) :
    addrHost (delByIp store ip) = update (addrHost store) ip none := by
  have he := lookup_erase_update store.reverse ip
  unfold delByIp
  split <;> exact he

theorem paired_delByIp_of_paired {store : FileStore} (hp : Paired store) (ip : IpAddr) :
    Paired (delByIp store ip) := by
  rw [Paired, addrHost_delByIp_eq]
  cases hm : addrHost store ip with
  | none =>
    have hu : hostAddr (delByIp store ip) = hostAddr store := by
      have hmi : store.reverse.lookup ip = none := hm
      funext host
      simp [hostAddr, Store.getByHost, delByIp, hmi]
    rw [hu, ← hm, update_eq_self]
    exact hp
  | some host =>
    have hmh : hostAddr store host = some ip := (hp host ip).mpr hm
    have he : hostAddr (delByIp store ip) = update (hostAddr store) host none := by
      have hi : store.reverse.lookup ip = some host := hm
      have hf : store.state.entries.lookup host = some ip := hmh
      refine Eq.trans ?_ (lookup_erase_update store.state.entries host)
      funext other
      simp [hostAddr, Store.getByHost, delByIp, hi, hf]
    rw [he]
    exact InverseMaps.Inverse.erase hp hmh

instance : LawfulStore FileStore where
  hostAddr_getByHost _ _ := rfl
  addrHost_getByHost _ _ := rfl
  hostAddr_getByIp _ _ := rfl
  addrHost_getByIp _ _ := rfl
  exist_eq _ _ := rfl
  paired_delByIp := paired_delByIp_of_paired
  addrHost_delByIp := addrHost_delByIp_eq
  paired_put {store} paired host ip freeHost freeAddr := by
    have insertedHost := lookup_insert_update store.state.entries host ip
    have insertedIp := lookup_insert_update store.reverse ip host
    have inverse := InverseMaps.Inverse.insert paired freeHost freeAddr
    change Inverse (fun other => (store.state.entries.insert host ip).lookup other)
      (fun other => (store.reverse.insert ip host).lookup other)
    rw [insertedHost, insertedIp]
    exact inverse
  addrHost_put {store} _ host ip _ _ := AList.lookup_insert store.reverse
  addrHost_put_ne {store} _ host other ip otherIp _ _ mapped := by
    rcases eq_or_ne otherIp ip with same | otherAddr
    · exact Or.inl same
    · exact Or.inr ((AList.lookup_insert_ne otherAddr).symm.trans mapped)
  addrHost_flush _ := rfl
  paired_flush _ := inverse_none
  hostAddr_putState _ _ _ := rfl
  addrHost_putState _ _ _ := rfl

end FileStore

end MeowRs.FakeIp
