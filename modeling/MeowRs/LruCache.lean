import Mathlib

/-!
# Least recently used caches

A cache is an association list without repeated keys, most recently used entry first.  Inserting
and finding an entry move it to the front; the entry to evict is the last one.
-/

/-- A cache without a bound of its own; its owner evicts with `popLru`. -/
abbrev LruCache (κ ν : Type*) := AList fun _ : κ => ν

namespace LruCache

variable {κ ν : Type*} [DecidableEq κ] {cache rest : LruCache κ ν}

def peek (cache : LruCache κ ν) (key : κ) : Option ν :=
  cache.lookup key

def get (cache : LruCache κ ν) (key : κ) : Option ν × LruCache κ ν :=
  match cache.peek key with
  | some value => (some value, cache.insert key value)
  | none => (none, cache)

def put (cache : LruCache κ ν) (key : κ) (value : ν) : LruCache κ ν :=
  cache.insert key value

def pop (cache : LruCache κ ν) (key : κ) : Option ν × LruCache κ ν :=
  (cache.peek key, cache.erase key)

def popLru (cache : LruCache κ ν) : Option (κ × ν) × LruCache κ ν :=
  match cache.entries.getLast? with
  | some entry => (some (entry.1, entry.2), (cache.pop entry.1).2)
  | none => (none, cache)

def contains (cache : LruCache κ ν) (key : κ) : Bool :=
  (cache.peek key).isSome

def len (cache : LruCache κ ν) : Nat :=
  cache.entries.length

def newest (cache : LruCache κ ν) : Option κ :=
  cache.entries.head?.map Sigma.fst

@[simp]
theorem get_fst (cache : LruCache κ ν) (key : κ) : (cache.get key).1 = cache.peek key := by
  unfold get
  split <;> simp_all

@[simp]
theorem peek_get (cache : LruCache κ ν) (key o : κ) : (cache.get key).2.peek o = cache.peek o := by
  unfold get
  split
  · rename_i v hi
    rcases eq_or_ne o key with rfl | ho
    · simpa [peek] using hi.symm
    · exact AList.lookup_insert_ne ho
  · rfl

theorem popLru_eq_some {key : κ} {v : ν} (hp : cache.popLru = (some (key, v), rest)) :
    cache.peek key = some v ∧ rest = (cache.pop key).2 := by
  unfold popLru at hp
  split at hp
  · rename_i e isLast
    obtain ⟨⟨rfl, rfl⟩, rfl⟩ := hp
    exact ⟨AList.mem_lookup_iff.mpr (List.mem_of_getLast? isLast), rfl⟩
  · cases hp

theorem newest_pop {cache : LruCache κ ν} {key front : κ} (hn : cache.newest = some front)
    (ho : key ≠ front) : (cache.pop key).2.newest = some front := by
  obtain ⟨es, hno⟩ := cache
  cases es with
  | nil => cases hn
  | cons e es =>
    obtain rfl : e.1 = front := Option.some.inj hn
    simp [newest, pop, AList.erase, List.kerase_cons_ne ho]

theorem popLru_ne_newest {key front : κ} {v : ν} (hp : cache.popLru = (some (key, v), rest))
    (hne : cache.newest = some front) (ht : 1 < cache.len) : key ≠ front := by
  obtain ⟨es, hn⟩ := cache
  match es, hn with
  | [], _ => cases hne
  | [_], _ => simp [len] at ht
  | fst :: snd :: later, hn =>
    obtain rfl : fst.1 = front := Option.some.inj hne
    have hl : key ∈ (snd :: later).keys := by
      unfold popLru at hp
      split at hp
      · rename_i e isLast
        simp only [Prod.mk.injEq, Option.some.injEq] at hp
        rw [← hp.1.1]
        exact List.mem_map_of_mem (List.mem_of_getLast? isLast)
      · cases hp
    intro hs
    subst hs
    exact (List.nodupKeys_cons.mp hn).1 hl

end LruCache
