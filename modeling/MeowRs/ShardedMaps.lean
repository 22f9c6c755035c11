import Mathlib

/-!
# Sharded maps

A concurrent hash map keeps its entries in shards, each behind a lock of its own, and a bulk
operation visits one shard after another.  The map itself is an association list; `shard` says in
which shard a key lives.
-/

namespace ShardedMaps

open AList

variable {Key Value : Type*} {table : AList fun _ : Key => Value}

def retain (keep : Key → Value → Bool) (table : AList fun _ : Key => Value) :
    AList fun _ : Key => Value :=
  ⟨table.entries.filter fun entry => keep entry.1 entry.2,
    table.nodupKeys.sublist List.filter_sublist⟩

def inShard {count : ℕ} (shard : Key → Fin count) (index : ℕ) (table : AList fun _ : Key => Value) :
    List Value :=
  (table.entries.filter fun entry => (shard entry.1).val == index).map fun entry => entry.2

def drainShard {count : ℕ} (shard : Key → Fin count) (index : ℕ)
    (table : AList fun _ : Key => Value) : AList fun _ : Key => Value :=
  retain (fun key _ => (shard key).val != index) table

variable [DecidableEq Key]

theorem lookup_retain_eq_some {keep : Key → Value → Bool} {key : Key} {v : Value} :
    (retain keep table).lookup key = some v ↔
      table.lookup key = some v ∧ keep key v = true := by
  simp only [← Option.mem_def]
  rw [mem_lookup_iff, mem_lookup_iff, retain, List.mem_filter]

theorem lookup_drainShard_eq_some {n : ℕ} {shard : Key → Fin n} {i : ℕ} {key : Key} {v : Value} :
    (drainShard shard i table).lookup key = some v ↔
      table.lookup key = some v ∧ (shard key).val ≠ i := by
  rw [drainShard, lookup_retain_eq_some, bne_iff_ne]

theorem lookup_insert_eq_some {key o : Key}
    {v hit : Value} (hl : (table.insert key v).lookup o = some hit) :
    (o = key ∧ hit = v) ∨ (o ≠ key ∧ table.lookup o = some hit) := by
  by_cases hs : o = key
  · subst hs
    rw [lookup_insert] at hl
    exact Or.inl ⟨rfl, (Option.some.inj hl).symm⟩
  · rw [lookup_insert_ne hs] at hl
    exact Or.inr ⟨hs, hl⟩

theorem lookup_insert_of_missing {key o : Key} {v hit : Value} (hm : table.lookup key = none)
    (hl : table.lookup o = some hit) : (table.insert key v).lookup o = some hit := by
  rw [lookup_insert_ne, hl]
  rintro rfl
  rw [hm] at hl
  cases hl

/-- A map that gives no value twice still gives none twice after a new one. -/
theorem lookup_insert_inj {key fst snd : Key} {v hit : Value} (hf : ∀ {o}, table.lookup o ≠ some v)
    (hi : table.lookup fst = some hit → table.lookup snd = some hit → fst = snd)
    (hfi : (table.insert key v).lookup fst = some hit)
    (hse : (table.insert key v).lookup snd = some hit) : fst = snd := by
  rcases lookup_insert_eq_some hfi with ⟨rfl, rfl⟩ | ⟨_, hp⟩ <;>
    rcases lookup_insert_eq_some hse with ⟨rfl, hs⟩ | ⟨_, o⟩
  · rfl
  · exact absurd o hf
  · exact absurd (hs ▸ hp) hf
  · exact hi hp o

theorem lookup_erase_eq_some {key o : Key} {hit : Value}
    (hl : (table.erase key).lookup o = some hit) : o ≠ key ∧ table.lookup o = some hit := by
  by_cases hs : o = key
  · subst hs
    rw [lookup_erase] at hl
    cases hl
  · rw [lookup_erase_ne hs] at hl
    exact ⟨hs, hl⟩

end ShardedMaps
