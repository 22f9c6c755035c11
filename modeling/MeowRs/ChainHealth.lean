import Mathlib

/-!
# Verdicts on front hops

A group remembers, for each server that chains are carried to, the members that fail it.  The table
is bounded: a new entry evicts the one that was used least recently.  Calls that find nothing to
change return without using the entry.
-/

namespace MeowRs.ChainHealth

open AList

def passiveStrikes : Nat := 2
def blamedMembers : Nat := 3
def maxTargets : Nat := 64
def maxOwners : Nat := 4

/-- Five minutes; durations are counted in nanoseconds. -/
def baseBlock : Nat := 300000000000
def maxBlock : Nat := 21600000000000

structure MemberState where
  strikes : Nat := 0
  level : Nat := 0
  blockedUntil : Option Nat := none

def blockLength (level : Nat) : Nat :=
  min (baseBlock * 2 ^ min (level - 1) 8) maxBlock

namespace MemberState

def blockedAt (member : MemberState) (now : Nat) : Bool :=
  member.blockedUntil.any fun limit => decide (now < limit)

def block (member : MemberState) (now hold : Nat) : MemberState :=
  let level := min (member.level + 1) 255
  ⟨0, level, some (now + max (blockLength level) hold)⟩

end MemberState

inductive Reach where
  | dial
  | probe
  | overDownCarrier
  deriving DecidableEq

inductive ChainVerdict where
  | passive
  | probe (hold : Nat)

def MemberState.failed (member : MemberState) (now : Nat) : ChainVerdict → MemberState
  | .probe hold =>
    if member.blockedAt now then
      { member with blockedUntil := member.blockedUntil.map fun limit => max limit (now + hold) }
    else member.block now hold
  | .passive =>
    if member.blockedAt now then member
    else
      let struck := { member with strikes := min (member.strikes + 1) 255 }
      if 0 < struck.level ∨ passiveStrikes ≤ struck.strikes then struck.block now 0 else struck

variable {Target Name : Type} [DecidableEq Target] [DecidableEq Name]

structure TargetState (Name : Type) where
  owners : List Name
  members : AList fun _ : Name => MemberState
  failing : List Name
  carrier : Option Name
  used : Nat

namespace TargetState

def new (now : Nat) : TargetState Name :=
  ⟨[], ∅, [], none, now⟩

def isBlockedAt (state : TargetState Name) (member : Name) (now : Nat) : Bool :=
  (state.members.lookup member).any (·.blockedAt now)

def noteOwner (state : TargetState Name) (owner : Name) : TargetState Name :=
  if owner ∈ state.owners then state
  else
    let owners := if maxOwners ≤ state.owners.length then state.owners.tail else state.owners
    { state with owners := owners ++ [owner] }

def blame (state : TargetState Name) (member : Name) : TargetState Name :=
  if state.failing.length ≤ blamedMembers ∧ member ∉ state.failing then
    { state with failing := state.failing ++ [member] }
  else state

def failed (state : TargetState Name) (member : Name) (verdict : ChainVerdict) (now : Nat) :
    TargetState Name :=
  let record := (state.members.lookup member).getD {}
  { state with members := state.members.insert member (record.failed now verdict) }

/-- Nothing would change if the member reached the target. -/
def settled (state : TargetState Name) (carriers : Bool) (member : Name) (reach : Reach)
    (now : Nat) : Bool :=
  !(decide (member ∈ state.members) || !state.failing.isEmpty) &&
    (!carriers ||
      match state.carrier with
      | some carrier =>
        decide (carrier = member) ||
          decide (reach = .probe) && !state.isBlockedAt carrier now
      | none => false)

def reached (state : TargetState Name) (carriers : Bool) (member : Name) (reach : Reach)
    (now : Nat) : TargetState Name :=
  let cleared := { state with members := state.members.erase member, failing := [] }
  if carriers ∧ (reach ≠ .probe ∨ cleared.carrier.all (cleared.isBlockedAt · now)) then
    { cleared with carrier := some member }
  else cleared

end TargetState

abbrev Table (Target Name : Type) : Type := AList fun _ : Target => TargetState Name

/-- The entry that was used least recently. -/
def oldest (table : Table Target Name) : Option Target :=
  (table.entries.argmin fun entry => entry.2.used).map Sigma.fst

/-- What stays in the table when the entry of a target is asked for. -/
def kept (table : Table Target Name) (target : Target) : Table Target Name :=
  if target ∉ table ∧ maxTargets ≤ table.entries.length then
    (oldest table).elim table table.erase
  else table

/-- Use the entry of a target, which may be a new one. -/
def entry (table : Table Target Name) (target : Target) (now : Nat)
    (change : TargetState Name → TargetState Name) : Table Target Name :=
  let state := ((kept table target).lookup target).getD (.new now)
  (kept table target).insert target { change state with used := now }

inductive Op (Name : Type) where
  | noteOwner (owner : Name)
  | reached (member : Name) (reach : Reach)
  | failed (member : Name) (verdict : ChainVerdict)
  | blame (member : Name)

structure Call (Target Name : Type) where
  target : Target
  now : Nat
  op : Op Name

/-- The table after a call; `carriers` says whether it tracks carriers. -/
def apply (carriers : Bool) (table : Table Target Name) (call : Call Target Name) :
    Table Target Name :=
  match call.op with
  | .noteOwner owner =>
    if (table.lookup call.target).any fun state => decide (owner ∈ state.owners) then table
    else entry table call.target call.now (·.noteOwner owner)
  | .reached member reach =>
    match table.lookup call.target with
    | some state =>
      if state.settled carriers member reach call.now then table
      else if carriers then
        entry table call.target call.now (·.reached carriers member reach call.now)
      else table.insert call.target (state.reached carriers member reach call.now)
    | none =>
      if carriers then
        entry table call.target call.now (·.reached carriers member reach call.now)
      else table
  | .failed member verdict =>
    entry table call.target call.now (·.failed member verdict call.now)
  | .blame member => entry table call.target call.now (·.blame member)

/-- The table after some calls, the latest first. -/
def tableAfter (carriers : Bool) : List (Call Target Name) → Table Target Name
  | [] => ∅
  | call :: earlier => apply carriers (tableAfter carriers earlier) call

/-- When a target was last called for. -/
def called (target : Target) : List (Call Target Name) → Option Nat
  | [] => none
  | call :: earlier => if call.target = target then some call.now else called target earlier

/-- The call does not return early on the entry its target has, but uses it. -/
def refreshes (carriers : Bool) (table : Table Target Name) (call : Call Target Name) : Bool :=
  (table.lookup call.target).all fun state =>
    match call.op with
    | .noteOwner owner => decide (owner ∉ state.owners)
    | .reached member reach => carriers && !state.settled carriers member reach call.now
    | .failed .. => true
    | .blame _ => true

/-- Every call used the entry that its target had. -/
def allRefresh (carriers : Bool) : List (Call Target Name) → Bool
  | [] => true
  | call :: earlier =>
    refreshes carriers (tableAfter carriers earlier) call && allRefresh carriers earlier

section Step

variable {carriers : Bool} {table : Table Target Name} {call : Call Target Name}
  {tgt o : Target} {s : TargetState Name}

omit [DecidableEq Name] in
theorem lookup_of_kept (hi : (kept table tgt).lookup o = some s) : table.lookup o = some s := by
  rw [kept] at hi
  split at hi
  · cases hl : oldest table with
    | none => rwa [hl] at hi
    | some evicted =>
      rw [hl] at hi
      by_cases hs : o = evicted
      · subst hs
        simp at hi
      · rwa [Option.elim, lookup_erase_ne hs] at hi
  · exact hi

/-- What a call can do to the table: use the target's entry, change it, or nothing. -/
theorem apply_cases (carriers : Bool) (table : Table Target Name) (call : Call Target Name) :
    (∃ s, s.used = call.now ∧
      apply carriers table call = (kept table call.target).insert call.target s) ∨
    (¬refreshes carriers table call ∧ ∃ s, apply carriers table call = table.insert call.target s) ∨
    ((refreshes carriers table call → call.target ∉ table) ∧ apply carriers table call = table) := by
  unfold apply refreshes
  split
  · split
    · rename_i known
      refine .inr (.inr ⟨fun hf hm => ?_, rfl⟩)
      obtain ⟨s, hi⟩ := Option.isSome_iff_exists.mp (lookup_isSome.mpr hm)
      rw [hi] at known hf
      simp_all
    · exact .inl ⟨_, rfl, rfl⟩
  · split
    · rename_i pre hi
      split_ifs with hs ht
      · exact .inr (.inr ⟨by simp [hi, hs], rfl⟩)
      · exact .inl ⟨_, rfl, rfl⟩
      · exact .inr (.inl ⟨by simp [hi, ht], _, rfl⟩)
    · rename_i none
      split_ifs
      · exact .inl ⟨_, rfl, rfl⟩
      · exact .inr (.inr ⟨fun _ => lookup_eq_none.mp none, rfl⟩)
  · exact .inl ⟨_, rfl, rfl⟩
  · exact .inl ⟨_, rfl, rfl⟩

/-- After a call that uses the entry there is, every entry is from that call or as it was, for
another target. -/
theorem lookup_of_apply (hf : refreshes carriers table call)
    (hi : (apply carriers table call).lookup tgt = some s) :
    (call.target = tgt ∧ call.now = s.used) ∨ (call.target ≠ tgt ∧ table.lookup tgt = some s) := by
  rcases apply_cases carriers table call with ⟨new, hu, ha⟩ | ⟨hst, -⟩ | ⟨hab, ha⟩
  · rw [ha] at hi
    by_cases hs : call.target = tgt
    · subst hs
      rw [lookup_insert] at hi
      exact .inl ⟨rfl, Option.some.inj hi ▸ hu.symm⟩
    · rw [lookup_insert_ne (Ne.symm hs)] at hi
      exact .inr ⟨hs, lookup_of_kept hi⟩
  · exact absurd hf hst
  · rw [ha] at hi
    refine .inr ⟨fun hs => hab hf (hs ▸ lookup_isSome.mp ?_), hi⟩
    rw [hi]
    rfl

/-- A call only ever takes out the entry that was used least recently. -/
theorem used_le_of_evicted (hh : table.lookup tgt = some s)
    (hg : tgt ∉ apply carriers table call) {otherState : TargetState Name}
    (ho : table.lookup o = some otherState) : s.used ≤ otherState.used := by
  have hp : tgt ∈ table := lookup_isSome.mp (by rw [hh]; rfl)
  rcases apply_cases carriers table call with ⟨_, _, ha⟩ | ⟨_, _, ha⟩ | ⟨_, ha⟩ <;>
    rw [ha] at hg
  · have hn : tgt ∉ kept table call.target := fun hm => hg (by simp [hm])
    rw [kept] at hn
    split at hn
    · cases hl : table.entries.argmin fun e => e.2.used with
      | none => simp [oldest, hl, hp] at hn
      | some evicted =>
        have he : tgt = evicted.1 := by
          simpa [oldest, hl, hp] using hn
        have hs : table.lookup evicted.1 = some evicted.2 := mem_lookup_iff.mpr (List.argmin_mem hl)
        rw [← he, hh] at hs
        rw [Option.some.inj hs]
        exact @List.le_of_mem_argmin _ _ _ (fun e => e.2.used) _ _ _ (mem_lookup_iff.mp ho) hl
    · exact absurd hp hn
  · exact absurd (by simp [hp]) hg
  · exact absurd hp hg

end Step

section Run

variable {carriers : Bool} {history : List (Call Target Name)} {tgt o : Target}

omit [DecidableEq Name] in
theorem mem_of_called {last : Nat} (hl : called tgt history = some last) :
    ∃ call ∈ history, call.target = tgt ∧ call.now = last := by
  induction history with
  | nil => cases hl
  | cons call prev ih =>
    rw [called] at hl
    split_ifs at hl with hs
    · exact ⟨call, List.mem_cons_self, hs, Option.some.inj hl⟩
    · obtain ⟨o, hm, hi⟩ := ih hl
      exact ⟨o, List.mem_cons_of_mem _ hm, hi⟩

/-- If every call used the entry there was, an entry was last used by the last call for it. -/
theorem called_of_allRefresh (hf : allRefresh carriers history) {s : TargetState Name}
    (hh : (tableAfter carriers history).lookup tgt = some s) :
    called tgt history = some s.used := by
  induction history with
  | nil => simp [tableAfter] at hh
  | cons call prev ih =>
    obtain ⟨hn, hp⟩ := Bool.and_eq_true_iff.mp hf
    rw [called]
    rcases lookup_of_apply hn hh with ⟨hs, hu⟩ | ⟨ha, hi⟩
    · rw [if_pos hs, hu]
    · rw [if_neg ha, ih hp hi]

/-- The first target was last called for before the second one was. -/
def Precedes (history : List (Call Target Name)) (first second : Target) : Prop :=
  ∃ one two, called first history = some one ∧ called second history = some two ∧ one < two

/-- In a history whose calls all used the entry there was, the entry that a call evicts is the one
whose last call is the oldest. -/
theorem evicts_oldest_of_allRefresh (carriers : Bool)
    (ordered : history.Pairwise fun later earlier => earlier.now < later.now)
    (fresh : allRefresh carriers history) {call : Call Target Name} {evicted : Target}
    (held : evicted ∈ tableAfter carriers history)
    (gone : evicted ∉ tableAfter carriers (call :: history)) :
    ∀ other ∈ tableAfter carriers history, other ≠ evicted → Precedes history evicted other := by
  intro other hm ha
  obtain ⟨state, hst⟩ := Option.isSome_iff_exists.mp (lookup_isSome.mpr held)
  obtain ⟨otherState, ho⟩ := Option.isSome_iff_exists.mp (lookup_isSome.mpr hm)
  have hl := called_of_allRefresh fresh hst
  have hlo := called_of_allRefresh fresh ho
  refine ⟨_, _, hl, hlo, (used_le_of_evicted hst gone ho).lt_of_ne fun hs => ?_⟩
  obtain ⟨one, hom, rfl, hon⟩ := mem_of_called hl
  obtain ⟨two, ht, rfl, htn⟩ := mem_of_called hlo
  have hd : history.Pairwise fun one two => one.now = two.now → one = two :=
    ordered.imp fun less he => absurd he less.ne'
  have : Std.Symm fun one two : Call Target Name => one.now = two.now → one = two :=
    ⟨fun _ _ hs hn => (hs hn.symm).symm⟩
  have he := hd.forall_of_forall (fun _ _ _ => rfl) hom ht
  exact ha (congrArg Call.target (he (by rw [hon, htn, hs]))).symm

end Run

/-- Each of as many targets as fit is noted for owner 0 in turn. -/
def filled : List (Call Nat Nat) :=
  (List.range maxTargets).reverse.map fun target => ⟨target, target, .noteOwner 0⟩

theorem evicts_oldest_of_allRefresh_filled :
    0 ∉ tableAfter false (⟨64, 64, .noteOwner 0⟩ :: filled) ∧
    ∀ other ∈ tableAfter false filled, other ≠ 0 → Precedes filled 0 other := by
  have hg : 0 ∉ tableAfter false (⟨64, 64, .noteOwner 0⟩ :: filled) := by decide +kernel
  exact ⟨hg, evicts_oldest_of_allRefresh false (by decide +kernel) (by decide +kernel)
    (by decide +kernel) hg⟩

/-- The first target is noted once more for its owner. -/
def notedAgain : List (Call Nat Nat) :=
  ⟨0, 64, .noteOwner 0⟩ :: filled

theorem noted_target_evicted :
    (notedAgain.Pairwise fun later earlier => earlier.now < later.now) ∧
    0 ∈ tableAfter false notedAgain ∧ 1 ∈ tableAfter false notedAgain ∧
    0 ∉ tableAfter false (⟨64, 65, .noteOwner 0⟩ :: notedAgain) ∧ Precedes notedAgain 1 0 :=
  ⟨by decide +kernel, by decide +kernel, by decide +kernel, by decide +kernel, 1, 64,
    by decide +kernel, rfl, by decide⟩

end MeowRs.ChainHealth
