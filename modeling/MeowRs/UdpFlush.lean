import MeowRs.ActionRuns
import MeowRs.ShardedMaps

/-!
# Flushing the UDP sessions

`handle_udp` looks its key up in the NAT table and, when it is not there, takes a flush watch, dials,
asks the watch whether a flush was issued meanwhile, and only then claims the key.
`close_all_udp_sessions` drains the table shard by shard and bumps the watched generation afterwards.
The check and the claim of a call and the drain and the bump of a flush share no lock, so each of
them is an action of its own.
-/

namespace MeowRs.UdpFlush

open Nat

open ActionRuns ShardedMaps

/-- Where a `handle_udp` call stands.  `seen` is the watch's version when it was taken; a session is
named by the call that dialled it. -/
inductive Call (Key : Type*) where
  | idle
  | forwarding (key : Key) (session : ℕ)
  | forwardFailed (key : Key) (session : ℕ)
  | resolving (key : Key)
  | watching (key : Key) (seen : ℕ)
  | dialling (key : Key) (seen : ℕ)
  | dialled (key : Key) (seen : ℕ)
  | checked (key : Key) (seen : ℕ)
  | writing (key : Key) (winner : ℕ)
  | writeFailed (key : Key) (winner : ℕ)
  | returned

/-- Where a `close_all_udp_sessions` call stands.  `closed` is the number it will return. -/
inductive Flush where
  | idle
  | draining (started shard closed : ℕ)
  | counted (started closed : ℕ)
  | returned (started closed : ℕ)

namespace Call

variable {Key : Type*}

/-- The version of the watch the call will ask before it claims its key. -/
def seen? : Call Key → Option ℕ
  | watching _ seen | dialling _ seen | dialled _ seen => some seen
  | idle | forwarding _ _ | forwardFailed _ _ | resolving _ | checked _ _ | writing _ _
  | writeFailed _ _ | returned => none

/-- The same, once the dial has begun. -/
def dialSeen? : Call Key → Option ℕ
  | dialling _ seen | dialled _ seen => some seen
  | idle | forwarding _ _ | forwardFailed _ _ | resolving _ | watching _ _ | checked _ _
  | writing _ _ | writeFailed _ _ | returned => none

/-- The key of a call that has passed the flush check and not yet claimed. -/
def passed? : Call Key → Option Key
  | checked key _ => some key
  | idle | forwarding _ _ | forwardFailed _ _ | resolving _ | watching _ _ | dialling _ _
  | dialled _ _ | writing _ _ | writeFailed _ _ | returned => none

def watches : Call Key → Bool
  | watching _ _ | dialling _ _ | dialled _ _ | checked _ _ | writing _ _ | writeFailed _ _ => true
  | idle | forwarding _ _ | forwardFailed _ _ | resolving _ | returned => false

end Call

namespace Flush

def started? : Flush → Option ℕ
  | idle => none
  | draining started _ _ | counted started _ | returned started _ => some started

def drained (shard : ℕ) : Flush → Bool
  | idle => false
  | draining _ next _ => decide (shard < next)
  | counted _ _ | returned _ _ => true

def bumped : Flush → Bool
  | idle | draining _ _ _ | counted _ _ => false
  | returned _ _ => true

end Flush

/-- The shards of the NAT table and the sweeper's idle bound in milliseconds. -/
structure Config (Key : Type*) where
  shards : ℕ
  shard : Key → Fin shards
  idle : ℕ

/-- The tunnel's UDP side.  `version` counts the bumps of the flush watch and `receivers` its live
receivers; `clock` numbers the steps, and `began` remembers when a call's dial began. -/
structure State (Key : Type*) where
  table : AList fun _ : Key => ℕ
  version : ℕ
  receivers : ℕ
  clock : ℕ
  began : ℕ → Option ℕ
  activity : ℕ → ℕ
  closed : List ℕ
  calls : ℕ → Call Key
  flushes : ℕ → Flush

inductive Action (Key : Type*) where
  | lookUp (call : ℕ) (key : Key)
  | forwarded (call now : ℕ)
  | forwardFails (call : ℕ)
  | unmatched (call : ℕ)
  | watch (call : ℕ)
  | dial (call : ℕ)
  | dialFails (call : ℕ)
  | connect (call : ℕ)
  | check (call : ℕ)
  | claim (call now : ℕ)
  | written (call : ℕ)
  | writeFails (call : ℕ)
  | evict (call : ℕ)
  | cancel (call : ℕ)
  | sweep (key : Key) (now : ℕ)
  | subscribe
  | unsubscribe
  | startFlush (flush : ℕ)
  | drain (flush : ℕ)
  | bump (flush : ℕ)

namespace State

variable {Key : Type*}

def initial : State Key where
  table := ∅
  version := 0
  receivers := 0
  clock := 0
  began := fun _ => none
  activity := fun _ => 0
  closed := []
  calls := fun _ => .idle
  flushes := fun _ => .idle

def withCall (state : State Key) (call : ℕ) (phase : Call Key) : State Key :=
  { state with calls := fun other => if other = call then phase else state.calls other }

def withFlush (state : State Key) (flush : ℕ) (phase : Flush) : State Key :=
  { state with flushes := fun other => if other = flush then phase else state.flushes other }

/-- The call returns and drops its watch, if it took one. -/
def finish (state : State Key) (call : ℕ) : State Key :=
  { state.withCall call .returned with
    receivers := if (state.calls call).watches then state.receivers - 1 else state.receivers }

def touch (state : State Key) (session now : ℕ) : State Key :=
  { state with
    activity := fun other => if other = session then now else state.activity other }

variable [DecidableEq Key]

/-- `remove_if` with pointer equality: only the session that failed is evicted. -/
def removeIf (state : State Key) (key : Key) (session : ℕ) : State Key :=
  if state.table.lookup key = some session then
    { state with table := state.table.erase key }
  else
    state

end State

/-- `UdpSession::idle_for` on 64-bit counters. -/
def idleFor (now last : ℕ) : ℕ :=
  (now + 2 ^ 64 - last) % 2 ^ 64

section Step

variable {Key : Type*} [DecidableEq Key]

/-- `entry(key).or_insert_with(..)`: the first session of a key wins, a later one is closed and its
datagram goes out on the winner. -/
def claim (state : State Key) (call : ℕ) (key : Key) (now : ℕ) : State Key :=
  match state.table.lookup key with
  | some winner =>
    { (state.touch call now).withCall call (.writing key winner) with
      closed := call :: state.closed }
  | none =>
    { (state.touch call now).withCall call (.writing key call) with
      table := state.table.insert key call }

def perform (config : Config Key) (state : State Key) : Action Key → Option (State Key)
  | .lookUp call key =>
    match state.calls call with
    | .idle =>
      match state.table.lookup key with
      | some session => some (state.withCall call (.forwarding key session))
      | none => some (state.withCall call (.resolving key))
    | _ => none
  | .forwarded call now =>
    match state.calls call with
    | .forwarding _ session => some ((state.touch session now).finish call)
    | _ => none
  | .forwardFails call =>
    match state.calls call with
    | .forwarding key session => some (state.withCall call (.forwardFailed key session))
    | _ => none
  | .unmatched call =>
    match state.calls call with
    | .resolving _ => some (state.finish call)
    | _ => none
  | .watch call =>
    match state.calls call with
    | .resolving key =>
      some { state.withCall call (.watching key state.version) with
        receivers := state.receivers + 1 }
    | _ => none
  | .dial call =>
    match state.calls call with
    | .watching key seen =>
      some { state.withCall call (.dialling key seen) with
        began := fun other => if other = call then some state.clock else state.began other }
    | _ => none
  | .dialFails call =>
    match state.calls call with
    | .dialling _ _ => some (state.finish call)
    | _ => none
  | .connect call =>
    match state.calls call with
    | .dialling key seen => some (state.withCall call (.dialled key seen))
    | _ => none
  -- `flush.is_flushed()`: a session dialled across a flush is closed, not cached.
  | .check call =>
    match state.calls call with
    | .dialled key seen =>
      if state.version = seen then
        some (state.withCall call (.checked key seen))
      else
        some { state.finish call with closed := call :: state.closed }
    | _ => none
  | .claim call now =>
    match state.calls call with
    | .checked key _ => some (claim state call key now)
    | _ => none
  | .written call =>
    match state.calls call with
    | .writing _ _ => some (state.finish call)
    | _ => none
  | .writeFails call =>
    match state.calls call with
    | .writing key winner => some (state.withCall call (.writeFailed key winner))
    | _ => none
  | .evict call =>
    match state.calls call with
    | .forwardFailed key session => some ((state.removeIf key session).finish call)
    | .writeFailed key winner => some ((state.removeIf key winner).finish call)
    | _ => none
  -- The caller drops the future at one of its awaits.
  | .cancel call =>
    match state.calls call with
    | .forwarding _ _ | .resolving _ | .dialling _ _ | .writing _ _ => some (state.finish call)
    | _ => none
  | .sweep key now =>
    match state.table.lookup key with
    | some session =>
      if idleFor now (state.activity session) < config.idle then some state
      else some { state with table := state.table.erase key }
    | none => some state
  | .subscribe => some { state with receivers := state.receivers + 1 }
  | .unsubscribe => some { state with receivers := state.receivers - 1 }
  | .startFlush flush =>
    match state.flushes flush with
    | .idle => some (state.withFlush flush (.draining state.clock 0 0))
    | _ => none
  | .drain flush =>
    match state.flushes flush with
    | .draining started shard closed =>
      if shard < config.shards then
        let sessions := inShard config.shard shard state.table
        some { state.withFlush flush
            (.draining started (shard + 1) (closed + sessions.length)) with
          table := drainShard config.shard shard state.table
          closed := sessions ++ state.closed }
      else
        some (state.withFlush flush (.counted started (closed + state.receivers)))
    | _ => none
  | .bump flush =>
    match state.flushes flush with
    | .counted started closed =>
      some { state.withFlush flush (.returned started closed) with
        version := state.version + 1 }
    | _ => none

/-- One action, and the clock moves on. -/
def step (config : Config Key) (state : State Key) (action : Action Key) : Option (State Key) :=
  (perform config state action).map fun next => { next with clock := next.clock + 1 }

/-- Every call whose dial began before `started` has returned. -/
def State.Settled (state : State Key) (started : ℕ) : Prop :=
  ∀ call time, state.began call = some time → time < started → state.calls call = .returned

/-- No session of the table was dialled before `started`. -/
def State.FreeOfStale (state : State Key) (started : ℕ) : Prop :=
  ∀ key session time, state.table.lookup key = some session → state.began session = some time →
    started ≤ time

/-- A call passes the check, a flush runs to its end, and only then the call claims its key. -/
def lateClaim : List (Action Unit) :=
  [.lookUp 0 (), .watch 0, .dial 0, .connect 0, .check 0, .startFlush 0, .drain 0, .drain 0,
    .bump 0, .claim 0 0, .written 0]

def oneShard : Config Unit :=
  ⟨1, fun _ => .last 0, 60000⟩

theorem lateClaim_leaves_stale_session :
    ∃ state, run (step oneShard) State.initial lateClaim = some state ∧
      state.flushes 0 = .returned 5 1 ∧ state.Settled 5 ∧ ¬state.FreeOfStale 5 := by
  refine ⟨_, rfl, rfl, ?_, ?_⟩
  · intro call time began _
    by_cases first : call = 0
    · subst first
      rfl
    · change (if call = 0 then some 2 else none) = some time at began
      rw [if_neg first] at began
      cases began
  · intro free
    have stale := free () 0 2 rfl rfl
    omega

/-- What the two unlocked sections have to respect.  A call makes its check only while no flush that
started after its dial stands between draining the call's shard and its bump, and a flush drains a
shard only while no call with an older dial stands between its check and a claim in that shard. -/
def Guarded (config : Config Key) (state : State Key) : Action Key → Prop
  | .check call => ∀ key seen time, state.calls call = .dialled key seen →
      state.began call = some time → ∀ flush started,
        (state.flushes flush).started? = some started → time < started →
        (state.flushes flush).drained (config.shard key) = true →
        (state.flushes flush).bumped = true
  | .drain flush => ∀ started shard closed, state.flushes flush = .draining started shard closed →
      ∀ call key time, (state.calls call).passed? = some key → (config.shard key).val = shard →
        state.began call = some time → started ≤ time
  | _ => True

/-- Once a flush has passed a shard, neither an entry of that shard nor a call that is about to claim
one was dialled before the flush started. -/
structure Sound (config : Config Key) (state : State Key) : Prop where
  started_le : ∀ flush started, (state.flushes flush).started? = some started →
    started ≤ state.clock
  seen_le : ∀ call seen, (state.calls call).seen? = some seen → seen ≤ state.version
  seen_lt : ∀ flush started, (state.flushes flush).started? = some started →
    (state.flushes flush).bumped = true → ∀ call seen time,
      (state.calls call).dialSeen? = some seen → state.began call = some time → time < started → seen < state.version
  passed : ∀ flush started, (state.flushes flush).started? = some started →
    ∀ call key time, (state.calls call).passed? = some key →
      (state.flushes flush).drained (config.shard key) = true →
      state.began call = some time → started ≤ time
  cached : ∀ flush started, (state.flushes flush).started? = some started →
    ∀ key session time, state.table.lookup key = some session →
      (state.flushes flush).drained (config.shard key) = true →
      state.began session = some time → started ≤ time

end Step

section Invariant

variable {Key : Type*} [DecidableEq Key] {cfg : Config Key} {s next : State Key}
  {flush started shard closed n : ℕ} {ph : Call Key} {call : ℕ}

section

variable (sound : Sound cfg s)
include sound

theorem Sound.withCall (seen : ∀ seen, ph.seen? = some seen → seen ≤ s.version)
    (dialSeen : ∀ seen, ph.dialSeen? = some seen → ∀ flush started,
      (s.flushes flush).started? = some started → (s.flushes flush).bumped = true →
      ∀ time, s.began call = some time → time < started → seen < s.version)
    (passed : ∀ key, ph.passed? = some key → ∀ flush started,
      (s.flushes flush).started? = some started →
      (s.flushes flush).drained (cfg.shard key) = true →
      ∀ time, s.began call = some time → started ≤ time) :
    Sound cfg (s.withCall call ph) where
  started_le := sound.started_le
  seen_le o := by
    simp only [State.withCall]
    split
    · exact seen
    · exact sound.seen_le o
  seen_lt flush started starts bumps o := by
    simp only [State.withCall]
    split
    · subst o
      exact fun ver time hit => dialSeen ver hit flush started starts bumps time
    · exact sound.seen_lt flush started starts bumps o
  passed flush started starts o := by
    simp only [State.withCall]
    split
    · subst o
      exact fun key time hit drained =>
        passed key hit flush started starts drained time
    · exact sound.passed flush started starts o
  cached := sound.cached

theorem Sound.advance (seen : ∀ seen, ph.seen? = some seen → (s.calls call).dialSeen? = some seen ∧
      (s.calls call).seen? = some seen)
    (hd : ∀ seen, ph.dialSeen? = some seen → ph.seen? = some seen)
    (hp : ph.passed? = none) : Sound cfg (s.withCall call ph) := by
  apply sound.withCall
  · exact fun ver hi => sound.seen_le call ver (seen ver hi).2
  · intro ver hi flush started hs hb time
    exact sound.seen_lt flush started hs hb call ver time (seen ver (hd ver hi)).1
  · intro key hi
    rw [hp] at hi
    cases hi

theorem Sound.transport (ht : next.table = s.table) (hv : next.version = s.version)
    (hcl : s.clock ≤ next.clock) (hb : next.began = s.began) (hc : next.calls = s.calls)
    (hf : next.flushes = s.flushes) : Sound cfg next := by
  obtain ⟨started_le, seen_le, seen_lt, hp, hcac⟩ := sound
  constructor
  · rw [hf]
    exact fun flush started hs => le_trans (started_le flush started hs) hcl
  all_goals
    simp only [ht, hv, hb, hc, hf]
    assumption

theorem Sound.shrink (table : AList fun _ : Key => ℕ) (hk : ∀ key ses, table.lookup key = some ses →
      s.table.lookup key = some ses) : Sound cfg { s with table := table } where
  started_le := sound.started_le
  seen_le := sound.seen_le
  seen_lt := sound.seen_lt
  passed := sound.passed
  cached flush started hs key ses time hi :=
    sound.cached flush started hs key ses time (hk key ses hi)

theorem Sound.leave (hs : ph.seen? = none) (hd : ph.dialSeen? = none)
    (hp : ph.passed? = none) : Sound cfg (s.withCall call ph) := by
  apply sound.advance
  · intro ver hi
    rw [hs] at hi
    cases hi
  · intro ver hi
    rw [hd] at hi
    cases hi
  · exact hp

theorem Sound.finish (call : ℕ) : Sound cfg (s.finish call) := by
  have hl : Sound cfg (s.withCall call .returned) := sound.leave rfl rfl rfl
  exact hl.transport rfl rfl (le_refl _) rfl rfl rfl

theorem Sound.touch (ses now : ℕ) : Sound cfg (s.touch ses now) :=
  sound.transport rfl rfl (le_refl _) rfl rfl rfl

theorem Sound.removeIf (key : Key) (ses : ℕ) : Sound cfg (s.removeIf key ses) := by
  unfold State.removeIf
  split
  · exact sound.shrink _ fun _ _ hi => (lookup_erase_eq_some hi).2
  · exact sound

/-- The claim of a call that passed the check adds an entry as fresh as the call itself. -/
theorem Sound.claim {call seen : ℕ} {key : Key} (now : ℕ)
    (ph : s.calls call = .checked key seen) : Sound cfg (claim s call key now) := by
  have had : ∀ winner, Sound cfg ((s.touch call now).withCall call (.writing key winner)) :=
    fun winner => (sound.touch call now).leave rfl rfl rfl
  unfold UdpFlush.claim
  split
  · exact (had _).transport rfl rfl (le_refl _) rfl rfl rfl
  · exact
      { started_le := (had call).started_le
        seen_le := (had call).seen_le
        seen_lt := (had call).seen_lt
        passed := (had call).passed
        cached := by
          intro flush started hst o ses time hit hdr hbe
          obtain ⟨rfl, rfl⟩ | ⟨_, pre⟩ := lookup_insert_eq_some hit
          · exact sound.passed flush started hst ses o time (by rw [ph]; rfl) hdr
              hbe
          · exact sound.cached flush started hst o ses time pre hdr hbe }

theorem Sound.watch (call : ℕ) (key : Key) :
    Sound cfg (s.withCall call (.watching key s.version)) := by
  apply sound.withCall
  · intro seen hi
    cases hi
    exact le_refl _
  · intro seen hi
    cases hi
  · intro o hi
    cases hi

theorem Sound.dial {call seen : ℕ} {key : Key} (ph : s.calls call = .watching key seen) :
    Sound cfg { s.withCall call (.dialling key seen) with
      began := fun o => if o = call then some s.clock else s.began o } where
  started_le := sound.started_le
  seen_le o := by
    simp only [State.withCall]
    split
    · exact fun ver hi => sound.seen_le call ver (by rw [ph]; exact hi)
    · exact sound.seen_le o
  seen_lt flush started hs hbu o := by
    simp only [State.withCall]
    split
    · intro ver time _ hb hp
      cases hb
      exact absurd hp (not_lt_of_ge (sound.started_le flush started hs))
    · exact sound.seen_lt flush started hs hbu o
  passed flush started hs o := by
    simp only [State.withCall]
    split
    · intro key time hi
      cases hi
    · exact sound.passed flush started hs o
  cached flush started hs key ses time hi hd hb := by
    simp only at hb
    split at hb
    · cases hb
      exact sound.started_le flush started hs
    · exact sound.cached flush started hs key ses time hi hd hb

/-- A call passes the check only if no flush that started after its dial has emptied its shard: such
a flush has bumped, so the watch would have changed. -/
theorem Sound.check {key : Key} (ph : s.calls call = .dialled key s.version)
    (hg : Guarded cfg s (.check call)) : Sound cfg (s.withCall call (.checked key s.version)) := by
  apply sound.withCall
  · intro seen hi
    cases hi
  · intro seen hi
    cases hi
  · intro o hi flush started hs hd time hb
    cases hi
    by_contra hp
    rw [not_le] at hp
    have hbu := hg key s.version time ph hb flush started hs hp hd
    have ho := sound.seen_lt flush started hs hbu call s.version time (by rw [ph]; rfl) hb hp
    exact lt_irrefl _ ho

theorem Sound.withFlush {flush : ℕ} {ph : Flush}
    (started_le : ∀ started, ph.started? = some started → started ≤ s.clock)
    (seen : ∀ started, ph.started? = some started → ph.bumped = true →
      ∀ call seen time, (s.calls call).dialSeen? = some seen → s.began call = some time →
        time < started → seen < s.version)
    (passed : ∀ started, ph.started? = some started → ∀ call key time,
      (s.calls call).passed? = some key → ph.drained (cfg.shard key) = true →
      s.began call = some time → started ≤ time)
    (cached : ∀ started, ph.started? = some started → ∀ key ses time,
      s.table.lookup key = some ses → ph.drained (cfg.shard key) = true →
      s.began ses = some time → started ≤ time) :
    Sound cfg (s.withFlush flush ph) where
  started_le o := by
    simp only [State.withFlush]
    split
    · exact started_le
    · exact sound.started_le o
  seen_le := sound.seen_le
  seen_lt o := by
    simp only [State.withFlush]
    split
    · exact seen
    · exact sound.seen_lt o
  passed o := by
    simp only [State.withFlush]
    split
    · exact passed
    · exact sound.passed o
  cached o := by
    simp only [State.withFlush]
    split
    · exact cached
    · exact sound.cached o

/-- A flush that goes on drains nothing that was not drained before. -/
theorem Sound.proceed {flush started : ℕ} {phase : Flush}
    (hs : (s.flushes flush).started? = some started) (hst : phase.started? = some started)
    (hd : ∀ key, phase.drained (cfg.shard key) = true →
      (s.flushes flush).drained (cfg.shard key) = true)
    (hv : phase.bumped = true → ∀ call seen time, (s.calls call).dialSeen? = some seen →
      s.began call = some time → time < started → seen < s.version) :
    Sound cfg (s.withFlush flush phase) := by
  apply sound.withFlush
  · intro o ho
    cases hst.symm.trans ho
    exact sound.started_le flush started hs
  · intro o ho hb
    cases hst.symm.trans ho
    exact hv hb
  · intro o ho call key time hp hdr hb
    cases hst.symm.trans ho
    exact sound.passed flush started hs call key time hp (hd key hdr) hb
  · intro o ho key ses time hi hdr hb
    cases hst.symm.trans ho
    exact sound.cached flush started hs key ses time hi (hd key hdr) hb

theorem Sound.startFlush (flush : ℕ) : Sound cfg (s.withFlush flush (.draining s.clock 0 0)) := by
  apply sound.withFlush
  · intro started hs
    cases hs
    exact le_refl _
  · intro started _ hb
    cases hb
  · intro started _ call key time _ hd
    simp [Flush.drained] at hd
  · intro started _ key ses time _ hd
    simp [Flush.drained] at hd

/-- Draining a shard: its entries are gone, and no call with an older dial is about to claim a key in
it. -/
theorem Sound.drain (ph : s.flushes flush = .draining started shard closed)
    (hg : Guarded cfg s (.drain flush)) :
    Sound cfg ({ s with table := drainShard cfg.shard shard s.table }.withFlush flush
      (.draining started (shard + 1) n)) := by
  have hs : (s.flushes flush).started? = some started := by rw [ph]; rfl
  have pre : ∀ i, i ≠ shard → (Flush.draining started (shard + 1) n).drained i = true →
      (s.flushes flush).drained i = true := by
    intro i o hd
    rw [ph]
    simp only [Flush.drained, decide_eq_true_eq] at hd ⊢
    omega
  have hsh := sound.shrink (drainShard cfg.shard shard s.table)
    fun _ _ hi => (lookup_drainShard_eq_some.mp hi).1
  apply hsh.withFlush
  · intro started' hst
    cases hst
    exact sound.started_le flush started hs
  · intro _ _ hbu
    cases hbu
  · intro started' hst call key time hp hd hb
    cases hst
    by_cases hh : (cfg.shard key).val = shard
    · exact hg started shard closed ph call key time hp hh hb
    · exact sound.passed flush started hs call key time hp (pre _ hh hd) hb
  · intro started' hst key ses time hi hd hb
    cases hst
    obtain ⟨held, hh⟩ := lookup_drainShard_eq_some.mp hi
    exact sound.cached flush started hs key ses time held (pre _ hh hd) hb

theorem Sound.counted (ph : s.flushes flush = .draining started shard closed)
    (hp : cfg.shards ≤ shard) : Sound cfg (s.withFlush flush (.counted started n)) := by
  have hs : (s.flushes flush).started? = some started := by rw [ph]; rfl
  have hd : ∀ key, (s.flushes flush).drained (cfg.shard key) = true := by
    intro key
    rw [ph]
    exact decide_eq_true (lt_of_lt_of_le (cfg.shard key).isLt hp)
  exact sound.proceed hs rfl (fun key _ => hd key) nofun

theorem Sound.bump {flush started closed : ℕ} (ph : s.flushes flush = .counted started closed) :
    Sound cfg { s.withFlush flush (.returned started closed) with
      version := s.version + 1 } := by
  have hs : (s.flushes flush).started? = some started := by rw [ph]; rfl
  have hd : ∀ shard, (s.flushes flush).drained shard = true := by
    intro shard
    rw [ph]
    rfl
  have ho : ∀ call seen, (s.calls call).dialSeen? = some seen → seen < s.version + 1 := by
    intro call seen hf
    have le : (s.calls call).seen? = some seen := by
      cases hh : s.calls call <;> rw [hh] at hf <;> first | exact hf | cases hf
    exact lt_succ_of_le (sound.seen_le call seen le)
  have hbu : Sound cfg { s with version := s.version + 1 } :=
    { sound with
      seen_le := fun call seen hf => le_succ_of_le (sound.seen_le call seen hf)
      seen_lt := fun _ _ _ _ call seen _ hf _ _ => ho call seen hf }
  have hfi : Sound cfg (({ s with version := s.version + 1 } : State Key).withFlush
      flush (.returned started closed)) :=
    hbu.proceed hs rfl (fun _ _ => hd _) fun _ call seen _ hf _ _ => ho call seen hf
  exact hfi.transport rfl rfl (le_refl _) rfl rfl rfl

theorem Sound.perform {act : Action Key} (hg : Guarded cfg s act)
    (hs : perform cfg s act = some next) : Sound cfg next := by
  cases act with simp only [UdpFlush.perform] at hs
  | lookUp call key =>
    split at hs
    · split at hs
      all_goals
        cases hs
        exact sound.leave rfl rfl rfl
    · cases hs
  | forwarded call now =>
    split at hs <;> cases hs
    exact (sound.touch _ now).finish call
  | forwardFails call | writeFails call =>
    split at hs <;> cases hs
    exact sound.leave rfl rfl rfl
  | unmatched call | dialFails call | written call | cancel call =>
    split at hs
    all_goals
      cases hs
      try exact sound.finish call
  | watch call =>
    split at hs <;> cases hs
    exact (sound.watch call _).transport rfl rfl (le_refl _) rfl rfl rfl
  | dial call =>
    split at hs <;> cases hs
    exact sound.dial ‹_›
  | connect call =>
    split at hs
    · rename_i key seen ph
      cases hs
      apply sound.advance
      · intro ver hi
        rw [ph]
        exact ⟨hi, hi⟩
      · exact fun _ hi => hi
      · rfl
    · cases hs
  | check call =>
    split at hs
    · rename_i key seen ph
      split at hs
      · rename_i unchanged
        subst unchanged
        cases hs
        exact sound.check ph hg
      · cases hs
        exact (sound.finish call).transport rfl rfl (le_refl _) rfl rfl rfl
    · cases hs
  | claim call now =>
    split at hs <;> cases hs
    exact sound.claim now ‹_›
  | evict call =>
    split at hs
    · cases hs
      exact (sound.removeIf _ _).finish call
    · cases hs
      exact (sound.removeIf _ _).finish call
    · cases hs
  | sweep key now =>
    split at hs
    · split at hs
      · cases hs
        exact sound
      · cases hs
        exact sound.shrink _ fun _ _ hi => (lookup_erase_eq_some hi).2
    · cases hs
      exact sound
  | subscribe | unsubscribe =>
    cases hs
    exact sound.transport rfl rfl (le_refl _) rfl rfl rfl
  | startFlush flush =>
    split at hs <;> cases hs
    exact sound.startFlush flush
  | drain flush =>
    split at hs
    · rename_i started shard closed ph
      split at hs
      · cases hs
        exact (sound.drain ph hg).transport rfl rfl (le_refl _) rfl rfl rfl
      · cases hs
        exact sound.counted ph (le_of_not_gt ‹_›)
    · cases hs
  | bump flush =>
    split at hs <;> cases hs
    exact sound.bump ‹_›

end

theorem sound_initial : Sound cfg (State.initial : State Key) := by
  constructor <;> simp [State.initial, Flush.started?, Call.seen?]

theorem Sound.step {act : Action Key} (sound : Sound cfg s) (hg : Guarded cfg s act)
    (hs : step cfg s act = some next) : Sound cfg next := by
  obtain ⟨mid, hp, rfl⟩ := Option.map_eq_some_iff.mp hs
  exact (sound.perform hg hp).transport rfl rfl (le_succ _) rfl rfl rfl

/-- In every run that respects `Guarded`, a flush that has returned leaves no session in the table
whose dial began before it started. -/
theorem freeOfStale_of_guarded (config : Config Key) (actions : List (Action Key)) (state : State Key)
    (guarded : Meets (UdpFlush.step config) (Guarded config) State.initial actions)
    (runs : run (UdpFlush.step config) State.initial actions = some state) (flush started closed : ℕ)
    (returned : state.flushes flush = .returned started closed) :
    state.Settled started → state.FreeOfStale started := by
  have sound : Sound config state :=
    invariant_of_meets (fun _ _ _ sound guarded hs => sound.step guarded hs) sound_initial
      guarded runs
  intro _ key session time hf hb
  exact sound.cached flush started (by rw [returned]; rfl) key session time hf
    (by rw [returned]; rfl) hb

/-- The flush falls between the dial and the check: the straddling session is discarded. -/
def straddledDial : List (Action Unit) :=
  [.lookUp 0 (), .watch 0, .dial 0, .startFlush 0, .drain 0, .drain 0, .bump 0, .connect 0, .check 0]

theorem freeOfStale_of_guarded_straddledDial :
    ∃ state, run (UdpFlush.step oneShard) State.initial straddledDial = some state ∧
      state.closed = [0] ∧ state.FreeOfStale 3 := by
  refine ⟨_, rfl, rfl, ?_⟩
  refine freeOfStale_of_guarded oneShard straddledDial _ ?_ rfl 0 3 1 rfl ?_
  · refine ⟨trivial, ?_⟩
    rintro _ ⟨⟩
    refine ⟨trivial, ?_⟩
    rintro _ ⟨⟩
    refine ⟨trivial, ?_⟩
    rintro _ ⟨⟩
    refine ⟨trivial, ?_⟩
    rintro _ ⟨⟩
    -- The straddling call is still dialling while the shard is drained.
    refine ⟨?_, ?_⟩
    · rintro _ _ _ _ (_ | call) _ _ ⟨⟩
    rintro _ ⟨⟩
    refine ⟨?_, ?_⟩
    · rintro _ _ _ _ (_ | call) _ _ ⟨⟩
    rintro _ ⟨⟩
    refine ⟨trivial, ?_⟩
    rintro _ ⟨⟩
    refine ⟨trivial, ?_⟩
    rintro _ ⟨⟩
    -- By the time it asks its watch the flush has bumped.
    refine ⟨?_, ?_⟩
    · rintro _ _ _ _ _ (_ | flush) _ starts _ _
      · rfl
      · cases starts
    exact fun _ _ => trivial
  · intro call time began _
    by_cases first : call = 0
    · subst first
      rfl
    · change (if call = 0 then some 2 else none) = some time at began
      rw [if_neg first] at began
      cases began

end Invariant

end MeowRs.UdpFlush
