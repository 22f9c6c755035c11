import MeowRs.FakeIpStore

/-!
# The fake-IP pool

A pool hands out the addresses of a network one after another and wraps to the first one when it
reaches the broadcast address, evicting what is mapped there.  The main result says that over every
sequence of calls the two directions of the pool's store stay inverse, inside the allocatable range.
-/

namespace MeowRs.FakeIp

open IpAddr

open Text

open Store

inductive PoolError where
  | prefixTooSmall (net : IpNet)
  | invalidPrefix (net : IpNet)

/-- The gateway, the first allocatable and the last address of a network. -/
def anchorAddrs (net : IpNet) : Except PoolError (IpAddr × IpAddr × IpAddr) :=
  let network := net.network
  let last := net.broadcast
  let gateway := network.nextAddr
  let first := gateway.nextAddr.nextAddr.nextAddr
  if !first.addrLess last then .error (.prefixTooSmall net)
  else if network.family ≠ last.family ∨ network.family ≠ gateway.family ∨
      network.family ≠ first.family then .error (.invalidPrefix net)
  else .ok (gateway, first, last)

structure Pool (σ : Type) where
  ipnet : IpNet
  gateway : IpAddr
  first : IpAddr
  last : IpAddr
  offset : IpAddr
  cycle : Bool
  store : σ

namespace Pool

variable {σ : Type} [Store σ]

/-- Build a pool over a network; a stored cursor is taken over when it lies in the range. -/
def new (net : IpNet) (store : σ) : Except PoolError (Pool σ) := do
  let (gateway, first, last) ← anchorAddrs net
  let (offset, cycle) :=
    match getState store with
    | some (storedOffset, storedCycle) =>
      if containedInRange storedOffset first last then (storedOffset, storedCycle)
      else (first.prevAddr, false)
    | none => (first.prevAddr, false)
  return { ipnet := net, gateway, first, last, offset, cycle, store }

/-- The address the cursor moves to and whether it has wrapped by then. -/
def advance (pool : Pool σ) : IpAddr × Bool :=
  let candidate := pool.offset.nextAddr
  if !candidate.addrLess pool.last then (pool.first, true) else (candidate, pool.cycle)

/-- Evict the mapping at an address, if the cursor has wrapped or there is one. -/
def clearAt (store : σ) (cycle : Bool) (candidate : IpAddr) : σ :=
  if cycle || exist store candidate then delByIp store candidate else store

/-- Allocate the address at the cursor, evicting what is mapped there. -/
def allocate (pool : Pool σ) (host : Text) : IpAddr × Pool σ :=
  let (candidate, cycle) := pool.advance
  let store := clearAt pool.store cycle candidate
  let store := put store host candidate
  let store := if isPersistent store then putState store candidate cycle else store
  (candidate, { pool with offset := candidate, cycle := cycle, store := store })

def lookup (pool : Pool σ) (host : Text) : IpAddr × Pool σ :=
  let host := toAsciiLowercase host
  match getByHost pool.store host with
  | (some existing, store) => (existing, { pool with store := store })
  | (none, store) => { pool with store := store }.allocate host

def lookBack (pool : Pool σ) (ip : IpAddr) : Option Text × Pool σ :=
  if ip = pool.gateway ∨ ip = pool.last then (none, pool)
  else
    let (host, store) := getByIp pool.store ip
    (host, { pool with store := store })

def isFakeIp (pool : Pool σ) (ip : IpAddr) : Bool :=
  if !pool.ipnet.contains ip then false
  else if ip = pool.gateway ∨ ip = pool.last then false
  else exist pool.store ip

def flush (pool : Pool σ) : Pool σ :=
  let store := Store.flush pool.store
  let offset := pool.first.prevAddr
  let store := if isPersistent store then putState store offset false else store
  { pool with offset := offset, cycle := false, store := store }

/-- A call that may change a pool. -/
inductive Call where
  | lookup (host : Text)
  | lookBack (ip : IpAddr)
  | flush

def perform (pool : Pool σ) : Call → Pool σ
  | .lookup host => (pool.lookup host).2
  | .lookBack ip => (pool.lookBack ip).2
  | .flush => pool.flush

def performAll (pool : Pool σ) (calls : List Call) : Pool σ :=
  calls.foldl perform pool

end Pool

def Allocatable (net : IpNet) (ip : IpAddr) : Prop :=
  ip.family = net.family ∧ net.network.toNat + 4 ≤ ip.toNat ∧ ip.toNat < net.broadcast.toNat

instance (net : IpNet) (ip : IpAddr) : Decidable (Allocatable net ip) :=
  inferInstanceAs (Decidable (_ ∧ _))

/-- The anchors of a network that has an address to allocate, as integers. -/
structure Anchored (net : IpNet) (gateway first last : IpAddr) : Prop where
  gatewayFamily : gateway.family = net.family
  gatewayValue : gateway.toNat = net.network.toNat + 1
  firstFamily : first.family = net.family
  firstValue : first.toNat = net.network.toNat + 4
  lastEq : last = net.broadcast
  nonEmpty : first.toNat < last.toNat

/-- A network with an integer to spare between `network + 4` and its broadcast address has its
anchors where they should be: no successor wraps around. -/
theorem anchorAddrs_of_roomy {net : IpNet} (hr : net.network.toNat + 4 < net.broadcast.toNat) :
    ∃ gateway fst last, anchorAddrs net = .ok (gateway, fst, last) ∧
      Anchored net gateway fst last := by
  have hfam : net.network.family = net.broadcast.family := by simp
  have ho : net.network.nextAddr.toNat = net.network.toNat + 1 :=
    toNat_nextAddr_of_lt _ _ hfam (by omega)
  have two : net.network.nextAddr.nextAddr.toNat = net.network.toNat + 2 := by
    rw [toNat_nextAddr_of_lt _ net.broadcast (by simp) (by omega), ho]
  have ht : net.network.nextAddr.nextAddr.nextAddr.toNat = net.network.toNat + 3 := by
    rw [toNat_nextAddr_of_lt _ net.broadcast (by simp) (by omega), two]
  have hf : net.network.nextAddr.nextAddr.nextAddr.nextAddr.toNat = net.network.toNat + 4 := by
    rw [toNat_nextAddr_of_lt _ net.broadcast (by simp) (by omega), ht]
  have hl : net.network.nextAddr.nextAddr.nextAddr.nextAddr.addrLess net.broadcast = true :=
    addrLess_iff.mpr ⟨by simp, by omega⟩
  refine ⟨_, _, _, ?_, ⟨?_, ho, ?_, hf, rfl, by omega⟩⟩
  · simp [anchorAddrs, hl]
  · simp
  · simp

/-- The anchors are compared after the successors have wrapped, and that comparison decides alone. -/
theorem anchorAddrs_eq (net : IpNet) :
    anchorAddrs net = if (net.network.toNat + 4) % 2 ^ net.family.bits < net.broadcast.toNat then
        .ok (net.network.nextAddr, net.network.nextAddr.nextAddr.nextAddr.nextAddr, net.broadcast)
      else .error (.prefixTooSmall net) := by
  have hl : net.network.nextAddr.nextAddr.nextAddr.nextAddr.addrLess net.broadcast = true ↔
      (net.network.toNat + 4) % 2 ^ net.family.bits < net.broadcast.toNat := by
    rw [addrLess_iff, toNat_nextAddr_four, IpNet.family_network]
    simp
  by_cases hlt : (net.network.toNat + 4) % 2 ^ net.family.bits < net.broadcast.toNat
  · simp [anchorAddrs, hlt, hl.mpr hlt]
  · simp [anchorAddrs, hlt, Bool.eq_false_iff.mpr (mt hl.mp hlt)]

/-- At the top of the address space `network + 4` wraps to an address below the broadcast one. -/
theorem wrapped_lt_broadcast {net : IpNet} (ho : 2 ^ net.family.bits ≤ net.network.toNat + 4) :
    (net.network.toNat + 4) % 2 ^ net.family.bits < net.broadcast.toNat := by
  have hn := net.network.toNat_lt
  rw [IpNet.family_network] at hn
  have hnle := net.network_le_broadcast
  have hl : 2 ^ 32 ≤ 2 ^ net.family.bits := by
    cases net.family <;> decide
  rw [Nat.mod_eq_sub_mod ho, Nat.mod_eq_of_lt (by omega)]
  omega

namespace Pool

section Cursor

variable {σ : Type} {pool : Pool σ}

/-- The cursor stands at an allocatable address or just before the first one. -/
structure Cursor (pool : Pool σ) : Prop where
  anchored : Anchored pool.ipnet pool.gateway pool.first pool.last
  family : pool.offset.family = pool.ipnet.family
  low : pool.first.toNat ≤ pool.offset.toNat + 1
  high : pool.offset.toNat < pool.last.toNat

theorem Cursor.allocatable_advance (hc : Cursor pool) : Allocatable pool.ipnet pool.advance.1 := by
  obtain ⟨ha, hf, low, hi⟩ := hc
  have hlf : pool.last.family = pool.ipnet.family := by
    rw [ha.lastEq, IpNet.family_broadcast]
  have hfv := ha.firstValue
  have hl : pool.last.toNat = pool.ipnet.broadcast.toNat := by rw [ha.lastEq]
  have hnv : pool.offset.nextAddr.toNat = pool.offset.toNat + 1 :=
    toNat_nextAddr_of_lt _ pool.last (by rw [hf, hlf]) hi
  unfold advance
  dsimp only
  split
  · have hn := ha.nonEmpty
    exact ⟨ha.firstFamily, hfv.ge, hl ▸ hn⟩
  · rename_i hlt
    simp only [Bool.not_eq_true', Bool.not_eq_false, addrLess_iff] at hlt
    refine ⟨?_, ?_, hl ▸ hlt.2⟩
    · rw [family_nextAddr, hf]
    · rw [hnv]
      omega

theorem cursor_of_allocatable (ha : Anchored pool.ipnet pool.gateway pool.first pool.last)
    (hal : Allocatable pool.ipnet pool.offset) : Cursor pool := by
  obtain ⟨hf, low, hi⟩ := hal
  have hfv := ha.firstValue
  have hl : pool.last.toNat = pool.ipnet.broadcast.toNat := by rw [ha.lastEq]
  exact ⟨ha, hf, by omega, by omega⟩

theorem cursor_of_prevAddr (ha : Anchored pool.ipnet pool.gateway pool.first pool.last)
    (hs : pool.offset = pool.first.prevAddr) : Cursor pool := by
  have hf := ha.firstValue
  have hn := ha.nonEmpty
  have pre : pool.first.prevAddr.toNat + 1 = pool.first.toNat := toNat_prevAddr_of_pos (by omega)
  rw [← hs] at pre
  refine ⟨ha, ?_, by omega, by omega⟩
  rw [hs, family_prevAddr, ha.firstFamily]

theorem Cursor.withStore (hc : Cursor pool) (store : σ) : Cursor { pool with store := store } :=
  ⟨hc.anchored, hc.family, hc.low, hc.high⟩

variable [Store σ]

def afterRead (pool : Pool σ) (host : Text) : Pool σ :=
  { pool with store := (getByHost pool.store (toAsciiLowercase host)).2 }

theorem lookup_of_mapped {host : Text} {ip : IpAddr}
    (hm : hostAddr pool.store (toAsciiLowercase host) = some ip) :
    pool.lookup host = (ip, pool.afterRead host) := by
  unfold lookup afterRead
  unfold hostAddr at hm
  dsimp only
  split <;> simp_all

theorem lookup_of_unmapped {host : Text} (hf : hostAddr pool.store (toAsciiLowercase host) = none) :
    pool.lookup host = (pool.afterRead host).allocate (toAsciiLowercase host) := by
  unfold lookup afterRead
  unfold hostAddr at hf
  dsimp only
  split <;> simp_all

theorem Cursor.lookup (hc : Cursor pool) (host : Text) : Cursor (pool.lookup host).2 := by
  cases hm : hostAddr pool.store (toAsciiLowercase host) with
  | some ip =>
    rw [lookup_of_mapped hm]
    exact hc.withStore _
  | none =>
    rw [lookup_of_unmapped hm]
    exact cursor_of_allocatable hc.anchored (hc.withStore _).allocatable_advance

theorem Cursor.perform (hc : Cursor pool) (call : Call) : Cursor (pool.perform call) := by
  cases call with
  | lookup host => exact hc.lookup host
  | lookBack ip =>
    change Cursor (pool.lookBack ip).2
    unfold lookBack
    split
    · exact hc
    · exact hc.withStore _
  | flush => exact cursor_of_prevAddr hc.anchored rfl

def InRange (pool : Pool σ) : Prop :=
  ∀ ip host, addrHost pool.store ip = some host → Allocatable pool.ipnet ip

theorem ipnet_lookup (pool : Pool σ) (host : Text) : (pool.lookup host).2.ipnet = pool.ipnet := by
  cases hm : hostAddr pool.store (toAsciiLowercase host) with
  | some ip => rw [lookup_of_mapped hm]; rfl
  | none => rw [lookup_of_unmapped hm]; rfl

theorem allocatable_lookup (hc : Cursor pool) (hp : Paired pool.store)
    (hra : InRange pool) (host : Text) : Allocatable pool.ipnet (pool.lookup host).1 := by
  cases hm : hostAddr pool.store (toAsciiLowercase host) with
  | some ip =>
    rw [lookup_of_mapped hm]
    exact hra ip _ ((hp _ ip).mp hm)
  | none =>
    rw [lookup_of_unmapped hm]
    exact (hc.withStore _).allocatable_advance

theorem allocatable_of_containedInRange {net : IpNet} {gateway fst last ip : IpAddr}
    (ha : Anchored net gateway fst last)
    (hc : containedInRange ip fst last = true) : Allocatable net ip := by
  simp only [containedInRange, Bool.and_eq_true, Bool.not_eq_true', ← Bool.not_eq_true,
    addrLess_iff] at hc
  obtain ⟨hn, hf, hi⟩ := hc
  have hfv := ha.firstValue
  rw [ha.lastEq, IpNet.family_broadcast] at hf
  rw [ha.lastEq] at hi
  refine ⟨hf, ?_, hi⟩
  by_contra low
  exact hn ⟨by rw [hf, ha.firstFamily], by omega⟩

theorem exists_new_iff {net : IpNet} {store : σ} {gateway fst last : IpAddr} :
    (∃ pool, new net store = .ok pool ∧
        pool.gateway = gateway ∧ pool.first = fst ∧ pool.last = last) ↔
      anchorAddrs net = .ok (gateway, fst, last) := by
  unfold new
  cases ha : anchorAddrs net with
  | error reason =>
    constructor
    · rintro ⟨pool, hb, _⟩
      cases hb
    · nofun
  | ok hit =>
    constructor
    · rintro ⟨pool, hb, rfl, rfl, rfl⟩
      cases hb
      rfl
    · intro hs
      cases hs
      exact ⟨_, rfl, rfl, rfl, rfl⟩

/-- A pool is built exactly when `network + 4` lies below the broadcast address, and then the
gateway is `network + 1` and the first address `network + 4`, inside the network like the last. -/
def AnchorsInside (net : IpNet) (store : σ) : Prop :=
  ((∃ pool, new net store = .ok pool) ↔ net.network.toNat + 4 < net.broadcast.toNat) ∧
    ∀ pool, new net store = .ok pool →
      pool.gateway.toNat = net.network.toNat + 1 ∧ pool.first.toNat = net.network.toNat + 4 ∧
        net.contains pool.first = true ∧ net.contains pool.last = true

/-- The anchors are right for every network but those so close to the top of the address space that
`network + 4` is no address any more. -/
theorem anchorsInside_iff (net : IpNet) (store : σ) :
    AnchorsInside net store ↔ net.network.toNat + 4 < 2 ^ net.family.bits := by
  have hbl := net.broadcast.toNat_lt
  rw [IpNet.family_broadcast] at hbl
  constructor
  · intro hi
    by_contra overflows
    -- the wrapped comparison goes through, so a pool is built where there is no room for one
    have ha := anchorAddrs_eq net
    rw [if_pos (wrapped_lt_broadcast (le_of_not_gt overflows))] at ha
    obtain ⟨pool, hb, _⟩ := (@exists_new_iff σ _ net store _ _ _).mpr ha
    have hr := hi.1.mp ⟨pool, hb⟩
    omega
  · intro hf
    have ha := anchorAddrs_eq net
    rw [Nat.mod_eq_of_lt hf] at ha
    constructor
    · constructor
      · rintro ⟨pool, hb⟩
        by_contra crowded
        rw [if_neg crowded, exists_new_iff.mp ⟨pool, hb, rfl, rfl, rfl⟩] at ha
        cases ha
      · intro hr
        rw [if_pos hr] at ha
        obtain ⟨pool, hb, _⟩ := (@exists_new_iff σ _ net store _ _ _).mpr ha
        exact ⟨pool, hb⟩
    · intro pool hb
      have hk := exists_new_iff.mp ⟨pool, hb, rfl, rfl, rfl⟩
      have hr : net.network.toNat + 4 < net.broadcast.toNat := by
        by_contra crowded
        rw [if_neg crowded, hk] at ha
        cases ha
      obtain ⟨gateway, first, last, hanc, hpl⟩ := anchorAddrs_of_roomy hr
      rw [hk] at hanc
      cases hanc
      have hg := hpl.gatewayValue
      have hfv := hpl.firstValue
      have hfb := hpl.nonEmpty
      refine ⟨hg, hfv, IpNet.contains_iff.mpr ⟨hpl.firstFamily, ?_, ?_⟩,
        IpNet.contains_iff.mpr ⟨?_, ?_, ?_⟩⟩
      · omega
      · rw [hpl.lastEq] at hfb
        omega
      · rw [hpl.lastEq, IpNet.family_broadcast]
      · rw [hpl.lastEq]
        omega
      · rw [hpl.lastEq]

theorem anchorsInside_smallest :
    AnchorsInside ⟨.v4 0xc6120000#32, 29, by decide⟩ (MemoryStore.new 1) :=
  (anchorsInside_iff _ _).mpr (by decide)

/-- Over `255.255.255.252/30` a pool is built, and its first address is `0.0.0.0`. -/
theorem new_wraps_at_top :
    (∃ pool, new ⟨.v4 0xfffffffc#32, 30, by decide⟩ (MemoryStore.new 1) = .ok pool ∧
        pool.first = .v4 0#32 ∧ IpNet.contains ⟨.v4 0xfffffffc#32, 30, by decide⟩ pool.first = false) ∧
      ¬ AnchorsInside ⟨.v4 0xfffffffc#32, 30, by decide⟩ (MemoryStore.new 1) := by
  obtain ⟨pool, hb, _, hf, _⟩ := (@exists_new_iff _ _ _ (MemoryStore.new 1) _ _ _).mpr
    (show anchorAddrs ⟨.v4 0xfffffffc#32, 30, by decide⟩ =
      .ok (.v4 0xfffffffd#32, .v4 0#32, .v4 0xffffffff#32) by rfl)
  refine ⟨⟨pool, hb, hf, ?_⟩, fun hi => ?_⟩
  · rw [hf]
    decide
  · have hr := hi.1.mp ⟨pool, hb⟩
    exact absurd hr (by decide)

theorem new_of_roomy {net : IpNet} (hr : net.network.toNat + 4 < net.broadcast.toNat) (store : σ) :
    ∃ pool, new net store = .ok pool ∧ pool.ipnet = net ∧ pool.store = store ∧ Cursor pool := by
  obtain ⟨gateway, fst, last, hanc, ha⟩ := anchorAddrs_of_roomy hr
  unfold new
  rw [hanc]
  cases hs : getState store with
  | none => exact ⟨_, rfl, rfl, rfl, cursor_of_prevAddr ha rfl⟩
  | some s =>
    obtain ⟨off, cycle⟩ := s
    cases hc : containedInRange off fst last with
    | true =>
      refine ⟨⟨net, gateway, fst, last, off, cycle, store⟩, ?_, rfl, rfl,
        cursor_of_allocatable ha (allocatable_of_containedInRange ha hc)⟩
      simp [bind, Except.bind, pure, Except.pure, hc]
    | false =>
      refine ⟨⟨net, gateway, fst, last, fst.prevAddr, false, store⟩, ?_, rfl, rfl,
        cursor_of_prevAddr ha rfl⟩
      simp [bind, Except.bind, pure, Except.pure, hc]

/-- What a pool over `net` promises between calls: its store's two directions are inverse and stay
inside the allocatable range, a mapped host keeps its address, and an address just handed out leads
back to its host. -/
structure Faithful (net : IpNet) (pool : Pool σ) : Prop where
  inverse (host : Text) (ip : IpAddr) :
    (getByHost pool.store host).1 = some ip ↔ (getByIp pool.store ip).1 = some host
  inRange (host : Text) (ip : IpAddr) :
    (getByHost pool.store host).1 = some ip → Allocatable net ip
  existing (host : Text) (ip : IpAddr) :
    (getByHost pool.store (toAsciiLowercase host)).1 = some ip → (pool.lookup host).1 = ip
  lookBack_lookup (host : Text) :
    ((pool.lookup host).2.lookBack (pool.lookup host).1).1 = some (toAsciiLowercase host)

theorem lookBack_of_allocatable (hc : Cursor pool) {ip : IpAddr}
    (ha : Allocatable pool.ipnet ip) : (pool.lookBack ip).1 = addrHost pool.store ip := by
  obtain ⟨_, hl, hi⟩ := ha
  have hg := hc.anchored.gatewayValue
  have hn : ip ≠ pool.gateway := by
    rintro rfl
    omega
  have hnl : ip ≠ pool.last := by
    rw [hc.anchored.lastEq]
    rintro rfl
    omega
  simp [lookBack, hn, hnl, addrHost]

theorem ipnet_performAll (pool : Pool σ) (calls : List Call) :
    (pool.performAll calls).ipnet = pool.ipnet := by
  induction calls generalizing pool with
  | nil => rfl
  | cons call calls ih =>
    refine (ih (pool.perform call)).trans ?_
    cases call with
    | lookup host => exact ipnet_lookup pool host
    | lookBack ip =>
      change (pool.lookBack ip).2.ipnet = pool.ipnet
      unfold lookBack
      split <;> rfl
    | flush => rfl

end Cursor

section Lawful

variable {σ : Type} [Store σ] [LawfulStore σ] {pool : Pool σ} {host : Text}

theorem addrHost_clearAt (store : σ) (cycle : Bool) (candidate : IpAddr) :
    addrHost (clearAt store cycle candidate) =
      Function.update (addrHost store) candidate none := by
  unfold clearAt
  split
  · exact LawfulStore.addrHost_delByIp store candidate
  · rename_i kept
    have hu : addrHost store candidate = none := by
      have hm : exist store candidate = false := by simp_all
      rw [LawfulStore.exist_eq] at hm
      simpa using hm
    rw [← hu, Function.update_eq_self]

theorem paired_clearAt {store : σ} (hp : Paired store) (cycle : Bool) (candidate : IpAddr) :
    Paired (clearAt store cycle candidate) := by
  unfold clearAt
  split
  · exact LawfulStore.paired_delByIp hp candidate
  · exact hp

theorem hostAddr_clearAt_eq_none {store : σ} (hp : Paired store) (hf : hostAddr store host = none)
    (cycle : Bool) (candidate : IpAddr) : hostAddr (clearAt store cycle candidate) host = none := by
  refine hostAddr_none_of_le hp (paired_clearAt hp cycle candidate) ?_ hf
  intro ip o hm
  rw [addrHost_clearAt] at hm
  rcases eq_or_ne ip candidate with rfl | ho
  · simp at hm
  · rwa [Function.update_of_ne ho] at hm

theorem hostAddr_allocate (pool : Pool σ) (host : Text) :
    hostAddr (pool.allocate host).2.store =
      hostAddr (put (clearAt pool.store pool.advance.2 pool.advance.1) host pool.advance.1) := by
  unfold allocate
  dsimp only
  split
  · exact LawfulStore.hostAddr_putState _ _ _
  · rfl

theorem addrHost_allocate (pool : Pool σ) (host : Text) :
    addrHost (pool.allocate host).2.store =
      addrHost (put (clearAt pool.store pool.advance.2 pool.advance.1) host pool.advance.1) := by
  unfold allocate
  dsimp only
  split
  · exact LawfulStore.addrHost_putState _ _ _
  · rfl

theorem paired_allocate (hp : Paired pool.store)
    (hf : hostAddr pool.store host = none) : Paired (pool.allocate host).2.store := by
  rw [Paired, hostAddr_allocate, addrHost_allocate]
  exact LawfulStore.paired_put (paired_clearAt hp _ _)
    (hostAddr_clearAt_eq_none hp hf _ _) (by simp [addrHost_clearAt])

theorem addrHost_allocate_self (hp : Paired pool.store) (hf : hostAddr pool.store host = none) :
    addrHost (pool.allocate host).2.store (pool.allocate host).1 = some host := by
  rw [addrHost_allocate]
  exact LawfulStore.addrHost_put (paired_clearAt hp _ _)
    (hostAddr_clearAt_eq_none hp hf _ _) (by simp [addrHost_clearAt])

theorem addrHost_allocate_le (hp : Paired pool.store) {host o : Text}
    {ip : IpAddr} (hf : hostAddr pool.store host = none)
    (hm : addrHost (pool.allocate host).2.store ip = some o) :
    ip = (pool.allocate host).1 ∨ addrHost pool.store ip = some o := by
  rw [addrHost_allocate] at hm
  rcases LawfulStore.addrHost_put_ne (paired_clearAt hp _ _)
    (hostAddr_clearAt_eq_none hp hf _ _) (by simp [addrHost_clearAt]) hm with hs | ho
  · exact Or.inl hs
  · rw [addrHost_clearAt] at ho
    rcases eq_or_ne ip pool.advance.1 with hs | hoa
    · exact Or.inl hs
    · rw [Function.update_of_ne hoa] at ho
      exact Or.inr ho

@[simp]
theorem hostAddr_afterRead (pool : Pool σ) (host : Text) :
    hostAddr (pool.afterRead host).store = hostAddr pool.store :=
  LawfulStore.hostAddr_getByHost _ _

@[simp]
theorem addrHost_afterRead (pool : Pool σ) (host : Text) :
    addrHost (pool.afterRead host).store = addrHost pool.store :=
  LawfulStore.addrHost_getByHost _ _

section

variable (hp : Paired pool.store)
include hp

theorem paired_afterRead (host : Text) : Paired (pool.afterRead host).store := by
  rw [Paired, hostAddr_afterRead, addrHost_afterRead]
  exact hp

theorem paired_lookup (host : Text) : Paired (pool.lookup host).2.store := by
  cases hm : hostAddr pool.store (toAsciiLowercase host) with
  | some ip =>
    rw [lookup_of_mapped hm]
    exact paired_afterRead hp host
  | none =>
    rw [lookup_of_unmapped hm]
    exact paired_allocate (paired_afterRead hp host) (by simpa using hm)

/-- Right after a lookup the returned address is mapped to the folded host. -/
theorem addrHost_lookup (host : Text) :
    addrHost (pool.lookup host).2.store (pool.lookup host).1 =
      some (toAsciiLowercase host) := by
  cases hm : hostAddr pool.store (toAsciiLowercase host) with
  | some ip =>
    rw [lookup_of_mapped hm, addrHost_afterRead]
    exact (hp _ ip).mp hm
  | none =>
    rw [lookup_of_unmapped hm]
    exact addrHost_allocate_self (paired_afterRead hp host) (by simpa using hm)

theorem addrHost_lookup_le {host o : Text}
    {ip : IpAddr} (hm : addrHost (pool.lookup host).2.store ip = some o) :
    ip = (pool.lookup host).1 ∨ addrHost pool.store ip = some o := by
  cases hk : hostAddr pool.store (toAsciiLowercase host) with
  | some ex =>
    rw [lookup_of_mapped hk, addrHost_afterRead] at hm
    exact Or.inr hm
  | none =>
    rw [lookup_of_unmapped hk] at hm ⊢
    rcases addrHost_allocate_le (paired_afterRead hp host) (by simpa using hk) hm
      with hs | ho
    · exact Or.inl hs
    · rw [addrHost_afterRead] at ho
      exact Or.inr ho

end

theorem hostAddr_lookBack (pool : Pool σ) (ip : IpAddr) :
    hostAddr (pool.lookBack ip).2.store = hostAddr pool.store := by
  unfold lookBack
  split
  · rfl
  · exact LawfulStore.hostAddr_getByIp _ _

theorem addrHost_lookBack (pool : Pool σ) (ip : IpAddr) :
    addrHost (pool.lookBack ip).2.store = addrHost pool.store := by
  unfold lookBack
  split
  · rfl
  · exact LawfulStore.addrHost_getByIp _ _

theorem addrHost_flush_eq (pool : Pool σ) : addrHost pool.flush.store = fun _ => none := by
  unfold flush
  dsimp only
  split
  · rw [LawfulStore.addrHost_putState, LawfulStore.addrHost_flush]
  · exact LawfulStore.addrHost_flush pool.store

theorem paired_pool_flush (pool : Pool σ) : Paired pool.flush.store := by
  have hf := LawfulStore.paired_flush pool.store
  unfold flush
  dsimp only
  split
  · rw [Paired, LawfulStore.hostAddr_putState, LawfulStore.addrHost_putState]
    exact hf
  · exact hf

theorem paired_perform (hp : Paired pool.store) (call : Call) :
    Paired (pool.perform call).store := by
  cases call with
  | lookup host => exact paired_lookup hp host
  | lookBack ip =>
    change Paired (pool.lookBack ip).2.store
    rw [Paired, hostAddr_lookBack, addrHost_lookBack]
    exact hp
  | flush => exact paired_pool_flush pool

theorem InRange.lookup (hr : InRange pool) (hc : Cursor pool)
    (hp : Paired pool.store) (host : Text) : InRange (pool.lookup host).2 := by
  intro ip o hm
  rw [ipnet_lookup]
  rcases addrHost_lookup_le hp hm with rfl | ho
  · exact allocatable_lookup hc hp hr host
  · exact hr ip o ho

theorem InRange.perform (hr : InRange pool) (hc : Cursor pool)
    (hp : Paired pool.store) (call : Call) : InRange (pool.perform call) := by
  cases call with
  | lookup host => exact hr.lookup hc hp host
  | lookBack ip =>
    intro o host hm
    change addrHost (pool.lookBack ip).2.store o = some host at hm
    have hn : (pool.lookBack ip).2.ipnet = pool.ipnet := by
      unfold lookBack
      split <;> rfl
    rw [addrHost_lookBack] at hm
    exact hn ▸ hr o host hm
  | flush =>
    intro ip host hm
    change addrHost pool.flush.store ip = some host at hm
    rw [addrHost_flush_eq] at hm
    cases hm

/-- What holds of a pool between calls. -/
structure Valid (pool : Pool σ) : Prop where
  cursor : Cursor pool
  paired : Paired pool.store
  inRange : InRange pool

theorem Valid.perform (hv : Valid pool) (call : Call) : Valid (pool.perform call) :=
  ⟨hv.cursor.perform call, paired_perform hv.paired call,
    hv.inRange.perform hv.cursor hv.paired call⟩

theorem Valid.performAll (hv : Valid pool) (calls : List Call) : Valid (pool.performAll calls) := by
  induction calls generalizing pool with
  | nil => exact hv
  | cons call calls ih => exact ih (hv.perform call)

theorem Valid.faithful (hv : Valid pool) : Faithful pool.ipnet pool where
  inverse := hv.paired
  inRange host ip hm := hv.inRange ip host ((hv.paired host ip).mp hm)
  existing host ip hm := by rw [lookup_of_mapped hm]
  lookBack_lookup host := by
    have ha := allocatable_lookup hv.cursor hv.paired hv.inRange host
    rw [← ipnet_lookup pool host] at ha
    rw [lookBack_of_allocatable (hv.cursor.lookup host) ha]
    exact addrHost_lookup hv.paired host

/-- A pool over an empty store keeps its promises along every sequence of calls. -/
theorem faithful_of_empty {net : IpNet} (hr : net.network.toNat + 4 < net.broadcast.toNat)
    {store : σ} (hp : Paired store) (he : ∀ ip, addrHost store ip = none) :
    ∃ pool, new net store = .ok pool ∧ ∀ calls, Faithful net (pool.performAll calls) := by
  obtain ⟨pool, hn, rfl, rfl, hc⟩ := new_of_roomy hr store
  refine ⟨pool, hn, fun calls => ?_⟩
  have hi : Valid pool := by
    refine ⟨hc, hp, fun ip host hm => ?_⟩
    rw [he ip] at hm
    cases hm
  rw [← ipnet_performAll pool calls]
  exact (hi.performAll calls).faithful

end Lawful

/-- Over every network with an address to allocate, a pool on an in-memory store of any capacity and
a pool on a fresh file store are faithful after every sequence of calls. -/
theorem performAll_faithful (net : IpNet) (roomy : net.network.toNat + 4 < net.broadcast.toNat) :
    (∀ size, ∃ pool, new net (MemoryStore.new size) = .ok pool ∧
      ∀ calls, Faithful net (pool.performAll calls)) ∧
    (∃ pool, new net (FileStore.fromSnapshot .default) = .ok pool ∧
      ∀ calls, Faithful net (pool.performAll calls)) := by
  constructor
  · intro size
    refine faithful_of_empty roomy ?_ fun ip => ?_
    · rw [Paired, MemoryStore.hostAddr_eq, MemoryStore.addrHost_eq]
      exact InverseMaps.inverse_none
    · rw [MemoryStore.addrHost_eq]
      rfl
  · exact faithful_of_empty roomy InverseMaps.inverse_none fun ip => rfl

theorem performAll_faithful_smallest :
    ∃ pool, new ⟨.v4 0xc6120000#32, 29, by decide⟩ (MemoryStore.new 1) = .ok pool ∧
      Faithful ⟨.v4 0xc6120000#32, 29, by decide⟩
        (pool.performAll [.lookup (ofString "A.com"), .flush, .lookup (ofString "b")]) := by
  obtain ⟨pool, hn, hf⟩ := (performAll_faithful ⟨.v4 0xc6120000#32, 29, by decide⟩ (by decide)).1 1
  exact ⟨pool, hn, hf _⟩

end Pool

end MeowRs.FakeIp
