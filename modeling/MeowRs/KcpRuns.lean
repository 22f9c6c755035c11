import MeowRs.ActionRuns
import MeowRs.KcpReceiving

/-!
# Two endpoints over a lossy network

Each side may at any moment send, set its clock, flush, receive, or be handed any datagram that the
other side ever wrote, so the network may drop, repeat, delay and reorder datagrams.  The state also
records what the users see: the bytes accepted by `send` and returned by `recv`, and how many
segments were given a sequence number.
-/

namespace MeowRs.KcpGo

open Function

open ActionRuns

inductive Side where
  | client
  | server
  deriving DecidableEq

def Side.other : Side → Side
  | .client => .server
  | .server => .client

@[simp]
theorem Side.other_other (side : Side) : side.other.other = side := by
  cases side <;> rfl

theorem Side.other_ne (side : Side) : side.other ≠ side := by
  cases side <;> decide

theorem Side.eq_or (side a : Side) : a = side ∨ a = side.other := by
  cases side <;> cases a <;> decide

variable {configs : Side → Config}

structure System (configs : Side → Config) where
  kcp : (side : Side) → Kcp (configs side)
  accepted : Side → Bytes
  received : Side → Bytes
  segments : Side → ℕ

def System.initial (configs : Side → Config) (starts : Side → UInt32) : System configs where
  kcp := fun side => Kcp.new (configs side) (starts side) (starts side.other)
  accepted := fun _ => []
  received := fun _ => []
  segments := fun _ => 0

/-- The side goes on with `kcp`, having accepted the bytes `sent` and returned the bytes `got`. -/
def System.act (system : System configs) (side : Side) (kcp : Kcp (configs side))
    (sent got : Bytes) : System configs where
  kcp := update system.kcp side kcp
  accepted := update system.accepted side (system.accepted side ++ sent)
  received := update system.received side (system.received side ++ got)
  segments := update system.segments side
    (system.segments side + ((system.kcp side).sndQueue.length - kcp.sndQueue.length))

inductive Action where
  | send (side : Side) (buf : Bytes)
  | update (side : Side) (current : UInt32)
  | flush (side : Side)
  | flushAck (side : Side)
  | input (side : Side) (index : ℕ) (regular ackNodelay : Bool)
  | recv (side : Side) (room : ℕ)

def step (system : System configs) : Action → Option (System configs)
  | .send side buf =>
    let result := (system.kcp side).send buf
    some (system.act side result.1 (Sending.taken buf result.2) [])
  | .update side current => some (system.act side ((system.kcp side).update current) [] [])
  | .flush side => some (system.act side (system.kcp side).flush.1 [] [])
  | .flushAck side => some (system.act side (system.kcp side).flushAckOnly.1 [] [])
  | .input side index regular ackNodelay =>
    (system.kcp side.other).output[index]?.map fun datagram =>
      system.act side ((system.kcp side).input datagram regular ackNodelay).1 [] []
  | .recv side room =>
    let result := (system.kcp side).recv room
    some (system.act side result.1 [] (handed result.2))

/-- The connection cuts the buffer of every write to what 255 segments hold. -/
def Capped (configs : Side → Config) : Action → Prop
  | .send side buf => buf.length ≤ 255 * (configs side).mss
  | .update _ _ => True
  | .flush _ => True
  | .flushAck _ => True
  | .input _ _ _ _ => True
  | .recv _ _ => True

/-- The direction that starts at `side`. -/
def Linked (starts : Side → UInt32) (side : Side) (system : System configs) : Prop :=
  ∃ payloads : List Bytes, payloads.length = system.segments side ∧
    Sending (configs side) (starts side) payloads (system.accepted side)
      (system.kcp side).outgoing ∧
    Receiving (starts side) payloads (system.received side.other) (system.kcp side.other).inbound

variable {starts : Side → UInt32} {side : Side} {sys : System configs}

theorem linked_initial (configs : Side → Config) (starts : Side → UInt32) (side : Side) :
    Linked starts side (System.initial configs starts) := by
  refine ⟨[], rfl, Sending.initial _ _ _, ?_⟩
  change Receiving (starts side) [] []
    (Kcp.new (configs side.other) (starts side.other) (starts side.other.other)).inbound
  rw [Side.other_other]
  exact Receiving.initial _ _ _

theorem segments_act_le (sys : System configs) (side a : Side) (kcp : Kcp (configs a))
    (sent got : Bytes) : sys.segments side ≤ (sys.act a kcp sent got).segments side := by
  simp only [System.act]
  by_cases hs : side = a
  · subst hs
    simp
  · rw [update_of_ne hs]

section

variable (linked : Linked starts side sys)
  {kcp : Kcp (configs side.other)}
include linked

theorem Linked.isPrefix :
    sys.received side.other <+: sys.accepted side := by
  obtain ⟨ps, -, hs, hr⟩ := linked
  exact hr.isPrefix.trans ⟨_, hs.bytes⟩

theorem Linked.sender {kcp : Kcp (configs side)} {sent got : Bytes}
    (hk : ∀ ps, Sending (configs side) (starts side) ps (sys.accepted side)
        (sys.kcp side).outgoing →
      ∃ more : List Bytes, Sending (configs side) (starts side) (ps ++ more)
          (sys.accepted side ++ sent) kcp.outgoing ∧
        more.length = (sys.kcp side).sndQueue.length - kcp.sndQueue.length) :
    Linked starts side (sys.act side kcp sent got) := by
  obtain ⟨ps, n, hs, hr⟩ := linked
  obtain ⟨more, hst, he⟩ := hk ps hs
  refine ⟨ps ++ more, ?_, ?_, ?_⟩
  · simp [System.act, n, he]
  · simpa [System.act] using hst
  · simpa [System.act, update_of_ne side.other_ne] using hr.extend more

theorem Linked.receiver {sent got : Bytes} (hk : ∀ ps, ps.length = sys.segments side →
      Sending (configs side) (starts side) ps (sys.accepted side)
        (sys.kcp side).outgoing →
      Receiving (starts side) ps (sys.received side.other)
        (sys.kcp side.other).inbound →
      Receiving (starts side) ps (sys.received side.other ++ got) kcp.inbound) :
    Linked starts side (sys.act side.other kcp sent got) := by
  obtain ⟨ps, n, hs, hr⟩ := linked
  refine ⟨ps, ?_, ?_, ?_⟩
  · simpa [System.act, update_of_ne side.other_ne.symm] using n
  · simpa [System.act, update_of_ne side.other_ne.symm] using hs
  · simpa [System.act] using hk ps n hs hr

theorem Linked.advance {kcp : Kcp (configs side)} {got : Bytes}
    (ha : ∀ ps, Sending (configs side) (starts side) ps (sys.accepted side)
        (sys.kcp side).outgoing →
      Sending.Advances (configs side) (starts side) ps (sys.accepted side)
        (sys.kcp side).sndQueue.length kcp) : Linked starts side (sys.act side kcp [] got) := by
  refine linked.sender fun ps hs => ?_
  obtain ⟨more, hst, n⟩ := ha ps hs
  exact ⟨more, by simpa using hst, by omega⟩

theorem Linked.keep {sent : Bytes} (hs : kcp.inbound = (sys.kcp side.other).inbound) :
    Linked starts side (sys.act side.other kcp sent []) := by
  refine linked.receiver fun ps _ _ hr => ?_
  rwa [List.append_nil, hs]

end

theorem linked_of_step (str : ∀ side, (configs side).stream = true)
    (linked : Linked starts side sys) {act : Action} (capped : Capped configs act)
    (hf : sys.segments side < 2 ^ 32) {next : System configs}
    (hs : step sys act = some next) : Linked starts side next := by
  have hb {ps : List Bytes} (n : ps.length = sys.segments side) : ps.length < 2 ^ 32 := n ▸ hf
  cases act with
  | send a buf =>
    cases hs
    rcases side.eq_or a with rfl | rfl
    · refine linked.sender fun ps hse => ⟨[], ?_, ?_⟩
      · rw [List.append_nil]
        exact (hse.send (str a) capped).1
      · have := (hse.send (str a) capped).2
        simp only [List.length_nil]
        omega
    · exact linked.keep (Kcp.send_inbound _ _)
  | update a cur =>
    cases hs
    rcases side.eq_or a with rfl | rfl
    · exact linked.advance fun ps hse => hse.update cur
    · exact linked.keep (Kcp.update_inbound _ _)
  | flush a =>
    cases hs
    rcases side.eq_or a with rfl | rfl
    · exact linked.advance fun ps hse => hse.flush
    · exact linked.keep (Kcp.flush_inbound _)
  | flushAck a =>
    cases hs
    rcases side.eq_or a with rfl | rfl
    · exact linked.advance fun ps hse => hse.flushAckOnly
    · exact linked.keep (Kcp.flushAckOnly_inbound _)
  | input a i regular ackNodelay =>
    obtain ⟨dg, hwr, rfl⟩ := Option.map_eq_some_iff.mp hs
    rcases side.eq_or a with rfl | rfl
    · exact linked.advance fun ps hse => hse.input dg regular ackNodelay
    · rw [Side.other_other] at hwr
      refine linked.receiver fun ps n hse hr => ?_
      rw [List.append_nil]
      exact hr.input (hb n) (hse.sent dg (List.mem_of_getElem? hwr)) regular ackNodelay
  | recv a room =>
    cases hs
    rcases side.eq_or a with rfl | rfl
    · refine linked.advance fun ps hse => ?_
      obtain ⟨lane, hw⟩ := (sys.kcp a).recv_outbound room
      rw [← Kcp.outgoing_eq lane hw] at hse
      have q := congrArg (fun lane : Lane => lane.queue.length) lane
      exact q ▸ hse.stays
    · exact linked.receiver fun ps n _ hr => hr.recv (hb n) room

theorem segments_le_of_step {act : Action} {next : System configs} (hs : step sys act = some next)
    (side : Side) : sys.segments side ≤ next.segments side := by
  cases act with
  | input a i regular ackNodelay =>
    obtain ⟨dg, -, rfl⟩ := Option.map_eq_some_iff.mp hs
    exact segments_act_le sys side a _ _ _
  | send a _ | update a _ | flush a | flushAck a | recv a _ =>
    cases hs
    exact segments_act_le sys side a _ _ _

/-- Whatever the network does, the bytes returned by one side's `recv` are a first part of the bytes
accepted by the other side's `send`, as long as the sequence numbers of one direction do not repeat.
The windows and the clocks do not matter. -/
theorem received_isPrefix_of_capped (configs : Side → Config) (starts : Side → UInt32)
    (stream : ∀ side, (configs side).stream = true) {actions : List Action} {final : System configs}
    (capped : ∀ action ∈ actions, Capped configs action)
    (runs : run step (System.initial configs starts) actions = some final) (side : Side)
    (few : final.segments side.other < 2 ^ 32) :
    final.received side <+: final.accepted side.other := by
  have linked : final.segments side.other < 2 ^ 32 → Linked starts side.other final := by
    refine @invariant_of_meets _ _ step (fun _ => Capped configs)
      (fun system => system.segments side.other < 2 ^ 32 → Linked starts side.other system)
      ?_ _ final actions (fun _ => linked_initial configs starts side.other)
      (meets_of_forall fun action member _ => capped action member) runs
    intro system action next linkedBefore isCapped stepped fewNext
    have fewBefore := lt_of_le_of_lt (segments_le_of_step stepped side.other) fewNext
    exact linked_of_step stream (linkedBefore fewBefore) isCapped fewBefore stepped
  have isPrefix := (linked few).isPrefix
  rwa [Side.other_other] at isPrefix

/-- Segments of two bytes, all windows at 32. -/
def smallSegments : Config where
  conv := 7
  mtu := 26
  sndWnd := 32
  rcvWnd := 32
  nodelay := true
  interval := 10
  fastresend := 2
  nocwnd := true
  minrto := 30
  deadLink := 20
  stream := true
  mtu_gt := by decide
  mtu_le := by decide

/-- Two segments whose numbers straddle the wrap-around arrive out of order, one of them twice. -/
def reordered : List Action :=
  [.send .client [1, 2, 3], .update .client 0, .input .server 1 true false,
    .input .server 1 true false, .input .server 0 true false, .recv .server 2, .recv .server 2]

theorem observed_reordered :
    (run step (System.initial (fun _ => smallSegments) fun _ => 0xFFFFFFFF) reordered).map
        (fun final => (final.received .server, final.segments .client)) =
      some ([1, 2, 3], 2) := by
  decide +kernel

theorem received_isPrefix_of_capped_reordered :
    ∃ final, run step (System.initial (fun _ => smallSegments) fun _ => 0xFFFFFFFF) reordered =
        some final ∧
      final.received .server = [1, 2, 3] ∧ final.received .server <+: final.accepted .client := by
  obtain ⟨final, runs, observed⟩ := Option.map_eq_some_iff.mp observed_reordered
  obtain ⟨received, count⟩ := Prod.mk.inj observed
  refine ⟨final, runs, received, ?_⟩
  refine received_isPrefix_of_capped _ _ (fun _ => rfl) ?_ runs .server ?_
  · have short : [1, 2, 3].length ≤ 255 * smallSegments.mss := by decide
    simpa [reordered, Capped] using short
  · change final.segments .client < 2 ^ 32
    rw [count]
    decide

end MeowRs.KcpGo
