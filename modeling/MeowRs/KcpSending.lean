import MeowRs.KcpWire
import MeowRs.KcpFrames

/-!
# The sending direction of an endpoint

The payloads that were given a sequence number form a list: the segment numbered `base + k` carries
the `k`-th of them whenever it is on the wire, however often it is sent.  The bytes accepted from
the user are those payloads followed by what is still queued.
-/

namespace MeowRs.KcpGo

open List Option Nat

/-- The part of an endpoint that its sending direction consists of. -/
structure Outgoing where
  nxt : UInt32
  buffer : List KcpSegment
  queue : List KcpSegment
  buf : Bytes
  output : List Bytes

def Kcp.outgoing {config : Config} (kcp : Kcp config) : Outgoing :=
  ⟨kcp.sndNxt, kcp.sndBuf, kcp.sndQueue, kcp.buf, kcp.output⟩

theorem Kcp.outgoing_eq {config : Config} {one o : Kcp config} (hl : one.outbound = o.outbound)
    (hs : one.wire = o.wire) : one.outgoing = o.outgoing := by
  simp only [outbound, wire, Prod.mk.injEq, Lane.mk.injEq] at hl hs
  obtain ⟨hn, buffer, q⟩ := hl
  obtain ⟨buf, output⟩ := hs
  simp only [outgoing, hn, buffer, q, buf, output]

theorem Kcp.outgoing_congr {config : Config} {one o : Kcp config}
    (f : one.queues = o.queues ∧ one.wire = o.wire) : one.outgoing = o.outgoing :=
  outgoing_eq (congrArg Prod.fst f.1) f.2

theorem Config.mss_lt (config : Config) : config.mss < 2 ^ 32 := by
  have := config.mtu_le
  simp only [Config.mss, kcpOverhead] at *
  omega

def Carries (base : UInt32) (payloads : List Bytes) (segment : KcpSegment) : Prop :=
  segment.frg = 0 ∧
    ∃ index, segment.sn = base + UInt32.ofNat index ∧ payloads[index]? = some segment.data

/-- The segment can be read back, and carries its payload if it carries one. -/
def Sendable (base : UInt32) (payloads : List Bytes) (segment : KcpSegment) : Prop :=
  segment.data.length < 2 ^ 32 ∧ (segment.cmd = kcpCmdPush → Carries base payloads segment)

def Datagram (base : UInt32) (payloads : List Bytes) (bytes : Bytes) : Prop :=
  ∃ segments : List KcpSegment, bytes = segments.flatMap KcpSegment.encode ∧
    ∀ segment ∈ segments, Sendable base payloads segment

structure Sending (config : Config) (base : UInt32) (payloads : List Bytes) (accepted : Bytes)
    (side : Outgoing) : Prop where
  next : side.nxt = base + UInt32.ofNat payloads.length
  short : ∀ payload ∈ payloads, payload.length < 2 ^ 32
  buffered : ∀ segment ∈ side.buffer, segment.acked = false → Carries base payloads segment
  queued : ∀ segment ∈ side.queue, segment.frg = 0 ∧ segment.data.length ≤ config.mss
  bytes : payloads.flatten ++ side.queue.flatMap KcpSegment.data = accepted
  pending : Datagram base payloads side.buf
  sent : ∀ datagram ∈ side.output, Datagram base payloads datagram

section Extend

variable {base : UInt32} {ps : List Bytes}

theorem Carries.extend {seg : KcpSegment} (hc : Carries base ps seg)
    (more : List Bytes) : Carries base (ps ++ more) seg := by
  obtain ⟨hl, i, n, p⟩ := hc
  refine ⟨hl, i, n, ?_⟩
  rw [List.getElem?_append_left, p]
  exact (List.getElem?_eq_some_iff.mp p).1

theorem Datagram.extend {bs : Bytes} (dg : Datagram base ps bs)
    (more : List Bytes) : Datagram base (ps ++ more) bs := by
  obtain ⟨segs, he, hs⟩ := dg
  refine ⟨segs, he, fun seg hm => ⟨(hs seg hm).1, fun hp => ?_⟩⟩
  exact ((hs seg hm).2 hp).extend more

theorem Datagram.nil : Datagram base ps [] :=
  ⟨[], rfl, by simp⟩

theorem Datagram.append {bs : Bytes} (dg : Datagram base ps bs) {seg : KcpSegment}
    (hs : Sendable base ps seg) : Datagram base ps (bs ++ seg.encode) := by
  obtain ⟨segs, he, ha⟩ := dg
  refine ⟨segs ++ [seg], by simp [he], fun o hm => ?_⟩
  rcases mem_append.mp hm with hp | hl
  · exact ha o hp
  · cases mem_singleton.mp hl
    exact hs

end Extend

namespace Sending

variable {config : Config} {base : UInt32} {ps : List Bytes} {acc : Bytes}

theorem initial (config : Config) (base start : UInt32) :
    Sending config base [] [] (Kcp.new config base start).outgoing where
  next := (UInt32.add_zero base).symm
  short := by simp
  buffered := by simp [Kcp.new, Kcp.outgoing]
  queued := by simp [Kcp.new, Kcp.outgoing]
  bytes := rfl
  pending := Datagram.nil
  sent := by simp [Kcp.new, Kcp.outgoing]

theorem length_lt {side : Outgoing} (send : Sending config base ps acc side) {seg : KcpSegment}
    (hc : Carries base ps seg) : seg.data.length < 2 ^ 32 := by
  obtain ⟨-, i, -, p⟩ := hc
  exact send.short _ (mem_of_getElem? p)

section Writing

variable {kcp : Kcp config} {seg : KcpSegment}

section

variable (send : Sending config base ps acc kcp.outgoing)
include send

theorem writeOut :
    Sending config base ps acc
      ⟨kcp.sndNxt, kcp.sndBuf, kcp.sndQueue, [], kcp.output ++ [kcp.buf]⟩ := by
  refine ⟨send.next, send.short, send.buffered, send.queued, send.bytes,
    Datagram.nil, fun dg hm => ?_⟩
  rcases mem_append.mp hm with hp | hl
  · exact send.sent dg hp
  · cases mem_singleton.mp hl
    exact send.pending

theorem makeRoom (need : ℕ) : Sending config base ps acc (kcp.makeRoom need).outgoing := by
  rw [Kcp.makeRoom]
  split_ifs
  · exact send.writeOut
  · exact send

theorem put (hs : Sendable base ps seg) : Sending config base ps acc (kcp.put seg).outgoing :=
  ⟨send.next, send.short, send.buffered, send.queued, send.bytes, send.pending.append hs, send.sent⟩

theorem drainBuf :
    Sending config base ps acc kcp.drainBuf.outgoing := by
  rw [Kcp.drainBuf]
  split_ifs
  · exact send
  · exact send.writeOut

end

/-- A segment without payload, as the scratch segment of a flush is. -/
def Control (segment : KcpSegment) : Prop :=
  segment.cmd ≠ kcpCmdPush ∧ segment.data = []

theorem Control.sendable (hc : Control seg) : Sendable base ps seg :=
  ⟨by simp [hc.2], fun hp => absurd hp hc.1⟩

section

variable (send : Sending config base ps acc kcp.outgoing)
include send

theorem flushAcks (hc : Control seg) (acks : List (UInt32 × UInt32)) :
    Sending config base ps acc (kcp.flushAcks seg acks).1.outgoing ∧
      Control (kcp.flushAcks seg acks).2 := by
  induction acks generalizing kcp seg with
  | nil => exact ⟨send, hc⟩
  | cons ack rest ih =>
    obtain ⟨sn, ts⟩ := ack
    have hr := send.makeRoom kcpOverhead
    have stamped : Control { seg with sn := sn, ts := ts } := hc
    rw [Kcp.flushAcks]
    split_ifs
    · exact ih (hr.put stamped.sendable) stamped
    · exact ih hr hc

theorem flushAck (hc : Control seg) :
    Sending config base ps acc (kcp.flushAck seg).1.outgoing ∧ Control (kcp.flushAck seg).2 :=
  send.flushAcks hc kcp.acklist

theorem flushProbe {cmd : UInt8} (hp : cmd ≠ kcpCmdPush) (hco : Control seg) :
    Sending config base ps acc (kcp.flushProbe cmd seg).outgoing := by
  have hc : Control { seg with cmd := cmd } := ⟨hp, hco.2⟩
  exact (send.makeRoom kcpOverhead).put hc.sendable

theorem flushProbeCommands (hc : Control seg) :
    Sending config base ps acc (kcp.flushProbeCommands seg).outgoing := by
  have ha : kcpCmdWask ≠ kcpCmdPush := by decide
  have ht : kcpCmdWins ≠ kcpCmdPush := by decide
  simp only [Kcp.flushProbeCommands]
  split_ifs
  · exact (send.flushProbe ha hc).flushProbe ht hc
  · exact send.flushProbe ht hc
  · exact send.flushProbe ha hc
  · exact send

end

end Writing

section Numbering

variable {side : Outgoing}

theorem number {nxt : UInt32} {sent q : List KcpSegment} {seg : KcpSegment} {buf : Bytes}
    {output : List Bytes}
    (sending : Sending config base ps acc ⟨nxt, sent, seg :: q, buf, output⟩) :
    Sending config base (ps ++ [seg.data]) acc
      ⟨nxt + 1, sent ++ [{ seg with conv := config.conv, cmd := kcpCmdPush, sn := nxt }], q,
        buf, output⟩ := by
  have here := sending.queued seg mem_cons_self
  constructor
  case next =>
    have now : nxt = base + UInt32.ofNat ps.length := sending.next
    simp [now, UInt32.add_assoc]
  case short =>
    intro payload member
    rcases mem_append.mp member with prev | last
    · exact sending.short payload prev
    · cases mem_singleton.mp last
      exact lt_of_le_of_lt here.2 config.mss_lt
  case buffered =>
    intro o member pending
    rcases mem_append.mp member with prev | last
    · exact (sending.buffered o prev pending).extend _
    · cases mem_singleton.mp last
      exact ⟨here.1, ps.length, sending.next, by simp⟩
  case queued => exact fun o member => sending.queued o (mem_cons_of_mem _ member)
  case bytes => simpa using sending.bytes
  case pending => exact sending.pending.extend _
  case sent => exact fun dg member => (sending.sent dg member).extend _

theorem slide {nxt una cwnd : UInt32} {sent q : List KcpSegment} {buf : Bytes} {output : List Bytes}
    (send : Sending config base ps acc ⟨nxt, sent, q, buf, output⟩) :
    ∃ more : List Bytes, Sending config base (ps ++ more) acc
        ⟨(Kcp.slide config una cwnd q sent nxt).2.2, (Kcp.slide config una cwnd q sent nxt).2.1,
          (Kcp.slide config una cwnd q sent nxt).1, buf, output⟩ ∧
      q.length = more.length + (Kcp.slide config una cwnd q sent nxt).1.length := by
  induction q generalizing nxt sent ps with
  | nil => exact ⟨[], by simpa [Kcp.slide] using send, rfl⟩
  | cons seg rest ih =>
    rw [Kcp.slide]
    split_ifs
    · obtain ⟨more, hl, n⟩ := ih send.number
      refine ⟨seg.data :: more, by simpa using hl, ?_⟩
      simp only [length_cons, n]
      omega
    · exact ⟨[], by simpa using send, by simp⟩

end Numbering

section Buffer

/-- The segments agree in what they carry, but for acknowledged ones. -/
def Alike (one other : KcpSegment) : Prop :=
  one.acked = false →
    other.acked = false ∧ one.frg = other.frg ∧ one.sn = other.sn ∧ one.data = other.data

theorem Alike.refl (seg : KcpSegment) : Alike seg seg :=
  fun hp => ⟨hp, rfl, rfl, rfl⟩

def Stems (after before : List KcpSegment) : Prop :=
  ∀ segment ∈ after, ∃ other ∈ before, Alike segment other

theorem Stems.refl (segs : List KcpSegment) : Stems segs segs :=
  fun seg hm => ⟨seg, hm, Alike.refl seg⟩

theorem Stems.cons {one o : KcpSegment} {after pre : List KcpSegment} (ha : Alike one o)
    (hs : Stems after pre) : Stems (one :: after) (o :: pre) := by
  intro seg hm
  rcases mem_cons.mp hm with rfl | hla
  · exact ⟨o, mem_cons_self, ha⟩
  · obtain ⟨origin, hi, hl⟩ := hs seg hla
    exact ⟨origin, mem_cons_of_mem _ hi, hl⟩

theorem rebuffer {side : Outgoing} (send : Sending config base ps acc side)
    {pre after : List KcpSegment} (hs : side.buffer = pre) (hst : Stems after pre) :
    Sending config base ps acc { side with buffer := after } := by
  subst hs
  refine ⟨send.next, send.short, fun seg hm hp => ?_, send.queued,
    send.bytes, send.pending, send.sent⟩
  obtain ⟨o, hi, ha⟩ := hst seg hm
  obtain ⟨hw, hf, sn, hd⟩ := ha hp
  rw [Carries, hf, sn, hd]
  exact send.buffered o hi hw

theorem stems_markAcked (sn : UInt32) (buf : List KcpSegment) :
    Stems (Kcp.markAcked sn buf) buf := by
  induction buf with
  | nil => exact Stems.refl []
  | cons seg rest ih =>
    rw [Kcp.markAcked]
    split_ifs
    · exact Stems.cons (nofun) (Stems.refl rest)
    · exact Stems.refl _
    · exact Stems.cons (Alike.refl seg) ih

theorem stems_countFastack (fastresend sn ts : UInt32) (buf : List KcpSegment) :
    Stems (Kcp.countFastack fastresend sn ts buf).1 buf := by
  induction buf with
  | nil => exact Stems.refl []
  | cons seg rest ih =>
    rw [Kcp.countFastack]
    split_ifs
    · exact Stems.refl _
    · exact Stems.cons (fun hp => ⟨hp, rfl, rfl, rfl⟩) ih
    · exact Stems.cons (Alike.refl seg) ih

theorem stems_dropWhile (passed : KcpSegment → Bool) (buf : List KcpSegment) :
    Stems (buf.dropWhile passed) buf :=
  fun seg hm => ⟨seg, (dropWhile_sublist passed).subset hm, Alike.refl seg⟩

variable {kcp : Kcp config}

theorem schedule_carried (resend : Kcp.Resend) (seg : KcpSegment) :
    (kcp.schedule resend seg).frg = seg.frg ∧ (kcp.schedule resend seg).sn = seg.sn ∧
      (kcp.schedule resend seg).data = seg.data := by
  cases resend <;> exact ⟨rfl, rfl, rfl⟩

theorem acked_of_resend {resent : UInt32} {newSegs : ℕ} {seg : KcpSegment}
    (hr : kcp.resendOf resent newSegs seg ≠ .none) : seg.acked = false := by
  by_contra acked
  simp [Kcp.resendOf, acked] at hr

variable (send : Sending config base ps acc kcp.outgoing)
include send

theorem transmit (wnd : UInt16) {seg : KcpSegment} (hc : Carries base ps seg) :
    Sending config base ps acc (kcp.transmit wnd seg).1.outgoing := by
  have hs : Sendable base ps
      { seg with xmit := seg.xmit + 1, ts := kcp.current, wnd := wnd, una := kcp.rcvNxt } :=
    ⟨send.length_lt hc, fun _ => hc⟩
  exact (send.makeRoom _).put hs

/-- The retransmission pass writes only segments that carry their payloads. -/
theorem transmitAll {wnd : UInt16} {resent : UInt32} {newSegs : ℕ} {buf : List KcpSegment}
    (hca : ∀ seg ∈ buf, seg.acked = false → Carries base ps seg) :
    Sending config base ps acc
        (kcp.transmitAll wnd resent newSegs buf).1.outgoing ∧
      Stems (kcp.transmitAll wnd resent newSegs buf).2.1 buf := by
  induction buf generalizing kcp with
  | nil => exact ⟨send, Stems.refl []⟩
  | cons seg rest ih =>
    have later := fun o hm => hca o (mem_cons_of_mem seg hm)
    by_cases hn : kcp.resendOf resent newSegs seg = .none
    · simp only [Kcp.transmitAll, if_pos hn]
      obtain ⟨sent, hs⟩ := ih send later
      exact ⟨sent, Stems.cons (Alike.refl seg) hs⟩
    · simp only [Kcp.transmitAll, if_neg hn]
      have hp := acked_of_resend hn
      obtain ⟨hf, sn, hd⟩ := schedule_carried (kcp.resendOf resent newSegs seg) seg
      have hc : Carries base ps
          (kcp.schedule (kcp.resendOf resent newSegs seg) seg) := by
        rw [Carries, hf, sn, hd]
        exact hca seg mem_cons_self hp
      obtain ⟨sent, hs⟩ := ih (send.transmit wnd hc) later
      exact ⟨sent, Stems.cons (fun _ => ⟨hp, hf, sn, hd⟩) hs⟩

theorem retransmit (wnd : UInt16) (resent : UInt32) (newSegs : ℕ) :
    Sending config base ps acc
      { (kcp.transmitAll wnd resent newSegs kcp.sndBuf).1.outgoing with
        buffer := (kcp.transmitAll wnd resent newSegs kcp.sndBuf).2.1 } := by
  have hk := congrArg (fun queues => queues.1.buffer)
    (kcp.transmitAll_queues wnd resent newSegs kcp.sndBuf)
  obtain ⟨hs, hst⟩ := send.transmitAll send.buffered
  exact hs.rebuffer hk hst

end Buffer

section Flush

variable {kcp : Kcp config}

theorem flushControl (send : Sending config base ps acc kcp.outgoing) :
    Sending config base ps acc kcp.flushControl.outgoing := by
  have hc : Control
      { conv := config.conv, cmd := kcpCmdAck, wnd := kcp.wndUnused, una := kcp.rcvNxt } :=
    ⟨show kcpCmdAck ≠ kcpCmdPush by decide, rfl⟩
  obtain ⟨ha, hs⟩ := send.flushAck hc
  refine flushProbeCommands ?_ hs
  rwa [Kcp.outgoing_congr (Kcp.probeWndSize_frame _)]

/-- Some of the segments queued before were given sequence numbers; nothing else changed about what
is to be sent. -/
def Advances (config : Config) (base : UInt32) (payloads : List Bytes) (accepted : Bytes)
    (queued : ℕ) (kcp : Kcp config) : Prop :=
  ∃ more : List Bytes, Sending config base (payloads ++ more) accepted kcp.outgoing ∧
    queued = more.length + kcp.sndQueue.length

section

variable (send : Sending config base ps acc kcp.outgoing)
include send

theorem stays :
    Advances config base ps acc kcp.sndQueue.length kcp :=
  ⟨[], by rwa [append_nil], (zero_add _).symm⟩

theorem flushInner (kind : FlushType) :
    Advances config base ps acc kcp.sndQueue.length (kcp.flushInner kind) := by
  have q : kcp.flushControl.sndQueue = kcp.sndQueue :=
    congrArg (fun queues => queues.1.queue) kcp.flushControl_queues
  obtain ⟨more, hn, n⟩ := @slide _ _ _ _ _ kcp.flushControl.sndUna
    kcp.flushControl.flushWindow _ _ _ _ send.flushControl
  refine ⟨more, ?_, ?_⟩
  · cases kind with rw [Kcp.flushInner, Kcp.outgoing_congr (Kcp.adjustWindow_frame _ _ _ _ _)]
    | ackOnly =>
      exact hn.drainBuf
    | full =>
      exact drainBuf (hn.retransmit _ _ _)
  · rw [← q, (kcp.flushInner_frame kind).2.1]
    exact n

theorem flush :
    Advances config base ps acc kcp.sndQueue.length kcp.flush.1 := by
  rw [Kcp.flush]
  split_ifs
  · exact send.flushInner .full
  · exact send.stays

theorem flushAckOnly :
    Advances config base ps acc kcp.sndQueue.length kcp.flushAckOnly.1 := by
  rw [Kcp.flushAckOnly]
  split_ifs
  · exact send.flushInner .ackOnly
  · exact send.stays

theorem of_frame {tuned : Kcp config} (f : tuned.queues = kcp.queues ∧ tuned.wire = kcp.wire) :
    Sending config base ps acc tuned.outgoing ∧
      tuned.sndQueue.length = kcp.sndQueue.length := by
  refine ⟨by rwa [Kcp.outgoing_congr f], ?_⟩
  exact congrArg (fun queues => queues.1.queue.length) f.1

theorem update (cur : UInt32) :
    Advances config base ps acc kcp.sndQueue.length (kcp.update cur) := by
  obtain ⟨timed, f, hf | hk⟩ := kcp.update_cases cur
  · obtain ⟨hp, n⟩ := send.of_frame f
    rw [hf, ← n]
    exact hp.flush
  · obtain ⟨hp, n⟩ := send.of_frame f
    rw [hk, ← n]
    exact hp.stays

theorem finishInput (oldUna : UInt32) (scan : Kcp.Scan) (regular ackNodelay : Bool) :
    Advances config base ps acc kcp.sndQueue.length
      (kcp.finishInput oldUna scan regular ackNodelay) := by
  obtain ⟨tuned, f, ⟨kind, hf⟩ | hk⟩ := kcp.finishInput_cases oldUna scan regular ackNodelay
  · obtain ⟨hp, n⟩ := send.of_frame f
    rw [hf, ← n]
    exact hp.flushInner kind
  · obtain ⟨hp, n⟩ := send.of_frame f
    rw [hk, ← n]
    exact hp.stays

end

end Flush

section Input

variable {kcp : Kcp config}

section

variable (send : Sending config base ps acc kcp.outgoing)
include send

theorem parseUna (una : UInt32) : Sending config base ps acc (kcp.parseUna una).1.outgoing :=
  send.rebuffer rfl (stems_dropWhile _ kcp.sndBuf)

theorem parseAck (sn : UInt32) : Sending config base ps acc (kcp.parseAck sn).outgoing := by
  rw [Kcp.parseAck]
  split_ifs
  · exact send
  · exact send.rebuffer rfl (stems_markAcked sn kcp.sndBuf)

theorem parseFastack (sn ts : UInt32) :
    Sending config base ps acc (kcp.parseFastack sn ts).1.outgoing := by
  rw [Kcp.parseFastack]
  split_ifs
  · exact send
  · exact send.rebuffer rfl (stems_countFastack config.fastresend sn ts kcp.sndBuf)

theorem hear (regular : Bool) (seg : KcpSegment) :
    Sending config base ps acc (kcp.hear regular seg).1.outgoing := by
  have hh : Sending config base ps acc
      (if regular then { kcp with rmtWnd := seg.wnd.toUInt32 } else kcp).outgoing := by
    split_ifs <;> exact send
  rw [Kcp.hear, Kcp.outgoing_congr (Kcp.shrinkBuf_frame _)]
  exact hh.parseUna seg.una

theorem dispatch (scan : Kcp.Scan) (seg : KcpSegment) :
    Sending config base ps acc (kcp.dispatch scan seg).1.outgoing := by
  rcases kcp.dispatch_cases scan seg with ha | ⟨-, hp⟩ | hs
  · rw [ha]
    exact (send.parseAck seg.sn).parseFastack seg.sn seg.ts
  · obtain ⟨hl, hw⟩ := Kcp.parseData_outbound (kcp.ackPush seg.sn seg.ts) seg
    rw [hp, Kcp.outgoing_eq hl hw]
    exact send
  · rwa [Kcp.outgoing_congr hs]

/-- An inbound datagram, whatever it holds, does not change what is to be sent. -/
theorem input (buf : Bytes) (regular ackNodelay : Bool) :
    Advances config base ps acc kcp.sndQueue.length
      (kcp.input buf regular ackNodelay).1 := by
  obtain ⟨hs, q⟩ := @Kcp.inputLoop_of_segments config
    (fun o => Sending config base ps acc o.outgoing ∧ o.sndQueue = kcp.sndQueue) regular
    (fun o scan seg hp =>
      ⟨(hp.1.hear regular seg).dispatch _ seg,
        (o.inputSegment_sndQueue regular scan seg).trans hp.2⟩)
    buf.length kcp ⟨send, rfl⟩ ⟨false, 0, false⟩ buf
  rcases kcp.input_cases buf regular ackNodelay with hr | hfa | ⟨scan, hf⟩
  · rw [hr]
    exact send.stays
  · rw [hfa, ← q]
    exact hs.stays
  · rw [hf, ← q]
    exact hs.finishInput kcp.sndUna scan regular ackNodelay

end

end Input

section Send

variable {kcp : Kcp config} {q : List KcpSegment}

def room (config : Config) (queue : List KcpSegment) : ℕ :=
  match queue.getLast? with
  | none => 0
  | some old => config.mss - old.data.length

/-- A segment as `send` queues it in stream mode. -/
def Queued (config : Config) (segment : KcpSegment) : Prop :=
  segment.frg = 0 ∧ segment.data.length ≤ config.mss

theorem extendLast_spec (hq : ∀ seg ∈ q, Queued config seg) (buf : Bytes) :
    (Kcp.extendLast config q buf).1.flatMap KcpSegment.data =
        q.flatMap KcpSegment.data ++ buf.take (room config q) ∧
      (Kcp.extendLast config q buf).2 = buf.drop (room config q) ∧
      (∀ seg ∈ (Kcp.extendLast config q buf).1, Queued config seg) ∧
      (Kcp.extendLast config q buf).1.length = q.length := by
  rcases eq_nil_or_concat q with rfl | ⟨prev, old, rfl⟩
  · simp [Kcp.extendLast, room]
  · rw [concat_eq_append] at hq ⊢
    simp only [Kcp.extendLast, room, getLast?_append, getLast?_singleton, some_or]
    split_ifs with hro
    · have hle : buf.take (min buf.length (config.mss - old.data.length)) =
          buf.take (config.mss - old.data.length) := by
        rw [min_comm, ← take_take, take_length]
      have hr : buf.drop (min buf.length (config.mss - old.data.length)) =
          buf.drop (config.mss - old.data.length) := by
        rcases le_total buf.length (config.mss - old.data.length) with hs | long
        · rw [min_eq_left hs, drop_length, drop_eq_nil_of_le hs]
        · rw [min_eq_right long]
      refine ⟨?_, hr, fun seg hm => ?_, ?_⟩
      · simp [hle]
      · simp only [dropLast_concat] at hm
        rcases mem_append.mp hm with hp | hl
        · exact hq seg (mem_append_left _ hp)
        · cases mem_singleton.mp hl
          refine ⟨rfl, ?_⟩
          simp only [length_append, length_take]
          omega
      · simp
    · have full : config.mss - old.data.length = 0 := by omega
      simpa [full] using hq

theorem fragments_spec (str : config.stream = true) (n : ℕ) (buf : Bytes) :
    (Kcp.fragments config n buf).flatMap KcpSegment.data = buf.take (n * config.mss) ∧
      ∀ seg ∈ Kcp.fragments config n buf, Queued config seg := by
  induction n generalizing buf with
  | zero => simp [Kcp.fragments]
  | succ n ih =>
    obtain ⟨bs, hs⟩ := ih (buf.drop config.mss)
    refine ⟨?_, fun seg hm => ?_⟩
    · rw [Kcp.fragments, flatMap_cons, bs, succ_mul, add_comm]
      exact (take_add).symm
    · rcases mem_cons.mp hm with rfl | hl
      · exact ⟨by simp [str], by simp⟩
      · exact hs seg hl

theorem le_fragmentCount_mul (len : ℕ) : len ≤ Kcp.fragmentCount config len * config.mss := by
  have hp : 0 < config.mss := Nat.sub_pos_of_lt config.mtu_gt
  rw [Kcp.fragmentCount]
  split_ifs with hs
  · omega
  · have hc := div_add_mod (len + config.mss - 1) config.mss
    have hsm := mod_lt (len + config.mss - 1) hp
    rw [mul_comm] at hc
    omega

theorem fragmentCount_le {len : ℕ} (hf : len ≤ 255 * config.mss) :
    Kcp.fragmentCount config len ≤ 255 := by
  rw [Kcp.fragmentCount]
  split_ifs with hs
  · omega
  · refine Nat.le_of_lt_succ (Nat.div_lt_of_lt_mul ?_)
    omega

/-- The bytes of a buffer that a call of `send` accepted. -/
def taken (buf : Bytes) : Except KcpError ℕ → Bytes
  | .ok size => buf.take size
  | .error _ => []

theorem requeue {side : Outgoing} (send : Sending config base ps acc side) {more : Bytes}
    (bs : q.flatMap KcpSegment.data = side.queue.flatMap KcpSegment.data ++ more)
    (hq : ∀ seg ∈ q, Queued config seg) :
    Sending config base ps (acc ++ more) { side with queue := q } := by
  refine ⟨send.next, send.short, send.buffered, hq, ?_, send.pending, send.sent⟩
  rw [← send.bytes, bs, append_assoc]

/-- `send` in stream mode queues what it accepts of a buffer that 255 segments have room for. -/
theorem send (str : config.stream = true) (hs : Sending config base ps acc kcp.outgoing)
    {buf : Bytes} (capped : buf.length ≤ 255 * config.mss) :
    Sending config base ps (acc ++ taken buf (kcp.send buf).2)
        (kcp.send buf).1.outgoing ∧
      kcp.sndQueue.length ≤ (kcp.send buf).1.sndQueue.length := by
  obtain ⟨bs, hr, hq, n⟩ := @extendLast_spec config kcp.sndQueue hs.queued buf
  simp only [Kcp.send, str, if_true]
  split_ifs with empty whole large
  · exact ⟨by simpa [taken] using hs, le_refl _⟩
  · have all : buf.take (room config kcp.sndQueue) = buf := by
      rw [hr, List.isEmpty_iff, List.drop_eq_nil_iff] at whole
      exact take_of_length_le whole.2
    rw [all] at bs
    rw [isEmpty_iff.mp whole.2, length_nil, Nat.sub_zero, taken, take_length]
    exact ⟨hs.requeue bs hq, n.ge⟩
  · -- The bytes that are left after the last queued segment is full do not need more segments.
    rw [hr, length_drop] at large
    exact absurd (fragmentCount_le (by omega)) (not_le_of_gt large)
  · obtain ⟨cut, short⟩ := fragments_spec str
      (Kcp.fragmentCount config (Kcp.extendLast config kcp.sndQueue buf).2.length)
      (Kcp.extendLast config kcp.sndQueue buf).2
    rw [take_of_length_le (le_fragmentCount_mul _)] at cut
    refine ⟨hs.requeue ?_ fun seg mem => ?_, ?_⟩
    · rw [flatMap_append, bs, cut, hr, taken, take_length, append_assoc, take_append_drop]
      rfl
    · exact (mem_append.mp mem).elim (hq seg) (short seg)
    · rw [length_append, n]
      exact le_add_right _ _

end Send

end Sending

end MeowRs.KcpGo
