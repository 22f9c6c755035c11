import MeowRs.KcpGo

/-!
# What the operations leave alone

Writing datagrams, estimating round trips and adjusting windows do not touch the queues of segments.
A flush only moves segments from `snd_queue` to `snd_buf`.
-/

namespace MeowRs.KcpGo


/-- The next sequence number of a direction, the segments that have a number and the others. -/
structure Lane where
  nxt : UInt32
  buffer : List KcpSegment
  queue : List KcpSegment

namespace Kcp

variable {config : Config}

def outbound (kcp : Kcp config) : Lane :=
  ⟨kcp.sndNxt, kcp.sndBuf, kcp.sndQueue⟩

def inbound (kcp : Kcp config) : Lane :=
  ⟨kcp.rcvNxt, kcp.rcvBuf, kcp.rcvQueue⟩

def queues (kcp : Kcp config) : Lane × Lane :=
  (kcp.outbound, kcp.inbound)

/-- The datagrams written and the one under construction. -/
def wire (kcp : Kcp config) : Bytes × List Bytes :=
  (kcp.buf, kcp.output)

theorem inbound_of_queues {one o : Kcp config} (hs : one.queues = o.queues) :
    one.inbound = o.inbound :=
  congrArg Prod.snd hs

section Estimates

variable (kcp : Kcp config)

theorem updateAck_frame (rtt : Int32) :
    (kcp.updateAck rtt).queues = kcp.queues ∧ (kcp.updateAck rtt).wire = kcp.wire := by
  simp only [updateAck, queues, outbound, inbound, wire]
  split_ifs <;> exact ⟨rfl, rfl⟩

theorem probeWndSize_frame :
    kcp.probeWndSize.queues = kcp.queues ∧ kcp.probeWndSize.wire = kcp.wire := by
  simp only [probeWndSize, queues, outbound, inbound, wire]
  split_ifs <;> exact ⟨rfl, rfl⟩

theorem adjustWindow_frame (cwnd resent : UInt32) (change : ℕ) (lost : Bool) :
    (kcp.adjustWindow cwnd resent change lost).queues = kcp.queues ∧
      (kcp.adjustWindow cwnd resent change lost).wire = kcp.wire := by
  simp only [adjustWindow, queues, outbound, inbound, wire]
  split_ifs <;> exact ⟨rfl, rfl⟩

theorem growWindow_frame (oldUna : UInt32) :
    (kcp.growWindow oldUna).queues = kcp.queues ∧ (kcp.growWindow oldUna).wire = kcp.wire := by
  simp only [growWindow, queues, outbound, inbound, wire]
  split_ifs <;> exact ⟨rfl, rfl⟩

theorem shrinkBuf_frame :
    kcp.shrinkBuf.queues = kcp.queues ∧ kcp.shrinkBuf.wire = kcp.wire := by
  rw [shrinkBuf]
  split <;> exact ⟨rfl, rfl⟩

end Estimates

section Writes

variable (kcp : Kcp config)

theorem makeRoom_queues (need : ℕ) : (kcp.makeRoom need).queues = kcp.queues := by
  rw [makeRoom]
  split_ifs <;> rfl

theorem drainBuf_queues : kcp.drainBuf.queues = kcp.queues := by
  rw [drainBuf]
  split_ifs <;> rfl

theorem flushAcks_queues (seg : KcpSegment) (acks : List (UInt32 × UInt32)) :
    (kcp.flushAcks seg acks).1.queues = kcp.queues := by
  induction acks generalizing kcp seg with
  | nil => rfl
  | cons ack rest ih =>
    rw [flushAcks]
    split_ifs
    all_goals exact (ih _ _).trans (kcp.makeRoom_queues kcpOverhead)

theorem flushProbeCommands_queues (seg : KcpSegment) :
    (kcp.flushProbeCommands seg).queues = kcp.queues := by
  have hp (kcp : Kcp config) (cmd : UInt8) : (kcp.flushProbe cmd seg).queues = kcp.queues :=
    kcp.makeRoom_queues kcpOverhead
  simp only [flushProbeCommands]
  split_ifs
  · exact (hp (kcp.flushProbe kcpCmdWask seg) kcpCmdWins).trans (hp kcp kcpCmdWask)
  · exact hp kcp kcpCmdWins
  · exact hp kcp kcpCmdWask
  · rfl

theorem transmitAll_queues (wnd : UInt16) (resent : UInt32) (newSegs : ℕ) (buf : List KcpSegment) :
    (kcp.transmitAll wnd resent newSegs buf).1.queues = kcp.queues := by
  induction buf generalizing kcp with
  | nil => rfl
  | cons seg rest ih =>
    by_cases hn : kcp.resendOf resent newSegs seg = .none
    · simp only [transmitAll, if_pos hn]
      exact ih kcp
    · simp only [transmitAll, if_neg hn]
      exact (ih _).trans (kcp.makeRoom_queues _)

end Writes

section Flush

variable (kcp : Kcp config)

theorem flushControl_queues : kcp.flushControl.queues = kcp.queues := by
  rw [flushControl, flushProbeCommands_queues, (probeWndSize_frame _).1]
  exact kcp.flushAcks_queues _ _

/-- After the numbering, a flush only rewrites the timers of the segments in `snd_buf`. -/
theorem flushInner_frame (kind : FlushType) :
    (kcp.flushInner kind).sndNxt = kcp.flushControl.slideQueue.sndNxt ∧
      (kcp.flushInner kind).sndQueue = kcp.flushControl.slideQueue.sndQueue ∧
      (kcp.flushInner kind).inbound = kcp.flushControl.slideQueue.inbound := by
  have hl {one o : Kcp config} (hs : one.queues = o.queues) :
      one.sndNxt = o.sndNxt ∧ one.sndQueue = o.sndQueue ∧ one.inbound = o.inbound := by
    simp only [queues, outbound, Prod.mk.injEq, Lane.mk.injEq] at hs
    exact ⟨hs.1.1, hs.1.2.2, hs.2⟩
  cases kind with
  | ackOnly => exact hl ((adjustWindow_frame _ _ _ _ _).1.trans (drainBuf_queues _))
  | full =>
    obtain ⟨nxt, q, hi⟩ := hl (transmitAll_queues kcp.flushControl.slideQueue _ _ _ _)
    obtain ⟨hn, hq, hin⟩ := hl ((adjustWindow_frame _ _ _ _ _).1.trans (drainBuf_queues _))
    exact ⟨hn.trans nxt, hq.trans q, hin.trans hi⟩

theorem flushInner_inbound (kind : FlushType) : (kcp.flushInner kind).inbound = kcp.inbound := by
  have hc : kcp.flushControl.inbound = kcp.inbound := inbound_of_queues kcp.flushControl_queues
  exact (kcp.flushInner_frame kind).2.2.trans hc

theorem update_cases (cur : UInt32) :
    ∃ timed : Kcp config, (timed.queues = kcp.queues ∧ timed.wire = kcp.wire) ∧
      (kcp.update cur = timed.flush.1 ∨ kcp.update cur = timed) := by
  have f : (kcp.setClock cur).queues = kcp.queues ∧
      (kcp.setClock cur).wire = kcp.wire := by
    rw [setClock]
    split_ifs <;> exact ⟨rfl, rfl⟩
  rw [update]
  split
  · refine ⟨_, ?_, .inl rfl⟩
    exact f
  · refine ⟨_, ?_, .inr rfl⟩
    exact f

theorem flush_inbound : kcp.flush.1.inbound = kcp.inbound := by
  rw [flush]
  split_ifs
  · exact kcp.flushInner_inbound .full
  · rfl

theorem flushAckOnly_inbound : kcp.flushAckOnly.1.inbound = kcp.inbound := by
  rw [flushAckOnly]
  split_ifs
  · exact kcp.flushInner_inbound .ackOnly
  · rfl

theorem update_inbound (cur : UInt32) : (kcp.update cur).inbound = kcp.inbound := by
  obtain ⟨timed, f, hf | hk⟩ := kcp.update_cases cur
  · rw [hf, flush_inbound, inbound_of_queues f.1]
  · rw [hk, inbound_of_queues f.1]

end Flush

section Input

variable (kcp : Kcp config)

theorem dispatch_cases (scan : Scan) (seg : KcpSegment) :
    (kcp.dispatch scan seg).1 = ((kcp.parseAck seg.sn).parseFastack seg.sn seg.ts).1 ∨
      (seg.cmd = kcpCmdPush ∧ (kcp.dispatch scan seg).1 =
        (kcp.ackPush seg.sn seg.ts).parseData seg) ∨
      ((kcp.dispatch scan seg).1.queues = kcp.queues ∧
        (kcp.dispatch scan seg).1.wire = kcp.wire) := by
  simp only [dispatch]
  split_ifs with ha push inWindow ahead ask
  · exact .inl rfl
  · exact .inr (.inl ⟨push, rfl⟩)
  all_goals exact .inr (.inr ⟨rfl, rfl⟩)

theorem parseData_outbound (seg : KcpSegment) :
    (kcp.parseData seg).outbound = kcp.outbound ∧ (kcp.parseData seg).wire = kcp.wire := by
  simp only [parseData]
  split_ifs <;> exact ⟨rfl, rfl⟩

theorem parseAcks_inbound (sn ts : UInt32) :
    ((kcp.parseAck sn).parseFastack sn ts).1.inbound = kcp.inbound := by
  simp only [parseAck, parseFastack]
  split_ifs <;> rfl

theorem parseAcks_sndQueue (sn ts : UInt32) :
    ((kcp.parseAck sn).parseFastack sn ts).1.sndQueue = kcp.sndQueue := by
  simp only [parseAck, parseFastack]
  split_ifs <;> rfl

theorem hear_frame (regular : Bool) (seg : KcpSegment) :
    (kcp.hear regular seg).1.inbound = kcp.inbound ∧
      (kcp.hear regular seg).1.sndQueue = kcp.sndQueue := by
  have hi (o : Kcp config) : o.shrinkBuf.inbound = o.inbound :=
    inbound_of_queues o.shrinkBuf_frame.1
  have q (o : Kcp config) : o.shrinkBuf.sndQueue = o.sndQueue :=
    congrArg (fun queues => queues.1.queue) o.shrinkBuf_frame.1
  simp only [hear, hi, q]
  split_ifs <;> exact ⟨rfl, rfl⟩

theorem inputSegment_sndQueue (regular : Bool) (scan : Scan) (seg : KcpSegment) :
    (kcp.inputSegment regular scan seg).1.sndQueue = kcp.sndQueue := by
  rw [← (kcp.hear_frame regular seg).2, inputSegment]
  rcases dispatch_cases (kcp.hear regular seg).1
    { scan with flushSegments := scan.flushSegments || (kcp.hear regular seg).2 } seg with
    acked | ⟨-, placed⟩ | ⟨hs, -⟩
  · rw [acked, parseAcks_sndQueue]
  · rw [placed]
    exact congrArg Lane.queue (parseData_outbound _ seg).1
  · exact congrArg (fun queues => queues.1.queue) hs

theorem finishInput_cases (oldUna : UInt32) (scan : Scan) (regular ackNodelay : Bool) :
    ∃ tuned : Kcp config, (tuned.queues = kcp.queues ∧ tuned.wire = kcp.wire) ∧
      ((∃ kind, kcp.finishInput oldUna scan regular ackNodelay = tuned.flushInner kind) ∨
        kcp.finishInput oldUna scan regular ackNodelay = tuned) := by
  have sampled : ∃ sampled : Kcp config, (sampled.queues = kcp.queues ∧ sampled.wire = kcp.wire) ∧
      (if scan.updateRtt ∧ regular ∧ 0 ≤ timediff kcp.current scan.latest then
        kcp.updateAck (timediff kcp.current scan.latest) else kcp) = sampled := by
    split_ifs
    · exact ⟨_, kcp.updateAck_frame _, rfl⟩
    · exact ⟨_, ⟨rfl, rfl⟩, rfl⟩
  obtain ⟨sampled, f, hs⟩ := sampled
  obtain ⟨hq, hw⟩ := sampled.growWindow_frame oldUna
  refine ⟨sampled.growWindow oldUna, ⟨hq.trans f.1, hw.trans f.2⟩, ?_⟩
  simp only [finishInput, hs]
  split_ifs
  · exact .inl ⟨.full, rfl⟩
  · exact .inl ⟨.ackOnly, rfl⟩
  · exact .inr rfl

theorem finishInput_inbound (oldUna : UInt32) (scan : Scan) (regular ackNodelay : Bool) :
    (kcp.finishInput oldUna scan regular ackNodelay).inbound = kcp.inbound := by
  obtain ⟨tuned, f, ⟨kind, hf⟩ | hk⟩ := kcp.finishInput_cases oldUna scan regular ackNodelay
  · rw [hf, flushInner_inbound, inbound_of_queues f.1]
  · rw [hk, inbound_of_queues f.1]

/-- A datagram is refused, read up to an error, or read to its end. -/
theorem input_cases (buf : Bytes) (regular ackNodelay : Bool) :
    (kcp.input buf regular ackNodelay).1 = kcp ∨ ((kcp.input buf regular ackNodelay).1 =
        (inputLoop regular buf.length kcp ⟨false, 0, false⟩ buf).1) ∨
      ∃ scan, (kcp.input buf regular ackNodelay).1 =
        (inputLoop regular buf.length kcp ⟨false, 0, false⟩ buf).1.finishInput kcp.sndUna scan
          regular ackNodelay := by
  rw [input]
  split_ifs
  · exact .inl rfl
  · rcases inputLoop regular buf.length kcp ⟨false, 0, false⟩ buf with
      ⟨scanned, error | ⟨scan, rest⟩⟩
    · exact .inr (.inl rfl)
    · exact .inr (.inr ⟨scan, rfl⟩)

theorem send_inbound (buf : Bytes) : (kcp.send buf).1.inbound = kcp.inbound := by
  simp only [send]
  split_ifs <;> rfl

theorem recv_outbound (room : ℕ) :
    (kcp.recv room).1.outbound = kcp.outbound ∧ (kcp.recv room).1.wire = kcp.wire := by
  simp only [recv]
  split
  · exact ⟨rfl, rfl⟩
  · cases kcp.peeksize with
    | error error => exact ⟨rfl, rfl⟩
    | ok size =>
      dsimp only
      split_ifs <;> exact ⟨rfl, rfl⟩

end Input

end Kcp

end MeowRs.KcpGo
