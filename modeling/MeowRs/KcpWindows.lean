import MeowRs.KcpRuns

/-!
# The window on the wire

The receive window is counted in 32 bits, and what is free of it goes over the wire in 16.  A flush
stamps every segment it writes with the same number, and leaves the receive queue alone.
-/

namespace MeowRs.KcpGo

open List ActionRuns

namespace Kcp

variable {config : Config} {kcp next : Kcp config}

/-- The slots of the receive queue that are free. -/
def free (kcp : Kcp config) : ℕ :=
  config.rcvWnd.toNat - kcp.rcvQueue.length

/-- All that was written, the datagram under construction included. -/
def written (kcp : Kcp config) : Bytes :=
  kcp.output.flatten ++ kcp.buf

theorem written_of_wire (hs : next.wire = kcp.wire) : next.written = kcp.written := by
  obtain ⟨hb, ho⟩ := Prod.mk.inj hs
  rw [written, written, hb, ho]

def Advertises (wnd : UInt16) (before after : Bytes) : Prop :=
  ∃ segments : List KcpSegment, after = before ++ segments.flatMap KcpSegment.encode ∧
    ∀ segment ∈ segments, segment.wnd = wnd

theorem Advertises.refl (wnd : UInt16) (bs : Bytes) : Advertises wnd bs bs :=
  ⟨[], by simp, by simp⟩

theorem Advertises.trans {wnd : UInt16} {fst snd third : Bytes} (ho : Advertises wnd fst snd)
    (ht : Advertises wnd snd third) : Advertises wnd fst third := by
  obtain ⟨segs, rfl, hs⟩ := ho
  obtain ⟨later, rfl, hl⟩ := ht
  refine ⟨segs ++ later, by simp, fun seg hm => ?_⟩
  exact (mem_append.mp hm).elim (hs seg) (hl seg)

section Flush

variable (kcp)

theorem advertises_put (need : ℕ) (seg : KcpSegment) :
    Advertises seg.wnd kcp.written ((kcp.makeRoom need).put seg).written := by
  refine ⟨[seg], ?_, by simp⟩
  rw [makeRoom]
  split_ifs <;> simp [put, written]

theorem advertises_flushAcks (seg : KcpSegment) (acks : List (UInt32 × UInt32)) :
    Advertises seg.wnd kcp.written (kcp.flushAcks seg acks).1.written ∧
      (kcp.flushAcks seg acks).2.wnd = seg.wnd := by
  induction acks generalizing kcp seg with
  | nil => exact ⟨.refl _ _, rfl⟩
  | cons ack rest ih =>
    obtain ⟨sn, ts⟩ := ack
    rw [flushAcks]
    split_ifs
    · obtain ⟨hl, hs⟩ := ih ((kcp.makeRoom kcpOverhead).put { seg with sn := sn, ts := ts })
        { seg with sn := sn, ts := ts }
      exact ⟨(kcp.advertises_put kcpOverhead { seg with sn := sn, ts := ts }).trans hl, hs⟩
    · have hr : (kcp.makeRoom kcpOverhead).written = kcp.written := by
        rw [makeRoom]
        split_ifs <;> simp [written]
      rw [← hr]
      exact ih _ seg

theorem advertises_flushProbeCommands (seg : KcpSegment) :
    Advertises seg.wnd kcp.written (kcp.flushProbeCommands seg).written := by
  have hp (kcp : Kcp config) (cmd : UInt8) :
      Advertises seg.wnd kcp.written (kcp.flushProbe cmd seg).written :=
    kcp.advertises_put kcpOverhead { seg with cmd := cmd }
  simp only [flushProbeCommands]
  split_ifs
  · exact (hp kcp kcpCmdWask).trans (hp _ kcpCmdWins)
  · exact hp kcp kcpCmdWins
  · exact hp kcp kcpCmdWask
  · exact .refl _ _

theorem advertises_transmitAll (wnd : UInt16) (resent : UInt32) (newSegs : ℕ)
    (buf : List KcpSegment) :
    Advertises wnd kcp.written (kcp.transmitAll wnd resent newSegs buf).1.written := by
  induction buf generalizing kcp with
  | nil => exact .refl _ _
  | cons seg rest ih =>
    by_cases hn : kcp.resendOf resent newSegs seg = .none
    · simp only [transmitAll, if_pos hn]
      exact ih kcp
    · simp only [transmitAll, if_neg hn]
      refine Advertises.trans ?_ (ih _)
      exact kcp.advertises_put _
        { kcp.schedule (kcp.resendOf resent newSegs seg) seg with
          xmit := _, ts := kcp.current, wnd := wnd, una := kcp.rcvNxt }

theorem advertises_flushInner (kind : FlushType) :
    Advertises kcp.wndUnused kcp.written (kcp.flushInner kind).written := by
  have hd (kcp : Kcp config) : kcp.drainBuf.written = kcp.written := by
    rw [drainBuf]
    split_ifs <;> simp [written]
  have ha (seg : KcpSegment) : Advertises seg.wnd kcp.written
      ((kcp.flushAck seg).1.probeWndSize.flushProbeCommands
        (kcp.flushAck seg).2).written := by
    obtain ⟨ha, hs⟩ := kcp.advertises_flushAcks seg kcp.acklist
    have hp := (kcp.flushAck seg).1.probeWndSize.advertises_flushProbeCommands (kcp.flushAck seg).2
    rw [written_of_wire (probeWndSize_frame _).2] at hp
    exact ha.trans (hs ▸ hp)
  have hc : Advertises kcp.wndUnused kcp.written kcp.flushControl.written :=
    ha { conv := config.conv, cmd := kcpCmdAck, wnd := kcp.wndUnused, una := kcp.rcvNxt }
  cases kind with
  | ackOnly =>
    rw [flushInner, written_of_wire (adjustWindow_frame _ _ _ _ _).2, hd]
    exact hc
  | full =>
    rw [flushInner, written_of_wire (adjustWindow_frame _ _ _ _ _).2, hd]
    exact hc.trans (advertises_transmitAll kcp.flushControl.slideQueue _ _ _ _)

end Flush

/-- What one call may do: it fills the receive queue no further than the window, and all it writes
advertises the window that it leaves. -/
structure Stamped (kcp next : Kcp config) : Prop where
  held : next.rcvQueue.length ≤ config.rcvWnd.toNat
  advertises : Advertises next.wndUnused kcp.written next.written

theorem wndUnused_of_inbound (hs : next.inbound = kcp.inbound) :
    next.wndUnused = kcp.wndUnused ∧ next.rcvQueue.length = kcp.rcvQueue.length := by
  have q : next.rcvQueue = kcp.rcvQueue := congrArg Lane.queue hs
  rw [wndUnused, wndUnused, q]
  exact ⟨rfl, rfl⟩

theorem Stamped.quiet (held : next.rcvQueue.length ≤ config.rcvWnd.toNat)
    (hs : next.wire = kcp.wire) : Stamped kcp next :=
  ⟨held, written_of_wire hs ▸ .refl _ _⟩

theorem Stamped.flushInner (held : next.rcvQueue.length ≤ config.rcvWnd.toNat)
    (hs : next.wire = kcp.wire) (kind : FlushType) : Stamped kcp (next.flushInner kind) := by
  obtain ⟨hw, q⟩ := wndUnused_of_inbound (next.flushInner_inbound kind)
  refine ⟨q ▸ held, ?_⟩
  rw [hw, ← written_of_wire hs]
  exact next.advertises_flushInner kind

theorem Stamped.flush (held : next.rcvQueue.length ≤ config.rcvWnd.toNat)
    (hs : next.wire = kcp.wire) : Stamped kcp next.flush.1 := by
  rw [Kcp.flush]
  split_ifs
  · exact .flushInner held hs .full
  · exact .quiet held hs

theorem moveLoop_held {rcvWnd nxt : UInt32} {buf q : List KcpSegment}
    (held : q.length ≤ rcvWnd.toNat) : (moveLoop rcvWnd buf q nxt).2.1.length ≤ rcvWnd.toNat := by
  induction buf generalizing q nxt with
  | nil => exact held
  | cons seg rest ih =>
    rw [moveLoop]
    split_ifs with hf
    · exact ih (by rw [length_append]; exact hf.2)
    · exact held

theorem takeMessage_length (q : List KcpSegment) : (takeMessage q).2.length ≤ q.length := by
  induction q with
  | nil => exact le_refl _
  | cons seg rest ih =>
    rw [takeMessage]
    split_ifs
    · exact Nat.le_succ _
    · exact Nat.le_succ_of_le ih

section Calls

variable (held : kcp.rcvQueue.length ≤ config.rcvWnd.toNat)
include held

theorem Stamped.inputSegment (regular : Bool) (scan : Scan) (seg : KcpSegment) :
    (kcp.inputSegment regular scan seg).1.rcvQueue.length ≤ config.rcvWnd.toNat ∧
      (kcp.inputSegment regular scan seg).1.wire = kcp.wire := by
  have hh : (kcp.hear regular seg).1.wire = kcp.wire := by
    rw [hear, (shrinkBuf_frame _).2]
    split_ifs <;> rfl
  have q : (kcp.hear regular seg).1.rcvQueue.length ≤ config.rcvWnd.toNat :=
    (wndUnused_of_inbound (kcp.hear_frame regular seg).1).2 ▸ held
  rw [← hh, Kcp.inputSegment]
  generalize (kcp.hear regular seg).1 = known at q
  rcases known.dispatch_cases
    { scan with flushSegments := scan.flushSegments || (kcp.hear regular seg).2 } seg with
    acked | ⟨-, placed⟩ | ⟨same, wire⟩
  · rw [acked, (wndUnused_of_inbound (known.parseAcks_inbound _ _)).2]
    refine ⟨q, ?_⟩
    simp only [parseAck, parseFastack]
    split_ifs <;> rfl
  · rw [placed]
    refine ⟨?_, (parseData_outbound _ seg).2⟩
    rw [parseData]
    split_ifs
    · exact q
    · dsimp only
      split_ifs <;> exact moveLoop_held q
  · exact ⟨(wndUnused_of_inbound (inbound_of_queues same)).2 ▸ q, wire⟩

theorem Stamped.input (buf : Bytes) (regular ackNodelay : Bool) :
    Stamped kcp (kcp.input buf regular ackNodelay).1 := by
  have hs := @inputLoop_of_segments _
    (fun next => next.rcvQueue.length ≤ config.rcvWnd.toNat ∧ next.wire = kcp.wire) regular
    (fun o scan seg hn => by
      obtain ⟨q, hw⟩ := Stamped.inputSegment hn.1 regular scan seg
      exact ⟨q, hw.trans hn.2⟩)
    buf.length kcp ⟨held, rfl⟩ ⟨false, 0, false⟩ buf
  rcases kcp.input_cases buf regular ackNodelay with same | hb | ⟨scan, he⟩
  · rw [same]
    exact .quiet held rfl
  · rw [hb]
    exact .quiet hs.1 hs.2
  · rw [he]
    obtain ⟨tuned, ⟨hq, hw⟩, ⟨kind, hf⟩ | hk⟩ :=
      finishInput_cases _ kcp.sndUna scan regular ackNodelay
    all_goals
      have q := (wndUnused_of_inbound (inbound_of_queues hq)).2 ▸ hs.1
    · rw [hf]
      exact .flushInner q (hw.trans hs.2) kind
    · rw [hk]
      exact .quiet q (hw.trans hs.2)

theorem Stamped.recv (room : ℕ) : Stamped kcp (kcp.recv room).1 := by
  refine .quiet ?_ (kcp.recv_outbound room).2
  have hs := (takeMessage_length kcp.rcvQueue).trans held
  rw [Kcp.recv]
  split_ifs
  · exact held
  · cases kcp.peeksize with
    | error error => exact held
    | ok size =>
      dsimp only
      split_ifs
      · exact held
      all_goals exact moveLoop_held hs

theorem wndUnused_toNat : kcp.wndUnused.toNat = kcp.free % 65536 := by
  have hs := config.rcvWnd.toNat_lt
  have hl : (UInt32.ofNat kcp.rcvQueue.length).toNat = kcp.rcvQueue.length :=
    UInt32.toNat_ofNat_of_lt' (lt_of_le_of_lt held hs)
  rw [wndUnused, free]
  split_ifs with hr
  · rw [UInt32.toNat_toUInt16, UInt32.toNat_sub_of_le _ _ (UInt32.le_of_lt hr), hl]
  · rw [UInt32.lt_iff_toNat_lt, hl] at hr
    rw [Nat.sub_eq_zero_of_le (not_lt.mp hr)]
    rfl

end Calls

/-- The segment offers no more than there is, and nothing only if there is nothing. -/
def Honest (kcp : Kcp config) (segment : KcpSegment) : Prop :=
  segment.wnd.toNat ≤ kcp.free ∧ (segment.wnd = 0 → kcp.free = 0)

theorem Stamped.honest_iff (hs : Stamped kcp next) {seg : KcpSegment}
    (hw : seg.wnd = next.wndUnused) : Honest next seg ↔ next.free = 0 ∨ next.free % 65536 ≠ 0 := by
  have v := wndUnused_toNat hs.held
  rw [← hw] at v
  rw [Honest, ← UInt16.toNat_inj, v]
  have := Nat.mod_le next.free 65536
  simp only [UInt16.toNat_zero]
  omega

end Kcp

variable {configs : Side → Config} {sys next : System configs} {act : Action}

open Kcp

theorem stamped_of_step
    (held : ∀ side, (sys.kcp side).rcvQueue.length ≤ (configs side).rcvWnd.toNat)
    (hs : step sys act = some next) (side : Side) : Stamped (sys.kcp side) (next.kcp side) := by
  have ha {a : Side} {kcp : Kcp (configs a)} {sent got : Bytes} (hst : Stamped (sys.kcp a) kcp) :
      Stamped (sys.kcp side) ((sys.act a kcp sent got).kcp side) := by
    simp only [System.act]
    by_cases same : side = a
    · subst same
      rwa [Function.update_self]
    · rw [Function.update_of_ne same]
      exact .quiet (held side) rfl
  cases act with
  | send a buf =>
    cases hs
    refine ha (.quiet ?_ ?_)
    · exact (wndUnused_of_inbound (send_inbound _ buf)).2.trans_le (held a)
    · simp only [Kcp.send]
      split_ifs <;> rfl
  | update a cur =>
    cases hs
    obtain ⟨timed, ⟨queues, wire⟩, flushed | kept⟩ := (sys.kcp a).update_cases cur
    all_goals
      have q := (wndUnused_of_inbound (inbound_of_queues queues)).2 ▸ held a
    · exact ha (flushed ▸ .flush q wire)
    · exact ha (kept ▸ .quiet q wire)
  | flush a =>
    cases hs
    exact ha (.flush (held a) rfl)
  | flushAck a =>
    cases hs
    refine ha ?_
    rw [flushAckOnly]
    split_ifs
    · exact .flushInner (held a) rfl .ackOnly
    · exact .quiet (held a) rfl
  | input a i regular ackNodelay =>
    obtain ⟨dg, -, rfl⟩ := Option.map_eq_some_iff.mp hs
    exact ha (.input (held a) dg regular ackNodelay)
  | recv a room =>
    cases hs
    exact ha (.recv (held a) room)

/-- In every run, the segments that a call writes are honest about the receive queue exactly if the
number of free slots is not a positive multiple of 65536. -/
theorem advertised_window_iff (configs : Side → Config) (starts : Side → UInt32)
    {actions : List Action} {system next : System configs} {action : Action}
    (runs : run step (System.initial configs starts) actions = some system)
    (steps : step system action = some next) (side : Side) :
    ∃ segments : List KcpSegment, (next.kcp side).written =
        (system.kcp side).written ++ segments.flatMap KcpSegment.encode ∧
      ∀ segment ∈ segments, Honest (next.kcp side) segment ↔
        (next.kcp side).free = 0 ∨ (next.kcp side).free % 65536 ≠ 0 := by
  have held := @invariant_of_run _ _ step
    (fun system => ∀ side, (system.kcp side).rcvQueue.length ≤ (configs side).rcvWnd.toNat)
    (fun _ _ _ hb steps side => (stamped_of_step hb steps side).held) _ _ _
    (fun side => Nat.zero_le _) runs
  have hs := stamped_of_step held steps side
  obtain ⟨segments, hw, wnd⟩ := hs.advertises
  exact ⟨segments, hw, fun segment hm => hs.honest_iff (wnd segment hm)⟩

theorem advertised_window_iff_small :
    ∃ system next : System fun _ => smallSegments,
      run step (System.initial (fun _ => smallSegments) fun _ => 0) [.send .client [1]] =
        some system ∧
      step system (.update .client 0) = some next ∧ ∃ segments : List KcpSegment,
        (next.kcp .client).written =
          (system.kcp .client).written ++ segments.flatMap KcpSegment.encode ∧
        ∀ segment ∈ segments, Honest (next.kcp .client) segment := by
  have hw := advertised_window_iff (fun _ => smallSegments) (fun _ => 0)
    (show run step _ [.send .client [1]] = some _ from rfl)
    (show step _ (.update .client 0) = some _ from rfl) .client
  obtain ⟨segments, hwr, hh⟩ := hw
  refine ⟨_, _, rfl, rfl, segments, hwr, fun segment hm => ?_⟩
  exact (hh segment hm).mpr (Or.inr (by decide +kernel))

def wideWindow : Config :=
  { smallSegments with rcvWnd := 65536 }

theorem wideWindow_advertised_closed :
    ∃ (final : System fun _ => wideWindow) (segment : KcpSegment),
      run step (System.initial (fun _ => wideWindow) fun _ => 0)
        [.send .client [1], .update .client 0] = some final ∧
      (final.kcp .client).written = segment.encode ∧ ¬Honest (final.kcp .client) segment := by
  refine ⟨_, { conv := 7, cmd := kcpCmdPush, data := [1] }, rfl, by decide +kernel, ?_⟩
  rintro ⟨-, hc⟩
  exact absurd (hc rfl) (by decide +kernel)

end MeowRs.KcpGo
