import Mathlib.Data.List.InsertIdx
import MeowRs.KcpSending

/-!
# The receiving direction of an endpoint

With the payloads of the peer numbered as in its sending direction, the bytes handed to the user and
those in `rcv_queue` are the first payloads in order.  A segment joins them only when its number is
exactly the next one, so neither the serial comparisons nor the windows matter for this.
-/

namespace MeowRs.KcpGo

open List Option

structure Receiving (base : UInt32) (payloads : List Bytes) (received : Bytes) (lane : Lane) :
    Prop where
  whole : ∀ segment ∈ lane.queue, segment.frg = 0
  buffered : ∀ segment ∈ lane.buffer, Carries base payloads segment
  bytes : ∃ count, count ≤ payloads.length ∧ lane.nxt = base + UInt32.ofNat count ∧
    received ++ lane.queue.flatMap KcpSegment.data = (payloads.take count).flatten

def handed : Except KcpError Bytes → Bytes
  | .ok bytes => bytes
  | .error _ => []

namespace Receiving

variable {cfg : Config} {base : UInt32} {ps : List Bytes} {received : Bytes}
  {seg : KcpSegment} {buf q : List KcpSegment}

theorem initial (cfg : Config) (base start : UInt32) :
    Receiving base [] [] (Kcp.new cfg start base).inbound where
  whole := by simp [Kcp.new, Kcp.inbound]
  buffered := by simp [Kcp.new, Kcp.inbound]
  bytes := ⟨0, le_refl 0, (UInt32.add_zero base).symm, rfl⟩

theorem extend {lane : Lane} (rcv : Receiving base ps received lane)
    (more : List Bytes) : Receiving base (ps ++ more) received lane := by
  obtain ⟨k, hw, n, bs⟩ := rcv.bytes
  refine ⟨rcv.whole, fun seg hm => (rcv.buffered seg hm).extend more, k, ?_, n, ?_⟩
  · rw [length_append]
    exact Nat.le_add_right_of_le hw
  · rw [bs, take_append_of_le_length hw]

theorem isPrefix {lane : Lane} (rcv : Receiving base ps received lane) :
    received <+: ps.flatten := by
  obtain ⟨n, -, -, bs⟩ := rcv.bytes
  refine List.IsPrefix.trans ⟨_, bs⟩ ⟨(ps.drop n).flatten, ?_⟩
  rw [← flatten_append, take_append_drop]

theorem index_eq {i n : ℕ} (hsm : i < 2 ^ 32) (hb : n < 2 ^ 32)
    (hs : base + UInt32.ofNat i = base + UInt32.ofNat n) : i = n := by
  have eq : UInt32.ofNat i = UInt32.ofNat n := (UInt32.add_right_inj base).mp hs
  rwa [← UInt32.toNat_inj, UInt32.toNat_ofNat_of_lt' hsm, UInt32.toNat_ofNat_of_lt' hb]
    at eq

theorem accept {nxt : UInt32} (few : ps.length < 2 ^ 32)
    (rcv : Receiving base ps received ⟨nxt, seg :: buf, q⟩) (hn : seg.sn = nxt) :
    Receiving base ps received ⟨nxt + 1, buf, q ++ [seg]⟩ := by
  obtain ⟨k, hw, n, bs⟩ := rcv.bytes
  obtain ⟨hl, i, num, p⟩ := rcv.buffered seg List.mem_cons_self
  have hi : i < ps.length := (List.getElem?_eq_some_iff.mp p).1
  have hs : i = k := by
    refine @index_eq base i k (Nat.lt_trans hi few) (lt_of_le_of_lt hw few) ?_
    rw [← num, hn]
    exact n
  subst hs
  refine ⟨fun o hm => ?_, fun o hm => ?_, i + 1, hi, ?_, ?_⟩
  · rcases mem_append.mp hm with hp | new
    · exact rcv.whole o hp
    · cases mem_singleton.mp new
      exact hl
  · exact rcv.buffered o (mem_cons_of_mem _ hm)
  · replace n : nxt = base + UInt32.ofNat i := n
    simp [n, UInt32.add_assoc]
  · rw [take_add_one, p, toList_some, flatten_append, ← bs]
    simp

theorem moveLoop {nxt : UInt32} (few : ps.length < 2 ^ 32)
    (rcv : Receiving base ps received ⟨nxt, buf, q⟩) (rcvWnd : UInt32) :
    Receiving base ps received
      ⟨(Kcp.moveLoop rcvWnd buf q nxt).2.2, (Kcp.moveLoop rcvWnd buf q nxt).1,
        (Kcp.moveLoop rcvWnd buf q nxt).2.1⟩ := by
  induction buf generalizing q nxt with
  | nil => exact rcv
  | cons seg rest ih =>
    rw [Kcp.moveLoop]
    split_ifs with hn
    · exact ih (rcv.accept few hn.1)
    · exact rcv

variable {kcp : Kcp cfg}

section

variable (few : ps.length < 2 ^ 32)
include few

section

variable (rcv : Receiving base ps received kcp.inbound)
include rcv

theorem moveBuf :
    Receiving base ps received kcp.moveBuf.inbound :=
  rcv.moveLoop few cfg.rcvWnd

theorem parseData (hc : Carries base ps seg) :
    Receiving base ps received (kcp.parseData seg).inbound := by
  simp only [Kcp.parseData]
  split_ifs with hou hr
  · exact rcv
  · exact rcv.moveBuf few
  · refine moveBuf few ⟨rcv.whole, fun o hm => ?_, rcv.bytes⟩
    rcases eq_or_mem_of_mem_insertIdx hm with rfl | ho
    · exact hc
    · exact rcv.buffered o ho

theorem recv (room : ℕ) :
    Receiving base ps (received ++ handed (kcp.recv room).2) (kcp.recv room).1.inbound := by
  rcases q : kcp.rcvQueue with _ | ⟨seg, rest⟩
  · simpa [Kcp.recv, q, handed] using rcv
  · have hl : seg.frg = 0 :=
      rcv.whole seg (by simp [Kcp.inbound, q])
    have hp : Receiving base ps (received ++ seg.data)
        ⟨kcp.rcvNxt, kcp.rcvBuf, rest⟩ := by
      obtain ⟨k, hw, n, bs⟩ := rcv.bytes
      refine ⟨fun o hm => rcv.whole o ?_, rcv.buffered, k, hw, n, ?_⟩
      · simp [Kcp.inbound, q, hm]
      · simpa [Kcp.inbound, q] using bs
    have size : kcp.peeksize = .ok seg.data.length := by simp [Kcp.peeksize, q, hl]
    have msg : Kcp.takeMessage kcp.rcvQueue = (seg.data, rest) := by
      simp [Kcp.takeMessage, q, hl]
    have ne : kcp.rcvQueue.isEmpty = false := by simp [q]
    simp only [Kcp.recv, ne, size, msg, Bool.false_eq_true, if_false]
    split_ifs
    · simpa [handed] using rcv
    all_goals exact moveBuf few hp

theorem inputSegment (regular : Bool) (scan : Kcp.Scan) (hse : Sendable base ps seg) :
    Receiving base ps received
    (kcp.inputSegment regular scan seg.onWire).1.inbound := by
  have hh : Receiving base ps received (kcp.hear regular seg.onWire).1.inbound := by
    rwa [(kcp.hear_frame regular seg.onWire).1]
  rw [Kcp.inputSegment]
  rcases (kcp.hear regular seg.onWire).1.dispatch_cases
    { scan with flushSegments := scan.flushSegments || (kcp.hear regular seg.onWire).2 }
    seg.onWire with ha | ⟨hp, hpl⟩ | ⟨hs, -⟩
  · rwa [ha, Kcp.parseAcks_inbound]
  · rw [hpl]
    have hn : Receiving base ps received ((kcp.hear regular seg.onWire).1.ackPush
      seg.onWire.sn seg.onWire.ts).inbound := hh
    exact hn.parseData few (show Carries base ps seg.onWire from hse.2 hp)
  · rwa [Kcp.inbound_of_queues hs]

theorem input {buf : Bytes} (dg : Datagram base ps buf) (regular ackNodelay : Bool) :
    Receiving base ps received (kcp.input buf regular ackNodelay).1.inbound := by
  obtain ⟨segs, rfl, hs⟩ := dg
  have hsc := @Kcp.inputLoop_of_datagram cfg
    (fun o => Receiving base ps received o.inbound) regular segs
    (fun seg hm => (hs seg hm).1)
    (fun o scan seg hm hp =>
      hp.inputSegment few regular scan (hs seg hm))
    (segs.flatMap KcpSegment.encode).length kcp rcv ⟨false, 0, false⟩
  rcases kcp.input_cases (segs.flatMap KcpSegment.encode) regular ackNodelay with
    refused | failed | ⟨scan, finished⟩
  · rwa [refused]
  · rwa [failed]
  · rwa [finished, Kcp.finishInput_inbound]

end

end

end Receiving

end MeowRs.KcpGo
