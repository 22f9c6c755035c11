import MeowRs.KcpGo

/-!
# Segments on the wire

A segment is read back from the bytes it was encoded to, up to the fields that stay with its sender.
So a property of an endpoint that every segment of a datagram keeps is kept by the datagram.
-/

namespace MeowRs.KcpGo

open List

open LittleEndian

namespace Kcp

theorem drop_field {w off : ℕ} (hb : w ≤ off) (v : ℕ) (rest : Bytes) :
    (leBytes w v ++ rest).drop off = rest.drop (off - w) := by
  rw [drop_append, drop_eq_nil_of_le, length_leBytes, nil_append]
  rwa [length_leBytes]

theorem u32_leBytes (v : ℕ) : UInt32.ofNat (leValue (leBytes 4 v)) = UInt32.ofNat v := by
  rw [leValue_leBytes]
  exact UInt32.ofNat_mod_size

theorem u16_leBytes (v : ℕ) : UInt16.ofNat (leValue (leBytes 2 v)) = UInt16.ofNat v := by
  rw [leValue_leBytes]
  exact UInt16.ofNat_mod_size

theorem u8_leBytes (v : ℕ) : UInt8.ofNat (leValue (leBytes 1 v)) = UInt8.ofNat v := by
  exact UInt8.ofNat_mod_size

end Kcp

namespace KcpSegment

/-- What the receiver of a segment learns. -/
def onWire (segment : KcpSegment) : KcpSegment where
  conv := segment.conv
  cmd := segment.cmd
  frg := segment.frg
  wnd := segment.wnd
  ts := segment.ts
  sn := segment.sn
  una := segment.una
  data := segment.data

end KcpSegment

namespace Kcp

open KcpSegment

theorem read_header (seg : KcpSegment) (rest : Bytes) :
    u32At (seg.encode ++ rest) 0 = seg.conv ∧ u8At (seg.encode ++ rest) 4 = seg.cmd ∧
      u8At (seg.encode ++ rest) 5 = seg.frg ∧ u16At (seg.encode ++ rest) 6 = seg.wnd ∧
      u32At (seg.encode ++ rest) 8 = seg.ts ∧ u32At (seg.encode ++ rest) 12 = seg.sn ∧
      u32At (seg.encode ++ rest) 16 = seg.una ∧
      u32At (seg.encode ++ rest) 20 = UInt32.ofNat seg.data.length ∧
      (seg.encode ++ rest).drop kcpOverhead = seg.data ++ rest := by
  simp [encode, u32At, u16At, u8At, kcpOverhead, drop_field, u32_leBytes, u16_leBytes, u8_leBytes]

theorem lenAt_encode {seg : KcpSegment} (hs : seg.data.length < 2 ^ 32) (rest : Bytes) :
    lenAt (seg.encode ++ rest) = seg.data.length := by
  obtain ⟨-, -, -, -, -, -, -, hl, -⟩ := read_header seg rest
  rw [lenAt, hl]
  exact UInt32.toNat_ofNat_of_lt' hs

theorem drop_encode (seg : KcpSegment) (rest : Bytes) :
    (seg.encode ++ rest).drop kcpOverhead = seg.data ++ rest := by
  obtain ⟨-, -, -, -, -, -, -, -, hb⟩ := read_header seg rest
  exact hb

theorem readSegment_encode {seg : KcpSegment} (hs : seg.data.length < 2 ^ 32)
    (rest : Bytes) : readSegment (seg.encode ++ rest) = seg.onWire := by
  obtain ⟨hc, cmd, frg, wnd, ts, sn, una, -, hb⟩ := read_header seg rest
  simp only [readSegment, hc, cmd, frg, wnd, ts, sn, una, hb, lenAt_encode hs, take_left, onWire]

variable {cfg : Config} {holds : Kcp cfg → Prop} {regular : Bool}

/-- What every segment keeps, the loop over any bytes keeps. -/
theorem inputLoop_of_segments
    (hk : ∀ kcp scan seg, holds kcp → holds (kcp.inputSegment regular scan seg).1)
    (fuel : ℕ) {kcp : Kcp cfg} (hp : holds kcp) (scan : Scan) (buf : Bytes) :
    holds (inputLoop regular fuel kcp scan buf).1 := by
  induction fuel generalizing kcp scan buf with
  | zero => exact hp
  | succ fuel ih =>
    simp only [inputLoop]
    split_ifs
    · exact hp
    · exact hp
    · exact hp
    · exact ih (hk kcp scan _ hp) _ _
    · exact hp

/-- What the segments of a datagram keep, the loop over the datagram keeps. -/
theorem inputLoop_of_datagram {segs : List KcpSegment}
    (hs : ∀ seg ∈ segs, seg.data.length < 2 ^ 32) (hk : ∀ kcp scan, ∀ seg ∈ segs, holds kcp →
      holds (kcp.inputSegment regular scan seg.onWire).1) (fuel : ℕ) {kcp : Kcp cfg}
    (hp : holds kcp) (scan : Scan) :
    holds (inputLoop regular fuel kcp scan (segs.flatMap KcpSegment.encode)).1 := by
  induction segs generalizing fuel kcp scan with
  | nil => cases fuel <;> exact hp
  | cons seg segs ih =>
    cases fuel with
    | zero => exact hp
    | succ fuel =>
      have hh := hs seg mem_cons_self
      have hl := fun scan {kcp : Kcp cfg} (hn : holds kcp) =>
        ih (fun o hm => hs o (mem_cons_of_mem seg hm))
          (fun kcp scan o hm => hk kcp scan o (mem_cons_of_mem _ hm))
          fuel hn scan
      simp only [flatMap_cons, inputLoop, readSegment_encode hh, lenAt_encode hh,
        drop_encode, drop_left]
      split_ifs
      · exact hp
      · exact hp
      · exact hp
      · exact hl _ (hk kcp scan seg mem_cons_self hp)
      · exact hp

end Kcp

end MeowRs.KcpGo
