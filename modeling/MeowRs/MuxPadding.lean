import MeowRs.ChunkedReads
import MeowRs.LittleEndian
import MeowRs.Polling

/-!
# Session padding

The first sixteen writes of a padded session go out as frames, with the lengths of the data and of
the padding in front of them, and everything after that as it is.  Both ends count frames on their
own.  A frame is committed to a buffer before the transport has taken it; the buffer is drained
before anything else is written.
-/

namespace MeowRs

open List Option ChunkedReads

namespace MuxPadding

open BigEndian (beBytes beValue)
open Polling (Poll WriteAnswer drain)

def firstPaddings : Nat := 16

def headerLen : Nat := 4

def paddingMin : Nat := 256

def paddingSpan : Nat := 512

def skipScratch : Nat := 1024

structure PaddingConn where
  readFrames : Nat
  readHeader : Bytes
  readRemaining : Nat
  paddingRemaining : Nat
  writeFrames : Nat
  writeBuf : Bytes
  writePos : Nat
  deriving DecidableEq

namespace PaddingConn

def new : PaddingConn := ⟨0, [], 0, 0, 0, [], 0⟩

def truncated (what : String) : String :=
  "mux padding: connection closed inside a frame " ++ what

def parseHeader (conn : PaddingConn) : Bytes → PaddingConn
  | [d0, d1, p0, p1] =>
    { conn with
      readHeader := []
      readRemaining := beValue d0 d1
      paddingRemaining := beValue p0 p1
      readFrames := conn.readFrames + 1 }
  | header => { conn with readHeader := header }

/-- One `poll_read` into a buffer with room for `capacity` bytes. -/
def pollRead (capacity : Nat) : Reader UInt8 PaddingConn (Except String Bytes) where
  settle conn := (conn, if capacity = 0 then some (.ok []) else none)
  limit conn :=
    if 0 < conn.readRemaining then min conn.readRemaining capacity
    else if 0 < conn.paddingRemaining then min conn.paddingRemaining skipScratch
    else if firstPaddings ≤ conn.readFrames then capacity
    else headerLen - conn.readHeader.length
  take conn chunk :=
    if 0 < conn.readRemaining then
      ({ conn with readRemaining := conn.readRemaining - chunk.length }, some (.ok chunk))
    else if 0 < conn.paddingRemaining then
      ({ conn with paddingRemaining := conn.paddingRemaining - chunk.length }, none)
    else if firstPaddings ≤ conn.readFrames then (conn, some (.ok chunk))
    else (conn.parseHeader (conn.readHeader ++ chunk), none)
  ended conn :=
    (conn,
      if 0 < conn.readRemaining then .error (truncated "payload")
      else if 0 < conn.paddingRemaining then .error (truncated "padding")
      else if firstPaddings ≤ conn.readFrames ∨ conn.readHeader = [] then .ok []
      else .error (truncated "header"))

/-- What a call did: its result, the connection after it, the bytes the transport took, and the
answers of the transport that were not used. -/
structure Written (α : Type) where
  result : Poll (Except String α)
  conn : PaddingConn
  bytes : Bytes
  answers : List (WriteAnswer String)

def pollDrain (conn : PaddingConn) (answers : List (WriteAnswer String)) : Written Unit :=
  let drained := drain "write zero" conn.writeBuf.length answers conn.writePos
  let bytes := (conn.writeBuf.take drained.pos).drop conn.writePos
  match drained.outcome with
  | .ready (.ok ()) =>
    ⟨.ready (.ok ()), { conn with writeBuf := [], writePos := 0 }, bytes, drained.answers⟩
  | outcome => ⟨outcome, { conn with writePos := drained.pos }, bytes, drained.answers⟩

def frame (data : Bytes) (padding : Nat) : Bytes :=
  beBytes data.length ++ beBytes padding ++ data ++ replicate padding 0

/-- One `poll_write`, with the outcome of the random number. -/
def pollWrite (conn : PaddingConn) (random : Fin paddingSpan) (buf : Bytes)
    (answers : List (WriteAnswer String)) : Written Nat :=
  let drained := conn.pollDrain answers
  match drained.result with
  | .pending => ⟨.pending, drained.conn, drained.bytes, drained.answers⟩
  | .ready (.error error) => ⟨.ready (.error error), drained.conn, drained.bytes, drained.answers⟩
  | .ready (.ok ()) =>
    if firstPaddings ≤ drained.conn.writeFrames then
      match drained.answers with
      | .ready (.ok count) :: answers =>
        ⟨.ready (.ok (min count buf.length)), drained.conn, drained.bytes ++ buf.take count, answers⟩
      | .ready (.error error) :: answers =>
        ⟨.ready (.error error), drained.conn, drained.bytes, answers⟩
      | answers => ⟨.pending, drained.conn, drained.bytes, answers.tail⟩
    else if buf.isEmpty then ⟨.ready (.ok 0), drained.conn, drained.bytes, drained.answers⟩
    else
      let len := min buf.length 65535
      let committed := { drained.conn with
        writeBuf := drained.conn.writeBuf ++ frame (buf.take len) (paddingMin + random)
        writeFrames := drained.conn.writeFrames + 1 }
      let pushed := committed.pollDrain drained.answers
      ⟨.ready (.ok len), pushed.conn, drained.bytes ++ pushed.bytes, pushed.answers⟩

end PaddingConn

open PaddingConn

section Reading

variable {conn : PaddingConn}

abbrev content (result : Except String Bytes) : Bytes :=
  result.toOption.getD []

abbrev consume : PaddingConn → UInt8 → PaddingConn × Bytes :=
  (pollRead 1).unitStep content

theorem run_payload {chunk : Bytes} (fits : chunk.length ≤ conn.readRemaining) :
    run consume conn chunk =
      ({ conn with readRemaining := conn.readRemaining - chunk.length }, chunk) := by
  have counted := @run_countdown _ _ _ consume
    (fun count => { conn with readRemaining := count }) (fun byte => [byte])
    (fun count byte => by simp [consume, Reader.unitStep, pollRead, content, Except.toOption]) chunk
    (conn.readRemaining - chunk.length)
  rwa [Nat.add_sub_cancel' fits, flatMap_singleton'] at counted

theorem run_padding {chunk : Bytes} (noPayload : conn.readRemaining = 0)
    (fits : chunk.length ≤ conn.paddingRemaining) :
    run consume conn chunk =
      ({ conn with paddingRemaining := conn.paddingRemaining - chunk.length }, []) := by
  have counted := @run_countdown _ _ _ consume
    (fun count => { conn with paddingRemaining := count }) (fun _ => [])
    (fun count byte => by simp [consume, Reader.unitStep, pollRead, noPayload]) chunk
    (conn.paddingRemaining - chunk.length)
  rwa [Nat.add_sub_cancel' fits, flatMap_eq_nil_iff.mpr fun _ _ => rfl] at counted

theorem run_raw (noPayload : conn.readRemaining = 0)
    (noPadding : conn.paddingRemaining = 0) (past : firstPaddings ≤ conn.readFrames)
    (chunk : Bytes) : run consume conn chunk = (conn, chunk) := by
  have counted := @run_countdown _ _ _ consume (fun _ => conn) (fun byte => [byte])
    (fun _ byte => by
      simp [consume, Reader.unitStep, pollRead, noPayload, noPadding, past, content,
        Except.toOption]) chunk 0
  rwa [flatMap_singleton'] at counted

theorem parseHeader_of_short {header : Bytes} (short : header.length < headerLen) :
    conn.parseHeader header = { conn with readHeader := header } := by
  unfold parseHeader
  split
  · exact absurd short (by simp [headerLen])
  · rfl

theorem run_header (noPayload : conn.readRemaining = 0)
    (noPadding : conn.paddingRemaining = 0) (framed : ¬ firstPaddings ≤ conn.readFrames)
    {chunk : Bytes} (some : chunk ≠ []) (fits : (conn.readHeader ++ chunk).length ≤ headerLen) :
    run consume conn chunk = (conn.parseHeader (conn.readHeader ++ chunk), []) := by
  have parses : ∀ held byte, consume { conn with readHeader := held } byte =
      (conn.parseHeader (held ++ [byte]), []) := by
    intro held byte
    unfold consume Reader.unitStep pollRead
    dsimp only
    rw [if_neg (by omega), if_neg (by omega), if_neg framed]
    unfold parseHeader
    split <;> rfl
  have collected := @run_collect _ _ _ consume
    (fun held => { conn with readHeader := held }) headerLen (fun held => (conn.parseHeader held, []))
    (fun held byte short => by rw [parses, parseHeader_of_short (by simpa using short)])
    (fun held byte _ => parses held byte) conn.readHeader chunk some fits
  split at collected
  · rename_i short
    rw [parseHeader_of_short short]
    exact collected
  · exact collected

/-- A part of a header is kept only until it is complete. -/
def Tidy (conn : PaddingConn) : Prop :=
  conn.readHeader.length < headerLen

theorem tidy_parseHeader {header : Bytes} (fits : header.length ≤ headerLen) :
    (conn.parseHeader header).readHeader.length < headerLen := by
  unfold parseHeader
  split
  · exact Nat.zero_lt_succ 3
  · rename_i others
    refine lt_of_le_of_ne fits fun four => ?_
    obtain ⟨d0, d1, p0, p1, rfl⟩ := length_eq_four.mp four
    exact others d0 d1 p0 p1 rfl

theorem follows_pollRead (capacity : Nat) :
    ChunkedReads.Follows consume (fun conn other => conn = other ∧ Tidy conn)
      (fun result outcome => outcome.2 = result.elim [] content) (pollRead capacity) where
  pending outputs := Iff.rfl
  settles := by
    rintro conn _ ⟨rfl, tidy⟩
    refine ⟨⟨rfl, tidy⟩, ?_⟩
    dsimp only [pollRead]
    split <;> rfl
  asks := by
    rintro conn _ ⟨rfl, tidy⟩ goes
    have room : capacity ≠ 0 := by
      rintro rfl
      cases goes
    dsimp only [pollRead]
    rw [Tidy] at tidy
    split
    · omega
    · split
      · simp only [skipScratch]
        omega
      · split <;> omega
  takes := by
    rintro conn _ chunk ⟨rfl, tidy⟩ _ some fits
    dsimp only [pollRead] at fits ⊢
    split at fits
    · rename_i payload
      rw [if_pos payload, run_payload (by omega)]
      exact ⟨⟨rfl, tidy⟩, rfl⟩
    · rename_i noPayload
      rw [if_neg noPayload]
      rw [not_lt, Nat.le_zero] at noPayload
      split at fits
      · rename_i padding
        rw [if_pos padding, run_padding noPayload (by omega)]
        exact ⟨⟨rfl, tidy⟩, rfl⟩
      · rename_i noPadding
        rw [if_neg noPadding]
        rw [not_lt, Nat.le_zero] at noPadding
        split at fits
        · rename_i past
          rw [if_pos past, run_raw noPayload noPadding past]
          exact ⟨⟨rfl, tidy⟩, rfl⟩
        · rename_i framed
          rw [Tidy] at tidy
          have within : (conn.readHeader ++ chunk).length ≤ headerLen := by
            rw [length_append]
            omega
          rw [if_neg framed, run_header noPayload noPadding framed some within]
          exact ⟨⟨rfl, tidy_parseHeader within⟩, rfl⟩
  ends := by
    rintro conn _ ⟨rfl, tidy⟩ _
    refine ⟨⟨rfl, tidy⟩, ?_⟩
    dsimp only [pollRead]
    repeat' split
    all_goals rfl

def atFrame (count : Nat) : PaddingConn :=
  { new with readFrames := count }

theorem run_frame {count : Nat} (framed : count < firstPaddings) {data : Bytes} {padding : Nat}
    (small : data.length ≤ 65535) (smallPadding : padding ≤ 65535) :
    run consume (atFrame count) (frame data padding) = (atFrame (count + 1), data) := by
  have header : run consume (atFrame count) (beBytes data.length ++ beBytes padding) =
      ({ atFrame (count + 1) with readRemaining := data.length, paddingRemaining := padding }, []) := by
    rw [@run_header (atFrame count) rfl rfl (not_le.mpr framed)
      (beBytes data.length ++ beBytes padding) (by simp [beBytes]) (le_refl 4)]
    simp only [atFrame, new, nil_append, beBytes, cons_append, parseHeader]
    rw [BigEndian.beValue_beBytes (by omega), BigEndian.beValue_beBytes (by omega)]
  have payload := @run_payload
    { atFrame (count + 1) with readRemaining := data.length, paddingRemaining := padding } data
    (le_refl _)
  have rest := @run_padding { atFrame (count + 1) with paddingRemaining := padding }
    (replicate padding 0) rfl (by simp)
  rw [Nat.sub_self] at payload
  rw [frame, run_append, run_append, header]
  rw [payload]
  refine (congrArg (fun after => (after.1, data ++ after.2)) rest).trans ?_
  simp [atFrame, new]

theorem run_frames {frames : List (Bytes × Nat)} {count : Nat}
    (few : count + frames.length ≤ firstPaddings)
    (small : ∀ part ∈ frames, part.1.length ≤ 65535 ∧ part.2 ≤ 65535) :
    run consume (atFrame count) (frames.flatMap fun part => frame part.1 part.2) =
      (atFrame (count + frames.length), frames.flatMap Prod.fst) := by
  induction frames generalizing count with
  | nil => rfl
  | cons part frames ih =>
    rw [forall_mem_cons] at small
    rw [length_cons] at few
    rw [flatMap_cons, run_append,
      run_frame (by omega) small.1.1 small.1.2, ih (by omega) small.2]
    simp only [flatMap_cons, length_cons]
    rw [add_right_comm, add_assoc]

end Reading

section Writing

theorem pollDrain_spec {conn : PaddingConn} (within : conn.writePos ≤ conn.writeBuf.length)
    (answers : List (WriteAnswer String)) :
    (conn.pollDrain answers).bytes ++
        (conn.pollDrain answers).conn.writeBuf.drop (conn.pollDrain answers).conn.writePos =
      conn.writeBuf.drop conn.writePos ∧
    (conn.pollDrain answers).conn.writePos ≤ (conn.pollDrain answers).conn.writeBuf.length ∧
    (conn.pollDrain answers).conn.writeFrames = conn.writeFrames ∧
    ((conn.pollDrain answers).result = .ready (.ok ()) →
      (conn.pollDrain answers).conn.writeBuf = [] ∧ (conn.pollDrain answers).conn.writePos = 0) := by
  obtain ⟨forward, bounded⟩ := @Polling.drain_pos _ "write zero" _ answers _ within
  have atEnd := (@Polling.drain_outcome_iff _ "write zero" _ answers _ within).mp
  have cut : ∀ pos, conn.writePos ≤ pos →
      (conn.writeBuf.take pos).drop conn.writePos ++ conn.writeBuf.drop pos =
        conn.writeBuf.drop conn.writePos := by
    intro pos later
    have joined := take_append_drop (pos - conn.writePos) (conn.writeBuf.drop conn.writePos)
    rwa [drop_drop, Nat.add_sub_cancel' later, ← drop_take] at joined
  unfold pollDrain
  dsimp only
  split
  · rename_i ended
    refine ⟨?_, le_refl 0, rfl, fun _ => ⟨rfl, rfl⟩⟩
    rw [drop_nil, append_nil, atEnd ended, take_length]
  · rename_i unfinished
    exact ⟨cut _ forward, bounded, rfl, fun ended => absurd ended unfinished⟩

/-- What one write can do: nothing but drain, hand over bytes as they are, or commit a frame. -/
theorem pollWrite_cases (conn : PaddingConn) (random : Fin paddingSpan) (buf : Bytes)
    (answers : List (WriteAnswer String)) :
    let drained := conn.pollDrain answers
    let written := conn.pollWrite random buf answers
    (written.conn = drained.conn ∧ written.bytes = drained.bytes ∧
      ∀ count, written.result = .ready (.ok count) → buf.take count = []) ∨
    (drained.result = .ready (.ok ()) ∧ firstPaddings ≤ drained.conn.writeFrames ∧
      written.conn = drained.conn ∧ ∃ count, written.bytes = drained.bytes ++ buf.take count ∧
        written.result = .ready (.ok (min count buf.length))) ∨
    (drained.result = .ready (.ok ()) ∧ drained.conn.writeFrames < firstPaddings ∧
      ∃ len pushed, len ≤ 65535 ∧ written.result = .ready (.ok len) ∧
        pushed = { drained.conn with
          writeBuf := drained.conn.writeBuf ++ frame (buf.take len) (paddingMin + random)
          writeFrames := drained.conn.writeFrames + 1 }.pollDrain drained.answers ∧
        written.conn = pushed.conn ∧ written.bytes = drained.bytes ++ pushed.bytes) := by
  intro drained written
  subst written
  unfold pollWrite
  dsimp only
  split
  · exact .inl ⟨rfl, rfl, nofun⟩
  · exact .inl ⟨rfl, rfl, nofun⟩
  · rename_i ended
    split
    · rename_i past
      split
      · exact .inr (.inl ⟨ended, past, rfl, _, rfl, rfl⟩)
      all_goals exact .inl ⟨rfl, rfl, nofun⟩
    · rename_i framed
      split
      · exact .inl ⟨rfl, rfl, fun count same => by cases same; rfl⟩
      · exact .inr (.inr ⟨ended, Nat.lt_of_not_le framed, _, _, Nat.min_le_right _ _, rfl, rfl, rfl,
          rfl⟩)

/-- A connection that is written to, what its transport has taken, and what it has accepted. -/
structure Uplink where
  conn : PaddingConn
  wire : Bytes
  accepted : Bytes

inductive Call where
  | write (random : Fin paddingSpan) (buf : Bytes) (answers : List (WriteAnswer String))
  | flush (answers : List (WriteAnswer String))

namespace Uplink

variable {frames : List (Bytes × Nat)} {uplink : Uplink}

def new : Uplink := ⟨PaddingConn.new, [], []⟩

def perform (uplink : Uplink) : Call → Uplink
  | .write random buf answers =>
    let written := uplink.conn.pollWrite random buf answers
    ⟨written.conn, uplink.wire ++ written.bytes, uplink.accepted ++
      match written.result with
      | .ready (.ok count) => buf.take count
      | _ => []⟩
  | .flush answers =>
    let drained := uplink.conn.pollDrain answers
    ⟨drained.conn, uplink.wire ++ drained.bytes, uplink.accepted⟩

def undrained (uplink : Uplink) : Bytes :=
  uplink.conn.writeBuf.drop uplink.conn.writePos

/-- What was sent and what is still to be drained are frames of what was accepted, and after all
frames the bytes themselves. -/
structure Committed (uplink : Uplink) (frames : List (Bytes × Nat)) (raw : Bytes) : Prop where
  within : uplink.conn.writePos ≤ uplink.conn.writeBuf.length
  count : frames.length = uplink.conn.writeFrames
  few : frames.length ≤ firstPaddings
  small : ∀ part ∈ frames, part.1.length ≤ 65535 ∧ part.2 ≤ 65535
  past : raw ≠ [] → frames.length = firstPaddings
  sent : uplink.wire ++ uplink.undrained = (frames.flatMap fun part => frame part.1 part.2) ++ raw
  accepted : uplink.accepted = frames.flatMap Prod.fst ++ raw

theorem Committed.drain {raw : Bytes}
    (committed : Committed uplink frames raw) (answers : List (WriteAnswer String)) :
    Committed ⟨(uplink.conn.pollDrain answers).conn,
      uplink.wire ++ (uplink.conn.pollDrain answers).bytes, uplink.accepted⟩ frames raw := by
  obtain ⟨cut, within, frames, _⟩ := pollDrain_spec committed.within answers
  refine ⟨within, committed.count.trans frames.symm, committed.few, committed.small, committed.past,
    ?_, committed.accepted⟩
  rw [undrained, append_assoc, cut]
  exact committed.sent

theorem Committed.commit
    (committed : Committed uplink frames []) (emptied : uplink.conn.writeBuf = [])
    (atStart : uplink.conn.writePos = 0) (framed : uplink.conn.writeFrames < firstPaddings)
    (data : Bytes) (small : data.length ≤ 65535) (random : Fin paddingSpan) :
    Committed ⟨{ uplink.conn with
        writeBuf := uplink.conn.writeBuf ++ frame data (paddingMin + random)
        writeFrames := uplink.conn.writeFrames + 1 }, uplink.wire, uplink.accepted ++ data⟩
      (frames ++ [(data, paddingMin + random)]) [] := by
  have count := committed.count
  refine ⟨?_, ?_, ?_, ?_, nofun, ?_, ?_⟩
  · exact atStart ▸ Nat.zero_le _
  · rw [length_append, count, length_singleton]
  · rw [length_append, count, length_singleton]
    exact framed
  · intro part member
    rcases mem_append.mp member with inFrames | isNew
    · exact committed.small part inFrames
    · obtain rfl := mem_singleton.mp isNew
      have below := random.isLt
      exact ⟨small, by simp only [paddingMin, paddingSpan] at below ⊢; omega⟩
  · have sent := committed.sent
    rw [undrained, emptied, drop_nil, append_nil] at sent
    rw [undrained]
    rw [emptied, atStart, sent, flatMap_append]
    simp
  · simp [committed.accepted]

theorem Committed.perform {raw : Bytes} (committed : Committed uplink frames raw) (call : Call) :
    ∃ frames raw, Committed (uplink.perform call) frames raw := by
  cases call with
  | flush answers => exact ⟨frames, raw, committed.drain answers⟩
  | write random buf answers =>
    have drained := committed.drain answers
    have empties := (pollDrain_spec committed.within answers).2.2.2
    rcases pollWrite_cases uplink.conn random buf answers with ⟨sameConn, sameBytes, nothing⟩ |
      ⟨ended, past, sameConn, count, sameBytes, result⟩ |
      ⟨ended, framed, len, pushed, small, result, isPushed, sameConn, sameBytes⟩
    · refine ⟨frames, raw, ?_⟩
      have none : (match (uplink.conn.pollWrite random buf answers).result with
          | .ready (.ok count) => buf.take count
          | _ => []) = [] := by
        split
        · exact nothing _ (by assumption)
        · rfl
      rw [Uplink.perform, none, sameConn, sameBytes, append_nil]
      exact drained
    · obtain ⟨emptied, _⟩ := empties ended
      refine ⟨frames, raw ++ buf.take count, ?_⟩
      rw [Uplink.perform, sameConn, sameBytes, result]
      refine ⟨drained.within, drained.count, drained.few, drained.small, ?_, ?_, ?_⟩
      · exact fun _ => le_antisymm drained.few (drained.count ▸ past)
      · have sent := drained.sent
        rw [undrained] at sent ⊢
        dsimp only at sent ⊢
        rw [emptied, drop_nil, append_nil] at sent ⊢
        rw [← append_assoc, sent, append_assoc]
      · dsimp only
        rw [← take_take, take_length, committed.accepted, append_assoc]
    · obtain ⟨emptied, atStart⟩ := empties ended
      have noRaw : raw = [] := by
        by_contra some
        have full := committed.past some
        rw [drained.count] at full
        exact absurd full (Nat.ne_of_lt framed)
      subst noRaw
      have pushedTo := (drained.commit emptied atStart framed (buf.take len)
        ((length_take_le len buf).trans small) random).drain
          (uplink.conn.pollDrain answers).answers
      refine ⟨frames ++ [(buf.take len, paddingMin + random)], [], ?_⟩
      rw [Uplink.perform, sameConn, sameBytes, result, isPushed, ← append_assoc]
      exact pushedTo

theorem exists_committed (calls : List Call) :
    ∃ frames raw, Committed (calls.foldl perform new) frames raw := by
  have start : Committed new [] [] :=
    ⟨le_refl 0, rfl, Nat.zero_le _, nofun, nofun, rfl, rfl⟩
  generalize new = uplink at start
  generalize ([] : List (Bytes × Nat)) = frames, ([] : Bytes) = raw at start
  induction calls generalizing uplink frames raw with
  | nil => exact ⟨frames, raw, start⟩
  | cons call calls ih =>
    obtain ⟨frames, raw, next⟩ := start.perform call
    exact ih _ _ _ next

end Uplink

end Writing

section Transparency

def delivered (results : List (Nat × Option (Except String Bytes))) : Bytes :=
  results.flatMap fun result => result.2.elim [] content

theorem run_sent {uplink : Uplink} {frames : List (Bytes × Nat)} {raw : Bytes}
    (committed : uplink.Committed frames raw) :
    (run consume new (uplink.wire ++ uplink.undrained)).2 = uplink.accepted := by
  have framed := @run_frames frames 0 (by rw [zero_add]; exact committed.few) committed.small
  rw [committed.sent, committed.accepted, run_append]
  change (run consume (atFrame 0) _).2 ++ (run consume (run consume (atFrame 0) _).1 raw).2 = _
  rw [framed]
  by_cases isEmpty : raw = []
  · rw [isEmpty]
    rfl
  · rw [zero_add, committed.past isEmpty, run_raw rfl rfl (le_refl _)]

/-- The reading side delivers what the writing side has accepted, as far as its bytes have been sent
and read, and it returns nothing or fails only at the end of the stream. -/
theorem padding_transparent (calls : List Call) (closed : Bool)
    (reads : List (Nat × List (Option Nat))) :
    let uplink := calls.foldl Uplink.perform .new
    let outcome := session pollRead closed reads new uplink.wire
    delivered outcome.2.2 <+: uplink.accepted ∧
      (outcome.2.1 = [] → uplink.undrained = [] → delivered outcome.2.2 = uplink.accepted) ∧
      ∀ (capacity : Nat) (answers : List (Option Nat)) (conn : PaddingConn) (stream : Bytes)
        (result : Except String Bytes), 0 < capacity → Tidy conn →
        ((pollRead capacity).poll closed answers conn stream).result = some result →
        content result = [] →
        ((pollRead capacity).poll closed answers conn stream).rest = [] ∧ closed = true := by
  intro uplink outcome
  obtain ⟨frames, raw, committed⟩ := Uplink.exists_committed calls
  obtain ⟨taken, cut, delivers⟩ := session_delivers follows_pollRead
    (fun _ _ _ => id) closed reads (show new = new ∧ Tidy new from ⟨rfl, Nat.zero_lt_succ 3⟩)
    uplink.wire
  have whole := run_sent committed
  refine ⟨?_, fun allRead drained => ?_, fun capacity answers conn stream result room tidy => ?_⟩
  · change uplink.wire = taken ++ outcome.2.1 at cut
    rw [cut, append_assoc, run_append, ← delivers] at whole
    exact ⟨_, whole⟩
  · change (run consume new (uplink.wire ++ uplink.undrained)).2 = uplink.accepted at whole
    rw [drained, append_nil, cut] at whole
    rw [allRead, append_nil, ← delivers] at whole
    exact whole
  · refine @ChunkedReads.Follows.ended_of_poll _ _ _ _ _ _ _ _ _ (follows_pollRead capacity)
      (fun result => content result = []) closed ?_ ?_ answers conn conn ⟨rfl, tidy⟩ stream result
    · intro conn result returned
      rw [pollRead] at returned
      rw [if_neg (ne_of_gt room)] at returned
      cases returned
    · intro conn chunk result some returned
      dsimp only [pollRead] at returned
      repeat' split at returned
      all_goals first
        | cases returned
          exact some
        | cases returned

/-- One byte in each padded frame, and two bytes after the last of them. -/
def writesAcross : List Call :=
  (List.range firstPaddings).map
      (fun byte => .write ⟨0, by decide⟩ [byte.toUInt8] [.ready (.ok 300)]) ++
    [.write ⟨0, by decide⟩ [20, 21] [.ready (.ok 300)]]

/-- Each read passes the padding that is left, a header and a payload; the last one the padding and
the raw bytes. -/
def readsAcross : List (Nat × List (Option Nat)) :=
  replicate (firstPaddings + 1) (9, [some 400, some 400, some 400])

theorem delivered_across_switch :
    delivered (session pollRead true readsAcross new
      (writesAcross.foldl Uplink.perform .new).wire).2.2 =
      [0, 1, 2, 3, 4, 5, 6, 7, 8, 9, 10, 11, 12, 13, 14, 15, 20, 21] :=
  ((padding_transparent writesAcross true readsAcross).2.1 (by decide +kernel)
    (by decide +kernel)).trans (by decide +kernel)

end Transparency

end MuxPadding

end MeowRs
