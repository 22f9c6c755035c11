import MeowRs.LittleEndian

/-!
# The KCP control block of the kcptun transport

One endpoint of a KCP conversation: the queues of segments to be sent and received, the parser of
inbound datagrams and the flush that puts acknowledgements, probes and data on the wire.  Times,
sequence numbers and windows are 32-bit words and wrap around as in the source.  `output` collects
the datagrams written so far.
-/

namespace MeowRs.KcpGo

open LittleEndian

inductive KcpError where
  | convInconsistent (expected found : UInt32)
  | invalidSegmentSize (size : ℕ)
  | invalidMss (mss : ℕ)
  | invalidSegmentDataSize (expected found : ℕ)
  | needUpdate
  | recvQueueEmpty
  | expectingFragment
  | unsupportedCmd (cmd : UInt8)
  | userBufTooBig
  | userBufTooSmall
  | emptySend
  deriving DecidableEq

def kcpRtoDef : UInt32 := 200

def kcpRtoMax : UInt32 := 60000

def kcpCmdPush : UInt8 := 81

def kcpCmdAck : UInt8 := 82

def kcpCmdWask : UInt8 := 83

def kcpCmdWins : UInt8 := 84

def kcpAskSend : UInt32 := 1

def kcpAskTell : UInt32 := 2

def kcpWndRcv : UInt32 := 32

def kcpOverhead : ℕ := 24

def kcpThreshInit : UInt32 := 2

def kcpThreshMin : UInt32 := 2

def kcpProbeInit : UInt32 := 500

def kcpProbeLimit : UInt32 := 120000

inductive FlushType where
  | ackOnly
  | full
  deriving DecidableEq

def bound (lower value upper : UInt32) : UInt32 :=
  min (max lower value) upper

def timediff (later earlier : UInt32) : Int32 :=
  (later - earlier).toInt32

structure KcpSegment where
  conv : UInt32 := 0
  cmd : UInt8 := 0
  frg : UInt8 := 0
  wnd : UInt16 := 0
  ts : UInt32 := 0
  sn : UInt32 := 0
  una : UInt32 := 0
  resendts : UInt32 := 0
  rto : UInt32 := 0
  fastack : UInt32 := 0
  xmit : UInt32 := 0
  acked : Bool := false
  data : Bytes := []

/-- The segment on the wire: `conv‖cmd‖frg‖wnd‖ts‖sn‖una‖len‖data`. -/
def KcpSegment.encode (segment : KcpSegment) : Bytes :=
  leBytes 4 segment.conv.toNat ++ leBytes 1 segment.cmd.toNat ++ leBytes 1 segment.frg.toNat ++
    leBytes 2 segment.wnd.toNat ++ leBytes 4 segment.ts.toNat ++ leBytes 4 segment.sn.toNat ++
    leBytes 4 segment.una.toNat ++ leBytes 4 segment.data.length ++ segment.data

/-- The parameters that the setters fix before a conversation starts.  A segment's length goes over
the wire in 32 bits. -/
structure Config where
  conv : UInt32
  mtu : ℕ
  sndWnd : UInt32
  rcvWnd : UInt32
  nodelay : Bool
  interval : UInt32
  fastresend : UInt32
  nocwnd : Bool
  minrto : UInt32
  deadLink : UInt32
  stream : Bool
  mtu_gt : kcpOverhead < mtu
  mtu_le : mtu ≤ 2 ^ 32

def Config.mss (config : Config) : ℕ :=
  config.mtu - kcpOverhead

structure Kcp (config : Config) where
  dead : Bool
  sndUna : UInt32
  sndNxt : UInt32
  rcvNxt : UInt32
  ssthresh : UInt32
  rxRttval : Int32
  rxSrtt : Int32
  rxRto : UInt32
  rmtWnd : UInt32
  cwnd : UInt32
  probe : UInt32
  current : UInt32
  tsFlush : UInt32
  updated : Bool
  tsProbe : UInt32
  probeWait : UInt32
  incr : UInt32
  sndQueue : List KcpSegment
  rcvQueue : List KcpSegment
  sndBuf : List KcpSegment
  rcvBuf : List KcpSegment
  acklist : List (UInt32 × UInt32)
  buf : Bytes
  output : List Bytes

namespace Kcp

variable {config : Config}

/-- `construct`, with the sequence numbers to start from. -/
def new (config : Config) (sndStart rcvStart : UInt32) : Kcp config where
  dead := false
  sndUna := sndStart
  sndNxt := sndStart
  rcvNxt := rcvStart
  ssthresh := kcpThreshInit
  rxRttval := 0
  rxSrtt := 0
  rxRto := kcpRtoDef
  rmtWnd := kcpWndRcv
  cwnd := 0
  probe := 0
  current := 0
  tsFlush := config.interval
  updated := false
  tsProbe := 0
  probeWait := 0
  incr := 0
  sndQueue := []
  rcvQueue := []
  sndBuf := []
  rcvBuf := []
  acklist := []
  buf := []
  output := []

/-- The loop of `move_buf`: what stays in `rcv_buf`, `rcv_queue` and `rcv_nxt`. -/
def moveLoop (rcvWnd : UInt32) : List KcpSegment → List KcpSegment → UInt32 →
    List KcpSegment × List KcpSegment × UInt32
  | [], queue, nxt => ([], queue, nxt)
  | segment :: rest, queue, nxt =>
    if segment.sn = nxt ∧ queue.length < rcvWnd.toNat then
      moveLoop rcvWnd rest (queue ++ [segment]) (nxt + 1)
    else (segment :: rest, queue, nxt)

def moveBuf (kcp : Kcp config) : Kcp config :=
  let moved := moveLoop config.rcvWnd kcp.rcvBuf kcp.rcvQueue kcp.rcvNxt
  { kcp with rcvBuf := moved.1, rcvQueue := moved.2.1, rcvNxt := moved.2.2 }

/-- The segments of one message: up to the first with `frg == 0`. -/
def takeMessage : List KcpSegment → Bytes × List KcpSegment
  | [] => ([], [])
  | segment :: rest =>
    if segment.frg = 0 then (segment.data, rest)
    else
      let later := takeMessage rest
      (segment.data ++ later.1, later.2)

def peeksize (kcp : Kcp config) : Except KcpError ℕ :=
  match kcp.rcvQueue with
  | [] => .error .recvQueueEmpty
  | segment :: _ =>
    if segment.frg = 0 then .ok segment.data.length
    else if kcp.rcvQueue.length < segment.frg.toNat + 1 then .error .expectingFragment
    else .ok (takeMessage kcp.rcvQueue).1.length

def recv (kcp : Kcp config) (room : ℕ) : Kcp config × Except KcpError Bytes :=
  if kcp.rcvQueue.isEmpty then (kcp, .error .recvQueueEmpty)
  else
    match kcp.peeksize with
    | .error error => (kcp, .error error)
    | .ok size =>
      if room < size then (kcp, .error .userBufTooSmall)
      else
        let recover := decide (config.rcvWnd.toNat ≤ kcp.rcvQueue.length)
        let message := takeMessage kcp.rcvQueue
        let moved := { kcp with rcvQueue := message.2 }.moveBuf
        let told :=
          if moved.rcvQueue.length < config.rcvWnd.toNat ∧ recover then
            { moved with probe := moved.probe ||| kcpAskTell }
          else moved
        (told, .ok message.1)

/-- Fill up the last segment of `snd_queue` in stream mode: the queue and what is left of the
buffer. -/
def extendLast (config : Config) (queue : List KcpSegment) (buf : Bytes) :
    List KcpSegment × Bytes :=
  match queue.getLast? with
  | none => (queue, buf)
  | some old =>
    if old.data.length < config.mss then
      let extend := min buf.length (config.mss - old.data.length)
      (queue.dropLast ++ [{ old with data := old.data ++ buf.take extend, frg := 0 }],
        buf.drop extend)
    else (queue, buf)

/-- The loop that cuts a buffer into `count` segments. -/
def fragments (config : Config) : ℕ → Bytes → List KcpSegment
  | 0, _ => []
  | count + 1, buf =>
    { data := buf.take config.mss, frg := if config.stream then 0 else UInt8.ofNat count } ::
      fragments config count (buf.drop config.mss)

def fragmentCount (config : Config) (length : ℕ) : ℕ :=
  if length ≤ config.mss then 1 else (length + config.mss - 1) / config.mss

/-- `send`; `mss` is never zero here, so its check is left out. -/
def send (kcp : Kcp config) (buf : Bytes) : Kcp config × Except KcpError ℕ :=
  if buf.isEmpty then (kcp, .error .emptySend)
  else
    let extended :=
      if config.stream then extendLast config kcp.sndQueue buf else (kcp.sndQueue, buf)
    let filled := { kcp with sndQueue := extended.1 }
    if config.stream ∧ extended.2.isEmpty then (filled, .ok (buf.length - extended.2.length))
    else
      let count := fragmentCount config extended.2.length
      if 255 < count then (filled, .error .userBufTooBig)
      else
        ({ filled with sndQueue := filled.sndQueue ++ fragments config count extended.2 },
          .ok buf.length)

/-- `update_ack`: the round-trip estimator. -/
def updateAck (kcp : Kcp config) (rtt : Int32) : Kcp config :=
  let estimated : Kcp config :=
    if kcp.rxSrtt = 0 then { kcp with rxSrtt := rtt, rxRttval := rtt >>> 1 }
    else
      let delta := rtt - kcp.rxSrtt
      let srtt := kcp.rxSrtt + (delta >>> 3)
      let distance := if delta < 0 then -delta else delta
      let shift : Int32 := if rtt < srtt - kcp.rxRttval then 5 else 2
      { kcp with rxSrtt := srtt, rxRttval := kcp.rxRttval + ((distance - kcp.rxRttval) >>> shift) }
  let spread : UInt32 := estimated.rxRttval.toUInt32 <<< 2
  let rto := estimated.rxSrtt.toUInt32 + max config.interval spread
  { estimated with rxRto := bound config.minrto rto kcpRtoMax }

def shrinkBuf (kcp : Kcp config) : Kcp config :=
  match kcp.sndBuf with
  | segment :: _ => { kcp with sndUna := segment.sn }
  | [] => { kcp with sndUna := kcp.sndNxt }

/-- Mark the segment of a sequence number and free its payload. -/
def markAcked (sn : UInt32) : List KcpSegment → List KcpSegment
  | [] => []
  | segment :: rest =>
    if sn = segment.sn then { segment with acked := true, data := [] } :: rest
    else if timediff sn segment.sn < 0 then segment :: rest
    else segment :: markAcked sn rest

def outside (kcp : Kcp config) (sn : UInt32) : Bool :=
  decide (timediff sn kcp.sndUna < 0) || decide (0 ≤ timediff sn kcp.sndNxt)

def parseAck (kcp : Kcp config) (sn : UInt32) : Kcp config :=
  if kcp.outside sn then kcp else { kcp with sndBuf := markAcked sn kcp.sndBuf }

/-- `parse_una`, and whether any segment was passed. -/
def parseUna (kcp : Kcp config) (una : UInt32) : Kcp config × Bool :=
  let kept := kcp.sndBuf.dropWhile fun segment => decide (0 < timediff una segment.sn)
  ({ kcp with sndBuf := kept }, decide (kept.length < kcp.sndBuf.length))

/-- Count an acknowledgement for the segments in front of it. -/
def countFastack (fastresend sn ts : UInt32) : List KcpSegment → List KcpSegment × Bool
  | [] => ([], false)
  | segment :: rest =>
    if timediff sn segment.sn < 0 then (segment :: rest, false)
    else if sn ≠ segment.sn ∧ timediff segment.ts ts ≤ 0 ∧ segment.fastack ≠ 0xFFFFFFFF then
      let later := countFastack fastresend sn ts rest
      ({ segment with fastack := segment.fastack + 1 } :: later.1,
        decide (fastresend ≤ segment.fastack + 1) || later.2)
    else
      let later := countFastack fastresend sn ts rest
      (segment :: later.1, later.2)

def parseFastack (kcp : Kcp config) (sn ts : UInt32) : Kcp config × Bool :=
  if kcp.outside sn then (kcp, false)
  else
    let counted := countFastack config.fastresend sn ts kcp.sndBuf
    ({ kcp with sndBuf := counted.1 }, counted.2)

def ackPush (kcp : Kcp config) (sn ts : UInt32) : Kcp config :=
  { kcp with acklist := kcp.acklist ++ [(sn, ts)] }

/-- The scan of `parse_data` over the reversed `rcv_buf`: whether the segment is there, and where it
goes. -/
def findPlace (sn : UInt32) : List KcpSegment → ℕ → Bool × ℕ
  | [], index => (false, index)
  | segment :: rest, index =>
    if segment.sn = sn then (true, index)
    else if 0 < timediff sn segment.sn then (false, index)
    else findPlace sn rest (index - 1)

def parseData (kcp : Kcp config) (segment : KcpSegment) : Kcp config :=
  if 0 ≤ timediff segment.sn (kcp.rcvNxt + config.rcvWnd) ∨ timediff segment.sn kcp.rcvNxt < 0 then
    kcp
  else
    let place := findPlace segment.sn kcp.rcvBuf.reverse kcp.rcvBuf.length
    let inserted :=
      if place.1 then kcp
      else { kcp with rcvBuf := kcp.rcvBuf.insertIdx place.2 segment }
    inserted.moveBuf

def wndUnused (kcp : Kcp config) : UInt16 :=
  if UInt32.ofNat kcp.rcvQueue.length < config.rcvWnd then
    (config.rcvWnd - UInt32.ofNat kcp.rcvQueue.length).toUInt16
  else 0

def probeWndSize (kcp : Kcp config) : Kcp config :=
  if kcp.rmtWnd = 0 then
    if kcp.probeWait = 0 then
      { kcp with probeWait := kcpProbeInit, tsProbe := kcp.current + kcpProbeInit }
    else if 0 ≤ timediff kcp.current kcp.tsProbe then
      let least := max kcp.probeWait kcpProbeInit
      let wait := min (least + least / 2) kcpProbeLimit
      { kcp with
        probeWait := wait, tsProbe := kcp.current + wait, probe := kcp.probe ||| kcpAskSend }
    else kcp
  else { kcp with tsProbe := 0, probeWait := 0 }

def makeRoom (kcp : Kcp config) (need : ℕ) : Kcp config :=
  if config.mtu < kcp.buf.length + need then
    { kcp with output := kcp.output ++ [kcp.buf], buf := [] }
  else kcp

def put (kcp : Kcp config) (segment : KcpSegment) : Kcp config :=
  { kcp with buf := kcp.buf ++ segment.encode }

/-- The loop of `_flush_ack`; `segment` is the scratch segment that keeps the last `sn` and `ts`. -/
def flushAcks (kcp : Kcp config) (segment : KcpSegment) :
    List (UInt32 × UInt32) → Kcp config × KcpSegment
  | [] => (kcp, segment)
  | (sn, ts) :: rest =>
    let roomy := kcp.makeRoom kcpOverhead
    if 0 ≤ timediff sn kcp.rcvNxt ∨ rest.isEmpty then
      let stamped := { segment with sn := sn, ts := ts }
      flushAcks (roomy.put stamped) stamped rest
    else flushAcks roomy segment rest

def flushAck (kcp : Kcp config) (segment : KcpSegment) : Kcp config × KcpSegment :=
  let flushed := kcp.flushAcks segment kcp.acklist
  ({ flushed.1 with acklist := [] }, flushed.2)

/-- `_flush_probe_commands`. -/
def flushProbe (kcp : Kcp config) (cmd : UInt8) (segment : KcpSegment) : Kcp config :=
  (kcp.makeRoom kcpOverhead).put { segment with cmd := cmd }

def flushProbeCommands (kcp : Kcp config) (segment : KcpSegment) : Kcp config :=
  let asked := if kcp.probe &&& kcpAskSend ≠ 0 then kcp.flushProbe kcpCmdWask segment else kcp
  let told := if kcp.probe &&& kcpAskTell ≠ 0 then asked.flushProbe kcpCmdWins segment else asked
  { told with probe := 0 }

/-- The loop that gives sequence numbers to queued segments while the window has room: what stays in
the queue, `snd_buf` and `snd_nxt`. -/
def slide (config : Config) (una cwnd : UInt32) : List KcpSegment → List KcpSegment → UInt32 →
    List KcpSegment × List KcpSegment × UInt32
  | [], sent, nxt => ([], sent, nxt)
  | segment :: rest, sent, nxt =>
    if timediff nxt (una + cwnd) < 0 then
      slide config una cwnd rest
        (sent ++ [{ segment with conv := config.conv, cmd := kcpCmdPush, sn := nxt }]) (nxt + 1)
    else (segment :: rest, sent, nxt)

/-- Why a segment goes out, if it does. -/
inductive Resend where
  | none
  | first
  | fast
  | timeout
  deriving DecidableEq

def resendOf (kcp : Kcp config) (resent : UInt32) (newSegs : ℕ) (segment : KcpSegment) : Resend :=
  if segment.acked then .none
  else if segment.xmit = 0 then .first
  else if resent ≤ segment.fastack ∧ segment.fastack ≠ 0xFFFFFFFF then .fast
  else if 0 < segment.fastack ∧ segment.fastack ≠ 0xFFFFFFFF ∧ newSegs = 0 then .fast
  else if 0 ≤ timediff kcp.current segment.resendts then .timeout
  else .none

/-- The segment with its next timeout. -/
def schedule (kcp : Kcp config) (resend : Resend) (segment : KcpSegment) : KcpSegment :=
  match resend with
  | .none => segment
  | .first => { segment with rto := kcp.rxRto, resendts := kcp.current + kcp.rxRto }
  | .fast =>
    { segment with
      fastack := 0xFFFFFFFF, rto := kcp.rxRto, resendts := kcp.current + kcp.rxRto }
  | .timeout =>
    let rto := segment.rto + if config.nodelay then kcp.rxRto / 2 else kcp.rxRto
    { segment with rto := rto, fastack := 0, resendts := kcp.current + rto }

/-- Put one segment of `snd_buf` on the wire. -/
def transmit (kcp : Kcp config) (wnd : UInt16) (segment : KcpSegment) : Kcp config × KcpSegment :=
  let stamped :=
    { segment with
      xmit := segment.xmit + 1, ts := kcp.current, wnd := wnd, una := kcp.rcvNxt }
  let written := (kcp.makeRoom (kcpOverhead + stamped.data.length)).put stamped
  ({ written with dead := written.dead || decide (config.deadLink ≤ stamped.xmit) }, stamped)

/-- The retransmission pass: `snd_buf` afterwards, how many segments were resent early, and whether
any timed out. -/
def transmitAll (kcp : Kcp config) (wnd : UInt16) (resent : UInt32) (newSegs : ℕ) :
    List KcpSegment → Kcp config × List KcpSegment × ℕ × Bool
  | [] => (kcp, [], 0, false)
  | segment :: rest =>
    let resend := kcp.resendOf resent newSegs segment
    if resend = .none then
      let later := kcp.transmitAll wnd resent newSegs rest
      (later.1, segment :: later.2.1, later.2.2)
    else
      let sent := kcp.transmit wnd (kcp.schedule resend segment)
      let later := sent.1.transmitAll wnd resent newSegs rest
      (later.1, sent.2 :: later.2.1, later.2.2.1 + (if resend = .fast then 1 else 0),
        decide (resend = .timeout) || later.2.2.2)

/-- The congestion window after a flush. -/
def adjustWindow (kcp : Kcp config) (cwnd resent : UInt32) (change : ℕ) (lost : Bool) :
    Kcp config :=
  if config.nocwnd then kcp
  else
    let mss := UInt32.ofNat config.mss
    let changed :=
      if 0 < change then
        let ssthresh := max ((kcp.sndNxt - kcp.sndUna) / 2) kcpThreshMin
        { kcp with
          ssthresh := ssthresh, cwnd := ssthresh + resent, incr := (ssthresh + resent) * mss }
      else kcp
    let shrunk :=
      if lost then
        { changed with ssthresh := max (cwnd / 2) kcpThreshMin, cwnd := 1, incr := mss }
      else changed
    if shrunk.cwnd < 1 then { shrunk with cwnd := 1, incr := mss } else shrunk

def drainBuf (kcp : Kcp config) : Kcp config :=
  if kcp.buf.isEmpty then kcp else { kcp with output := kcp.output ++ [kcp.buf], buf := [] }

def flushControl (kcp : Kcp config) : Kcp config :=
  let flushed := kcp.flushAck
    { conv := config.conv, cmd := kcpCmdAck, wnd := kcp.wndUnused, una := kcp.rcvNxt }
  flushed.1.probeWndSize.flushProbeCommands flushed.2

/-- The window that a flush may fill. -/
def flushWindow (kcp : Kcp config) : UInt32 :=
  let window := min config.sndWnd kcp.rmtWnd
  if config.nocwnd then window else min kcp.cwnd window

def slideQueue (kcp : Kcp config) : Kcp config :=
  let slid := slide config kcp.sndUna kcp.flushWindow kcp.sndQueue kcp.sndBuf kcp.sndNxt
  { kcp with sndQueue := slid.1, sndBuf := slid.2.1, sndNxt := slid.2.2 }

def flushInner (kcp : Kcp config) (kind : FlushType) : Kcp config :=
  let controlled := kcp.flushControl
  let numbered := controlled.slideQueue
  let newSegs := controlled.sndQueue.length - numbered.sndQueue.length
  let resent := if 0 < config.fastresend then config.fastresend else 0xFFFFFFFF
  match kind with
  | .ackOnly => numbered.drainBuf.adjustWindow controlled.flushWindow resent 0 false
  | .full =>
    let sent := numbered.transmitAll kcp.wndUnused resent newSegs numbered.sndBuf
    ({ sent.1 with sndBuf := sent.2.1 }.drainBuf).adjustWindow controlled.flushWindow resent
      sent.2.2.1 sent.2.2.2

def flush (kcp : Kcp config) : Kcp config × Except KcpError Unit :=
  if kcp.updated then (kcp.flushInner .full, .ok ()) else (kcp, .error .needUpdate)

def flushAckOnly (kcp : Kcp config) : Kcp config × Except KcpError Unit :=
  if kcp.updated then (kcp.flushInner .ackOnly, .ok ()) else (kcp, .error .needUpdate)

def setClock (kcp : Kcp config) (current : UInt32) : Kcp config :=
  if kcp.updated then { kcp with current := current }
  else { kcp with current := current, updated := true, tsFlush := current }

def update (kcp : Kcp config) (current : UInt32) : Kcp config :=
  let clocked := kcp.setClock current
  let slap := timediff current clocked.tsFlush
  let steady := decide (-10000 ≤ slap) && decide (slap < 10000)
  let start := if steady then clocked.tsFlush else current
  if !steady || decide (0 ≤ slap) then
    let next := start + config.interval
    let due := if 0 ≤ timediff current next then current + config.interval else next
    ({ clocked with tsFlush := due }.flush).1
  else { clocked with tsFlush := start }

/-- The local variables of `input`. -/
structure Scan where
  updateRtt : Bool
  latest : UInt32
  flushSegments : Bool

def u32At (buf : Bytes) (offset : ℕ) : UInt32 :=
  UInt32.ofNat (leValue ((buf.drop offset).take 4))

def u16At (buf : Bytes) (offset : ℕ) : UInt16 :=
  UInt16.ofNat (leValue ((buf.drop offset).take 2))

def u8At (buf : Bytes) (offset : ℕ) : UInt8 :=
  UInt8.ofNat (leValue ((buf.drop offset).take 1))

def lenAt (buf : Bytes) : ℕ :=
  (u32At buf 20).toNat

def readSegment (buf : Bytes) : KcpSegment where
  conv := u32At buf 0
  cmd := u8At buf 4
  frg := u8At buf 5
  wnd := u16At buf 6
  ts := u32At buf 8
  sn := u32At buf 12
  una := u32At buf 16
  data := (buf.drop kcpOverhead).take (lenAt buf)

/-- What every segment tells: the window and the cumulative acknowledgement of the peer. -/
def hear (kcp : Kcp config) (regular : Bool) (segment : KcpSegment) : Kcp config × Bool :=
  let heard := if regular then { kcp with rmtWnd := segment.wnd.toUInt32 } else kcp
  let passed := heard.parseUna segment.una
  (passed.1.shrinkBuf, passed.2)

/-- What a segment tells by its command. -/
def dispatch (kcp : Kcp config) (scan : Scan) (segment : KcpSegment) : Kcp config × Scan :=
  if segment.cmd = kcpCmdAck then
    let counted := (kcp.parseAck segment.sn).parseFastack segment.sn segment.ts
    (counted.1, ⟨true, segment.ts, scan.flushSegments || counted.2⟩)
  else if segment.cmd = kcpCmdPush then
    if timediff segment.sn (kcp.rcvNxt + config.rcvWnd) < 0 then
      let noted := kcp.ackPush segment.sn segment.ts
      if 0 ≤ timediff segment.sn noted.rcvNxt then (noted.parseData segment, scan)
      else (noted, scan)
    else (kcp, scan)
  else if segment.cmd = kcpCmdWask then ({ kcp with probe := kcp.probe ||| kcpAskTell }, scan)
  else (kcp, scan)

/-- The effect of one segment of a datagram. -/
def inputSegment (kcp : Kcp config) (regular : Bool) (scan : Scan) (segment : KcpSegment) :
    Kcp config × Scan :=
  let heard := kcp.hear regular segment
  heard.1.dispatch { scan with flushSegments := scan.flushSegments || heard.2 } segment

/-- The loop of `input` over the segments of a datagram; `fuel` is at least the number of bytes
left.  No caller asks for `input_conv`, which is left out. -/
def inputLoop (regular : Bool) :
    ℕ → Kcp config → Scan → Bytes → Kcp config × Except KcpError (Scan × Bytes)
  | 0, kcp, scan, buf => (kcp, .ok (scan, buf))
  | fuel + 1, kcp, scan, buf =>
    if buf.length < kcpOverhead then (kcp, .ok (scan, buf))
    else
      let segment := readSegment buf
      let body := buf.drop kcpOverhead
      if segment.conv ≠ config.conv then
        (kcp, .error (.convInconsistent config.conv segment.conv))
      else if body.length < lenAt buf then
        (kcp, .error (.invalidSegmentDataSize (lenAt buf) body.length))
      else if segment.cmd ∉ [kcpCmdPush, kcpCmdAck, kcpCmdWask, kcpCmdWins] then
        (kcp, .error (.unsupportedCmd segment.cmd))
      else
        let done := kcp.inputSegment regular scan segment
        inputLoop regular fuel done.1 done.2 (body.drop (lenAt buf))

/-- The growth of the congestion window when `snd_una` moved. -/
def growWindow (kcp : Kcp config) (oldUna : UInt32) : Kcp config :=
  if config.nocwnd = false ∧ 0 < timediff kcp.sndUna oldUna ∧ kcp.cwnd < kcp.rmtWnd then
    let mss := UInt32.ofNat config.mss
    let grown : Kcp config :=
      if kcp.cwnd < kcp.ssthresh then { kcp with cwnd := kcp.cwnd + 1, incr := kcp.incr + mss }
      else
        let least := max kcp.incr mss
        let incr := least + (mss * mss / least + mss / 16)
        { kcp with
          incr := incr,
          cwnd := if (kcp.cwnd + 1) * mss ≤ incr then (incr + mss - 1) / mss else kcp.cwnd }
    if grown.rmtWnd < grown.cwnd then
      { grown with cwnd := grown.rmtWnd, incr := grown.rmtWnd * mss }
    else grown
  else kcp

/-- The end of `input`: one round-trip sample, the congestion window, and the flush that cannot
wait. -/
def finishInput (kcp : Kcp config) (oldUna : UInt32) (scan : Scan) (regular ackNodelay : Bool) :
    Kcp config :=
  let rtt := timediff kcp.current scan.latest
  let sampled := if scan.updateRtt ∧ regular ∧ 0 ≤ rtt then kcp.updateAck rtt else kcp
  let grown := sampled.growWindow oldUna
  if scan.flushSegments then grown.flushInner .full
  else if config.mtu / kcpOverhead ≤ grown.acklist.length ∨
      (ackNodelay = true ∧ grown.acklist.isEmpty = false) then grown.flushInner .ackOnly
  else grown

def input (kcp : Kcp config) (buf : Bytes) (regular ackNodelay : Bool) :
    Kcp config × Except KcpError ℕ :=
  if buf.length < kcpOverhead then (kcp, .error (.invalidSegmentSize buf.length))
  else
    match inputLoop regular buf.length kcp ⟨false, 0, false⟩ buf with
    | (scanned, .error error) => (scanned, .error error)
    | (scanned, .ok (scan, rest)) =>
      (scanned.finishInput kcp.sndUna scan regular ackNodelay, .ok (buf.length - rest.length))

end Kcp

end MeowRs.KcpGo
