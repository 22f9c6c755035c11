import MeowRs.ActionRuns
import MeowRs.HttpResponseHead
import MeowRs.HttpRewriting
import MeowRs.Polling

/-!
# One request for each connection

Behind the head of a plain request the relay reads from the client only what belongs to the body of
that request.  Bytes that came with the head are taken first, then those of the socket; whatever
follows the body is dropped.  The response is watched on its way back: once it is complete, the rest of
the body is of no use any more.
-/

namespace MeowRs.Http

open List Option Text Results

open Polling (Poll WriteAnswer)
open Framing (Feeds)

section Client

inductive ResponseWriteState where
  | head
  | interimPending
  | finalPending
  | upgradePending
  | streaming
  | upgraded
  deriving DecidableEq

structure SingleRequestClient where
  buffered : Text
  bufferedPos : Nat
  body : RequestBodyDecoder
  clientEof : Bool
  discardedClientBytes : Nat
  held : Text
  heldPos : Nat
  responseDone : Bool
  responseBuf : Text
  responsePos : Nat
  responseState : ResponseWriteState
  sentResponseBytes : Bool
  upgradeRequested : Bool
  upgradeDeclined : Bool
  passUpstreamShutdown : Bool

/-- A buffer to read into, which may hold bytes already. -/
structure ReadBuf where
  filled : Text
  capacity : Nat

namespace ReadBuf

def remaining (destination : ReadBuf) : Nat :=
  destination.capacity - destination.filled.length

def put (destination : ReadBuf) (bytes : Text) : ReadBuf :=
  { destination with filled := destination.filled ++ bytes }

end ReadBuf

abbrev Arrival := Poll (Except IoError Text)

/-- What a read leaves behind, with the bytes that it took from the socket if it read there. -/
structure ReadOutcome where
  result : Poll (Except IoError Unit)
  destination : ReadBuf
  client : SingleRequestClient
  taken : Option Text

namespace SingleRequestClient

def clientDiscardBufferSize : Nat := 1024
def maxDiscardedClientBytes : Nat := 64 * 1024
def maxHeldUpgradeBytes : Nat := 64 * 1024

def new (buffered : Text) (bodyKind : RequestBodyKind) (upgradeRequested : Bool) :
    SingleRequestClient where
  buffered := buffered
  bufferedPos := 0
  body := .new bodyKind
  clientEof := false
  discardedClientBytes := 0
  held := []
  heldPos := 0
  responseDone := false
  responseBuf := []
  responsePos := 0
  responseState := .head
  sentResponseBytes := false
  upgradeRequested := upgradeRequested
  upgradeDeclined := false
  passUpstreamShutdown := false

variable (client : SingleRequestClient)

def recordDiscardedClientBytes (count : Nat) : Except IoError SingleRequestClient :=
  match checked (client.discardedClientBytes + count) with
  | none => .error (invalidData "discarded client bytes overflow")
  | some discarded =>
    if maxDiscardedClientBytes < discarded then
      .error (invalidData "too many client bytes after the request boundary")
    else .ok { client with discardedClientBytes := discarded }

def pollDiscardAfterBody (arrival : Arrival) (destination : ReadBuf) : ReadOutcome :=
  if client.bufferedPos < client.buffered.length then
    match client.recordDiscardedClientBytes (client.buffered.length - client.bufferedPos) with
    | .error error => ⟨.ready (.error error), destination, client, none⟩
    | .ok client =>
      ⟨.pending, destination, { client with bufferedPos := client.buffered.length }, none⟩
  else if client.clientEof then ⟨.ready (.ok ()), destination, client, none⟩
  else if client.discardedClientBytes = maxDiscardedClientBytes then
    ⟨.ready (.error (invalidData "too many client bytes after the request boundary")), destination,
      client, none⟩
  else
    match arrival with
    | .ready (.ok bytes) =>
      let bytes := bytes.take
        (min (maxDiscardedClientBytes - client.discardedClientBytes) clientDiscardBufferSize)
      if bytes = [] then
        ⟨.ready (.ok ()), destination, { client with clientEof := true }, some []⟩
      else
        match client.recordDiscardedClientBytes bytes.length with
        | .error error => ⟨.ready (.error error), destination, client, some bytes⟩
        | .ok client => ⟨.pending, destination, client, some bytes⟩
    | .ready (.error error) => ⟨.ready (.error error), destination, client, none⟩
    | .pending =>
      ⟨if client.responseDone then .ready (.ok ()) else .pending, destination, client, none⟩

/-- Keep what the client sends while the origin decides about an upgrade. -/
def pollHoldBeforeUpgrade (arrival : Arrival) (destination : ReadBuf) : ReadOutcome :=
  if client.clientEof then ⟨.ready (.ok ()), destination, client, none⟩
  else if maxHeldUpgradeBytes - client.held.length = 0 then
    ⟨.ready (.error (invalidData "too many client bytes before the upgrade decision")), destination,
      client, none⟩
  else
    match arrival with
    | .ready (.ok bytes) =>
      let bytes := bytes.take
        (min (maxHeldUpgradeBytes - client.held.length) clientDiscardBufferSize)
      if bytes = [] then
        ⟨.ready (.ok ()), destination, { client with clientEof := true }, some []⟩
      else ⟨.pending, destination, { client with held := client.held ++ bytes }, some bytes⟩
    | .ready (.error error) => ⟨.ready (.error error), destination, client, none⟩
    | .pending => ⟨.pending, destination, client, none⟩

/-- Read from a connection that has been upgraded. -/
def readUpgraded (arrival : Arrival) (destination : ReadBuf) : ReadOutcome :=
  if client.bufferedPos < client.buffered.length then
    let available := min destination.remaining (client.buffered.length - client.bufferedPos)
    ⟨.ready (.ok ()), destination.put ((client.buffered.drop client.bufferedPos).take available),
      { client with bufferedPos := client.bufferedPos + available }, none⟩
  else if client.heldPos < client.held.length then
    let available := min destination.remaining (client.held.length - client.heldPos)
    ⟨.ready (.ok ()), destination.put ((client.held.drop client.heldPos).take available),
      { client with heldPos := client.heldPos + available }, none⟩
  else
    match arrival with
    | .ready (.ok bytes) =>
      let bytes := bytes.take destination.remaining
      ⟨.ready (.ok ()), destination.put bytes, client, some bytes⟩
    | .ready (.error error) => ⟨.ready (.error error), destination, client, none⟩
    | .pending => ⟨.pending, destination, client, none⟩

def readSocket (arrival : Arrival) (initiallyFilled : Nat) (destination : ReadBuf) : ReadOutcome :=
  match arrival with
  | .ready (.ok bytes) =>
    let bytes := bytes.take destination.remaining
    if bytes = [] then
      ⟨.ready (.error ⟨.unexpectedEof, "request body ended before its framing boundary"⟩),
        destination, client, some []⟩
    else
      match client.body.consumeSlice bytes with
      | .error error => ⟨.ready (.error error), destination, client, some bytes⟩
      | .ok (consumed, body) =>
        match recordDiscardedClientBytes { client with body := body }
            (bytes.length - consumed) with
        | .error error =>
          ⟨.ready (.error error), destination, { client with body := body }, some bytes⟩
        | .ok client =>
          ⟨.ready (.ok ()), destination.put (bytes.take consumed), client, some bytes⟩
  | .ready (.error error) => ⟨.ready (.error error), destination, client, none⟩
  | .pending =>
    ⟨if destination.filled.length ≠ initiallyFilled then .ready (.ok ()) else .pending,
      destination, client, none⟩

/-- Read from a connection without an upgrade, or one that is not decided yet; a round takes bytes
that came with the head, and there are at most `fuel` of them. -/
def pollReadWithin (arrival : Arrival) (initiallyFilled : Nat) :
    Nat → ReadBuf → SingleRequestClient → ReadOutcome
  | 0, destination, client => ⟨.pending, destination, client, none⟩
  | fuel + 1, destination, client =>
    if client.responseState = .upgraded then client.readUpgraded arrival destination
    else if client.upgradeDeclined ∧ client.responseState = .streaming then
      ⟨.ready (.ok ()), destination, client, none⟩
    else if client.responseDone ∧ ¬ client.body.isDone then
      ⟨.ready (.ok ()), destination, client, none⟩
    else if client.body.isDone then
      if destination.filled.length ≠ initiallyFilled then
        ⟨.ready (.ok ()), destination, client, none⟩
      else if client.upgradeRequested ∧ (client.responseState = .head ∨
          client.responseState = .interimPending ∨ client.responseState = .upgradePending) then
        client.pollHoldBeforeUpgrade arrival destination
      else client.pollDiscardAfterBody arrival destination
    else if destination.remaining = 0 then ⟨.ready (.ok ()), destination, client, none⟩
    else if client.bufferedPos < client.buffered.length then
      let available := min destination.remaining (client.buffered.length - client.bufferedPos)
      let source := (client.buffered.drop client.bufferedPos).take available
      match client.body.consumeSlice source with
      | .error error => ⟨.ready (.error error), destination, client, none⟩
      | .ok (consumed, body) =>
        pollReadWithin arrival initiallyFilled fuel (destination.put (source.take consumed))
          { client with body := body, bufferedPos := client.bufferedPos + consumed }
    else client.readSocket arrival initiallyFilled destination

def pollRead (arrival : Arrival) (destination : ReadBuf) : ReadOutcome :=
  pollReadWithin arrival destination.filled.length
    (client.buffered.length - client.bufferedPos + 1) destination client

def writeZero : IoError := ⟨.writeZero, "write zero bytes to HTTP proxy client"⟩

def responseDrained : SingleRequestClient :=
  let client := { client with responseBuf := [], responsePos := 0 }
  match client.responseState with
  | .interimPending => { client with responseState := .head }
  | .finalPending =>
    { client with
      responseState := .streaming
      passUpstreamShutdown := client.passUpstreamShutdown || client.upgradeDeclined }
  | .upgradePending => { client with responseState := .upgraded, passUpstreamShutdown := true }
  | _ => client

def pollDrainResponse (answers : List (WriteAnswer IoError)) :
    Poll (Except IoError Unit) × SingleRequestClient × List (WriteAnswer IoError) :=
  let drained := Polling.drain writeZero client.responseBuf.length answers client.responsePos
  let client := { client with
    responsePos := drained.pos
    sentResponseBytes := client.sentResponseBytes || decide (client.responsePos < drained.pos) }
  match drained.outcome with
  | .ready (.ok ()) => (.ready (.ok ()), client.responseDrained, drained.answers)
  | outcome => (outcome, client, drained.answers)

def isResponsePending : Bool :=
  client.responseState = .interimPending || client.responseState = .finalPending ||
    client.responseState = .upgradePending

def prepareResponseHead : Except IoError SingleRequestClient :=
  if hasBareLineEnding client.responseBuf then
    .error (invalidData "bare CR or LF in upstream response headers")
  else do
    let status ← parseResponseStatus client.responseBuf
    let client := { client with responsePos := 0 }
    if 100 ≤ status ∧ status < 200 ∧ status ≠ 101 then
      let rewritten ← rewriteResponseHead .interim client.responseBuf
      .ok { client with responseBuf := rewritten, responseState := .interimPending }
    else if status = 101 then
      if ¬ client.upgradeRequested ∨ ¬ client.body.isDone then
        .error (invalidData "unexpected upstream 101 response")
      else
        validateUpgradeResponse client.responseBuf
        let rewritten ← rewriteResponseHead .upgrade client.responseBuf
        .ok { client with responseBuf := rewritten, responseState := .upgradePending }
    else
      let rewritten ← rewriteResponseHead .close client.responseBuf
      .ok { client with
        upgradeDeclined := client.upgradeRequested
        responseBuf := rewritten
        responseState := .finalPending }

def writeHead (source : Text) : Poll (Except IoError Nat) × SingleRequestClient :=
  if source = [] then (.ready (.ok 0), client)
  else
    let available := maxResponseHeaders - client.responseBuf.length
    if available = 0 then
      (.ready (.error (invalidData "upstream response headers are too large")), client)
    else
      let oldLen := client.responseBuf.length
      let copied := min available source.length
      let buf := client.responseBuf ++ source.take copied
      let searchStart := oldLen - 3
      match findCrlfCrlf (buf.drop searchStart) with
      | some marker =>
        let headEnd := searchStart + marker + 4
        let client := { client with responseBuf := buf.take headEnd }
        match client.prepareResponseHead with
        | .error error => (.ready (.error error), client)
        | .ok client => (.ready (.ok (headEnd - oldLen)), client)
      | none => (.ready (.ok copied), { client with responseBuf := buf })

def socketWrite (source : Text) : List (WriteAnswer IoError) → Poll (Except IoError Nat)
  | .ready (.ok count) :: _ => .ready (.ok (min count source.length))
  | .ready (.error error) :: _ => .ready (.error error)
  | _ => .pending

def writeBehindHead (source : Text) (answers : List (WriteAnswer IoError)) :
    Poll (Except IoError Nat) × SingleRequestClient :=
  if client.responseState = .head then client.writeHead source
  else (socketWrite source answers, client)

def pollWrite (source : Text) (answers : List (WriteAnswer IoError)) :
    Poll (Except IoError Nat) × SingleRequestClient :=
  if client.isResponsePending then
    match client.pollDrainResponse answers with
    | (.ready (.ok ()), client, answers) => client.writeBehindHead source answers
    | (.ready (.error error), client, _) => (.ready (.error error), client)
    | (.pending, client, _) => (.pending, client)
  else client.writeBehindHead source answers

def pollFlush (answers : List (WriteAnswer IoError)) (flushed : Poll (Except IoError Unit)) :
    Poll (Except IoError Unit) × SingleRequestClient :=
  if client.isResponsePending then
    match client.pollDrainResponse answers with
    | (.ready (.ok ()), client, _) => (flushed, client)
    | (outcome, client, _) => (outcome, client)
  else (flushed, client)

def finishResponse (shut : Poll (Except IoError Unit)) :
    Poll (Except IoError Unit) × SingleRequestClient :=
  if client.responseState = .head then
    (.ready (.error ⟨.unexpectedEof,
      "upstream closed before its final response headers completed"⟩), client)
  else (shut, { client with responseDone := true })

def pollShutdown (answers : List (WriteAnswer IoError)) (shut : Poll (Except IoError Unit)) :
    Poll (Except IoError Unit) × SingleRequestClient :=
  if client.isResponsePending then
    match client.pollDrainResponse answers with
    | (.ready (.ok ()), client, _) => client.finishResponse shut
    | (outcome, client, _) => (outcome, client)
  else client.finishResponse shut

end SingleRequestClient

end Client

section Reading

namespace SingleRequestClient

variable {out : ReadOutcome}

/-- What a read leaves of a connection without an upgrade, apart from the body and what follows it. -/
structure Keeps (client next : SingleRequestClient) : Prop where
  buffered : next.buffered = client.buffered
  responseState : next.responseState = client.responseState
  responseDone : next.responseDone = client.responseDone
  upgradeRequested : next.upgradeRequested = client.upgradeRequested
  upgradeDeclined : next.upgradeDeclined = client.upgradeDeclined

theorem Keeps.refl (cl : SingleRequestClient) : Keeps cl cl :=
  ⟨rfl, rfl, rfl, rfl, rfl⟩

/-- A read that does not fail: the decoder took the bytes that were put into the destination, from
what came with the head and then from the socket. -/
structure Delivers (initiallyFilled : Nat) (destination : ReadBuf) (client : SingleRequestClient)
    (outcome : ReadOutcome) (text : Text) : Prop where
  keeps : Keeps client outcome.client
  within : outcome.client.bufferedPos ≤ client.buffered.length
  filled : outcome.destination.filled = destination.filled ++ text
  feeds : Feeds RequestBodyDecoder.consume client.body text outcome.client.body
  isFront : text <+: client.buffered.drop client.bufferedPos ++ outcome.taken.getD []
  whole : outcome.client.body ≠ .done →
    client.buffered.take client.bufferedPos ++ text =
      client.buffered.take outcome.client.bufferedPos ++ outcome.taken.getD [] ∧
    (outcome.taken.getD [] ≠ [] → outcome.client.bufferedPos = client.buffered.length)
  ends : outcome.result = .ready (.ok ()) → outcome.destination.filled.length = initiallyFilled →
    outcome.destination.remaining ≠ 0 → client.responseDone = false → outcome.client.body = .done
  quiet : outcome.result = .pending → outcome.destination.filled.length = initiallyFilled
  eof : outcome.taken = some [] → outcome.client.body = .done

def ReadsWell (initiallyFilled : Nat) (destination : ReadBuf) (client : SingleRequestClient)
    (outcome : ReadOutcome) : Prop :=
  (∃ error, outcome.result = .ready (.error error)) ∨
    ∃ text, Delivers initiallyFilled destination client outcome text

variable {initiallyFilled : Nat} {dst : ReadBuf} {cl : SingleRequestClient}

theorem readsWell_of_ok (hw : cl.bufferedPos ≤ cl.buffered.length)
    (he : dst.filled.length = initiallyFilled → dst.remaining ≠ 0 →
      cl.responseDone = false → cl.body = .done) :
    ReadsWell initiallyFilled dst cl ⟨.ready (.ok ()), dst, cl, none⟩ :=
  .inr ⟨[], .refl cl, hw, (append_nil _).symm, .nil _, nil_prefix,
    fun _ => ⟨rfl, fun hs => absurd rfl hs⟩, fun _ => he, nofun, nofun⟩

theorem readsWell_of_done (hd : cl.body = .done) (hk : Keeps cl out.client)
    (hb : out.client.body = cl.body) (hw : out.client.bufferedPos ≤ cl.buffered.length)
    (hde : out.destination = dst) (hu : dst.filled.length = initiallyFilled) :
    ReadsWell initiallyFilled dst cl out := by
  have hdo : out.client.body = .done := hb.trans hd
  refine .inr ⟨[], hk, hw, ?_, ?_, nil_prefix, fun hm => absurd hdo hm,
    fun _ _ _ _ => hdo, ?_, fun _ => hdo⟩
  · rw [hde, append_nil]
  · rw [hb]
    exact .nil _
  · intro _
    rw [hde]
    exact hu

theorem keeps_of_recordDiscardedClientBytes {n : Nat} {next : SingleRequestClient}
    (hr : cl.recordDiscardedClientBytes n = .ok next) :
    Keeps cl next ∧ next.body = cl.body ∧ next.bufferedPos = cl.bufferedPos := by
  unfold recordDiscardedClientBytes at hr
  split at hr
  · cases hr
  · split at hr <;> cases hr
    exact ⟨⟨rfl, rfl, rfl, rfl, rfl⟩, rfl, rfl⟩

theorem readsWell_pollDiscardAfterBody (arr : Arrival) (hd : cl.body = .done)
    (hw : cl.bufferedPos ≤ cl.buffered.length) (hu : dst.filled.length = initiallyFilled) :
    ReadsWell initiallyFilled dst cl
      (cl.pollDiscardAfterBody arr dst) := by
  unfold pollDiscardAfterBody
  split
  · split
    · exact .inl ⟨_, rfl⟩
    · rename_i next recorded
      obtain ⟨hk, hb, hp⟩ := keeps_of_recordDiscardedClientBytes recorded
      refine readsWell_of_done hd ⟨hk.1, hk.2, hk.3, hk.4, hk.5⟩ hb ?_ rfl hu
      rw [← hk.buffered]
  · split
    · exact readsWell_of_done hd (.refl cl) rfl hw rfl hu
    · split
      · exact .inl ⟨_, rfl⟩
      · split
        · dsimp only
          split
          · exact readsWell_of_done hd ⟨rfl, rfl, rfl, rfl, rfl⟩ rfl hw rfl hu
          · split
            · exact .inl ⟨_, rfl⟩
            · rename_i next recorded
              obtain ⟨hk, hb, hp⟩ := keeps_of_recordDiscardedClientBytes recorded
              refine readsWell_of_done hd hk hb ?_ rfl hu
              rw [hp]
              exact hw
        · exact .inl ⟨_, rfl⟩
        · exact readsWell_of_done hd (.refl cl) rfl hw rfl hu

theorem readsWell_readSocket (arr : Arrival) (hst : initiallyFilled ≤ dst.filled.length)
    (hex : cl.bufferedPos = cl.buffered.length) :
    ReadsWell initiallyFilled dst cl
      (cl.readSocket arr initiallyFilled dst) := by
  unfold readSocket
  split
  · rename_i bs
    dsimp only
    split
    · exact .inl ⟨_, rfl⟩
    · rename_i ne
      split
      · exact .inl ⟨_, rfl⟩
      · rename_i con body slice
        split
        · exact .inl ⟨_, rfl⟩
        · rename_i next recorded
          obtain ⟨hke, hbo, hpo⟩ := keeps_of_recordDiscardedClientBytes recorded
          have hta := takesSlice_of_consumeSlice slice
          have had := hta.advances ne
          refine .inr ⟨_, ⟨hke.1, hke.2, hke.3, hke.4, hke.5⟩, ?_, rfl, ?_, ?_, ?_, ?_, nofun, ?_⟩
          · exact le_of_eq (hpo.trans hex)
          · rw [hbo]
            exact hta.feeds
          · rw [hex, drop_length, nil_append]
            exact take_prefix _ _
          · intro more
            rw [hbo] at more
            have all := hta.reaches.resolve_right more
            rw [all, take_length, hpo]
            exact ⟨rfl, fun _ => hex⟩
          · intro _ hun
            have hw := hta.within
            rw [ReadBuf.put, length_append, length_take_of_le hw] at hun
            omega
          · intro eof
            exact absurd (some.inj eof) ne
  · exact .inl ⟨_, rfl⟩
  · refine .inr ⟨[], .refl cl, hex.le, (append_nil _).symm, .nil _, nil_prefix,
      fun _ => ⟨rfl, fun some => absurd rfl some⟩, ?_, ?_, nofun⟩
    · intro hre hun
      rw [if_neg (not_not.mpr hun)] at hre
      cases hre
    · intro pend
      by_contra changed
      rw [if_pos changed] at pend
      cases pend

theorem Delivers.after_round {text source : Text} {con : Nat} {body : RequestBodyDecoder}
    (hso : source <+: cl.buffered.drop cl.bufferedPos) (ht : TakesSlice cl.body source con body)
    (hd : Delivers initiallyFilled (dst.put (source.take con))
      { cl with body := body, bufferedPos := cl.bufferedPos + con } out text) :
    Delivers initiallyFilled dst cl out (source.take con ++ text) := by
  obtain ⟨hk, hw, hfi, hf, hfr, wh, he, hq, eof⟩ := hd
  have hr : source.take con = (cl.buffered.drop cl.bufferedPos).take con := by
    obtain ⟨hbe, hc⟩ := hso
    rw [← hc, take_append_of_le_length ht.within]
  refine ⟨⟨hk.1, hk.2, hk.3, hk.4, hk.5⟩, hw, ?_, ht.feeds.append hf, ?_, ?_, he, hq, eof⟩
  · rw [hfi, ReadBuf.put, append_assoc]
  · have hc := take_append_drop con (cl.buffered.drop cl.bufferedPos)
    rw [← hr, drop_drop] at hc
    rw [← hc, append_assoc]
    exact (prefix_append_right_inj _).mpr hfr
  · intro hm
    obtain ⟨hs, hbe⟩ := wh hm
    refine ⟨?_, hbe⟩
    rw [← hs, hr, ← append_assoc, ← take_add]

theorem Delivers.stays_done {text : Text} (hd : Delivers initiallyFilled dst cl out text)
    (done : cl.body = .done) : text = [] ∧ out.client.body = .done := by
  have nx := hd.feeds
  rw [done] at nx
  have hn := Feeds.nil_of_done consume_done nx
  rw [hn] at nx
  exact ⟨hn, nx.unique (.nil _)⟩

theorem pending_of_readSocket {arr : Arrival}
    (hp : (cl.readSocket arr initiallyFilled dst).result = .pending) : arr = .pending := by
  revert hp
  unfold readSocket
  split
  · dsimp only
    split
    · nofun
    · split
      · nofun
      · split <;> nofun
  · nofun
  · exact fun _ => rfl

/-- A read fails or delivers bytes of the body; it waits for the socket, or for the response
behind the body. -/
theorem readsWell_pollReadWithin (arr : Arrival) {fuel : Nat} (hnu : cl.responseState ≠ .upgraded)
    (hn : cl.upgradeDeclined = false) (hnr : cl.upgradeRequested = false)
    (hw : cl.bufferedPos ≤ cl.buffered.length) (hs : initiallyFilled ≤ dst.filled.length)
    (he : cl.buffered.length - cl.bufferedPos < fuel) :
    ReadsWell initiallyFilled dst cl
        (pollReadWithin arr initiallyFilled fuel dst cl) ∧
      ((pollReadWithin arr initiallyFilled fuel dst cl).result = .pending → arr = .pending ∨
          (pollReadWithin arr initiallyFilled fuel dst cl).client.body = .done) := by
  induction fuel generalizing dst cl with
  | zero => cases he
  | succ fuel ih =>
    rw [pollReadWithin, if_neg hnu, if_neg (by simp [hn])]
    split
    · rename_i fin
      refine ⟨readsWell_of_ok hw fun _ _ open_ => ?_, nofun⟩
      rw [open_] at fin
      cases fin.1
    · split
      · rename_i isDone
        have done := isDone_iff.mp isDone
        split
        · rename_i changed
          exact ⟨readsWell_of_ok hw fun hun => absurd hun changed, nofun⟩
        · rename_i hun
          rw [if_neg (by simp [hnr])]
          have well := readsWell_pollDiscardAfterBody arr done hw (not_not.mp hun)
          refine ⟨well, fun pend => .inr ?_⟩
          rcases well with ⟨error, isError⟩ | ⟨text, hd⟩
          · rw [isError] at pend
            cases pend
          · exact (hd.stays_done done).2
      · split
        · rename_i full
          exact ⟨readsWell_of_ok hw fun _ room => absurd full room, nofun⟩
        · split
          · rename_i room more
            dsimp only
            generalize isSource : (cl.buffered.drop cl.bufferedPos).take
              (min dst.remaining (cl.buffered.length - cl.bufferedPos)) = source
            have len : source.length =
                min dst.remaining (cl.buffered.length - cl.bufferedPos) := by
              rw [← isSource, length_take, length_drop]
              omega
            split
            · exact ⟨.inl ⟨_, rfl⟩, nofun⟩
            · rename_i con body slice
              have takes := takesSlice_of_consumeSlice slice
              have advanced := takes.advances (length_pos_iff.mp (by omega))
              have hsh := takes.within
              have grown : initiallyFilled ≤ (dst.put (source.take con)).filled.length := by
                rw [ReadBuf.put, length_append]
                exact Nat.le_add_right_of_le hs
              obtain ⟨well, waits⟩ := @ih (dst.put (source.take con))
                { cl with body := body, bufferedPos := cl.bufferedPos + con }
                hnu hn hnr (by dsimp only; omega) grown
                (by dsimp only; omega)
              refine ⟨?_, waits⟩
              rcases well with failed | ⟨text, hd⟩
              · exact .inl failed
              · refine .inr ⟨_, hd.after_round ?_ takes⟩
                rw [← isSource]
                exact take_prefix _ _
          · exact ⟨readsWell_readSocket arr hs (by omega),
              fun pend => .inl (pending_of_readSocket pend)⟩

end SingleRequestClient

end Reading

section Responding

namespace SingleRequestClient

/-- A connection that was not and will not be upgraded. -/
structure Plain (client : SingleRequestClient) : Prop where
  notRequested : client.upgradeRequested = false
  notDeclined : client.upgradeDeclined = false
  notUpgraded : client.responseState ≠ .upgraded
  notPending : client.responseState ≠ .upgradePending

/-- The response leaves the upload as it is, and a plain connection plain. -/
structure Answers (client next : SingleRequestClient) : Prop where
  buffered : next.buffered = client.buffered
  bufferedPos : next.bufferedPos = client.bufferedPos
  body : next.body = client.body
  plain : Plain client → Plain next

theorem Answers.refl (cl : SingleRequestClient) : Answers cl cl :=
  ⟨rfl, rfl, rfl, id⟩

theorem Answers.trans {cl mid next : SingleRequestClient} (hf : Answers cl mid)
    (hs : Answers mid next) : Answers cl next :=
  ⟨hs.buffered.trans hf.buffered, hs.bufferedPos.trans hf.bufferedPos,
    hs.body.trans hf.body, fun hp => hs.plain (hf.plain hp)⟩

theorem Keeps.plain {cl next : SingleRequestClient} (hk : Keeps cl next)
    (hp : Plain cl) : Plain next := by
  refine ⟨hk.upgradeRequested.trans hp.notRequested,
    hk.upgradeDeclined.trans hp.notDeclined, ?_, ?_⟩
  · rw [hk.responseState]
    exact hp.notUpgraded
  · rw [hk.responseState]
    exact hp.notPending

variable {cl : SingleRequestClient}

/-- What is written and sent of the response, and its end, do not matter to the upload. -/
theorem Answers.withWritten (buf : Text) (pos : Nat) (sent done : Bool) :
    Answers cl { cl with
      responseBuf := buf, responsePos := pos, sentResponseBytes := sent, responseDone := done } :=
  ⟨rfl, rfl, rfl, fun hp => ⟨hp.1, hp.2, hp.3, hp.4⟩⟩

theorem answers_responseDrained : Answers cl cl.responseDrained := by
  unfold responseDrained
  dsimp only
  split
  · exact ⟨rfl, rfl, rfl, fun hp => ⟨hp.1, hp.2, nofun, nofun⟩⟩
  · exact ⟨rfl, rfl, rfl, fun hp => ⟨hp.1, hp.2, nofun, nofun⟩⟩
  · rename_i pend
    exact ⟨rfl, rfl, rfl, fun hp => absurd pend hp.notPending⟩
  · exact .withWritten _ _ _ _

theorem answers_pollDrainResponse (ans : List (WriteAnswer IoError)) :
    Answers cl (cl.pollDrainResponse ans).2.1 := by
  unfold pollDrainResponse
  dsimp only
  split
  · exact (Answers.withWritten _ _ _ _).trans answers_responseDrained
  · exact .withWritten _ _ _ _

theorem answers_prepareResponseHead {next : SingleRequestClient}
    (hp : cl.prepareResponseHead = .ok next) : Answers cl next := by
  unfold prepareResponseHead at hp
  split at hp
  · cases hp
  · obtain ⟨status, -, hp⟩ := bind_eq_ok.mp hp
    dsimp only at hp
    split at hp
    · obtain ⟨rewritten, -, hp⟩ := bind_eq_ok.mp hp
      cases hp
      exact ⟨rfl, rfl, rfl, fun hpl => ⟨hpl.1, hpl.2, nofun, nofun⟩⟩
    · split at hp
      · split at hp
        · cases hp
        · rename_i requested
          obtain ⟨_, -, hp⟩ := bind_eq_ok.mp hp
          obtain ⟨rewritten, -, hp⟩ := bind_eq_ok.mp hp
          cases hp
          refine ⟨rfl, rfl, rfl, fun hpl => ?_⟩
          rw [hpl.notRequested] at requested
          exact absurd (.inl Bool.false_ne_true) requested
      · obtain ⟨rewritten, -, hp⟩ := bind_eq_ok.mp hp
        cases hp
        exact ⟨rfl, rfl, rfl, fun hpl => ⟨hpl.1, hpl.1, nofun, nofun⟩⟩

theorem answers_writeHead (source : Text) : Answers cl (cl.writeHead source).2 := by
  unfold writeHead
  split
  · exact .refl cl
  · dsimp only
    split
    · exact .refl cl
    · split
      · split
        · exact .withWritten _ _ _ _
        · rename_i prep
          exact (Answers.withWritten _ _ _ _).trans (answers_prepareResponseHead prep)
      · exact .withWritten _ _ _ _

theorem answers_writeBehindHead (source : Text) (ans : List (WriteAnswer IoError)) :
    Answers cl (cl.writeBehindHead source ans).2 := by
  unfold writeBehindHead
  split
  · exact answers_writeHead source
  · exact .refl cl

theorem answers_pollWrite (source : Text) (ans : List (WriteAnswer IoError)) :
    Answers cl (cl.pollWrite source ans).2 := by
  have hd := @answers_pollDrainResponse cl ans
  unfold pollWrite
  split
  · split
    · rename_i drain
      rw [drain] at hd
      exact hd.trans (answers_writeBehindHead source _)
    all_goals
      rename_i drain
      rwa [drain] at hd
  · exact answers_writeBehindHead source ans

theorem answers_pollFlush (ans : List (WriteAnswer IoError))
    (flushed : Poll (Except IoError Unit)) : Answers cl (cl.pollFlush ans flushed).2 := by
  have hd := @answers_pollDrainResponse cl ans
  unfold pollFlush
  split
  · split
    all_goals
      rename_i drain
      rwa [drain] at hd
  · exact .refl cl

theorem answers_finishResponse (shut : Poll (Except IoError Unit)) :
    Answers cl (cl.finishResponse shut).2 := by
  unfold finishResponse
  split
  · exact .refl cl
  · exact .withWritten _ _ _ _

theorem answers_pollShutdown (ans : List (WriteAnswer IoError))
    (shut : Poll (Except IoError Unit)) : Answers cl (cl.pollShutdown ans shut).2 := by
  have hd := @answers_pollDrainResponse cl ans
  unfold pollShutdown
  split
  · split
    · rename_i drain
      rw [drain] at hd
      exact hd.trans (answers_finishResponse shut)
    · rename_i drain
      rwa [drain] at hd
  · exact answers_finishResponse shut

end SingleRequestClient

end Responding

section Exchange

inductive UploadEnd where
  | beforeResponse
  | afterResponse
  deriving DecidableEq

/-- An exchange: the client, the bytes its socket has delivered so far and whether it has ended, the
bytes that reads have given to the relay, how the upload ended, and whether a poll failed. -/
structure Exchange where
  client : SingleRequestClient
  arrived : Text
  clientEnded : Bool
  forwarded : Text
  ended : Option UploadEnd
  failed : Bool

inductive ExchangeAction where
  | read (destination : ReadBuf) (arrival : Arrival)
  | write (source : Text) (answers : List (WriteAnswer IoError))
  | flush (answers : List (WriteAnswer IoError)) (flushed : Poll (Except IoError Unit))
  | shutdown (answers : List (WriteAnswer IoError)) (shut : Poll (Except IoError Unit))

namespace Exchange

variable {destination : ReadBuf} {initiallyFilled : Nat} {out : ReadOutcome}
  {client : SingleRequestClient} {text : Text}

def start (buffered : Text) (request : RequestHead) : Exchange where
  client := .new buffered request.bodyKind request.upgradeRequested
  arrived := []
  clientEnded := false
  forwarded := []
  ended := none
  failed := false

/-- Hand the outcome of a read to the relay.  A read without bytes into a buffer with room is the end
of the upload. -/
def afterRead (exchange : Exchange) (destination : ReadBuf) (outcome : ReadOutcome) : Exchange :=
  let arrived := { exchange with
    client := outcome.client
    arrived := exchange.arrived ++ outcome.taken.getD []
    clientEnded := exchange.clientEnded || outcome.taken == some [] }
  match outcome.result with
  | .pending => arrived
  | .ready (.error _) => { arrived with failed := true }
  | .ready (.ok ()) =>
    let bytes := outcome.destination.filled.drop destination.filled.length
    { arrived with
      forwarded := exchange.forwarded ++ bytes
      ended :=
        if bytes = [] ∧ outcome.destination.remaining ≠ 0 then
          some (if exchange.client.responseDone then .afterResponse else .beforeResponse)
        else none }

/-- The relay reads until the upload has ended, and stops when a read fails. -/
def step (exchange : Exchange) (action : ExchangeAction) : Option Exchange :=
  if exchange.failed then none
  else
    match action with
    | .read destination arrival =>
      if exchange.ended.isSome then none
      else some (exchange.afterRead destination (exchange.client.pollRead arrival destination))
    | .write source answers =>
      some { exchange with client := (exchange.client.pollWrite source answers).2 }
    | .flush answers flushed =>
      some { exchange with client := (exchange.client.pollFlush answers flushed).2 }
    | .shutdown answers shut =>
      some { exchange with client := (exchange.client.pollShutdown answers shut).2 }

variable {kind : RequestBodyKind} {buffered : Text} {ex next : Exchange}

/-- Before a failure the decoder is where the forwarded bytes lead, and until the body ends these are
all bytes that were read. -/
structure Live (kind : RequestBodyKind) (buffered : Text) (exchange : Exchange) : Prop where
  plain : exchange.client.Plain
  sameBuffered : exchange.client.buffered = buffered
  within : exchange.client.bufferedPos ≤ buffered.length
  feeds : Feeds RequestBodyDecoder.consume (.new kind) exchange.forwarded exchange.client.body
  whole : exchange.client.body ≠ .done →
    exchange.forwarded = buffered.take exchange.client.bufferedPos ++ exchange.arrived ∧
    (exchange.arrived ≠ [] → exchange.client.bufferedPos = buffered.length)
  eof : exchange.clientEnded = true → exchange.client.body = .done

structure Follows (kind : RequestBodyKind) (buffered : Text) (exchange : Exchange) : Prop where
  isFront : exchange.forwarded <+: buffered ++ exchange.arrived
  accepted : ∃ decoder, Feeds RequestBodyDecoder.consume (.new kind) exchange.forwarded decoder
  ends : exchange.ended = some .beforeResponse → IsBody kind exchange.forwarded
  live : exchange.failed = false → Live kind buffered exchange

theorem follows_start (buffered : Text) {req : RequestHead} (hu : req.upgradeRequested = false) :
    Follows req.bodyKind buffered (start buffered req) :=
  ⟨ nil_prefix, ⟨_, .nil _⟩, nofun, fun _ =>
    ⟨⟨hu, rfl, nofun, nofun⟩, rfl, Nat.zero_le _, .nil _, fun _ => ⟨rfl, fun hs => absurd rfl hs⟩,
      nofun⟩⟩

/-- A read that follows one from the socket has nothing left of what came with the head. -/
theorem reads_socket (hd : SingleRequestClient.Delivers initiallyFilled destination client out text)
    (he : client.bufferedPos = client.buffered.length) (hm : out.client.body ≠ .done) :
    text = out.taken.getD [] ∧ out.client.bufferedPos = client.buffered.length := by
  obtain ⟨hs, hb⟩ := hd.whole hm
  have hf := hd.isFront
  rw [he, take_length] at hs
  have hl : out.client.bufferedPos = client.buffered.length := by
    by_cases hn : out.taken.getD [] = []
    · rw [hn, append_nil] at hs
      have lens := congrArg List.length hs
      rw [length_append, length_take] at lens
      have hw := hd.within
      omega
    · exact hb hn
  rw [hl, take_length] at hs
  exact ⟨append_cancel_left hs, hl⟩

theorem live_afterRead (live : Live kind buffered ex)
    (hd : SingleRequestClient.Delivers initiallyFilled destination ex.client out text)
    (hc : next.client = out.client) (ha : next.arrived = ex.arrived ++ out.taken.getD [])
    (hen : next.clientEnded = (ex.clientEnded || out.taken == some []))
    (hfo : next.forwarded = ex.forwarded ++ text) : Live kind buffered next := by
  obtain ⟨hp, rfl, hw, hfe, wh, he⟩ := live
  have hsd : ex.client.body = .done → out.client.body = .done := fun done => (hd.stays_done done).2
  refine ⟨?_, ?_, ?_, ?_, ?_, ?_⟩
  · rw [hc]
    exact hd.keeps.plain hp
  · rw [hc]
    exact hd.keeps.buffered
  · rw [hc]
    exact hd.within
  · rw [hc, hfo]
    exact hfe.append hd.feeds
  · rw [hc, ha, hfo]
    intro hm
    obtain ⟨hs, hb⟩ := wh (mt hsd hm)
    by_cases hf : ex.arrived = []
    · obtain ⟨hn, hbn⟩ := hd.whole hm
      rw [hs, hf, append_nil, nil_append]
      exact ⟨hn, hbn⟩
    · obtain ⟨ht, hl⟩ := reads_socket hd (hb hf) hm
      rw [hs, ht, hl, hb hf, append_assoc]
      exact ⟨rfl, fun _ => rfl⟩
  · rw [hc, hen, Bool.or_eq_true]
    rintro (pre | now)
    · exact hsd (he pre)
    · exact hd.eof (eq_of_beq now)

theorem isFront_afterRead (hl : Live kind buffered ex)
    (hfr : ex.forwarded <+: buffered ++ ex.arrived)
    (hd : SingleRequestClient.Delivers initiallyFilled destination ex.client out text) :
    ex.forwarded ++ text <+: buffered ++ (ex.arrived ++ out.taken.getD []) := by
  obtain ⟨hp, rfl, hw, hfe, wh, he⟩ := hl
  by_cases done : ex.client.body = .done
  · rw [(hd.stays_done done).1, append_nil, ← append_assoc]
    exact hfr.trans (prefix_append _ _)
  · obtain ⟨hs, hb⟩ := wh done
    have hf := hd.isFront
    by_cases fst : ex.arrived = []
    · rw [hs, fst, append_nil, nil_append]
      conv_rhs => rw [← take_append_drop ex.client.bufferedPos ex.client.buffered]
      rw [append_assoc]
      exact (prefix_append_right_inj _).mpr hf
    · rw [hb fst, drop_length, nil_append] at hf
      rw [hs, hb fst, take_length, append_assoc]
      exact (prefix_append_right_inj _).mpr ((prefix_append_right_inj _).mpr hf)

theorem step_read_eq_some {arr : Arrival} (hs : step ex (.read destination arr) = some next) :
    ex.failed = false ∧ ex.ended = none ∧
      next = ex.afterRead destination (ex.client.pollRead arr destination) := by
  unfold step at hs
  split at hs
  · cases hs
  · rename_i unfailed
    dsimp only at hs
    split at hs
    · cases hs
    · rename_i unended
      cases hs
      exact ⟨Bool.eq_false_of_not_eq_true unfailed, not_isSome_iff_eq_none.mp unended, rfl⟩

variable (follows : Follows kind buffered ex)
include follows

theorem follows_afterRead (hunf : ex.failed = false) (hun : ex.ended = none)
    (destination : ReadBuf) (arr : Arrival) :
    Follows kind buffered
      (ex.afterRead destination (ex.client.pollRead arr destination)) := by
  have live := follows.live hunf
  have well : SingleRequestClient.ReadsWell destination.filled.length destination ex.client
      (ex.client.pollRead arr destination) :=
    (SingleRequestClient.readsWell_pollReadWithin arr live.plain.notUpgraded
      live.plain.notDeclined live.plain.notRequested (live.sameBuffered ▸ live.within) le_rfl
      (Nat.lt_succ_self _)).1
  generalize ex.client.pollRead arr destination = out at well
  rcases well with ⟨error, her⟩ | ⟨text, hd⟩
  · unfold afterRead
    rw [her]
    refine ⟨?_, follows.accepted, ?_, nofun⟩
    · rw [← append_assoc]
      exact follows.isFront.trans (prefix_append _ _)
    · rw [hun]
      nofun
  · have hfr := isFront_afterRead live follows.isFront hd
    have hdr : out.destination.filled.drop destination.filled.length = text := by
      rw [hd.filled, drop_left]
    unfold afterRead
    split
    · rename_i pend
      have hno : text = [] := by
        have lens := hd.quiet pend
        rw [hd.filled, length_append] at lens
        exact length_eq_zero_iff.mp (by omega)
      rw [hno, append_nil] at hfr
      refine ⟨hfr, follows.accepted, ?_, fun _ => ?_⟩
      · rw [hun]
        nofun
      · exact live_afterRead live hd rfl rfl rfl (by rw [hno, append_nil])
    · rename_i failed
      refine ⟨?_, follows.accepted, ?_, nofun⟩
      · rw [← append_assoc]
        exact follows.isFront.trans (prefix_append _ _)
      · rw [hun]
        nofun
    · rename_i ready
      rw [hdr]
      refine ⟨hfr, ⟨_, live.feeds.append hd.feeds⟩, ?_, fun _ => ?_⟩
      · dsimp only
        intro ends
        split at ends
        · rename_i hno
          split at ends
          · cases ends
          · rename_i unanswered
            have done := hd.ends ready (by rw [hd.filled, hno.1, append_nil])
              hno.2 (Bool.eq_false_of_not_eq_true unanswered)
            rw [← feeds_done_iff, ← done]
            exact live.feeds.append hd.feeds
        · cases ends
      · exact live_afterRead live hd rfl rfl rfl rfl

theorem follows_of_answers (ha : SingleRequestClient.Answers ex.client client) :
    Follows kind buffered { ex with client := client } := by
  refine ⟨follows.isFront, follows.accepted, follows.ends, fun hu => ?_⟩
  obtain ⟨hp, rfl, hw, hf, wh, he⟩ := follows.live hu
  refine ⟨ha.plain hp, ha.buffered, ?_, ?_, ?_, ?_⟩
  · rw [ha.bufferedPos]
    exact hw
  · rw [ha.body]
    exact hf
  · rw [ha.body, ha.bufferedPos]
    exact wh
  · rw [ha.body]
    exact he

theorem follows_of_step {act : ExchangeAction}
    (hs : step ex act = some next) : Follows kind buffered next := by
  cases act with
  | read destination arr =>
    obtain ⟨hun, hu, rfl⟩ := step_read_eq_some hs
    exact follows_afterRead follows hun hu destination arr
  | write source ans =>
    unfold step at hs
    split at hs <;> cases hs
    exact follows_of_answers follows (SingleRequestClient.answers_pollWrite source ans)
  | flush ans flushed =>
    unfold step at hs
    split at hs <;> cases hs
    exact follows_of_answers follows (SingleRequestClient.answers_pollFlush ans flushed)
  | shutdown ans shut =>
    unfold step at hs
    split at hs <;> cases hs
    exact follows_of_answers follows (SingleRequestClient.answers_pollShutdown ans shut)

/-- Until the response is complete a read never comes to nothing, unless the body has ended or the
socket has nothing for it. -/
theorem progress_of_read {arr : Arrival} (hs : step ex (.read destination arr) = some next)
    (ha : arr ≠ .pending) (huna : ex.client.responseDone = false)
    (hr : (ex.client.pollRead arr destination).destination.remaining ≠ 0) :
    next.failed = true ∨ IsBody kind next.forwarded ∨
      ex.forwarded.length < next.forwarded.length := by
  have hl := (follows_of_step follows hs).live
  have he := (follows_of_step follows hs).ends
  obtain ⟨hu, hune, rfl⟩ := step_read_eq_some hs
  have hw : (ex.client.pollRead arr destination).result = .pending →
      arr = .pending ∨ (ex.client.pollRead arr destination).client.body = .done :=
    (SingleRequestClient.readsWell_pollReadWithin arr (follows.live hu).plain.notUpgraded
      (follows.live hu).plain.notDeclined (follows.live hu).plain.notRequested
      ((follows.live hu).sameBuffered ▸ (follows.live hu).within) le_rfl
      (Nat.lt_succ_self _)).2
  revert hl he
  unfold afterRead
  split
  · rename_i pend
    intro hl _
    have hf := (hl hu).feeds
    rw [(hw pend).resolve_left ha] at hf
    exact .inr (.inl ((feeds_done_iff kind _).mp hf))
  · exact fun _ _ => .inl rfl
  · intro _ he
    refine .inr ?_
    dsimp only at he
    rw [huna] at he
    split at he
    · exact .inl (he rfl)
    · rename_i some
      refine .inr ?_
      have ne := fun nothing => some ⟨nothing, hr⟩
      rw [length_append]
      exact Nat.lt_add_of_pos_right (length_pos_iff.mpr ne)

end Exchange

/-- The upload of an exchange stays within the body that the head delimits. -/
structure WithinBody (kind : RequestBodyKind) (buffered : Text) (exchange : Exchange) : Prop where
  isFront : exchange.forwarded <+: buffered ++ exchange.arrived
  accepted : ∃ decoder, Feeds RequestBodyDecoder.consume (.new kind) exchange.forwarded decoder
  isPart : ∀ sent body, buffered ++ exchange.arrived <+: sent → body <+: sent → IsBody kind body →
    exchange.forwarded <+: body
  /-- It is the whole body when the upload ends first. -/
  ends : exchange.ended = some .beforeResponse → IsBody kind exchange.forwarded
  /-- Without a failure it is the whole body, or everything that was read from a client that goes on. -/
  unfailed : exchange.failed = false → IsBody kind exchange.forwarded ∨
    exchange.clientEnded = false ∧ ∃ count,
      exchange.forwarded = buffered.take count ++ exchange.arrived ∧
      (exchange.arrived ≠ [] → count = buffered.length)
  /-- A read fails, ends the body or goes on in it when the socket has something for it. -/
  progress : ∀ destination arrival next, exchange.step (.read destination arrival) = some next →
    arrival ≠ .pending → exchange.client.responseDone = false →
    (exchange.client.pollRead arrival destination).destination.remaining ≠ 0 →
    next.failed = true ∨ IsBody kind next.forwarded ∨
      exchange.forwarded.length < next.forwarded.length

theorem Exchange.Follows.withinBody {kind : RequestBodyKind} {buffered : Text} {ex : Exchange}
    (follows : ex.Follows kind buffered) : WithinBody kind buffered ex := by
  obtain ⟨dec, hf⟩ := follows.accepted
  refine ⟨follows.isFront, ⟨dec, hf⟩, ?_, follows.ends, ?_, ?_⟩
  · intro sent body hse hfr hb
    exact isPrefix_of_isBody hf (follows.isFront.trans hse) hb hfr
  · intro hu
    have hl := follows.live hu
    by_cases hd : ex.client.body = .done
    · refine .inl ((feeds_done_iff kind _).mp ?_)
      rw [← hd]
      exact hl.feeds
    · exact .inr ⟨Bool.eq_false_of_not_eq_true (mt hl.eof hd), _, hl.whole hd⟩
  · intro destination arr next hs ha hun hr
    exact Exchange.progress_of_read follows hs ha hun hr

end Exchange

end MeowRs.Http
