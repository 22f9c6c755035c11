import MeowRs.ChunkedReads
import MeowRs.LittleEndian

/-!
# ShadowTLS v3 reads

The server sends its data in TLS records with a tag in front of the payload.  A tag is a MAC of all
payloads and tags so far, one after the other, and of the payload; where a payload ends is not part
of it.  Cover records of the handshake have tags of their own chain and are skipped.
-/

namespace MeowRs.ShadowTls

open List ChunkedReads

open BigEndian

def recordHdr : Nat := 5
def hmacLen : Nat := 4
def hmacHdr : Nat := recordHdr + hmacLen
def recordAlert : UInt8 := 21
def recordAppdata : UInt8 := 23

inductive ReadError where
  | alert
  | verification
  | recordType (type : UInt8)
  | midRecord
deriving DecidableEq

/-- What the two chains have hashed.  The one of the handshake retires. -/
structure Chains where
  verify : Bytes
  ignore : Option Bytes

inductive Verdict where
  | skip
  | accept
  | reject (error : ReadError)
deriving DecidableEq

section Tags

variable (tag : Bytes → Bytes)

/-- Check the tag of a record against a chain, which goes on in any case. -/
def verifyRecord (record chain : Bytes) (update : Bool) : Bytes × Bool :=
  if record[1]? ≠ some 3 ∨ record[2]? ≠ some 3 ∨ record.length < hmacHdr then (chain, false)
  else
    let hashed := chain ++ record.drop hmacHdr
    (if update then hashed ++ tag hashed else hashed,
      (record.drop recordHdr).take hmacLen = tag hashed)

def checkData (chain : Bytes) (record : Bytes) : Chains × Verdict :=
  let (chain, verified) := verifyRecord tag record chain true
  (⟨chain, none⟩, if verified then .accept else .reject .verification)

/-- What the loop of `poll_read` does with a record. -/
def judge (chains : Chains) (record : Bytes) : Chains × Verdict :=
  if record.headD 0 = recordAlert then (chains, .reject .alert)
  else if record.headD 0 = recordAppdata then
    match chains.ignore with
    | none => checkData tag chains.verify record
    | some chain =>
      let (chain, verified) := verifyRecord tag record chain false
      if verified then (⟨chains.verify, some chain⟩, .skip)
      else checkData tag chains.verify record
  else (chains, .reject (.recordType (record.headD 0)))

/-- The read side of a stream: a record under assembly, the length that completes it, or 0, and the
position from which a verified record is served, or 0. -/
structure Stream where
  buf : Bytes
  want : Nat
  recServe : Nat
  chains : Chains

def Stream.new (chains : Chains) : Stream :=
  ⟨[], 0, 0, chains⟩

def serve (stream : Stream) (capacity : Nat) : Stream × Option Bytes :=
  if stream.recServe = 0 then (stream, none)
  else if stream.buf.length ≤ stream.recServe then ({ stream with recServe := 0 }, none)
  else
    let served := stream.recServe + min (stream.buf.length - stream.recServe) capacity
    (if served = stream.buf.length then { stream with buf := [], recServe := 0 }
      else { stream with recServe := served },
      some ((stream.buf.take served).drop stream.recServe))

def declared (record : Bytes) : Nat :=
  beValue (record.getD 3 0) (record.getD 4 0)

/-- A record is complete. -/
def process (stream : Stream) : Stream × Option (Except ReadError Bytes) :=
  match judge tag stream.chains stream.buf with
  | (chains, .skip) => ({ stream with want := 0, chains := chains }, none)
  | (chains, .accept) => ({ stream with want := 0, chains := chains, recServe := hmacHdr }, none)
  | (chains, .reject error) => ({ stream with want := 0, chains := chains }, some (.error error))

/-- Bytes from the transport. -/
def fill (stream : Stream) (chunk : Bytes) : Stream × Option (Except ReadError Bytes) :=
  let stream := { stream with buf := stream.buf ++ chunk }
  if stream.buf.length < stream.want then (stream, none)
  else if stream.want = recordHdr ∧ declared stream.buf ≠ 0 then
    ({ stream with want := recordHdr + declared stream.buf }, none)
  else process tag stream

/-- `poll_read` with a buffer of some capacity. -/
def pollRead (capacity : Nat) : Reader UInt8 Stream (Except ReadError Bytes) where
  settle stream :=
    match serve stream capacity with
    | (stream, some piece) => (stream, some (.ok piece))
    | (stream, none) =>
      (if stream.want = 0 then { stream with want := recordHdr, buf := [] } else stream, none)
  limit stream := min (stream.want - stream.buf.length) 8192
  take := fill tag
  ended stream :=
    (stream, if stream.buf = [] ∧ stream.want = recordHdr then .ok [] else .error .midRecord)

/-- The bytes that the results of some calls hand to the reader. -/
def delivered (results : List (Nat × Option (Except ReadError Bytes))) : Bytes :=
  results.flatMap fun result => result.2.elim [] (·.toOption.getD [])

/-- What a record does to the chains, and the data that it hands over. -/
def judgeStep (chains : Chains) (record : Bytes) : Chains × Bytes :=
  let (chains, verdict) := judge tag chains record
  (chains, if verdict = .accept then record.drop hmacHdr else [])

end Tags

/-- The length that completes a record, as far as its bytes tell. -/
def need (part : Bytes) : Nat :=
  if part.length < recordHdr then recordHdr else recordHdr + declared part

/-- The records of a stream of bytes, and an unfinished one. -/
def cutStep (part : Bytes) (byte : UInt8) : Bytes × List Bytes :=
  if (part ++ [byte]).length < need (part ++ [byte]) then (part ++ [byte], [])
  else ([], [part ++ [byte]])

theorem need_append {part more : Bytes}
    (h : recordHdr ≤ part.length ∨ (part ++ more).length < recordHdr) :
    need (part ++ more) = need part := by
  unfold need
  rw [length_append] at h ⊢
  rcases h with hlong | hshort
  · have hd : declared (part ++ more) = declared part := by
      simp only [recordHdr] at hlong
      simp only [declared, getD_eq_getElem?_getD,
        getElem?_append_left (show 3 < part.length by omega),
        getElem?_append_left (show 4 < part.length by omega)]
    rw [if_neg (by omega), if_neg (by omega), hd]
  · rw [if_pos hshort, if_pos (by omega)]

theorem need_append_of_lt {part more : Bytes} (hlt : (part ++ more).length < need part) :
    need (part ++ more) = need part := by
  refine need_append ?_
  by_cases hs : part.length < recordHdr
  · rw [need, if_pos hs] at hlt
    exact .inr hlt
  · exact .inl (not_lt.mp hs)

theorem run_cutStep {part chunk : Bytes} (hne : chunk ≠ [])
    (hle : (part ++ chunk).length ≤ need part) :
    run cutStep part chunk =
      if (part ++ chunk).length < need (part ++ chunk) then (part ++ chunk, [])
      else ([], [part ++ chunk]) := by
  induction chunk generalizing part with
  | nil => exact absurd rfl hne
  | cons b chunk ih =>
    cases chunk with
    | nil =>
      simp only [run, cutStep]
      split_ifs <;> rfl
    | cons b' chunk =>
      have hlt : (part ++ [b]).length < need part := by
        simp at hle ⊢
        omega
      have hn := need_append_of_lt hlt
      have hstep : cutStep part b = (part ++ [b], []) := by rw [cutStep, hn, if_pos hlt]
      rw [run, hstep, ih (cons_ne_nil _ _) (by rw [hn]; simpa using hle), append_assoc]
      rfl

section Reads

variable {tag : Bytes → Bytes} {start : Chains} {s : Stream} {us bs : Bytes}

def unserved (stream : Stream) : Bytes :=
  if stream.recServe = 0 then [] else stream.buf.drop stream.recServe

/-- The chains have seen the records of the bytes taken, and their data is delivered or is still to
be served. -/
structure Sound (tag : Bytes → Bytes) (start : Chains) (stream : Stream) (taken out : Bytes) :
    Prop where
  chains : stream.chains = (run (judgeStep tag) start (run cutStep [] taken).2).1
  output : out ++ unserved stream = (run (judgeStep tag) start (run cutStep [] taken).2).2
  buffer : stream.want = 0 ∧ (run cutStep [] taken).1 = [] ∨
    stream.recServe = 0 ∧ stream.buf = (run cutStep [] taken).1 ∧
      stream.want = need stream.buf ∧ stream.buf.length < stream.want

theorem serve_spec (s : Stream) (cap : Nat) :
    (serve s cap).1.chains = s.chains ∧ (serve s cap).1.want = s.want ∧
    (serve s cap).2.getD [] ++ unserved (serve s cap).1 = unserved s ∧
    ((serve s cap).2 = none → (serve s cap).1.recServe = 0) ∧
    (s.recServe = 0 → serve s cap = (s, none)) := by
  unfold serve
  by_cases hz : s.recServe = 0
  · simp [hz]
  rw [if_neg hz]
  split
  · rename_i hle
    simp [unserved, hz, hle]
  · rename_i hlt
    dsimp only
    refine ⟨by split <;> rfl, by split <;> rfl, ?_, nofun, fun h => absurd h hz⟩
    generalize hserved : s.recServe + min (s.buf.length - s.recServe) cap = served
    have hle : s.recServe ≤ (s.buf.take served).length := by
      rw [length_take]
      omega
    have hcut := @drop_append_of_le_length _ _ (s.buf.drop served) _ hle
    rw [take_append_drop] at hcut
    simp only [unserved, if_neg hz, hcut, Option.getD_some]
    split
    · rename_i hall
      simp [hall]
    · rw [if_neg (by dsimp only; omega)]

/-- A call serves what there is, or begins a record if none is under way. -/
theorem Sound.settle (hs : Sound tag start s us bs) (cap : Nat) :
    Sound tag start ((pollRead tag cap).settle s).1 us
        (bs ++ ((pollRead tag cap).settle s).2.elim [] (·.toOption.getD [])) ∧
      (((pollRead tag cap).settle s).2 = none → ((pollRead tag cap).settle s).1.want ≠ 0) := by
  obtain ⟨hc, hw, hu, hnone, hzero⟩ := serve_spec s cap
  have hpos : 0 < need s.buf := by
    unfold need
    split_ifs <;> simp [recordHdr]
  simp only [pollRead]
  generalize serve s cap = served at *
  obtain ⟨s', _ | piece⟩ := served
  · have hr : s'.recServe = 0 := hnone rfl
    have hempty : unserved s = [] := by
      rw [← hu]
      simp only [unserved, hr, if_true]
      rfl
    have hout := hs.output
    rw [hempty, append_nil] at hout
    dsimp only at hc hw ⊢
    split_ifs with hbegin
    · refine ⟨⟨hc.trans hs.chains, ?_, .inr ⟨hr, ?_, rfl, Nat.succ_pos 4⟩⟩,
        fun _ => Nat.succ_ne_zero 4⟩
      · simpa [unserved, hr] using hout
      · rcases hs.buffer with ⟨-, hcut⟩ | ⟨-, -, hneed, -⟩
        · exact hcut.symm
        · omega
    · rcases hs.buffer with ⟨hwant, -⟩ | hbuf
      · exact absurd (hw.trans hwant) hbegin
      · cases hzero hbuf.1
        exact ⟨⟨hs.chains, by simpa using hs.output, .inr hbuf⟩, fun _ => hbegin⟩
  · refine ⟨⟨hc.trans hs.chains, ?_, ?_⟩, nofun⟩
    · rw [← hs.output, ← hu]
      simp [Except.toOption]
    · rcases hs.buffer with ⟨hwant, hcut⟩ | hbuf
      · exact .inl ⟨hw.trans hwant, hcut⟩
      · cases hzero hbuf.1

/-- Bytes make a record longer, and complete it when it has the length its header says. -/
theorem fill_eq {chunk : Bytes} (hw : s.want = need s.buf) (hlt : s.buf.length < s.want)
    (hle : (s.buf ++ chunk).length ≤ s.want) : fill tag s chunk =
      if (s.buf ++ chunk).length < need (s.buf ++ chunk) then
        ({ s with buf := s.buf ++ chunk, want := need (s.buf ++ chunk) }, none)
      else process tag { s with buf := s.buf ++ chunk } := by
  simp only [fill]
  by_cases hmore : (s.buf ++ chunk).length < s.want
  · have hn := need_append_of_lt (hw ▸ hmore)
    rw [if_pos hmore, hn, ← hw, if_pos hmore]
  rw [if_neg hmore]
  by_cases hs : s.buf.length < recordHdr
  · -- the header is complete
    have hwant : s.want = recordHdr := by rw [hw, need, if_pos hs]
    have hn : need (s.buf ++ chunk) = recordHdr + declared (s.buf ++ chunk) := by
      rw [need, if_neg (by omega)]
    by_cases hz : declared (s.buf ++ chunk) = 0
    · rw [if_neg (fun h => h.2 hz), if_neg (by omega)]
    · rw [if_pos ⟨hwant, hz⟩, if_pos (by omega), hn]
  · have hn := @need_append s.buf chunk (.inl (not_lt.mp hs))
    rw [if_neg (fun h => by omega), if_neg (by omega)]

theorem process_spec (hr : s.recServe = 0) :
    (process tag s).1.want = 0 ∧ (process tag s).1.chains = (judgeStep tag s.chains s.buf).1 ∧
    (process tag s).2.elim [] (·.toOption.getD []) ++ unserved (process tag s).1 =
      (judgeStep tag s.chains s.buf).2 := by
  unfold process judgeStep
  generalize judge tag s.chains s.buf = verdict
  obtain ⟨c, _ | _ | error⟩ := verdict <;>
    simp [unserved, hr, hmacHdr, recordHdr, Except.toOption]

theorem Sound.fill (hs : Sound tag start s us bs) (hw : s.want ≠ 0) {chunk : Bytes}
    (hne : chunk ≠ []) (hle : chunk.length ≤ min (s.want - s.buf.length) 8192) :
    Sound tag start (fill tag s chunk).1 (us ++ chunk)
      (bs ++ (fill tag s chunk).2.elim [] (·.toOption.getD [])) := by
  obtain ⟨hr, hbuf, hneed, hlt⟩ := hs.buffer.resolve_left fun h => hw h.1
  have hfits : (s.buf ++ chunk).length ≤ s.want := by
    rw [length_append]
    omega
  have hout := hs.output
  rw [unserved, if_pos hr, append_nil] at hout
  have hrun : run cutStep [] (us ++ chunk) =
      ((run cutStep s.buf chunk).1, (run cutStep [] us).2 ++ (run cutStep s.buf chunk).2) := by
    rw [run_append, ← hbuf]
  rw [run_cutStep hne (hneed ▸ hfits)] at hrun
  rw [fill_eq hneed hlt hfits]
  split_ifs at hrun ⊢ with hpart
  · rw [append_nil] at hrun
    refine ⟨by rw [hrun]; exact hs.chains, by rw [hrun]; simpa [unserved, hr] using hout,
      .inr ⟨hr, by rw [hrun], rfl, hpart⟩⟩
  · have hjudge : run (judgeStep tag) start (run cutStep [] (us ++ chunk)).2 =
        ((judgeStep tag s.chains (s.buf ++ chunk)).1,
          bs ++ (judgeStep tag s.chains (s.buf ++ chunk)).2) := by
      rw [hrun, run_append, ← hs.chains, ← hout]
      simp [run]
    obtain ⟨hwant, hchains, hpiece⟩ := @process_spec tag { s with buf := s.buf ++ chunk } hr
    refine ⟨by rw [hjudge, hchains], ?_, .inl ⟨hwant, by rw [hrun]⟩⟩
    rw [hjudge, append_assoc, hpiece]

theorem pollRead_keeps (tag : Bytes → Bytes) (start : Chains) (cap : Nat) :
    Keeps (Sound tag start) (·.toOption.getD []) (pollRead tag cap) where
  settles hs := (hs.settle cap).1
  asks hs hnone := by
    obtain ⟨hsound, hwant⟩ := hs.settle cap
    obtain ⟨-, -, -, hlt⟩ := hsound.buffer.resolve_left fun h => hwant hnone h.1
    simp only [pollRead] at hlt ⊢
    omega
  takes hs hnone hne hle := by
    obtain ⟨hsound, hwant⟩ := hs.settle cap
    rw [hnone, Option.elim_none, append_nil] at hsound
    exact hsound.fill (hwant hnone) hne hle
  ends hs hnone := by
    have hsound := (hs.settle cap).1
    rw [hnone, Option.elim_none, append_nil] at hsound
    refine ⟨hsound.chains, ?_, hsound.buffer⟩
    rw [← hsound.output]
    simp only [pollRead]
    split_ifs <;> simp [Except.toOption]

/-- The reader gets what the records of the stream hand over, from the start. -/
theorem delivered_isPrefix (tag : Bytes → Bytes) (start : Chains) (closed : Bool)
    (calls : List (Nat × List (Option Nat))) (stream : Bytes) :
    delivered (session (pollRead tag) closed calls (Stream.new start) stream).2.2 <+:
      (run (judgeStep tag) start (run cutStep [] stream).2).2 := by
  have hnew : Sound tag start (Stream.new start) [] [] := ⟨rfl, rfl, .inl ⟨rfl, rfl⟩⟩
  obtain ⟨taken, hcut, hs⟩ := session_keeps (pollRead_keeps tag start) closed calls hnew stream
  have hout := hs.output
  rw [nil_append, nil_append] at hout
  refine IsPrefix.trans ⟨_, hout⟩ ?_
  rw [show run cutStep [] stream = run cutStep [] (taken ++ _) from congrArg _ hcut, run_append,
    run_append]
  exact prefix_append _ _

end Reads

section Server

variable {tag : Bytes → Bytes} {c : Chains} {r : Bytes}

/-- What the server's chain has hashed after it sent some payloads. -/
def sent (tag : Bytes → Bytes) (chain : Bytes) : List Bytes → Bytes
  | [] => chain
  | payload :: later => sent tag (chain ++ payload ++ tag (chain ++ payload)) later

/-- The strings that the server computes tags of when it sends some payloads. -/
def signed (tag : Bytes → Bytes) (chain : Bytes) : List Bytes → List Bytes
  | [] => []
  | payload :: later =>
    (chain ++ payload) :: signed tag (chain ++ payload ++ tag (chain ++ payload)) later

/-- The honest side: what its data chain begins with, the data that it sends and the strings that it
computes tags of for cover records. -/
structure Server where
  start : Bytes
  payloads : List Bytes
  covers : List Bytes

/-- A record comes to the check of its tag against the data chain. -/
def Reaches (tag : Bytes → Bytes) (chains : Chains) (record : Bytes) : Prop :=
  record.headD 0 = recordAppdata ∧ record[1]? = some 3 ∧ record[2]? = some 3 ∧
    hmacHdr ≤ record.length ∧ ∀ chain ∈ chains.ignore, (verifyRecord tag record chain false).2 = false

instance (tag : Bytes → Bytes) (chains : Chains) (record : Bytes) :
    Decidable (Reaches tag chains record) := by
  unfold Reaches
  infer_instance

/-- Nobody but the server makes tags: a tag is right only if the server computed it, of the same
string. -/
def Unforged (tag : Bytes → Bytes) (server : Server) : Chains → List Bytes → Prop
  | _, [] => True
  | chains, record :: records =>
    (Reaches tag chains record →
      (record.drop recordHdr).take hmacLen = tag (chains.verify ++ record.drop hmacHdr) →
        chains.verify ++ record.drop hmacHdr ∈ signed tag server.start server.payloads ∨
          chains.verify ++ record.drop hmacHdr ∈ server.covers) ∧
    Unforged tag server (judgeStep tag chains record).1 records

instance decidableUnforged (tag : Bytes → Bytes) (server : Server) :
    ∀ chains records, Decidable (Unforged tag server chains records)
  | _, [] => .isTrue trivial
  | _, _ :: _ => @instDecidableAnd _ _ _ (decidableUnforged tag server _ _)

/-- A chain that has hashed this can become neither the server's nor that of a cover record. -/
def Departs (tag : Bytes → Bytes) (server : Server) (hashed : Bytes) : Prop :=
  ¬hashed ++ tag hashed <+: sent tag server.start server.payloads ∧
    ∀ cover ∈ server.covers, hashed ≠ cover ∧ ¬hashed ++ tag hashed <+: cover

/-- The records that come to the check are the server's in their order and as it sent them, up to the
first one that is not, and there the chain departs from the server's.  What comes after that record
does not matter. -/
def InTurn (tag : Bytes → Bytes) (server : Server) :
    Chains → Bytes → List Bytes → List Bytes → Prop
  | _, _, _, [] => True
  | chains, chain, pending, record :: records =>
    let payload := record.drop hmacHdr
    let next := (judgeStep tag chains record).1
    if ¬Reaches tag chains record then InTurn tag server next chain pending records
    else if pending.head? = some payload ∧
        (record.drop recordHdr).take hmacLen = tag (chain ++ payload) then
      InTurn tag server next (chain ++ payload ++ tag (chain ++ payload)) pending.tail records
    else Departs tag server (chain ++ payload)

theorem isPrefix_sent (tag : Bytes → Bytes) (chain : Bytes) (ps : List Bytes) :
    chain <+: sent tag chain ps := by
  induction ps generalizing chain with
  | nil => exact prefix_rfl
  | cons p ps ih => exact ((prefix_append chain p).trans (prefix_append _ _)).trans (ih _)

theorem isPrefix_of_signed {chain hashed : Bytes} {ps : List Bytes}
    (h : hashed ∈ signed tag chain ps) : hashed ++ tag hashed <+: sent tag chain ps := by
  induction ps generalizing chain with
  | nil => cases h
  | cons p ps ih =>
    rcases mem_cons.mp h with rfl | hlater
    · exact isPrefix_sent tag _ ps
    · exact ih hlater

/-- A record that comes to the check takes the data chain on, whatever its tag. -/
theorem judge_of_reaches (hr : Reaches tag c r) : judge tag c r =
    (⟨c.verify ++ r.drop hmacHdr ++ tag (c.verify ++ r.drop hmacHdr), none⟩,
      if (r.drop recordHdr).take hmacLen = tag (c.verify ++ r.drop hmacHdr) then .accept
      else .reject .verification) := by
  obtain ⟨hhead, hmajor, hminor, hlen, hignore⟩ := hr
  have hcheck : verifyRecord tag r c.verify true =
      (c.verify ++ r.drop hmacHdr ++ tag (c.verify ++ r.drop hmacHdr),
        decide ((r.drop recordHdr).take hmacLen = tag (c.verify ++ r.drop hmacHdr))) := by
    rw [verifyRecord, if_neg (by simp [hmajor, hminor, hlen])]
    rfl
  rw [judge, if_neg (by rw [hhead]; decide), if_pos hhead]
  cases hi : c.ignore with
  | none => simp [checkData, hcheck]
  | some chain => simp [checkData, hcheck, hignore chain (by simp [hi])]

/-- Any other record leaves the data chain alone and hands nothing over. -/
theorem judge_of_not_reaches (hr : ¬Reaches tag c r) :
    (judge tag c r).1.verify = c.verify ∧ (judge tag c r).2 ≠ .accept := by
  unfold judge
  split_ifs with halert hdata
  · exact ⟨rfl, nofun⟩
  · have hcheck (h : ∀ chain ∈ c.ignore, (verifyRecord tag r chain false).2 = false) :
        verifyRecord tag r c.verify true = (c.verify, false) := by
      rw [verifyRecord, if_pos]
      by_contra hall
      simp only [not_or, not_not, not_lt] at hall
      exact hr ⟨hdata, hall.1, hall.2.1, hall.2.2, h⟩
    cases hi : c.ignore with
    | none => simp [checkData, hcheck (by simp [hi])]
    | some chain =>
      cases hv : (verifyRecord tag r chain false).2 with
      | true => simp [hv]
      | false => simp [hv, checkData, hcheck (by simp [hi, hv])]
  · exact ⟨rfl, nofun⟩

theorem judgeStep_of_reaches (reaches : Reaches tag c r) : judgeStep tag c r =
    (⟨c.verify ++ r.drop hmacHdr ++ tag (c.verify ++ r.drop hmacHdr), none⟩,
      if (r.drop recordHdr).take hmacLen = tag (c.verify ++ r.drop hmacHdr) then r.drop hmacHdr
      else []) := by
  rw [judgeStep, judge_of_reaches reaches]
  by_cases right : (r.drop recordHdr).take hmacLen = tag (c.verify ++ r.drop hmacHdr)
  all_goals simp [right]

theorem judgeStep_of_not_reaches (reaches : ¬Reaches tag c r) :
    (judgeStep tag c r).1.verify = c.verify ∧ (judgeStep tag c r).2 = [] := by
  obtain ⟨sameChain, refused⟩ := judge_of_not_reaches reaches
  exact ⟨sameChain, if_neg refused⟩

/-- The chain has departed from the server's for good. -/
def Lost (tag : Bytes → Bytes) (server : Server) (chain : Bytes) : Prop :=
  ¬chain <+: sent tag server.start server.payloads ∧ ∀ cover ∈ server.covers, ¬chain <+: cover

/-- A client whose chain has departed accepts nothing more. -/
theorem Lost.run {server : Server} {records : List Bytes} (lost : Lost tag server c.verify)
    (unforged : Unforged tag server c records) : (run (judgeStep tag) c records).2 = [] := by
  induction records generalizing c with
  | nil => rfl
  | cons record records ih =>
    obtain ⟨first, later⟩ := unforged
    rw [ChunkedReads.run, append_eq_nil_iff]
    by_cases reaches : Reaches tag c record
    · rw [judgeStep_of_reaches reaches] at later ⊢
      have longer : c.verify <+: c.verify ++ record.drop hmacHdr ++
          tag (c.verify ++ record.drop hmacHdr) :=
        (prefix_append _ _).trans (prefix_append _ _)
      refine ⟨if_neg fun right => ?_, ih ⟨fun onServer => ?_, fun cover member onCover => ?_⟩ later⟩
      · rcases first reaches right with isSigned | isCover
        · exact lost.1 (longer.trans (isPrefix_of_signed isSigned))
        · exact lost.2 _ isCover (prefix_append _ _)
      · exact lost.1 (longer.trans onServer)
      · exact lost.2 cover member (longer.trans onCover)
    · obtain ⟨sameChain, nothing⟩ := judgeStep_of_not_reaches reaches
      rw [← sameChain] at lost
      exact ⟨nothing, ih lost later⟩

/-- As long as the records come in turn the client reads the server's payloads. -/
theorem run_isPrefix_of_inTurn {server : Server} {pending records : List Bytes}
    (unforged : Unforged tag server c records)
    (inTurn : InTurn tag server c c.verify pending records) :
    (run (judgeStep tag) c records).2 <+: pending.flatten := by
  induction records generalizing c pending with
  | nil => exact nil_prefix
  | cons record records ih =>
    obtain ⟨first, later⟩ := unforged
    rw [InTurn] at inTurn
    rw [ChunkedReads.run]
    by_cases reaches : Reaches tag c record
    · rw [if_neg (not_not.mpr reaches)] at inTurn
      rw [judgeStep_of_reaches reaches] at later inTurn ⊢
      dsimp only at later inTurn ⊢
      by_cases isNext : pending.head? = some (record.drop hmacHdr) ∧
          (record.drop recordHdr).take hmacLen = tag (c.verify ++ record.drop hmacHdr)
      · rw [if_pos isNext] at inTurn
        obtain ⟨rest, rfl⟩ := head?_eq_some_iff.mp isNext.1
        rw [if_pos isNext.2, flatten_cons, prefix_append_right_inj]
        exact ih later inTurn
      · -- The record is refused, as nobody forged its tag, and the chain departs.
        rw [if_neg isNext] at inTurn
        obtain ⟨offServer, offCovers⟩ := inTurn
        have wrong : (record.drop recordHdr).take hmacLen ≠
            tag (c.verify ++ record.drop hmacHdr) := by
          intro right
          rcases first reaches right with isSigned | isCover
          · exact offServer (isPrefix_of_signed isSigned)
          · exact (offCovers _ isCover).1 rfl
        have lost : Lost tag server
            (c.verify ++ record.drop hmacHdr ++ tag (c.verify ++ record.drop hmacHdr)) :=
          ⟨offServer, fun cover member => (offCovers cover member).2⟩
        rw [if_neg wrong, lost.run later]
        exact nil_prefix
    · obtain ⟨sameChain, nothing⟩ := judgeStep_of_not_reaches reaches
      rw [if_pos reaches, ← sameChain] at inTurn
      rw [nothing]
      exact ih later inTurn

/-- If nobody forges tags, and the first record that is not the server's next one as it sent it takes
the client's chain off the server's, the client reads the server's data from the start, however it
reads. -/
theorem delivered_isPrefix_of_inTurn (server : Server) (ignore : Option Bytes) (closed : Bool)
    (calls : List (Nat × List (Option Nat))) (stream : Bytes)
    (unforged : Unforged tag server ⟨server.start, ignore⟩ (ChunkedReads.run cutStep [] stream).2)
    (inTurn : InTurn tag server ⟨server.start, ignore⟩ server.start server.payloads
      (ChunkedReads.run cutStep [] stream).2) :
    delivered (session (pollRead tag) closed calls (Stream.new ⟨server.start, ignore⟩) stream).2.2 <+:
      server.payloads.flatten :=
  (delivered_isPrefix tag _ closed calls stream).trans
    (run_isPrefix_of_inTurn unforged inTurn)

/-- Tags for runs on fixed data. -/
def tagOf (hashed : Bytes) : Bytes :=
  [hashed.length.toUInt8, hashed.headD 0, hashed.getLastD 0, 0]

/-- A record comes twice, and from then on all are refused. -/
theorem delivered_isPrefix_of_inTurn_twice :
    delivered (session (pollRead tagOf) true
      [(9, [some 9, some 9]), (9, [some 9, some 9]), (9, [some 9, some 9])]
      (Stream.new ⟨[7], none⟩)
      ([23, 3, 3, 0, 5, 2, 7, 1, 0, 1] ++ [23, 3, 3, 0, 5, 2, 7, 1, 0, 1] ++
        [23, 3, 3, 0, 5, 7, 7, 2, 0, 2])).2.2 <+: [1, 2] := by
  refine delivered_isPrefix_of_inTurn ⟨[7], [[1], [2]], []⟩ none true _ _ (by decide) ?_
  change InTurn _ _ _ _ _ [_, _, _]
  rw [InTurn, if_neg (by decide), if_pos (by decide), InTurn, if_neg (by decide),
    if_neg (by decide), Departs]
  decide

/-- The tag of the first record is edited: the record is refused, and the one after it accepted.
Two records are merged: the tag of the first is handed over as data. -/
theorem second_record_alone :
    Unforged tagOf ⟨[7], [[1], [2]], []⟩ ⟨[7], none⟩
      [[23, 3, 3, 0, 5, 2, 7, 9, 0, 1], [23, 3, 3, 0, 5, 7, 7, 2, 0, 2]] ∧
    delivered (session (pollRead tagOf) true [(9, [some 9, some 9]), (9, [some 9, some 9])]
      (Stream.new ⟨[7], none⟩)
      [23, 3, 3, 0, 5, 2, 7, 9, 0, 1, 23, 3, 3, 0, 5, 7, 7, 2, 0, 2]).2.2 = [2] ∧
    Unforged tagOf ⟨[7], [[1], [2]], []⟩ ⟨[7], none⟩
      [[23, 3, 3, 0, 10, 7, 7, 2, 0, 1, 2, 7, 1, 0, 2]] ∧
    delivered (session (pollRead tagOf) true [(9, [some 9, some 9])] (Stream.new ⟨[7], none⟩)
      [23, 3, 3, 0, 10, 7, 7, 2, 0, 1, 2, 7, 1, 0, 2]).2.2 = [1, 2, 7, 1, 0, 2] := by
  decide

end Server

section Writes

variable {tag : Bytes → Bytes} {chain : Bytes}

/-- The chain after a chunk of `poll_write`, and the record of the chunk. -/
def pushRecord (tag : Bytes → Bytes) (chain chunk : Bytes) : Bytes × Bytes :=
  let sum := tag (chain ++ chunk)
  (chain ++ chunk ++ sum,
    [recordAppdata, 3, 3] ++ beBytes (chunk.length + hmacLen) ++ (sum ++ chunk))

def pollWrite (tag : Bytes → Bytes) (chain buf : Bytes) : Bytes × Bytes :=
  if buf = [] then (chain, [])
  else
    let first := pushRecord tag chain (buf.take 16384)
    let later := pollWrite tag first.1 (buf.drop 16384)
    (later.1, first.2 ++ later.2)
  termination_by buf.length
  decreasing_by grind [length_pos_iff]

/-- Whole records, from which a reader with the writer's chain takes the data. -/
def Reads (tag : Bytes → Bytes) (chain data : Bytes) (written : Bytes × Bytes) : Prop :=
  (run cutStep [] written.2).1 = [] ∧
    run (judgeStep tag) ⟨chain, none⟩ (run cutStep [] written.2).2 = (⟨written.1, none⟩, data)

theorem Reads.append {us bs fst snd} (hf : Reads tag chain us fst) (hs : Reads tag fst.1 bs snd) :
    Reads tag chain (us ++ bs) (snd.1, fst.2 ++ snd.2) := by
  simp only [Reads, run_append, hf.1, hf.2, hs.1, hs.2, and_self]

theorem reads_pushRecord {ch : Bytes} (hs : (tag (chain ++ ch)).length = 4)
    (hle : ch.length ≤ 16384) : Reads tag chain ch (pushRecord tag chain ch) := by
  have hr : Reaches tag ⟨chain, none⟩ (pushRecord tag chain ch).2 :=
    ⟨rfl, rfl, rfl, by simp [pushRecord, beBytes, hs, hmacHdr, recordHdr, hmacLen], nofun⟩
  have hc : run cutStep [] (pushRecord tag chain ch).2 = ([], [(pushRecord tag chain ch).2]) := by
    simp only [pushRecord]
    generalize hh : [recordAppdata, 3, 3] ++ beBytes (ch.length + hmacLen) = hdr
    have hl : hdr.length = 5 := hh ▸ rfl
    have hn : need hdr = 5 + (ch.length + 4) :=
      hh ▸ congrArg _ (beValue_beBytes (by grind [hmacLen]))
    have hst := @run_cutStep [] hdr (by rintro rfl; cases hl) hl.le
    rw [nil_append, hn, hl, if_pos (by omega)] at hst
    rw [run_append, hst, run_cutStep] <;>
      simp [need_append (.inl hl.ge), ← length_pos_iff, hl, hs, hn, Nat.add_comm]
  simp only [Reads, hc, run, judgeStep, judge_of_reaches hr]
  simp [pushRecord, beBytes, hmacHdr, recordHdr, hs, hmacLen]

theorem reads_pollWrite (htag : ∀ bs, (tag bs).length = hmacLen) (buf : Bytes) :
    Reads tag chain buf (pollWrite tag chain buf) := by
  fun_induction pollWrite tag chain buf with
  | case1 => exact ⟨rfl, rfl⟩
  | case2 chain buf _ _ _ ih =>
    rw [← take_append_drop 16384 buf]
    exact (reads_pushRecord (htag _) (length_take_le _ _)).append ih

/-- However one end writes, the other reads what was written. -/
theorem reads_writes (htag : ∀ bs, (tag bs).length = hmacLen) (bufs : List Bytes) :
    Reads tag chain bufs.flatten (run (pollWrite tag) chain bufs) := by
  induction bufs generalizing chain with
  | nil => exact ⟨rfl, rfl⟩
  | cons buf bufs ih => exact (reads_pollWrite htag buf).append ih

theorem reads_writes_two : Reads tagOf [7] [1, 2] (run (pollWrite tagOf) [7] [[1], [2]]) :=
  reads_writes (fun _ => rfl) [[1], [2]]

end Writes

end MeowRs.ShadowTls
