import MeowRs.ChunkedReads
import MeowRs.LittleEndian

/-!
# Reading a Vision stream

A Vision server pads its first bytes: frames with a command, a content and padding, the first one
behind the identity of the user, until a command ends the padding.  The reader moves its state out
and puts it back on every way out of its loop but two: after an unknown command, and after a switch
to raw reads that the transport cannot make, it is left in the state that passes everything through.
-/

namespace MeowRs.Vision

open List Option Nat ChunkedReads

open BigEndian (beBytes beValue)

def uuidLen : Nat := 16

def paddingHeaderLen : Nat := uuidLen + 1 + 2 + 2

inductive ReadState where
  | header (buf : Bytes) (needUuid : Bool)
  | eof
  | content (command : UInt8) (remainingContent remainingPadding : Nat)
  | padding (command : UInt8) (remainingPadding : Nat)
  | through
  deriving DecidableEq

/-- The user, and whether the transport can switch reads to raw. -/
structure Inner where
  userUuid : Bytes
  rawCapable : Bool

def headerNeed (needUuid : Bool) : Nat :=
  if needUuid then paddingHeaderLen else paddingHeaderLen - uuidLen

/-- Command, content length and padding length of a complete header. -/
def fields (header : Bytes) (needUuid : Bool) : UInt8 × Nat × Nat :=
  let body := if needUuid then header.drop uuidLen else header
  (body.getD 0 0, beValue (body.getD 1 0) (body.getD 2 0), beValue (body.getD 3 0) (body.getD 4 0))

abbrev Settled := ReadState × Option (Except String Bytes)

/-- A buffer without room is returned as it is. -/
def awaits (capacity : Nat) (state : ReadState) : Settled :=
  (state, if capacity = 0 then some (.ok []) else none)

def settlePadding (inner : Inner) (capacity : Nat) (command : UInt8) (remaining : Nat) : Settled :=
  if remaining ≠ 0 then (.padding command remaining, none)
  else if command = 0x00 then (.header [] false, none)
  else if command = 0x01 then awaits capacity .through
  else if command = 0x02 then
    if inner.rawCapable then awaits capacity .through
    else
      (.through, some (.error ("vision: server sent DIRECT but this transport cannot switch " ++
        "reads to raw (Vision needs raw TCP with tls or REALITY)")))
  else (.through, some (.error ("vision: unknown padding command " ++ toString command.toNat)))

def settleContent (inner : Inner) (capacity : Nat) (command : UInt8) (size pad : Nat) :
    Settled :=
  if size = 0 then settlePadding inner capacity command pad
  else awaits capacity (.content command size pad)

/-- One `poll_read` into a buffer with room for `capacity` bytes. -/
def pollRead (inner : Inner) (capacity : Nat) : Reader UInt8 ReadState (Except String Bytes) where
  settle
    | .eof => (.eof, some (.ok []))
    | .through => awaits capacity .through
    | .header buf needUuid =>
      if buf.length < headerNeed needUuid then (.header buf needUuid, none)
      else if needUuid = true ∧ buf.take uuidLen ≠ inner.userUuid then
        (.header buf needUuid, some (.error "vision: server responded with unknown UUID"))
      else
        settleContent inner capacity (fields buf needUuid).1 (fields buf needUuid).2.1
          (fields buf needUuid).2.2
    | .content command size pad => settleContent inner capacity command size pad
    | .padding command pad => settlePadding inner capacity command pad
  limit
    | .header buf needUuid => headerNeed needUuid - buf.length
    | .content _ size _ => min (min size capacity) 8192
    | .padding _ pad => min pad 1024
    | _ => capacity
  take
    | .header buf needUuid, chunk => (.header (buf ++ chunk) needUuid, none)
    | .content command size pad, chunk =>
      (if size - chunk.length = 0 then .padding command pad
        else .content command (size - chunk.length) pad, some (.ok chunk))
    | .padding command pad, chunk => (.padding command (pad - chunk.length), none)
    | state, chunk => (state, some (.ok chunk))
  ended
    | .through => (.through, .ok [])
    | _ => (.eof, .ok [])

/-- A stream is read byte by byte: `refused` after an unknown user, `broken` after a command that is
not known or not possible. -/
inductive Decoder where
  | header (buf : Bytes) (needUuid : Bool)
  | content (command : UInt8) (remainingContent remainingPadding : Nat)
  | padding (command : UInt8) (remainingPadding : Nat)
  | raw
  | refused
  | broken
  deriving DecidableEq

namespace Decoder

def enterPadding (inner : Inner) (command : UInt8) (remaining : Nat) : Decoder :=
  if remaining ≠ 0 then .padding command remaining
  else if command = 0x00 then .header [] false
  else if command = 0x01 ∨ command = 0x02 ∧ inner.rawCapable = true then .raw
  else .broken

def enterContent (inner : Inner) (command : UInt8) (size pad : Nat) : Decoder :=
  if size = 0 then enterPadding inner command pad else .content command size pad

def enterFrame (inner : Inner) (header : Bytes) (needUuid : Bool) : Decoder :=
  if needUuid = true ∧ header.take uuidLen ≠ inner.userUuid then .refused
  else
    enterContent inner (fields header needUuid).1 (fields header needUuid).2.1
      (fields header needUuid).2.2

/-- One byte.  With `leaks`, what follows a broken frame is put out. -/
def step (inner : Inner) (leaks : Bool) : Decoder → UInt8 → Decoder × Bytes
  | .header buf needUuid, byte =>
    (if (buf ++ [byte]).length < headerNeed needUuid then .header (buf ++ [byte]) needUuid
      else enterFrame inner (buf ++ [byte]) needUuid, [])
  | .content command size pad, byte =>
    (enterContent inner command (size - 1) pad, [byte])
  | .padding command pad, _ => (enterPadding inner command (pad - 1), [])
  | .raw, byte => (.raw, [byte])
  | .refused, _ => (.refused, [])
  | .broken, byte => (.broken, if leaks then [byte] else [])

def start : Decoder := .header [] true

end Decoder

open Decoder

section Refinement

variable {inner : Inner} {cap : Nat} {s : ReadState} {dec : Decoder}

def Relates (inner : Inner) : ReadState → Decoder → Prop
  | .eof, _ => True
  | .through, decoder => decoder = .raw ∨ decoder = .broken
  | .header buf needUuid, decoder => buf.length ≤ headerNeed needUuid ∧
    decoder = if buf.length < headerNeed needUuid then .header buf needUuid
      else enterFrame inner buf needUuid
  | .content command size pad, decoder =>
    decoder = enterContent inner command size pad
  | .padding command pad, decoder => decoder = enterPadding inner command pad

def bytesOf (result : Except String Bytes) : Bytes :=
  result.toOption.getD []

/-- A result is what was put out; it is an error only at the end of what can be read. -/
def Yields (result : Option (Except String Bytes)) (outcome : Decoder × Bytes) : Prop :=
  outcome.2 = result.elim [] bytesOf ∧
    ∀ error, result = some (.error error) → outcome.1 = .refused ∨ outcome.1 = .broken

def Asks (capacity : Nat) : ReadState → Prop
  | .eof => False
  | .through => capacity ≠ 0
  | .header buf needUuid => buf.length < headerNeed needUuid
  | .content _ size _ => size ≠ 0 ∧ capacity ≠ 0
  | .padding _ pad => pad ≠ 0

def Settles (inner : Inner) (capacity : Nat) (settled : Settled) (decoder : Decoder) : Prop :=
  Relates inner settled.1 decoder ∧ Yields settled.2 (decoder, []) ∧
    (settled.2 = none → Asks capacity settled.1)

theorem settles_awaits (hr : Relates inner s dec) (ha : cap ≠ 0 → Asks cap s) :
    Settles inner cap (awaits cap s) dec := by
  refine ⟨hr, ?_, fun hg => ha ?_⟩
  · unfold awaits
    split
    all_goals exact ⟨rfl, nofun⟩
  · rintro rfl
    cases hg

theorem settles_padding (cap : Nat) (cmd : UInt8) (rem : Nat) :
    Settles inner cap (settlePadding inner cap cmd rem)
      (enterPadding inner cmd rem) := by
  unfold settlePadding
  split
  · rename_i more
    exact ⟨rfl, ⟨rfl, nofun⟩, fun _ => more⟩
  · rename_i none
    have hz : rem = 0 := not_not.mp none
    split
    · rename_i isContinue
      refine ⟨⟨zero_le _, ?_⟩, ⟨rfl, nofun⟩, fun _ => zero_lt_succ 4⟩
      simp [enterPadding, hz, isContinue, headerNeed, paddingHeaderLen, uuidLen]
    · rename_i notContinue
      have hent : enterPadding inner cmd rem =
          if cmd = 0x01 ∨ cmd = 0x02 ∧ inner.rawCapable = true then .raw else .broken := by
        rw [enterPadding, if_neg none, if_neg notContinue]
      rw [hent]
      split
      · rename_i he
        rw [if_pos (.inl he)]
        exact settles_awaits (.inl rfl) id
      · split
        · split
          · rename_i hd hc
            rw [if_pos (.inr ⟨hd, hc⟩)]
            exact settles_awaits (.inl rfl) id
          · rename_i notEnd _ incapable
            rw [if_neg (by rintro (he | ⟨_, hc⟩); exacts [notEnd he, incapable hc])]
            exact ⟨.inr rfl, ⟨rfl, fun _ _ => .inr rfl⟩, nofun⟩
        · rename_i notEnd notDirect
          rw [if_neg (by rintro (he | ⟨hd, _⟩); exacts [notEnd he, notDirect hd])]
          exact ⟨.inr rfl, ⟨rfl, fun _ _ => .inr rfl⟩, nofun⟩

theorem settles_content (cap : Nat) (cmd : UInt8) (size pad : Nat) :
    Settles inner cap (settleContent inner cap cmd size pad)
      (enterContent inner cmd size pad) := by
  unfold settleContent enterContent
  split
  · exact settles_padding cap cmd pad
  · rename_i some
    refine settles_awaits ?_ fun hr => ⟨some, hr⟩
    rw [Relates, enterContent, if_neg some]

theorem settles (hr : Relates inner s dec) :
    Settles inner cap ((pollRead inner cap).settle s) dec := by
  cases s with
  | eof => exact ⟨trivial, ⟨rfl, nofun⟩, nofun⟩
  | through => exact settles_awaits hr id
  | content command size pad =>
    rw [hr]
    exact settles_content cap command size pad
  | padding command pad =>
    rw [hr]
    exact settles_padding cap command pad
  | header buf hdr =>
    obtain ⟨hf, hs⟩ := hr
    dsimp only [pollRead]
    split
    · rename_i hsh
      exact ⟨⟨hf, hs⟩, ⟨rfl, nofun⟩, fun _ => hsh⟩
    · rename_i full
      rw [if_neg full, enterFrame] at hs
      split
      · rename_i unknown
        rw [if_pos unknown] at hs
        refine ⟨⟨hf, ?_⟩, ⟨rfl, fun _ _ => .inl hs⟩, nofun⟩
        rw [if_neg full, enterFrame, if_pos unknown, hs]
      · rename_i hk
        rw [if_neg hk] at hs
        rw [hs]
        exact settles_content cap _ _ _

theorem run_content (leaks : Bool) (cmd : UInt8) (ch : Bytes) (left pad : Nat) :
    run (step inner leaks) (enterContent inner cmd (ch.length + left) pad) ch =
      (enterContent inner cmd left pad, ch) := by
  have hc := @run_countdown _ _ _ (step inner leaks)
    (fun n => enterContent inner cmd n pad) (fun b => [b]) (fun _ _ => rfl) ch
    left
  rwa [flatMap_singleton'] at hc

theorem run_padding (leaks : Bool) (cmd : UInt8) (ch : Bytes) (left : Nat) :
    run (step inner leaks) (enterPadding inner cmd (ch.length + left)) ch =
      (enterPadding inner cmd left, []) := by
  have hc := @run_countdown _ _ _ (step inner leaks)
    (fun n => enterPadding inner cmd n) (fun _ => []) (fun _ _ => rfl) ch left
  rwa [flatMap_eq_nil_iff.mpr fun _ _ => rfl] at hc

theorem run_header (leaks : Bool) (hdr : Bool) {buf ch : Bytes} (hs : ch ≠ [])
    (hf : (buf ++ ch).length ≤ headerNeed hdr) :
    run (step inner leaks) (.header buf hdr) ch =
      (if (buf ++ ch).length < headerNeed hdr then .header (buf ++ ch) hdr
        else enterFrame inner (buf ++ ch) hdr, []) := by
  have hc := @run_collect _ _ _ (step inner leaks) (fun held => .header held hdr) (headerNeed hdr)
    (fun held => (enterFrame inner held hdr, []))
    (fun held b hsh => by rw [step, if_pos (by simpa using hsh)])
    (fun held b hl => by rw [step, if_neg (by simp [hl])]) buf ch hs hf
  rw [hc]
  split <;> rfl

theorem run_passing {leaks : Bool} (hp : ∀ b, step inner leaks dec b = (dec, [b])) (ch : Bytes) :
    run (step inner leaks) dec ch = (dec, ch) := by
  have hc := @run_countdown _ _ _ (step inner leaks) (fun _ => dec)
    (fun b => [b]) (fun _ => hp) ch 0
  rwa [flatMap_singleton'] at hc

theorem limit_pos (ha : Asks cap s) : 0 < (pollRead inner cap).limit s := by
  cases s with
  | eof => cases ha
  | through => exact pos_of_ne_zero ha
  | header buf hdr => exact Nat.sub_pos_of_lt ha
  | content command size pad =>
    have hb : size ≠ 0 ∧ cap ≠ 0 := ha
    dsimp only [pollRead]
    omega
  | padding command pad =>
    have hm : pad ≠ 0 := ha
    dsimp only [pollRead]
    omega

theorem takes {chunk : Bytes} (hr : Relates inner s dec) (ha : Asks cap s) (hs : chunk ≠ [])
    (hf : chunk.length ≤ (pollRead inner cap).limit s) :
    Relates inner ((pollRead inner cap).take s chunk).1
        (run (step inner true) dec chunk).1 ∧
      Yields ((pollRead inner cap).take s chunk).2
        (run (step inner true) dec chunk) := by
  cases s with
  | eof => cases ha
  | through =>
    rw [run_passing fun _ => by rcases hr with rfl | rfl <;> rfl]
    exact ⟨hr, rfl, nofun⟩
  | header buf hdr =>
    obtain ⟨_, rfl⟩ := hr
    rw [Asks] at ha
    have hw : (buf ++ chunk).length ≤ headerNeed hdr := by
      dsimp only [pollRead] at hf
      rw [length_append]
      omega
    rw [if_pos ha, run_header true hdr hs hw]
    exact ⟨⟨hw, rfl⟩, rfl, nofun⟩
  | content command size pad =>
    dsimp only [pollRead] at hf ⊢
    obtain ⟨left, rfl⟩ : ∃ left, size = chunk.length + left := Nat.exists_eq_add_of_le (by omega)
    rw [hr, run_content, add_tsub_cancel_left]
    refine ⟨?_, rfl, nofun⟩
    split
    · rename_i zero
      rw [zero, enterContent, if_pos rfl]
      rfl
    · rfl
  | padding command pad =>
    dsimp only [pollRead] at hf ⊢
    obtain ⟨left, rfl⟩ : ∃ left, pad = chunk.length + left := Nat.exists_eq_add_of_le (by omega)
    rw [hr, run_padding, add_tsub_cancel_left]
    exact ⟨rfl, rfl, nofun⟩

theorem follows_pollRead (cap : Nat) :
    ChunkedReads.Follows (step inner true) (Relates inner) Yields (pollRead inner cap) where
  pending out := ⟨And.left, fun hno => ⟨hno, nofun⟩⟩
  settles rel := ⟨(settles rel).1, (settles rel).2.1⟩
  asks rel goes := limit_pos ((settles rel).2.2 goes)
  takes rel goes := takes (settles rel).1 ((settles rel).2.2 goes)
  ends := by
    intro s dec rel goes
    obtain ⟨hst, _, asks⟩ := @settles inner cap s dec rel
    generalize ((pollRead inner cap).settle s).1 = settled at hst asks ⊢
    cases settled with
    | through => exact ⟨hst, rfl, nofun⟩
    | _ => exact ⟨trivial, rfl, nofun⟩

end Refinement

section Stream

variable (inner : Inner)

/-- What a stream carries: the contents of the frames up to one that ends the padding, and then
everything. -/
def contents (needUuid : Bool) (stream : Bytes) : Bytes :=
  if stream.length < headerNeed needUuid then []
  else if needUuid = true ∧ stream.take uuidLen ≠ inner.userUuid then []
  else
    let frame := fields (stream.take (headerNeed needUuid)) needUuid
    let body := stream.drop (headerNeed needUuid)
    let rest := body.drop (frame.2.1 + frame.2.2)
    body.take frame.2.1 ++
      if frame.1 = 0x00 then contents false rest
      else if frame.1 = 0x01 ∨ frame.1 = 0x02 ∧ inner.rawCapable = true then rest
      else []
  termination_by stream.length
  decreasing_by
    simp only [List.length_drop]
    cases needUuid <;> simp_all [headerNeed, paddingHeaderLen, uuidLen] <;> omega

/-- Nothing follows a frame with an unknown command, or a switch to raw reads that is not
possible. -/
def Unbroken (decoder : Decoder) (stream : Bytes) : Prop :=
  ∀ size < stream.length, (run (step inner false) decoder (stream.take size)).1 ≠ .broken

instance (decoder : Decoder) (stream : Bytes) : Decidable (Unbroken inner decoder stream) :=
  inferInstanceAs (Decidable (∀ size < stream.length, _))

def delivered (results : List (Nat × Option (Except String Bytes))) : Bytes :=
  results.flatMap fun result => result.2.elim [] bytesOf

/-- Whatever the chunks, what is delivered is what the bytes read carry, and nothing is delivered
after an error. -/
def ReadsWell (wire : Bytes) : Prop :=
  ∀ closed calls, let outcome := session (pollRead inner) closed calls (.header [] true) wire
    (∃ taken, wire = taken ++ outcome.2.1 ∧
      delivered outcome.2.2 = contents inner true taken) ∧
    ∀ before call error after, outcome.2.2 = before ++ (call, some (.error error)) :: after →
      delivered after = []

end Stream

section Decoding

variable {inner : Inner} {cap : Nat} {str : Bytes} {s : ReadState} {dec : Decoder}

theorem run_still {leaks : Bool} (hs : ∀ b, step inner leaks dec b = (dec, [])) (str : Bytes) :
    run (step inner leaks) dec str = (dec, []) := by
  have hc := @run_countdown _ _ _ (step inner leaks) (fun _ => dec)
    (fun _ => []) (fun _ => hs) str 0
  rwa [flatMap_eq_nil_iff.mpr fun _ _ => rfl] at hc

theorem run_enterContent (cmd : UInt8) (size pad : Nat) (body : Bytes) :
    (run (step inner false) (enterContent inner cmd size pad) body).2 = body.take size ++
      (run (step inner false) (enterPadding inner cmd pad) (body.drop size)).2 := by
  rcases le_total size body.length with he | hs
  · have hsp := @run_content inner false cmd (body.take size) 0 pad
    rw [length_take_of_le he, add_zero] at hsp
    conv_lhs => rw [← take_append_drop size body, run_append, hsp]
    rfl
  · obtain ⟨left, rfl⟩ := Nat.exists_eq_add_of_le hs
    rw [run_content, take_of_length_le hs, drop_of_length_le hs, run, append_nil]

theorem run_enterPadding (cmd : UInt8) (pad : Nat) (body : Bytes) :
    (run (step inner false) (enterPadding inner cmd pad) body).2 =
      (run (step inner false) (enterPadding inner cmd 0) (body.drop pad)).2 := by
  rcases le_total pad body.length with he | hs
  · have hsp := @run_padding inner false cmd (body.take pad) 0
    rw [length_take_of_le he, add_zero] at hsp
    conv_lhs => rw [← take_append_drop pad body, run_append, hsp]
    rfl
  · obtain ⟨left, rfl⟩ := Nat.exists_eq_add_of_le hs
    rw [run_padding, drop_of_length_le hs, run]

theorem run_frame (hdr : Bool) (hf : ¬ str.length < headerNeed hdr) :
    (run (step inner false) (.header [] hdr) str).2 =
      (run (step inner false) (enterFrame inner (str.take (headerNeed hdr)) hdr)
        (str.drop (headerNeed hdr))).2 := by
  have hl : (str.take (headerNeed hdr)).length = headerNeed hdr :=
    length_take_of_le (le_of_not_gt hf)
  have hs : str.take (headerNeed hdr) ≠ [] := by
    intro hn
    rw [hn] at hl
    cases hdr <;> cases hl
  conv_lhs =>
    rw [← take_append_drop (headerNeed hdr) str, run_append,
      run_header false hdr hs (le_of_eq hl), nil_append, hl, if_neg (lt_irrefl _)]
  rfl

theorem run_contents (hdr : Bool) (str : Bytes) :
    (run (step inner false) (.header [] hdr) str).2 = contents inner hdr str := by
  fun_induction contents inner hdr str with
  | case1 hdr str hs =>
    cases str with
    | nil => rfl
    | cons b str => rw [run_header false hdr (cons_ne_nil _ _) (le_of_lt hs)]
  | case2 hdr str hf hu =>
    obtain ⟨rfl, hu⟩ := hu
    rw [run_frame true hf, enterFrame, take_take, if_pos ⟨rfl, hu⟩, run_still fun _ => rfl]
  | case3 hdr str hf hk f body rest ih =>
    have ha : ¬ (hdr = true ∧
        (str.take (headerNeed hdr)).take uuidLen ≠ inner.userUuid) := by
      rintro ⟨rfl, hu⟩
      rw [take_take] at hu
      exact hk ⟨rfl, hu⟩
    rw [run_frame hdr hf, enterFrame, if_neg ha, run_enterContent, run_enterPadding, drop_drop]
    rw [enterPadding, if_neg (not_not.mpr rfl)]
    congr 1
    split
    · rename_i isContinue
      exact ih isContinue
    · split
      · rw [run_passing fun _ => rfl]
      · rw [run_still fun _ => rfl]

theorem session_delivered (cl : Bool) (calls : List (Nat × List (Option Nat)))
    (hr : Relates inner s dec) (str : Bytes) :
    ∃ taken, str = taken ++ (session (pollRead inner) cl calls s str).2.1 ∧
      delivered (session (pollRead inner) cl calls s str).2.2 =
    (run (step inner true) dec taken).2 :=
  session_delivers follows_pollRead (fun _ _ _ hy => hy.1) cl calls hr str

theorem Unbroken.append {fst snd : Bytes} (hu : Unbroken inner dec (fst ++ snd)) :
    Unbroken inner dec fst ∧
      Unbroken inner (run (step inner false) dec fst).1 snd := by
  constructor
  · intro size hl
    have wh := hu size (by rw [length_append]; omega)
    rwa [take_append_of_le_length (le_of_lt hl)] at wh
  · intro size hl
    have wh := hu (fst.length + size) (by rw [length_append]; omega)
    rwa [take_length_add_append, run_append] at wh

/-- The leak makes no difference where nothing follows a broken frame. -/
theorem run_unbroken (hu : Unbroken inner dec str) :
    run (step inner true) dec str = run (step inner false) dec str := by
  induction str generalizing dec with
  | nil => rfl
  | cons b str ih =>
    have hs : step inner true dec b = step inner false dec b := by
      cases dec with
      | broken => exact absurd rfl (hu 0 (zero_lt_succ _))
      | _ => rfl
    have ht : Unbroken inner (step inner false dec b).1 str := (@Unbroken.append _ _ [b] _ hu).2
    rw [run, run, hs, ih ht]

theorem silent_after_error {closed : Bool} {calls : List (Nat × List (Option Nat))}
    (hre : Relates inner s dec) (hu : Unbroken inner dec str)
    {before after : List (Nat × Option (Except String Bytes))} {call : Nat} {error : String}
    (results : (session (pollRead inner) closed calls s str).2.2 =
      before ++ (call, some (.error error)) :: after) : delivered after = [] := by
  induction calls generalizing s dec str before with
  | nil => exact absurd results (by simp [session])
  | cons next calls ih =>
    obtain ⟨cap, answers⟩ := next
    obtain ⟨taken, hc, hn, hy⟩ := (follows_pollRead cap).poll closed answers hre str
    rw [session] at results
    generalize (pollRead inner cap).poll closed answers s str = polled at *
    subst hc
    obtain ⟨hw, hl⟩ := hu.append
    rw [run_unbroken hw] at hn hy
    cases before with
    | cons head before => exact ih hn hl (cons.inj results).2
    | nil =>
      obtain ⟨head, rfl⟩ := cons.inj results
      obtain ⟨taken, hc, hs⟩ := session_delivered closed calls hn polled.rest
      rw [hs]
      rcases hy.2 error (congrArg Prod.snd head) with hr | hb
      · rw [hr, run_still fun _ => rfl]
      · have hp : polled.rest = [] := by
          by_contra more
          exact hl 0 (length_pos_iff.mpr more) hb
        rw [hp] at hc
        rw [(append_eq_nil_iff.mp hc.symm).1, run]

theorem settlePadding_broken {cmd : UInt8} {pad : Nat} (hb : enterPadding inner cmd pad = .broken) :
    (settlePadding inner cap cmd pad).1 = .through := by
  unfold enterPadding at hb
  unfold settlePadding awaits
  split_ifs at hb ⊢ <;> rfl

theorem settleContent_broken {cmd : UInt8} {size pad : Nat}
    (hb : enterContent inner cmd size pad = .broken) :
    (settleContent inner cap cmd size pad).1 = .through := by
  unfold enterContent at hb
  unfold settleContent
  split at hb
  · rename_i none
    rw [if_pos none]
    exact settlePadding_broken hb
  · cases hb

theorem settle_broken (hl : s ≠ .eof) (hr : Relates inner s .broken) :
    ((pollRead inner cap).settle s).1 = .through := by
  cases s with
  | eof => exact absurd rfl hl
  | through => rfl
  | content command size pad => exact settleContent_broken hr.symm
  | padding command pad => exact settlePadding_broken hr.symm
  | header buf hdr =>
    obtain ⟨_, hs⟩ := hr
    dsimp only [pollRead]
    split at hs
    · cases hs
    · rename_i full
      rw [if_neg full]
      unfold enterFrame at hs
      split at hs
      · cases hs
      · rename_i hk
        rw [if_neg hk]
        exact settleContent_broken hs.symm

/-- A reader that has not come to the end of the stream, called with room, reads on unless it
fails. -/
theorem settle_live (hr : cap ≠ 0) (hl : s ≠ .eof) :
    ((pollRead inner cap).settle s).1 ≠ .eof ∧
      ∀ bs, ((pollRead inner cap).settle s).2 ≠ some (.ok bs) := by
  unfold pollRead settleContent settlePadding awaits
  cases s with
  | eof => exact absurd rfl hl
  | through => exact ⟨hl, by simp [hr]⟩
  | _ => dsimp only; split_ifs <;> exact ⟨nofun, nofun⟩

theorem take_live (hl : s ≠ .eof) (ch : Bytes) : ((pollRead inner cap).take s ch).1 ≠ .eof := by
  unfold pollRead
  cases s with
  | content => dsimp only; split_ifs <;> nofun
  | eof => exact absurd rfl hl
  | _ => nofun

theorem poll_byte (hl : s ≠ .eof) (b : UInt8) (str : Bytes)
    (hr : ((pollRead inner 1).settle s).2 = none)
    (ha : 0 < (pollRead inner 1).limit ((pollRead inner 1).settle s).1) :
    ((pollRead inner 1).poll false [some 0] s (b :: str)).rest = str ∧
      ((pollRead inner 1).poll false [some 0] s (b :: str)).state ≠ .eof := by
  have hs := (@settle_live inner 1 s one_ne_zero hl).1
  unfold Reader.poll
  generalize (pollRead inner 1).settle s = out at hr hs ha
  obtain ⟨s, _⟩ := out
  cases hr
  have ho : min (0 + 1) ((pollRead inner 1).limit s) = 1 := min_eq_left ha
  have ht := @take_live inner 1 s hs [b]
  simp only [isEmpty_cons, Bool.false_eq_true, if_false, ho, take_succ_cons,
    take_zero, drop_succ_cons, drop_zero]
  generalize (pollRead inner 1).take s [b] = out at ht
  obtain ⟨next, _ | res⟩ := out
  · exact ⟨rfl, (settle_live one_ne_zero ht).1⟩
  · exact ⟨rfl, ht⟩

theorem drains (hl : s ≠ .eof) (rel : Relates inner s dec)
    (ha : (run (step inner true) dec str).1 ≠ .refused) :
    ∃ calls, (session (pollRead inner) false calls s str).2.1 = [] := by
  induction str generalizing s dec with
  | nil => exact ⟨[], rfl⟩
  | cons b str ih =>
    obtain ⟨_, hy, asks⟩ := @settles _ 1 _ _ rel
    rcases hr : ((pollRead inner 1).settle s).2 with _ | _ | bs
    · obtain ⟨rest, hn⟩ := poll_byte hl b str hr (limit_pos (asks hr))
      obtain ⟨taken, hc, hnr, _⟩ := (follows_pollRead 1).poll false [some 0] rel (b :: str)
      rw [rest] at hc
      obtain rfl : [b] = taken := append_cancel_right hc
      obtain ⟨calls, hd⟩ := ih hn hnr ha
      refine ⟨(1, [some 0]) :: calls, ?_⟩
      rw [session, rest]
      exact hd
    · rcases hy.2 _ hr with rfl | rfl
      · rw [run_still fun _ => rfl] at ha
        exact absurd rfl ha
      · refine ⟨[(1, []), (str.length + 1, [some str.length])], ?_⟩
        simp only [session, Reader.poll, settle_broken hl rel]
        simp [pollRead, awaits]
    · exact absurd hr ((settle_live one_ne_zero hl).2 bs)

theorem run_leaks (dec : Decoder) (str : Bytes) :
    (run (step inner true) dec str).1 = (run (step inner false) dec str).1 ∧
      (run (step inner false) dec str).2.length ≤
        (run (step inner true) dec str).2.length := by
  induction str generalizing dec with
  | nil => exact ⟨rfl, le_refl _⟩
  | cons b str ih =>
    have s : (step inner true dec b).1 = (step inner false dec b).1 := by
      cases dec <;> rfl
    have ho : (step inner false dec b).2.length ≤
        (step inner true dec b).2.length := by
      cases dec <;> first | exact le_refl _ | exact zero_le _
    simp only [run, s, length_append]
    exact ⟨(ih _).1, Nat.add_le_add ho (ih _).2⟩

/-- Reading goes well when and only when nothing follows a frame that ends in an error. -/
theorem readsWell_iff (inner : Inner) (wire : Bytes) :
    ReadsWell inner wire ↔ Unbroken inner start wire := by
  have hr : Relates inner (.header [] true) start := ⟨zero_le _, rfl⟩
  constructor
  · intro hrea size hsh hb
    have hl : run (step inner true) start wire =
        (.broken, (run (step inner true) start (wire.take size)).2 ++ wire.drop size) := by
      conv_lhs => rw [← take_append_drop size wire, run_append,
        (run_leaks start _).1, hb, run_passing fun _ => rfl]
    have hk : run (step inner false) start wire =
        (.broken, (run (step inner false) start (wire.take size)).2) := by
      conv_lhs => rw [← take_append_drop size wire, run_append, hb,
        run_still fun _ => rfl, append_nil]
    obtain ⟨calls, hd⟩ := @drains inner wire _ _ (show ReadState.header [] true ≠ _ by nofun)
      hr (by rw [hl]; nofun)
    obtain ⟨⟨taken, hc, hcar⟩, _⟩ := hrea false calls
    obtain ⟨again, hca, hs⟩ := session_delivered false calls hr wire
    rw [hd, append_nil] at hc hca
    rw [← hc, ← run_contents, hs, ← hca] at hcar
    have hle := congrArg List.length hcar
    rw [← start, hl, hk, length_append, length_drop] at hle
    have hf := (@run_leaks inner start (wire.take size)).2
    dsimp only at hle
    omega
  · intro hu closed calls
    refine ⟨?_, fun _ _ _ _ hres => silent_after_error hr hu hres⟩
    obtain ⟨taken, hc, hs⟩ := session_delivered closed calls hr wire
    refine ⟨taken, hc, ?_⟩
    rw [hc] at hu
    rw [hs, run_unbroken hu.append.1, start, run_contents]

def someInner : Inner := ⟨replicate 16 0x11, false⟩

theorem bytes_after_unknown_command :
    ¬ ReadsWell someInner (someInner.userUuid ++ [9, 0, 0, 0, 0] ++ [0x41]) := by
  intro hr
  have hs := (hr false [(8, [some 20]), (8, [some 7])]).2 [] 8
    "vision: unknown padding command 9" [(8, some (.ok [0x41]))] (by decide +kernel)
  cases hs

theorem contents_then_raw :
    ReadsWell someInner (someInner.userUuid ++ [0, 0, 1, 0, 1, 0x41, 0] ++ [1, 0, 1, 0, 0, 0x42] ++
      [9, 9]) :=
  (readsWell_iff _ _).mpr (by decide +kernel)

end Decoding

end MeowRs.Vision
