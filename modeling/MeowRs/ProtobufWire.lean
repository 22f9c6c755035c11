import MeowRs.Results

/-!
# The wire format of protocol buffers

A message is a sequence of fields, each a tag and a value whose form the tag names.  A reader takes
fields off the front of the bytes until none are left or one cannot be read.  What a program makes of
the fields does not change how they are read, so a message is read as the list of its fields,
followed by the error that ends it.
-/

namespace MeowRs.Protobuf

open Results

inductive WireError where
  | truncated (offset : Nat)
  | varintOverflow (offset : Nat)
  | invalidUtf8 (offset : Nat)
  | unknownWireType (offset wire : Nat)
  deriving DecidableEq, Repr

/-- The bytes that are left and the offset of the first of them. -/
structure Reader where
  rest : List UInt8
  pos : Nat
  deriving DecidableEq

inductive Value where
  | varint (value : Nat)
  | fixed64
  | bytes (content : List UInt8)
  | fixed32
  deriving DecidableEq, Repr

/-- A field and the offset of the byte after it. -/
structure Field where
  number : Nat
  value : Value
  stop : Nat
  deriving DecidableEq, Repr

namespace Reader

variable {rd after : Reader}

/-- Seven bits per byte, low ones first, until a byte below 128; bits above the 64th are lost. -/
def varintLoop (start : Nat) : List UInt8 → Nat → Nat → Nat → Except WireError (Nat × Reader)
  | [], _, _, _ => .error (.truncated start)
  | byte :: rest, pos, result, shift =>
    if 64 ≤ shift then .error (.varintOverflow start)
    else
      let result := result ||| (byte.toNat % 128) <<< shift % 2 ^ 64
      if byte.toNat < 128 then .ok (result, ⟨rest, pos + 1⟩)
      else varintLoop start rest (pos + 1) result (shift + 7)

def readVarint (reader : Reader) : Except WireError (Nat × Reader) :=
  varintLoop reader.pos reader.rest reader.pos 0 0

/-- Take `count` bytes; `start` is where the value they belong to begins. -/
def readBytes (reader : Reader) (start count : Nat) : Except WireError (List UInt8 × Reader) :=
  if reader.rest.length < count then .error (.truncated start)
  else .ok (reader.rest.take count, ⟨reader.rest.drop count, reader.pos + count⟩)

def readLengthDelimited (reader : Reader) : Except WireError (List UInt8 × Reader) := do
  let (length, after) ← reader.readVarint
  after.readBytes reader.pos length

def readValue (reader : Reader) (wire : Nat) : Except WireError (Value × Reader) :=
  match wire with
  | 0 => do
      let (value, reader) ← reader.readVarint
      return (.varint value, reader)
  | 1 => do
      let (_, reader) ← reader.readBytes reader.pos 8
      return (.fixed64, reader)
  | 2 => do
      let (content, reader) ← reader.readLengthDelimited
      return (.bytes content, reader)
  | 5 => do
      let (_, reader) ← reader.readBytes reader.pos 4
      return (.fixed32, reader)
  | other => .error (.unknownWireType reader.pos other)

def readField (reader : Reader) : Except WireError (Field × Reader) := do
  let (tag, reader) ← reader.readVarint
  let (value, reader) ← reader.readValue (tag % 8)
  return (⟨tag / 8 % 2 ^ 32, value, reader.pos⟩, reader)

/-- At most `fuel` fields; each takes a byte at least. -/
def fieldsWithin : Nat → Reader → List Field × Option WireError
  | 0, _ => ([], none)
  | fuel + 1, reader =>
    if reader.rest.isEmpty then ([], none)
    else
      match reader.readField with
      | .error error => ([], some error)
      | .ok (field, reader) =>
        let (fields, error) := fieldsWithin fuel reader
        (field :: fields, error)

/-- The fields up to the end, or up to the error that ends them. -/
def fields (reader : Reader) : List Field × Option WireError :=
  fieldsWithin reader.rest.length reader

theorem varintLoop_spec {start pos res shift v : Nat} {bs : List UInt8}
    (hr : varintLoop start bs pos res shift = .ok (v, after)) :
    pos < after.pos ∧ after.pos + after.rest.length = pos + bs.length := by
  induction bs generalizing pos res shift with
  | nil => cases hr
  | cons b rest ih =>
    rw [varintLoop] at hr
    split at hr
    · cases hr
    · dsimp only at hr
      split at hr
      · cases hr
        exact ⟨Nat.lt_succ_self _, Nat.succ_add_eq_add_succ _ _⟩
      · have hs := ih hr
        rw [List.length_cons]
        omega

theorem readBytes_spec {start n : Nat} {content : List UInt8}
    (hr : rd.readBytes start n = .ok (content, after)) :
    rd.pos ≤ after.pos ∧ after.pos + after.rest.length = rd.pos + rd.rest.length := by
  rw [readBytes] at hr
  split at hr <;> cases hr
  simp only [List.length_drop]
  omega

theorem readValue_spec {wire : Nat} {v : Value} (hr : rd.readValue wire = .ok (v, after)) :
    rd.pos ≤ after.pos ∧ after.pos + after.rest.length = rd.pos + rd.rest.length := by
  unfold readValue at hr
  split at hr
  · obtain ⟨⟨_, mid⟩, hv, eq⟩ := bind_eq_ok.mp hr
    cases eq
    exact (varintLoop_spec hv).imp_left Nat.le_of_lt
  · obtain ⟨⟨_, mid⟩, ht, eq⟩ := bind_eq_ok.mp hr
    cases eq
    exact readBytes_spec ht
  · obtain ⟨⟨_, mid⟩, hd, eq⟩ := bind_eq_ok.mp hr
    cases eq
    obtain ⟨⟨_, counted⟩, hv, ht⟩ := bind_eq_ok.mp hd
    have hv := varintLoop_spec hv
    have ht := readBytes_spec ht
    omega
  · obtain ⟨⟨_, mid⟩, ht, eq⟩ := bind_eq_ok.mp hr
    cases eq
    exact readBytes_spec ht
  · cases hr

theorem readField_spec {f : Field} (hr : rd.readField = .ok (f, after)) :
    after.pos = f.stop ∧ rd.pos < f.stop ∧ f.stop + after.rest.length = rd.pos + rd.rest.length := by
  obtain ⟨⟨tag, tagged⟩, ht, hr⟩ := bind_eq_ok.mp hr
  obtain ⟨⟨v, valued⟩, hv, eq⟩ := bind_eq_ok.mp hr
  cases eq
  have ht := varintLoop_spec ht
  have hv := readValue_spec hv
  exact ⟨rfl, by dsimp only; omega⟩

/-- Fields in a row, within the bytes of a reader, and up to their end if no error ends them. -/
def Covers (reader : Reader) (read : List Field × Option WireError) : Prop :=
  let stops := reader.pos :: read.1.map Field.stop
  stops.IsChain (· < ·) ∧ (∀ stop ∈ stops, stop ≤ reader.pos + reader.rest.length) ∧
    (read.2 = none → reader.pos + reader.rest.length ∈ stops)

theorem covers_fieldsWithin {fuel : Nat} (he : rd.rest.length ≤ fuel) :
    Covers rd (fieldsWithin fuel rd) := by
  induction fuel generalizing rd with
  | zero => simp [Covers, fieldsWithin, Nat.le_zero.mp he]
  | succ fuel ih =>
    rw [fieldsWithin]
    split
    · simp_all [Covers]
    · cases hr : rd.readField with
      | error error => simp [Covers]
      | ok res =>
        obtain ⟨hp, hl, hs⟩ := readField_spec hr
        obtain ⟨hc, hle, hn⟩ := @ih res.2 (by omega)
        rw [hp] at hc hle hn
        rw [hs] at hle hn
        exact ⟨.cons_cons hl hc, List.forall_mem_cons.mpr ⟨Nat.le_add_right _ _, hle⟩,
          fun h => .tail _ (hn h)⟩

/-- What is read has no gaps, and nothing is left if no error ends it. -/
theorem covers_fields (reader : Reader) : Covers reader reader.fields :=
  covers_fieldsWithin (Nat.le_refl _)

end Reader

end MeowRs.Protobuf
