import MeowRs.Framing
import MeowRs.Results
import MeowRs.Text

/-!
# Bodies of requests

The head of a request says where its body ends: after a number of bytes, or behind the trailers of a
chunked message.  A decoder goes through the bytes of the client and is done at the end of the body.
The bodies it completes are given here as a grammar.
-/

namespace MeowRs.Http

open List Option Results

inductive ErrorKind where
  | invalidData
  | unexpectedEof
  | writeZero
  | other
  deriving DecidableEq

structure IoError where
  kind : ErrorKind
  message : String
  deriving DecidableEq

def invalidData (message : String) : IoError :=
  ⟨.invalidData, message⟩

def cr : UInt8 := 0x0d
def lf : UInt8 := 0x0a
def crlf : Text := [cr, lf]
def semicolon : UInt8 := 0x3b

def checked (value : Nat) : Option Nat :=
  if value < 2 ^ 64 then some value else none

def checkedDigit (base value digit : Nat) : Option Nat :=
  (checked (value * base)).bind fun shifted => checked (shifted + digit)

theorem checkedDigit_eq (base v d : Nat) : checkedDigit base v d = checked (v * base + d) := by
  by_cases hf : v * base < 2 ^ 64
  · rw [checkedDigit, checked, if_pos hf, bind_some]
  · have ht : ¬ v * base + d < 2 ^ 64 := by omega
    rw [checkedDigit, checked, if_neg hf, checked, if_neg ht, bind_none]

inductive RequestBodyKind where
  | none
  | contentLength (length : Nat)
  | chunked
  deriving DecidableEq

section Decoder

def maxChunkLine : Nat := 8192
def maxTrailers : Nat := 8192

def hexValue (byte : UInt8) : Option Nat :=
  if 0x30 ≤ byte ∧ byte ≤ 0x39 then some (byte.toNat - 0x30)
  else if 0x61 ≤ byte ∧ byte ≤ 0x66 then some (byte.toNat - 0x61 + 10)
  else if 0x41 ≤ byte ∧ byte ≤ 0x46 then some (byte.toNat - 0x41 + 10)
  else none

def isFieldValueByte (byte : UInt8) : Bool :=
  byte = 0x09 || (0x20 ≤ byte && byte ≠ 0x7f)

inductive ChunkState where
  | sizeLine (size digits : Nat) (inExtensions sawCr : Bool) (lineBytes : Nat)
  | data (remaining : Nat) (positive : 0 < remaining)
  | dataCr
  | dataLf
  | trailers (lineBytes totalBytes : Nat) (sawCr : Bool)
  deriving DecidableEq

namespace ChunkState

def start : ChunkState :=
  .sizeLine 0 0 false false 0

def behindSize (size : Nat) : ChunkState :=
  if zero : size = 0 then .trailers 0 0 false else .data size (Nat.pos_of_ne_zero zero)

def consumeSize (size digits : Nat) (inExtensions sawCr : Bool) (lineBytes : Nat) (byte : UInt8) :
    Except IoError ChunkState :=
  if maxChunkLine < lineBytes then .error (invalidData "chunk size line is too large")
  else if sawCr then
    if byte ≠ lf then .error (invalidData "chunk size CR is not followed by LF")
    else if digits = 0 then .error (invalidData "empty chunk size")
    else .ok (behindSize size)
  else if byte = cr then .ok (.sizeLine size digits inExtensions true lineBytes)
  else if byte = lf then .error (invalidData "chunk size contains a bare LF")
  else if inExtensions then
    if isFieldValueByte byte then .ok (.sizeLine size digits true false lineBytes)
    else .error (invalidData "invalid chunk extension")
  else
    match hexValue byte with
    | some digit =>
      match checkedDigit 16 size digit with
      | some size => .ok (.sizeLine size (digits + 1) false false lineBytes)
      | none => .error (invalidData "chunk size is too large")
    | none =>
      if byte = semicolon ∧ digits ≠ 0 then .ok (.sizeLine size digits true false lineBytes)
      else .error (invalidData "invalid chunk size")

/-- A byte of the trailers; without a next state it ends the message. -/
def consumeTrailer (lineBytes totalBytes : Nat) (sawCr : Bool) (byte : UInt8) :
    Except IoError (Option ChunkState) :=
  if maxTrailers < totalBytes then .error (invalidData "chunked trailers are too large")
  else if sawCr then
    if byte ≠ lf then .error (invalidData "trailer CR is not followed by LF")
    else if lineBytes = 0 then .ok none
    else .ok (some (.trailers 0 totalBytes false))
  else if byte = cr then .ok (some (.trailers lineBytes totalBytes true))
  else if byte = lf then .error (invalidData "chunked trailers contain a bare LF")
  else if isFieldValueByte byte then .ok (some (.trailers (lineBytes + 1) totalBytes false))
  else .error (invalidData "invalid chunked trailer byte")

/-- Consume one byte of a chunked body; without a next state it ends the message. -/
def consume : ChunkState → UInt8 → Except IoError (Option ChunkState)
  | .sizeLine size digits inExtensions sawCr lineBytes, byte =>
    (consumeSize size digits inExtensions sawCr (lineBytes + 1) byte).map some
  | .data remaining _, _ =>
    if more : 0 < remaining - 1 then .ok (some (.data (remaining - 1) more))
    else .ok (some .dataCr)
  | .dataCr, byte =>
    if byte ≠ cr then .error (invalidData "chunk data is not followed by CRLF")
    else .ok (some .dataLf)
  | .dataLf, byte =>
    if byte ≠ lf then .error (invalidData "chunk data is not followed by CRLF")
    else .ok (some start)
  | .trailers lineBytes totalBytes sawCr, byte =>
    consumeTrailer lineBytes (totalBytes + 1) sawCr byte

end ChunkState

inductive RequestBodyDecoder where
  | contentLength (remaining : Nat) (positive : 0 < remaining)
  | chunked (state : ChunkState)
  | done
  deriving DecidableEq

namespace RequestBodyDecoder

def remaining (length : Nat) : RequestBodyDecoder :=
  if more : 0 < length then .contentLength length more else .done

def new : RequestBodyKind → RequestBodyDecoder
  | .none => .done
  | .contentLength length => remaining length
  | .chunked => .chunked .start

def isDone : RequestBodyDecoder → Bool
  | .done => true
  | _ => false

def consume : RequestBodyDecoder → UInt8 → Except IoError RequestBodyDecoder
  | .contentLength length _, _ => .ok (remaining (length - 1))
  | .chunked state, byte =>
    (state.consume byte).map fun
      | some next => .chunked next
      | none => .done
  | .done, _ => .error (invalidData "bytes arrived after the request body boundary")

def consumeEach : RequestBodyDecoder → Text → Except IoError (Nat × RequestBodyDecoder)
  | decoder, [] => .ok (0, decoder)
  | decoder, byte :: rest => do
      let next ← decoder.consume byte
      if next.isDone then .ok (1, next)
      else
        let (consumed, last) ← consumeEach next rest
        .ok (consumed + 1, last)

/-- Consume bytes up to the end of the body, and say how many belong to it. -/
def consumeSlice : RequestBodyDecoder → Text → Except IoError (Nat × RequestBodyDecoder)
  | .contentLength length _, bytes =>
    let consumed := min length bytes.length
    .ok (consumed, remaining (length - consumed))
  | decoder, bytes => consumeEach decoder bytes

end RequestBodyDecoder

end Decoder

section Grammar

variable {b : UInt8} {text : Text} {size ds lineBytes : Nat} {next : ChunkState}

def IsHex (text : Text) : Prop :=
  ∀ byte ∈ text, (hexValue byte).isSome

/-- The number whose digits are a number followed by a text. -/
def hexNumber : Nat → Text → Nat
  | value, [] => value
  | value, byte :: rest => hexNumber (value * 16 + (hexValue byte).getD 0) rest

def IsFieldText (text : Text) : Prop :=
  ∀ byte ∈ text, isFieldValueByte byte = true

def IsExtension (text : Text) : Prop :=
  text = [] ∨ ∃ rest, text = semicolon :: rest ∧ IsFieldText rest

def IsSizeLine (line : Text) (size : Nat) : Prop :=
  ∃ hex extension, line = hex ++ extension ++ crlf ∧ hex ≠ [] ∧ IsHex hex ∧ IsExtension extension ∧
    hexNumber 0 hex = size ∧ size < 2 ^ 64 ∧ line.length ≤ maxChunkLine

/-- The trailers of a message with the empty line behind them. -/
inductive Trailers : Text → Prop
  | stop : Trailers crlf
  | line {field rest : Text} (nonempty : field ≠ []) (isField : IsFieldText field)
      (later : Trailers rest) : Trailers (field ++ crlf ++ rest)

/-- A chunked message. -/
inductive Chunked : Text → Prop
  | last {line trailers : Text} (size : IsSizeLine line 0) (isTrailers : Trailers trailers)
      (short : trailers.length ≤ maxTrailers) : Chunked (line ++ trailers)
  | chunk {line data rest : Text} (size : IsSizeLine line data.length) (nonempty : data ≠ [])
      (later : Chunked rest) : Chunked (line ++ (data ++ crlf ++ rest))

/-- The body that the head of a request announces. -/
def IsBody : RequestBodyKind → Text → Prop
  | .none, body => body = []
  | .contentLength length, body => body.length = length
  | .chunked, body => Chunked body

def BehindSize (size : Nat) (text : Text) : Prop :=
  if size = 0 then Trailers text ∧ text.length ≤ maxTrailers
  else ∃ data rest, text = data ++ crlf ++ rest ∧ data.length = size ∧ Chunked rest

/-- A text that a field goes on in, up to the end of its line. -/
def EndsField (property : Nat → Text → Prop) (text : Text) : Prop :=
  ∃ field rest, text = field ++ crlf ++ rest ∧ IsFieldText field ∧ property field.length rest

/-- A text that a size goes on in, up to the end of its line. -/
def EndsSize (property : Text → Nat → Text → Prop) (text : Text) : Prop :=
  ∃ hex extension rest, text = hex ++ extension ++ crlf ++ rest ∧ IsHex hex ∧
    IsExtension extension ∧ property hex extension.length rest

def Completes : ChunkState → Text → Prop
  | .sizeLine size digits _ true lineBytes, text =>
    ∃ rest, text = lf :: rest ∧ digits ≠ 0 ∧ lineBytes + 1 ≤ maxChunkLine ∧ BehindSize size rest
  | .sizeLine size digits true false lineBytes, text =>
    EndsField (fun length rest => digits ≠ 0 ∧ lineBytes + length + 2 ≤ maxChunkLine ∧
      BehindSize size rest) text
  | .sizeLine size digits false false lineBytes, text =>
    EndsSize (fun hex length rest => digits + hex.length ≠ 0 ∧
      (hex = [] ∨ hexNumber size hex < 2 ^ 64) ∧
      lineBytes + hex.length + length + 2 ≤ maxChunkLine ∧
      BehindSize (hexNumber size hex) rest) text
  | .data remaining _, text =>
    ∃ data rest, text = data ++ crlf ++ rest ∧ data.length = remaining ∧ Chunked rest
  | .dataCr, text => ∃ rest, text = crlf ++ rest ∧ Chunked rest
  | .dataLf, text => ∃ rest, text = lf :: rest ∧ Chunked rest
  | .trailers lineBytes totalBytes true, text =>
    totalBytes + text.length ≤ maxTrailers ∧
      ∃ rest, text = lf :: rest ∧ if lineBytes = 0 then rest = [] else Trailers rest
  | .trailers lineBytes totalBytes false, text =>
    totalBytes + text.length ≤ maxTrailers ∧
      if lineBytes = 0 then Trailers text else EndsField (fun _ rest => Trailers rest) text

theorem isFieldValueByte_cr : isFieldValueByte cr = false := by decide

theorem isFieldValueByte_lf : isFieldValueByte lf = false := by decide

theorem isFieldText_cons :
    IsFieldText (b :: text) ↔ isFieldValueByte b = true ∧ IsFieldText text :=
  forall_mem_cons

theorem isHex_cons :
    IsHex (b :: text) ↔ (hexValue b).isSome ∧ IsHex text :=
  forall_mem_cons

theorem endsField_cons {property : Nat → Text → Prop} :
    EndsField property (b :: text) ↔ b = cr ∧ (∃ rest, text = lf :: rest ∧ property 0 rest) ∨
      isFieldValueByte b = true ∧ EndsField (fun len rest => property (len + 1) rest) text := by
  constructor
  · rintro ⟨f, rest, hc, hf, hp⟩
    cases f with obtain ⟨rfl, rfl⟩ := cons.inj hc
    | nil =>
      exact .inl ⟨rfl, rest, rfl, hp⟩
    | cons fst f =>
      obtain ⟨hb, hf⟩ := isFieldText_cons.mp hf
      exact .inr ⟨hb, f, rest, rfl, hf, hp⟩
  · rintro (⟨rfl, rest, rfl, hp⟩ | ⟨hb, f, rest, rfl, hf, hp⟩)
    · exact ⟨[], rest, rfl, forall_mem_nil _, hp⟩
    · exact ⟨b :: f, rest, rfl, isFieldText_cons.mpr ⟨hb, hf⟩, hp⟩

theorem endsSize_cons {property : Text → Nat → Text → Prop} :
    EndsSize property (b :: text) ↔ b = cr ∧ (∃ rest, text = lf :: rest ∧ property [] 0 rest) ∨
      b = semicolon ∧ EndsField (fun len rest => property [] (len + 1) rest) text ∨
      (hexValue b).isSome ∧
        EndsSize (fun hex len rest => property (b :: hex) len rest) text := by
  constructor
  · rintro ⟨hex, extension, rest, hc, hh, he, hp⟩
    cases hex with
    | nil =>
      rcases he with rfl | ⟨f, rfl, hf⟩
      · obtain ⟨rfl, rfl⟩ := cons.inj hc
        exact .inl ⟨rfl, rest, rfl, hp⟩
      · obtain ⟨rfl, rfl⟩ := cons.inj hc
        exact .inr (.inl ⟨rfl, f, rest, rfl, hf, hp⟩)
    | cons fst hex =>
      obtain ⟨rfl, rfl⟩ := cons.inj hc
      obtain ⟨hb, hh⟩ := isHex_cons.mp hh
      exact .inr (.inr ⟨hb, hex, extension, rest, rfl, hh, he, hp⟩)
  · rintro (⟨rfl, rest, rfl, hp⟩ | ⟨rfl, f, rest, rfl, hf, hp⟩ |
      ⟨hb, hex, extension, rest, rfl, hh, he, hp⟩)
    · exact ⟨[], [], rest, rfl, forall_mem_nil _, .inl rfl, hp⟩
    · exact ⟨[], semicolon :: f, rest, rfl, forall_mem_nil _, .inr ⟨f, rfl, hf⟩, hp⟩
    · exact ⟨b :: hex, extension, rest, rfl, isHex_cons.mpr ⟨hb, hh⟩, he, hp⟩

theorem trailers_cons :
    Trailers (b :: text) ↔ b = cr ∧ text = [lf] ∨
      isFieldValueByte b = true ∧ EndsField (fun _ rest => Trailers rest) text := by
  constructor
  · intro ht
    generalize hc : b :: text = wh at ht
    cases ht with
    | stop =>
      obtain ⟨rfl, rfl⟩ := cons.inj hc
      exact .inl ⟨rfl, rfl⟩
    | @line f rest ne hf nx =>
      obtain ⟨fst, f, rfl⟩ := exists_cons_of_ne_nil ne
      obtain ⟨rfl, rfl⟩ := cons.inj hc
      obtain ⟨hb, hf⟩ := isFieldText_cons.mp hf
      exact .inr ⟨hb, f, rest, rfl, hf, nx⟩
  · rintro (⟨rfl, rfl⟩ | ⟨hb, f, rest, rfl, hf, nx⟩)
    · exact .stop
    · exact .line (cons_ne_nil b f) (isFieldText_cons.mpr ⟨hb, hf⟩) nx

theorem le_hexNumber (v : Nat) (hex : Text) : v ≤ hexNumber v hex := by
  induction hex generalizing v with
  | nil => exact le_rfl
  | cons b hex ih =>
    have nx := ih (v * 16 + (hexValue b).getD 0)
    rw [hexNumber]
    omega

theorem completes_behindSize (size : Nat) (text : Text) :
    Completes (.behindSize size) text ↔ BehindSize size text := by
  by_cases hz : size = 0
  · simp [ChunkState.behindSize, BehindSize, hz, Completes, and_comm]
  · simp [ChunkState.behindSize, BehindSize, hz, Completes]

theorem completes_start (text : Text) : Completes .start text ↔ Chunked text := by
  constructor
  · rintro ⟨hex, extension, rest, rfl, hh, he, ds, hf, hs, hb⟩
    have ne : hex ≠ [] := by
      rintro rfl
      exact ds rfl
    have hsm := hf.resolve_left ne
    have hsi : IsSizeLine (hex ++ extension ++ crlf) (hexNumber 0 hex) := by
      refine ⟨hex, extension, rfl, ne, hh, he, rfl, hsm, ?_⟩
      simp only [length_append, crlf, length_cons, length_nil]
      omega
    unfold BehindSize at hb
    split at hb
    · rename_i zero
      rw [zero] at hsi
      exact .last hsi hb.1 hb.2
    · rename_i more
      obtain ⟨data, rest, rfl, hl, nx⟩ := hb
      rw [← hl] at hsi
      refine .chunk hsi ?_ nx
      rintro rfl
      exact more hl.symm
  · have hc : ∀ {line rest : Text} {size : Nat}, IsSizeLine line size → BehindSize size rest →
        Completes .start (line ++ rest) := by
      rintro _ rest size ⟨hex, extension, rfl, ne, hh, he, rfl, hsm, hs⟩ hb
      refine ⟨hex, extension, rest, rfl, hh, he, ?_, .inr hsm, ?_, hb⟩
      · have := length_pos_iff.mpr ne
        omega
      · simp only [length_append, crlf, length_cons, length_nil] at hs
        omega
    intro hm
    cases hm with
    | last size ht hs =>
      refine hc size ?_
      exact ⟨ht, hs⟩
    | @chunk line data rest size ne nx =>
      refine hc size ?_
      rw [BehindSize, if_neg (by simpa using ne)]
      exact ⟨data, rest, rfl, rfl, nx⟩

theorem completes_nil (s : ChunkState) : ¬ Completes s [] := by
  have hf : ∀ {property : Nat → Text → Prop}, ¬ EndsField property [] := by
    rintro property ⟨f, rest, hc, -⟩
    simp [crlf] at hc
  have hs : ∀ {property : Text → Nat → Text → Prop}, ¬ EndsSize property [] := by
    rintro property ⟨hex, extension, rest, hc, -⟩
    simp [crlf] at hc
  have ht : ¬ Trailers [] := by
    intro htr
    generalize hc : ([] : Text) = wh at htr
    cases htr with
    | stop => cases hc
    | line ne hfi nx => simp [crlf] at hc
  match s with
  | .sizeLine _ _ _ true _ => simp [Completes]
  | .sizeLine _ _ true false _ => simpa only [Completes] using hf
  | .sizeLine _ _ false false _ => simpa only [Completes] using hs
  | .data _ _ => simp [Completes, crlf]
  | .dataCr => simp [Completes, crlf]
  | .dataLf => simp [Completes]
  | .trailers _ _ true => simp [Completes]
  | .trailers lineBytes _ false =>
    by_cases hz : lineBytes = 0
    · simp [Completes, hz, ht]
    · simp [Completes, hz, hf]

def CompletesNext : Option ChunkState → Text → Prop
  | some state, text => Completes state text
  | none, text => text = []

theorem consumeSize_sawCr {inExtensions : Bool} :
    ChunkState.consumeSize size ds inExtensions true lineBytes b = .ok next ↔
      lineBytes ≤ maxChunkLine ∧ b = lf ∧ ds ≠ 0 ∧ next = .behindSize size := by
  unfold ChunkState.consumeSize
  by_cases hl : maxChunkLine < lineBytes
  · simp [hl, not_le_of_gt hl]
  · rw [if_neg hl, if_pos rfl]
    by_cases hi : b = lf
    · by_cases hz : ds = 0
      · simp [hi, hz]
      · simp [hi, hz, le_of_not_gt hl, eq_comm]
    · simp [hi]

theorem consumeSize_extension :
    ChunkState.consumeSize size ds true false lineBytes b = .ok next ↔ lineBytes ≤ maxChunkLine ∧
        (b = cr ∧ next = .sizeLine size ds true true lineBytes ∨
          isFieldValueByte b = true ∧ next = .sizeLine size ds true false lineBytes) := by
  unfold ChunkState.consumeSize
  by_cases hl : maxChunkLine < lineBytes
  · simp [hl, not_le_of_gt hl]
  · rw [if_neg hl, if_neg Bool.false_ne_true]
    by_cases hc : b = cr
    · simp [hc, le_of_not_gt hl, isFieldValueByte_cr, eq_comm]
    · by_cases hi : b = lf
      · have hn : lf ≠ cr := by decide
        simp [hi, isFieldValueByte_lf, hn]
      · by_cases hf : isFieldValueByte b = true
        · simp [hc, hi, hf, le_of_not_gt hl, eq_comm]
        · simp [hc, hi, hf]

theorem consumeSize_digits :
    ChunkState.consumeSize size ds false false lineBytes b = .ok next ↔ lineBytes ≤ maxChunkLine ∧
        (b = cr ∧ next = .sizeLine size ds false true lineBytes ∨
          b = semicolon ∧ ds ≠ 0 ∧ next = .sizeLine size ds true false lineBytes ∨
          ∃ d, hexValue b = some d ∧ size * 16 + d < 2 ^ 64 ∧
            next = .sizeLine (size * 16 + d) (ds + 1) false false lineBytes) := by
  have hd : hexValue cr = none ∧ hexValue lf = none ∧ hexValue semicolon = none := by decide
  have hn : lf ≠ cr ∧ lf ≠ semicolon ∧ cr ≠ semicolon := by decide
  unfold ChunkState.consumeSize
  by_cases hl : maxChunkLine < lineBytes
  · simp [hl, not_le_of_gt hl]
  · rw [if_neg hl, if_neg Bool.false_ne_true]
    by_cases hc : b = cr
    · simp [hc, le_of_not_gt hl, hd, hn, eq_comm]
    · by_cases hi : b = lf
      · simp [hi, hd, hn]
      · rw [if_neg hc, if_neg hi, if_neg Bool.false_ne_true]
        cases v : hexValue b with
        | some d =>
          have hsem : b ≠ semicolon := by
            rintro rfl
            cases v
          by_cases hf : size * 16 + d < 18446744073709551616
          · simp [checkedDigit_eq, checked, hf, le_of_not_gt hl, hc, hsem, eq_comm]
          · simp [checkedDigit_eq, checked, hf, hc, hsem]
        | none =>
          by_cases hse : b = semicolon ∧ ds ≠ 0
          · obtain ⟨rfl, some⟩ := hse
            simp [some, le_of_not_gt hl, hc, eq_comm]
          · rw [not_and] at hse
            by_cases hs : b = semicolon
            · simp [hs, hse hs, hn.2.2.symm]
            · simp [hs, hc]

theorem consumeTrailer_eq_ok {lineBytes totalBytes : Nat} {sawCr : Bool}
    {next : Option ChunkState} :
    ChunkState.consumeTrailer lineBytes totalBytes sawCr b = .ok next ↔ totalBytes ≤ maxTrailers ∧
        if sawCr then
          b = lf ∧ next = if lineBytes = 0 then none else some (.trailers 0 totalBytes false)
        else
          b = cr ∧ next = some (.trailers lineBytes totalBytes true) ∨ isFieldValueByte b = true ∧
              next = some (.trailers (lineBytes + 1) totalBytes false) := by
  unfold ChunkState.consumeTrailer
  by_cases long : maxTrailers < totalBytes
  · simp [long, not_le_of_gt long]
  · rw [if_neg long, and_iff_right (le_of_not_gt long)]
    cases sawCr with
    | true =>
      by_cases hl : b = lf
      · by_cases hz : lineBytes = 0
        all_goals simp [hl, hz, eq_comm]
      · simp [hl]
    | false =>
      by_cases hc : b = cr
      · simp [hc, isFieldValueByte_cr, eq_comm]
      · by_cases hl : b = lf
        · have hn : lf ≠ cr := by decide
          simp [hl, isFieldValueByte_lf, hn]
        · by_cases hf : isFieldValueByte b = true
          · simp [hc, hl, hf, eq_comm]
          · simp [hc, hl, hf]

theorem completes_size_cons (size ds : Nat) (inExtensions sawCr : Bool) (lineBytes : Nat)
    (b : UInt8) (text : Text) :
    Completes (.sizeLine size ds inExtensions sawCr lineBytes) (b :: text) ↔
      ∃ next, ChunkState.consumeSize size ds inExtensions sawCr (lineBytes + 1) b = .ok next ∧
        Completes next text := by
  match inExtensions, sawCr with
  | inExtensions, true =>
    simp only [consumeSize_sawCr, Completes]
    constructor
    · rintro ⟨rest, cut, hs, hsh, hb⟩
      obtain ⟨rfl, rfl⟩ := cons.inj cut
      exact ⟨_, ⟨hsh, rfl, hs, rfl⟩, (completes_behindSize size text).mpr hb⟩
    · rintro ⟨_, ⟨hsh, rfl, hs, rfl⟩, hc⟩
      exact ⟨text, rfl, hs, hsh, (completes_behindSize size text).mp hc⟩
  | true, false =>
    simp only [consumeSize_extension, Completes]
    rw [endsField_cons]
    constructor
    · rintro (⟨rfl, rest, rfl, hs, hsh, hb⟩ | ⟨hf, f, rest, rfl, hi, hs, hsh, hb⟩)
      · exact ⟨_, ⟨by omega, .inl ⟨rfl, rfl⟩⟩, rest, rfl, hs, by omega, hb⟩
      · exact ⟨_, ⟨by omega, .inr ⟨hf, rfl⟩⟩, f, rest, rfl, hi, hs, by omega, hb⟩
    · rintro ⟨_, ⟨hsh, ⟨rfl, rfl⟩ | ⟨hf, rfl⟩⟩, hc⟩
      · obtain ⟨rest, rfl, hs, hsh, hb⟩ := hc
        exact .inl ⟨rfl, rest, rfl, hs, by omega, hb⟩
      · obtain ⟨f, rest, rfl, hi, hs, hsh, hb⟩ := hc
        exact .inr ⟨hf, f, rest, rfl, hi, hs, by omega, hb⟩
  | false, false =>
    simp only [consumeSize_digits, Completes]
    rw [endsSize_cons]
    constructor
    · rintro (⟨rfl, rest, rfl, hs, fits, hsh, hb⟩ | ⟨rfl, f, rest, rfl, hf, hs, fits, hsh, hb⟩ |
        ⟨isDigit, hex, extension, rest, rfl, isHex, isExtension, hs, fits, hsh, hb⟩)
      · exact ⟨_, ⟨by omega, .inl ⟨rfl, rfl⟩⟩, rest, rfl, hs, by omega, hb⟩
      · exact ⟨_, ⟨by omega, .inr (.inl ⟨rfl, hs, rfl⟩)⟩, f, rest, rfl, hf, hs, by omega, hb⟩
      · obtain ⟨d, v⟩ := isSome_iff_exists.mp isDigit
        have hsm := fits.resolve_left (cons_ne_nil b hex)
        rw [hexNumber, v, getD_some] at hsm hb
        have above := le_hexNumber (size * 16 + d) hex
        rw [length_cons] at hsh
        exact ⟨_, ⟨by omega, .inr (.inr ⟨d, v, by omega, rfl⟩)⟩, hex, extension, rest, rfl,
          isHex, isExtension, by omega, .inr hsm, by omega, hb⟩
    · rintro ⟨_, ⟨hsh, ⟨rfl, rfl⟩ | ⟨rfl, hs, rfl⟩ | ⟨d, v, hsm, rfl⟩⟩, hc⟩
      · obtain ⟨rest, rfl, hs, hsh, hb⟩ := hc
        exact .inl ⟨rfl, rest, rfl, hs, .inl rfl, by simp; omega, hb⟩
      · obtain ⟨f, rest, rfl, hf, -, hsh, hb⟩ := hc
        exact .inr (.inl ⟨rfl, f, rest, rfl, hf, hs, .inl rfl, by simp; omega, hb⟩)
      · obtain ⟨hex, extension, rest, rfl, isHex, isExtension, -, fits, hsh, hb⟩ := hc
        refine .inr (.inr ⟨by rw [v]; rfl, hex, extension, rest, rfl, isHex, isExtension,
          by simp, .inr ?_, by simp; omega, ?_⟩)
        · rw [hexNumber, v, getD_some]
          rcases fits with rfl | fits
          · exact hsm
          · exact fits
        · rw [hexNumber, v, getD_some]
          exact hb

theorem completes_trailers_cons (lineBytes totalBytes : Nat) (sawCr : Bool) (b : UInt8)
    (text : Text) :
    Completes (.trailers lineBytes totalBytes sawCr) (b :: text) ↔
      ∃ next, ChunkState.consumeTrailer lineBytes (totalBytes + 1) sawCr b = .ok next ∧
        CompletesNext next text := by
  simp only [consumeTrailer_eq_ok]
  cases sawCr with
  | true =>
    simp only [Completes, length_cons, if_true]
    by_cases hz : lineBytes = 0
    · simp only [hz, if_true]
      constructor
      · rintro ⟨hs, rest, cut, rfl⟩
        obtain ⟨rfl, rfl⟩ := cons.inj cut
        exact ⟨none, ⟨by omega, rfl, rfl⟩, rfl⟩
      · rintro ⟨_, ⟨hs, rfl, rfl⟩, rfl⟩
        exact ⟨hs, [], rfl, rfl⟩
    · simp only [hz, if_false]
      constructor
      · rintro ⟨hs, rest, cut, nx⟩
        obtain ⟨rfl, rfl⟩ := cons.inj cut
        exact ⟨_, ⟨by omega, rfl, rfl⟩, by omega, nx⟩
      · rintro ⟨_, ⟨_, rfl, rfl⟩, hs, nx⟩
        exact ⟨by omega, text, rfl, nx⟩
  | false =>
    have next : ∀ {line}, CompletesNext (some (.trailers (line + 1) (totalBytes + 1) false)) text ↔
        totalBytes + 1 + text.length ≤ maxTrailers ∧
          EndsField (fun _ rest => Trailers rest) text := by
      intro line
      rw [CompletesNext, Completes, if_neg (Nat.succ_ne_zero line)]
    simp only [Completes, length_cons, Bool.false_eq_true, if_false]
    by_cases hz : lineBytes = 0
    · rw [if_pos hz, trailers_cons]
      constructor
      · rintro ⟨hs, ⟨rfl, rfl⟩ | ⟨hf, he⟩⟩
        · refine ⟨_, ⟨by omega, .inl ⟨rfl, rfl⟩⟩, ?_, [], rfl, ?_⟩
          · rw [length_singleton] at hs ⊢
            omega
          · rw [if_pos hz]
        · exact ⟨_, ⟨by omega, .inr ⟨hf, rfl⟩⟩, next.mpr ⟨by omega, he⟩⟩
      · rintro ⟨_, ⟨_, ⟨rfl, rfl⟩ | ⟨hf, rfl⟩⟩, hc⟩
        · obtain ⟨hs, rest, rfl, stop⟩ := hc
          rw [if_pos hz] at stop
          rw [stop] at hs ⊢
          exact ⟨by omega, .inl ⟨rfl, rfl⟩⟩
        · obtain ⟨hs, he⟩ := next.mp hc
          exact ⟨by omega, .inr ⟨hf, he⟩⟩
    · rw [if_neg hz, endsField_cons]
      constructor
      · rintro ⟨hs, ⟨rfl, rest, rfl, nx⟩ | ⟨hf, he⟩⟩
        · refine ⟨_, ⟨by omega, .inl ⟨rfl, rfl⟩⟩, by omega, rest, rfl, ?_⟩
          rwa [if_neg hz]
        · exact ⟨_, ⟨by omega, .inr ⟨hf, rfl⟩⟩, next.mpr ⟨by omega, he⟩⟩
      · rintro ⟨_, ⟨_, ⟨rfl, rfl⟩ | ⟨hf, rfl⟩⟩, hc⟩
        · obtain ⟨hs, rest, rfl, nx⟩ := hc
          rw [if_neg hz] at nx
          exact ⟨by omega, .inl ⟨rfl, rest, rfl, nx⟩⟩
        · obtain ⟨hs, he⟩ := next.mp hc
          exact ⟨by omega, .inr ⟨hf, he⟩⟩

theorem completes_data_cons {rem : Nat} {hp : 0 < rem} :
    Completes (.data rem hp) (b :: text) ↔
      ∃ data rest, text = data ++ crlf ++ rest ∧ data.length = rem - 1 ∧ Chunked rest := by
  constructor
  · rintro ⟨data, rest, hc, hl, nx⟩
    obtain ⟨fst, data, rfl⟩ := exists_cons_of_length_pos (hl ▸ hp)
    obtain ⟨rfl, rfl⟩ := cons.inj hc
    rw [length_cons] at hl
    exact ⟨data, rest, rfl, by omega, nx⟩
  · rintro ⟨data, rest, rfl, hl, nx⟩
    refine ⟨b :: data, rest, rfl, ?_, nx⟩
    rw [length_cons]
    omega

theorem completes_cons (s : ChunkState) (b : UInt8) (text : Text) :
    Completes s (b :: text) ↔
      ∃ next, s.consume b = .ok next ∧ CompletesNext next text := by
  cases s with
  | sizeLine size ds inExtensions sawCr lineBytes =>
    rw [completes_size_cons]
    simp only [ChunkState.consume, map_eq_ok]
    constructor
    · rintro ⟨next, con, hco⟩
      exact ⟨some next, ⟨next, con, rfl⟩, hco⟩
    · rintro ⟨_, ⟨next, con, rfl⟩, hco⟩
      exact ⟨next, con, hco⟩
  | data rem hp =>
    rw [completes_data_cons, ChunkState.consume]
    split
    · simp [CompletesNext, Completes]
    · rename_i last
      have hz : rem - 1 = 0 := by omega
      simp [hz, CompletesNext, Completes]
  | dataCr =>
    by_cases hc : b = cr
    · simp [ChunkState.consume, hc, Completes, CompletesNext, crlf]
    · simp [ChunkState.consume, hc, Completes, crlf]
  | dataLf =>
    by_cases isLf : b = lf
    · have next : CompletesNext (some .start) text ↔ Chunked text := completes_start text
      simp [ChunkState.consume, isLf, Completes, next]
    · simp [ChunkState.consume, isLf, Completes]
  | trailers lineBytes totalBytes sawCr => exact completes_trailers_cons _ _ _ _ _

end Grammar

section Boundary

open Framing (Feeds)

variable {dec next : RequestBodyDecoder}

def CompletesBody : RequestBodyDecoder → Text → Prop
  | .contentLength length _, text => text.length = length
  | .chunked state, text => Completes state text
  | .done, text => text = []

theorem completesBody_remaining (len : Nat) (text : Text) :
    CompletesBody (.remaining len) text ↔ text.length = len := by
  unfold RequestBodyDecoder.remaining
  split
  · rfl
  · rename_i zero
    rw [Nat.eq_zero_of_not_pos zero, length_eq_zero_iff]
    rfl

theorem completesBody_new (kind : RequestBodyKind) (text : Text) :
    CompletesBody (.new kind) text ↔ IsBody kind text := by
  cases kind with
  | none => rfl
  | contentLength len => exact completesBody_remaining len text
  | chunked => exact completes_start text

theorem completesBody_nil (dec : RequestBodyDecoder) : CompletesBody dec [] ↔ dec = .done := by
  cases dec with
  | contentLength len hp => simp [CompletesBody, hp.ne]
  | chunked s => simp [CompletesBody, completes_nil]
  | done => simp [CompletesBody]

theorem completesBody_cons (dec : RequestBodyDecoder) (b : UInt8) (text : Text) :
    CompletesBody dec (b :: text) ↔
      ∃ next, dec.consume b = .ok next ∧ CompletesBody next text := by
  cases dec with
  | contentLength len hp =>
    simp only [RequestBodyDecoder.consume, Except.ok.injEq, exists_eq_left']
    rw [completesBody_remaining, CompletesBody, length_cons]
    omega
  | chunked s =>
    rw [CompletesBody, completes_cons]
    simp only [RequestBodyDecoder.consume, map_eq_ok]
    constructor
    · rintro ⟨next, hc, hco⟩
      refine ⟨_, ⟨next, hc, rfl⟩, ?_⟩
      cases next with
      | some next | none => exact hco
    · rintro ⟨_, ⟨next, hc, rfl⟩, hco⟩
      refine ⟨next, hc, ?_⟩
      cases next with
      | some next | none => exact hco
  | done => simp [CompletesBody, RequestBodyDecoder.consume]

/-- The decoder of a request is done exactly at the end of a body. -/
theorem feeds_done_iff (kind : RequestBodyKind) (body : Text) :
    Feeds RequestBodyDecoder.consume (.new kind) body .done ↔ IsBody kind body := by
  rw [Framing.feeds_iff_of_language completesBody_nil completesBody_cons, completesBody_new]

theorem consume_done (b : UInt8) (next : RequestBodyDecoder) :
    RequestBodyDecoder.done.consume b ≠ .ok next := by
  simp [RequestBodyDecoder.consume]

/-- What the decoder has taken of a stream is a part of the body at its front. -/
theorem isPrefix_of_isBody {kind : RequestBodyKind} {taken body str : Text}
    (hf : Feeds RequestBodyDecoder.consume (.new kind) taken dec) (ht : taken <+: str)
    (hb : IsBody kind body) (hfr : body <+: str) : taken <+: body :=
  Feeds.isPrefix_of_done consume_done ((feeds_done_iff kind body).mpr hb) hfr hf ht

theorem isDone_iff : dec.isDone = true ↔ dec = .done := by
  cases dec <;> simp [RequestBodyDecoder.isDone]

theorem feeds_remaining {len : Nat} {text : Text} (hs : text.length ≤ len) :
    Feeds RequestBodyDecoder.consume (.remaining len) text (.remaining (len - text.length)) := by
  induction text generalizing len with
  | nil => exact .nil _
  | cons b text ih =>
    rw [length_cons] at hs
    have hp : 0 < len := by omega
    have next := @ih (len - 1) (by omega)
    rw [Nat.sub_sub, Nat.add_comm 1, ← length_cons] at next
    refine .cons ?_ next
    rw [RequestBodyDecoder.remaining, dif_pos hp]
    rfl

/-- A slice is taken up to its end or to the end of the body. -/
structure TakesSlice (decoder : RequestBodyDecoder) (bytes : Text) (consumed : Nat)
    (next : RequestBodyDecoder) : Prop where
  within : consumed ≤ bytes.length
  feeds : Feeds RequestBodyDecoder.consume decoder (bytes.take consumed) next
  reaches : consumed = bytes.length ∨ next = .done
  advances : bytes ≠ [] → 0 < consumed

theorem takesSlice_of_consumeEach {bs : Text} {con : Nat}
    (hs : dec.consumeEach bs = .ok (con, next)) : TakesSlice dec bs con next := by
  induction bs generalizing dec con with
  | nil =>
    cases hs
    exact ⟨le_rfl, .nil _, .inl rfl, fun some => absurd rfl some⟩
  | cons b rest ih =>
    obtain ⟨aft, ht, hs⟩ := bind_eq_ok.mp hs
    split at hs
    · rename_i hd
      cases hs
      exact ⟨by simp, .cons ht (.nil next), .inr (isDone_iff.mp hd), fun _ => Nat.one_pos⟩
    · obtain ⟨⟨con, last⟩, nx, hs⟩ := bind_eq_ok.mp hs
      cases hs
      have hta := ih nx
      refine ⟨?_, .cons ht hta.feeds, ?_, fun _ => Nat.succ_pos con⟩
      · rw [length_cons]
        exact Nat.succ_le_succ hta.within
      · rw [length_cons]
        exact hta.reaches.imp_left (congrArg Nat.succ)

theorem takesSlice_of_consumeSlice {bs : Text} {con : Nat}
    (hsl : dec.consumeSlice bs = .ok (con, next)) : TakesSlice dec bs con next := by
  cases dec with
  | contentLength len hp =>
    cases hsl
    have wh : RequestBodyDecoder.contentLength len hp = .remaining len := by
      rw [RequestBodyDecoder.remaining, dif_pos hp]
    have ht : (bs.take (min len bs.length)).length = min len bs.length := by
      rw [length_take]
      omega
    refine ⟨Nat.min_le_right _ _, ?_, ?_, ?_⟩
    · have hfe := @feeds_remaining len (bs.take (min len bs.length)) (by omega)
      rwa [ht, ← wh] at hfe
    · rcases Nat.le_total len bs.length with he | hf
      · right
        rw [Nat.min_eq_left he, Nat.sub_self]
        rfl
      · exact .inl (Nat.min_eq_right hf)
    · intro hs
      have := length_pos_iff.mpr hs
      omega
  | chunked s | done => exact takesSlice_of_consumeEach hsl

end Boundary

end MeowRs.Http
