import MeowRs.HttpRequestHead

/-!
# Rewritten heads

The head that is sent to the origin is a head again: its lines are the ones it was made of, its fields
are those that were kept and those that were put in, and it announces the same kind of body.
-/

namespace MeowRs.Http

open List Option Text Nat Except Results

section Lines

variable {text : Text} {line : Text}

def IsLine (text : Text) : Prop :=
  cr ∉ text ∧ lf ∉ text

instance (text : Text) : Decidable (IsLine text) :=
  inferInstanceAs (Decidable (_ ∧ _))

def joinLines (lines : List Text) : Text :=
  lines.flatMap (· ++ crlf)

theorem isLine_append {fst snd : Text} (hf : IsLine fst) (hs : IsLine snd) : IsLine (fst ++ snd) :=
  ⟨by simp [hf.1, hs.1], by simp [hf.2, hs.2]⟩

theorem isLine_of_forall {property : UInt8 → Bool} (he : property cr = false ∧ property lf = false)
    (hh : ∀ b ∈ text, property b = true) : IsLine text := by
  constructor
  · intro hm
    rw [hh cr hm] at he
    cases he.1
  · intro hm
    rw [hh lf hm] at he
    cases he.2

theorem IsToken.isLine (ht : IsToken text) : IsLine text :=
  isLine_of_forall (by decide) ht.2

theorem IsFieldText.isLine (hf : IsFieldText text) : IsLine text :=
  isLine_of_forall ⟨isFieldValueByte_cr, isFieldValueByte_lf⟩ hf

theorem HeaderField.isLine (hdr : HeaderField) : IsLine hdr.raw := by
  rw [hdr.isRaw]
  exact isLine_append hdr.isName.isLine
    (isLine_append (by decide : IsLine [colon]) hdr.isValue.isLine)

theorem bareLineEndingAfter_line (hli : IsLine line) (pre : Option UInt8) (rest : Text) :
    bareLineEndingAfter pre (line ++ crlf ++ rest) = bareLineEndingAfter (some lf) rest := by
  induction line generalizing pre with
  | nil =>
    have ha : cr ≠ lf ∧ lf ≠ cr := by decide
    simp [crlf, bareLineEndingAfter, ha]
  | cons b line ih =>
    obtain ⟨hc, hl⟩ := hli
    rw [mem_cons, not_or] at hc hl
    have hla := ih ⟨hc.2, hl.2⟩ (some b)
    simp only [cons_append, bareLineEndingAfter]
    rw [hla]
    simp [Ne.symm hc.1, Ne.symm hl.1]

theorem bareLineEndingAfter_joinLines {lines : List Text} (hl : ∀ line ∈ lines, IsLine line)
    (pre : Option UInt8) : bareLineEndingAfter pre (joinLines lines ++ crlf) = false := by
  induction lines generalizing pre with
  | nil => exact bareLineEndingAfter_line (by decide : IsLine []) pre []
  | cons line lines ih =>
    rw [forall_mem_cons] at hl
    have hs : joinLines (line :: lines) ++ crlf = line ++ crlf ++ (joinLines lines ++ crlf) := by
      simp [joinLines]
    rw [hs, bareLineEndingAfter_line hl.1]
    exact ih hl.2 _

theorem crlfLines_line (hc : cr ∉ line) (rest : Text) :
    crlfLines (line ++ crlf ++ rest) = line :: crlfLines rest := by
  induction line with
  | nil => simp [crlf, crlfLines]
  | cons b line ih =>
    rw [mem_cons, not_or] at hc
    have hl := ih hc.2
    cases line with
    | nil | cons =>
      simp only [nil_append, cons_append, crlf] at hl ⊢
      rw [crlfLines, if_neg (fun hb => hc.1 hb.1.symm), hl]
      rfl

theorem crlfLines_of_line (hc : cr ∉ line) : crlfLines line = [line] := by
  induction line with
  | nil => rfl
  | cons b line ih =>
    rw [mem_cons, not_or] at hc
    have hl := ih hc.2
    cases line with
    | nil => rfl
    | cons next line =>
      rw [crlfLines, if_neg (fun hb => hc.1 hb.1.symm), hl]
      rfl

theorem crlfLines_joinLines {lines : List Text} {last : Text} (hl : ∀ line ∈ lines, IsLine line)
    (hc : cr ∉ last) : crlfLines (joinLines lines ++ last) = lines ++ [last] := by
  induction lines with
  | nil => exact crlfLines_of_line hc
  | cons line lines ih =>
    rw [forall_mem_cons] at hl
    have hs : joinLines (line :: lines) ++ last = line ++ crlf ++ (joinLines lines ++ last) := by
      simp [joinLines]
    rw [hs, crlfLines_line hl.1.1, ih hl.2, cons_append]

end Lines

section Fields

theorem parseHeaderField_raw (hdr : HeaderField) : parseHeaderField hdr.raw = .ok hdr := by
  obtain ⟨name, v, raw, hn, hval, hra⟩ := hdr
  have hc : colon ∈ raw := by
    rw [hra]
    simp
  have hnf : colon ∉ name := by
    intro hm
    have hb := hn.2 colon hm
    revert hb
    decide
  have hcf : colon ∉ raw.takeWhile (· != colon) := by
    intro hm
    simpa using mem_takeWhile_imp hm
  obtain ⟨hna, hv⟩ := cut_inj hcf hnf ((cut_at_mark hc).symm.trans hra)
  have hi : IsToken (raw.takeWhile (· != colon)) := by rwa [hna]
  have hicv : IsFieldText (raw.dropWhile (· != colon)).tail := by rwa [hv]
  unfold parseHeaderField
  rw [dif_pos hc, dif_pos hi, dif_pos hicv]
  simp only [ok.injEq, HeaderField.mk.injEq]
  exact ⟨hna, hv, trivial⟩

theorem mapM_parseHeaderField (headers : List HeaderField) :
    (headers.map (·.raw)).mapM parseHeaderField = .ok headers := by
  induction headers with
  | nil => rfl
  | cons hdr headers ih =>
    rw [map_cons, mapM_cons, parseHeaderField_raw, ih]
    rfl

end Fields

section Numbers

variable {len : Nat}

theorem parseLength_digits {ds : List Nat} (small : ∀ d ∈ ds, d < 10)
    (fits : ofDigits 10 ds < 2 ^ 64) :
    parseLength (ds.map digitByte).reverse = some (ofDigits 10 ds) := by
  induction ds with
  | nil => rfl
  | cons d ds ih =>
    rw [forall_mem_cons] at small
    rw [ofDigits_cons] at fits ⊢
    have later := ih small.2 (by omega)
    have b := digitByte_toNat (show d < 16 by omega)
    rw [if_pos small.1] at b
    have isDigit : isDigit (digitByte d) = true := by
      simp only [Http.isDigit, Bool.and_eq_true, decide_eq_true_eq, UInt8.le_iff_toNat_le, b]
      simp
      omega
    unfold parseLength at later ⊢
    rw [map_cons, reverse_cons, foldlM_append, later]
    simp only [bind_eq_bind, bind_some, foldlM_cons, foldlM_nil]
    have v : ofDigits 10 ds * 10 + (0x30 + d - 0x30) =
        d + 10 * ofDigits 10 ds := by
      omega
    rw [if_pos isDigit, checkedDigit_eq, b, v, checked, if_pos fits]
    rfl

theorem parseLength_decimal {v : Nat} (hf : v < 2 ^ 64) : parseLength (decimal v) = some v := by
  unfold decimal numeral
  split
  · rename_i zero
    rw [zero]
    decide
  · have hw := ofDigits_digits 10 v
    rw [parseLength_digits (fun d hm => digits_lt_base (by decide) hm) (by rwa [hw]), hw]

theorem lt_of_parseLength {v : Text} (hp : parseLength v = some len) : len < 2 ^ 64 := by
  have hw : ∀ {text : Text} {start : Nat}, start < 2 ^ 64 →
      text.foldlM (fun len b =>
        if isDigit b then checkedDigit 10 len (b.toNat - 0x30) else none) start =
          some len → len < 2 ^ 64 := by
    intro text
    induction text with
    | nil =>
      intro start hsm hf
      cases hf
      exact hsm
    | cons b text ih =>
      intro start hsm hf
      rw [foldlM_cons, bind_eq_bind, bind_eq_some_iff] at hf
      obtain ⟨next, hs, hl⟩ := hf
      rw [ite_none_right_eq_some, checkedDigit_eq, checked, ite_none_right_eq_some] at hs
      obtain ⟨-, fits, same⟩ := hs
      cases same
      exact ih fits hl
  exact hw (by decide) hp

theorem lt_of_addLengths {contentLength : Option Nat} {ps : List Text}
    (hs : ∀ known ∈ contentLength, known < 2 ^ 64)
    (ha : addLengths contentLength ps = .ok (some len)) : len < 2 ^ 64 := by
  induction ps generalizing contentLength with
  | nil =>
    cases ha
    exact hs len rfl
  | cons piece ps ih =>
    unfold addLengths at ha
    split at ha
    · cases ha
    · split at ha
      · cases ha
      · rename_i parsed isLength
        split at ha
        · cases ha
        · refine ih ?_ ha
          rintro _ ⟨⟩
          exact lt_of_parseLength isLength

theorem trimOws_of_space {text : Text} (hf : ∀ b ∈ text, isOws b = false) :
    trimOws (space :: text) = text := by
  have hs : skipOws (space :: text) = text := by
    unfold skipOws
    rw [dropWhile_cons_of_pos (by decide)]
    cases text with
    | nil => rfl
    | cons b rest =>
      rw [dropWhile_cons_of_neg]
      rw [hf b mem_cons_self]
      exact Bool.false_ne_true
  rw [trimOws, hs, rdropWhile_eq_self_iff]
  intro ne
  rw [hf _ (getLast_mem ne)]
  exact Bool.false_ne_true

theorem addLengths_decimal (hf : len < 2 ^ 64) :
    addLengths none ((space :: decimal len).splitOn comma) = .ok (some len) := by
  have hc : comma ∉ space :: decimal len := by
    rw [mem_cons, not_or]
    exact ⟨by decide, notMem_decimal (by decide)⟩
  have free : ∀ b ∈ decimal len, isOws b = false := by
    intro b hm
    rw [isOws, Bool.or_eq_false_iff, decide_eq_false_iff_not, decide_eq_false_iff_not]
    constructor
    all_goals
      rintro rfl
      exact notMem_decimal (by decide) hm
  rw [splitOn_eq_singleton hc, addLengths, trimOws_of_space free,
    if_neg (decimal_ne_nil len), parseLength_decimal hf]
  rfl

end Numbers

section Refold

variable {keep : HeaderField → Bool} {headers : List HeaderField}

theorem foldlM_framingField_filter {fs final o : FramingFields}
    (hle : ∀ hdr, isContentLength hdr = true → keep hdr = false)
    (hc : ∀ hdr ∈ headers, isContentLength hdr = false →
      isTransferEncoding hdr = true → keep hdr = true)
    (hf : headers.foldlM framingField fs = .ok final)
    (same : o.transferCodings = fs.transferCodings) :
    (headers.filter keep).foldlM framingField o =
      .ok { o with transferCodings := final.transferCodings } := by
  induction headers generalizing fs o with
  | nil =>
    cases hf
    rw [← same]
    rfl
  | cons hdr headers ih =>
    rw [forall_mem_cons] at hc
    obtain ⟨next, hs, hl⟩ := bind_eq_ok.mp hf
    unfold framingField at hs
    split at hs
    · rename_i isLength
      obtain ⟨contentLength, -, rfl⟩ := map_eq_ok.mp hs
      rw [filter_cons_of_neg (by rw [hle hdr isLength]; exact Bool.false_ne_true)]
      exact ih hc.2 hl same
    · rename_i notLength
      rw [Bool.not_eq_true] at notLength
      split at hs
      · rename_i isCoding
        obtain ⟨transferCodings, hp, rfl⟩ := map_eq_ok.mp hs
        have ht : framingField o hdr =
            .ok { o with transferCodings := transferCodings } := by
          rw [framingField, notLength, if_neg Bool.false_ne_true, if_pos isCoding, same, hp]
          rfl
        rw [filter_cons_of_pos (hc.1 notLength isCoding), foldlM_cons, ht]
        exact @ih _ { o with transferCodings := transferCodings } hc.2 hl rfl
      · rename_i notCoding
        cases hs
        have ht : framingField o hdr = .ok o := by
          rw [framingField, notLength, if_neg Bool.false_ne_true, if_neg notCoding]
        by_cases hk : keep hdr = true
        · rw [filter_cons_of_pos hk, foldlM_cons, ht]
          exact ih hc.2 hl same
        · rw [filter_cons_of_neg hk]
          exact ih hc.2 hl same

theorem lt_of_foldlM_framingField {fs final : FramingFields}
    (hsm : ∀ len ∈ fs.contentLength, len < 2 ^ 64)
    (hf : headers.foldlM framingField fs = .ok final) :
    ∀ len ∈ final.contentLength, len < 2 ^ 64 := by
  induction headers generalizing fs with
  | nil =>
    cases hf
    exact hsm
  | cons hdr headers ih =>
    obtain ⟨next, hs, hl⟩ := bind_eq_ok.mp hf
    refine ih ?_ hl
    unfold framingField at hs
    split at hs
    · obtain ⟨contentLength, ha, rfl⟩ := map_eq_ok.mp hs
      rintro len rfl
      exact lt_of_addLengths hsm ha
    · split at hs
      · obtain ⟨transferCodings, -, rfl⟩ := map_eq_ok.mp hs
        exact hsm
      · cases hs
        exact hsm

end Refold

section Rewritten

variable {method tgt ver : Text}

def closeField : HeaderField where
  name := ofString "Connection"
  value := ofString " close"
  raw := connectionClose
  isName := by decide +kernel
  isValue := by decide +kernel
  isRaw := by decide

theorem isFieldText_decimal (len : Nat) : IsFieldText (space :: decimal len) := by
  refine isFieldText_cons.mpr ⟨by decide, fun b hm => ?_⟩
  have d : ¬ (b.toNat < 0x30 ∨ 0x67 ≤ b.toNat) := fun hs => notMem_decimal hs hm
  rw [not_or, not_lt, not_le] at d
  have hn : b ≠ 0x7f := by
    rintro rfl
    exact absurd d.2 (by decide)
  have ha : 0x20 ≤ b := by
    exact le_trans (by decide) d.1
  simp [isFieldValueByte, hn, ha]

def lengthField (length : Nat) : HeaderField where
  name := ofString "Content-Length"
  value := space :: decimal length
  raw := ofString "Content-Length: " ++ decimal length
  isName := by decide +kernel
  isValue := isFieldText_decimal length
  isRaw := by
    have front : ofString "Content-Length: " = ofString "Content-Length" ++ [colon, space] := by
      decide
    rw [front, List.append_assoc]
    rfl

def lengthFields : RequestBodyKind → List HeaderField
  | .contentLength length => [lengthField length]
  | _ => []

variable {req : RequestHead}

def keptFields (request : RequestHead) : List HeaderField :=
  request.headers.filter fun header => !isDropped request header

theorem rewritePlainRequest_eq (hu : req.upgradeRequested = false) (path : Text) :
    rewritePlainRequest req path =
      joinLines ((req.method ++ [space] ++ path ++ [space] ++ req.version) ::
        (keptFields req ++ lengthFields req.bodyKind ++ [closeField]).map (·.raw)) ++
        crlf := by
  unfold rewritePlainRequest
  rw [hu]
  cases req.bodyKind with
  | none | chunked => simp [joinLines, lengthFields, keptFields, closeField, flatMap_map]
  | contentLength len =>
    simp [joinLines, lengthFields, keptFields, closeField, flatMap_map, lengthField]

theorem extractPathFromUrl_spec {tgt : Text} (hv : ∀ b ∈ tgt, isVisible b = true) :
    extractPathFromUrl tgt ≠ [] ∧ ∀ b ∈ extractPathFromUrl tgt, isVisible b = true := by
  have hs : ∀ {text start rest : Text}, stripPrefix text start = some rest →
      rest <:+ text := by
    intro text start rest hi
    unfold stripPrefix at hi
    split at hi <;> cases hi
    exact drop_suffix _ _
  unfold extractPathFromUrl
  generalize scheme : ((((stripPrefix tgt (ofString "http://")).or
    (stripPrefix tgt (ofString "ws://"))).or
    (stripPrefix tgt (ofString "https://"))).getD tgt) = withoutScheme
  have hsu : withoutScheme <:+ tgt := by
    rw [← scheme]
    cases hi : ((stripPrefix tgt (ofString "http://")).or (stripPrefix tgt (ofString "ws://"))).or
      (stripPrefix tgt (ofString "https://")) with
    | none => exact suffix_refl tgt
    | some rest =>
      rcases or_eq_some_iff.mp hi with hi | ⟨-, hi⟩
      · rcases or_eq_some_iff.mp hi with hi | ⟨-, hi⟩
        all_goals exact hs hi
      · exact hs hi
  dsimp only
  split
  · rename_i hasSlash
    constructor
    · intro he
      have ha := dropWhile_eq_nil_iff.mp he slash hasSlash
      simp at ha
    · intro b hm
      exact hv b (hsu.subset ((dropWhile_suffix _).subset hm))
  · exact ⟨cons_ne_nil _ _, by decide +kernel⟩

theorem isUtf8_of_isAscii {text : Text} (isAscii : isAscii text = true) : isUtf8 text = true := by
  induction text with
  | nil => rfl
  | cons b rest ih =>
    rw [Text.isAscii, all_cons, Bool.and_eq_true, decide_eq_true_eq] at isAscii
    unfold Text.isUtf8
    rw [if_pos isAscii.1]
    exact ih isAscii.2

theorem isTchar_visible {b : UInt8} (hby : isTchar b = true) : isVisible b = true := by
  have hb : ∀ {low high : UInt8}, 0x21 ≤ low → high ≤ 0x7e → low ≤ b ∧ b ≤ high →
      isVisible b = true := by
    intro low high hl hup hw
    simp only [isVisible, Bool.and_eq_true, decide_eq_true_eq]
    exact ⟨UInt8.le_trans hl hw.1, UInt8.le_trans hw.2 hup⟩
  simp only [isTchar, isDigit, isAsciiUppercase, isAsciiLowercase, Bool.or_eq_true,
    Bool.and_eq_true, decide_eq_true_eq] at hby
  rcases hby with ((d | hup) | hl) | o
  · exact hb (by decide) (by decide) d
  · exact hb (by decide) (by decide) hup
  · exact hb (by decide) (by decide) hl
  · have ha : ∀ b ∈ ofString "!#$%&'*+-.^_`|~", isVisible b = true := by
      decide +kernel
    exact ha b o

theorem IsRequestLine.visible (hr : IsRequestLine method tgt ver) :
    ∀ part ∈ [method, tgt, ver], ∀ b ∈ part, isVisible b = true := by
  rw [forall_mem_cons, forall_mem_cons, forall_mem_singleton]
  refine ⟨fun b hm => isTchar_visible (hr.method.2 b hm), hr.target.2, ?_⟩
  rcases hr.version with rfl | rfl <;> decide +kernel

theorem requestLine_eq (method tgt ver : Text) :
    method ++ [space] ++ tgt ++ [space] ++ ver =
      [space].intercalate [method, tgt, ver] := by
  simp [intercalate_cons_cons]

section

variable (hr : IsRequestLine method tgt ver)
include hr

theorem parseRequestLine_of_isRequestLine :
    parseRequestLine (method ++ [space] ++ tgt ++ [space] ++ ver) =
      .ok (method, tgt, ver) := by
  have visible := hr.visible
  have isAscii : isAscii (method ++ [space] ++ tgt ++ [space] ++ ver) = true := by
    have low : ∀ {b : UInt8}, isVisible b = true → b < 0x80 := by
      intro b isByte
      simp only [isVisible, Bool.and_eq_true, decide_eq_true_eq] at isByte
      exact UInt8.lt_of_le_of_lt isByte.2 (by decide)
    rw [List.forall_mem_cons, List.forall_mem_cons, List.forall_mem_singleton] at visible
    rw [isAscii, List.all_eq_true]
    intro b mem
    rw [decide_eq_true_eq]
    simp only [mem_append, mem_singleton] at mem
    rcases mem with (((inMethod | rfl) | inTarget) | rfl) | inVersion
    · exact low (visible.1 b inMethod)
    · decide
    · exact low (visible.2.1 b inTarget)
    · decide
    · exact low (visible.2.2 b inVersion)
  have split : (method ++ [space] ++ tgt ++ [space] ++ ver).splitOn space =
      [method, tgt, ver] := by
    rw [requestLine_eq, splitOn_intercalate]
    · intro part isPart mem
      have isByte := visible part isPart space mem
      revert isByte
      decide
    · exact cons_ne_nil _ _
  rw [parseRequestLine, isUtf8_of_isAscii isAscii, isAscii, split]
  rfl

theorem isLine_requestLine : IsLine (method ++ [space] ++ tgt ++ [space] ++ ver) := by
  have hv := hr.visible
  have hl : ∀ part ∈ [method, tgt, ver], IsLine part :=
    fun part hm => isLine_of_forall (by decide) (hv part hm)
  rw [forall_mem_cons, forall_mem_cons, forall_mem_singleton] at hl
  have hs : IsLine [space] := by decide
  exact isLine_append (isLine_append (isLine_append (isLine_append hl.1 hs) hl.2.1) hs) hl.2.2

theorem parseRequestHead_joinLines (headers : List HeaderField) :
    parseRequestHead (joinLines ((method ++ [space] ++ tgt ++ [space] ++ ver) ::
      headers.map (·.raw)) ++ crlf) = validateHead hr headers := by
  have hl : ∀ line ∈ (method ++ [space] ++ tgt ++ [space] ++ ver) ::
      headers.map (·.raw), IsLine line := by
    rw [forall_mem_cons]
    refine ⟨isLine_requestLine hr, fun line hm => ?_⟩
    obtain ⟨hdr, -, rfl⟩ := mem_map.mp hm
    exact hdr.isLine
  have hp := parseRequestLine_of_isRequestLine hr
  have fs := mapM_parseHeaderField headers
  generalize method ++ [space] ++ tgt ++ [space] ++ ver = line at hl hp ⊢
  generalize headers.map (·.raw) = rest at hl fs ⊢
  obtain ⟨front, last, lines⟩ := eq_nil_or_concat (line :: rest) |>.resolve_left (cons_ne_nil _ _)
  have hb : hasBareLineEnding (joinLines (line :: rest) ++ crlf) = false :=
    bareLineEndingAfter_joinLines hl none
  rw [concat_eq_append] at lines
  rw [lines, forall_mem_append, forall_mem_singleton] at hl
  have hw : joinLines (line :: rest) ++ crlf = (joinLines front ++ last) ++ (crlf ++ crlf) := by
    rw [lines]
    simp [joinLines]
  have hc : ((joinLines front ++ last) ++ (crlf ++ crlf)).take
      (((joinLines front ++ last) ++ (crlf ++ crlf)).length - 4) = joinLines front ++ last := by
    rw [length_append]
    exact take_left' rfl
  rw [hw] at hb ⊢
  unfold parseRequestHead
  have ha : ¬ (¬ crlf ++ crlf <:+ (joinLines front ++ last) ++ (crlf ++ crlf) ∨
      hasBareLineEnding ((joinLines front ++ last) ++ (crlf ++ crlf)) = true) := by
    rw [hb, not_or, not_not]
    exact ⟨suffix_append _ _, Bool.false_ne_true⟩
  rw [if_neg ha, hc, crlfLines_joinLines hl.1 hl.2.1, ← lines]
  dsimp only
  rw [hp]
  simp only [Except.bind, bind, dif_pos hr, fs]

end

end Rewritten

section Validity

theorem forM_eq_ok {α : Type} {check : α → Except String Unit} {values : List α} :
    values.forM check = .ok () ↔ ∀ v ∈ values, check v = .ok () := by
  induction values with
  | nil =>
    exact iff_of_true rfl (forall_mem_nil _)
  | cons v values ih =>
    rw [forall_mem_cons, ← ih]
    constructor
    · intro hc
      obtain ⟨_, hf, hl⟩ := bind_eq_ok.mp hc
      exact ⟨hf, hl⟩
    · rintro ⟨hf, hl⟩
      exact bind_eq_ok.mpr ⟨(), hf, hl⟩

theorem validateHead_eq_ok {method tgt ver : Text} (hr : IsRequestLine method tgt ver)
    {headers : List HeaderField} {bodyKind : RequestBodyKind} {upgradeRequested : Bool}
    (hf : validateMessageFraming headers ver = .ok bodyKind)
    (ho : validateConnectionOptions headers = .ok ())
    (hup : validateUpgradeRequest headers bodyKind ver = .ok upgradeRequested) :
    validateHead hr headers =
      .ok ⟨method, tgt, ver, headers, bodyKind, upgradeRequested, hr, hf,
        ho, hup⟩ := by
  unfold validateHead
  split
  · rename_i failed
    rw [hf] at failed
    cases failed
  · rename_i kind hi
    obtain rfl : bodyKind = kind := ok.inj (hf.symm.trans hi)
    split
    · rename_i failed
      rw [ho] at failed
      cases failed
    · split
      · rename_i failed
        rw [hup] at failed
        cases failed
      · rename_i requested hi
        obtain rfl : upgradeRequested = requested := ok.inj (hup.symm.trans hi)
        rfl

variable {headers : List HeaderField}

theorem checkOption_of_validateConnectionOptions (hv : validateConnectionOptions headers = .ok ())
    {hdr : HeaderField} (hm : hdr ∈ headers) (hc : isConnection hdr = true) {opt : Text}
    (ho : opt ∈ options hdr) : checkOption opt = .ok () :=
  forM_eq_ok.mp hv opt (mem_flatMap.mpr ⟨hdr, mem_filter.mpr ⟨hm, hc⟩, ho⟩)

theorem connectionNominates_framing (hv : validateConnectionOptions headers = .ok ())
    {name f : Text}
    (hfr : f ∈ [ofString "content-length", ofString "transfer-encoding", ofString "host"])
    (hs : eqIgnoreAsciiCase name f = true) : connectionNominates headers name = false := by
  rw [← Bool.not_eq_true]
  intro hno
  obtain ⟨hdr, hm, hi⟩ := any_eq_true.mp hno
  obtain ⟨hco, hi⟩ := Bool.and_eq_true_iff.mp hi
  obtain ⟨opt, ho, hn⟩ := any_eq_true.mp hi
  have hf : eqIgnoreAsciiCase opt f = true := by
    rw [eqIgnoreAsciiCase, beq_iff_eq] at hn hs ⊢
    exact hn.trans hs
  have hc := checkOption_of_validateConnectionOptions hv hm hco ho
  unfold checkOption at hc
  split at hc
  · rename_i empty
    have ne : ∀ f ∈ [ofString "content-length", ofString "transfer-encoding",
        ofString "host"], eqIgnoreAsciiCase [] f = false := by
      decide
    rw [empty, ne f hfr] at hf
    cases hf
  · split at hc
    · cases hc
    · split at hc
      · cases hc
      · rename_i allowed
        simp only [Bool.or_eq_true, not_or] at allowed
        simp only [mem_cons, not_mem_nil, or_false] at hfr
        rcases hfr with rfl | rfl | rfl
        · exact allowed.1.1 hf
        · exact allowed.1.2 hf
        · exact allowed.2 hf

end Validity

section Reparsing

variable {req : RequestHead} {hdr : HeaderField}

def rewrittenFields (request : RequestHead) : List HeaderField :=
  keptFields request ++ lengthFields request.bodyKind ++ [closeField]

theorem not_isDropped_transferEncoding (hu : req.upgradeRequested = false)
    (hc : isTransferEncoding hdr = true) : isDropped req hdr = false := by
  have hnn := connectionNominates_framing req.options
    (show ofString "transfer-encoding" ∈ _ by simp) hc
  have hn : toAsciiLowercase hdr.name = ofString "transfer-encoding" := by
    rw [isTransferEncoding, eqIgnoreAsciiCase, beq_iff_eq] at hc
    rw [hc]
    decide
  simp only [isDropped, isContentLength, isConnection, isUpgrade, eqIgnoreAsciiCase, hn, hnn, hu]
  decide

/-- The head that is sent to the origin announces the same kind of body. -/
theorem validateMessageFraming_rewritten (hu : req.upgradeRequested = false) :
    validateMessageFraming (rewrittenFields req) req.version = .ok req.bodyKind := by
  obtain ⟨final, hfo, ha⟩ := bind_eq_ok.mp req.framing
  have hk : (keptFields req).foldlM framingField .start =
      .ok { FramingFields.start with transferCodings := final.transferCodings } := by
    refine foldlM_framingField_filter ?_ ?_ hfo rfl
    · intro hdr hl
      simp [isDropped, hl]
    · intro hdr _ _ hco
      rw [not_isDropped_transferEncoding hu hco]
      rfl
  have hc : ∀ fs, framingField fs closeField = .ok fs := fun _ => rfl
  have len : ∀ {fs : FramingFields} {len : Nat}, fs.contentLength = none →
      len < 2 ^ 64 → framingField fs (lengthField len) =
        .ok { fs with contentLength := some len, hasContentLength := true } := by
    intro fs len hun hf
    have hl : isContentLength (lengthField len) = true := by
      change eqIgnoreAsciiCase (ofString "Content-Length") (ofString "content-length") = true
      decide
    rw [framingField, if_pos hl, hun]
    change (addLengths none ((space :: decimal len).splitOn comma)).map _ = _
    rw [addLengths_decimal hf]
    rfl
  have hs := lt_of_foldlM_framingField (show ∀ len ∈ FramingFields.start.contentLength,
    len < 2 ^ 64 by simp [FramingFields.start]) hfo
  have hre : ∀ fs, (lengthFields req.bodyKind).foldlM framingField
      { FramingFields.start with transferCodings := final.transferCodings } = .ok fs →
      (rewrittenFields req).foldlM framingField .start = .ok fs := by
    intro fs ht
    rw [rewrittenFields, foldlM_append, foldlM_append, hk]
    exact bind_eq_ok.mpr ⟨fs, ht, bind_eq_ok.mpr ⟨fs, hc fs, rfl⟩⟩
  refine bind_eq_ok.mpr ?_
  unfold FramingFields.bodyKind at ha
  split at ha
  · cases ha
  · split at ha
    · rename_i someCodings
      split at ha
      · cases ha
      · rename_i notOld
        split at ha
        · cases ha
        · rename_i isChunked
          rw [← ok.inj ha] at hre ⊢
          refine ⟨_, hre _ rfl, ?_⟩
          simp only [FramingFields.bodyKind, FramingFields.start, Bool.false_and, someCodings]
          rw [if_neg Bool.false_ne_true, if_pos trivial, if_neg notOld, if_neg isChunked]
    · rename_i noCodings
      have he : final.transferCodings = [] := by simpa using noCodings
      rw [he] at hre
      split at ha
      · rw [← ok.inj ha] at hre ⊢
        exact ⟨_, hre _ rfl, rfl⟩
      · rename_i known hl
        rw [← ok.inj ha] at hre ⊢
        refine ⟨⟨some known, true, []⟩, hre _ ?_, rfl⟩
        exact bind_eq_ok.mpr ⟨_, len rfl (hs known hl), rfl⟩

theorem eq_lengthField_of_mem {kind : RequestBodyKind}
    (hm : hdr ∈ lengthFields kind) : ∃ len, hdr = lengthField len := by
  cases kind with
  | none | chunked => cases hm
  | contentLength len => exact ⟨len, mem_singleton.mp hm⟩

section

variable (hu : req.upgradeRequested = false)
include hu

theorem not_nominated_of_mem (hm : hdr ∈ keptFields req ++ lengthFields req.bodyKind) :
    isConnection hdr = false ∧ connectionNominates req.headers hdr.name = false := by
  rcases mem_append.mp hm with hk | len
  · have hn := (mem_filter.mp hk).2
    simp only [isDropped, hu, Bool.false_and, Bool.not_false, Bool.and_true,
      Bool.not_or, Bool.and_eq_true, Bool.not_eq_true'] at hn
    exact ⟨hn.1.1.1.2, hn.2⟩
  · obtain ⟨len, rfl⟩ := eq_lengthField_of_mem len
    refine ⟨?_, connectionNominates_framing req.options
      (show ofString "content-length" ∈ _ by simp) ?_⟩
    · change eqIgnoreAsciiCase (ofString "Content-Length") (ofString "connection") = false
      decide
    · change eqIgnoreAsciiCase (ofString "Content-Length") (ofString "content-length") = true
      decide

theorem filter_isConnection_rewrittenFields :
    (rewrittenFields req).filter isConnection = [closeField] := by
  have os : (keptFields req ++ lengthFields req.bodyKind).filter isConnection = [] := by
    rw [filter_eq_nil_iff]
    intro hdr hm
    rw [(not_nominated_of_mem hu hm).1]
    exact Bool.false_ne_true
  rw [rewrittenFields, filter_append, os]
  rfl

theorem parseRequestHead_rewritten :
    ∃ again, parseRequestHead
        (rewritePlainRequest req (extractPathFromUrl req.target)) = .ok again ∧
      again.bodyKind = req.bodyKind ∧ again.upgradeRequested = false ∧
      again.headers = rewrittenFields req := by
  have hr : IsRequestLine req.method (extractPathFromUrl req.target) req.version :=
    ⟨req.isRequestLine.method, extractPathFromUrl_spec req.isRequestLine.target.2,
      req.isRequestLine.version⟩
  have hc := filter_isConnection_rewrittenFields hu
  have ho : validateConnectionOptions (rewrittenFields req) = .ok () := by
    rw [validateConnectionOptions, hc]
    rfl
  have hn : connectionNominates (rewrittenFields req) (ofString "upgrade") = false := by
    rw [connectionNominates, ← List.any_filter, hc]
    decide
  have hup : validateUpgradeRequest (rewrittenFields req) req.bodyKind req.version =
      .ok false := by
    rw [validateUpgradeRequest, hn]
    rfl
  refine ⟨⟨_, _, _, rewrittenFields req, req.bodyKind, false, hr,
    validateMessageFraming_rewritten hu, ho, hup⟩, ?_, rfl, rfl, rfl⟩
  rw [rewritePlainRequest_eq hu]
  exact (parseRequestHead_joinLines hr _).trans
    (validateHead_eq_ok hr (validateMessageFraming_rewritten hu) ho hup)

end

end Reparsing

end MeowRs.Http
