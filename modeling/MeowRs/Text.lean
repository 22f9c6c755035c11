import Mathlib.Data.List.DropRight

/-!
# Strings as UTF-8 bytes

Host names, patterns and payloads are handled by the source mostly through their bytes, so a string
is modelled by the list of its UTF-8 bytes.  ASCII case folding works on bytes and leaves every
multi-byte character alone.
-/

namespace MeowRs

open List Option

abbrev Text := List UInt8

instance : LawfulBEq Text :=
  inferInstance

namespace Text

variable {b : UInt8}

def ofString (literal : String) : Text :=
  literal.toUTF8.data.toList

def dot : UInt8 := 0x2e

def isAsciiUppercase (byte : UInt8) : Bool :=
  0x41 ≤ byte && byte ≤ 0x5a

def byteToAsciiLowercase (byte : UInt8) : UInt8 :=
  if isAsciiUppercase byte then byte + 0x20 else byte

def toAsciiLowercase (text : Text) : Text :=
  text.map byteToAsciiLowercase

def isAsciiLowercase (byte : UInt8) : Bool :=
  0x61 ≤ byte && byte ≤ 0x7a

def toAsciiUppercase (text : Text) : Text :=
  text.map fun byte => if isAsciiLowercase byte then byte - 0x20 else byte

def isAscii (text : Text) : Bool :=
  text.all (· < 0x80)

def eqIgnoreAsciiCase (text other : Text) : Bool :=
  toAsciiLowercase text == toAsciiLowercase other

theorem isAsciiUppercase_iff :
    isAsciiUppercase b = true ↔ 0x41 ≤ b.toNat ∧ b.toNat ≤ 0x5a := by
  simp [isAsciiUppercase, UInt8.le_iff_toNat_le]

theorem isAsciiUppercase_byteToAsciiLowercase (b : UInt8) :
    isAsciiUppercase (byteToAsciiLowercase b) = false := by
  unfold byteToAsciiLowercase
  split
  · rename_i upper
    rw [isAsciiUppercase_iff] at upper
    rw [← Bool.not_eq_true, isAsciiUppercase_iff, UInt8.toNat_add]
    intro hs
    simp at hs
    omega
  · simp_all

theorem byteToAsciiLowercase_of_not_upper (hl : isAsciiUppercase b = false) :
    byteToAsciiLowercase b = b := by
  simp [byteToAsciiLowercase, hl]

@[simp]
theorem byteToAsciiLowercase_idem (b : UInt8) :
    byteToAsciiLowercase (byteToAsciiLowercase b) = byteToAsciiLowercase b :=
  byteToAsciiLowercase_of_not_upper (isAsciiUppercase_byteToAsciiLowercase b)

@[simp]
theorem toAsciiLowercase_idem (text : Text) :
    toAsciiLowercase (toAsciiLowercase text) = toAsciiLowercase text := by
  simp [toAsciiLowercase]

theorem toAsciiLowercase_of_lower {text : Text} (hl : text.any isAsciiUppercase = false) :
    toAsciiLowercase text = text := by
  rw [List.any_eq_false] at hl
  refine (map_congr_left fun b hm => ?_).trans (map_id text)
  exact byteToAsciiLowercase_of_not_upper (Bool.eq_false_iff.mpr (hl b hm))

/-- No letter has a punctuation mark below the letters as its lower case. -/
theorem byteToAsciiLowercase_eq_iff {b mark : UInt8} (hb : mark.toNat < 0x41) :
    byteToAsciiLowercase b = mark ↔ b = mark := by
  unfold byteToAsciiLowercase
  split
  · rename_i upper
    rw [isAsciiUppercase_iff] at upper
    rw [← UInt8.toNat_inj, ← UInt8.toNat_inj, UInt8.toNat_add]
    simp only [UInt8.reduceToNat]
    omega
  · rfl

theorem byteToAsciiLowercase_eq_dot_iff :
    byteToAsciiLowercase b = dot ↔ b = dot :=
  byteToAsciiLowercase_eq_iff (by decide)

/-- The UTF-8 encodings of the characters with the property `White_Space`. -/
def whitespace : List Text :=
  [[0x09], [0x0a], [0x0b], [0x0c], [0x0d], [0x20], [0xc2, 0x85], [0xc2, 0xa0], [0xe1, 0x9a, 0x80],
    [0xe2, 0x80, 0x80], [0xe2, 0x80, 0x81], [0xe2, 0x80, 0x82], [0xe2, 0x80, 0x83],
    [0xe2, 0x80, 0x84], [0xe2, 0x80, 0x85], [0xe2, 0x80, 0x86], [0xe2, 0x80, 0x87],
    [0xe2, 0x80, 0x88], [0xe2, 0x80, 0x89], [0xe2, 0x80, 0x8a], [0xe2, 0x80, 0xa8],
    [0xe2, 0x80, 0xa9], [0xe2, 0x80, 0xaf], [0xe2, 0x81, 0x9f], [0xe3, 0x80, 0x80]]

/-- Drop leading members of `spaces`, at most `fuel` of them. -/
def dropSpaces (spaces : List Text) : Nat → Text → Text
  | 0, text => text
  | fuel + 1, text =>
    match spaces.find? (·.isPrefixOf text) with
    | some space => dropSpaces spaces fuel (text.drop space.length)
    | none => text

def trimStart (text : Text) : Text :=
  dropSpaces whitespace text.length text

def trimEnd (text : Text) : Text :=
  (dropSpaces (whitespace.map List.reverse) text.length text.reverse).reverse

def trim (text : Text) : Text :=
  trimEnd (trimStart text)

def isContinuation (byte : UInt8) : Bool :=
  0x80 ≤ byte && byte ≤ 0xbf

/-- Whether bytes are well-formed UTF-8: no overlong forms, no surrogates, nothing above the last
code point. -/
def isUtf8 : Text → Bool
  | [] => true
  | first :: rest =>
    if first < 0x80 then isUtf8 rest
    else
      match rest with
      | [] => false
      | second :: rest =>
        if 0xc2 ≤ first && first ≤ 0xdf then isContinuation second && isUtf8 rest
        else
          match rest with
          | [] => false
          | third :: rest =>
            if 0xe0 ≤ first && first ≤ 0xef then
              (if first = 0xe0 then 0xa0 else 0x80) ≤ second &&
                second ≤ (if first = 0xed then 0x9f else 0xbf) &&
                isContinuation third && isUtf8 rest
            else
              match rest with
              | [] => false
              | fourth :: rest =>
                0xf0 ≤ first && first ≤ 0xf4 &&
                  (if first = 0xf0 then 0x90 else 0x80) ≤ second &&
                  second ≤ (if first = 0xf4 then 0x8f else 0xbf) &&
                  isContinuation third && isContinuation fourth && isUtf8 rest

def trimEndDots (text : Text) : Text :=
  text.rdropWhile (· == dot)

def stripPrefix (text start : Text) : Option Text :=
  if start.isPrefixOf text then some (text.drop start.length) else none

def rsplitDots (text : Text) : List Text :=
  (text.splitOn dot).reverse

theorem not_mem_of_mem_splitOn {text l : Text} (hm : l ∈ text.splitOn b) : b ∉ l := by
  induction text generalizing l with
  | nil =>
    obtain rfl := mem_singleton.mp hm
    exact not_mem_nil
  | cons fst rest ih =>
    rw [splitOn_cons_eq_if_modifyHead] at hm
    split at hm
    · rcases mem_cons.mp hm with rfl | hl
      · exact not_mem_nil
      · exact ih hl
    · rename_i otherByte
      cases hp : rest.splitOn b with
      | nil => exact absurd hp (splitOn_ne_nil b rest)
      | cons head tail =>
        rw [hp] at hm ih
        rcases mem_cons.mp hm with rfl | hl
        · intro hlab
          rcases mem_cons.mp hlab with hs | hh
          · exact otherByte (by simp [hs])
          · exact ih mem_cons_self hh
        · exact ih (mem_cons_of_mem head hl)

theorem splitOn_toAsciiLowercase_of_keeps {sep : UInt8}
    (hk : ∀ b, byteToAsciiLowercase b = sep ↔ b = sep) (text : Text) :
    (toAsciiLowercase text).splitOn sep = (text.splitOn sep).map toAsciiLowercase := by
  induction text with
  | nil => rfl
  | cons fst rest ih =>
    have ht : (byteToAsciiLowercase fst == sep) = (fst == sep) := by
      rw [Bool.eq_iff_iff, beq_iff_eq, beq_iff_eq, hk]
    rw [toAsciiLowercase, map_cons, splitOn_cons_eq_if_modifyHead,
      splitOn_cons_eq_if_modifyHead, ht]
    change (if _ then [] :: (toAsciiLowercase rest).splitOn sep
      else ((toAsciiLowercase rest).splitOn sep).modifyHead _) = _
    rw [ih]
    split
    · rfl
    · cases rest.splitOn sep <;> rfl

theorem splitOn_toAsciiLowercase (text : Text) :
    (toAsciiLowercase text).splitOn dot = (text.splitOn dot).map toAsciiLowercase :=
  splitOn_toAsciiLowercase_of_keeps (fun _ => byteToAsciiLowercase_eq_dot_iff) text

theorem dropSpaces_isSuffix (spaces : List Text) (fuel : Nat) (text : Text) :
    dropSpaces spaces fuel text <:+ text := by
  induction fuel generalizing text with
  | zero => exact suffix_rfl
  | succ fuel ih =>
    rw [dropSpaces]
    split
    · exact (ih _).trans (drop_suffix _ _)
    · exact suffix_rfl

theorem trim_isInfix (text : Text) : trim text <:+: text := by
  have hf : trimStart text <:+ text := dropSpaces_isSuffix _ _ _
  have hb : trimEnd (trimStart text) <+: trimStart text := by
    have hk := reverse_prefix.mpr (dropSpaces_isSuffix (whitespace.map List.reverse)
      (trimStart text).length (trimStart text).reverse)
    rwa [reverse_reverse] at hk
  exact hb.isInfix.trans hf.isInfix

/-- A text can be cut at the first occurrence of a byte in one way only. -/
theorem cut_inj {front otherFront back otherBack : Text} (hf : b ∉ front)
    (ho : b ∉ otherFront) (hs : front ++ b :: back = otherFront ++ b :: otherBack) :
    front = otherFront ∧ back = otherBack := by
  induction front generalizing otherFront with
  | nil =>
    cases otherFront with
    | nil => exact ⟨rfl, (cons.inj hs).2⟩
    | cons fst otherFront =>
      rw [(cons.inj hs).1] at ho
      exact absurd mem_cons_self ho
  | cons fst front ih =>
    cases otherFront with
    | nil =>
      rw [(cons.inj hs).1] at hf
      exact absurd mem_cons_self hf
    | cons o otherFront =>
      obtain ⟨rfl, hr⟩ := cons.inj hs
      obtain ⟨rfl, rfl⟩ := ih (fun hm => hf (mem_cons_of_mem _ hm))
        (fun hm => ho (mem_cons_of_mem _ hm)) hr
      exact ⟨rfl, rfl⟩

theorem dot_not_mem_of_mem_rsplitDots {text l : Text} (hm : l ∈ rsplitDots text) : dot ∉ l :=
  not_mem_of_mem_splitOn (mem_reverse.mp hm)

/-- The number of labels, as the source counts them. -/
def labelCount (text : Text) : Nat :=
  (text.filter (· == dot)).length + 1

theorem length_rsplitDots (text : Text) : (rsplitDots text).length = labelCount text := by
  rw [rsplitDots, length_reverse, labelCount]
  induction text with
  | nil => rfl
  | cons fst rest ih =>
    rw [splitOn_cons_eq_if_modifyHead]
    split <;> simp_all

end Text

end MeowRs
