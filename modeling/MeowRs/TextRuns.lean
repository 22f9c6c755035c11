import MeowRs.Numerals

/-!
# Runs of characters in strings of bytes

A run is a sequence of characters from a set that is given by their encodings.  When no encoding is
the beginning of another one, a string starts with exactly one longest run, and dropping characters
from its front removes that run.  Trimming removes the longest runs of white space at both ends.
-/

namespace MeowRs.Text

open List Option

/-- A text made of the given pieces. -/
inductive Run (units : List Text) : Text → Prop
  | nil : Run units []
  | cons {unit text : Text} (member : unit ∈ units) (later : Run units text) :
      Run units (unit ++ text)

def Stops (units : List Text) (text : Text) : Prop :=
  ∀ unit ∈ units, ¬ unit <+: text

/-- Pieces that can be told apart by their beginnings. -/
structure PrefixFree (units : List Text) : Prop where
  nonempty : ∀ unit ∈ units, unit ≠ []
  apart : ∀ unit ∈ units, ∀ other ∈ units, unit <+: other → unit = other

section Runs

variable {us : List Text}

theorem Run.append {fst snd : Text} (hr : Run us fst) (hl : Run us snd) : Run us (fst ++ snd) := by
  induction hr with
  | nil => exact hl
  | cons hm _ ih =>
    rw [append_assoc]
    exact .cons hm ih

theorem Run.singleton {unit : Text} (hm : unit ∈ us) : Run us unit := by
  rw [← append_nil unit]
  exact .cons hm .nil

theorem Run.reverse {text : Text} (hr : Run us text) : Run (us.map List.reverse) text.reverse := by
  induction hr with
  | nil => exact .nil
  | cons hm _ ih =>
    rw [reverse_append]
    exact ih.append (.singleton (mem_map_of_mem hm))

theorem Run.notMem {text : Text} {b : UInt8} (hr : Run us text)
    (hf : ∀ unit ∈ us, b ∉ unit) : b ∉ text := by
  induction hr with
  | nil => exact not_mem_nil
  | cons hm _ ih =>
    rw [mem_append]
    rintro (hu | hl)
    · exact hf _ hm hu
    · exact ih hl

theorem stops_nil (ne : ∀ unit ∈ us, unit ≠ []) : Stops us [] :=
  fun unit hm hf => ne unit hm (prefix_nil.mp hf)

theorem stops_of_head {us : List Text} {b : UInt8} {text : Text}
    (os : ∀ unit ∈ us, unit.head? ≠ some b ∧ unit ≠ []) : Stops us (b :: text) := by
  intro unit hm hf
  obtain ⟨o, hs⟩ := os unit hm
  obtain ⟨fst, rest, rfl⟩ := exists_cons_of_ne_nil hs
  exact o (congrArg some (cons_prefix_cons.mp hf).1)

theorem dropSpaces_of_run (free : PrefixFree us) {front rest : Text} (run : Run us front)
    (hst : Stops us rest) {fuel : Nat} (hen : front.length ≤ fuel) :
    dropSpaces us fuel (front ++ rest) = rest := by
  induction run generalizing fuel with
  | nil =>
    cases fuel with
    | zero => rfl
    | succ fuel =>
      have none : us.find? (·.isPrefixOf rest) = none := by
        rw [find?_eq_none]
        intro unit mem front
        exact hst unit mem ( isPrefixOf_iff_prefix.mp front)
      rw [nil_append, dropSpaces, none]
  | @cons unit text mem hla ih =>
    have hsh : 0 < unit.length := length_pos_iff.mpr (free.nonempty unit mem)
    rw [length_append] at hen
    obtain ⟨fuel, rfl⟩ := Nat.exists_eq_succ_of_ne_zero (by omega : fuel ≠ 0)
    have hit : us.find? (·.isPrefixOf (unit ++ text ++ rest)) = some unit := by
      rw [append_assoc]
      cases fst : us.find? (·.isPrefixOf (unit ++ (text ++ rest))) with
      | none =>
        rw [find?_eq_none] at fst
        exact absurd ( isPrefixOf_iff_prefix.mpr (prefix_append _ _))
          (fst unit mem)
      | some o =>
        have hom := mem_of_find?_eq_some fst
        have hfr := find?_some fst
        have hof : o <+: unit ++ (text ++ rest) :=
          isPrefixOf_iff_prefix.mp hfr
        rcases prefix_or_prefix_of_prefix hof (prefix_append _ _) with
          below | above
        · rw [free.apart o hom unit mem below]
        · rw [free.apart unit mem o hom above]
    rw [dropSpaces, hit]
    dsimp only
    rw [append_assoc, drop_left]
    exact ih (by omega)

/-- What is dropped is a run, and it is the longest one. -/
theorem exists_run (hf : PrefixFree us) {fuel : Nat} {text : Text} (he : text.length ≤ fuel) :
    ∃ front, Run us front ∧ front ++ dropSpaces us fuel text = text ∧
      Stops us (dropSpaces us fuel text) := by
  induction fuel generalizing text with
  | zero =>
    obtain rfl : text = [] := length_eq_zero_iff.mp (Nat.le_zero.mp he)
    exact ⟨[], .nil, rfl, stops_nil hf.nonempty⟩
  | succ fuel ih =>
    rw [dropSpaces]
    cases fst : us.find? (·.isPrefixOf text) with
    | none =>
      rw [find?_eq_none] at fst
      exact ⟨[], .nil, rfl, fun unit hm front =>
        fst unit hm ( isPrefixOf_iff_prefix.mpr front)⟩
    | some unit =>
      have hm := mem_of_find?_eq_some fst
      have hfr := find?_some fst
      obtain ⟨rest, rfl⟩ := isPrefixOf_iff_prefix.mp hfr
      have hsh : 0 < unit.length := length_pos_iff.mpr (hf.nonempty unit hm)
      rw [length_append] at he
      dsimp only
      rw [drop_left]
      obtain ⟨front, hr, cut, hs⟩ := ih (by omega : rest.length ≤ fuel)
      exact ⟨unit ++ front, .cons hm hr, by rw [append_assoc, cut], hs⟩

end Runs

section Characters

def isCharacter : Text → Bool
  | [] => false
  | first :: rest => !isContinuation first && rest.all isContinuation

/-- The text starts with a character, if it is not empty. -/
def Leads (text : Text) : Prop :=
  ∀ byte ∈ text.head?, isContinuation byte = false

variable {us : List Text} (hc : ∀ unit ∈ us, isCharacter unit = true)
include hc

theorem Run.leads {run rest : Text} (hr : Run us run) (hl : Leads rest) : Leads (run ++ rest) := by
  cases hr with
  | nil => exact hl
  | @cons unit text hm hla =>
    have ch := hc unit hm
    cases unit with
    | nil => cases ch
    | cons fst rest =>
      rw [isCharacter, Bool.and_eq_true, Bool.not_eq_true'] at ch
      intro b hh
      cases hh
      exact ch.1

theorem Stops.append {text rest : Text} (hs : Stops us text) (ne : text ≠ [])
    (hl : Leads rest) : Stops us (text ++ rest) := by
  intro unit hm hf
  rcases prefix_or_prefix_of_prefix hf (prefix_append text rest) with hi | ha
  · exact hs unit hm hi
  · obtain ⟨beyond, rfl⟩ := ha
    have hw : beyond <+: rest := (prefix_append_right_inj text).mp hf
    cases beyond with
    | nil =>
      rw [append_nil] at hm
      exact hs text hm prefix_rfl
    | cons b beyond =>
      obtain ⟨after, rfl⟩ := hw
      have hco := hl b rfl
      have ch := hc _ hm
      cases text with
      | nil => exact ne rfl
      | cons fst text =>
        rw [List.cons_append, isCharacter, Bool.and_eq_true, List.all_eq_true] at ch
        rw [ch.2 b (by simp)] at hco
        cases hco

end Characters

section Trimming

theorem whitespace_free : PrefixFree whitespace := by
  constructor
  · decide
  · decide +kernel

theorem whitespace_reverse_free : PrefixFree (whitespace.map List.reverse) := by
  constructor
  · decide
  · decide +kernel

theorem whitespace_characters : ∀ unit ∈ whitespace, isCharacter unit = true := by
  decide

theorem trim_spec (text : Text) :
    ∃ front back, Run whitespace front ∧ Run whitespace back ∧ front ++ trim text ++ back = text ∧
      Stops whitespace (trim text) ∧ Stops (whitespace.map List.reverse) (trim text).reverse := by
  obtain ⟨front, hfr, hfc, hfs⟩ :=
    exists_run whitespace_free (le_refl text.length)
  obtain ⟨back, hbr, hb, hbs⟩ :=
    @exists_run _ whitespace_reverse_free (trimStart text).length (trimStart text).reverse
      (by rw [length_reverse])
  have cut : trim text ++ back.reverse = trimStart text := by
    rw [trim, trimEnd, ← reverse_append, hb, reverse_reverse]
  refine ⟨front, back.reverse, hfr, ?_, ?_, ?_, ?_⟩
  · have hr := hbr.reverse
    exact hr
  · rw [append_assoc, cut]
    exact hfc
  · intro unit hm hf
    refine hfs unit hm ?_
    change unit <+: trimStart text
    rw [← cut]
    exact hf.trans (prefix_append _ _)
  · rw [trim, trimEnd, reverse_reverse]
    exact hbs

theorem trim_of_cut {front mid back : Text} (hf : Run whitespace front) (hb : Run whitespace back)
    (hst : Stops whitespace (mid ++ back)) (hbs : Stops (whitespace.map List.reverse) mid.reverse) :
    trim (front ++ mid ++ back) = mid := by
  have hs : trimStart (front ++ mid ++ back) = mid ++ back := by
    rw [trimStart, append_assoc]
    exact dropSpaces_of_run whitespace_free hf hst (by simp)
  rw [trim, hs, trimEnd, reverse_append,
    dropSpaces_of_run whitespace_reverse_free hb.reverse hbs (by simp), reverse_reverse]

theorem trim_trim (text : Text) : trim (trim text) = trim text := by
  obtain ⟨_, _, _, _, _, hs, hb⟩ := trim_spec text
  have cut := @trim_of_cut [] (trim text) [] .nil .nil (by rwa [append_nil]) hb
  rwa [nil_append, append_nil] at cut

theorem trim_append {text space : Text} (hr : Run whitespace space) :
    trim (text ++ space) = trim text := by
  obtain ⟨front, back, hf, hb, cut, hs, hbs⟩ := trim_spec text
  cases hm : trim text with
  | nil =>
    rw [hm, append_nil] at cut
    have hbl := @trim_of_cut (text ++ space) [] [] ?_ .nil (stops_nil whitespace_free.nonempty)
      (stops_nil whitespace_reverse_free.nonempty)
    · simpa using hbl
    · rw [← cut]
      exact (hf.append hb).append hr
  | cons fst rest =>
    rw [← hm]
    have hl : text ++ space = front ++ trim text ++ (back ++ space) := by
      rw [← append_assoc, cut]
    rw [hl]
    refine trim_of_cut hf (hb.append hr) ?_ hbs
    refine hs.append whitespace_characters (by rw [hm]; exact cons_ne_nil _ _) ?_
    have he := (hb.append hr).leads whitespace_characters (fun _ hh => nomatch hh : Leads [])
    rwa [append_nil] at he

def isCaseless (byte : UInt8) : Bool :=
  !isAsciiUppercase byte && !isAsciiLowercase byte

theorem byteToAsciiLowercase_eq_iff_of_caseless {b mark : UInt8}
    (hca : isCaseless mark = true) : byteToAsciiLowercase b = mark ↔ b = mark := by
  simp only [isCaseless, isAsciiLowercase, Bool.and_eq_true, Bool.not_eq_true', Bool.and_eq_false_iff,
    decide_eq_false_iff_not, UInt8.le_iff_toNat_le] at hca
  unfold byteToAsciiLowercase
  split
  · rename_i upper
    constructor
    · rintro rfl
      rw [isAsciiUppercase_iff] at upper
      rw [UInt8.toNat_add] at hca
      simp only [UInt8.reduceToNat] at hca
      omega
    · rintro rfl
      rw [upper] at hca
      cases hca.1
  · rfl

theorem isPrefix_toAsciiLowercase_iff {front text : Text} (hca : front.all isCaseless = true) :
    front <+: toAsciiLowercase text ↔ front <+: text := by
  induction front generalizing text with
  | nil => simp
  | cons b front ih =>
    rw [all_cons, Bool.and_eq_true] at hca
    cases text with
    | nil => simp [toAsciiLowercase]
    | cons fst rest =>
      rw [toAsciiLowercase, map_cons, cons_prefix_cons, cons_prefix_cons,
        eq_comm, byteToAsciiLowercase_eq_iff_of_caseless hca.1, eq_comm]
      exact and_congr_right fun _ => ih hca.2

theorem Stops.toAsciiLowercase {us : List Text} {text : Text} (hs : Stops us text)
    (hca : ∀ unit ∈ us, unit.all isCaseless = true) : Stops us (Text.toAsciiLowercase text) :=
  fun unit hm hf =>
    hs unit hm ((isPrefix_toAsciiLowercase_iff (hca unit hm)).mp hf)

theorem toAsciiLowercase_append (fst snd : Text) :
    toAsciiLowercase (fst ++ snd) = toAsciiLowercase fst ++ toAsciiLowercase snd :=
  map_append

theorem Run.toAsciiLowercase {us : List Text} {text : Text} (hr : Run us text)
    (hcl : ∀ unit ∈ us, Text.toAsciiLowercase unit ∈ us) : Run us (Text.toAsciiLowercase text) := by
  induction hr with
  | nil => exact .nil
  | cons hm _ ih =>
    rw [toAsciiLowercase_append]
    exact .cons (hcl _ hm) ih

theorem trim_toAsciiLowercase (text : Text) :
    trim (toAsciiLowercase text) = toAsciiLowercase (trim text) := by
  have hcl : ∀ unit ∈ whitespace, toAsciiLowercase unit ∈ whitespace := by decide
  obtain ⟨front, back, hf, hb, cut, hs, hbs⟩ := trim_spec text
  cases hm : trim text with
  | nil =>
    rw [hm, append_nil] at cut
    have hbl := @trim_of_cut (toAsciiLowercase text) [] [] ?_ .nil
      (stops_nil whitespace_free.nonempty) (stops_nil whitespace_reverse_free.nonempty)
    · rw [append_nil, append_nil] at hbl
      exact hbl
    · rw [← cut, toAsciiLowercase_append]
      exact (hf.toAsciiLowercase hcl).append (hb.toAsciiLowercase hcl)
  | cons fst rest =>
    have ne : toAsciiLowercase (trim text) ≠ [] := by
      rw [hm]
      exact cons_ne_nil _ _
    rw [← hm]
    have hl : toAsciiLowercase text =
        toAsciiLowercase front ++ toAsciiLowercase (trim text) ++ toAsciiLowercase back := by
      rw [← toAsciiLowercase_append, ← toAsciiLowercase_append, cut]
    rw [hl]
    have he := (hb.toAsciiLowercase hcl).leads whitespace_characters
      (fun _ hh => nomatch hh : Leads [])
    rw [append_nil] at he
    refine trim_of_cut (hf.toAsciiLowercase hcl) (hb.toAsciiLowercase hcl)
      ((hs.toAsciiLowercase (by decide)).append whitespace_characters ne he) ?_
    rw [toAsciiLowercase, ← map_reverse]
    exact hbs.toAsciiLowercase (by decide)

end Trimming

section Splitting

theorem splitOnce_eq_some {text left right : Text} {sep : UInt8}
    (split : splitOnce text sep = some (left, right)) :
    text = left ++ sep :: right ∧ sep ∉ left := by
  unfold splitOnce at split
  split at split
  · rename_i mem
    cases split
    refine ⟨?_, ?_⟩
    · induction text with
      | nil => cases mem
      | cons b rest ih =>
        rcases eq_or_ne b sep with rfl | o
        · simp
        · have later : sep ∈ rest := by
            rcases mem_cons.mp mem with same | later
            · exact absurd same.symm o
            · exact later
          simp only [takeWhile_cons, dropWhile_cons, ne_eq, o, not_false_eq_true,
            decide_true, if_true, cons_append, cons.injEq, true_and]
          exact ih later
    · intro inFront
      have ne := mem_takeWhile_imp inFront
      simp at ne
  · cases split

theorem splitOnce_append {left right : Text} {sep : UInt8} (hf : sep ∉ left) :
    splitOnce (left ++ sep :: right) sep = some (left, right) := by
  cases hsp : splitOnce (left ++ sep :: right) sep with
  | none => simp [splitOnce] at hsp
  | some parts =>
    obtain ⟨hs, hff⟩ := splitOnce_eq_some hsp
    obtain ⟨rfl, rfl⟩ := cut_inj hf hff hs
    rfl

theorem rsplitOnce_append {left right : Text} {sep : UInt8} (free : sep ∉ right) :
    rsplitOnce (left ++ sep :: right) sep = some (left, right) := by
  rw [rsplitOnce, reverse_append, reverse_cons, append_assoc, singleton_append,
    splitOnce_append (by simpa using free)]
  simp

end Splitting

end MeowRs.Text
