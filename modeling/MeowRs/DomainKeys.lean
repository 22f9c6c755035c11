import MeowRs.TextRuns
import MeowRs.TrieSemantics

/-!
# Dead keys of domain tries

A key can be refused by the trie, or be stored at a node that no host leads to because one of its
labels is empty.  The configuration reports both from the text of the key alone.  It strips the key
before its case is folded and the trie strips it afterwards; the two agree since lower case keeps
the marks `.`, `+` and `*` where they are.
-/

namespace MeowRs.DomainTrie

open List Option Text

inductive DomainKeyDefect where
  | deadLabel
  | notInsertable
  deriving DecidableEq

/-- The labels a trie would work on: one wildcard mark is removed, and the dots at the end. -/
def domainKeyBody (key : Text) : Text :=
  let key := trim key
  trimEndDots
    ((((stripPrefix key (ofString "+.")).or
      (stripPrefix key (ofString "*."))).or
      (stripPrefix key (ofString "."))).getD key)

def domainKeyDefect (key : Text) : Option DomainKeyDefect :=
  let body := domainKeyBody key
  if body.isEmpty then some .notInsertable
  else if (body.splitOn dot).any List.isEmpty then some .deadLabel
  else none

section LowerCase

/-- A text in lower case: ASCII letters are folded, and other characters become letters or other
characters outside ASCII. -/
inductive LowersTo : Text → Text → Prop
  | nil : LowersTo [] []
  | ascii {byte : UInt8} {text lower : Text} (isAscii : byte < 0x80) (later : LowersTo text lower) :
      LowersTo (byte :: text) (byteToAsciiLowercase byte :: lower)
  | other {part image text lower : Text} (partNonempty : part ≠ [])
      (outside : ∀ byte ∈ part, 0x80 ≤ byte) (imageNonempty : image ≠ [])
      (letters : ∀ byte ∈ image, 0x80 ≤ byte ∨ isAsciiLowercase byte = true)
      (later : LowersTo text lower) : LowersTo (part ++ text) (image ++ lower)

/-- The Unicode lower case mapping works on the characters of a text, and no character becomes white
space. -/
structure LowersCase (toLowercase : Text → Text) : Prop where
  lowersTo : ∀ text, LowersTo text (toLowercase text)
  stops : ∀ text, Text.Stops whitespace text → Text.Stops whitespace (toLowercase text)

def isMark (byte : UInt8) : Bool :=
  byte < 0x41

variable {text lower : Text}

theorem lowersTo_of_ascii (isAscii : isAscii text = true) :
    LowersTo text (toAsciiLowercase text) := by
  induction text with
  | nil => exact .nil
  | cons b text ih =>
    rw [Text.isAscii, all_cons, Bool.and_eq_true, decide_eq_true_eq] at isAscii
    exact .ascii isAscii.1 (ih isAscii.2)

theorem isMark_iff {b : UInt8} : isMark b = true ↔ b.toNat < 0x41 := by
  simp [isMark, UInt8.lt_iff_toNat_lt]

theorem not_isMark_of_outside {b : UInt8}
    (hle : 0x80 ≤ b ∨ isAsciiLowercase b = true) : isMark b = false := by
  rw [isMark, decide_eq_false_iff_not, UInt8.lt_iff_toNat_lt]
  simp only [isAsciiLowercase, Bool.and_eq_true, decide_eq_true_eq, UInt8.le_iff_toNat_le,
    UInt8.reduceToNat] at hle ⊢
  omega

theorem LowersTo.of_mark {mark : UInt8} (hm : isMark mark = true)
    (hl : LowersTo (mark :: text) lower) : ∃ rest, lower = mark :: rest ∧ LowersTo text rest := by
  generalize hw : mark :: text = whole at hl
  cases hl with
  | nil => cases hw
  | @ascii b text lower ha hla =>
    cases hw
    refine ⟨lower, ?_, hla⟩
    rw [(byteToAsciiLowercase_eq_iff (isMark_iff.mp hm)).mpr rfl]
  | @other part image text lower hp ho hi hle hla =>
    obtain ⟨first, rest, rfl⟩ := exists_cons_of_ne_nil hp
    cases hw
    rw [not_isMark_of_outside (.inl (ho mark mem_cons_self))] at hm
    cases hm

theorem LowersTo.of_lower_mark {mark : UInt8} (hm : isMark mark = true)
    (hl : LowersTo text (mark :: lower)) : ∃ rest, text = mark :: rest ∧ LowersTo rest lower := by
  generalize hw : mark :: lower = whole at hl
  cases hl with
  | nil => cases hw
  | @ascii b text lower ha hla =>
    obtain ⟨hb, rfl⟩ := cons.inj hw
    have hs := (byteToAsciiLowercase_eq_iff (isMark_iff.mp hm)).mp hb.symm
    exact ⟨text, by rw [hs], hla⟩
  | @other part image text lower hp ho hi hle hla =>
    obtain ⟨first, rest, rfl⟩ := exists_cons_of_ne_nil hi
    obtain ⟨rfl, -⟩ := cons.inj hw
    rw [not_isMark_of_outside (hle mark mem_cons_self)] at hm
    cases hm

theorem trimEndDots_append (fst snd : Text) :
    trimEndDots (fst ++ snd) = if trimEndDots snd = [] then trimEndDots fst
      else fst ++ trimEndDots snd := by
  simp only [trimEndDots, List.rdropWhile, List.reverse_append, List.dropWhile_append,
    List.isEmpty_iff, List.reverse_eq_nil_iff]
  split
  · rfl
  · rw [List.reverse_append, List.reverse_reverse]

theorem trimEndDots_of_free (hf : dot ∉ text) : trimEndDots text = text := by
  rw [trimEndDots, rdropWhile_eq_self_iff]
  intro ne he
  rw [beq_iff_eq] at he
  exact hf (he ▸ getLast_mem ne)

theorem dot_notMem_of_letters {image : Text}
    (hle : ∀ b ∈ image, 0x80 ≤ b ∨ isAsciiLowercase b = true) : dot ∉ image :=
  fun hm => Bool.false_ne_true (not_isMark_of_outside (hle _ hm)).symm

/-- A part of a label in lower case. -/
structure LowersPart (part image : Text) : Prop where
  partNonempty : part ≠ []
  imageNonempty : image ≠ []
  partFree : dot ∉ part
  imageFree : dot ∉ image
  lowersTo : ∀ {text lower : Text}, LowersTo text lower → LowersTo (part ++ text) (image ++ lower)

/-- Go through a text by its dots and what is between them. -/
@[elab_as_elim]
theorem LowersTo.dotInduction {motive : Text → Text → Prop} (nil : motive [] [])
    (dot : ∀ {text lower : Text}, LowersTo text lower → motive text lower →
      motive (dot :: text) (dot :: lower))
    (part : ∀ {part image text lower : Text}, LowersPart part image → LowersTo text lower →
      motive text lower → motive (part ++ text) (image ++ lower))
    (hl : LowersTo text lower) : motive text lower := by
  induction hl with
  | nil => exact nil
  | @ascii b text lower hasc hla ih =>
    by_cases hdo : b = Text.dot
    · rw [hdo]
      exact dot hla ih
    · refine @part [b] [byteToAsciiLowercase b] _ _ ⟨?_, ?_, ?_, ?_, ?_⟩ hla ih
      · exact cons_ne_nil _ _
      · exact cons_ne_nil _ _
      · rw [mem_singleton]
        exact Ne.symm hdo
      · rw [mem_singleton, eq_comm, byteToAsciiLowercase_eq_dot_iff]
        exact hdo
      · exact fun hla => .ascii hasc hla
  | other hpn hou hin hle hla ih =>
    refine part ⟨hpn, hin, ?_, dot_notMem_of_letters hle, ?_⟩ hla ih
    · exact dot_notMem_of_letters fun b mem => .inl (hou b mem)
    · exact fun hla => .other hpn hou hin hle hla

theorem labelsOf_append {part : Text} (hf : dot ∉ part) (text : Text) :
    labelsOf (part ++ text) = (labelsOf text).modifyHead (part ++ ·) := by
  induction part with
  | nil =>
    exact (congrFun modifyHead_id _).symm
  | cons b part ih =>
    rw [mem_cons, not_or] at hf
    rw [cons_append, labelsOf, splitOn_cons_eq_if_modifyHead, if_neg (mt eq_of_beq (Ne.symm hf.1)),
      show (part ++ text).splitOn dot = _ from ih hf.2, modifyHead_modifyHead]
    rfl

theorem LowersTo.of_marks {marks : Text} (hm : marks.all isMark = true)
    (hl : LowersTo (marks ++ text) lower) : ∃ rest, lower = marks ++ rest ∧ LowersTo text rest := by
  induction marks generalizing lower with
  | nil => exact ⟨lower, rfl, hl⟩
  | cons mark marks ih =>
    rw [all_cons, Bool.and_eq_true] at hm
    obtain ⟨lower, rfl, hla⟩ := hl.of_mark hm.1
    obtain ⟨rest, rfl, last⟩ := ih hm.2 hla
    exact ⟨rest, rfl, last⟩

theorem LowersTo.of_lower_marks {marks : Text} (hm : marks.all isMark = true)
    (hl : LowersTo text (marks ++ lower)) : ∃ rest, text = marks ++ rest ∧ LowersTo rest lower := by
  induction marks generalizing text with
  | nil => exact ⟨text, rfl, hl⟩
  | cons mark marks ih =>
    rw [all_cons, Bool.and_eq_true] at hm
    obtain ⟨text, rfl, hla⟩ := hl.of_lower_mark hm.1
    obtain ⟨rest, rfl, last⟩ := ih hm.2 hla
    exact ⟨rest, rfl, last⟩

theorem LowersTo.stripPrefix {marks : Text} (hm : marks.all isMark = true)
    (hl : LowersTo text lower) :
    stripPrefix text marks = none ∧ stripPrefix lower marks = none ∨
      ∃ rest lowerRest, stripPrefix text marks = some rest ∧
        Text.stripPrefix lower marks = some lowerRest ∧ LowersTo rest lowerRest := by
  unfold Text.stripPrefix
  by_cases hf : marks <+: text
  · obtain ⟨rest, rfl⟩ := hf
    obtain ⟨lowerRest, rfl, hla⟩ := hl.of_marks hm
    refine .inr ⟨rest, lowerRest, ?_, ?_, hla⟩
    all_goals rw [if_pos ( isPrefixOf_iff_prefix.mpr (prefix_append _ _)), drop_left]
  · have hlf : ¬ marks <+: lower := by
      rintro ⟨lowerRest, rfl⟩
      obtain ⟨rest, rfl, -⟩ := hl.of_lower_marks hm
      exact hf (prefix_append _ _)
    refine .inl ⟨?_, ?_⟩
    · rw [if_neg (mt isPrefixOf_iff_prefix.mp hf)]
    · rw [if_neg (mt isPrefixOf_iff_prefix.mp hlf)]

section

variable (hl : LowersTo text lower)
include hl

theorem LowersTo.nil_iff : text = [] ↔ lower = [] := by
  cases hl with
  | nil => simp
  | ascii ha hla => simp
  | other hp ho hi hle hla => simp [hp, hi]

theorem LowersTo.trimEndDots :
    LowersTo (trimEndDots text) (trimEndDots lower) := by
  refine LowersTo.dotInduction ?_ ?_ ?_ hl
  · exact .nil
  · intro text lower hla ih
    change LowersTo (Text.trimEndDots ([Text.dot] ++ text)) (Text.trimEndDots ([Text.dot] ++ lower))
    rw [trimEndDots_append, trimEndDots_append]
    by_cases dots : Text.trimEndDots text = []
    · rw [if_pos dots, if_pos (ih.nil_iff.mp dots)]
      exact .nil
    · rw [if_neg dots, if_neg (mt ih.nil_iff.mpr dots)]
      exact .ascii (by decide) ih
  · intro part image text lower hpa hla ih
    rw [trimEndDots_append, trimEndDots_append, trimEndDots_of_free hpa.partFree,
      trimEndDots_of_free hpa.imageFree]
    by_cases dots : Text.trimEndDots text = []
    · rw [if_pos dots, if_pos (ih.nil_iff.mp dots)]
      have hal := hpa.lowersTo .nil
      rwa [append_nil, append_nil] at hal
    · rw [if_neg dots, if_neg (mt ih.nil_iff.mpr dots)]
      exact hpa.lowersTo ih

theorem LowersTo.labelsOf :
    Forall₂ LowersTo (labelsOf text) (labelsOf lower) := by
  refine LowersTo.dotInduction ?_ ?_ ?_ hl
  · exact .cons .nil .nil
  · intro text lower hla ih
    exact .cons .nil ih
  · intro part image text lower hpa hla ih
    rw [labelsOf_append hpa.partFree, labelsOf_append hpa.imageFree]
    generalize DomainTrie.labelsOf text = ls, DomainTrie.labelsOf lower = lowered at ih
    cases ih with
    | nil => exact .nil
    | cons fst rest => exact .cons (hpa.lowersTo fst) rest

theorem LowersTo.nil_mem_labelsOf_iff :
    [] ∈ DomainTrie.labelsOf text ↔ [] ∈ DomainTrie.labelsOf lower := by
  have ls := hl.labelsOf
  generalize DomainTrie.labelsOf text = fst, DomainTrie.labelsOf lower = snd at ls
  induction ls with
  | nil => rfl
  | cons fst hr ih => simp only [mem_cons, ih, eq_comm, fst.nil_iff]

theorem LowersTo.any_isAsciiUppercase :
    lower.any isAsciiUppercase = false := by
  induction hl with
  | nil => rfl
  | ascii _ _ ih =>
    rw [any_cons, isAsciiUppercase_byteToAsciiLowercase, ih]
    rfl
  | other _ _ _ hle _ ih =>
    rw [List.any_append, ih, Bool.or_false, List.any_eq_false]
    intro b hm hu
    have hlet := hle b hm
    rw [isAsciiUppercase_iff] at hu
    simp only [isAsciiLowercase, Bool.and_eq_true, decide_eq_true_eq, UInt8.le_iff_toNat_le,
      UInt8.reduceToNat] at hlet
    omega

end

variable {toLowercase : Text → Text} (lowersCase : LowersCase toLowercase)
include lowersCase

theorem lowersTo_normalizePattern (key : Text) :
    LowersTo (trim key) (normalizePattern toLowercase key) := by
  unfold normalizePattern
  dsimp only
  split
  · exact lowersCase.lowersTo _
  · rename_i plain
    rw [List.any_eq_true, not_exists] at plain
    have isAscii : isAscii (trim key) = true := by
      rw [isAscii, List.all_eq_true]
      intro b mem
      have small := plain b
      simp only [mem, Bool.or_eq_true, decide_eq_true_eq, true_and, not_or] at small
      exact decide_eq_true (UInt8.not_le.mp small.2)
    have lowered : toAsciiLowercase (trim key) = trim key := by
      refine toAsciiLowercase_of_lower (any_eq_false.mpr fun b mem upper => ?_)
      exact plain b ⟨mem, by rw [upper, Bool.true_or]⟩
    have hl := lowersTo_of_ascii isAscii
    rwa [lowered] at hl

theorem stops_normalizePattern (key : Text) :
    Text.Stops whitespace (normalizePattern toLowercase key) := by
  obtain ⟨_, _, _, _, _, hs, _⟩ := trim_spec key
  unfold normalizePattern
  dsimp only
  split
  · exact lowersCase.stops _ hs
  · exact hs

/-- An insert reads the body of its key in lower case. -/
theorem exists_base (key : Text) :
    ∃ base kinds, LowersTo (domainKeyBody key) base ∧ readPatterns toLowercase key =
        (if base.isEmpty then [] else kinds.map fun kind => ⟨kind, labelsOf base⟩) ∧
      trimEndDots base = base ∧
      (kinds = [.exact] ∧ Text.Stops whitespace base ∨ .star ∈ kinds ∨ .dot ∈ kinds) := by
  have hl := lowersTo_normalizePattern lowersCase key
  have hs := stops_normalizePattern lowersCase key
  have ha : ∀ rest, trimEndDots (trimEndDots rest) = trimEndDots rest :=
    fun rest => rdropWhile_idempotent _ rest
  unfold readPatterns domainKeyBody
  dsimp only
  rcases @LowersTo.stripPrefix _ _ (ofString "+.") (by decide) hl with
    ⟨isNone, lowerNone⟩ | ⟨rest, lowerRest, isSome, lowerSome, later⟩
  · rw [isNone, lowerNone]
    rcases @LowersTo.stripPrefix _ _ (ofString "*.") (by decide) hl with
      ⟨isNone, lowerNone⟩ | ⟨rest, lowerRest, isSome, lowerSome, later⟩
    · rw [isNone, lowerNone]
      rcases @LowersTo.stripPrefix _ _ (ofString ".") (by decide) hl with
        ⟨isNone, lowerNone⟩ | ⟨rest, lowerRest, isSome, lowerSome, later⟩
      · rw [isNone, lowerNone]
        refine ⟨_, [.exact], hl.trimEndDots, rfl, ha _, .inl ⟨rfl, ?_⟩⟩
        intro unit hm hf
        exact hs unit hm (hf.trans ( rdropWhile_prefix _ _))
      · rw [isSome, lowerSome]
        exact ⟨_, [.dot], later.trimEndDots, rfl, ha _, .inr (.inr mem_cons_self)⟩
    · rw [isSome, lowerSome]
      exact ⟨_, [.star], later.trimEndDots, rfl, ha _, .inr (.inl mem_cons_self)⟩
  · rw [isSome, lowerSome]
    exact ⟨_, [.exact, .dot], later.trimEndDots, rfl, ha _,
      .inr (.inr (mem_cons_of_mem _ mem_cons_self))⟩

end LowerCase

section Queries

/-- A query in whose name a label is empty, as a search reads the name. -/
def HasEmptyLabel (query : Text) : Prop :=
  [] ∈ labelsOf (trimEndDots (trim query))

theorem nil_mem_hostLabels_iff {q : Text} : [] ∈ hostLabels q ↔ HasEmptyLabel q := by
  rw [hostLabels, labelsOf, splitOn_toAsciiLowercase, List.mem_map]
  constructor
  · rintro ⟨l, hm, he⟩
    rwa [map_eq_nil_iff.mp he] at hm
  · exact fun hm => ⟨[], hm, rfl⟩

theorem hostLabels_append_dot {name : Text} (ne : name ≠ []) (hd : trimEndDots name = name)
    (hs : Text.Stops whitespace name) (lower : name.any isAsciiUppercase = false) :
    hostLabels (name ++ [dot]) = labelsOf name := by
  have hle : Text.Leads [dot] := by
    rintro b hh
    cases hh
    decide
  have hf : Text.Stops whitespace (name ++ [dot] ++ []) := by
    rw [append_nil]
    exact hs.append whitespace_characters ne hle
  have hb : Text.Stops (whitespace.map List.reverse) (name ++ [dot]).reverse := by
    rw [reverse_append]
    exact stops_of_head (by decide)
  have ht := @trim_of_cut [] (name ++ [dot]) [] .nil .nil hf hb
  rw [nil_append, append_nil] at ht
  rw [hostLabels, ht, trimEndDots_append, if_pos (by decide), hd, toAsciiLowercase_of_lower lower]

variable {T : Type} [ValueLayout T] {toLowercase : Text → Text} {key q : Text} {v : T}

/-- The patterns of the only key decide whether a query finds its value. -/
theorem search_insert_eq_some_iff :
    ((new : DomainTrie T).insert toLowercase key v).2.search q = some v ↔
      ∃ pat ∈ readPatterns toLowercase key, pat.Matches (hostLabels q) := by
  have hv := @search_eq_none_iff T toLowercase [⟨key, v, .firstWins⟩] _ q
  rw [forall_mem_singleton] at hv
  change (insertAll toLowercase [⟨key, v, .firstWins⟩]).search q = some v ↔ _
  constructor
  · intro hi
    by_contra hu
    rw [hv.mpr fun pat mem hm => hu ⟨pat, mem, hm⟩] at hi
    cases hi
  · rintro ⟨pat, mem, hm⟩
    cases hi : (insertAll toLowercase [⟨key, v, .firstWins⟩]).search q with
    | none => exact absurd hm (hv.mp hi pat mem)
    | some o =>
      obtain ⟨_, -, hh, -⟩ := (search_eq_some_iff q o).mp hi
      rw [← nil_append [_], slotsAfter_concat] at hh
      split at hh
      · exact hh.symm
      · cases hh

end Queries

section Classifier

variable {T : Type} [ValueLayout T] {toLowercase : Text → Text}

theorem exists_query {base : Text} {kinds : List MatchKind} (ne : base ≠ [])
    (hdo : trimEndDots base = base) (lower : base.any isAsciiUppercase = false)
    (hal : [] ∉ labelsOf base)
    (kind : kinds = [.exact] ∧ Text.Stops whitespace base ∨ .star ∈ kinds ∨ .dot ∈ kinds) :
    ∃ q, ¬ HasEmptyLabel q ∧ ∃ kind ∈ kinds,
      Pattern.Matches ⟨kind, labelsOf base⟩ (hostLabels q) := by
  rcases kind with ⟨rfl, hst⟩ | wild
  · have ls := hostLabels_append_dot ne hdo hst lower
    refine ⟨base ++ [dot], ?_, .exact, mem_cons_self, ls⟩
    rw [← nil_mem_hostLabels_iff, ls]
    exact hal
  · have pre : labelsOf (ofString "a." ++ base) = ofString "a" :: labelsOf base := by
      change labelsOf ([0x61] ++ dot :: base) = _
      rfl
    have ls : hostLabels (ofString "a." ++ base ++ [dot]) =
        ofString "a" :: labelsOf base := by
      rw [hostLabels_append_dot, pre]
      · exact append_ne_nil_of_right_ne_nil _ ne
      · rw [trimEndDots_append, hdo, if_neg ne]
      · exact stops_of_head (by decide)
      · rw [any_append, lower]
        rfl
    refine ⟨ofString "a." ++ base ++ [dot], ?_, ?_⟩
    · rw [← nil_mem_hostLabels_iff, ls, mem_cons, not_or]
      exact ⟨by decide, hal⟩
    · rw [ls]
      rcases wild with star | dot
      · exact ⟨.star, star, _, rfl⟩
      · exact ⟨.dot, dot, [ofString "a"], cons_ne_nil _ _, rfl⟩

theorem isFound_iff (lowersCase : LowersCase toLowercase) (key : Text) (v : T) :
    (∃ q, ¬ HasEmptyLabel q ∧ ((new : DomainTrie T).insert toLowercase key v).2.search q = some v) ↔
      domainKeyBody key ≠ [] ∧ [] ∉ labelsOf (domainKeyBody key) := by
  obtain ⟨base, kinds, hl, hp, hdo, kind⟩ := exists_base lowersCase key
  simp only [search_insert_eq_some_iff, hp]
  rw [Ne, hl.nil_iff, hl.nil_mem_labelsOf_iff]
  constructor
  · rintro ⟨q, ha, pat, mem, hm⟩
    split at mem
    · cases mem
    · rename_i ne
      obtain ⟨kind, -, rfl⟩ := mem_map.mp mem
      refine ⟨fun he => ne (isEmpty_iff.mpr he), fun hd => ha ?_⟩
      obtain ⟨extra, ls, -⟩ := Pattern.matches_iff.mp hm
      rw [← nil_mem_hostLabels_iff, ls]
      exact mem_append_right _ hd
  · rintro ⟨ne, ha⟩
    obtain ⟨q, live, kind, hk, hm⟩ :=
      exists_query ne hdo hl.any_isAsciiUppercase ha kind
    refine ⟨q, live, _, ?_, hm⟩
    rw [if_neg (mt List.isEmpty_iff.mp ne)]
    exact mem_map_of_mem hk

omit [ValueLayout T] in
theorem insert_fst_iff (lowersCase : LowersCase toLowercase) (key : Text) (v : T) :
    ((new : DomainTrie T).insert toLowercase key v).1 = true ↔ domainKeyBody key ≠ [] := by
  obtain ⟨base, kinds, hl, hp, -, kind⟩ := exists_base lowersCase key
  have hsk : kinds ≠ [] := by
    rcases kind with ⟨rfl, -⟩ | hs | hd
    · exact cons_ne_nil _ _
    · exact ne_nil_of_mem hs
    · exact ne_nil_of_mem hd
  rw [Ne, hl.nil_iff, DomainTrie.insert, insertInner_fst, hp]
  split
  · rename_i empty
    simp [isEmpty_iff.mp empty]
  · rename_i ne
    simpa [hsk] using ne

/-- The classification of a key agrees with the trie: a refused key, a key that no query finds
unless one of its labels is empty, and a key that some query finds. -/
theorem domainKeyDefect_iff (lowersCase : LowersCase toLowercase) (key : Text) (value : T) :
    (domainKeyDefect key = some .notInsertable ↔
      ((new : DomainTrie T).insert toLowercase key value).1 = false) ∧
    (domainKeyDefect key = some .deadLabel ↔
      ((new : DomainTrie T).insert toLowercase key value).1 = true ∧
      ∀ query, ¬ HasEmptyLabel query →
        ((new : DomainTrie T).insert toLowercase key value).2.search query ≠ some value) ∧
    (domainKeyDefect key = none ↔ ∃ query, ¬ HasEmptyLabel query ∧
        ((new : DomainTrie T).insert toLowercase key value).2.search query = some value) := by
  have hi := insert_fst_iff lowersCase key value
  have hf := isFound_iff lowersCase key value
  have hu : (∀ query, ¬ HasEmptyLabel query →
      ((new : DomainTrie T).insert toLowercase key value).2.search query ≠ some value) ↔
      ¬ (domainKeyBody key ≠ [] ∧ [] ∉ labelsOf (domainKeyBody key)) := by
    rw [← hf, not_exists]
    simp only [not_and]
  have hr := not_congr hi
  rw [Bool.not_eq_true, not_not] at hr
  rw [hr, hi, hu, hf, domainKeyDefect]
  by_cases he : domainKeyBody key = []
  · simp [he]
  · have hd : (splitOn dot (domainKeyBody key)).any isEmpty = true ↔
        [] ∈ labelsOf (domainKeyBody key) := by
      simp [labelsOf]
    by_cases hs : [] ∈ labelsOf (domainKeyBody key)
    · simp [he, hd.mpr hs, hs]
    · simp [he, mt hd.mp hs, hs]

theorem lowersCase_toAsciiLowercase : LowersCase toAsciiLowercase := by
  constructor
  · intro text
    induction text with
    | nil => exact .nil
    | cons b text ih =>
      by_cases ha : b < 0x80
      · exact .ascii ha ih
      · have ho := UInt8.not_lt.mp ha
        have hs : byteToAsciiLowercase b = b := by
          refine byteToAsciiLowercase_of_not_upper (Bool.eq_false_iff.mpr fun hu => ?_)
          rw [isAsciiUppercase_iff] at hu
          simp only [UInt8.le_iff_toNat_le, UInt8.reduceToNat] at ho
          omega
        rw [toAsciiLowercase, map_cons, hs]
        refine @LowersTo.other [b] [b] _ _ (cons_ne_nil _ _) ?_ (cons_ne_nil _ _) ?_ ih
        · exact forall_mem_singleton.mpr ho
        · exact forall_mem_singleton.mpr (.inl ho)
  · exact fun text hst => hst.toAsciiLowercase (by decide)

/-- A key that the trie takes and that is found only with an empty label. -/
theorem domainKeyDefect_leading_dots :
    domainKeyDefect (ofString "+..x") = some .deadLabel ∧ ∀ query, ¬ HasEmptyLabel query →
        ((new : DomainTrie Nat).insert toAsciiLowercase (ofString "+..x") 7).2.search
          query ≠ some 7 := by
  have hd : domainKeyDefect (ofString "+..x") = some .deadLabel := by decide
  exact ⟨hd, ((domainKeyDefect_iff lowersCase_toAsciiLowercase _ 7).2.1.mp hd).2⟩

end Classifier

end MeowRs.DomainTrie
