import MeowRs.DomainTrie

/-!
# What the patterns of a domain trie mean

A pattern is a kind and a base, the labels of a domain from left to right.  This is the reading that
a trie has to agree with: which patterns an inserted text stands for, which hosts a pattern matches,
which of two patterns is the more specific one, and which value a sequence of inserts leaves in the
slot of a pattern.  The inserts of the trie keep exactly these slots.
-/

namespace MeowRs.DomainTrie

open List Option Text

variable {T : Type}

structure Pattern where
  kind : MatchKind
  base : List Text
  deriving DecidableEq

namespace Pattern

/-- A host, given by its labels, matches the base itself, one label before it, or any number of
labels before it. -/
def Matches (pattern : Pattern) (host : List Text) : Prop :=
  match pattern.kind with
  | .exact => host = pattern.base
  | .star => ∃ label, host = label :: pattern.base
  | .dot => ∃ labels, labels ≠ [] ∧ host = labels ++ pattern.base

/-- An exact pattern comes before all wildcards, a longer base before a shorter one, and at the same
base `*.` before `.`. -/
def Outranks (pattern other : Pattern) : Prop :=
  other.kind ≠ .exact ∧
    (pattern.kind = .exact ∨ other.base.length < pattern.base.length ∨
      other.base = pattern.base ∧ pattern.kind = .star ∧ other.kind = .dot)

end Pattern

def labelsOf (domain : Text) : List Text :=
  domain.splitOn dot

theorem rsplitDots_eq_reverse (dom : Text) : rsplitDots dom = (labelsOf dom).reverse :=
  rfl

theorem labelsOf_ne_nil (dom : Text) : labelsOf dom ≠ [] :=
  splitOn_ne_nil dot dom

theorem labelsOf_eq_nil_label {dom : Text} (hs : labelsOf dom = [[]]) : dom = [] := by
  have hj : [dot].intercalate (dom.splitOn dot) = dom := intercalate_splitOn dot
  rw [show dom.splitOn dot = [[]] from hs] at hj
  exact hj.symm

/-- The patterns of one of the forms: none when nothing but dots is left of the base. -/
def formPatterns (kinds : List MatchKind) (rest : Text) : List Pattern :=
  let base := trimEndDots rest
  if base.isEmpty then [] else kinds.map fun kind => ⟨kind, labelsOf base⟩

/-- The patterns an inserted text stands for; it is rejected when there are none. -/
def readPatterns (toLowercase : Text → Text) (domain : Text) : List Pattern :=
  let domain := normalizePattern toLowercase domain
  match stripPrefix domain (ofString "+.") with
  | some rest => formPatterns [.exact, .dot] rest
  | none =>
    match stripPrefix domain (ofString "*.") with
    | some rest => formPatterns [.star] rest
    | none =>
      match stripPrefix domain (ofString ".") with
      | some rest => formPatterns [.dot] rest
      | none => formPatterns [.exact] domain

abbrev Slots (T : Type) : Type := Pattern → Option T

def Slots.write (value : T) (mode : InsertMode) (slots : Slots T) (patterns : List Pattern) :
    Slots T :=
  patterns.foldl
    (fun slots pattern => Function.update slots pattern (mode.write (slots pattern) value)) slots

/-- The slots after a sequence of inserts: an insert keeps the value of an occupied slot, an
overwriting insert replaces it. -/
def slotsAfter (toLowercase : Text → Text) (insertions : List (Insertion T)) : Slots T :=
  insertions.foldl
    (fun slots insertion =>
      slots.write insertion.value insertion.mode (readPatterns toLowercase insertion.domain))
    fun _ => none

section Slots

variable {ins : List (Insertion T)}

theorem InsertMode.write_write (mode : InsertMode) (old : Option T) (v : T) :
    mode.write (mode.write old v) v = mode.write old v := by
  cases mode <;> cases old <;> rfl

theorem InsertMode.isSome_write (mode : InsertMode) (old : Option T) (v : T) :
    (mode.write old v).isSome = true := by
  cases mode <;> cases old <;> rfl

theorem Slots.write_apply (v : T) (mode : InsertMode) (slots : Slots T)
    (pats : List Pattern) (pat : Pattern) :
    slots.write v mode pats pat =
      if pat ∈ pats then mode.write (slots pat) v else slots pat := by
  induction pats generalizing slots with
  | nil => rfl
  | cons fst pats ih =>
    refine (ih _).trans ?_
    rcases eq_or_ne pat fst with rfl | hd
    · simp [InsertMode.write_write]
    · simp [hd]

variable (toLowercase : Text → Text)

theorem slotsAfter_concat (ins : List (Insertion T)) (insertion : Insertion T) (pat : Pattern) :
    slotsAfter toLowercase (ins ++ [insertion]) pat =
      if pat ∈ readPatterns toLowercase insertion.domain then
        insertion.mode.write (slotsAfter toLowercase ins pat) insertion.value
      else slotsAfter toLowercase ins pat := by
  rw [slotsAfter, foldl_append]
  exact Slots.write_apply _ _ _ _ _

/-- The occupied slots are those of the inserted patterns. -/
theorem isSome_slotsAfter_iff (ins : List (Insertion T)) (pat : Pattern) :
    (slotsAfter toLowercase ins pat).isSome = true ↔
      ∃ insertion ∈ ins, pat ∈ readPatterns toLowercase insertion.domain := by
  induction ins using reverseRecOn with
  | nil => simp [slotsAfter]
  | append_singleton ins insertion ih =>
    rw [slotsAfter_concat]
    simp only [mem_append, mem_singleton, or_and_right, exists_or, exists_eq_left]
    split
    · rename_i inserted
      simp [InsertMode.isSome_write, inserted]
    · rename_i o
      rw [ih, or_iff_left o]

theorem base_of_mem_readPatterns {dom : Text} {pat : Pattern}
    (hm : pat ∈ readPatterns toLowercase dom) : pat.base ≠ [] ∧ pat.base ≠ [[]] := by
  have ho : ∀ {kinds : List MatchKind} {rest : Text},
      pat ∈ formPatterns kinds rest → pat.base ≠ [] ∧ pat.base ≠ [[]] := by
    intro kinds rest hf
    unfold formPatterns at hf
    dsimp only at hf
    split at hf
    · cases hf
    · rename_i notEmpty
      obtain ⟨kind, _, rfl⟩ := mem_map.mp hf
      exact ⟨labelsOf_ne_nil _, fun hs => notEmpty (by simp [labelsOf_eq_nil_label hs])⟩
  unfold readPatterns at hm
  dsimp only at hm
  split at hm
  · exact ho hm
  · split at hm
    · exact ho hm
    · split at hm <;> exact ho hm

/-- A slot holds the value of the last overwriting insert of its pattern, or of the first insert of
its pattern if none of them overwrites. -/
theorem slotsAfter_eq (ins : List (Insertion T)) (pat : Pattern) :
    slotsAfter toLowercase ins pat =
      ((ins.reverse.find? fun insertion =>
          insertion.mode = .overwrite ∧ pat ∈ readPatterns toLowercase insertion.domain).or
        (ins.find? fun insertion =>
          pat ∈ readPatterns toLowercase insertion.domain)).map Insertion.value := by
  induction ins using reverseRecOn with
  | nil => rfl
  | append_singleton ins insertion ih =>
    rw [slotsAfter_concat, reverse_concat, find?_cons, find?_append, ih]
    by_cases inserted : pat ∈ readPatterns toLowercase insertion.domain
    · cases mode : insertion.mode with
      | overwrite => simp [InsertMode.write, inserted]
      | firstWins =>
        -- The new value counts only if no earlier insert was of the pattern.
        cases ins.reverse.find? fun insertion =>
          insertion.mode = .overwrite ∧ pat ∈ readPatterns toLowercase insertion.domain <;>
        cases ins.find? fun insertion => pat ∈ readPatterns toLowercase insertion.domain <;>
        simp [InsertMode.write, inserted]
    · simp [inserted]

/-- Without overwriting inserts a slot keeps the value of the first insert of its pattern. -/
theorem slotsAfter_firstWins (hf : ∀ insertion ∈ ins, insertion.mode = .firstWins) (pat : Pattern) :
    slotsAfter toLowercase ins pat =
      (ins.find? fun insertion =>
        pat ∈ readPatterns toLowercase insertion.domain).map Insertion.value := by
  have noneOverwrites : (ins.reverse.find? fun insertion =>
      insertion.mode = .overwrite ∧ pat ∈ readPatterns toLowercase insertion.domain) = none := by
    rw [find?_eq_none]
    intro insertion member
    simp [hf insertion (mem_reverse.mp member)]
  rw [slotsAfter_eq, noneOverwrites, Option.none_or]

theorem slotsAfter_isLeast [Preorder T] (hf : ∀ insertion ∈ ins, insertion.mode = .firstWins)
    (inc : ins.Pairwise fun prev later => prev.value ≤ later.value) {pat : Pattern} {v : T}
    (hh : slotsAfter toLowercase ins pat = some v) :
    (∃ insertion ∈ ins, pat ∈ readPatterns toLowercase insertion.domain ∧ insertion.value = v) ∧
      ∀ insertion ∈ ins, pat ∈ readPatterns toLowercase insertion.domain →
        v ≤ insertion.value := by
  rw [slotsAfter_firstWins toLowercase hf, map_eq_some_iff] at hh
  obtain ⟨fst, hit, rfl⟩ := hh
  obtain ⟨hi, pre, after, rfl, hu⟩ := find?_eq_some_iff_append.mp hit
  rw [decide_eq_true_eq] at hi
  refine ⟨⟨fst, by simp, hi, rfl⟩, fun insertion mem hm => ?_⟩
  rcases mem_append.mp mem with he | hl
  · have := hu insertion he
    simp [hm] at this
  · rcases mem_cons.mp hl with rfl | later
    · exact le_refl _
    · exact rel_of_pairwise_cons (pairwise_append.mp inc).2.1 later

end Slots

variable {trie : DomainTrie T} {b : Builder T} {slots : Slots T} {toLowercase : Text → Text}

/-- The trie is being built and its nodes hold exactly the given slots. -/
structure Holds (trie : DomainTrie T) (builder : Builder T) (slots : Slots T) : Prop where
  state : trie.state = .building builder
  valid : builder.Valid
  slotAt (pattern : Pattern) : builder.slotAt pattern.base.reverse pattern.kind = slots pattern

theorem holds_new : Holds (new : DomainTrie T) .new fun _ => none where
  state := rfl
  valid := Or.inl rfl
  slotAt pat := by
    cases hp : pat.base.reverse with
    | nil => rfl
    | cons l ls => rfl

theorem Holds.insertIntoTree (hh : Holds trie b slots) (base : Text) (v : T) (kind : MatchKind)
    (mode : InsertMode) :
    Holds (trie.insertIntoTree base v kind mode)
      (b.insertIntoTree base v kind mode)
      (slots.write v mode [⟨kind, labelsOf base⟩]) := by
  obtain ⟨wf, hw⟩ := Builder.insertIntoTree_spec hh.valid base v kind mode
  refine ⟨by simp [DomainTrie.insertIntoTree, hh.state], Or.inr wf, fun pat => ?_⟩
  have hc := hh.slotAt ⟨kind, labelsOf base⟩
  rw [hw, rsplitDots_eq_reverse, hc, hh.slotAt]
  simp only [Slots.write, foldl_cons, foldl_nil, Function.update_apply, reverse_inj]
  obtain ⟨otherKind, otherBase⟩ := pat
  simp [and_comm]

theorem Holds.insertKinds (hh : Holds trie b slots) (base : Text) (v : T)
    (kinds : List MatchKind) (mode : InsertMode) :
    ∃ b, Holds
      (kinds.foldl (fun trie kind => trie.insertIntoTree base v kind mode) trie) b
      (slots.write v mode (kinds.map fun kind => ⟨kind, labelsOf base⟩)) := by
  induction kinds generalizing trie b slots with
  | nil => exact ⟨b, hh⟩
  | cons kind kinds ih => exact ih (hh.insertIntoTree base v kind mode)

theorem Holds.insertForm (hh : Holds trie b slots) (rest : Text) (v : T) (kinds : List MatchKind)
    (mode : InsertMode) :
    ∃ b, Holds (trie.insertForm rest v kinds mode).2 b
      (slots.write v mode (formPatterns kinds rest)) := by
  cases he : (trimEndDots rest).isEmpty with
  | true =>
    simp only [DomainTrie.insertForm, formPatterns, he, if_true]
    exact ⟨b, hh⟩
  | false =>
    obtain ⟨after, inserted⟩ := hh.insertKinds (trimEndDots rest) v kinds mode
    simp only [DomainTrie.insertForm, formPatterns, he, Bool.false_eq_true, if_false]
    exact ⟨after, inserted.state, inserted.valid, inserted.slotAt⟩

theorem trimEndDots_isEmpty_iff {text : Text} :
    (trimEndDots text).isEmpty = true ↔ ∀ b ∈ text, b = dot := by
  rw [List.isEmpty_iff, trimEndDots, List.rdropWhile_eq_nil_iff]
  simp only [beq_iff_eq]

theorem formPatterns_of_dots {rest : Text} (hd : ∀ b ∈ rest, b = dot)
    (kinds : List MatchKind) : formPatterns kinds rest = [] :=
  if_pos (trimEndDots_isEmpty_iff.mpr hd)

theorem readPatterns_of_dots {dom : Text}
    (hd : (trimEndDots (normalizePattern toLowercase dom)).isEmpty = true) :
    readPatterns toLowercase dom = [] := by
  unfold readPatterns
  rw [trimEndDots_isEmpty_iff] at hd
  generalize normalizePattern toLowercase dom = text at hd
  cases text with
  | nil => rfl
  | cons b rest =>
    obtain rfl := hd b mem_cons_self
    exact formPatterns_of_dots (fun o hm => hd o (mem_cons_of_mem _ hm)) _

theorem exists_form (toLowercase : Text → Text) (dom : Text) :
    ∃ rest kinds, kinds ≠ [] ∧ readPatterns toLowercase dom = formPatterns kinds rest ∧
      ∀ (trie : DomainTrie T) (v : T) (mode : InsertMode),
        trie.insertInner toLowercase dom v mode = trie.insertForm rest v kinds mode := by
  cases hd : (trimEndDots (normalizePattern toLowercase dom)).isEmpty with
  | true =>
    refine ⟨[], [.exact], cons_ne_nil _ _, readPatterns_of_dots hd, fun trie v mode => ?_⟩
    simp only [DomainTrie.insertInner, hd, if_true]
    rfl
  | false =>
    simp only [DomainTrie.insertInner, hd, readPatterns, Bool.false_eq_true, if_false]
    cases stripPrefix (normalizePattern toLowercase dom) (ofString "+.") with
    | some rest => exact ⟨rest, _, cons_ne_nil _ _, rfl, fun _ _ _ => rfl⟩
    | none =>
      cases stripPrefix (normalizePattern toLowercase dom) (ofString "*.") with
      | some rest => exact ⟨rest, _, cons_ne_nil _ _, rfl, fun _ _ _ => rfl⟩
      | none =>
        cases stripPrefix (normalizePattern toLowercase dom)
            (ofString ".") with
        | some rest => exact ⟨rest, _, cons_ne_nil _ _, rfl, fun _ _ _ => rfl⟩
        | none => exact ⟨_, _, cons_ne_nil _ _, rfl, fun _ _ _ => rfl⟩

theorem len_insertIntoTree (trie : DomainTrie T) (base : Text) (v : T) (kind : MatchKind)
    (mode : InsertMode) : (trie.insertIntoTree base v kind mode).len = trie.len := by
  unfold DomainTrie.insertIntoTree
  cases trie.state <;> rfl

theorem insertInner_fst (trie : DomainTrie T) (toLowercase : Text → Text) (dom : Text) (v : T)
    (mode : InsertMode) :
    (trie.insertInner toLowercase dom v mode).1 =
      !(readPatterns toLowercase dom).isEmpty := by
  obtain ⟨rest, kinds, hs, hp, hf⟩ := exists_form (T := T) toLowercase dom
  rw [hp, hf]
  simp only [DomainTrie.insertForm, formPatterns]
  split <;> simp [hs]

theorem len_insertInner (trie : DomainTrie T) (toLowercase : Text → Text) (dom : Text)
    (v : T) (mode : InsertMode) :
    (trie.insertInner toLowercase dom v mode).2.len =
      trie.len + (readPatterns toLowercase dom).length := by
  have ht : ∀ (base : Text) (kinds : List MatchKind) (trie : DomainTrie T),
      (kinds.foldl (fun trie kind => trie.insertIntoTree base v kind mode) trie).len =
        trie.len := by
    intro base kinds
    induction kinds with
    | nil => exact fun _ => rfl
    | cons kind kinds ih => exact fun trie => (ih _).trans (len_insertIntoTree trie base v kind mode)
  obtain ⟨rest, kinds, -, hp, hf⟩ := exists_form (T := T) toLowercase dom
  rw [hp, hf]
  simp only [DomainTrie.insertForm, formPatterns]
  split <;> simp [ht]

theorem Holds.insertInner (hh : Holds trie b slots) (toLowercase : Text → Text) (dom : Text)
    (v : T) (mode : InsertMode) :
    ∃ b, Holds (trie.insertInner toLowercase dom v mode).2 b
      (slots.write v mode (readPatterns toLowercase dom)) := by
  obtain ⟨rest, kinds, -, hp, hf⟩ := exists_form (T := T) toLowercase dom
  rw [hp, hf]
  exact hh.insertForm rest v kinds mode

theorem insertAll_concat (toLowercase : Text → Text) (ins : List (Insertion T))
    (insertion : Insertion T) :
    insertAll toLowercase (ins ++ [insertion]) =
      ((insertAll toLowercase ins).insertInner toLowercase insertion.domain insertion.value
        insertion.mode).2 := by
  obtain ⟨dom, v, mode⟩ := insertion
  rw [insertAll, foldl_append]
  cases mode <;> rfl

/-- A sequence of inserts leaves a trie that holds the slots of its meaning. -/
theorem insertAll_holds (toLowercase : Text → Text) (ins : List (Insertion T)) :
    ∃ b, Holds (insertAll toLowercase ins) b
      (slotsAfter toLowercase ins) := by
  induction ins using reverseRecOn with
  | nil => exact ⟨_, holds_new⟩
  | append_singleton ins insertion ih =>
    obtain ⟨b, hh⟩ := ih
    rw [insertAll_concat, slotsAfter, foldl_append]
    exact hh.insertInner toLowercase insertion.domain insertion.value insertion.mode

theorem slotsAfter_of_len_eq_zero {ins : List (Insertion T)}
    (he : (insertAll toLowercase ins).len = 0) (pat : Pattern) :
    slotsAfter toLowercase ins pat = none := by
  induction ins using reverseRecOn with
  | nil => rfl
  | append_singleton ins insertion ih =>
    rw [insertAll_concat, len_insertInner, Nat.add_eq_zero_iff] at he
    rw [slotsAfter_concat, eq_nil_of_length_eq_zero he.2, ih he.1]
    rfl

end MeowRs.DomainTrie
