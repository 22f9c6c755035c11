import MeowRs.RuleLines

/-!
# Trees of logic rules

A tree of `AND`, `OR` and `NOT` over rule texts, written as a line, is parsed to a rule with the value
of the tree.  The groups of a line are parsed as lines with a placeholder for their adapter, and the
bound on the length of a line is applied to them once more: a line within the bound is refused when
the placeholder takes one of its groups across it.
-/

namespace MeowRs.RuleLine

open List Option Text Nat Results

/-- Every parenthesis has its partner. -/
inductive Balanced : Text → Prop
  | nil : Balanced []
  | cons {byte : UInt8} {text : Text} (isOpen : byte ≠ openParen) (isClose : byte ≠ closeParen)
      (later : Balanced text) : Balanced (byte :: text)
  | group {inside text : Text} (within : Balanced inside) (later : Balanced text) :
      Balanced (openParen :: (inside ++ closeParen :: text))

theorem closeGroup_cons {b : UInt8} (ho : b ≠ openParen) (hc : b ≠ closeParen)
    (depth : Nat) (rest : Text) :
    closeGroup depth (b :: rest) =
      (closeGroup depth rest).map fun (mid, aft) => (b :: mid, aft) := by
  conv_lhs => unfold closeGroup
  rw [if_neg ho, if_neg hc]

theorem closeGroup_close (depth : Nat) (rest : Text) :
    closeGroup (depth + 1) (closeParen :: rest) =
      (closeGroup depth rest).map fun (mid, aft) => (closeParen :: mid, aft) := by
  conv_lhs => unfold closeGroup
  rw [if_neg (by decide), if_pos rfl]

theorem closeGroup_open (depth : Nat) (rest : Text) :
    closeGroup depth (openParen :: rest) =
      (closeGroup (depth + 1) rest).map fun (mid, aft) => (openParen :: mid, aft) := by
  conv_lhs => unfold closeGroup
  rw [if_pos rfl]

namespace Balanced

theorem append {fst snd : Text} (hp : Balanced fst) (ha : Balanced snd) :
    Balanced (fst ++ snd) := by
  induction hp with
  | nil => exact ha
  | cons ho hc _ ih => exact .cons ho hc ih
  | group hw _ _ ih =>
    rw [cons_append, append_assoc, cons_append]
    exact .group hw ih

theorem of_free {text : Text} (hf : ∀ b ∈ text, b ≠ openParen ∧ b ≠ closeParen) :
    Balanced text := by
  induction text with
  | nil => exact .nil
  | cons b text ih =>
    rw [forall_mem_cons] at hf
    exact .cons hf.1.1 hf.1.2 (ih hf.2)

theorem closeGroup_append {text : Text} (hb : Balanced text) (depth : Nat) (rest : Text) :
    closeGroup depth (text ++ rest) =
      (closeGroup depth rest).map fun (mid, aft) => (text ++ mid, aft) := by
  induction hb generalizing depth rest with
  | nil => simp
  | cons ho hc _ ih =>
    rw [cons_append, closeGroup_cons ho hc, ih, Option.map_map]
    rfl
  | group _ _ hi ih =>
    rw [cons_append, append_assoc, closeGroup_open, hi, cons_append,
      closeGroup_close, ih, Option.map_map, Option.map_map, Option.map_map]
    congr 1
    funext parts
    simp

end Balanced

section Trees

variable {Leaf : Type} (build : Text → Text → Text → Option Text → Except Text Leaf)
  {gs : List Text}

theorem Balanced.closeGroup {mid : Text} (hb : Balanced mid) (aft : Text) :
    closeGroup 0 (mid ++ closeParen :: aft) = some (mid, aft) := by
  rw [hb.closeGroup_append]
  simp [RuleLine.closeGroup, openParen, closeParen]

def joinGroups : List Text → Text
  | [] => []
  | [group] => openParen :: (group ++ [closeParen])
  | group :: groups => openParen :: (group ++ closeParen :: comma :: joinGroups groups)

theorem length_le_joinGroups (gs : List Text) : gs.length ≤ (joinGroups gs).length := by
  induction gs with
  | nil => exact le_refl 0
  | cons group gs ih =>
    cases gs with
    | nil => simp [joinGroups]
    | cons next gs =>
      rw [joinGroups]
      simp only [length_cons, length_append] at ih ⊢
      omega
      simp

theorem length_le_of_mem_joinGroups {group : Text} (hm : group ∈ gs) :
    group.length ≤ (joinGroups gs).length := by
  induction gs with
  | nil => cases hm
  | cons fst gs ih =>
    rcases mem_cons.mp hm with rfl | hl
    · cases gs <;> simp [joinGroups] <;> omega
    · cases gs with
      | nil => cases hl
      | cons next gs =>
        have hs := ih hl
        simp only [joinGroups, length_cons, length_append] at hs ⊢
        omega

theorem groupsWithin_comma (fuel : Nat) (text : Text) :
    groupsWithin (fuel + 1) (comma :: text) = groupsWithin (fuel + 1) text := by
  rw [groupsWithin, groupsWithin, dropWhile_cons_of_pos (by decide)]

theorem groupsWithin_group {group : Text} (hb : Balanced group) (fuel : Nat) (aft : Text) :
    groupsWithin (fuel + 1) (openParen :: (group ++ closeParen :: aft)) =
      (groupsWithin fuel aft).map (group :: ·) := by
  rw [groupsWithin, dropWhile_cons_of_neg (by decide)]
  dsimp only
  rw [if_pos rfl, hb.closeGroup]

section

variable (each : ∀ group ∈ gs, Balanced group)
include each

theorem balanced_joinGroups :
    Balanced (joinGroups gs) := by
  induction gs with
  | nil => exact .nil
  | cons group gs ih =>
    rw [forall_mem_cons] at each
    cases gs with
    | nil => exact .group each.1 .nil
    | cons next gs => exact .group each.1 (.cons (by decide) (by decide) (ih each.2))

theorem groupsWithin_joinGroups {fuel : Nat} (he : gs.length < fuel) :
    groupsWithin fuel (joinGroups gs) = .ok gs := by
  induction gs generalizing fuel with
  | nil =>
    cases fuel with
    | zero => rfl
    | succ fuel => rfl
  | cons group gs ih =>
    rw [forall_mem_cons] at each
    obtain ⟨fuel, rfl⟩ := exists_eq_succ_of_ne_zero (ne_of_gt (zero_lt_of_lt he))
    have nx := ih each.2 (lt_of_succ_lt_succ he)
    cases gs with
    | nil =>
      rw [joinGroups, groupsWithin_group each.1]
      obtain ⟨fuel, rfl⟩ := exists_eq_succ_of_ne_zero (ne_of_gt (lt_of_succ_lt_succ he))
      rfl
    | cons next gs =>
      obtain ⟨fuel, rfl⟩ := exists_eq_succ_of_ne_zero
        (ne_of_gt (zero_lt_of_lt (lt_of_succ_lt_succ he)))
      rw [joinGroups, groupsWithin_group each.1, groupsWithin_comma, nx]
      · rfl
      · simp

theorem splitLogicGroups_joinGroups :
    splitLogicGroups (joinGroups gs) = .ok gs :=
  groupsWithin_joinGroups each (lt_succ_of_le (length_le_joinGroups gs))

end

theorem name_free (kind : LogicType) : ∀ b ∈ kind.name, b ≠ openParen ∧ b ≠ closeParen := by
  cases kind <;> decide +kernel

theorem comma_notMem_name (kind : LogicType) : comma ∉ kind.name := by
  cases kind <;> decide

theorem ofName_name (kind : LogicType) : LogicType.ofName (trim kind.name) = some kind := by
  cases kind <;> decide +kernel

theorem trimStart_of_head {b : UInt8} (text : Text)
    (os : ∀ unit ∈ whitespace, unit.head? ≠ some b ∧ unit ≠ []) :
    trimStart (b :: text) = b :: text :=
  dropSpaces_of_run whitespace_free .nil (stops_of_head os) (zero_le _)

theorem trimStart_open (text : Text) : trimStart (openParen :: text) = openParen :: text :=
  trimStart_of_head text (by decide)

theorem trim_run_append {space text : Text} (hr : Text.Run whitespace space) :
    trim (space ++ text) = trim text := by
  obtain ⟨front, hf, hc, hst⟩ :=
    exists_run whitespace_free (le_refl text.length)
  have he : (space ++ front).length ≤ (space ++ text).length := by
    have wh := congrArg List.length hc
    simp only [length_append] at wh ⊢
    omega
  have hs := dropSpaces_of_run whitespace_free (hr.append hf) hst he
  rw [append_assoc, hc] at hs
  rw [trim, trimStart, hs, trim, trimStart]

theorem comma_notMem_space {space : Text} (hr : Text.Run whitespace space) : comma ∉ space :=
  hr.notMem (by decide)

theorem splitN_of_trim {text type f : Text} {flags : Option Text}
    (hc : trim text = type ++ comma :: (f ++ flagText flags)) (hty : comma ∉ type)
    (hf : comma ∉ f) :
    ∃ outerType outerField outerFlags,
      splitN 3 text comma = outerType :: outerField :: Option.toList outerFlags ∧
      trim outerType = trim type ∧ trim outerField = trim f ∧
      outerFlags.map trim = flags.map trim := by
  obtain ⟨front, back, wh, hfr, hb⟩ := exists_of_trim_eq hc
  have ho : comma ∉ front ++ type := by simp [hty, comma_notMem_space hfr]
  have ht := @trim_run_append front type hfr
  cases flags with
  | none =>
    have hs : text = (front ++ type) ++ comma :: (f ++ back) := by simp [wh, flagText]
    refine ⟨front ++ type, f ++ back, none, ?_, ht, trim_append hb, rfl⟩
    rw [hs, splitN, splitOnce_append ho]
    simp [splitN, splitOnce, hf, comma_notMem_space hb]
  | some flags =>
    have hs : text = (front ++ type) ++ comma :: (f ++ comma :: (flags ++ back)) := by
      simp [wh, flagText]
    refine ⟨front ++ type, f, some (flags ++ back), ?_, ht, rfl, congrArg some (trim_append hb)⟩
    rw [hs, splitN, splitOnce_append ho]
    dsimp only
    rw [splitN, splitOnce_append hf]
    rfl

/-- What a logic rule makes of the results of its rules. -/
def LogicType.combine : LogicType → List Bool → Bool
  | and, results => results.all id
  | or, results => results.any id
  | not, results => !results.headD true

/-- Whether a rule matches, where `matchesLeaf` says so for the rules that are no logic. -/
def Parsed.matchMetadata (matchesLeaf : Parsed Leaf → Bool) : Parsed Leaf → Bool
  | .logic kind rules _ => kind.combine (rules.map (matchMetadata matchesLeaf))
  | rule => matchesLeaf rule

/-- A rule text for a group: a type that is neither `MATCH` nor a logic type, a payload, and flags
unless the payload may have commas. -/
structure LeafText where
  text : Text
  type : Text
  payload : Text
  flags : Option Text
  rule : Parsed Leaf
  fields : splitN 3 text comma = type :: payload :: flags.toList
  notMatch : trim type ≠ ofString "MATCH"
  nonempty : trim payload ≠ []
  unflagged : trim type = ofString "DOMAIN-REGEX" → flags = none
  notLogic : LogicType.ofName (trim type) = none
  balanced : Balanced text
  parsed : parseLeafRule build (spliceInnerAdapter (trim text)) = .ok rule

inductive LogicTree where
  | leaf (leaf : LeafText build)
  | node (kind : LogicType) (children : List LogicTree)

namespace LogicTree

variable {build} {cs : List (LogicTree build)} {kind : LogicType} {levels : Nat}
  {tree : LogicTree build} {parse : Text → Except Text (Parsed Leaf)}

def render : LogicTree build → Text
  | leaf text => text.text
  | node kind children =>
    kind.name ++ comma :: openParen :: (joinGroups (children.map render) ++ [closeParen])

def line (tree : LogicTree build) (adapter : Text) : Text :=
  tree.render ++ comma :: adapter

def toParsed (adapter : Text) : LogicTree build → Parsed Leaf
  | leaf text => text.rule
  | node kind children => .logic kind (children.map (toParsed innerPlaceholder)) adapter

/-- The Boolean value of a tree over its parsed leaves. -/
def value (matchesLeaf : Parsed Leaf → Bool) : LogicTree build → Bool
  | leaf text => matchesLeaf text.rule
  | node kind children => kind.combine (children.map (value matchesLeaf))

/-- Connectives nested at most `levels` deep, each with operands and `NOT` with one. -/
inductive Within : Nat → LogicTree build → Prop
  | leaf (levels : Nat) (text : LeafText build) : Within levels (.leaf text)
  | node {levels : Nat} {kind : LogicType} {children : List (LogicTree build)}
    (some : children ≠ []) (single : kind = .not → children.length = 1)
    (each : ∀ child ∈ children, Within levels child) : Within (levels + 1) (.node kind children)

theorem render_node (kind : LogicType) (cs : List (LogicTree build)) :
    (node kind cs).render =
      kind.name ++ comma :: openParen :: (joinGroups (cs.map render) ++ [closeParen]) := by
  rw [render]

theorem Within.balanced (hw : Within levels tree) : Balanced tree.render := by
  induction hw with
  | leaf _ text =>
    rw [render]
    exact text.balanced
  | @node _ kind cs _ _ _ ih =>
    rw [render_node]
    refine (Balanced.of_free (name_free kind)).append (.cons (by decide) (by decide) ?_)
    refine .group (balanced_joinGroups fun group hm => ?_) .nil
    obtain ⟨c, hc, rfl⟩ := mem_map.mp hm
    exact ih c hc

/-- The line of a connective is parsed by its groups. -/
theorem parseRuleDepth_line {ad : Text} (hs : cs ≠ []) (each : ∀ c ∈ cs, Balanced c.render)
    (ht : trim ad = ad) (ne : ad ≠ []) (hf : comma ∉ ad)
    (hsh : ((node kind cs).line ad).length ≤ maxRuleLineLen) :
    parseRuleDepth build (levels + 1) ((node kind cs).line ad) =
      (parseGroups kind (parseRuleDepth build levels) (cs.map render) >>= fun rs =>
        if kind = .not ∧ rs.length ≠ 1 then
          .error (ofString "NOT rule requires exactly 1 inner rule, got " ++ decimal rs.length)
        else .ok (.logic kind rs ad)) := by
  have wh : (node kind cs).line ad = kind.name ++ comma :: openParen ::
      (joinGroups (cs.map render) ++ closeParen :: comma :: ad) := by
    rw [line, render_node]
    simp
  rw [parseRuleDepth, parseRuleWith, if_neg (not_lt.mpr hsh), wh, splitOnceTrimmed,
    splitOnce_append (comma_notMem_name kind), map_some]
  dsimp only
  rw [ofName_name, trimStart_open]
  dsimp only
  have hg : ∀ group ∈ cs.map render, Balanced group := by
    intro group hm
    obtain ⟨c, hc, rfl⟩ := mem_map.mp hm
    exact each c hc
  rw [parseLogicRule, trimStart_open]
  dsimp only
  rw [if_pos rfl, (balanced_joinGroups hg).closeGroup]
  dsimp only
  rw [trimStart_of_head _ (by decide)]
  dsimp only
  rw [if_pos rfl, splitOn_eq_singleton hf, getLastD_cons, getLastD_nil,
    ht, if_neg (by simpa using ne), splitLogicGroups_joinGroups hg]
  change (if (cs.map render).isEmpty then _ else _) = _
  rw [if_neg (by simpa using hs)]

theorem trim_render (kind : LogicType) (cs : List (LogicTree build)) :
    trim (node kind cs).render = (node kind cs).render := by
  have hc := @trim_of_cut [] (node kind cs).render [] .nil .nil ?_ ?_
  · rwa [nil_append, append_nil] at hc
  · rw [append_nil, render_node]
    cases kind <;> exact stops_of_head (by decide)
  · rw [render_node]
    simp only [reverse_append, reverse_cons, nil_append, reverse_nil]
    exact stops_of_head (by decide)

/-- The line that the group of a tree is parsed as. -/
def inner (tree : LogicTree build) : Text :=
  spliceInnerAdapter (trim tree.render)

theorem inner_node (kind : LogicType) (cs : List (LogicTree build)) :
    (node kind cs).inner = (node kind cs).line innerPlaceholder := by
  rw [inner, trim_render, spliceInnerAdapter, if_pos, line, append_assoc, singleton_append]
  rw [render_node, splitOnce_append (comma_notMem_name kind), any_some]
  exact congrArg Option.isSome (ofName_name kind)

theorem checkGroup_of_fields {group type p : Text} {flags : Option Text} (kind : LogicType)
    (fs : splitN 3 group comma = type :: p :: flags.toList) (hn : trim type ≠ ofString "MATCH")
    (ne : trim p ≠ []) (hu : trim type = ofString "DOMAIN-REGEX" → flags = none) :
    checkGroup kind group = .ok () := by
  unfold checkGroup
  rw [fs]
  dsimp only
  rw [getD_cons_zero, getD_cons_succ, getD_cons_zero, if_neg hn, if_neg (by simpa using ne), if_neg]
  rintro ⟨hr, hm⟩
  rw [hu hr] at hm
  exact lt_irrefl 2 hm

theorem trim_open_ne_nil (text : Text) : trim (openParen :: text) ≠ [] := by
  intro hb
  obtain ⟨front, back, hc, hf, hbr⟩ := exists_of_trim_eq hb
  rw [append_nil] at hc
  exact (hf.append hbr).notMem (by decide) (hc ▸ mem_cons_self)

theorem checkGroup_node (outer kind : LogicType) (cs : List (LogicTree build)) :
    checkGroup outer (node kind cs).render = .ok () := by
  have hnm : trim kind.name ≠ ofString "MATCH" := by cases kind <;> decide +kernel
  have hnr : trim kind.name ≠ ofString "DOMAIN-REGEX" := by cases kind <;> decide +kernel
  have hn := comma_notMem_name kind
  rw [render_node]
  generalize joinGroups (cs.map render) ++ [closeParen] = text
  rcases splitN_three_cases (kind.name ++ comma :: openParen :: text) comma with ⟨hco, _⟩ |
    ⟨type, p, hc, ht, _, fields⟩ | ⟨type, p, rest, hc, ht, _, fields⟩
  · exact absurd (by simp) hco
  · obtain ⟨rfl, rfl⟩ := cut_inj hn ht hc
    exact @checkGroup_of_fields _ _ _ none outer fields hnm (trim_open_ne_nil text)
      fun hr => absurd hr hnr
  · obtain ⟨rfl, hs⟩ := cut_inj hn ht hc
    refine @checkGroup_of_fields _ _ _ (some rest) outer fields hnm ?_ fun hr => absurd hr hnr
    cases p with
    | nil => cases hs
    | cons b p =>
      obtain ⟨rfl, _⟩ := cons.inj hs
      exact trim_open_ne_nil p

theorem checkGroup_render (kind : LogicType) (tree : LogicTree build) :
    checkGroup kind tree.render = .ok () := by
  cases tree with
  | leaf text =>
    rw [render]
    exact checkGroup_of_fields kind text.fields text.notMatch text.nonempty text.unflagged
  | node inner cs => exact checkGroup_node kind inner cs

def size : LogicTree build → Nat
  | leaf text => (trim text.type).length + (trim text.payload).length + 1 +
      (flagText (text.flags.map trim)).length
  | node kind children => (node kind children).render.length

/-- Whether the line that a group is parsed as is within the bound. -/
def Fits (tree : LogicTree build) : Prop :=
  tree.size + (comma :: innerPlaceholder).length ≤ maxRuleLineLen

theorem inner_leaf (text : LeafText build) :
    (leaf text).inner.length = (leaf text).size + (comma :: innerPlaceholder).length ∧
      ∀ type rest, (leaf text).inner = type ++ comma :: rest → comma ∉ type →
        LogicType.ofName (trim type) = none := by
  rw [inner, render, size]
  have fs := text.fields
  rcases spliceInnerAdapter_cases (trim text.text) with ⟨type, rest, hc, hf, hki, _⟩ |
    ⟨noComma, hs⟩ | ⟨type, field, flags, hc, hty, fieldFree, hk, hs⟩
  · obtain ⟨front, back, wh, hfr, _⟩ := exists_of_trim_eq hc
    have hof : comma ∉ front ++ type := by simp [hf, comma_notMem_space hfr]
    have hsh : text.text = (front ++ type) ++ comma :: (rest ++ back) := by simp [wh]
    rw [hsh, splitN, splitOnce_append hof] at fs
    have hk := text.notLogic
    rw [← (cons.inj fs).1, trim_run_append hfr] at hk
    rw [hk] at hki
    cases hki
  · obtain ⟨front, back, wh, hfr, hb⟩ := @exists_of_trim_eq text.text _ rfl
    have hf : comma ∉ text.text := by
      rw [wh]
      simp [noComma, comma_notMem_space hfr, comma_notMem_space hb]
    rw [splitN, splitOnce, if_neg hf] at fs
    exact absurd (congrArg List.length fs) (by simp)
  · obtain ⟨outerType, outerField, outerFlags, hspl, htyp, hfi, hfl⟩ :=
      splitN_of_trim hc hty fieldFree
    rw [hspl, cons.injEq, cons.injEq] at fs
    obtain ⟨rfl, rfl, hfli⟩ := fs
    have ht : comma ∉ trim type := fun htr => hty ((trim_isInfix type).subset htr)
    have hfs : outerFlags = text.flags := by
      simpa using congrArg head? hfli
    refine ⟨?_, ?_⟩
    · rw [hs, htyp, hfi, ← hfs, hfl]
      simp only [length_append, length_cons]
      omega
    · intro o rest same ho
      obtain ⟨rfl, _⟩ := cut_inj ht ho (hs ▸ same)
      rwa [trim_trim]

theorem length_inner (tree : LogicTree build) :
    tree.inner.length = tree.size + (comma :: innerPlaceholder).length := by
  cases tree with
  | leaf text => exact (inner_leaf text).1
  | node kind cs => rw [inner_node, line, length_append, size]

theorem size_le_length_render (tree : LogicTree build) : tree.size ≤ tree.render.length := by
  cases tree with
  | leaf text =>
    have hl := fun f : Text => (trim_isInfix f).length_le
    have hst := hl text.type
    have hsp := hl text.payload
    rw [size, render]
    have fs := text.fields
    rcases splitN_three_cases text.text comma with ⟨_, hs⟩ | ⟨_, _, hc, _, _, hs⟩ |
      ⟨_, _, flags, hc, _, _, hs⟩
    · rw [hs] at fs
      exact absurd (congrArg List.length fs) (by simp)
    all_goals
      rw [hs, cons.injEq, cons.injEq] at fs
      obtain ⟨rfl, rfl, hfl⟩ := fs
      have hf := congrArg head? hfl
      rw [head?_toList] at hf
      rw [← hf, hc]
    · simp only [head?_nil, map_none, flagText, elim_none, length_nil, length_append, length_cons]
      omega
    · have hsf := hl flags
      simp only [head?_cons, map_some, flagText, elim_some, length_append, length_cons]
      omega
  | node kind cs =>
    rw [size]

theorem fits_of_line {c : LogicTree build}
    (hs : ((node kind cs).line innerPlaceholder).length ≤ maxRuleLineLen)
    (hm : c ∈ cs) : c.Fits := by
  have hi : c.render.length ≤ (joinGroups (cs.map render)).length :=
    length_le_of_mem_joinGroups (mem_map_of_mem hm)
  have hsm := c.size_le_length_render
  rw [line, render_node] at hs
  rw [Fits]
  simp only [length_append, length_cons] at hs ⊢
  omega

theorem parseRuleDepth_leaf {text : LeafText build} (hf : (leaf text).Fits) (levels : Nat) :
    parseRuleDepth build levels (leaf text).inner = .ok text.rule := by
  have hs : ¬ maxRuleLineLen < (leaf text).inner.length := by
    rw [length_inner]
    exact not_lt.mpr hf
  have hl : parseLeafRule build (leaf text).inner = .ok text.rule := by
    rw [inner, render]
    exact text.parsed
  have hp : ∀ logic, parseRuleWith build logic (leaf text).inner = .ok text.rule := by
    intro logic
    rw [parseRuleWith, if_neg hs, splitOnceTrimmed]
    cases hsp : splitOnce (leaf text).inner comma with
    | none => exact hl
    | some ps =>
      obtain ⟨hc, free⟩ := splitOnce_eq_some hsp
      dsimp only [map_some]
      rw [(inner_leaf text).2 _ _ hc free]
      exact hl
  cases levels with
  | zero | succ levels => exact hp _

theorem parseGroups_render (each : ∀ c ∈ cs, parse c.inner = .ok (c.toParsed innerPlaceholder)) :
    parseGroups kind parse (cs.map render) =
      .ok (cs.map (toParsed innerPlaceholder)) := by
  induction cs with
  | nil => rfl
  | cons c cs ih =>
    rw [forall_mem_cons] at each
    rw [map_cons, parseGroups, checkGroup_render, ← inner, each.1, ih each.2]
    rfl

theorem parse_line {ad : Text} (hs : cs ≠ []) (hsi : kind = .not → cs.length = 1)
    (hb : ∀ c ∈ cs, Balanced c.render) (ht : trim ad = ad) (ne : ad ≠ [])
    (hf : comma ∉ ad) (hsh : ((node kind cs).line ad).length ≤ maxRuleLineLen) (each : ∀ c ∈ cs,
      parseRuleDepth build levels c.inner = .ok (c.toParsed innerPlaceholder)) :
    parseRuleDepth build (levels + 1) ((node kind cs).line ad) =
      .ok ((node kind cs).toParsed ad) := by
  rw [parseRuleDepth_line hs hb ht ne hf hsh, parseGroups_render each]
  refine (if_neg ?_).trans (by rw [toParsed])
  rintro ⟨hn, hse⟩
  rw [length_map] at hse
  exact hse (hsi hn)

theorem parse_inner (hw : Within levels tree) (hf : tree.Fits) :
    parseRuleDepth build levels tree.inner = .ok (tree.toParsed innerPlaceholder) := by
  induction hw with
  | leaf levels text =>
    rw [toParsed]
    exact parseRuleDepth_leaf hf levels
  | @node levels kind cs hs hsi each ih =>
    have hsh : ((node kind cs).line innerPlaceholder).length ≤ maxRuleLineLen := by
      rw [← inner_node, length_inner]
      exact hf
    rw [inner_node]
    exact parse_line hs hsi (fun c hm => (each c hm).balanced)
      (by decide +kernel) (by decide) (by decide) hsh
      fun c hm => ih c hm (fits_of_line hsh hm)

theorem fits_of_parse {rule : Parsed Leaf}
    (hp : parseRuleDepth build levels tree.inner = .ok rule) : tree.Fits := by
  have hs : tree.inner.length ≤ maxRuleLineLen := by
    cases levels with
    | zero | succ levels => exact (parseRuleWith_eq_ok hp).1
  rwa [length_inner] at hs

theorem parsed_of_parseGroups {gs : List Text} {rs : List (Parsed Leaf)} {group : Text}
    (hp : parseGroups kind parse gs = .ok rs) (hm : group ∈ gs) :
    ∃ rule, parse (spliceInnerAdapter (trim group)) = .ok rule := by
  induction gs generalizing rs with
  | nil => cases hm
  | cons fst gs ih =>
    obtain ⟨_, _, hp⟩ := bind_eq_ok.mp hp
    obtain ⟨rule, hf, hp⟩ := bind_eq_ok.mp hp
    obtain ⟨os, ho, _⟩ := bind_eq_ok.mp hp
    rcases mem_cons.mp hm with rfl | hm
    · exact ⟨rule, hf⟩
    · exact ih ho hm

theorem matchMetadata_toParsed (hw : Within levels tree) (matchesLeaf : Parsed Leaf → Bool)
    (ad : Text) : (tree.toParsed ad).matchMetadata matchesLeaf = tree.value matchesLeaf := by
  induction hw generalizing ad with
  | leaf levels text =>
    rw [toParsed, value]
    have hpar := text.parsed
    generalize text.rule = rule at hpar ⊢
    obtain ⟨_, _, _, _, ⟨_, _, rfl⟩ | ⟨_, _, _, _, _, hpa⟩⟩ := parseLeafRule_eq_ok hpar
    · rw [Parsed.matchMetadata]
      nofun
    · cases hpa <;> rw [Parsed.matchMetadata] <;> nofun
  | node some hsi each ih =>
    rw [toParsed, Parsed.matchMetadata, value, List.map_map]
    congr 1
    exact map_congr_left fun c mem => ih c mem innerPlaceholder

end LogicTree

variable {kind : LogicType} {rule : Parsed Leaf}

/-- What may stand beneath a logic rule: nothing that matches everything, and no empty payload. -/
inductive Beneath : Parsed Leaf → Prop
  | geoSite {payload adapter : Text} (nonempty : payload ≠ []) :
    Beneath (.geoSite payload adapter)
  | leaf {type payload adapter : Text} {flag : Option Text} {leaf : Leaf}
    (built : build type payload adapter flag = .ok leaf) (notMatch : type ≠ ofString "MATCH")
    (nonempty : payload ≠ []) : Beneath (.leaf leaf)
  | logic {kind : LogicType} {rules : List (Parsed Leaf)} {adapter : Text}
    (each : ∀ rule ∈ rules, Beneath rule) : Beneath (.logic kind rules adapter)

variable {build}

theorem checkGroup_eq_ok {group : Text} (hc : checkGroup kind group = .ok ()) :
    trim ((splitN 3 group comma).getD 0 []) ≠ ofString "MATCH" ∧
      trim ((splitN 3 group comma).getD 1 []) ≠ [] := by
  unfold checkGroup at hc
  dsimp only at hc
  split at hc
  · cases hc
  · split at hc
    · cases hc
    · rename_i notMatch ne
      exact ⟨notMatch, fun hb => ne (by rw [hb]; rfl)⟩

theorem beneath_of_splice {logic : LogicType → Text → Except Text (Parsed Leaf)} {group : Text}
    (hne : ∀ kind rest, logic kind rest = .ok rule → Beneath build rule)
    (hch : checkGroup kind group = .ok ())
    (hp : parseRuleWith build logic (spliceInnerAdapter (trim group)) = .ok rule) :
    Beneath build rule := by
  rcases (parseRuleWith_eq_ok hp).2 with ⟨hl, hlo⟩ | ⟨_, _, _, _, _, _, hlp⟩
  · obtain ⟨hn, ne⟩ := checkGroup_eq_ok hch
    obtain ⟨type, more, hc, hty, ho⟩ := parseLeafRule_eq_ok hl
    rcases spliceInnerAdapter_cases (trim group) with ⟨inner, rest, hi, hf, hki,
      hs⟩ | ⟨noComma, hs⟩ | ⟨inner, field, flags, hi, hif, hff, hk, hs⟩
    · have hk : LogicType.ofName (trim inner) = none :=
        hlo inner (rest ++ comma :: innerPlaceholder) (by rw [hs, hi]; simp) hf
      rw [hk] at hki
      cases hki
    · rw [hs] at hc
      rw [hc] at noComma
      exact absurd (by simp) noComma
    · obtain ⟨outerType, outerField, outerFlags, hspl, ht, hfi, _⟩ :=
        splitN_of_trim hi hif hff
      rw [hspl, getD_cons_zero, ht] at hn
      rw [hspl, getD_cons_succ, getD_cons_zero, hfi] at ne
      have htf : ∀ {text : Text}, comma ∉ text → comma ∉ trim text :=
        fun hf htr => hf ((trim_isInfix _).subset htr)
      obtain ⟨rfl, same⟩ := cut_inj hty (htf hif) (hc.symm.trans hs)
      rw [trim_trim] at ho
      rcases ho with ⟨hm, _⟩ | ⟨_, p, back, rfl, hpf, hpa⟩
      · exact absurd hm hn
      · obtain ⟨rfl, _⟩ := cut_inj hpf (htf hff) same
        rw [← trim_trim] at ne hn
        cases hpa with
        | geoSite ad hg => exact .geoSite ne
        | leaf hb => exact .leaf hb hn ne
  · exact hne _ _ hlp

/-- No rule beneath a logic rule matches everything or has an empty payload. -/
theorem beneath_of_parseLogicRule {levels : Nat} {rest : Text}
    (hp : parseLogicRule kind rest (parseRuleDepth build levels) = .ok rule) :
    Beneath build rule := by
  induction levels generalizing kind rest rule with
      obtain ⟨_, _, _, _, _, _, _, hrp, rfl⟩ := parseLogicRule_eq_ok hp
  | zero =>
    refine .logic fun mem hr => ?_
    obtain ⟨group, _, hc, hm⟩ := of_parseGroups hrp hr
    refine beneath_of_splice ?_ hc hm
    intro _ _ hf
    cases hf
  | succ levels ih =>
    refine .logic fun mem hr => ?_
    obtain ⟨group, _, hc, hm⟩ := of_parseGroups hrp hr
    exact beneath_of_splice (fun _ _ hn => ih hn) hc hm

theorem beneath_of_parseRule {line : Text} {rs : List (Parsed Leaf)} {ad : Text}
    (hp : parseRule build line = .ok (.logic kind rs ad)) : ∀ rule ∈ rs, Beneath build rule := by
  rcases (parseRuleWith_eq_ok hp).2 with ⟨hl, _⟩ | ⟨_, _, _, _, _, _, hlp⟩
  · obtain ⟨_, _, _, _, ⟨_, _, hf⟩ | ⟨_, _, _, _, _, hpa⟩⟩ := parseLeafRule_eq_ok hl
    · cases hf
    · cases hpa
  · cases beneath_of_parseLogicRule hlp with
    | logic each => exact each

open LogicTree

theorem fits_of_parse_line {cs : List (LogicTree build)} {ad : Text}
    (hw : Within maxLogicDepth (node kind cs)) (ht : trim ad = ad) (ne : ad ≠ [])
    (hf : comma ∉ ad) (hsh : ((node kind cs).line ad).length ≤ maxRuleLineLen)
    (hp : parseRule build ((node kind cs).line ad) = .ok rule) : ∀ c ∈ cs, c.Fits := by
  intro c hm
  cases hw with
  | node hs hsi each =>
    rw [parseRule, maxLogicDepth, parseRuleDepth_line hs
      (fun c hm => (each c hm).balanced) ht ne hf hsh] at hp
    obtain ⟨_, hg, _⟩ := bind_eq_ok.mp hp
    obtain ⟨rule, hc⟩ := parsed_of_parseGroups hg (mem_map_of_mem hm)
    exact fits_of_parse hc

/-- The line of a tree is parsed to a rule with its adapter and its value where its groups leave
room for the placeholder; nothing beneath a logic rule matches everything or has an empty
payload. -/
theorem parseRule_line_iff {kind : LogicType} {children : List (LogicTree build)} {adapter : Text}
    (within : Within maxLogicDepth (node kind children)) (trimmed : trim adapter = adapter)
    (nonempty : adapter ≠ []) (free : comma ∉ adapter)
    (short : ((node kind children).line adapter).length ≤ maxRuleLineLen) :
    ((∃ rules, parseRule build ((node kind children).line adapter) = .ok (.logic kind rules adapter) ∧
      ∀ matchesLeaf, (Parsed.logic kind rules adapter).matchMetadata matchesLeaf =
        (node kind children).value matchesLeaf) ↔ ∀ child ∈ children, child.Fits) ∧
    ∀ line kind rules adapter, parseRule build line = .ok (.logic kind rules adapter) →
      ∀ rule ∈ rules, Beneath build rule := by
  refine ⟨⟨?_, ?_⟩, fun _ _ _ _ => beneath_of_parseRule⟩
  · rintro ⟨rules, hp, _⟩
    exact fits_of_parse_line within trimmed nonempty free short hp
  · intro hf
    have hv := matchMetadata_toParsed within
    cases within with
    | node hs hsi each =>
      have hp := parse_line hs hsi (fun child hm => (each child hm).balanced)
        trimmed nonempty free short fun child hm => parse_inner (each child hm) (hf child hm)
      rw [toParsed] at hp
      refine ⟨_, hp, fun matchesLeaf => ?_⟩
      rw [← hv matchesLeaf adapter, toParsed]

end Trees

section Keywords

open LogicTree

/-- Rules of every type, by type and payload. -/
def typedRule (type payload _adapter : Text) (_flag : Option Text) : Except Text (Text × Text) :=
  .ok (type, payload)

def keywordType : Text := ofString "DOMAIN-KEYWORD"

/-- A keyword of `count + 1` letters. -/
def letters (count : Nat) : Text :=
  replicate (count + 1) 0x61

theorem mem_letters {n : Nat} {b : UInt8} (hm : b ∈ letters n) : b = 0x61 :=
  eq_of_mem_replicate hm

theorem comma_notMem_letters (n : Nat) : comma ∉ letters n :=
  fun hm => absurd (mem_letters hm) (by decide)

theorem trim_append_letters (front : Text) (n : Nat)
    (hs : Text.Stops whitespace (front ++ letters n)) :
    trim (front ++ letters n) = front ++ letters n := by
  have hc := @trim_of_cut [] (front ++ letters n) [] .nil .nil (by rwa [append_nil]) ?_
  · rwa [nil_append, append_nil] at hc
  · rw [letters, reverse_append, reverse_replicate, replicate_succ]
    exact stops_of_head (by decide)

theorem trim_letters (n : Nat) : trim (letters n) = letters n :=
  trim_append_letters [] n (stops_of_head (by decide))

theorem keywordType_free : ∀ b ∈ keywordType, b ≠ openParen ∧ b ≠ closeParen := by
  decide +kernel

theorem trim_keywordType : trim keywordType = keywordType := by
  decide +kernel

theorem splitN_keyword (n : Nat) :
    splitN 3 (keywordType ++ comma :: letters n) comma = [keywordType, letters n] := by
  rw [splitN, splitOnce_append (by decide)]
  simp [splitN, splitOnce, comma_notMem_letters]

theorem splice_keyword (n : Nat) :
    spliceInnerAdapter (trim (keywordType ++ comma :: letters n)) =
      keywordType ++ comma :: (letters n ++ comma :: innerPlaceholder) := by
  have ht := trim_append_letters (keywordType ++ [comma]) n (stops_of_head (by decide))
  rw [append_assoc, singleton_append] at ht
  have hk : (LogicType.ofName (trim keywordType)).isSome ≠ true := by decide +kernel
  rw [ht, spliceInnerAdapter, splitOnce_append (by decide), any_some, if_neg hk, splitN_keyword]
  dsimp only
  rw [trim_keywordType, trim_letters]
  simp

def keywordLeaf (count : Nat) : LeafText typedRule where
  text := keywordType ++ comma :: letters count
  type := keywordType
  payload := letters count
  flags := none
  rule := .leaf (keywordType, letters count)
  fields := splitN_keyword count
  notMatch := by decide +kernel
  nonempty := by
    rw [trim_letters]
    exact cons_ne_nil _ _
  unflagged := fun _ => rfl
  notLogic := by decide +kernel
  balanced := by
    refine .of_free fun byte member => ?_
    rcases mem_append.mp member with inType | inRest
    · exact keywordType_free byte inType
    · rcases mem_cons.mp inRest with rfl | inLetters
      · decide
      · rw [mem_letters inLetters]
        decide
  parsed := by
    rw [splice_keyword, parseLeafRule, splitN, splitOnce_append (by decide)]
    dsimp only
    rw [splitN, splitOnce_append (comma_notMem_letters count)]
    dsimp only
    rw [trim_keywordType, trim_letters]
    rfl

theorem size_keyword (n : Nat) : (leaf (keywordLeaf n)).size = n + 16 := by
  have hl : keywordType.length = 14 := rfl
  change (trim keywordType).length + (trim (letters n)).length + 1 + 0 = _
  rw [trim_keywordType, trim_letters, letters, length_replicate]
  omega

theorem length_line_keyword (kind : LogicType) (n : Nat) :
    ((node kind [leaf (keywordLeaf n)]).line (ofString "P")).length =
      kind.name.length + n + 23 := by
  have hl : keywordType.length = 14 ∧ (ofString "P").length = 1 := ⟨rfl, rfl⟩
  rw [line, render_node, map_singleton, render, joinGroups, keywordLeaf]
  simp only [length_append, length_cons, length_nil, letters, length_replicate]
  omega

theorem within_keyword (kind : LogicType) (n : Nat) :
    Within maxLogicDepth (node kind [leaf (keywordLeaf n)]) :=
  .node (by simp) (fun _ => rfl) (by simpa using .leaf _ _)

/-- A line within the bound whose only group does not leave room for the placeholder. -/
theorem long_keyword_refused :
    Within maxLogicDepth (node .and [leaf (keywordLeaf 65499)]) ∧
      ((node .and [leaf (keywordLeaf 65499)]).line (ofString "P")).length ≤ maxRuleLineLen ∧
      ¬ ∃ rule, parseRule typedRule ((node .and [leaf (keywordLeaf 65499)]).line (ofString "P")) =
        .ok rule := by
  have hw := within_keyword .and 65499
  have hs : ((node .and [leaf (keywordLeaf 65499)]).line (ofString "P")).length ≤
      maxRuleLineLen := by
    rw [length_line_keyword]
    decide
  refine ⟨hw, hs, ?_⟩
  rintro ⟨rule, hp⟩
  have hf := fits_of_parse_line hw (by decide +kernel) (by decide) (by decide) hs hp
    _ mem_cons_self
  rw [Fits, size_keyword] at hf
  exact absurd hf (by decide)

/-- A disjunction with a negation in it, and a leaf. -/
def nestedOperands : List (LogicTree typedRule) :=
  [node .or [leaf (keywordLeaf 0), node .not [leaf (keywordLeaf 1)]], leaf (keywordLeaf 2)]

theorem nested_keywords_parsed :
    ∃ rules, parseRule typedRule ((node .and nestedOperands).line (ofString "P")) =
        .ok (.logic .and rules (ofString "P")) ∧
      ∀ matchesLeaf, (Parsed.logic .and rules (ofString "P")).matchMetadata matchesLeaf =
        (node .and nestedOperands).value matchesLeaf := by
  have within : Within maxLogicDepth (node .and nestedOperands) := by
    refine .node (by simp [nestedOperands]) nofun ?_
    simp only [nestedOperands, forall_mem_cons, not_mem_nil, false_implies, implies_true, and_true]
    refine ⟨.node (by simp) nofun ?_, .leaf _ _⟩
    simp only [forall_mem_cons, not_mem_nil, false_implies, implies_true, and_true]
    exact ⟨.leaf _ _, .node (by simp) (fun _ => rfl) (by simpa using .leaf _ _)⟩
  have short : ((node .and nestedOperands).line (ofString "P")).length ≤ maxRuleLineLen := by
    simp only [line, nestedOperands, render_node, map_cons, map_nil, render]
    decide +kernel
  refine (parseRule_line_iff within (by decide +kernel) (by decide) (by decide) short).1.mpr ?_
  simp only [nestedOperands, forall_mem_cons, not_mem_nil, false_implies, implies_true, and_true]
  constructor
  · simp only [Fits, LogicTree.size, render_node, map_cons, map_nil, render]
    decide +kernel
  · rw [Fits, size_keyword]
    decide

end Keywords

end MeowRs.RuleLine
