import MeowRs.Results
import MeowRs.TextRuns

/-!
# Rule lines

A rule line is a type, a payload, an adapter and flags, separated by commas; the payload of `AND`,
`OR` and `NOT` is a list of lines in parentheses, without adapters of their own.  The rules of most
types are made by constructors that are a parameter here; what is followed in full is how a line is
taken apart.
-/

namespace MeowRs

open List Option Text Results

namespace Text

/-- Split a text at a byte, into at most `count` parts. -/
def splitN : Nat → Text → UInt8 → List Text
  | 0, _, _ => []
  | 1, text, _ => [text]
  | count + 2, text, separator =>
    match splitOnce text separator with
    | none => [text]
    | some (part, rest) => part :: splitN (count + 1) rest separator

end Text

namespace RuleLine

def comma : UInt8 := 0x2c

def openParen : UInt8 := 0x28

def closeParen : UInt8 := 0x29

def maxLogicDepth : Nat := 64

def maxRuleLineLen : Nat := 64 * 1024

inductive LogicType where
  | and
  | or
  | not
  deriving DecidableEq, Repr

namespace LogicType

def name : LogicType → Text
  | and => ofString "AND"
  | or => ofString "OR"
  | not => ofString "NOT"

def ofName (name : Text) : Option LogicType :=
  let upper := toAsciiUppercase name
  if upper = ofString "AND" then some and
  else if upper = ofString "OR" then some or
  else if upper = ofString "NOT" then some not
  else none

def report (kind : LogicType) (message : Text) : Text :=
  kind.name ++ ofString " rule: " ++ message

end LogicType

/-- A parsed rule; `Leaf` are the rules of the types without a case of their own. -/
inductive Parsed (Leaf : Type) where
  | final (adapter : Text)
  | geoSite (payload adapter : Text)
  | leaf (leaf : Leaf)
  | logic (kind : LogicType) (rules : List (Parsed Leaf)) (adapter : Text)

def splitOnceTrimmed (text : Text) (separator : UInt8) : Option (Text × Text) :=
  (splitOnce text separator).map fun (left, right) => (trim left, trimStart right)

/-- The text up to the parenthesis that closes a group, `depth` groups further in, and the text
after it. -/
def closeGroup : Nat → Text → Option (Text × Text)
  | _, [] => none
  | depth, byte :: rest =>
    if byte = openParen then
      (closeGroup (depth + 1) rest).map fun (inside, after) => (byte :: inside, after)
    else if byte = closeParen then
      match depth with
      | 0 => some ([], rest)
      | depth + 1 => (closeGroup depth rest).map fun (inside, after) => (byte :: inside, after)
    else (closeGroup depth rest).map fun (inside, after) => (byte :: inside, after)

def firstCharacter : Text → Text
  | [] => []
  | first :: rest => first :: rest.takeWhile isContinuation

/-- The contents of the groups of a payload, at most `fuel` of them. -/
def groupsWithin : Nat → Text → Except Text (List Text)
  | 0, _ => .ok []
  | fuel + 1, text =>
    match text.dropWhile fun byte => byte = 0x20 || byte = comma with
    | [] => .ok []
    | byte :: rest =>
      if byte = openParen then
        match closeGroup 0 rest with
        | none => .error (ofString "unbalanced parentheses in logic payload")
        | some (group, after) => (groupsWithin fuel after).map (group :: ·)
      else
        .error (ofString "expected '(' starting a group, got '" ++
          firstCharacter (byte :: rest) ++ ofString "'")

def splitLogicGroups (inner : Text) : Except Text (List Text) :=
  groupsWithin (inner.length + 1) inner

def innerPlaceholder : Text := ofString "LOGIC-INNER-PLACEHOLDER"

/-- A line of a group with an adapter put in. -/
def spliceInnerAdapter (entry : Text) : Text :=
  if (splitOnce entry comma).any fun (type, _) =>
      (LogicType.ofName (trim type)).isSome then
    entry ++ [comma] ++ innerPlaceholder
  else
    match splitN 3 entry comma with
    | [type, payload] =>
      trim type ++ [comma] ++ trim payload ++ [comma] ++ innerPlaceholder
    | [type, payload, rest] =>
      trim type ++ [comma] ++ trim payload ++ [comma] ++ innerPlaceholder ++ [comma] ++
        trim rest
    | _ => entry

section Parser

variable {Leaf : Type}

/-- The line of a group, which must have a payload and must not match everything. -/
def checkGroup (kind : LogicType) (group : Text) : Except Text Unit :=
  let fields := splitN 3 group comma
  let first := trim (fields.getD 0 [])
  if first = ofString "MATCH" then
    .error (kind.report (ofString "MATCH is not allowed inside logic groups"))
  else if (trim (fields.getD 1 [])).isEmpty then
    .error (kind.report (ofString "'" ++ group ++ ofString "' has no payload"))
  else if first = ofString "DOMAIN-REGEX" ∧ 2 < fields.length then
    .error (kind.report (first ++
      ofString " payloads containing commas are not supported inside logic groups"))
  else .ok ()

def parseGroups (kind : LogicType) (inner : Text → Except Text (Parsed Leaf)) :
    List Text → Except Text (List (Parsed Leaf))
  | [] => .ok []
  | group :: groups => do
      checkGroup kind group
      let rule ← inner (spliceInnerAdapter (trim group))
      let rules ← parseGroups kind inner groups
      .ok (rule :: rules)

def parseLogicRule (kind : LogicType) (rest : Text) (inner : Text → Except Text (Parsed Leaf)) :
    Except Text (Parsed Leaf) :=
  let rest := trimStart rest
  match rest with
  | [] => .error (kind.report (ofString "expected '(' after rule type, got: "))
  | byte :: body =>
    if byte = openParen then
      match closeGroup 0 body with
      | none => .error (kind.report (ofString "unbalanced parentheses"))
      | some (payload, after) =>
        match trimStart after with
        | [] => .error (kind.report (ofString "expected ',ADAPTER' after payload"))
        | mark :: tail =>
          if mark = comma then do
            let adapter := trim ((tail.splitOn comma).getLastD [])
            if adapter.isEmpty then .error (kind.report (ofString "missing adapter"))
            else
              let groups ← (splitLogicGroups payload).mapError kind.report
              if groups.isEmpty then .error (kind.report (ofString "empty payload"))
              else
                let rules ← parseGroups kind inner groups
                if kind = .not ∧ rules.length ≠ 1 then
                  .error (ofString "NOT rule requires exactly 1 inner rule, got " ++
                    decimal rules.length)
                else .ok (.logic kind rules adapter)
          else .error (kind.report (ofString "expected ',ADAPTER' after payload"))
    else .error (kind.report (ofString "expected '(' after rule type, got: " ++ rest))

variable (build : Text → Text → Text → Option Text → Except Text Leaf)

def parseLeafRule (line : Text) : Except Text (Parsed Leaf) :=
  match splitN 4 line comma with
  | [] => .error (ofString "invalid rule: " ++ line)
  | [_] => .error (ofString "invalid rule: " ++ line)
  | type :: second :: more =>
    let ruleType := trim type
    if ruleType = ofString "MATCH" then .ok (.final (trim second))
    else
      match more with
      | [] => .error (ofString "rule needs at least 3 parts: " ++ line)
      | adapter :: extra =>
        let payload := trim second
        if ruleType = ofString "GEOSITE" then
          if (trim ((payload.splitOn 0x40).headD [])).isEmpty then
            .error (ofString "GEOSITE rule requires a category name")
          else .ok (.geoSite payload (trim adapter))
        else (build ruleType payload (trim adapter) (extra.head?.map trim)).map .leaf

/-- A line whose logic rules are read by `logic`. -/
def parseRuleWith (logic : LogicType → Text → Except Text (Parsed Leaf)) (line : Text) :
    Except Text (Parsed Leaf) :=
  if maxRuleLineLen < line.length then
    .error (ofString "rule line exceeds " ++ decimal maxRuleLineLen ++ ofString " bytes")
  else
    match splitOnceTrimmed line comma with
    | none => parseLeafRule build line
    | some (type, rest) =>
      match LogicType.ofName type with
      | some kind => logic kind rest
      | none => parseLeafRule build line

/-- A line in which logic rules may be nested `levels` deep. -/
def parseRuleDepth : Nat → Text → Except Text (Parsed Leaf)
  | 0 => parseRuleWith build fun kind _ =>
    .error (kind.report (ofString "nesting exceeds " ++ decimal maxLogicDepth ++
      ofString " levels"))
  | levels + 1 => parseRuleWith build fun kind rest =>
    parseLogicRule kind rest (parseRuleDepth levels)

def parseRule (line : Text) : Except Text (Parsed Leaf) :=
  parseRuleDepth build maxLogicDepth line

end Parser

section Occurrences

variable {line p : Text} {kind : LogicType}

def geositeType : Text := ofString "GEOSITE"

theorem closeGroup_eq_some {depth : Nat} {text mid aft : Text}
    (hc : closeGroup depth text = some (mid, aft)) : text = mid ++ closeParen :: aft := by
  induction text generalizing depth mid with
  | nil => cases hc
  | cons b rest ih =>
    unfold closeGroup at hc
    split at hc
    · obtain ⟨⟨inner, _⟩, hi, hs⟩ := map_eq_some_iff.mp hc
      cases hs
      rw [ih hi]
      rfl
    · split at hc
      · rename_i close
        cases depth with
        | zero =>
          cases hc
          rw [close]
          rfl
        | succ depth =>
          obtain ⟨⟨inner, _⟩, hi, hs⟩ := map_eq_some_iff.mp hc
          cases hs
          rw [ih hi]
          rfl
      · obtain ⟨⟨inner, _⟩, hi, hs⟩ := map_eq_some_iff.mp hc
        cases hs
        rw [ih hi]
        rfl

variable {Leaf : Type} {build : Text → Text → Text → Option Text → Except Text Leaf}

theorem of_parseGroups {inner : Text → Except Text (Parsed Leaf)}
    {gs : List Text} {rs : List (Parsed Leaf)} {rule : Parsed Leaf}
    (hp : parseGroups kind inner gs = .ok rs) (hm : rule ∈ rs) :
    ∃ g ∈ gs, checkGroup kind g = .ok () ∧
      inner (spliceInnerAdapter (trim g)) = .ok rule := by
  induction gs generalizing rs with
  | nil =>
    cases hp
    cases hm
  | cons g gs ih =>
    obtain ⟨_, hc, hp⟩ := bind_eq_ok.mp hp
    obtain ⟨fst, hfp, hp⟩ := bind_eq_ok.mp hp
    obtain ⟨os, ho, hs⟩ := bind_eq_ok.mp hp
    cases hs
    rcases mem_cons.mp hm with rfl | hm
    · exact ⟨g, mem_cons_self, hc, hfp⟩
    · obtain ⟨hit, hg, hf⟩ := ih ho hm
      exact ⟨hit, mem_cons_of_mem g hg, hf⟩

theorem parseLogicRule_eq_ok {rest : Text} {rule : Parsed Leaf}
    {inner : Text → Except Text (Parsed Leaf)}
    (parsed : parseLogicRule kind rest inner = .ok rule) :
    ∃ mid aft gs rs ad, trimStart rest = openParen :: (mid ++ closeParen :: aft) ∧
      splitLogicGroups mid = .ok gs ∧ parseGroups kind inner gs = .ok rs ∧
      rule = .logic kind rs ad := by
  unfold parseLogicRule at parsed
  dsimp only at parsed
  split at parsed
  · cases parsed
  · rename_i b body start
    split at parsed
    · rename_i isOpen
      split at parsed
      · cases parsed
      · rename_i mid aft hcl
        split at parsed
        · cases parsed
        · split at parsed
          · split at parsed
            · cases parsed
            · obtain ⟨gs, split, parsed⟩ := bind_eq_ok.mp parsed
              split at parsed
              · cases parsed
              · obtain ⟨rs, rulesParsed, parsed⟩ := bind_eq_ok.mp parsed
                split at parsed <;> cases parsed
                refine ⟨mid, aft, gs, rs, _, ?_, mapError_eq_ok.mp split, rulesParsed, rfl⟩
                rw [start, isOpen, closeGroup_eq_some hcl]
          · cases parsed
    · cases parsed

theorem splitN_three_cases (text : Text) (sep : UInt8) :
    (sep ∉ text ∧ splitN 3 text sep = [text]) ∨ (∃ fst snd, text = fst ++ sep :: snd ∧ sep ∉ fst ∧
      sep ∉ snd ∧ splitN 3 text sep = [fst, snd]) ∨
    ∃ fst snd rest, text = fst ++ sep :: (snd ++ sep :: rest) ∧ sep ∉ fst ∧ sep ∉ snd ∧
      splitN 3 text sep = [fst, snd, rest] := by
  have free : ∀ {text : Text}, splitOnce text sep = none → sep ∉ text := by
    intro text split
    unfold splitOnce at split
    split at split
    · cases split
    · assumption
  rw [splitN]
  cases split : splitOnce text sep with
  | none => exact .inl ⟨free split, rfl⟩
  | some ps =>
    obtain ⟨fst, more⟩ := ps
    obtain ⟨rfl, firstFree⟩ := splitOnce_eq_some split
    dsimp only
    rw [splitN]
    cases splitMore : splitOnce more sep with
    | none => exact .inr (.inl ⟨fst, more, rfl, firstFree, free splitMore, rfl⟩)
    | some ps =>
      obtain ⟨snd, rest⟩ := ps
      obtain ⟨rfl, secondFree⟩ := splitOnce_eq_some splitMore
      exact .inr (.inr ⟨fst, snd, rest, rfl, firstFree, secondFree, rfl⟩)

variable (build) in
/-- What a line that is no logic is parsed to, by the parts before its first two commas. -/
inductive ParsesTo (type field : Text) : Parsed Leaf → Prop
  | geoSite (adapter : Text) (isGeosite : trim type = geositeType) :
    ParsesTo type field (.geoSite (trim field) adapter)
  | leaf {adapter : Text} {flag : Option Text} {leaf : Leaf}
    (built : build (trim type) (trim field) adapter flag = .ok leaf) :
    ParsesTo type field (.leaf leaf)

theorem parseLeafRule_eq_ok {line : Text} {rule : Parsed Leaf}
    (parsed : parseLeafRule build line = .ok rule) :
    ∃ type more, line = type ++ comma :: more ∧ comma ∉ type ∧
      ((trim type = ofString "MATCH" ∧ ∃ ad, rule = .final ad) ∨
      (trim type ≠ ofString "MATCH" ∧ ∃ f rest, more = f ++ comma :: rest ∧
        comma ∉ f ∧ ParsesTo build type f rule)) := by
  unfold parseLeafRule at parsed
  rw [splitN] at parsed
  cases split : splitOnce line comma with
  | none =>
    rw [split] at parsed
    cases parsed
  | some ps =>
    obtain ⟨type, more⟩ := ps
    obtain ⟨rfl, hty⟩ := splitOnce_eq_some split
    rw [split] at parsed
    dsimp only at parsed
    refine ⟨type, more, rfl, hty, ?_⟩
    rcases splitN_three_cases more comma with ⟨_, splitMore⟩ | ⟨f, rest, rfl, fieldFree, _,
      splitMore⟩ | ⟨f, ad, rest, rfl, fieldFree, _, splitMore⟩
    · rw [splitMore] at parsed
      dsimp only at parsed
      split at parsed <;> cases parsed
      exact .inl ⟨by assumption, _, rfl⟩
    all_goals
      rw [splitMore] at parsed
      dsimp only at parsed
      split at parsed
      · cases parsed
        exact .inl ⟨by assumption, _, rfl⟩
      · refine .inr ⟨by assumption, f, _, rfl, fieldFree, ?_⟩
        split at parsed
        · rename_i isGeosite
          split at parsed <;> cases parsed
          exact .geoSite _ isGeosite
        · obtain ⟨leaf, hb, rfl⟩ := map_eq_ok.mp parsed
          exact .leaf hb

theorem parseRuleWith_eq_ok {logic : LogicType → Text → Except Text (Parsed Leaf)}
    {line : Text} {rule : Parsed Leaf} (parsed : parseRuleWith build logic line = .ok rule) :
    line.length ≤ maxRuleLineLen ∧ ((parseLeafRule build line = .ok rule ∧
        ∀ type rest, line = type ++ comma :: rest → comma ∉ type →
          LogicType.ofName (trim type) = none) ∨
      ∃ type rest kind, line = type ++ comma :: rest ∧ comma ∉ type ∧
        LogicType.ofName (trim type) = some kind ∧
        logic kind (trimStart rest) = .ok rule) := by
  unfold parseRuleWith at parsed
  split at parsed
  · cases parsed
  · refine ⟨le_of_not_gt (by assumption), ?_⟩
    rw [splitOnceTrimmed] at parsed
    cases split : splitOnce line comma with
    | none =>
      rw [split] at parsed
      refine .inl ⟨parsed, fun type rest cut free => ?_⟩
      rw [cut, splitOnce_append free] at split
      cases split
    | some ps =>
      obtain ⟨type, rest⟩ := ps
      obtain ⟨cut, free⟩ := splitOnce_eq_some split
      rw [split] at parsed
      dsimp only [map_some] at parsed
      cases isLogic : LogicType.ofName (trim type) with
      | none =>
        rw [isLogic] at parsed
        refine .inl ⟨parsed, fun o rest otherCut otherFree => ?_⟩
        obtain ⟨rfl, _⟩ := cut_inj free otherFree (cut.symm.trans otherCut)
        exact isLogic
      | some kind =>
        rw [isLogic] at parsed
        exact .inr ⟨type, rest, kind, cut, free, isLogic, parsed⟩

theorem exists_of_trim_eq {text mid : Text} (ht : trim text = mid) :
    ∃ front back, text = front ++ mid ++ back ∧ Run whitespace front ∧ Run whitespace back := by
  obtain ⟨front, back, hf, hb, hc, _, _⟩ := trim_spec text
  rw [ht] at hc
  exact ⟨front, back, hc.symm, hf, hb⟩

def flagText (flags : Option Text) : Text :=
  flags.elim [] (comma :: ·)

theorem spliceInnerAdapter_cases (e : Text) :
    (∃ type rest, e = type ++ comma :: rest ∧ comma ∉ type ∧ (LogicType.ofName (trim type)).isSome ∧
      spliceInnerAdapter e = e ++ comma :: innerPlaceholder) ∨
    (comma ∉ e ∧ spliceInnerAdapter e = e) ∨
    ∃ type f flags, e = type ++ comma :: (f ++ flagText flags) ∧ comma ∉ type ∧
      comma ∉ f ∧ LogicType.ofName (trim type) = none ∧
      spliceInnerAdapter e = trim type ++ comma :: (trim f ++ comma ::
        (innerPlaceholder ++ flagText (flags.map trim))) := by
  rw [spliceInnerAdapter]
  split
  · rename_i isLogic
    obtain ⟨⟨type, rest⟩, split, hasKind⟩ := (any_eq_true _ _).mp isLogic
    obtain ⟨cut, free⟩ := splitOnce_eq_some split
    exact .inl ⟨type, rest, cut, free, hasKind, by simp⟩
  · rename_i noLogic
    rcases splitN_three_cases e comma with ⟨noComma, split⟩ | ⟨type, f, cut, hty,
      fieldFree, split⟩ | ⟨type, f, flags, cut, hty, fieldFree, split⟩
    · rw [split]
      exact .inr (.inl ⟨noComma, rfl⟩)
    all_goals
      rw [split]
      have noKind : LogicType.ofName (trim type) = none := by
        rw [cut, splitOnce_append hty, any_some] at noLogic
        simpa using noLogic
    · exact .inr (.inr ⟨type, f, none, by simp [cut, flagText], hty, fieldFree, noKind,
        by simp [flagText]⟩)
    · exact .inr (.inr ⟨type, f, some flags, cut, hty, fieldFree, noKind, by simp [flagText]⟩)

end Occurrences

end RuleLine

end MeowRs
