import MeowRs.SimpleRules

/-!
# Rules

Simple rules, the logic rules over other rules, and references to blocks of rules.  The reference
semantics of a rule list: the first rule that matches with a usable target.
-/

namespace MeowRs

open List

inductive Rule (runtime : Runtime) where
  | simple (rule : SimpleRule runtime)
  | and (rules : List (Rule runtime)) (adapter : Text)
  | or (rules : List (Rule runtime)) (adapter : Text)
  | not (rule : Rule runtime) (adapter : Text)
  | subRule (blockName : Text) (block : List (Rule runtime))

namespace Rule

variable {runtime : Runtime}

theorem induction {holds : Rule runtime → Prop} (simple : ∀ rule, holds (.simple rule))
    (and : ∀ rs ad, (∀ rule ∈ rs, holds rule) → holds (.and rs ad))
    (or : ∀ rs ad, (∀ rule ∈ rs, holds rule) → holds (.or rs ad))
    (not : ∀ rule ad, holds rule → holds (.not rule ad))
    (subRule : ∀ blockName block, (∀ rule ∈ block, holds rule) → holds (.subRule blockName block))
    (rule : Rule runtime) : holds rule :=
  @Rule.rec runtime holds (fun rs => ∀ rule ∈ rs, holds rule) simple
    (fun rs ad each => and rs ad each)
    (fun rs ad each => or rs ad each) not
    (fun blockName block each => subRule blockName block each)
    (nofun)
    (fun _ _ fst each => forall_mem_cons.mpr ⟨fst, each⟩) rule

mutual

def neverMatches : Rule runtime → Bool
  | .simple rule => rule.neverMatches
  | .and rules _ => anyNever rules
  | .or rules _ => allNever rules
  | .not _ _ => false
  | .subRule _ block => allNever block

def anyNever : List (Rule runtime) → Bool
  | [] => false
  | rule :: rules => neverMatches rule || anyNever rules

def allNever : List (Rule runtime) → Bool
  | [] => true
  | rule :: rules => neverMatches rule && allNever rules

end

mutual

def shouldResolveIp : Rule runtime → Bool
  | .simple rule => rule.shouldResolveIp
  | .and rules _ => anyResolves rules
  | .or rules _ => anyResolves rules
  | .not rule _ => !neverMatches rule && shouldResolveIp rule
  | .subRule _ block => anyResolves block

/-- Whether a rule that can match demands a resolved address. -/
def anyResolves : List (Rule runtime) → Bool
  | [] => false
  | rule :: rules => !neverMatches rule && shouldResolveIp rule || anyResolves rules

end

mutual

def matchMetadata (metadata : Metadata) : Rule runtime → Bool
  | .simple rule => rule.matchMetadata metadata
  | .and rules _ => allMatch metadata rules
  | .or rules _ => anyMatch metadata rules
  | .not rule _ => !matchMetadata metadata rule
  | .subRule _ block =>
    if anyResolves block && !metadata.resolved then false else anyMatch metadata block

def allMatch (metadata : Metadata) : List (Rule runtime) → Bool
  | [] => true
  | rule :: rules => matchMetadata metadata rule && allMatch metadata rules

def anyMatch (metadata : Metadata) : List (Rule runtime) → Bool
  | [] => false
  | rule :: rules => matchMetadata metadata rule || anyMatch metadata rules

end

mutual

/-- The target of a rule that matches; the one of a block is the target of the first inner rule that
matches and is not to be passed over. -/
def matchAndResolve (metadata : Metadata) (probe : TargetProbe) : Rule runtime → Option Text
  | .subRule _ block =>
    if anyResolves block && !metadata.resolved then none
    else resolveBlock metadata probe block
  | .simple rule => if rule.matchMetadata metadata then some rule.adapter else none
  | .and rules adapter => if allMatch metadata rules then some adapter else none
  | .or rules adapter => if anyMatch metadata rules then some adapter else none
  | .not rule adapter => if matchMetadata metadata rule then none else some adapter

def resolveBlock (metadata : Metadata) (probe : TargetProbe) : List (Rule runtime) → Option Text
  | [] => none
  | rule :: rules =>
    match matchAndResolve metadata probe rule with
    | some target =>
      if target = Text.ofString "PASS-RULE" || probe.isPassRule target then
        resolveBlock metadata probe rules
      else some target
    | none => resolveBlock metadata probe rules

end

mutual

def leaves : Rule runtime → List (SimpleRule runtime)
  | .simple rule => [rule]
  | .and rules _ => leavesOf rules
  | .or rules _ => leavesOf rules
  | .not rule _ => leaves rule
  | .subRule _ block => leavesOf block

def leavesOf : List (Rule runtime) → List (SimpleRule runtime)
  | [] => []
  | rule :: rules => leaves rule ++ leavesOf rules

end

section Lists

variable (md : Metadata) (rs : List (Rule runtime))

theorem anyNever_eq : anyNever rs = rs.any neverMatches := by
  induction rs with
  | nil => rfl
  | cons rule rs ih => rw [anyNever, ih, any_cons]

theorem allNever_eq : allNever rs = rs.all neverMatches := by
  induction rs with
  | nil => rfl
  | cons rule rs ih => rw [allNever, ih, all_cons]

theorem allMatch_eq : allMatch md rs = rs.all (matchMetadata md) := by
  induction rs with
  | nil => rfl
  | cons rule rs ih => rw [allMatch, ih, all_cons]

theorem anyMatch_eq : anyMatch md rs = rs.any (matchMetadata md) := by
  induction rs with
  | nil => rfl
  | cons rule rs ih => rw [anyMatch, ih, any_cons]

theorem leavesOf_eq : leavesOf rs = rs.flatMap leaves := by
  induction rs with
  | nil => rfl
  | cons rule rs ih => rw [leavesOf, ih, flatMap_cons]

end Lists

end Rule

end MeowRs
