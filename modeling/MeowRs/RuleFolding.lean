import MeowRs.RuleOps

/-!
# Constant folding

A predicate is folded away only when no connection can make it true on this platform, or when every
connection does.  So a folded tree accepts what the tree accepts.
-/

namespace MeowRs

open List

variable {runtime : Runtime} {md : Metadata}

section Predicates

/-- A connection has a process only where something can have supplied it. -/
def Metadata.Supplied (runtime : Runtime) (metadata : Metadata) : Prop :=
  runtime.platform.processInfoAvailable = false →
    metadata.process = [] ∧ metadata.processPath = []

theorem IpRangeSet.any_of_isEmpty {rs : IpRangeSet} (empty : rs.isEmpty = true)
    (ip : Option IpAddr) : Option.any rs.contains ip = false := by
  cases ip with
  | none => rfl
  | some ip => exact IpRangeSet.contains_of_isEmpty empty ip

theorem eqIgnoreAsciiCase_nil {name : Text} (ne : name.isEmpty = false) :
    Text.eqIgnoreAsciiCase [] name = false := by
  rw [Text.eqIgnoreAsciiCase, beq_eq_false_iff_ne]
  intro same
  have empty : name = [] := map_eq_nil_iff.mp same.symm
  rw [empty] at ne
  cases ne

theorem Predicate.accepts_of_never (supplied : md.Supplied runtime) {predicate : Predicate runtime}
    (never : predicate.neverMatches = true) : predicate.accepts md = false := by
  cases predicate with
  | uid uid =>
    rw [neverMatches, Bool.not_eq_true'] at never
    rw [accepts, never, Bool.false_and]
  | ipRanges set src => exact IpRangeSet.any_of_isEmpty never _
  | processPath op =>
    rw [neverMatches, Bool.not_eq_true'] at never
    rw [accepts, (supplied never).2, processPathMatches.eq_def]
    rfl
  | processName name =>
    rw [neverMatches, Bool.and_eq_true, Bool.not_eq_true', Bool.not_eq_true'] at never
    rw [accepts, (supplied never.1).1]
    exact eqIgnoreAsciiCase_nil never.2
  | _ => exact absurd never nofun

end Predicates

section Folding

namespace RuleOp

theorem allMatchOps_eq (ops : List (RuleOp runtime)) :
    allMatchOps md ops = ops.all (matchesOp md) := by
  induction ops with
  | nil => rfl
  | cons op ops ih => rw [allMatchOps, ih, all_cons]

theorem anyMatchesOp_eq (ops : List (RuleOp runtime)) :
    anyMatchesOp md ops = ops.any (matchesOp md) := by
  induction ops with
  | nil => rfl
  | cons op ops ih => rw [anyMatchesOp, ih, any_cons]

theorem induction {holds : RuleOp runtime → Prop} (test : ∀ predicate, holds (.test predicate))
    (allOf : ∀ cs, (∀ c ∈ cs, holds c) → holds (.allOf cs))
    (anyOf : ∀ cs, (∀ c ∈ cs, holds c) → holds (.anyOf cs))
    (notOp : ∀ c, holds c → holds (.notOp c)) (trieOwned : holds .trieOwned)
    (fallback : holds .fallback) (op : RuleOp runtime) : holds op :=
  @RuleOp.rec runtime holds (fun ops => ∀ op ∈ ops, holds op) test
    (fun cs each => allOf cs each) (fun cs each => anyOf cs each)
    notOp trieOwned fallback (nofun)
    (fun _ _ fst each => forall_mem_cons.mpr ⟨fst, each⟩) op

end RuleOp

variable {cs : List (RuleOp runtime)}

def Folded.accepts (metadata : Metadata) : Folded runtime → Bool
  | .never => false
  | .always => true
  | .op folded => folded.matchesOp metadata

theorem Folded.accepts_conjunction (ops : List (RuleOp runtime)) :
    (Folded.conjunction ops).accepts md = ops.all (RuleOp.matchesOp md) := by
  match ops with
  | [] => rfl
  | [c] => simp [conjunction, accepts]
  | fst :: snd :: rest =>
    rw [conjunction, accepts, RuleOp.matchesOp, RuleOp.allMatchOps_eq]
    all_goals simp

theorem Folded.accepts_disjunction (ops : List (RuleOp runtime)) :
    (Folded.disjunction ops).accepts md = ops.any (RuleOp.matchesOp md) := by
  match ops with
  | [] => rfl
  | [c] => simp [disjunction, accepts]
  | fst :: snd :: rest =>
    rw [disjunction, accepts, RuleOp.matchesOp, RuleOp.anyMatchesOp_eq]
    all_goals simp

theorem Folded.accepts_negation (folded : Folded runtime) :
    folded.negation.accepts md = !folded.accepts md := by
  cases folded <;> rfl

section

variable (sound : ∀ c ∈ cs, (foldOp c).accepts md = c.matchesOp md)
include sound

theorem all_foldConjuncts :
    cs.all (RuleOp.matchesOp md) =
      match foldConjuncts cs with
      | some kept => kept.all (RuleOp.matchesOp md)
      | none => false := by
  induction cs with
  | nil => rfl
  | cons c cs ih =>
    rw [forall_mem_cons] at sound
    rw [all_cons, ih sound.2, ← sound.1, foldConjuncts]
    cases foldOp c with
    | never => rfl
    | always => rfl
    | op folded =>
      cases foldConjuncts cs with
      | none => simp
      | some kept => simp [Folded.accepts]

theorem any_foldDisjuncts :
    cs.any (RuleOp.matchesOp md) =
      match foldDisjuncts cs with
      | some kept => kept.any (RuleOp.matchesOp md)
      | none => true := by
  induction cs with
  | nil => rfl
  | cons c cs ih =>
    rw [forall_mem_cons] at sound
    rw [any_cons, ih sound.2, ← sound.1, foldDisjuncts]
    cases foldOp c with
    | never => rfl
    | always => rfl
    | op folded =>
      cases foldDisjuncts cs with
      | none => simp
      | some kept => simp [Folded.accepts]

end

/-- Folding keeps what a tree accepts. -/
theorem accepts_foldOp (supplied : md.Supplied runtime) (op : RuleOp runtime) :
    (foldOp op).accepts md = op.matchesOp md := by
  induction op using RuleOp.induction with
  | test predicate =>
    rw [foldOp]
    split
    · rename_i never
      exact (Predicate.accepts_of_never supplied never).symm
    · split
      · rename_i isMatch
        cases predicate <;> first | rfl | exact absurd isMatch nofun
      · rfl
  | allOf cs ih =>
    rw [foldOp, RuleOp.matchesOp, RuleOp.allMatchOps_eq, all_foldConjuncts ih]
    cases foldConjuncts cs with
    | none => rfl
    | some kept => exact Folded.accepts_conjunction kept
  | anyOf cs ih =>
    rw [foldOp, RuleOp.matchesOp, RuleOp.anyMatchesOp_eq, any_foldDisjuncts ih]
    cases foldDisjuncts cs with
    | none => rfl
    | some kept => exact Folded.accepts_disjunction kept
  | notOp c ih => rw [foldOp, RuleOp.matchesOp, Folded.accepts_negation, ih]
  | trieOwned => rfl
  | fallback => rfl

end Folding

end MeowRs
