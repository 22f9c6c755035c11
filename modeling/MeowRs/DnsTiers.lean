import MeowRs.DnsCache

/-!
# The tiers of a DNS lookup

A lookup asks the servers of its policy, the main ones and the fallback ones in turn, until a pool
answers with an address.  A set without one is kept for the end, where it is returned if it is
definitive for the families that were asked for.  The set that is kept is the first one, definitive
or not.
-/

namespace MeowRs

namespace Dns

inductive FamilyAnswer where
  | answer (ips : List IpAddr) (ttl : Nat)
  | noData (ttl : Nat)
  | nxDomain (ttl : Nat)
  | failed

structure FamilySet where
  v4 : Option FamilyAnswer
  v6 : Option FamilyAnswer

namespace FamilyAnswer

def ips : FamilyAnswer → List IpAddr
  | answer ips _ => ips
  | _ => []

def isNegative : FamilyAnswer → Bool
  | noData _ | nxDomain _ => true
  | _ => false

end FamilyAnswer

namespace FamilySet

def hasPositive (set : FamilySet) : Bool :=
  set.v4.any (!·.ips.isEmpty) || set.v6.any (!·.ips.isEmpty)

def positiveIps (set : FamilySet) : List IpAddr :=
  [set.v4, set.v6].flatMap fun answer => answer.elim [] FamilyAnswer.ips

def isDefinitiveNegative (set : FamilySet) (want : QueryFamilies) : Bool :=
  if want.bits = 0 then false
  else
    !set.hasPositive && (!want.contains .ipv4 || set.v4.any FamilyAnswer.isNegative) &&
      (!want.contains .ipv6 || set.v6.any FamilyAnswer.isNegative)

end FamilySet

structure ClientError where
  message : Text
  isErrnoBacked : Bool

def preferErrno (prev next : Option ClientError) : Option ClientError :=
  match next with
  | none => prev
  | some next =>
    if prev.any ClientError.isErrnoBacked && !next.isErrnoBacked then prev else some next

/-- What `query_pool_set` returns. -/
abbrev PoolOutcome := Option FamilySet × Option ClientError

structure FallbackFilter where
  domainGated : Text → Bool
  ipGated : List IpAddr → Bool

/-- What the pools of a resolver would answer; a policy may own the names it matches. -/
structure Tiers where
  policyMatch : Text → Option (PoolOutcome × Bool)
  main : PoolOutcome
  fallback : Option PoolOutcome
  fallbackFilter : Option FallbackFilter

namespace Tiers

variable (tiers : Tiers)

def queryFallbackSet : PoolOutcome :=
  tiers.fallback.getD (none, none)

/-- A tier before the fallback servers: it ends the lookup with an address, or hands the set that is
kept and the error on. -/
def primary (outcome : PoolOutcome) (next : PoolOutcome → PoolOutcome) (kept : PoolOutcome) :
    PoolOutcome :=
  let upstreamErr := preferErrno kept.2 outcome.2
  match outcome.1 with
  | none => next (kept.1, upstreamErr)
  | some set =>
    if set.hasPositive then
      if tiers.fallbackFilter.any (·.ipGated set.positiveIps) then
        (tiers.queryFallbackSet.1, preferErrno tiers.queryFallbackSet.2 upstreamErr)
      else (some set, upstreamErr)
    else next (kept.1.or (some set), upstreamErr)

def lastTier (kept : PoolOutcome) : PoolOutcome :=
  let upstreamErr := preferErrno kept.2 tiers.queryFallbackSet.2
  match tiers.queryFallbackSet.1 with
  | none => (kept.1, upstreamErr)
  | some set =>
    if set.hasPositive then (some set, upstreamErr) else (kept.1.or (some set), upstreamErr)

def pipelineInner (host : Text) : PoolOutcome :=
  let global := tiers.primary tiers.main tiers.lastTier
  match tiers.policyMatch host with
  | some (outcome, true) => outcome
  | matched =>
    if tiers.fallbackFilter.any (·.domainGated host) then tiers.queryFallbackSet
    else
      match matched with
      | some (outcome, _) => tiers.primary outcome global (none, none)
      | none => global (none, none)

end Tiers

def collapseOutcome (outcome : PoolOutcome) (want : QueryFamilies) :
    Except ClientError (Option FamilySet) :=
  if outcome.1.any fun set => set.hasPositive || set.isDefinitiveNegative want then .ok outcome.1
  else
    match outcome.2 with
    | some error => .error error
    | none => .ok outcome.1

/-- The result of a lookup that nobody else has in flight. -/
def runPipeline (tiers : Tiers) (host : Text) (want : QueryFamilies) :
    Except ClientError (Option FamilySet) :=
  if want.bits = 0 then .ok none else collapseOutcome (tiers.pipelineInner host) want

namespace Tiers

/-- The sets that the tiers give, in the order in which they are asked. -/
def sets (tiers : Tiers) (host : Text) : List FamilySet :=
  ((tiers.policyMatch host).bind (·.1.1)).toList ++ tiers.main.1.toList ++
    tiers.queryFallbackSet.1.toList

/-- Without an address from any tier, the first definitive negative is the result. -/
def KeepsVerdict (tiers : Tiers) (host : Text) (want : QueryFamilies) : Prop :=
  (∀ set ∈ tiers.sets host, set.hasPositive = false) →
    ∀ verdict, (tiers.sets host).find? (·.isDefinitiveNegative want) = some verdict →
      runPipeline tiers host want = .ok (some verdict)

variable {tiers : Tiers} {host : Text} {want : QueryFamilies}

theorem primary_of_negative {outcome : PoolOutcome} {next : PoolOutcome → PoolOutcome}
    {kept : PoolOutcome} (negative : ∀ set ∈ outcome.1, set.hasPositive = false) :
    tiers.primary outcome next kept =
      next (kept.1.or outcome.1, preferErrno kept.2 outcome.2) := by
  obtain ⟨_ | set, error⟩ := outcome
  · simp [primary]
  · simp [primary, negative set rfl]

theorem lastTier_of_negative {kept : PoolOutcome}
    (negative : ∀ set ∈ tiers.queryFallbackSet.1, set.hasPositive = false) :
    (tiers.lastTier kept).1 = kept.1.or tiers.queryFallbackSet.1 := by
  unfold lastTier
  generalize tiers.queryFallbackSet = outcome at negative
  obtain ⟨_ | set, error⟩ := outcome
  · simp
  · simp [negative set rfl]

/-- Without an address the chain returns the first set of all. -/
theorem pipelineInner_fst (shared : ∀ outcome, tiers.policyMatch host ≠ some (outcome, true))
    (ungated : tiers.fallbackFilter.any (·.domainGated host) = false)
    (negative : ∀ set ∈ tiers.sets host, set.hasPositive = false) :
    (tiers.pipelineInner host).1 = (tiers.sets host).head? := by
  simp only [sets, List.mem_append, Option.mem_toList] at negative
  have main : ∀ set ∈ tiers.main.1, set.hasPositive = false :=
    fun set found => negative set (.inl (.inr found))
  have last : ∀ set ∈ tiers.queryFallbackSet.1, set.hasPositive = false :=
    fun set found => negative set (.inr found)
  unfold pipelineInner sets
  cases matched : tiers.policyMatch host with
  | none =>
    rw [ungated]
    simp only [Bool.false_eq_true, if_false, primary_of_negative main, lastTier_of_negative last]
    cases tiers.main.1 <;> cases tiers.queryFallbackSet.1 <;> rfl
  | some entry =>
    obtain ⟨outcome, exclusive⟩ := entry
    have policy : ∀ set ∈ outcome.1, set.hasPositive = false :=
      fun set found => negative set (.inl (.inl (by rw [matched]; exact found)))
    cases exclusive with
    | true => exact absurd matched (shared outcome)
    | false =>
      rw [ungated]
      simp only [Bool.false_eq_true, if_false, primary_of_negative policy,
        primary_of_negative main, lastTier_of_negative last, Option.bind_some]
      cases outcome.1 <;> cases tiers.main.1 <;> cases tiers.queryFallbackSet.1 <;> rfl

/-- A lookup keeps a definitive verdict exactly when the first tier with a set has it. -/
theorem keepsVerdict_iff (tiers : Tiers) (host : Text) (want : QueryFamilies)
    (shared : ∀ outcome, tiers.policyMatch host ≠ some (outcome, true))
    (ungated : tiers.fallbackFilter.any (·.domainGated host) = false) :
    tiers.KeepsVerdict host want ↔
      ((∀ set ∈ tiers.sets host, set.hasPositive = false) →
        (∃ set ∈ tiers.sets host, set.isDefinitiveNegative want = true) →
          ∃ set ∈ (tiers.sets host).head?, set.isDefinitiveNegative want = true) := by
  refine forall_congr' fun negative => ?_
  have first := pipelineInner_fst shared ungated negative
  unfold runPipeline collapseOutcome
  rw [first]
  generalize tiers.sets host = sets
  constructor
  · rintro keeps ⟨set, member, definitive⟩
    cases found : sets.find? (·.isDefinitiveNegative want) with
    | none => exact absurd definitive (List.find?_eq_none.mp found set member)
    | some verdict =>
      have isVerdict := List.find?_some found
      refine ⟨verdict, ?_, isVerdict⟩
      have result := keeps verdict found
      split at result
      · cases result
      split at result
      · exact Except.ok.inj result
      split at result
      · cases result
      · exact Except.ok.inj result
  · intro atHead verdict found
    have isVerdict := List.find?_some found
    obtain ⟨set, isHead, definitive⟩ := atHead ⟨verdict, List.mem_of_find?_eq_some found, isVerdict⟩
    obtain ⟨rest, rfl⟩ := List.head?_eq_some_iff.mp isHead
    obtain rfl : set = verdict := by simpa [definitive] using found
    have asked : want.bits ≠ 0 := by
      intro none
      simp [FamilySet.isDefinitiveNegative, none] at definitive
    rw [if_neg asked, if_pos (by simp [definitive])]
    rfl

end Tiers

def bothFamilies : QueryFamilies := ⟨3#8⟩

/-- The policy's server fails for one family, the main one says that the name has no address. -/
def partialPolicy : Tiers where
  policyMatch _ := some ((some ⟨some (.noData 60), some .failed⟩, none), false)
  main := (some ⟨some (.noData 60), some (.noData 60)⟩, none)
  fallback := none
  fallbackFilter := none

theorem partialPolicy_hides_verdict : ¬ partialPolicy.KeepsVerdict [] bothFamilies := by
  intro keeps
  have verdict := keeps (by decide) _ rfl
  cases Option.some.inj (Except.ok.inj verdict)

theorem main_verdict_kept :
    runPipeline { partialPolicy with policyMatch := fun _ => none } [] bothFamilies =
      .ok (some ⟨some (.noData 60), some (.noData 60)⟩) :=
  (Tiers.keepsVerdict_iff { partialPolicy with policyMatch := fun _ => none } [] bothFamilies nofun
    rfl).mpr (fun _ _ => ⟨_, rfl, by decide⟩) (by decide) _ rfl

end Dns

end MeowRs
