import Mathlib.Data.List.AList
import Mathlib.Data.List.Infix
import Mathlib.Data.List.Sort
import MeowRs.Text

/-!
# Proxy groups

A group of the configuration becomes a registry entry that captures its static members, the entries
its `proxies:` list names, and the slots of its providers.  Groups may name groups, so they are built
in passes over the ones that are left.  Entries are captured by their registry names here.
-/

namespace MeowRs

open List

open Text

namespace ProxyLayer

inductive AdapterType where
  | direct
  | reject
  | rejectDrop
  | selector
  | fallback
  | urlTest
  | loadBalance
  | relay
  | shadowsocks
  | socks5
  | http
  | vmess
  | vless
  | trojan
  | hysteria2
  | trustTunnel
  | anytls
  | snell
  | pass
  | passRule
  | compatible
  deriving DecidableEq, Repr

/-- A registry entry: a built-in, a leaf, or a group with the members and provider slots it
captured.  The dials of a chained leaf go through the entry that `dialer` names. -/
structure Proxy where
  name : Text
  adapterType : AdapterType
  dialer : Option Text
  members : List Text
  slots : List Text
  deriving DecidableEq

abbrev Registry : Type := AList fun _ : Text => Proxy

/-- The `type:` of a group; any other text is unsupported. -/
inductive GroupType where
  | select
  | urlTest
  | fallback
  | loadBalance
  | relay
  | unsupported (name : Text)
  deriving DecidableEq

structure RawProxyGroup where
  name : Text
  groupType : GroupType
  proxies : Option (List Text)
  interval : Option Nat
  strategy : Option Text
  useProviders : Option (List Text)
  filter : Option Text
  excludeFilter : Option Text
  excludeType : Option (List Text)
  includeAll : Option Bool
  includeAllProxies : Option Bool
  includeAllProviders : Option Bool
  deriving DecidableEq

inductive LbStrategy where
  | roundRobin
  | consistentHashing

def parseLbStrategy (strategy : Option Text) : Except Text LbStrategy :=
  let strategy := strategy.getD (ofString "round-robin")
  if strategy = ofString "round-robin" then .ok .roundRobin
  else if strategy = [] ∨ strategy = ofString "consistent-hashing" then
    .ok .consistentHashing
  else
    .error (ofString "load-balance: unknown strategy '" ++ strategy ++
      ofString "'; valid values: 'round-robin' (default), 'consistent-hashing'. (upstream also " ++
      ofString "rejects via errStrategy — Class A ADR-0002)")

/-- The check of a group filter; `compile` is the regular-expression compiler. -/
def compileOptRegex (compile : Text → Except Text Unit) (pattern : Option Text) (field : Text) :
    Except Text Unit :=
  match pattern with
  | none => .ok ()
  | some pattern =>
    match compile pattern with
    | .ok () => .ok ()
    | .error reason =>
      let hint :=
        if [ofString "(?!", ofString "(?=", ofString "(?<"].any fun look =>
            look <:+: pattern then
          ofString "; look-around assertions are not supported — split the pattern into " ++
          ofString "`filter` + `exclude-filter` instead"
        else []
      .error (field ++ ofString " regex error: " ++ reason ++ hint)

/-- The names of a `proxies:` list that are in the registry; a missing one is an error when the
group has to resolve completely. -/
def resolveNames (group : Text) (existing : Registry) (strict : Bool) :
    List Text → Except Text (List Text)
  | [] => .ok []
  | name :: names =>
    match existing.lookup name with
    | some _ =>
      match resolveNames group existing strict names with
      | .ok resolved => .ok (name :: resolved)
      | .error reason => .error reason
    | none =>
      if strict then
        .error (ofString "group '" ++ group ++ ofString "' references unknown proxy '" ++
          name ++ ofString "'")
      else resolveNames group existing strict names

/-- The provider slots of a `use:` list, each provider once; `seen` are the names behind. -/
def useSlots (config : RawProxyGroup) (providers : List Text) (strict : Bool) (seen : List Text) :
    List Text → Except Text (List Text)
  | [] => .ok []
  | name :: names =>
    if name ∈ seen then useSlots config providers strict seen names
    else if name ∈ providers then
      match useSlots config providers strict (name :: seen) names with
      | .ok slots => .ok (name :: slots)
      | .error reason => .error reason
    else if strict ∧ config.groupType ≠ .relay then
      .error (ofString "group '" ++ config.name ++
        ofString "' references unknown provider '" ++ name ++ ofString "'")
    else useSlots config providers strict (name :: seen) names

/-- The provider slots of a group: every provider by name, or those of its `use:` list. -/
def providerSlots (config : RawProxyGroup) (providers : List Text) (strict : Bool) :
    Except Text (List Text) :=
  if config.includeAll.getD false || config.includeAllProviders.getD false then
    .ok (providers.insertionSort fun a b => (compare a b).isLE = true)
  else useSlots config providers strict [] (config.useProviders.getD [])

/-- Whether a group sets a field that only provides members from providers. -/
def hasProviderMemberFields (config : RawProxyGroup) : Bool :=
  config.useProviders.any (! ·.isEmpty) || config.includeAll.getD false ||
    config.includeAllProviders.getD false || config.filter.isSome || config.excludeFilter.isSome ||
    config.excludeType.isSome

def parseRelayGroup (name : Text) (proxies : List Text) (config : RawProxyGroup) :
    Except Text Proxy :=
  if proxies.isEmpty then
    let providerHint :=
      if hasProviderMemberFields config then
        ofString " Provider fields ('use'/'include-all*') do not supply relay members — relay " ++
        ofString "chains come from 'proxies'/'include-all-proxies' only."
      else []
    .error (ofString "relay group '" ++ name ++
      ofString "': proxies list is empty; relay requires at least 2 proxies." ++ providerHint ++
      ofString " (upstream: panics; we reject — Class A ADR-0002)")
  else if proxies.length < 2 then
    .error (ofString "relay group '" ++ name ++
      ofString "': requires at least 2 proxies, got " ++
      ofString (toString proxies.length) ++
      ofString "; use `type: selector` or `type: direct` for a single proxy. (upstream: " ++
      ofString "silently acts as passthrough; we reject — Class A ADR-0002)")
  else .ok ⟨name, .relay, none, proxies, []⟩

/-- The entry of a group once its members and provider slots are known. -/
def constructGroup (config : RawProxyGroup) (proxies slots : List Text) : Except Text Proxy :=
  if proxies.isEmpty && slots.isEmpty then
    .error (ofString "group '" ++ config.name ++
      ofString "' has no valid proxies or providers")
  else
    match config.groupType with
    | .select => .ok ⟨config.name, .selector, none, proxies, slots⟩
    | .urlTest => .ok ⟨config.name, .urlTest, none, proxies, slots⟩
    | .fallback => .ok ⟨config.name, .fallback, none, proxies, slots⟩
    | .loadBalance =>
      match parseLbStrategy config.strategy with
      | .ok _ => .ok ⟨config.name, .loadBalance, none, proxies, slots⟩
      | .error reason => .error reason
    | .relay => parseRelayGroup config.name proxies config
    | .unsupported name => .error (ofString "unsupported group type: " ++ name)

/-- What the group parser takes besides a group and the registry. -/
structure GroupContext where
  includeAllProxies : List Text
  providers : List Text
  compile : Text → Except Text Unit

def parseProxyGroupInner (context : GroupContext) (config : RawProxyGroup) (existing : Registry)
    (strict : Bool) : Except Text Proxy :=
  let included := if config.includeAllProxies.getD false then context.includeAllProxies else []
  match resolveNames config.name existing strict (config.proxies.getD []) with
  | .error reason => .error reason
  | .ok resolved =>
    match (compileOptRegex context.compile config.filter (ofString "filter")).bind fun _ =>
        compileOptRegex context.compile config.excludeFilter (ofString "exclude-filter") with
    | .error reason =>
      .error (ofString "group '" ++ config.name ++ ofString "': " ++ reason)
    | .ok () =>
      match providerSlots config context.providers strict with
      | .error reason => .error reason
      | .ok slots => constructGroup config (included ++ resolved) slots

def groupNames (groups : List RawProxyGroup) : List Text :=
  groups.map RawProxyGroup.name

def hasUnresolvedGroupDependency (group : RawProxyGroup) (declaredGroupNames builtGroupNames :
    List Text) : Bool :=
  (group.proxies.getD []).any fun name => name ∈ declaredGroupNames ∧ name ∉ builtGroupNames

/-- The registry and the groups it got from the passes so far. -/
structure BuildState where
  proxies : Registry
  builtGroupNames : List Text

/-- What one pass leaves: the groups it could not build and whether it built any. -/
structure Pass where
  state : BuildState
  remaining : List RawProxyGroup
  progress : Bool

/-- One pass over groups: each one whose group dependencies are built is parsed, strictly or
leniently. -/
def buildPass (context : GroupContext) (declared : List Text) (strict : Bool) :
    List RawProxyGroup → Pass → Pass
  | [], pass => pass
  | group :: groups, pass =>
    if hasUnresolvedGroupDependency group declared pass.state.builtGroupNames then
      buildPass context declared strict groups
        { pass with remaining := pass.remaining ++ [group] }
    else
      match parseProxyGroupInner context group pass.state.proxies strict with
      | .ok entry =>
        buildPass context declared strict groups
          { pass with
            state := ⟨pass.state.proxies.insert entry.name entry,
              entry.name :: pass.state.builtGroupNames⟩
            progress := true }
      | .error _ =>
        buildPass context declared strict groups
          { pass with remaining := pass.remaining ++ [group] }

/-- The last resort: build what is left in list order with whatever resolves. -/
def finalSweep (context : GroupContext) : List RawProxyGroup → Registry → Registry
  | [], proxies => proxies
  | group :: groups, proxies =>
    match parseProxyGroupInner context group proxies false with
    | .ok entry => finalSweep context groups (proxies.insert entry.name entry)
    | .error _ => finalSweep context groups proxies

/-- The reasons why groups do not parse strictly. -/
def strictDetails (context : GroupContext) (proxies : Registry) (groups : List RawProxyGroup) :
    List Text :=
  groups.filterMap fun group =>
    match parseProxyGroupInner context group proxies true with
    | .ok _ => none
    | .error reason =>
      some (ofString "'" ++ group.name ++ ofString "': " ++ reason)

/-- The passes over the groups: strict ones while they build anything, then a lenient one, and the
final sweep when neither helps.  It returns the groups left when the passes run out. -/
def resolveGroups (context : GroupContext) (declared : List Text) (strict : Bool) :
    Nat → List RawProxyGroup → BuildState → Except Text (List RawProxyGroup × Registry)
  | 0, remaining, state => .ok (remaining, state.proxies)
  | _ + 1, [], state => .ok ([], state.proxies)
  | passes + 1, group :: remaining, state =>
    let pass := buildPass context declared true (group :: remaining) ⟨state, [], false⟩
    if pass.remaining.isEmpty then .ok ([], pass.state.proxies)
    else if pass.progress then
      resolveGroups context declared strict passes pass.remaining pass.state
    else if strict then
      let details := strictDetails context pass.state.proxies pass.remaining
      .error (ofString "proxy-groups: strict mode rejected " ++
        ofString (toString details.length) ++ ofString " group(s): " ++
        (ofString "; ").intercalate details)
    else
      let lenient := buildPass context declared false pass.remaining ⟨pass.state, [], false⟩
      if lenient.progress then
        resolveGroups context declared strict passes lenient.remaining lenient.state
      else
        .ok (group :: remaining, finalSweep context lenient.remaining lenient.state.proxies)

/-- Build the groups of a configuration over the leaves, with as many passes as there are groups and
one more. -/
def buildGroups (context : GroupContext) (strict : Bool) (groups : List RawProxyGroup)
    (leaves : Registry) : Except Text Registry :=
  match resolveGroups context (groupNames groups) strict (groups.length + 1) groups ⟨leaves, []⟩ with
  | .error reason => .error reason
  | .ok (remaining, proxies) =>
    if strict && !remaining.isEmpty then
      .error (ofString "proxy-groups: strict mode could not resolve " ++
        ofString (toString remaining.length) ++ ofString " group(s) after " ++
        ofString (toString (groups.length + 1)) ++ ofString " passes: " ++
        (ofString ", ").intercalate (groupNames remaining))
    else .ok proxies

variable {cfg : RawProxyGroup} {ex : Registry} {strict : Bool} {entry : Proxy}
  {ctx : GroupContext}

theorem mem_of_resolveNames {group : Text}
    {names resolved : List Text} (hf : resolveNames group ex strict names = .ok resolved)
    {name : Text} (hm : name ∈ resolved) : name ∈ names ∧ name ∈ ex := by
  induction names generalizing resolved with
  | nil =>
    cases hf
    cases hm
  | cons first names ih =>
    rw [resolveNames] at hf
    cases hfi : ex.lookup first with
    | some entry =>
      rw [hfi] at hf
      cases hr : resolveNames group ex strict names with
      | error reason =>
        rw [hr] at hf
        cases hf
      | ok later =>
        rw [hr] at hf
        cases hf
        rcases mem_cons.mp hm with rfl | hl
        · exact ⟨mem_cons_self, AList.lookup_isSome.mp (by rw [hfi]; rfl)⟩
        · exact (ih hr hl).imp (mem_cons_of_mem first) id
    | none =>
      rw [hfi] at hf
      dsimp only at hf
      split at hf
      · cases hf
      · exact (ih hf hm).imp (mem_cons_of_mem first) id

theorem constructGroup_eq_ok {ps slots : List Text} (hb : constructGroup cfg ps slots = .ok entry) :
    entry.name = cfg.name ∧ entry.dialer = none ∧ entry.members = ps := by
  unfold constructGroup at hb
  split at hb
  · cases hb
  · split at hb
    · cases hb
      exact ⟨rfl, rfl, rfl⟩
    · cases hb
      exact ⟨rfl, rfl, rfl⟩
    · cases hb
      exact ⟨rfl, rfl, rfl⟩
    · split at hb <;> cases hb
      exact ⟨rfl, rfl, rfl⟩
    · unfold parseRelayGroup at hb
      split at hb
      · cases hb
      split at hb <;> cases hb
      exact ⟨rfl, rfl, rfl⟩
    · cases hb

/-- A parsed group: its names resolve, its filters compile, and it is made of what was found. -/
theorem parseProxyGroupInner_eq_ok (hp : parseProxyGroupInner ctx cfg ex strict = .ok entry) :
    ∃ resolved slots, resolveNames cfg.name ex strict (cfg.proxies.getD []) = .ok resolved ∧
      providerSlots cfg ctx.providers strict = .ok slots ∧ constructGroup cfg
    ((if cfg.includeAllProxies.getD false then ctx.includeAllProxies else []) ++ resolved)
        slots = .ok entry := by
  unfold parseProxyGroupInner at hp
  dsimp only at hp
  split at hp
  · cases hp
  · rename_i resolved resolvedEq
    split at hp
    · cases hp
    · split at hp
      · cases hp
      · rename_i slots slotsEq
        exact ⟨resolved, slots, resolvedEq, slotsEq, hp⟩

theorem mem_members_of_parse (hp : parseProxyGroupInner ctx cfg ex strict = .ok entry)
    {m : Text} (hm : m ∈ entry.members) :
    cfg.includeAllProxies.getD false = true ∧ m ∈ ctx.includeAllProxies ∨
      m ∈ cfg.proxies.getD [] ∧ m ∈ ex := by
  obtain ⟨resolved, slots, hre, _, hb⟩ := parseProxyGroupInner_eq_ok hp
  rw [(constructGroup_eq_ok hb).2.2] at hm
  rcases mem_append.mp hm with hi | hr
  · split at hi
    · rename_i includesAll
      exact Or.inl ⟨includesAll, hi⟩
    · cases hi
  · exact Or.inr (mem_of_resolveNames hre hr)

section Induction

variable {ctx : GroupContext} {gs : List RawProxyGroup} {holds : Registry → Prop}

theorem buildPass_induction (decl : List Text) (strict : Bool)
    (hs : ∀ group ∈ gs, ∀ {ps : Registry} {strict : Bool} {e : Proxy},
      holds ps → parseProxyGroupInner ctx group ps strict = .ok e →
        holds (ps.insert e.name e)) {todo : List RawProxyGroup} (hli : ∀ group ∈ todo, group ∈ gs)
    {pass : Pass} (hp : holds pass.state.proxies) (hk : ∀ group ∈ pass.remaining, group ∈ gs) :
    holds (buildPass ctx decl strict todo pass).state.proxies ∧
      ∀ group ∈ (buildPass ctx decl strict todo pass).remaining, group ∈ gs := by
  induction todo generalizing pass with
  | nil => exact ⟨hp, hk⟩
  | cons group todo ih =>
    obtain ⟨hg, hr⟩ := forall_mem_cons.mp hli
    have hd : ∀ o ∈ pass.remaining ++ [group], o ∈ gs := by
      intro o hm
      rcases mem_append.mp hm with prev | hl
      · exact hk o prev
      · rw [mem_singleton.mp hl]
        exact hg
    rw [buildPass]
    split
    · exact ih hr hp hd
    · split
      · rename_i e parsed
        exact ih hr (hs group hg hp parsed) hk
      · exact ih hr hp hd

section

variable (hs : ∀ group ∈ gs, ∀ {ps : Registry} {strict : Bool} {e : Proxy},
  holds ps → parseProxyGroupInner ctx group ps strict = .ok e →
    holds (ps.insert e.name e))
include hs

theorem finalSweep_induction {todo : List RawProxyGroup} (hl : ∀ group ∈ todo, group ∈ gs)
    {ps : Registry} (hp : holds ps) : holds (finalSweep ctx todo ps) := by
  induction todo generalizing ps with
  | nil => exact hp
  | cons group todo ih =>
    obtain ⟨hg, hr⟩ := forall_mem_cons.mp hl
    rw [finalSweep]
    split
    · rename_i e parsed
      exact ih hr (hs group hg hp parsed)
    · exact ih hr hp

/-- What every parsed group keeps when it enters the registry holds once the groups are built. -/
theorem buildGroups_induction {strict : Bool} {leaves ps : Registry} (hp : holds leaves)
    (hb : buildGroups ctx strict gs leaves = .ok ps) : holds ps := by
  have hres : ∀ {passes : Nat} {todo rem : List RawProxyGroup} {s : BuildState}
      {ps : Registry}, (∀ group ∈ todo, group ∈ gs) → holds s.proxies →
      resolveGroups ctx (groupNames gs) strict passes todo s =
        .ok (rem, ps) → holds ps := by
    intro passes
    induction passes with
    | zero =>
      intro todo rem s ps _ hh hr
      cases hr
      exact hh
    | succ passes ih =>
      intro todo rem s ps hli hh hr
      cases todo with
      | nil =>
        cases hr
        exact hh
      | cons group todo =>
        have hst : ∀ group ∈ ([] : List RawProxyGroup), group ∈ gs :=
          fun _ hm => absurd hm not_mem_nil
        obtain ⟨ha, hsl⟩ := @buildPass_induction _ _ _ (groupNames gs) true hs _ hli ⟨s, [], false⟩
            hh hst
        rw [resolveGroups] at hr
        generalize buildPass ctx (groupNames gs) true (group :: todo)
          ⟨s, [], false⟩ = pass at ha hsl hr
        dsimp only at hr
        split at hr
        · cases hr
          exact ha
        split at hr
        · exact ih hsl ha hr
        split at hr
        · cases hr
        obtain ⟨hal, hl⟩ := @buildPass_induction _ _ _ (groupNames gs) false hs _ hsl
            ⟨pass.state, [], false⟩ ha hst
        split at hr
        · exact ih hl hal hr
        · cases hr
          exact finalSweep_induction hs hl hal
  unfold buildGroups at hb
  split at hb
  · cases hb
  · rename_i rem final hr
    split at hb <;> cases hb
    exact hres (fun _ hm => hm) hp hr

end

end Induction

end ProxyLayer

end MeowRs
