import MeowRs.ProxyLayer
import MeowRs.ShardedMaps

/-!
# Dials of an accepted configuration end

A dial goes from a chained leaf to the entry its dialer names, and from a group to one of the
members it captured.  In a registry that passed all checks no such path comes back to where it was:
a cycle through a dialer edge would have been met by the membership check, and one through groups
alone would have been declared.
-/

namespace MeowRs.ProxyLayer

open List Option Text AList

open ShardedMaps (lookup_insert_eq_some)

variable {Definition : Type}

theorem find?_reverse_of_nodup {α κ : Type} {key : α → κ} {xs : List α} (nd : (xs.map key).Nodup)
    {item : α} (hm : item ∈ xs) {test : α → Bool} (hp : test item = true)
    (only : ∀ o, test o = true → key o = key item) : xs.reverse.find? test = some item := by
  cases hi : xs.reverse.find? test with
  | none => exact absurd hp (find?_eq_none.mp hi item (mem_reverse.mpr hm))
  | some o =>
    have ho := mem_reverse.mp (mem_of_find?_eq_some hi)
    have hk := only o (find?_some hi)
    rw [inj_on_of_nodup_map nd ho hm hk]

section Leaves

/-- Every named leaf is in the registry, and nothing in it has captured members yet. -/
structure Leaves.WellFormed (leaves : Leaves) : Prop where
  registered {name : Text} : name ∈ leaves.staticProxyNames → name ∈ leaves.proxies
  noMembers {name : Text} {entry : Proxy} :
    leaves.proxies.lookup name = some entry → entry.members = []
  noDialer {name : Text} {entry : Proxy} :
    leaves.proxies.lookup name = some entry → entry.dialer = none

theorem plain_insert {ps : Registry} {leaf : Leaf} {key name : Text} {e : Proxy}
    (hpl : ∀ {name e}, ps.lookup name = some e →
      e.members = [] ∧ e.dialer = none) (at_ : (ps.insert key leaf.entry).lookup name = some e) :
    e.members = [] ∧ e.dialer = none := by
  rcases lookup_insert_eq_some at_ with ⟨_, rfl⟩ | ⟨_, hp⟩
  · exact ⟨rfl, rfl⟩
  · exact hpl hp

theorem mem_insert_of_mem {ps : Registry} {key name : Text} {e : Proxy}
    (hm : name ∈ ps) : name ∈ ps.insert key e :=
  (mem_insert _).mpr (.inr hm)

theorem Leaves.WellFormed.bind {leaves : Leaves} (wf : leaves.WellFormed) (key : Text)
    (leaf : Leaf) (placeholder : Bool) : (leaves.bind key leaf placeholder).WellFormed := by
  have hpl : ∀ {name e}, leaves.proxies.lookup name = some e → e.members = [] ∧ e.dialer = none :=
    fun at_ => ⟨wf.noMembers at_, wf.noDialer at_⟩
  have hi : ∀ placeholderNames, Leaves.WellFormed
      ⟨leaves.proxies.insert key leaf.entry, leaves.staticProxyNames.insert key,
        placeholderNames⟩ := by
    intro placeholderNames
    constructor
    · intro name hm
      rcases mem_insert_iff.mp hm with rfl | hp
      · exact (mem_insert _).mpr (.inl rfl)
      · exact mem_insert_of_mem (wf.registered hp)
    · exact fun at_ => (plain_insert hpl at_).1
    · exact fun at_ => (plain_insert hpl at_).2
  unfold Leaves.bind
  cases placeholder with
  | false => exact hi _
  | true =>
    cases ho : leaves.proxies.lookup key with
    | none => simpa [ho] using hi _
    | some e =>
      simp only [if_true]
      refine ⟨fun {name} hm => ?_, wf.noMembers, wf.noDialer⟩
      rcases mem_insert_iff.mp hm with rfl | hp
      · exact lookup_isSome.mp (by rw [ho]; rfl)
      · exact wf.registered hp

theorem insertParsedLeaves_wellFormed {parsers : LeafParsers Definition} {strict : Bool}
    {raws : List (RawProxy Definition)} {leaves parsed : Leaves} (wf : leaves.WellFormed)
    (hi : insertParsedLeaves parsers strict raws leaves = .ok parsed) : parsed.WellFormed := by
  induction raws generalizing leaves with
  | nil =>
    cases hi
    exact wf
  | cons raw raws ih =>
    rw [insertParsedLeaves] at hi
    split at hi
    · cases hi
    · exact ih wf hi
    · dsimp only at hi
      split at hi
      · split at hi
        · cases hi
        · exact ih wf hi
      · exact ih (wf.bind _ _ _) hi

theorem builtins_wellFormed : Leaves.WellFormed ⟨builtins, [], []⟩ := by
  have hp : ∀ {name e}, builtins.lookup name = some e → e.members = [] ∧ e.dialer = none :=
    plain_insert (plain_insert (plain_insert (plain_insert (plain_insert (plain_insert nofun)))))
  exact ⟨nofun, fun at_ => (hp at_).1, fun at_ => (hp at_).2⟩

end Leaves

section Dialers

variable {parsers : LeafParsers Definition} {strict : Bool} {raws : List (RawProxy Definition)}
variable {placeholderNames : List Text} {edges : List (Text × Text)}

/-- Binding a chain keeps every entry, captures no members and adds no dialer but its own. -/
theorem applyDialerEdge_spec {ps bound : Registry} {edge : Text × Text}
    (ha : applyDialerEdge parsers strict raws placeholderNames ps edge = .ok bound) :
    (∀ {name : Text}, name ∈ ps → name ∈ bound) ∧
      ∀ {name : Text} {e : Proxy}, bound.lookup name = some e → ps.lookup name = some e ∨
          e.dialer = some edge.2 ∧ name = edge.1 ∧
            (e.members = [] ∨ ∃ inner, ps.lookup name = some inner ∧
              e.members = inner.members) := by
  unfold applyDialerEdge at ha
  dsimp only at ha
  split at ha
  · cases ha
  split at ha
  · cases ha
    refine ⟨mem_insert_of_mem, fun at_ => ?_⟩
    rcases lookup_insert_eq_some at_ with ⟨rfl, rfl⟩ | ⟨_, hp⟩
    · exact .inr ⟨rfl, rfl, .inl rfl⟩
    · exact .inl hp
  split at ha
  · cases ha
  split at ha
  · rename_i inner hit
    split at ha
    · cases ha
      exact ⟨id, .inl⟩
    · cases ha
      refine ⟨mem_insert_of_mem, fun at_ => ?_⟩
      rcases lookup_insert_eq_some at_ with ⟨rfl, rfl⟩ | ⟨_, hp⟩
      · exact .inr ⟨rfl, rfl, .inr ⟨inner, hit, rfl⟩⟩
      · exact .inl hp
  · cases ha
    exact ⟨id, .inl⟩

theorem collectDialerEdges_distinct {raws : List (RawProxy Definition)} {seen : List Text}
    (hc : collectDialerEdges strict raws seen = .ok edges) :
    (∀ edge ∈ edges, edge.1 ∉ seen) ∧ (edges.map Prod.fst).Nodup := by
  induction raws generalizing seen edges with
  | nil =>
    cases hc
    exact ⟨nofun, nodup_nil⟩
  | cons raw raws ih =>
    have hn : ∀ {name : Text} {edges : List (Text × Text)},
        collectDialerEdges strict raws (name :: seen) = .ok edges →
          (∀ edge ∈ edges, edge.1 ≠ name ∧ edge.1 ∉ seen) ∧ (edges.map Prod.fst).Nodup := by
      intro name edges hr
      obtain ⟨hf, nd⟩ := ih hr
      refine ⟨fun edge hm => ⟨?_, ?_⟩, nd⟩
      · rintro rfl
        exact hf edge hm mem_cons_self
      · exact fun hse => hf edge hm (mem_cons_of_mem name hse)
    rw [collectDialerEdges] at hc
    split at hc
    · exact ih hc
    split at hc
    · exact ih hc
    rename_i unseen
    split at hc
    · obtain ⟨hf, nd⟩ := hn hc
      exact ⟨fun edge hm => (hf edge hm).2, nd⟩
    split at hc
    · cases hc
    · obtain ⟨hf, nd⟩ := hn hc
      exact ⟨fun edge hm => (hf edge hm).2, nd⟩
    · split at hc
      · cases hc
      split at hc
      · cases hc
      · rename_i nx hr
        cases hc
        obtain ⟨hf, nd⟩ := hn hr
        refine ⟨forall_mem_cons.mpr ⟨unseen, fun edge hm => (hf edge hm).2⟩,
          nodup_cons.mpr ⟨fun hm => ?_, nd⟩⟩
        obtain ⟨edge, he, hs⟩ := mem_map.mp hm
        exact (hf edge he).1 hs

/-- The registry after the chains are bound: the dialer of an entry is that of its edge. -/
structure Chained (proxies bound : Registry) (edges : List (Text × Text)) : Prop where
  kept {name : Text} : name ∈ proxies → name ∈ bound
  noMembers {name : Text} {entry : Proxy} : bound.lookup name = some entry → entry.members = []
  dialer {name dialer : Text} {entry : Proxy} : bound.lookup name = some entry →
    entry.dialer = some dialer → (name, dialer) ∈ edges

theorem applyDialerEdges_chained {edges done : List (Text × Text)} {ps pre bound : Registry}
    (hs : Chained ps pre done)
    (ha : applyDialerEdges parsers strict raws placeholderNames edges pre = .ok bound) :
    Chained ps bound (done ++ edges) := by
  induction edges generalizing pre done with
  | nil =>
    cases ha
    rw [append_nil]
    exact hs
  | cons edge edges ih =>
    rw [applyDialerEdges] at ha
    split at ha
    · cases ha
    rename_i aft appliedOne
    obtain ⟨hk, cases_⟩ := applyDialerEdge_spec appliedOne
    have hn : Chained ps aft (done ++ [edge]) := by
      refine ⟨fun hm => hk (hs.kept hm), fun at_ => ?_, fun at_ hd => ?_⟩
      · rcases cases_ at_ with hp | ⟨_, _, none_ | ⟨inner, hi, same⟩⟩
        · exact hs.noMembers hp
        · exact none_
        · rw [same]
          exact hs.noMembers hi
      · rcases cases_ at_ with hp | ⟨ho, rfl, _⟩
        · exact mem_append_left _ (hs.dialer hp hd)
        · rw [ho, some.injEq] at hd
          rw [← hd]
          exact mem_append_right _ mem_cons_self
    have nx := ih hn ha
    rwa [append_assoc] at nx

theorem applyDialerProxies_chained {groups : List RawProxyGroup} {leaves : Leaves}
    (wf : leaves.WellFormed) {bound : Registry}
    (ha : applyDialerProxies parsers strict raws groups leaves = .ok (bound, edges)) :
    Chained leaves.proxies bound edges ∧ (edges.map Prod.fst).Nodup := by
  have hs : Chained leaves.proxies leaves.proxies [] := by
    refine ⟨id, wf.noMembers, fun at_ hd => ?_⟩
    rw [wf.noDialer at_] at hd
    cases hd
  unfold applyDialerProxies at ha
  split at ha
  · cases ha
  rename_i coll hc
  have nd := (collectDialerEdges_distinct hc).2
  split at ha
  · rename_i none_
    cases ha
    rw [isEmpty_iff.mp none_]
    exact ⟨hs, nodup_nil⟩
  dsimp only at ha
  split at ha
  · cases ha
  split at ha
  · split at ha
    · cases ha
    · rename_i hb
      cases ha
      exact ⟨applyDialerEdges_chained hs hb, nd⟩
  · cases ha

end Dialers

section Groups

variable {gs : List RawProxyGroup}

def Captured (groups : List RawProxyGroup) (includeAll : List Text) (proxies : Registry) : Prop :=
  ∀ {name : Text} {entry : Proxy}, proxies.lookup name = some entry → entry.members ≠ [] →
    ∃ group ∈ groups, group.name = name ∧ ∀ member ∈ entry.members, member ∈ proxies ∧
      (member ∈ group.proxies.getD [] ∨
        group.includeAllProxies.getD false = true ∧ member ∈ includeAll)

/-- The registry after the groups are built over the leaves. -/
structure Grouped (groups : List RawProxyGroup) (includeAll : List Text)
    (edges : List (Text × Text)) (leaves proxies : Registry) : Prop where
  kept {name : Text} : name ∈ leaves → name ∈ proxies
  captured : Captured groups includeAll proxies
  dialer {name dialer : Text} {entry : Proxy} : proxies.lookup name = some entry →
    entry.dialer = some dialer → (name, dialer) ∈ edges

theorem buildGroups_grouped {ctx : GroupContext} {strict : Bool} {edges : List (Text × Text)}
    {pre leaves ps : Registry} (hc : Chained pre leaves edges)
    (hi : ∀ name ∈ ctx.includeAllProxies, name ∈ leaves)
    (hb : buildGroups ctx strict gs leaves = .ok ps) :
    Grouped gs ctx.includeAllProxies edges leaves ps := by
  have hst : Grouped gs ctx.includeAllProxies edges leaves leaves := by
    refine ⟨id, fun at_ hs => ?_, hc.dialer⟩
    exact absurd (hc.noMembers at_) hs
  refine buildGroups_induction ?_ hst hb
  intro g hg ps strict e grouped hpa
  obtain ⟨_, _, _, _, hco⟩ := parseProxyGroupInner_eq_ok hpa
  obtain ⟨hna, hdi, _⟩ := constructGroup_eq_ok hco
  refine ⟨fun mem => mem_insert_of_mem (grouped.kept mem), ?_, ?_⟩
  · intro name hit at_ hs
    rcases lookup_insert_eq_some at_ with ⟨rfl, rfl⟩ | ⟨_, hp⟩
    · refine ⟨g, hg, hna.symm, fun mem hm => ?_⟩
      rcases mem_members_of_parse hpa hm with ⟨all, ha⟩ | ⟨hl, hpr⟩
      · exact ⟨mem_insert_of_mem (grouped.kept (hi mem ha)), .inr ⟨all, ha⟩⟩
      · exact ⟨mem_insert_of_mem hpr, .inl hl⟩
    · obtain ⟨o, ho, hn, ms⟩ := grouped.captured hp hs
      exact ⟨o, ho, hn, fun mem hm =>
        (ms mem hm).imp mem_insert_of_mem id⟩
  · intro name dialer hit at_ hd
    rcases lookup_insert_eq_some at_ with ⟨_, rfl⟩ | ⟨_, hp⟩
    · rw [hdi] at hd
      cases hd
    · exact grouped.dialer hp hd

theorem addGlobal_cases (ctx : GroupContext) (raw : RawConfig Definition) (ps : Registry) :
    addGlobal ctx raw ps = ps ∨ globalName ∉ ps ∧ ∃ e, addGlobal ctx raw ps =
        ps.insert globalName e ∧ e.dialer = none ∧
          ∀ m ∈ e.members, m ∈ ps := by
  unfold addGlobal
  split
  · exact .inl rfl
  · rename_i missing
    split
    · rename_i e parsed
      obtain ⟨_, _, _, _, hc⟩ := parseProxyGroupInner_eq_ok parsed
      refine .inr ⟨missing, e, rfl, (constructGroup_eq_ok hc).2.1, fun m hm => ?_⟩
      rcases mem_members_of_parse parsed hm with ⟨ha, _⟩ | ⟨_, hp⟩
      · cases ha
      · exact hp
    · exact .inl rfl

theorem checkGroupNames_eq_ok {ps : Registry} {seen : List Text}
    (hc : checkGroupNames ps gs seen = .ok ()) :
    (∀ name ∈ groupNames gs, name ∉ ps ∧ name ∉ seen) ∧ (groupNames gs).Nodup := by
  induction gs generalizing seen with
  | nil => exact ⟨nofun, nodup_nil⟩
  | cons g gs ih =>
    rw [checkGroupNames] at hc
    split at hc
    · cases hc
    rename_i fresh
    split at hc
    · cases hc
    split at hc
    · cases hc
    rename_i unseen
    obtain ⟨hr, nd⟩ := ih hc
    refine ⟨forall_mem_cons.mpr ⟨⟨fresh, unseen⟩, fun name hm => ?_⟩,
      nodup_cons.mpr ⟨fun hm => ?_, nd⟩⟩
    · exact (hr name hm).imp id fun hn hs =>
        hn (mem_cons_of_mem g.name hs)
    · exact (hr g.name hm).2 mem_cons_self

/-- Without a declared cycle every chain of declared memberships ends. -/
theorem acc_of_rejectDeclaredGroupCycles (accepted : rejectDeclaredGroupCycles gs = .ok ())
    {name : Text} (hd : name ∈ groupNames gs) :
    Acc (fun m name => m ∈ declaredMembers gs name) name := by
  have hl : ∀ name, ∀ m ∈ declaredMembers gs name, m ∈ groupNames gs := by
    intro name m hm
    unfold declaredMembers at hm
    split at hm
    · exact of_decide_eq_true (mem_filter.mp hm).2
    · cases hm
  have hf := GraphSearch.exploreAll_isSome hl (Nat.lt_succ_self _) (fun _ m => m) fun _ => none
  obtain ⟨res, he⟩ := isSome_iff_exists.mp hf
  cases res with
  | ok aft => exact GraphSearch.acc_of_exploreAll he hd
  | error cycle =>
    unfold rejectDeclaredGroupCycles at accepted
    dsimp only at accepted
    rw [he] at accepted
    cases accepted

theorem mem_declaredMembers (nd : (groupNames gs).Nodup) {g : RawProxyGroup} (hg : g ∈ gs)
    {m : Text} (hl : m ∈ g.proxies.getD []) (hd : m ∈ groupNames gs) :
    m ∈ declaredMembers gs g.name := by
  have hi : gs.reverse.find? (·.name = g.name) = some g :=
    find?_reverse_of_nodup nd hg (by simp) fun o => by simp
  rw [declaredMembers, hi]
  exact mem_filter.mpr ⟨hl, decide_eq_true hd⟩

end Groups

section Membership

theorem MembershipGraph.next_of_not_mem_nodes (graph : MembershipGraph) (node : Text)
    (hu : node ∉ graph.nodes) : graph.next node = [] := by
  simp only [nodes, mem_append, mem_singleton, not_or] at hu
  obtain ⟨⟨he, hg⟩, hn⟩ := hu
  have hd : graph.dialerOf node = none := by
    rw [dialerOf, map_eq_none_iff, find?_eq_none]
    intro edge hm
    have : edge.1 ≠ node := by
      rintro rfl
      exact he (mem_map_of_mem (mem_reverse.mp hm))
    simp [this]
  have hme : graph.groups.filter
      (fun g => g.name = node ∧ g.name ∈ graph.proxies) = [] := by
    rw [filter_eq_nil_iff]
    intro g hm
    have : g.name ≠ node := by
      rintro rfl
      exact hg (mem_map_of_mem hm)
    simp [this]
  rw [next, hd, membersOf, hme, if_neg fun ha => hn ha.2]
  rfl

/-- The membership check has gone through every dialer edge of the registry. -/
theorem not_reaches_of_rejectGroupMembershipCycles {graph : MembershipGraph}
    (accepted : rejectGroupMembershipCycles graph = .ok ()) {name dialer : Text}
    (he : (name, dialer) ∈ graph.edges) (reg : name ∈ graph.proxies) :
    ¬ Relation.ReflTransGen (fun node o => o ∈ graph.next node) dialer name := by
  have hf : (GraphSearch.meets graph.next name graph.fuel [dialer] []).isSome = true := by
    apply GraphSearch.meets_isSome graph.next_of_not_mem_nodes
    refine lt_of_le_of_lt (Nat.add_le_add_left (GraphSearch.openWeight_le _ _ _) _) ?_
    rw [length_singleton, MembershipGraph.fuel]
    omega
  obtain ⟨res, hm⟩ := isSome_iff_exists.mp hf
  cases res with
  | false => exact GraphSearch.not_reaches_of_meets hm
  | true =>
    have hr : graph.routesBack (name, dialer) = true := decide_eq_true ⟨reg, hm⟩
    unfold rejectGroupMembershipCycles at accepted
    cases hi : graph.edges.find? graph.routesBack with
    | none => exact absurd hr (find?_eq_none.mp hi _ he)
    | some fst =>
      rw [hi] at accepted
      cases accepted

end Membership

variable {raw : RawConfig Definition}

/-- Where a dial of an entry can go next: to the entry its dialer names, or to a member. -/
inductive DialStep (layer : Layer) : Text → Text → Prop
  | chain {name dialer : Text} (edge : (name, dialer) ∈ layer.dialerEdges)
      (registered : name ∈ layer.proxies) : DialStep layer name dialer
  | member {name member : Text} {entry : Proxy} (found : layer.proxies.lookup name = some entry)
      (captured : member ∈ entry.members) : DialStep layer name member

def MemberStep (layer : Layer) (name member : Text) : Prop :=
  ∃ entry, layer.proxies.lookup name = some entry ∧ member ∈ entry.members

/-- What the checks have established about an accepted registry. -/
structure Accepted (layer : Layer) (groups : List RawProxyGroup) (staticProxyNames : List Text)
    (grouped : Registry) : Prop where
  distinct : (groupNames groups).Nodup
  sources : (layer.dialerEdges.map Prod.fst).Nodup
  staticApart {name : Text} : name ∈ staticProxyNames → name ∉ groupNames groups
  acyclic : rejectDeclaredGroupCycles groups = .ok ()
  captured : Captured groups staticProxyNames grouped
  dialer {name dialer : Text} {entry : Proxy} : grouped.lookup name = some entry →
    entry.dialer = some dialer → (name, dialer) ∈ layer.dialerEdges
  finished : layer.proxies = grouped ∨ globalName ∉ grouped ∧ ∃ entry : Proxy,
    layer.proxies = grouped.insert globalName entry ∧ entry.dialer = none ∧
      ∀ member ∈ entry.members, member ∈ grouped
  membership : rejectGroupMembershipCycles
    ⟨layer.dialerEdges, groups, layer.proxies, staticProxyNames,
      !decide (globalName ∈ grouped) && globalName ∈ layer.proxies⟩ = .ok ()

theorem mem_includeAllNames {staticProxyNames : List Text} {ps : Registry} {name : Text} :
    name ∈ includeAllNames staticProxyNames ps ↔
      name ∈ staticProxyNames ∧ name ∈ ps := by
  rw [includeAllNames, mem_insertionSort, mem_filter, decide_eq_true_eq]

theorem accepted_of_buildGroupLayer {ctx : GroupContext} {strict : Bool}
    {leaves : Leaves} {chained : Registry} {edges : List (Text × Text)} {layer : Layer}
    (hi : ctx.includeAllProxies = includeAllNames leaves.staticProxyNames chained)
    (wf : leaves.WellFormed)
    (ns : checkGroupNames leaves.proxies (raw.proxyGroups.getD []) [] = .ok ())
    (hd : rejectDeclaredGroupCycles (raw.proxyGroups.getD []) = .ok ())
    (hbo : Chained leaves.proxies chained edges) (hso : (edges.map Prod.fst).Nodup)
    (hb : buildGroupLayer ctx strict raw leaves.staticProxyNames chained edges = .ok layer) :
    ∃ grouped, Accepted layer (raw.proxyGroups.getD []) leaves.staticProxyNames grouped := by
  unfold buildGroupLayer at hb
  split at hb
  · cases hb
  rename_i grouped groupedEq
  obtain ⟨hf, nd⟩ := checkGroupNames_eq_ok ns
  have hin : ∀ name ∈ ctx.includeAllProxies, name ∈ chained := by
    intro name mem
    rw [hi] at mem
    exact (mem_includeAllNames.mp mem).2
  have hr := buildGroups_grouped hbo hin groupedEq
  unfold checkLayer at hb
  split at hb
  · cases hb
  split at hb
  · cases hb
  rename_i membership
  cases hb
  refine ⟨grouped, nd, hso, ?_, hd, ?_, hr.dialer, addGlobal_cases ctx raw grouped, membership⟩
  · intro name hst hg
    exact (hf name hg).1 (wf.registered hst)
  · intro name e hit hs
    obtain ⟨g, hg, hn, ms⟩ := hr.captured hit hs
    refine ⟨g, hg, hn, fun mem hm => ?_⟩
    obtain ⟨hp, hl | ⟨all, ha⟩⟩ := ms mem hm
    · exact ⟨hp, .inl hl⟩
    · rw [hi] at ha
      exact ⟨hp, .inr ⟨all, (mem_includeAllNames.mp ha).1⟩⟩

theorem accepted_of_buildProxyLayer {parsers : LeafParsers Definition}
    {compile : Text → Except Text Unit} {providers : List Text} {strict : Bool} {layer : Layer}
    (hb : buildProxyLayer parsers compile providers strict raw = .ok layer) :
    ∃ staticProxyNames grouped,
      Accepted layer (raw.proxyGroups.getD []) staticProxyNames grouped := by
  unfold buildProxyLayer at hb
  simp only [bind, Except.bind, throw, throwThe, MonadExceptOf.throw] at hb
  split at hb
  · cases hb
  split at hb
  · cases hb
  rename_i leaves leavesEq
  split at hb
  · cases hb
  rename_i ns
  split at hb
  · cases hb
  rename_i decl
  split at hb
  · cases hb
  rename_i chained boundEq
  have wf := insertParsedLeaves_wellFormed builtins_wellFormed leavesEq
  obtain ⟨hbo, hs⟩ := applyDialerProxies_chained wf boundEq
  refine ⟨leaves.staticProxyNames, ?_⟩
  split at hb
  · split at hb
    · cases hb
    · exact accepted_of_buildGroupLayer rfl wf ns decl hbo hs hb
  · exact accepted_of_buildGroupLayer rfl wf ns decl hbo hs hb

section Accepted

variable {layer : Layer} {groups : List RawProxyGroup} {staticProxyNames : List Text}
variable {grouped : Registry}

theorem Accepted.mem_layer (accepted : Accepted layer groups staticProxyNames grouped) {name : Text}
    (hm : name ∈ grouped) : name ∈ layer.proxies := by
  rcases accepted.finished with hs | ⟨_, e, ha, _⟩
  · rw [hs]
    exact hm
  · rw [ha]
    exact mem_insert_of_mem hm

theorem Accepted.lookup_cases (accepted : Accepted layer groups staticProxyNames grouped)
    {name : Text} {e : Proxy} (hi : layer.proxies.lookup name = some e) :
    grouped.lookup name = some e ∨ name = globalName ∧ globalName ∉ grouped ∧ e.dialer = none ∧
        ∀ m ∈ e.members, m ∈ grouped := by
  rcases accepted.finished with hs | ⟨hm, all, ha, hd, ms⟩
  · rw [hs] at hi
    exact .inl hi
  · rw [ha] at hi
    rcases lookup_insert_eq_some hi with ⟨hg, rfl⟩ | ⟨_, hp⟩
    · exact .inr ⟨hg, hm, hd, ms⟩
    · exact .inl hp

def Accepted.graph (_ : Accepted layer groups staticProxyNames grouped) : MembershipGraph :=
  ⟨layer.dialerEdges, groups, layer.proxies, staticProxyNames,
    !decide (globalName ∈ grouped) && globalName ∈ layer.proxies⟩

section

variable (accepted : Accepted layer groups staticProxyNames grouped)
include accepted

/-- The membership check looked at every step a dial can take. -/
theorem Accepted.mem_next {name o : Text} (hs : DialStep layer name o) :
    o ∈ accepted.graph.next name := by
  rw [MembershipGraph.next, mem_reverse, mem_append]
  cases hs with
  | chain edge hr =>
    left
    have hi : layer.dialerEdges.reverse.find? (fun edge =>
        edge.1 = name ∧ edge.1 ∈ layer.proxies) = some (name, o) :=
      find?_reverse_of_nodup accepted.sources edge (by simpa using hr)
        fun _ ht => (of_decide_eq_true ht).1
    have hdi : accepted.graph.dialerOf name = some o := by
      rw [MembershipGraph.dialerOf, Accepted.graph, hi, map_some]
    rw [hdi]
    exact mem_cons_self
  | member hi hc =>
    right
    rw [MembershipGraph.membersOf, mem_append]
    rcases accepted.lookup_cases hi with hg | ⟨rfl, hm, _, ms⟩
    · left
      obtain ⟨group, hgr, rfl, ms⟩ := accepted.captured hg (ne_nil_of_mem hc)
      obtain ⟨hp, hd⟩ := ms o hc
      have hr : group.name ∈ layer.proxies := lookup_isSome.mp (by rw [hi]; rfl)
      refine mem_flatMap.mpr ⟨group, mem_filter.mpr ⟨hgr, decide_eq_true ⟨rfl, hr⟩⟩, ?_⟩
      rw [MembershipGraph.groupMembers, mem_append]
      have hl := accepted.mem_layer hp
      rcases hd with hli | ⟨all, hst⟩
      · exact .inl (mem_filter.mpr ⟨hli, decide_eq_true hl⟩)
      · right
        rw [if_pos all]
        exact mem_filter.mpr ⟨hst, decide_eq_true hl⟩
    · right
      have hr : globalName ∈ layer.proxies := lookup_isSome.mp (by rw [hi]; rfl)
      have ha : accepted.graph.globalAutoCreated = true := by
        simp [Accepted.graph, hm, hr]
      rw [if_pos ⟨ha, rfl⟩]
      exact mem_keys.mp (accepted.mem_layer (ms o hc))

/-- The memberships of the groups before `GLOBAL` is added end. -/
theorem Accepted.acc_grouped (name : Text) :
    Acc (fun m name => ∃ e, grouped.lookup name = some e ∧ m ∈ e.members)
      name := by
  have hu : ∀ {name : Text}, name ∉ groupNames groups →
      Acc (fun m name => ∃ e, grouped.lookup name = some e ∧ m ∈ e.members)
        name := by
    intro name hng
    refine Acc.intro name fun m ⟨e, hi, hc⟩ => ?_
    obtain ⟨g, hg, rfl, _⟩ := accepted.captured hi (ne_nil_of_mem hc)
    exact absurd (mem_map_of_mem hg) hng
  by_cases hd : name ∈ groupNames groups
  · have hch := acc_of_rejectDeclaredGroupCycles accepted.acyclic hd
    induction hch with
    | intro name _ ih =>
      refine Acc.intro name fun m ⟨e, hi, hc⟩ => ?_
      obtain ⟨g, hg, rfl, ms⟩ := accepted.captured hi (ne_nil_of_mem hc)
      by_cases hn : m ∈ groupNames groups
      · rcases (ms m hc).2 with hl | ⟨_, hs⟩
        · exact ih m (mem_declaredMembers accepted.distinct hg hl hn) hn
        · exact absurd hn (accepted.staticApart hs)
      · exact hu hn
  · exact hu hd

/-- So do those of the finished registry: `GLOBAL` was never captured. -/
theorem Accepted.acc_memberStep (name : Text) :
    Acc (fun mem name => MemberStep layer name mem) name := by
  have he : ∀ name, name ∈ grouped →
      Acc (fun mem name => MemberStep layer name mem) name := by
    intro name
    induction accepted.acc_grouped name with
    | intro name _ ih =>
      intro hp
      refine Acc.intro name fun mem ⟨e, hi, hc⟩ => ?_
      rcases accepted.lookup_cases hi with hg | ⟨rfl, hm, _⟩
      · obtain ⟨g, _, _, ms⟩ :=
          accepted.captured hg (ne_nil_of_mem hc)
        exact ih mem ⟨e, hg, hc⟩ (ms mem hc).1
      · exact absurd hp hm
  refine Acc.intro name fun mem ⟨e, hi, hc⟩ => ?_
  rcases accepted.lookup_cases hi with hg | ⟨_, _, _, ms⟩
  · obtain ⟨g, _, _, ms⟩ := accepted.captured hg (ne_nil_of_mem hc)
    exact he mem (ms mem hc).1
  · exact he mem (ms mem hc)

end

theorem not_transGen_of_acc {α : Type} {rel : α → α → Prop} {start : α} (ha : Acc rel start) :
    ¬ Relation.TransGen rel start start := by
  induction ha with
  | intro start _ ih =>
    intro hc
    obtain ⟨pre, hf, hl⟩ := Relation.TransGen.tail'_iff.mp hc
    exact ih pre hl (Relation.TransGen.head' hl hf)

theorem transGen_dialStep_cases {name o : Text} (hp : Relation.TransGen (DialStep layer) name o) :
    Relation.TransGen (MemberStep layer) name o ∨
      ∃ source dialer, Relation.ReflTransGen (DialStep layer) name source ∧
        (source, dialer) ∈ layer.dialerEdges ∧ source ∈ layer.proxies ∧
          Relation.ReflTransGen (DialStep layer) dialer o := by
  induction hp with
  | single hs =>
    cases hs with
    | chain he hr => exact .inr ⟨_, _, .refl, he, hr, .refl⟩
    | member hi hc => exact .inl (.single ⟨_, hi, hc⟩)
  | tail hf hs ih =>
    rcases ih with hg | ⟨source, dialer, pre, he, hr, ha⟩
    · cases hs with
      | chain he hr => exact .inr ⟨_, _, hf.to_reflTransGen, he, hr, .refl⟩
      | member hi hc => exact .inl (hg.tail ⟨_, hi, hc⟩)
    · exact .inr ⟨source, dialer, pre, he, hr, ha.tail hs⟩

theorem Accepted.irrefl (accepted : Accepted layer groups staticProxyNames grouped) (name : Text) :
    ¬ Relation.TransGen (DialStep layer) name name := by
  intro hc
  rcases transGen_dialStep_cases hc with
    inGroups | ⟨source, dialer, hp, edge, registered, ha⟩
  · exact not_transGen_of_acc (accepted.acc_memberStep name) (Relation.transGen_swap.mpr inGroups)
  · refine not_reaches_of_rejectGroupMembershipCycles accepted.membership edge registered ?_
    exact Relation.ReflTransGen.mono (fun _ _ => accepted.mem_next) _ _ (ha.trans hp)

theorem mem_of_isChain_dialStep {path : List Text} (hp : path.IsChain (DialStep layer)) :
    ∀ name ∈ path.dropLast, name ∈ layer.proxies := by
  induction path with
  | nil => exact nofun
  | cons first path ih =>
    cases path with
    | nil => exact nofun
    | cons snd path =>
      obtain ⟨hs, hr⟩ := isChain_cons_cons.mp hp
      refine forall_mem_cons.mpr ⟨?_, ih hr⟩
      cases hs with
      | chain _ hre => exact hre
      | member hi _ => exact lookup_isSome.mp (by rw [hi]; rfl)

theorem Accepted.length_le (accepted : Accepted layer groups staticProxyNames grouped)
    {path : List Text} (hp : path.IsChain (DialStep layer)) :
    path.length ≤ layer.proxies.keys.length + 1 := by
  have ho : path.Pairwise (Relation.TransGen (DialStep layer)) :=
    isChain_iff_pairwise.mp (hp.imp fun _ _ => Relation.TransGen.single)
  have nd : path.Nodup := by
    refine ho.imp ?_
    rintro fst snd path rfl
    exact accepted.irrefl fst path
  have hs : path.dropLast ⊆ layer.proxies.keys := fun name mem =>
    mem_keys.mp (mem_of_isChain_dialStep hp name mem)
  have hm := (subperm_of_subset (nd.sublist (dropLast_sublist path)) hs).length_le
  rw [length_dropLast] at hm
  omega

end Accepted

/-- No dial of an accepted configuration comes back to an entry it went through, so a path of dial
steps is no longer than the registry, whichever members the groups pick. -/
theorem buildProxyLayer_dials_end {parsers : LeafParsers Definition}
    {compile : Text → Except Text Unit} {providers : List Text} {strict : Bool}
    {raw : RawConfig Definition} {layer : Layer}
    (built : buildProxyLayer parsers compile providers strict raw = .ok layer) :
    (∀ name entry dialer, layer.proxies.lookup name = some entry → entry.dialer = some dialer →
      DialStep layer name dialer) ∧
    (∀ name, ¬ Relation.TransGen (DialStep layer) name name) ∧
    ∀ path : List Text, path.IsChain (DialStep layer) →
      path.length ≤ layer.proxies.keys.length + 1 := by
  obtain ⟨staticProxyNames, grouped, accepted⟩ := accepted_of_buildProxyLayer built
  refine ⟨fun name entry dialer hf hd => ?_, accepted.irrefl, fun _ => accepted.length_le⟩
  rcases accepted.lookup_cases hf with hg | ⟨_, _, hdi, _⟩
  · exact .chain (accepted.dialer hg hd) (lookup_isSome.mp (by rw [hf]; rfl))
  · rw [hdi] at hd
    cases hd

def chainedConfig : RawConfig Unit where
  proxies := some [⟨some (ofString "a"), .text (ofString "G"), ()⟩,
    ⟨some (ofString "b"), .absent, ()⟩]
  proxyGroups := some [{ globalConfig [ofString "b"] with name := ofString "G" }]
  rules := none
  tcpConnectTimeout := none

def plainParsers : LeafParsers Unit where
  parseStaticProxy raw := .ok ⟨raw.name.getD [], .http⟩
  placeholderAdapterType _ := none
  parseProxyWithDialer raw := .ok ⟨raw.name.getD [], .http⟩

theorem buildProxyLayer_dials_end_chained :
    ∃ layer, buildProxyLayer plainParsers (fun _ => .ok ()) [] false chainedConfig = .ok layer ∧
      ¬ Relation.TransGen (DialStep layer) (ofString "a") (ofString "a") := by
  have accepted : (buildProxyLayer plainParsers (fun _ => .ok ()) [] false
      chainedConfig).isOk = true := by
    decide +kernel
  cases hb : buildProxyLayer plainParsers (fun _ => .ok ()) [] false chainedConfig with
  | error reason =>
    rw [hb] at accepted
    cases accepted
  | ok layer => exact ⟨layer, rfl, (buildProxyLayer_dials_end hb).2.1 _⟩

end MeowRs.ProxyLayer
