import MeowRs.DialGraph

/-!
# The order of the groups

The lenient build takes the groups in passes, and a group whose group dependencies never get built
waits for the final sweep.  A group is buildable when it parses with the members that are leaves or
buildable groups.  The passes build every group whose dependencies are buildable all the way down,
whatever the order; what the sweep makes of the others depends on it.
-/

namespace MeowRs

open List Option Text AList

namespace ProxyLayer

section Lenient

variable {cfg : RawProxyGroup} {ctx : GroupContext} {e : Proxy}

/-- A group parsed leniently once its `proxies:` list is resolved. -/
def lenientGroup (context : GroupContext) (config : RawProxyGroup) (resolved : List Text) :
    Except Text Proxy :=
  let included := if config.includeAllProxies.getD false then context.includeAllProxies else []
  match (compileOptRegex context.compile config.filter (ofString "filter")).bind fun _ =>
      compileOptRegex context.compile config.excludeFilter (ofString "exclude-filter") with
  | .error reason =>
    .error (ofString "group '" ++ config.name ++ ofString "': " ++ reason)
  | .ok () =>
    match providerSlots config context.providers false with
    | .error reason => .error reason
    | .ok slots => constructGroup config (included ++ resolved) slots

theorem resolveNames_lenient (group : Text) (ex : Registry) (names : List Text) :
    resolveNames group ex false names = .ok (names.filter (· ∈ ex)) := by
  induction names with
  | nil => rfl
  | cons name names ih =>
    rw [resolveNames, ih]
    cases hf : ex.lookup name with
    | none =>
      have hm : name ∉ ex := lookup_eq_none.mp hf
      rw [filter_cons_of_neg (by simpa using hm)]
      rfl
    | some e =>
      have hp : name ∈ ex := lookup_isSome.mp (by rw [hf]; rfl)
      rw [filter_cons_of_pos (by simpa using hp)]

theorem resolveNames_strict {group : Text} {ex : Registry} {names resolved : List Text}
    (hf : resolveNames group ex true names = .ok resolved) : names.filter (· ∈ ex) = resolved := by
  induction names generalizing resolved with
  | nil =>
    cases hf
    rfl
  | cons name names ih =>
    rw [resolveNames] at hf
    cases hn : ex.lookup name with
    | none =>
      rw [hn] at hf
      cases hf
    | some e =>
      rw [hn] at hf
      have hp : name ∈ ex := lookup_isSome.mp (by rw [hn]; rfl)
      cases hr : resolveNames group ex true names with
      | error reason =>
        rw [hr] at hf
        cases hf
      | ok later =>
        rw [hr] at hf
        cases hf
        rw [filter_cons_of_pos (by simpa using hp), ih hr]

theorem useSlots_lenient {providers seen names slots : List Text}
    (hu : useSlots cfg providers true seen names = .ok slots) :
    useSlots cfg providers false seen names = .ok slots := by
  induction names generalizing seen slots with
  | nil => exact hu
  | cons name names ih =>
    rw [useSlots] at hu ⊢
    split at hu
    · rw [if_pos ‹_›]
      exact ih hu
    rw [if_neg ‹_›]
    split at hu
    · rw [if_pos ‹_›]
      cases hr : useSlots cfg providers true (name :: seen) names with
      | error reason =>
        rw [hr] at hu
        cases hu
      | ok later =>
        rw [hr] at hu
        rw [ih hr]
        exact hu
    rw [if_neg ‹_›, if_neg (by simp)]
    split at hu
    · cases hu
    · exact ih hu

theorem parseProxyGroupInner_lenient (ctx : GroupContext) (cfg : RawProxyGroup) (ex : Registry) :
    parseProxyGroupInner ctx cfg ex false =
      lenientGroup ctx cfg ((cfg.proxies.getD []).filter (· ∈ ex)) := by
  rw [parseProxyGroupInner, resolveNames_lenient]
  rfl

theorem parseProxyGroupInner_of_strict {ex : Registry} {strict : Bool}
    (hp : parseProxyGroupInner ctx cfg ex strict = .ok e) :
    lenientGroup ctx cfg ((cfg.proxies.getD []).filter (· ∈ ex)) = .ok e := by
  cases strict with
  | false => rw [← parseProxyGroupInner_lenient, hp]
  | true =>
    unfold parseProxyGroupInner at hp
    dsimp only at hp
    split at hp
    · cases hp
    rename_i resolved resolvedEq
    split at hp
    · cases hp
    rename_i compiled
    rw [resolveNames_strict resolvedEq, lenientGroup, compiled]
    have hs : ∀ slots, providerSlots cfg ctx.providers true = .ok slots →
        providerSlots cfg ctx.providers false = .ok slots := by
      intro slots hf
      unfold providerSlots at hf ⊢
      split at hf
      · rw [if_pos ‹_›]
        exact hf
      · rw [if_neg ‹_›]
        exact useSlots_lenient hf
    split at hp
    · cases hp
    · rename_i slots hf
      rw [hs slots hf]
      exact hp

theorem constructGroup_of_length_le {proxies more slots : List Text}
    (hl : proxies.length ≤ more.length) (hb : constructGroup cfg proxies slots = .ok e) :
    ∃ e, constructGroup cfg more slots = .ok e := by
  have hf : ∀ {list o : List Text}, list.length ≤ o.length → ¬ list.isEmpty = true →
      ¬ o.isEmpty = true := by
    intro list o le ne
    rw [List.isEmpty_iff] at ne ⊢
    have := length_pos_iff.mpr ne
    exact ne_nil_of_length_pos (by omega)
  unfold constructGroup at hb ⊢
  split at hb
  · cases hb
  rename_i present
  rw [if_neg (by
    intro hm
    rw [Bool.and_eq_true] at hm
    exact present (by
      rw [Bool.and_eq_true]
      exact ⟨by_contra fun ne => hf hl ne hm.1, hm.2⟩))]
  split at hb
  · exact ⟨_, rfl⟩
  · exact ⟨_, rfl⟩
  · exact ⟨_, rfl⟩
  · split at hb
    · exact ⟨_, rfl⟩
    · cases hb
  · unfold parseRelayGroup at hb ⊢
    split at hb
    · cases hb
    rename_i ne
    rw [if_neg (hf hl ne)]
    split at hb
    · cases hb
    · rw [if_neg (by omega)]
      exact ⟨_, rfl⟩
  · cases hb

theorem lenientGroup_eq_ok {resolved : List Text} (hb : lenientGroup ctx cfg resolved = .ok e) :
    e.name = cfg.name ∧ e.members =
      (if cfg.includeAllProxies.getD false then ctx.includeAllProxies else []) ++
        resolved := by
  unfold lenientGroup at hb
  dsimp only at hb
  split at hb
  · cases hb
  split at hb
  · cases hb
  · obtain ⟨name, _, ms⟩ := constructGroup_eq_ok hb
    exact ⟨name, ms⟩

theorem lenientGroup_mono {resolved more : List Text} (hk : resolved.length ≤ more.length)
    (hb : lenientGroup ctx cfg resolved = .ok e) : ∃ e, lenientGroup ctx cfg more = .ok e := by
  unfold lenientGroup at hb ⊢
  dsimp only at hb ⊢
  split at hb
  · cases hb
  split at hb
  · cases hb
  · exact constructGroup_of_length_le (by simpa using hk) hb

end Lenient

section Buildable

variable (context : GroupContext) (leaves : Registry) (groups : List RawProxyGroup)

def Names (name member : Text) : Prop :=
  ∃ group ∈ groups, group.name = name ∧ member ∈ group.proxies.getD [] ∧
    member ∈ groupNames groups

/-- The groups that parse with members that are leaves or buildable groups. -/
inductive Buildable : Text → Prop
  | intro {group : RawProxyGroup} (isGroup : group ∈ groups) {kept : List Text}
      (listed : kept.Sublist (group.proxies.getD []))
      (members : ∀ member ∈ kept, member ∉ leaves → Buildable member) {entry : Proxy}
      (parses : lenientGroup context group kept = .ok entry) : Buildable group.name

/-- The groups that are buildable with everything they depend on. -/
def WhollyBuildable (name : Text) : Prop :=
  ∀ dependency, Relation.ReflTransGen (Names groups) name dependency →
    Buildable context leaves groups dependency

open Classical in
/-- The members of a group that are leaves or buildable groups. -/
noncomputable def keptMembers (group : RawProxyGroup) : List Text :=
  (group.proxies.getD []).filter fun member =>
    member ∈ leaves ∨ Buildable context leaves groups member

noncomputable def groupEntry (name : Text) : Option Proxy :=
  (groups.find? (·.name = name)).bind fun group =>
    (lenientGroup context group (keptMembers context leaves groups group)).toOption

end Buildable

section Settled

variable {ctx : GroupContext} {leaves : Registry} {gs : List RawProxyGroup}
  {g : RawProxyGroup} {name : Text}

theorem mem_groupNames (hg : g ∈ gs) : g.name ∈ groupNames gs :=
  mem_map_of_mem hg

theorem Buildable.mem_groupNames (hb : Buildable ctx leaves gs name) : name ∈ groupNames gs := by
  cases hb with
  | intro hg _ _ _ => exact ProxyLayer.mem_groupNames hg

theorem WhollyBuildable.buildable (hw : WhollyBuildable ctx leaves gs name) :
    Buildable ctx leaves gs name :=
  hw name Relation.ReflTransGen.refl

theorem WhollyBuildable.of_names {name m : Text} (hw : WhollyBuildable ctx leaves gs name)
    (hn : Names gs name m) : WhollyBuildable ctx leaves gs m :=
  fun dependency hp => hw dependency (Relation.ReflTransGen.head hn hp)

theorem whollyBuildable_of_members (hb : Buildable ctx leaves gs name) (ms : ∀ m, Names gs name m →
      WhollyBuildable ctx leaves gs m) : WhollyBuildable ctx leaves gs name := by
  intro dependency hp
  rcases Relation.ReflTransGen.cases_head hp with rfl | ⟨m, hn, hr⟩
  · exact hb
  · exact ms m hn dependency hr

variable (distinct : (groupNames gs).Nodup)
include distinct

theorem eq_of_name_eq {g o : RawProxyGroup} (hg : g ∈ gs) (ho : o ∈ gs)
    (hs : g.name = o.name) : g = o :=
  inj_on_of_nodup_map distinct hg ho hs

theorem buildable_iff (hg : g ∈ gs) :
    Buildable ctx leaves gs g.name ↔
      ∃ e, lenientGroup ctx g (keptMembers ctx leaves gs g) = .ok e := by
  classical
  constructor
  · generalize hn : g.name = name
    intro hb
    cases hb with
    | @intro o ho kept hli ms e hp =>
      cases eq_of_name_eq distinct hg ho hn
      apply lenientGroup_mono _ hp
      have kept_eq : kept.filter (fun m =>
          m ∈ leaves ∨ Buildable ctx leaves gs m) = kept := by
        apply filter_eq_self.mpr
        intro m hk
        apply decide_eq_true
        by_cases hl : m ∈ leaves
        · exact .inl hl
        · exact .inr (ms m hk hl)
      rw [← kept_eq]
      exact (hli.filter _).length_le
  · rintro ⟨e, hp⟩
    apply Buildable.intro hg filter_sublist _ hp
    intro m hk hnl
    exact (of_decide_eq_true (mem_filter.mp hk).2).resolve_left hnl

theorem groupEntry_eq (hg : g ∈ gs) :
    groupEntry ctx leaves gs g.name =
      (lenientGroup ctx g (keptMembers ctx leaves gs g)).toOption := by
  have hf : gs.find? (·.name = g.name) = some g := by
    cases at_ : gs.find? (·.name = g.name) with
    | none =>
      have := find?_eq_none.mp at_ g hg
      simp at this
    | some o =>
      have hs : o.name = g.name := by simpa using find?_some at_
      rw [eq_of_name_eq distinct (mem_of_find?_eq_some at_) hg hs]
  rw [groupEntry, hf]
  rfl

theorem groupEntry_isSome_iff :
    (groupEntry ctx leaves gs name).isSome ↔ Buildable ctx leaves gs name := by
  by_cases hd : name ∈ groupNames gs
  · obtain ⟨g, hg, rfl⟩ := mem_map.mp hd
    rw [groupEntry_eq distinct hg, buildable_iff distinct hg]
    cases lenientGroup ctx g (keptMembers ctx leaves gs g) with
    | error reason | ok e => simp [Except.toOption]
  · have hm : gs.find? (·.name = name) = none := by
      apply find?_eq_none.mpr
      intro g hg hs
      exact hd (of_decide_eq_true hs ▸ mem_groupNames hg)
    rw [groupEntry, hm]
    constructor
    · nofun
    · exact fun hb => absurd hb.mem_groupNames hd

end Settled

section Passes

variable {ctx : GroupContext} {leaves : Registry} {gs order : List RawProxyGroup}
  {s : BuildState} {g : RawProxyGroup} {waiting : List RawProxyGroup}
  {pre after : List RawProxyGroup}

/-- The state between two groups of a pass: the passes have built groups that are buildable with all
they depend on, each with every member it can have, and the others wait in list order. -/
structure Settled (context : GroupContext) (leaves : Registry) (groups order : List RawProxyGroup)
    (state : BuildState) (waiting : List RawProxyGroup) : Prop where
  wholly : ∀ name ∈ state.builtGroupNames, WhollyBuildable context leaves groups name
  lookup : ∀ name, state.proxies.lookup name =
    if name ∈ state.builtGroupNames then groupEntry context leaves groups name
    else leaves.lookup name
  waiting : waiting = order.filter (·.name ∉ state.builtGroupNames)

theorem settled_start : Settled ctx leaves gs order ⟨leaves, []⟩ order where
  wholly := nofun
  lookup := fun name => by simp
  waiting := by simp

theorem hasUnresolvedGroupDependency_eq_false {decl built : List Text}
    (hr : ¬ hasUnresolvedGroupDependency g decl built = true) :
    ∀ m ∈ g.proxies.getD [], m ∈ decl → m ∈ built := by
  intro m hl hd
  by_contra missing
  exact hr (any_eq_true.mpr ⟨m, hl, by simp [hd, missing]⟩)

theorem filter_notMem_cons (distinct : (groupNames order).Nodup) {built : List Text}
    (waiting : pre ++ g :: after = order.filter (·.name ∉ built)) :
    pre ++ after = order.filter (·.name ∉ g.name :: built) := by
  have hsp : order.filter (·.name ∉ g.name :: built) =
      (order.filter (·.name ∉ built)).filter (·.name ≠ g.name) := by
    rw [List.filter_filter]
    apply filter_congr
    simp [not_or]
  have apart : (groupNames (pre ++ g :: after)).Nodup := by
    rw [waiting]
    exact distinct.sublist (filter_sublist.map _)
  rw [hsp, ← waiting, filter_append, filter_cons_of_neg (by simp)]
  have os : ∀ o ∈ pre ++ after, o.name ≠ g.name := by
    intro o m hs
    have hm := (perm_middle.map RawProxyGroup.name).nodup_iff.mp apart
    rw [map_cons, nodup_cons] at hm
    exact hm.1 (hs ▸ mem_map_of_mem m)
  rw [filter_eq_self.mpr fun o m =>
      decide_eq_true (os o (mem_append_left _ m)),
    filter_eq_self.mpr fun o m =>
      decide_eq_true (os o (mem_append_right _ m))]

def Stuck (context : GroupContext) (declared : List Text) (strict : Bool) (state : BuildState)
    (group : RawProxyGroup) : Prop :=
  hasUnresolvedGroupDependency group declared state.builtGroupNames = true ∨
    ∃ reason, parseProxyGroupInner context group state.proxies strict = .error reason

theorem buildPass_progress_mono {decl : List Text} {strict : Bool} {todo : List RawProxyGroup}
    {pass : Pass} (hpr : pass.progress = true) :
    (buildPass ctx decl strict todo pass).progress = true ∧
      (buildPass ctx decl strict todo pass).remaining.length ≤
        pass.remaining.length + todo.length := by
  induction todo generalizing pass with
  | nil => exact ⟨hpr, le_refl _⟩
  | cons g todo ih =>
    have hp := @ih { pass with remaining := pass.remaining ++ [g] } hpr
    simp only [length_append, length_singleton, Nat.add_assoc, Nat.add_comm 1] at hp
    rw [buildPass, length_cons]
    split
    · exact hp
    · split
      · exact (ih rfl).imp_right Nat.le_succ_of_le
      · exact hp

/-- A pass leaves fewer groups or finds every one of them stuck. -/
theorem buildPass_cases {decl : List Text} {strict : Bool} {todo : List RawProxyGroup}
    (pass : Pass) :
    buildPass ctx decl strict todo pass = { pass with remaining := pass.remaining ++ todo } ∧
        (∀ g ∈ todo, Stuck ctx decl strict pass.state g) ∨
      (buildPass ctx decl strict todo pass).progress = true ∧
        (buildPass ctx decl strict todo pass).remaining.length <
          pass.remaining.length + todo.length := by
  induction todo generalizing pass with
  | nil => exact .inl ⟨by simp [buildPass], fun _ m => absurd m not_mem_nil⟩
  | cons g todo ih =>
    -- what the rest of the pass does when this group is put off
    have hl := ih { pass with remaining := pass.remaining ++ [g] }
    simp only [append_assoc, singleton_append, length_append,
      length_singleton, Nat.add_assoc, Nat.add_comm 1] at hl
    rw [buildPass, length_cons]
    split
    · rename_i unresolved
      exact hl.imp_left fun hs =>
        ⟨hs.1, forall_mem_cons.mpr ⟨.inl unresolved, hs.2⟩⟩
    · split
      · exact .inr ((buildPass_progress_mono rfl).imp_right Nat.lt_succ_of_le)
      · rename_i reason failed
        exact hl.imp_left fun hs =>
          ⟨hs.1, forall_mem_cons.mpr ⟨.inr ⟨reason, failed⟩, hs.2⟩⟩

theorem exists_minimal_of_acc {α : Type*} {r : α → α → Prop} {holds : α → Prop} {a : α}
    (ha : Acc r a) (hs : holds a) : ∃ b, holds b ∧ ∀ c, r c b → ¬ holds c := by
  induction ha with
  | intro a _ ih =>
    by_cases hl : ∃ c, r c a ∧ holds c
    · obtain ⟨c, hb, hh⟩ := hl
      exact ih c hb hh
    · exact ⟨a, hs, fun c hb hh => hl ⟨c, hb, hh⟩⟩

variable (distinct : (groupNames gs).Nodup)
include distinct

theorem Settled.mem_proxies (hs : Settled ctx leaves gs order s waiting)
    {name : Text} : name ∈ s.proxies ↔ name ∈ leaves ∨ name ∈ s.builtGroupNames := by
  rw [← lookup_isSome, ← lookup_isSome, hs.lookup name]
  by_cases hb : name ∈ s.builtGroupNames
  · rw [if_pos hb, groupEntry_isSome_iff distinct]
    exact ⟨fun _ => .inr hb, fun _ => (hs.wholly name hb).buildable⟩
  · rw [if_neg hb]
    exact ⟨.inl, fun hei => hei.resolve_right hb⟩

theorem Settled.filter_eq (hs : Settled ctx leaves gs order s waiting)
    (hr : ∀ m ∈ g.proxies.getD [], m ∈ groupNames gs → m ∈ s.builtGroupNames) :
    (g.proxies.getD []).filter (· ∈ s.proxies) =
      keptMembers ctx leaves gs g := by
  apply filter_congr
  intro m hl
  apply decide_eq_decide.mpr
  rw [hs.mem_proxies distinct]
  apply or_congr_right
  constructor
  · exact fun hb => (hs.wholly m hb).buildable
  · exact fun hbu => hr m hl hbu.mem_groupNames

variable (perm : order.Perm gs)
include perm

theorem Settled.step (hs : Settled ctx leaves gs order s (pre ++ g :: after))
    (hr : ¬ hasUnresolvedGroupDependency g (groupNames order) s.builtGroupNames = true)
    {strict : Bool} {e : Proxy} (hpa : parseProxyGroupInner ctx g s.proxies strict = .ok e) :
    Settled ctx leaves gs order
      ⟨s.proxies.insert e.name e, e.name :: s.builtGroupNames⟩
    (pre ++ after) := by
  have hn : (groupNames order).Perm (groupNames gs) := perm.map _
  have hg : g ∈ gs := by
    apply perm.mem_iff.mp
    have : g ∈ pre ++ g :: after := by simp
    rw [hs.waiting] at this
    exact (mem_filter.mp this).1
  have hb : ∀ m ∈ g.proxies.getD [], m ∈ groupNames gs →
      m ∈ s.builtGroupNames := fun m hl hd =>
    hasUnresolvedGroupDependency_eq_false hr m hl (hn.mem_iff.mpr hd)
  have hf : lenientGroup ctx g (keptMembers ctx leaves gs g) = .ok e := by
    rw [← hs.filter_eq distinct hb]
    exact parseProxyGroupInner_of_strict hpa
  have name : e.name = g.name := (lenientGroup_eq_ok hf).1
  have hbu : Buildable ctx leaves gs g.name := (buildable_iff distinct hg).mpr ⟨e, hf⟩
  rw [name]
  constructor
  · intro o m
    rcases mem_cons.mp m with rfl | hp
    · apply whollyBuildable_of_members hbu
      rintro m ⟨o, ho, same, hl, hd⟩
      cases eq_of_name_eq distinct ho hg same
      exact hs.wholly m (hb m hl hd)
    · exact hs.wholly o hp
  · intro o
    rcases eq_or_ne o g.name with rfl | hdi
    · rw [lookup_insert, if_pos mem_cons_self, groupEntry_eq distinct hg, hf]
      rfl
    · rw [lookup_insert_ne hdi, hs.lookup o]
      simp only [mem_cons, hdi, false_or]
  · exact filter_notMem_cons (hn.nodup_iff.mpr distinct) hs.waiting

theorem Settled.after_pass (strict : Bool) {todo : List RawProxyGroup} {pass : Pass}
    (hs : Settled ctx leaves gs order pass.state (pass.remaining ++ todo)) :
    Settled ctx leaves gs order
      (buildPass ctx (groupNames order) strict todo pass).state
      (buildPass ctx (groupNames order) strict todo pass).remaining := by
  induction todo generalizing pass with
  | nil => simpa [buildPass] using hs
  | cons g todo ih =>
    have hd : Settled ctx leaves gs order pass.state
        ((pass.remaining ++ [g]) ++ todo) := by
      rw [append_assoc]
      exact hs
    rw [buildPass]
    split
    · exact ih hd
    · rename_i resolved
      split
      · rename_i e parsed
        exact ih (hs.step distinct perm resolved parsed)
      · exact ih hd

variable (he : ∀ name, Acc (fun m name => Names gs name m) name)
include he

/-- Once a lenient pass is stuck, no waiting group is buildable with all it depends on: the lowest
one would have been built. -/
theorem Settled.not_wholly (hs : Settled ctx leaves gs order s waiting)
    (hst : ∀ g ∈ waiting, Stuck ctx (groupNames order) false s g) :
    ∀ g ∈ waiting, ¬ WhollyBuildable ctx leaves gs g.name := by
  intro first hwa hwh
  obtain ⟨name, ⟨g, hg, rfl, hgw⟩, hlo⟩ :=
    @exists_minimal_of_acc _ _ (fun name => ∃ g ∈ waiting, g.name = name ∧
      WhollyBuildable ctx leaves gs name) _ (he first.name) ⟨first, hwa, rfl, hwh⟩
  have hw : ∀ {o : RawProxyGroup}, o ∈ waiting ↔
      o ∈ gs ∧ o.name ∉ s.builtGroupNames := by
    intro o
    rw [hs.waiting, mem_filter, perm.mem_iff, decide_eq_true_iff]
  have hgr := (hw.mp hg).1
  have hr : ∀ m ∈ g.proxies.getD [], m ∈ groupNames gs →
      m ∈ s.builtGroupNames := by
    intro m hl hd
    have hn : Names gs g.name m := ⟨g, hgr, rfl, hl, hd⟩
    obtain ⟨o, ho, rfl⟩ := mem_map.mp hd
    by_contra hm
    exact hlo o.name hn ⟨o, hw.mpr ⟨ho, hm⟩, rfl, hgw.of_names hn⟩
  obtain ⟨e, hp⟩ := (buildable_iff distinct hgr).mp hgw.buildable
  rcases hst g hg with hu | ⟨reason, hf⟩
  · obtain ⟨m, hl, hb⟩ := any_eq_true.mp hu
    obtain ⟨hd, hm⟩ := of_decide_eq_true hb
    exact hm (hr m hl ((perm.map _).mem_iff.mp hd))
  · rw [parseProxyGroupInner_lenient, hs.filter_eq distinct hr, hp] at hf
    cases hf

/-- The passes end with a sweep over the groups that are not buildable with all they depend on, in
list order, once all the others are built. -/
theorem Settled.at_sweep {passes : Nat} {todo : List RawProxyGroup} (hen : todo.length < passes)
    (hse : Settled ctx leaves gs order s todo) :
    ∃ rem waiting swept, resolveGroups ctx (groupNames order) false passes todo s =
        .ok (rem, finalSweep ctx waiting swept.proxies) ∧
      Settled ctx leaves gs order swept waiting ∧
      ∀ g ∈ waiting, ¬ WhollyBuildable ctx leaves gs g.name := by
  induction passes generalizing todo s with
  | zero => omega
  | succ passes ih =>
    cases todo with
    | nil =>
      exact ⟨[], [], s, rfl, hse, fun _ m => absurd m not_mem_nil⟩
    | cons g todo =>
      have ha := @Settled.after_pass _ _ _ _ distinct perm true (g :: todo) ⟨s, [], false⟩ hse
      have hsc := @buildPass_cases ctx (groupNames order) true (g :: todo) ⟨s, [], false⟩
      rw [resolveGroups]
      generalize buildPass ctx (groupNames order) true (g :: todo) ⟨s, [], false⟩ = pass at ha hsc
      split
      · rename_i emptied
        rw [List.isEmpty_iff] at emptied
        rw [emptied] at ha
        exact ⟨[], [], pass.state, rfl, ha, fun _ m => absurd m not_mem_nil⟩
      have hsh : pass.remaining.length ≤ (g :: todo).length ∧
          (pass.progress = true → pass.remaining.length < (g :: todo).length) := by
        rcases hsc with ⟨hs, _⟩ | ⟨_, hf⟩
        · simp [hs]
        · simp only [length_nil, Nat.zero_add] at hf
          exact ⟨le_of_lt hf, fun _ => hf⟩
      split
      · exact ih (by have := hsh.2 ‹_›; omega) ha
      have hal := @Settled.after_pass _ _ _ _ distinct perm false pass.remaining
        ⟨pass.state, [], false⟩ ha
      rcases @buildPass_cases ctx (groupNames order) false pass.remaining
        ⟨pass.state, [], false⟩ with ⟨hs, hst⟩ | ⟨hm, hf⟩
      · rw [hs] at hal ⊢
        exact ⟨_, _, _, rfl, hal, hal.not_wholly distinct perm he hst⟩
      · rw [if_pos hm]
        simp only [length_nil, Nat.zero_add] at hf
        exact ih (by omega) hal

end Passes

section Sweep

variable {ctx : GroupContext} {leaves : Registry} {gs : List RawProxyGroup}
  {waiting : List RawProxyGroup}

def HoldsDone (context : GroupContext) (leaves : Registry) (groups : List RawProxyGroup)
    (done : List Text) (proxies : Registry) : Prop :=
  ∀ name, proxies.lookup name =
    if name ∈ done then groupEntry context leaves groups name else leaves.lookup name

theorem finalSweep_lookup_of_notMem {ps : Registry} {name : Text} (ha : name ∉ groupNames waiting) :
    (finalSweep ctx waiting ps).lookup name = ps.lookup name := by
  induction waiting generalizing ps with
  | nil => rfl
  | cons g waiting ih =>
    obtain ⟨hd, hr⟩ := not_or.mp (ha <| mem_cons.mpr ·)
    rw [finalSweep]
    split
    · rename_i e parsed
      rw [parseProxyGroupInner_lenient] at parsed
      rw [ih hr, (lenientGroup_eq_ok parsed).1, lookup_insert_ne hd]
    · exact ih hr

theorem finalSweep_cons (g : RawProxyGroup) (waiting : List RawProxyGroup) (ps : Registry) :
    finalSweep ctx (g :: waiting) ps =
      finalSweep ctx waiting (finalSweep ctx [g] ps) := by
  rw [finalSweep, finalSweep]
  split
  · rfl
  · rfl

variable {done : List Text} {ps : Registry} {g : RawProxyGroup}

variable (distinct : (groupNames gs).Nodup)
include distinct

theorem HoldsDone.leaf_or_buildable (hh : HoldsDone ctx leaves gs done ps) {name : Text}
    (m : name ∈ ps) : name ∈ leaves ∨ Buildable ctx leaves gs name := by
  rw [← lookup_isSome, hh name] at m
  split at m
  · exact .inr ((groupEntry_isSome_iff distinct).mp m)
  · exact .inl (lookup_isSome.mp m)

variable (apart : ∀ name ∈ groupNames gs, name ∉ leaves)
include apart

theorem HoldsDone.step (hg : g ∈ gs) (decl : ∀ name ∈ done, name ∈ groupNames gs)
    (hh : HoldsDone ctx leaves gs done ps)
    (hr : Buildable ctx leaves gs g.name → ∀ m ∈ g.proxies.getD [],
      Buildable ctx leaves gs m → m ∈ done) :
    HoldsDone ctx leaves gs (g.name :: done)
      (finalSweep ctx [g] ps) := by
  have os : ∀ name, name ≠ g.name → (finalSweep ctx [g] ps).lookup name =
      if name ∈ g.name :: done then groupEntry ctx leaves gs name
      else leaves.lookup name := by
    intro name hd
    rw [finalSweep_lookup_of_notMem (by simpa [groupNames] using hd), hh name]
    simp only [mem_cons, hd, false_or]
  intro name
  rcases eq_or_ne name g.name with rfl | hd
  swap
  · exact os name hd
  rw [if_pos mem_cons_self, finalSweep]
  by_cases hb : Buildable ctx leaves gs g.name
  · have hf : (g.proxies.getD []).filter (· ∈ ps) =
        keptMembers ctx leaves gs g := by
      apply filter_congr
      intro m hli
      apply decide_eq_decide.mpr
      constructor
      · exact hh.leaf_or_buildable distinct
      · rintro (hl | hm)
        · have hn : m ∉ done := fun hdo =>
            apart m (decl m hdo) hl
          rw [← lookup_isSome, hh m, if_neg hn]
          exact lookup_isSome.mpr hl
        · rw [← lookup_isSome, hh m, if_pos (hr hb m hli hm)]
          exact (groupEntry_isSome_iff distinct).mpr hm
    obtain ⟨e, hp⟩ := (buildable_iff distinct hg).mp hb
    rw [parseProxyGroupInner_lenient, hf, groupEntry_eq distinct hg, hp]
    dsimp only [finalSweep]
    rw [(lenientGroup_eq_ok hp).1, lookup_insert]
    rfl
  · have hmi : groupEntry ctx leaves gs g.name = none := by
      rw [← not_isSome_iff_eq_none, groupEntry_isSome_iff distinct]
      exact hb
    split
    · rename_i e hpar
      rw [parseProxyGroupInner_lenient] at hpar
      refine absurd (Buildable.intro hg filter_sublist ?_ hpar) hb
      intro m hk hnl
      exact (hh.leaf_or_buildable distinct
        (of_decide_eq_true (mem_filter.mp hk).2)).resolve_left hnl
    · rw [finalSweep, hh g.name, hmi]
      split
      · rfl
      · exact lookup_eq_none.mpr (apart g.name (mem_groupNames hg))

/-- A sweep in which every buildable group finds its buildable members gives every group what it
comes to. -/
theorem HoldsDone.sweep (hlis : ∀ g ∈ waiting, g ∈ gs) {done : List Text}
    (hd : ∀ name ∈ done, name ∈ groupNames gs) {ps : Registry}
    (hh : HoldsDone ctx leaves gs done ps) (hre : ∀ pre g after, waiting = pre ++ g :: after →
      Buildable ctx leaves gs g.name → ∀ m ∈ g.proxies.getD [],
        Buildable ctx leaves gs m → m ∈ done ∨ m ∈ groupNames pre) :
    HoldsDone ctx leaves gs ((groupNames waiting).reverse ++ done)
      (finalSweep ctx waiting ps) := by
  induction waiting generalizing done ps with
  | nil => exact hh
  | cons g waiting ih =>
    obtain ⟨hg, hr⟩ := forall_mem_cons.mp hlis
    have hsw := hh.step distinct apart hg hd fun hbu m hl hb =>
      (hre [] g waiting rfl hbu m hl hb).resolve_right not_mem_nil
    have hdh : ∀ name ∈ g.name :: done, name ∈ groupNames gs :=
      forall_mem_cons.mpr ⟨mem_groupNames hg, hd⟩
    have hla := ih hr hdh hsw fun pre o after hs hbu m hl
        hb => by
      have := hre (g :: pre) o after (by rw [hs]; rfl) hbu m hl hb
      simp only [groupNames, map_cons, mem_cons] at this ⊢
      tauto
    rw [finalSweep_cons]
    simpa [groupNames] using hla

end Sweep

section Order

variable {ctx context : GroupContext} {leaves : Registry} {gs groups : List RawProxyGroup}

theorem acc_of_acyclic (ha : ∀ name, ¬ Relation.TransGen (Names gs) name name)
    (name : Text) : Acc (fun m name => Names gs name m) name := by
  let below (a b : {name // name ∈ groupNames gs}) : Prop := Relation.TransGen (Names gs) b.1 a.1
  have hi : Std.Irrefl below := ⟨fun a hc => ha a.1 hc⟩
  have wf : WellFounded below := Finite.wellFounded_of_trans_of_irrefl below
  have decl : ∀ a : {name // name ∈ groupNames gs}, Acc (fun m name => Names gs name m) a.1 := by
    intro a
    induction wf.apply a with
    | intro a _ ih =>
      constructor
      intro m hn
      have hd : m ∈ groupNames gs := by
        obtain ⟨_, _, _, _, hd⟩ := hn
        exact hd
      exact ih ⟨m, hd⟩ (Relation.TransGen.single hn)
  constructor
  intro m hn
  obtain ⟨_, _, _, _, hd⟩ := hn
  exact decl ⟨m, hd⟩

/-- Groups listed from the bottom up: none names a later one. -/
def BottomUp (groups order : List RawProxyGroup) : Prop :=
  order.Pairwise fun group later => ¬ Names groups group.name later.name

/-- What the lenient build should come to: every buildable group with every member it can have. -/
def Complete (context : GroupContext) (leaves : Registry) (groups : List RawProxyGroup)
    (proxies : Registry) : Prop :=
  ∀ name, proxies.lookup name =
    if name ∈ groupNames groups then groupEntry context leaves groups name else leaves.lookup name

/-- The lenient build gives every order of the groups the same entries, and a group captures
exactly the names of its list that are leaves or groups that get built. -/
def OrderIndependent (context : GroupContext) (leaves : Registry) (groups : List RawProxyGroup) :
    Prop :=
  ∀ order : List RawProxyGroup, order.Perm groups → ∃ proxies reordered,
    buildGroups context false groups leaves = .ok proxies ∧
    buildGroups context false order leaves = .ok reordered ∧
    (∀ name, reordered.lookup name = proxies.lookup name) ∧
    ∀ group ∈ groups, ∀ entry, reordered.lookup group.name = some entry →
      entry.members = (if group.includeAllProxies.getD false then context.includeAllProxies
        else []) ++ (group.proxies.getD []).filter fun member =>
          member ∈ leaves ∨ member ∈ groupNames groups ∧ member ∈ reordered

theorem exists_bottomUp (he : ∀ name, Acc (fun m name => Names gs name m) name)
    (some_ : List RawProxyGroup) : ∃ order, order.Perm some_ ∧ BottomUp gs order := by
  -- take a lowest group first, and the others by induction
  induction hs : some_.length generalizing some_ with
  | zero =>
    rw [length_eq_zero_iff.mp hs]
    exact ⟨[], Perm.nil, Pairwise.nil⟩
  | succ n ih =>
    cases some_ with
    | nil => cases hs
    | cons first rest =>
      obtain ⟨_, ⟨lowest, hl, rfl⟩, hb⟩ := @exists_minimal_of_acc _ _
        (fun name => ∃ group ∈ first :: rest, group.name = name) _ (he first.name)
        ⟨first, mem_cons_self, rfl⟩
      have her := perm_cons_erase hl
      obtain ⟨order, perm, hbu⟩ := ih ((first :: rest).erase lowest) (by
        rw [length_erase_of_mem hl, hs]
        rfl)
      refine ⟨lowest :: order, (perm.cons lowest).trans her.symm, ?_⟩
      rw [BottomUp, pairwise_cons]
      refine ⟨?_, hbu⟩
      intro later hla hn
      have ha : later ∈ first :: rest := mem_of_mem_erase (perm.mem_iff.mp hla)
      exact hb later.name hn ⟨later, ha, rfl⟩

section Distinct

variable (distinct : (groupNames gs).Nodup)
include distinct

theorem mem_declaredMembers_of_names {name m : Text} :
    Names gs name m → m ∈ declaredMembers gs name := by
  rintro ⟨group, hg, rfl, hl, hd⟩
  exact mem_declaredMembers distinct hg hl hd

theorem acyclic_of_rejectDeclaredGroupCycles (ha : rejectDeclaredGroupCycles gs = .ok ())
    (name : Text) : ¬ Relation.TransGen (Names gs) name name := by
  intro hc
  have hd : name ∈ groupNames gs := by
    obtain ⟨mid, _, _, _, _, _, hd⟩ := Relation.TransGen.tail'_iff.mp hc
    exact hd
  apply not_transGen_of_acc (acc_of_rejectDeclaredGroupCycles ha hd)
  exact Relation.TransGen.mono (fun _ _ => mem_declaredMembers_of_names distinct) _ _
    (Relation.TransGen.swap _ _ hc)

/-- The lenient build of a list of groups that do not name each other in a cycle: it ends with a
sweep over the groups that are not buildable with all they depend on. -/
theorem buildGroups_eq_sweep (ha : ∀ name, ¬ Relation.TransGen (Names gs) name name)
    {order : List RawProxyGroup} (perm : order.Perm gs) :
    ∃ waiting swept,
      buildGroups ctx false order leaves = .ok (finalSweep ctx waiting swept.proxies) ∧
      Settled ctx leaves gs order swept waiting ∧
      ∀ group ∈ gs, group ∈ waiting ↔ ¬ WhollyBuildable ctx leaves gs group.name := by
  obtain ⟨rem, waiting, swept, hr, hs, hn⟩ :=
    settled_start.at_sweep distinct perm (acc_of_acyclic ha) (Nat.lt_succ_self order.length)
  refine ⟨waiting, swept, ?_, hs, fun group hg => ⟨hn group, ?_⟩⟩
  · rw [buildGroups, hr]
    rfl
  · intro hp
    rw [hs.waiting, mem_filter, decide_eq_true_iff]
    exact ⟨perm.mem_iff.mpr hg, fun hb => hp (hs.wholly group.name hb)⟩

theorem Complete.mem_groups_iff {proxies : Registry} (hc : Complete ctx leaves gs proxies)
    {name : Text} : name ∈ groupNames gs ∧ name ∈ proxies ↔ Buildable ctx leaves gs name := by
  rw [← groupEntry_isSome_iff distinct, ← lookup_isSome, hc name]
  constructor
  · rintro ⟨hd, hf⟩
    rw [if_pos hd] at hf
    exact hf
  · intro hb
    have hd := ((groupEntry_isSome_iff distinct).mp hb).mem_groupNames
    rw [if_pos hd]
    exact ⟨hd, hb⟩

theorem Complete.members_eq {proxies : Registry}
    (hc : Complete ctx leaves gs proxies) {group : RawProxyGroup}
    (hg : group ∈ gs) {e : Proxy} (hf : proxies.lookup group.name = some e) :
    e.members = (if group.includeAllProxies.getD false then ctx.includeAllProxies
      else []) ++ keptMembers ctx leaves gs group := by
  rw [hc, if_pos (mem_groupNames hg), groupEntry_eq distinct hg] at hf
  cases hp : lenientGroup ctx group (keptMembers ctx leaves gs group) with
  | error reason =>
    rw [hp] at hf
    cases hf
  | ok parsed =>
    rw [hp] at hf
    cases hf
    exact (lenientGroup_eq_ok hp).2

variable (apart : ∀ name ∈ groupNames gs, name ∉ leaves)
include apart

theorem complete_of_ready (ha : ∀ name, ¬ Relation.TransGen (Names gs) name name)
    {order : List RawProxyGroup}
    (perm : order.Perm gs) (hr : ∀ pre group after, order = pre ++ group :: after →
      Buildable ctx leaves gs group.name → ∀ m ∈ group.proxies.getD [], Buildable ctx leaves gs m →
          WhollyBuildable ctx leaves gs m ∨ m ∈ groupNames pre) :
    ∃ proxies, buildGroups ctx false order leaves = .ok proxies ∧
      Complete ctx leaves gs proxies := by
  obtain ⟨waiting, swept, hbl, hs, hwai⟩ :=
    @buildGroups_eq_sweep ctx leaves gs distinct ha order perm
  have hwi : ∀ {group}, group ∈ waiting ↔
      group ∈ gs ∧ group.name ∉ swept.builtGroupNames := by
    intro group
    rw [hs.waiting, mem_filter, perm.mem_iff, decide_eq_true_iff]
  -- a group is built by the passes or waits for the sweep
  have done_iff : ∀ group ∈ gs, group.name ∈ swept.builtGroupNames ∨ group ∈ waiting := by
    intro group hg
    by_cases hb : group.name ∈ swept.builtGroupNames
    · exact .inl hb
    · exact .inr (hwi.mpr ⟨hg, hb⟩)
  have hd : ∀ name ∈ swept.builtGroupNames, name ∈ groupNames gs :=
    fun name hb => (hs.wholly name hb).buildable.mem_groupNames
  have hho := HoldsDone.sweep distinct apart (fun group m => (hwi.mp m).1) hd hs.lookup (by
      intro pre group after hsp hbui m hl hm
      obtain ⟨o, ho, rfl⟩ := mem_map.mp hm.mem_groupNames
      rcases done_iff o ho with hb | hw
      · exact .inl hb
      right
      -- the groups before this one in the sweep are the waiting ones before it in the list
      obtain ⟨front, back, order_eq, front_eq, back_eq⟩ :=
        filter_eq_append_iff.mp (hs.waiting.symm.trans hsp)
      obtain ⟨skipped, later, back_split, hski, _, _⟩ := filter_eq_cons_iff.mp back_eq
      have hh := hr (front ++ skipped) group later
        (by rw [order_eq, back_split, append_assoc]) hbui o.name hl hm
      rcases hh with hwh | hbe
      · exact absurd hwh ((hwai o ho).mp hw)
      · obtain ⟨same, hf, hn⟩ := mem_map.mp hbe
        rw [← hn]
        have hnb : same.name ∉ swept.builtGroupNames := by
          rw [hn]
          exact (hwi.mp hw).2
        rcases mem_append.mp hf with hf | hsk
        · rw [← front_eq]
          exact mem_groupNames (mem_filter.mpr ⟨hf, decide_eq_true hnb⟩)
        · exact absurd (decide_eq_true hnb) (hski same hsk))
  refine ⟨_, hbl, ?_⟩
  intro name
  rw [hho name]
  congr 1
  apply propext
  rw [mem_append, mem_reverse]
  constructor
  · rintro (hsw | hb)
    · obtain ⟨group, hw, rfl⟩ := mem_map.mp hsw
      exact mem_groupNames (hwi.mp hw).1
    · exact hd name hb
  · intro hde
    obtain ⟨group, hg, rfl⟩ := mem_map.mp hde
    rcases done_iff group hg with hb | hw
    · exact .inr hb
    · exact .inl (mem_groupNames hw)

/-- From the bottom up every buildable group finds its buildable members. -/
theorem exists_complete (ha : ∀ name, ¬ Relation.TransGen (Names gs) name name) :
    ∃ order proxies, order.Perm gs ∧ buildGroups ctx false order leaves = .ok proxies ∧
      Complete ctx leaves gs proxies := by
  obtain ⟨order, perm, hbu⟩ := exists_bottomUp (acc_of_acyclic ha) gs
  refine ⟨order, ?_⟩
  obtain ⟨proxies, hbl, hc⟩ := @complete_of_ready ctx leaves gs distinct apart ha order perm (by
      intro pre group after hs _ m hl hb
      right
      have hg : group ∈ gs := perm.mem_iff.mp (by rw [hs]; simp)
      have hn : Names gs group.name m := ⟨group, hg, rfl, hl, hb.mem_groupNames⟩
      obtain ⟨o, hot, rfl⟩ := mem_map.mp hb.mem_groupNames
      have ho := perm.mem_iff.mpr hot
      rw [BottomUp, hs, pairwise_append, pairwise_cons] at hbu
      rw [hs] at ho
      rcases mem_append.mp ho with hbe | haoa
      · exact mem_groupNames hbe
      · rcases mem_cons.mp haoa with rfl | haf
        · exact absurd (Relation.TransGen.single hn) (ha _)
        · exact absurd hn (hbu.2.1.1 o haf))
  exact ⟨proxies, perm, hbl, hc⟩

/-- Taken first, a group that names a group with an unbuildable dependency misses it. -/
theorem misses_of_first (hac : ∀ name, ¬ Relation.TransGen (Names gs) name name)
    {group : RawProxyGroup} (hg : group ∈ gs) {m : Text} (hl : m ∈ group.proxies.getD [])
    (hb : Buildable ctx leaves gs m) (hpa : ¬ WhollyBuildable ctx leaves gs m) :
    ∃ order proxies, order.Perm gs ∧ buildGroups ctx false order leaves = .ok proxies ∧
      ∀ e, proxies.lookup group.name = some e →
        e.members ≠ (if group.includeAllProxies.getD false then ctx.includeAllProxies
          else []) ++ keptMembers ctx leaves gs group := by
  classical
  have perm : (group :: gs.erase group).Perm gs := (perm_cons_erase hg).symm
  obtain ⟨waiting, swept, hbl, hs, hw⟩ := @buildGroups_eq_sweep ctx leaves gs distinct hac _ perm
  refine ⟨_, _, perm, hbl, fun e hf => ?_⟩
  have hd := hb.mem_groupNames
  have hna : Names gs group.name m := ⟨group, hg, rfl, hl, hd⟩
  have hn : group.name ∉ swept.builtGroupNames := fun hbu =>
    hpa ((hs.wholly _ hbu).of_names hna)
  have hm : m ∉ swept.proxies := by
    rw [hs.mem_proxies distinct]
    rintro (hle | hbu)
    · exact apart m hd hle
    · exact hpa (hs.wholly m hbu)
  -- the sweep starts with the group, over a registry without the member
  have hfi : waiting = group ::
      (gs.erase group).filter (·.name ∉ swept.builtGroupNames) := by
    rw [hs.waiting, filter_cons_of_pos (by simpa using hn)]
  have hr : group.name ∉ groupNames
      ((gs.erase group).filter (·.name ∉ swept.builtGroupNames)) := by
    have ha := (perm.map RawProxyGroup.name).nodup_iff.mpr distinct
    rw [map_cons, nodup_cons] at ha
    exact fun hre => ha.1 ((filter_sublist.map _).subset hre)
  rw [hfi, finalSweep_cons, finalSweep_lookup_of_notMem hr, finalSweep] at hf
  split at hf
  · rename_i parsedEntry hp
    rw [parseProxyGroupInner_lenient] at hp
    obtain ⟨name, ms⟩ := lenientGroup_eq_ok hp
    rw [finalSweep, name, lookup_insert] at hf
    cases hf
    rw [ms]
    intro same
    have hk : m ∈ keptMembers ctx leaves gs group := mem_filter.mpr ⟨hl, decide_eq_true (.inr hb)⟩
    rw [← append_cancel_left same] at hk
    exact hm (of_decide_eq_true (mem_filter.mp hk).2)
  · rw [finalSweep, hs.lookup, if_neg hn,
      lookup_eq_none.mpr (apart group.name (mem_groupNames hg))] at hf
    cases hf

end Distinct

/-- The order of the groups does not matter exactly when every buildable group that a buildable
group names has only buildable groups below it. -/
theorem orderIndependent_iff (distinct : (groupNames groups).Nodup)
    (apart : ∀ name ∈ groupNames groups, name ∉ leaves)
    (acyclic : ∀ name, ¬ Relation.TransGen (Names groups) name name) :
    OrderIndependent context leaves groups ↔
      ∀ name member, Names groups name member → Buildable context leaves groups name →
        Buildable context leaves groups member → WhollyBuildable context leaves groups member := by
  classical
  constructor
  · intro hi name member hn hbu hm
    by_contra partly
    obtain ⟨group, hg, rfl, hl, _⟩ := hn
    obtain ⟨goodOrder, good, hgp, hgbu, hc⟩ :=
      @exists_complete context leaves groups distinct apart acyclic
    obtain ⟨badOrder, bad, hbp, hbbu, hmi⟩ :=
      @misses_of_first context leaves groups distinct apart acyclic group hg member hl hm partly
    obtain ⟨proxies, _, hb, hgb, hgs, _⟩ := hi goodOrder hgp
    obtain ⟨proxies', _, hbl, hbb, hbs, _⟩ := hi badOrder hbp
    cases hgbu.symm.trans hgb
    cases hbbu.symm.trans hbb
    cases hb.symm.trans hbl
    have hp : (good.lookup group.name).isSome := lookup_isSome.mpr
      ((hc.mem_groups_iff distinct).mpr hbu).2
    obtain ⟨entry, hf⟩ := isSome_iff_exists.mp hp
    exact hmi entry (by rw [hbs, ← hgs, hf]) (hc.members_eq distinct hg hf)
  · intro hcon
    have ha : ∀ {order : List RawProxyGroup}, order.Perm groups → ∃ proxies,
        buildGroups context false order leaves = .ok proxies ∧
          Complete context leaves groups proxies := by
      intro order perm
      apply complete_of_ready distinct apart acyclic perm
      intro before group after hs hbu member hl hm
      have hg : group ∈ groups := perm.mem_iff.mp (by rw [hs]; simp)
      exact .inl (hcon group.name member ⟨group, hg, rfl, hl, hm.mem_groupNames⟩ hbu hm)
    intro order perm
    obtain ⟨proxies, hb, hc⟩ := ha (Perm.refl groups)
    obtain ⟨reordered, hreb, hr⟩ := ha perm
    refine ⟨proxies, reordered, hb, hreb, fun name => ?_, fun group hg entry hf => ?_⟩
    · rw [hr name, hc name]
    · rw [hr.members_eq distinct hg hf, keptMembers]
      simp only [hr.mem_groups_iff distinct]

end Order

section Examples

def selectGroup (name : String) (proxies : List String) : RawProxyGroup where
  name := ofString name
  groupType := .select
  proxies := some (proxies.map ofString)
  interval := none
  strategy := none
  useProviders := none
  filter := none
  excludeFilter := none
  excludeType := none
  includeAll := none
  includeAllProxies := none
  includeAllProviders := none

def noProviders : GroupContext := ⟨[], [], fun _ => .ok ()⟩

def oneLeaf : Registry :=
  singleton (ofString "x") ⟨ofString "x", .direct, none, [], []⟩

def nestedGroups : List RawProxyGroup := [selectGroup "a" ["b"], selectGroup "b" ["x"]]

theorem nestedGroups_acyclic (name : Text) : ¬ Relation.TransGen (Names nestedGroups) name name :=
  acyclic_of_rejectDeclaredGroupCycles (by decide +kernel) (by decide +kernel) name

theorem orderIndependent_iff_nestedGroups : OrderIndependent noProviders oneLeaf nestedGroups := by
  apply (orderIndependent_iff (by decide +kernel) (by decide +kernel) nestedGroups_acyclic).mpr
  have ho : ∀ group ∈ nestedGroups, ∀ member ∈ group.proxies.getD [],
      ∀ other ∈ nestedGroups, other.name = member →
        ∀ below ∈ other.proxies.getD [], below ∉ groupNames nestedGroups := by decide +kernel
  rintro name member ⟨group, hg, _, hl, _⟩ _ hbu
  apply whollyBuildable_of_members hbu
  rintro below ⟨other, hot, hs, hbl, hb⟩
  exact absurd hb (ho group hg member hl other hot hs below hbl)

def danglingGroups : List RawProxyGroup :=
  [selectGroup "a" ["b"], selectGroup "b" ["c", "x"], selectGroup "c" ["ghost"]]

def danglingGroupsReordered : List RawProxyGroup :=
  [selectGroup "b" ["c", "x"], selectGroup "a" ["b"], selectGroup "c" ["ghost"]]

theorem danglingGroups_depend_on_order :
    (groupNames danglingGroups).Nodup ∧ (∀ name ∈ groupNames danglingGroups, name ∉ oneLeaf) ∧
    rejectDeclaredGroupCycles danglingGroups = .ok () ∧
    danglingGroupsReordered.Perm danglingGroups ∧
    ¬ OrderIndependent noProviders oneLeaf danglingGroups := by
  have perm : danglingGroupsReordered.Perm danglingGroups := Perm.swap _ _ _
  refine ⟨by decide +kernel, by decide +kernel, by decide +kernel, perm, ?_⟩
  intro hi
  obtain ⟨proxies, reordered, hb, hr, hs, _⟩ := hi danglingGroupsReordered perm
  have hwi : (buildGroups noProviders false danglingGroups oneLeaf).toOption.bind
      (·.lookup (ofString "a")) = none := by decide +kernel
  have hw : ((buildGroups noProviders false danglingGroupsReordered oneLeaf).toOption.bind
      (·.lookup (ofString "a"))).isSome = true := by decide +kernel
  rw [hb] at hwi
  rw [hr] at hw
  dsimp only [Except.toOption, bind_some] at hwi hw
  rw [hs, hwi] at hw
  cases hw

end Examples

end ProxyLayer

end MeowRs
