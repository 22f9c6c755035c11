import MeowRs.Metadata
import MeowRs.ProxyGroups

/-!
# Hops of a relay group

A relay group chains its members: each one is asked to reach the next one's server, the last one
the destination.  A member may be a group, which picks one of its own members for the connection,
another relay, whose members take its place, or an outbound with a `dialer-proxy` of its own.  The
members are turned into a flat list of hops before the first of them is asked for anything.
-/

namespace MeowRs.Relay

open List Option

open ProxyLayer (AdapterType)

/-- A member with everything below it. -/
inductive Proxy where
  | leaf (name : Text) (adapterType : AdapterType) (addr : Text)
  | group (name : Text) (adapterType : AdapterType) (members : List Proxy)
  | relay (name : Text) (members : List Proxy)
  | dialerProxy (inner : Proxy) (dialer : Text)

namespace Proxy

def name : Proxy → Text
  | leaf name _ _ => name
  | group name _ _ => name
  | relay name _ => name
  | dialerProxy inner _ => inner.name

def adapterType : Proxy → AdapterType
  | leaf _ adapterType _ => adapterType
  | group _ adapterType _ => adapterType
  | relay _ _ => .relay
  | dialerProxy inner _ => inner.adapterType

def addr : Proxy → Text
  | leaf _ _ addr => addr
  | group _ _ _ => []
  | relay _ _ => []
  | dialerProxy inner _ => inner.addr

def isDialerProxy : Proxy → Bool
  | dialerProxy _ _ => true
  | _ => false

def isTransparentHop (proxy : Proxy) : Bool :=
  proxy.adapterType = .direct || proxy.adapterType = .compatible

mutual

def height : Proxy → Nat
  | leaf _ _ _ => 0
  | group _ _ members => heights members + 1
  | relay _ members => heights members + 1
  | dialerProxy inner _ => inner.height + 1

def heights : List Proxy → Nat
  | [] => 0
  | proxy :: proxies => max proxy.height (heights proxies)

end

end Proxy

inductive MeowError where
  | proxy (message : Text)
  | relayHopFailed (hop : Nat) (source : MeowError)
  | udpNotSupported
  | adapter (message : Text)

/-- The metadata of a dial, with the mark of housekeeping traffic. -/
structure Target extends Metadata where
  internal : Bool

/-- What a dial finds outside the chain: the picks of the groups, which may change with every pick,
and the spelling of addresses. -/
structure World (State : Type) where
  select : State → Text → Target → Bool → Option Nat × State
  parseIp : Text → Option IpAddr

variable {State : Type} (world : World State) (target : Target) (touch : Bool)

mutual

/-- Where the picks of nested groups end, unless there is no pick to begin with.  A `dialer-proxy`
outbound picks as the one inside it does. -/
def unwrapProxy : Proxy → State → Option Proxy × State
  | .leaf _ _ _, state => (none, state)
  | .relay _ _, state => (none, state)
  | .dialerProxy inner _, state => unwrapProxy inner state
  | .group name _ members, state =>
    match world.select state name target touch with
    | (none, state) => (none, state)
    | (some index, state) => unwrapAt members index state

def unwrapAt : List Proxy → Nat → State → Option Proxy × State
  | [], _, state => (none, state)
  | proxy :: _, 0, state =>
    match unwrapProxy proxy state with
    | (none, state) => (some proxy, state)
    | (some leaf, state) => (some leaf, state)
  | _ :: proxies, index + 1, state => unwrapAt proxies index state

end

def resolveProxy (proxy : Proxy) (state : State) : Proxy × State :=
  match unwrapProxy world target touch proxy state with
  | (none, state) => (proxy, state)
  | (some leaf, state) => (leaf, state)

/-- Take off `dialer-proxy` layers and resolve what is inside them; there are no more of them than
`fuel`. -/
def peel : Nat → Proxy → State → Proxy × State
  | fuel + 1, .dialerProxy inner _, state =>
    let (resolved, state) := resolveProxy world target touch inner state
    peel fuel resolved state
  | _, proxy, state => (proxy, state)

def maxFlattenDepth : Nat := 16

def expansionError : MeowError :=
  .proxy (Text.ofString "relay: group expansion exceeds depth " ++ Text.decimal maxFlattenDepth)

def undialableHopError (hop : Nat) (proxy : Proxy) : MeowError :=
  .relayHopFailed hop
    (.proxy (Text.ofString "relay: " ++ proxy.name ++ Text.ofString " has no dialable address"))

/-- The hops found so far, everywhere in the chain. -/
abbrev Flattened (State : Type) : Type := Except MeowError (List Proxy × State)

/-- Put one member behind the hops; `nested` does so for the members of a relay. -/
def flattenMember (nested : List Proxy → State → List Proxy → Flattened State) (proxy : Proxy)
    (state : State) (out : List Proxy) : Flattened State :=
  -- The first hop dials by itself, so a `dialer-proxy` outbound keeps its dialer there.
  let (resolved, state) :=
    if out.isEmpty && proxy.isDialerProxy then (proxy, state)
    else resolveProxy world target touch proxy state
  match resolved with
  | .relay _ members => nested members state out
  | resolved =>
    if out.isEmpty then
      if !resolved.isTransparentHop && resolved.addr.isEmpty && !resolved.isDialerProxy then
        .error (undialableHopError 0 resolved)
      else .ok (out ++ [resolved], state)
    else
      let (peeled, state) := peel world target touch resolved.height resolved state
      match peeled with
      | .relay _ members => nested members state out
      | peeled =>
        if !peeled.isTransparentHop && peeled.addr.isEmpty then
          .error (undialableHopError out.length peeled)
        else .ok (out ++ [resolved], state)

def flattenMembers (nested : List Proxy → State → List Proxy → Flattened State) :
    List Proxy → State → List Proxy → Flattened State
  | [], state, out => .ok (out, state)
  | proxy :: proxies, state, out =>
    (flattenMember world target touch nested proxy state out).bind fun (out, state) =>
      flattenMembers nested proxies state out

/-- The members of a relay as hops, with `left` levels to go. -/
def flattenHopsAt : Nat → List Proxy → State → List Proxy → Flattened State
  | 0 => flattenMembers world target touch fun _ _ _ => .error expansionError
  | left + 1 => flattenMembers world target touch (flattenHopsAt left)

def flattenHops (proxies : List Proxy) (state : State) : Flattened State :=
  flattenHopsAt world target touch maxFlattenDepth proxies state []

mutual

/-- The chain that a member stands for: the pick of a group, and the members of a relay. -/
def expand : Proxy → State → List Proxy × State
  | .leaf name adapterType addr, state => ([.leaf name adapterType addr], state)
  | .dialerProxy inner dialer, state => ([.dialerProxy inner dialer], state)
  | .relay _ members, state => expandAll members state
  | .group name adapterType members, state =>
    match world.select state name target touch with
    | (none, state) => ([.group name adapterType members], state)
    | (some index, state) =>
      (expandAt members index state).getD ([.group name adapterType members], state)

def expandAt : List Proxy → Nat → State → Option (List Proxy × State)
  | [], _, _ => none
  | proxy :: _, 0, state => some (expand proxy state)
  | _ :: proxies, index + 1, state => expandAt proxies index state

def expandAll : List Proxy → State → List Proxy × State
  | [], state => ([], state)
  | proxy :: proxies, state =>
    let (hops, state) := expand proxy state
    let (rest, state) := expandAll proxies state
    (hops ++ rest, state)

end

/-- A member with relays nested at most so deep below it, in which `dialer-proxy` is set on leaves
that have a server. -/
inductive Allowed : Nat → Proxy → Prop
  | leaf {depth : Nat} (name : Text) (adapterType : AdapterType) (addr : Text) :
      Allowed depth (.leaf name adapterType addr)
  | dialerProxy {depth : Nat} (name : Text) (adapterType : AdapterType) {addr : Text}
      (served : addr ≠ []) (dialer : Text) :
      Allowed depth (.dialerProxy (.leaf name adapterType addr) dialer)
  | group {depth : Nat} (name : Text) (adapterType : AdapterType) {members : List Proxy}
      (allowed : ∀ member ∈ members, Allowed depth member) :
      Allowed depth (.group name adapterType members)
  | relay {depth : Nat} (name : Text) {members : List Proxy}
      (allowed : ∀ member ∈ members, Allowed depth member) :
      Allowed (depth + 1) (.relay name members)

/-- A hop that passes its stream on or has a server to reach. -/
def Dialable (hop : Proxy) : Prop :=
  hop.isTransparentHop = true ∨ hop.addr ≠ []

section Expansion

variable {world target touch} {depth : Nat} {hop : Proxy}
  {nested : List Proxy → State → List Proxy → Flattened State} {p : Proxy}

theorem unwrapAt_eq (ms : List Proxy) (i : Nat) (s : State) :
    unwrapAt world target touch ms i s =
      match ms[i]? with
      | none => (none, s)
      | some mem =>
        ((resolveProxy world target touch mem s).map some id) := by
  induction ms generalizing i with
  | nil => rw [unwrapAt]; rfl
  | cons mem ms ih =>
    cases i with
    | zero =>
      rw [unwrapAt, getElem?_cons_zero]
      dsimp only
      unfold resolveProxy
      rcases unwrapProxy world target touch mem s with ⟨_ | leaf, s⟩ <;> rfl
    | succ i => rw [unwrapAt, ih, getElem?_cons_succ]

theorem expandAt_eq (ms : List Proxy) (i : Nat) (s : State) :
    expandAt world target touch ms i s =
      ms[i]?.map fun mem => expand world target touch mem s := by
  induction ms generalizing i with
  | nil => rw [expandAt]; rfl
  | cons mem ms ih =>
    cases i with
    | zero => rw [expandAt]; rfl
    | succ i => rw [expandAt, ih, getElem?_cons_succ]

/-- The chain of a member whose pick is known. -/
def expandResolved (world : World State) (target : Target) (touch : Bool) :
    Proxy × State → List Proxy × State
  | (.relay _ members, state) => expandAll world target touch members state
  | (hop, state) => ([hop], state)

/-- Resolving a member first gives the same chain, and what it resolves to is no group with a pick
of its own. -/
theorem expand_eq (ha : Allowed depth p) (state : State) :
    expand world target touch p state =
        expandResolved world target touch (resolveProxy world target touch p state) ∧
      Allowed depth (resolveProxy world target touch p state).1 := by
  induction ha generalizing state with
  | leaf name adapterType addr =>
    exact ⟨rfl, .leaf name adapterType addr⟩
  | dialerProxy name adapterType hs dialer =>
    exact ⟨rfl, .dialerProxy name adapterType hs dialer⟩
  | relay name ha _ =>
    exact ⟨rfl, .relay name ha⟩
  | @group depth name adapterType members ha ih =>
    rw [expand, resolveProxy, unwrapProxy]
    rcases world.select state name target touch with ⟨_ | index, state⟩
    · exact ⟨rfl, .group name adapterType ha⟩
    · dsimp only
      rw [unwrapAt_eq, expandAt_eq]
      cases hi : members[index]? with
      | none => exact ⟨rfl, .group name adapterType ha⟩
      | some member => exact ih member (mem_of_getElem? hi) state

theorem resolveProxy_dialerProxy (name : Text) (adapterType : AdapterType) (addr dialer : Text)
    (s : State) :
    resolveProxy world target touch (.dialerProxy (.leaf name adapterType addr) dialer) s =
      (.dialerProxy (.leaf name adapterType addr) dialer, s) := by
  rw [resolveProxy, unwrapProxy, unwrapProxy]

theorem peel_of_not_dialerProxy (hp : hop.isDialerProxy = false) (fuel : Nat)
    (state : State) : peel world target touch fuel hop state = (hop, state) := by
  cases hop with
  | dialerProxy inner dialer => cases hp
  | leaf name adapterType addr | group name adapterType members | relay name members => cases fuel <;> rfl

theorem peel_dialerProxy (name : Text) (adapterType : AdapterType) (addr dialer : Text)
    (s : State) :
    peel world target touch (Proxy.dialerProxy (.leaf name adapterType addr) dialer).height
        (.dialerProxy (.leaf name adapterType addr) dialer) s =
      (.leaf name adapterType addr, s) := by
  rw [Proxy.height, peel, resolveProxy, unwrapProxy]
  exact peel_of_not_dialerProxy rfl _ s

theorem not_dialable_iff :
    ¬ Dialable hop ↔ (!hop.isTransparentHop && hop.addr.isEmpty) = true := by
  simp [Dialable]

theorem checked_iff (hpl : hop.isDialerProxy = false) (out : List Proxy) (s : State) :
    let checked : Flattened State :=
      if out.isEmpty then
        if !hop.isTransparentHop && hop.addr.isEmpty && !hop.isDialerProxy then
          .error (undialableHopError 0 hop)
        else .ok (out ++ [hop], s)
      else
        if !hop.isTransparentHop && hop.addr.isEmpty then
          .error (undialableHopError out.length hop)
        else .ok (out ++ [hop], s)
    (Dialable hop → checked = .ok (out ++ [hop], s)) ∧
      (¬ Dialable hop → ∃ error, checked = .error error) := by
  rw [hpl, Bool.not_false, Bool.and_true, not_dialable_iff]
  constructor
  · intro hd
    have hp := mt not_dialable_iff.mpr (not_not_intro hd)
    rw [if_neg hp, if_neg hp, ite_self]
  · intro hf
    split <;> exact ⟨_, rfl⟩

theorem chosen_eq (ha : Allowed depth p) (state : State) (out : List Proxy) :
    (if out.isEmpty && p.isDialerProxy then (p, state)
      else resolveProxy world target touch p state) =
      resolveProxy world target touch p state := by
  split
  · next hw =>
      cases ha with
      | dialerProxy => rw [resolveProxy_dialerProxy]
      | leaf | group | relay => simp [Proxy.isDialerProxy] at hw
  · rfl

/-- What one member's own hop does to the chain: it is put behind the others if it can be dialed. -/
theorem flattenMember_hop {p hop : Proxy} {state after : State}
    (ha : Allowed depth p) (nested : List Proxy → State → List Proxy → Flattened State)
    (out : List Proxy) (resolved : resolveProxy world target touch p state = (hop, after))
    (hn : ∀ name members, hop ≠ .relay name members) :
    (Dialable hop →
      flattenMember world target touch nested p state out = .ok (out ++ [hop], after)) ∧
    (¬ Dialable hop →
      ∃ error, flattenMember world target touch nested p state out = .error error) := by
  have hah : Allowed depth hop := by
    have := (@expand_eq _ world target touch _ _ ha state).2
    rwa [resolved] at this
  rw [flattenMember, chosen_eq ha, resolved]
  cases hah with
  | relay name ha => exact absurd rfl (hn name _)
  | @dialerProxy _ name adapterType addr hs dialer =>
    have hd : Dialable (.dialerProxy (.leaf name adapterType addr) dialer) := .inr hs
    refine ⟨fun _ => ?_, fun hu => absurd hd hu⟩
    have hf : isEmpty addr = false := by simpa using hs
    dsimp only
    rw [peel_dialerProxy]
    simp [Proxy.addr, hf]
  | leaf name adapterType addr | group name adapterType ha =>
    dsimp only
    exact checked_iff rfl out after

/-- The outcome of putting hops behind others: all of them, or an error if one cannot be dialed. -/
structure Appends (out : List Proxy) (hops : List Proxy × State) (result : Flattened State) :
    Prop where
  all : (∀ hop ∈ hops.1, Dialable hop) → result = .ok (out ++ hops.1, hops.2)
  fails : ∀ hop ∈ hops.1, ¬ Dialable hop → ∃ error, result = .error error

theorem flattenMember_appends (ha : Allowed depth p)
    (hsp : ∀ name members, Allowed depth (.relay name members) → ∀ state out,
      Appends out (expandAll world target touch members state) (nested members state out))
    (state : State) (out : List Proxy) :
    Appends out (expand world target touch p state)
    (flattenMember world target touch nested p state out) := by
  obtain ⟨hex, hah⟩ := @expand_eq _ world target touch _ _ ha state
  rw [hex]
  cases resolved : resolveProxy world target touch p state with
  | mk hop after =>
    rw [resolved] at hah
    by_cases hr : ∃ name members, hop = .relay name members
    · obtain ⟨name, members, rfl⟩ := hr
      rw [flattenMember, chosen_eq ha, resolved]
      exact hsp name members hah after out
    · have hn (name : Text) (members : List Proxy) : hop ≠ .relay name members :=
        fun he => hr ⟨name, members, he⟩
      have hs : expandResolved world target touch (hop, after) = ([hop], after) := by
        cases hop with
        | relay name members => exact absurd rfl (hn name members)
        | leaf | group | dialerProxy => rfl
      obtain ⟨hd, hf⟩ := flattenMember_hop ha nested out resolved hn
      rw [hs]
      refine ⟨fun all => hd (all hop (mem_singleton_self hop)), ?_⟩
      intro o hm hu
      rw [mem_singleton.mp hm] at hu
      exact hf hu

theorem Appends.then {out : List Proxy} {fst rest : List Proxy × State} {res : Flattened State}
    (hb : Appends out fst res) {go : State → List Proxy → Flattened State}
    (hc : Appends (out ++ fst.1) rest (go fst.2 (out ++ fst.1))) :
    Appends out (fst.1 ++ rest.1, rest.2) (res.bind fun (out, s) => go s out) := by
  constructor
  · intro ha
    rw [hb.all fun hop hm => ha hop (mem_append_left _ hm)]
    change go fst.2 (out ++ fst.1) = _
    rw [hc.all fun hop hm => ha hop (mem_append_right _ hm), append_assoc]
  · intro hop hm hu
    by_cases hf : ∀ hop ∈ fst.1, Dialable hop
    · rw [hb.all hf]
      rcases mem_append.mp hm with hm | hm
      · exact absurd (hf hop hm) hu
      · exact hc.fails hop hm hu
    · push Not at hf
      obtain ⟨early, he, heu⟩ := hf
      obtain ⟨error, hfai⟩ := hb.fails early he heu
      exact ⟨error, by rw [hfai]; rfl⟩

theorem flattenMembers_appends (hs : ∀ name ms, Allowed depth (.relay name ms) → ∀ s out,
      Appends out (expandAll world target touch ms s) (nested ms s out)) {ms : List Proxy}
    (ha : ∀ m ∈ ms, Allowed depth m) (s : State) (out : List Proxy) :
    Appends out (expandAll world target touch ms s)
    (flattenMembers world target touch nested ms s out) := by
  induction ms generalizing s out with
  | nil =>
    rw [expandAll, flattenMembers]
    exact ⟨fun _ => by rw [append_nil], fun hop m => absurd m not_mem_nil⟩
  | cons m ms ih =>
    exact (flattenMember_appends (ha m mem_cons_self) hs s out).then
      (ih (fun o ho => ha o (mem_cons_of_mem _ ho)) _ _)

/-- The members of a relay are flattened to the chain that they stand for. -/
theorem flattenHopsAt_appends {ms : List Proxy}
    (allowed : ∀ m ∈ ms, Allowed depth m) (s : State) (out : List Proxy) :
    Appends out (expandAll world target touch ms s)
      (flattenHopsAt world target touch depth ms s out) := by
  induction depth generalizing ms s out with
  | zero =>
    refine flattenMembers_appends (fun name ms relay => ?_) allowed s out
    cases relay
  | succ depth ih =>
    refine flattenMembers_appends (fun name ms relay s out => ?_) allowed s out
    cases relay with
    | relay name allowed => exact ih allowed s out

end Expansion

end MeowRs.Relay
