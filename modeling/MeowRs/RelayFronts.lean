import MeowRs.RelayDials

/-!
# Servers that a relay contacts

A direct hop adds no server to a chain.  It does decide who dials by itself: the front of a
`dialer-proxy` outbound is only used by a hop that does.
-/

namespace MeowRs.Relay

open List Text

inductive Contact where
  | front (dialer : Text)
  | server (target : Target)

def Proxy.isDirect : Proxy → Bool
  | leaf _ adapterType _ => adapterType = .direct || adapterType = .compatible
  | _ => false

def frontOf : Proxy → List Contact
  | .dialerProxy _ dialer => [.front dialer]
  | _ => []

variable {State : Type} (world : World State)

def server (finalTarget : Target) (hop : Proxy) : Contact :=
  .server (metadataForProxy world hop finalTarget.internal)

/-- Whom a hop contacts: if it dials by itself, its front and its own server, and from there its
target. -/
def Ask.contacts (finalTarget : Target) (ask : Ask) : List Contact :=
  match ask.stream, ask.hop.isTransparentHop with
  | none, true => frontOf ask.hop ++ [.server ask.target]
  | none, false => frontOf ask.hop ++ [server world finalTarget ask.hop, .server ask.target]
  | some _, true => []
  | some _, false => [.server ask.target]

def contacts (finalTarget : Target) (asks : List Ask) : List Contact :=
  asks.flatMap (Ask.contacts world finalTarget)

/-- The servers of the proxies in turn, and then the destination. -/
def route (finalTarget : Target) (proxies : List Proxy) : List Contact :=
  proxies.map (server world finalTarget) ++ [.server finalTarget]

/-- The front that the first hop of a chain is reached through. -/
def headFront (hops : List Proxy) : List Contact :=
  (hops.head?.map frontOf).getD []

variable {world} {adapters : Adapters} {finalTarget : Target} {hops : List Proxy}

theorem route_head (finalTarget : Target) (ps : List Proxy) :
    [.server (nextTarget world finalTarget ps)] <+: route world finalTarget ps := by
  cases ps with
  | nil => exact prefix_refl _
  | cons proxy later => exact ⟨route world finalTarget later, rfl⟩

/-- The asks over a stream contact a first part of what is left of the route, and all of it unless a
hop fails. -/
theorem contacts_connectHops (dialable : ∀ hop ∈ hops, Dialable hop) (index : Nat) (stream : Conn) :
    (Contact.server (nextTarget world finalTarget (proxied hops)) :: contacts world finalTarget
        (connectHops world adapters finalTarget index stream hops).asks <+:
      route world finalTarget (proxied hops)) ∧
    ∀ conn, (connectHops world adapters finalTarget index stream hops).result = .ok conn →
      Contact.server (nextTarget world finalTarget (proxied hops)) :: contacts world finalTarget
          (connectHops world adapters finalTarget index stream hops).asks =
        route world finalTarget (proxied hops) := by
  induction hops generalizing index stream with
  | nil => exact ⟨prefix_refl _, fun _ _ => rfl⟩
  | cons hop later ih =>
    have laterDialable : ∀ other ∈ later, Dialable other := fun other member =>
      dialable other (mem_cons_of_mem _ member)
    have first := @route_head _ world finalTarget (proxied later)
    rw [connectHops_cons, metadataForNextHop_eq laterDialable]
    cases connectOver adapters stream hop (nextTarget world finalTarget (proxied later)) with
    | error error =>
      refine ⟨?_, fun _ failed => by cases failed⟩
      cases direct : hop.isTransparentHop with
      | true =>
        rw [proxied_cons_transparent direct]
        simpa [contacts, Ask.contacts, direct] using first
      | false =>
        rw [proxied_cons_proxy direct]
        simpa [contacts, Ask.contacts, direct, route, nextTarget, server] using first
    | ok next =>
      obtain ⟨part, whole⟩ := ih laterDialable (index + 1) next
      cases direct : hop.isTransparentHop with
      | true =>
        rw [proxied_cons_transparent direct]
        simp only [contacts, flatMap_cons, Ask.contacts, direct, nil_append]
        exact ⟨part, whole⟩
      | false =>
        rw [proxied_cons_proxy direct, route, map_cons, cons_append, ← route]
        simp only [contacts, flatMap_cons, Ask.contacts, direct, singleton_append]
        exact ⟨cons_prefix_cons.mpr ⟨rfl, part⟩, fun conn connected =>
          congrArg _ (whole conn connected)⟩

/-- A hop that dials by itself contacts its front, and its own server if it has one. -/
theorem contacts_first (first : Proxy) (later : List Proxy) :
    ∃ front, headFront (first :: later) ++ route world finalTarget (proxied (first :: later)) =
        front ++ route world finalTarget (proxied later) ∧
      ∀ target tail, Ask.contacts world finalTarget ⟨first, none, target⟩ ++ tail =
        front ++ .server target :: tail := by
  cases direct : first.isTransparentHop with
  | true =>
    refine ⟨frontOf first, ?_, fun target tail => ?_⟩
    · rw [proxied_cons_transparent direct]
      rfl
    · simp [Ask.contacts, direct]
  | false =>
    refine ⟨frontOf first ++ [server world finalTarget first], ?_, fun target tail => ?_⟩
    · rw [proxied_cons_proxy direct, append_assoc]
      rfl
    · simp [Ask.contacts, direct]

/-- A dial contacts the front of the first hop and then the proxies in turn, as far as it gets. -/
theorem contacts_dialHops (dialable : ∀ hop ∈ hops, Dialable hop) :
    (contacts world finalTarget (dialHops world adapters finalTarget hops).asks <+:
      headFront hops ++ route world finalTarget (proxied hops)) ∧
    ∀ conn, (dialHops world adapters finalTarget hops).result = .ok conn →
      contacts world finalTarget (dialHops world adapters finalTarget hops).asks =
        headFront hops ++ route world finalTarget (proxied hops) := by
  cases hops with
  | nil => exact ⟨ nil_prefix, fun _ failed => by cases failed⟩
  | cons first later =>
    cases later with
    | nil => exact ⟨ nil_prefix, fun _ failed => by cases failed⟩
    | cons next rest =>
      have laterDialable : ∀ other ∈ next :: rest, Dialable other := fun other member =>
        dialable other (mem_cons_of_mem _ member)
      obtain ⟨front, isRoute, own⟩ := @contacts_first _ world finalTarget first (next :: rest)
      rw [dialHops, metadataForNextHop_eq laterDialable, isRoute]
      split
      · refine ⟨?_, fun _ failed => by cases failed⟩
        rw [contacts, flatMap_cons, own, prefix_append_right_inj]
        exact route_head _ _
      · obtain ⟨part, whole⟩ := @contacts_connectHops _ world adapters finalTarget _ laterDialable 1
          (.dialed first (nextTarget world finalTarget (proxied (next :: rest))))
        rw [contacts, flatMap_cons, own, prefix_append_right_inj]
        exact ⟨part, fun conn connected => congrArg _ (whole conn connected)⟩

/-- Direct members add nothing but direct hops. -/
theorem proxied_expandAll (members : List Proxy) (state : State) :
    proxied (expandAll world finalTarget true members state).1 =
      proxied (expandAll world finalTarget true (members.filter (!·.isDirect)) state).1 := by
  induction members generalizing state with
  | nil => rfl
  | cons member members ih =>
    cases hd : member.isDirect with
    | true =>
      rw [filter_cons_of_neg (by simp [hd]), ← ih]
      cases member with
      | leaf name adapterType addr =>
        rw [expandAll, expand]
        exact @proxied_cons_transparent (.leaf name adapterType addr) hd _
      | group | relay | dialerProxy => cases hd
    | false =>
      rw [filter_cons_of_pos (by simp [hd]), expandAll, expandAll]
      dsimp only
      rw [proxied, filter_append, ← proxied, ← proxied, ih, proxied, proxied, ← filter_append]
      rfl

theorem contacts_relayTcp {members : List Proxy}
    (allowed : ∀ member ∈ members, Allowed maxFlattenDepth member) (state : State) :
    (contacts world finalTarget (relayTcp world adapters members finalTarget state).asks <+:
      headFront (expandAll world finalTarget true members state).1 ++ route world finalTarget
        (proxied (expandAll world finalTarget true (members.filter (!·.isDirect)) state).1)) ∧
    ∀ conn, (relayTcp world adapters members finalTarget state).result = .ok conn →
      contacts world finalTarget (relayTcp world adapters members finalTarget state).asks =
        headFront (expandAll world finalTarget true members state).1 ++ route world finalTarget
          (proxied (expandAll world finalTarget true (members.filter (!·.isDirect)) state).1) := by
  have appends := @flattenHopsAt_appends _ world finalTarget true _ _ allowed state []
  by_cases dialable : ∀ hop ∈ (expandAll world finalTarget true members state).1, Dialable hop
  · simp only [relayTcp, flattenHops, appends.all dialable]
    rw [← proxied_expandAll]
    exact contacts_dialHops dialable
  · push Not at dialable
    obtain ⟨hop, member, undialable⟩ := dialable
    obtain ⟨error, failed⟩ := appends.fails hop member undialable
    rw [relayTcp, flattenHops, failed]
    exact ⟨ nil_prefix, fun _ failed => by cases failed⟩

/-- Two member lists that differ in direct members contact the same servers in the same order
exactly if their chains begin with the same front, or both with none.  A dial that fails contacts a
first part of them. -/
theorem contacts_eq_iff (world : World State) (adapters : Adapters) {one two : List Proxy}
    (allowedOne : ∀ member ∈ one, Allowed maxFlattenDepth member)
    (allowedTwo : ∀ member ∈ two, Allowed maxFlattenDepth member)
    (same : one.filter (!·.isDirect) = two.filter (!·.isDirect)) (finalTarget : Target)
    (state : State) :
    let dialedOne := relayTcp world adapters one finalTarget state
    let dialedTwo := relayTcp world adapters two finalTarget state
    let contactsOne := contacts world finalTarget dialedOne.asks
    let contactsTwo := contacts world finalTarget dialedTwo.asks
    (∀ connOne connTwo, dialedOne.result = .ok connOne → dialedTwo.result = .ok connTwo →
      (contactsOne = contactsTwo ↔ headFront (expandAll world finalTarget true one state).1 =
        headFront (expandAll world finalTarget true two state).1)) ∧
    (headFront (expandAll world finalTarget true one state).1 =
        headFront (expandAll world finalTarget true two state).1 →
      contactsOne <+: contactsTwo ∨ contactsTwo <+: contactsOne) := by
  obtain ⟨partOne, wholeOne⟩ := @contacts_relayTcp _ world adapters finalTarget _ allowedOne state
  obtain ⟨partTwo, wholeTwo⟩ := @contacts_relayTcp _ world adapters finalTarget _ allowedTwo state
  rw [← same] at partTwo wholeTwo
  refine ⟨fun connOne connTwo okOne okTwo => ?_, fun sameFront => ?_⟩
  · rw [wholeOne connOne okOne, wholeTwo connTwo okTwo]
    exact append_left_inj _
  · rw [sameFront] at partOne
    exact prefix_or_prefix_of_prefix partOne partTwo

/-- A chain whose first proxy is reached through a front. -/
def frontedChain : List Proxy :=
  [.dialerProxy chainEntry (ofString "front"), chainExit]

def directHop : Proxy := .leaf (ofString "DIRECT") .direct []

theorem frontedChain_allowed :
    ∀ m ∈ directHop :: frontedChain, Allowed maxFlattenDepth m := by
  intro m hc
  rcases mem_cons.mp hc with rfl | hc
  · exact .leaf _ _ _
  · rcases mem_cons.mp hc with rfl | hc
    · exact .dialerProxy _ _ (by decide) _
    · rw [mem_singleton.mp hc]
      exact .leaf _ _ _

theorem contacts_eq_iff_trailing :
    contacts firstPicks Target.default
        (relayTcp firstPicks willingAdapters frontedChain Target.default ()).asks =
      contacts firstPicks Target.default
        (relayTcp firstPicks willingAdapters (frontedChain ++ [directHop]) Target.default
          ()).asks := by
  have ht : ∀ member ∈ frontedChain ++ [directHop], Allowed maxFlattenDepth member :=
    fun member hc => frontedChain_allowed member (by simpa [or_comm] using hc)
  exact ((contacts_eq_iff firstPicks willingAdapters
    (fun member hc => frontedChain_allowed member (mem_cons_of_mem _ hc)) ht rfl
    Target.default ()).1 _ _ rfl rfl).mpr rfl

theorem leading_direct_skips_front :
    (directHop :: frontedChain).filter (!·.isDirect) = frontedChain.filter (!·.isDirect) ∧
    contacts firstPicks Target.default
        (relayTcp firstPicks willingAdapters frontedChain Target.default ()).asks =
      .front (ofString "front") :: contacts firstPicks Target.default
        (relayTcp firstPicks willingAdapters (directHop :: frontedChain) Target.default ()).asks :=
  ⟨rfl, rfl⟩

end MeowRs.Relay
