import MeowRs.RelayHops
import MeowRs.TextRuns

/-!
# Dials of a relay group

The first hop dials by itself, and each later one is asked over the stream of the one before.  Direct
hops pass a stream on unchanged, so a hop's target is the server of the next hop that is not direct.
Datagrams are not chained: they leave from the only proxy of a chain, or directly if there is none.
-/

namespace MeowRs.Relay

open List Option Text

/-- A stream: who opened it, to reach what, over which stream. -/
inductive Conn where
  | dialed (hop : Proxy) (target : Target)
  | over (stream : Conn) (hop : Proxy) (target : Target)

/-- A hop is asked to reach a target, by itself or over a stream. -/
structure Ask where
  hop : Proxy
  stream : Option Conn
  target : Target

def Ask.conn (ask : Ask) : Conn :=
  match ask.stream with
  | none => .dialed ask.hop ask.target
  | some stream => .over stream ask.hop ask.target

/-- The answers of the hops; an error is the hop's own. -/
structure Adapters where
  dialTcp : Proxy → Target → Option MeowError
  connectOver : Conn → Proxy → Target → Option MeowError
  supportUdp : Proxy → Bool
  dialUdp : Proxy → Target → Option MeowError

/-- What was asked for, in order, and what came of it. -/
structure Dialed (Asked Result : Type) where
  asks : List Asked
  result : Except MeowError Result

def Target.default : Target where
  network := .tcp
  connType := .http
  srcIp := none
  dstIp := none
  srcPort := 0
  dstPort := 0
  host := []
  process := []
  processPath := []
  uid := none
  dscp := none
  srcGeoIp := []
  dstGeoIp := []
  sniffHost := []
  inName := []
  inPort := 0
  inUser := none
  internal := false

variable {State : Type} (world : World State) (adapters : Adapters)

def metadataIpLiteral (text : Text) : Option IpAddr :=
  (world.parseIp text).or <|
    (stripPrefix text (ofString "[")).bind fun rest =>
      (stripPrefix rest.reverse (ofString "]")).bind fun inner =>
        world.parseIp inner.reverse

/-- The target that stands for an outbound's server. -/
def metadataForProxy (proxy : Proxy) (internal : Bool) : Target :=
  let (host, port) :=
    match rsplitOnce proxy.addr 0x3a with
    | some (host, port) => (host, (parseUnsigned 65536 port).getD 0)
    | none => (proxy.addr, 0)
  match metadataIpLiteral world host with
  | some ip =>
    { Target.default with
      network := .tcp, connType := .inner, dstIp := some ip, dstPort := port
      internal := internal }
  | none =>
    { Target.default with
      network := .tcp, connType := .inner, host := host, dstPort := port
      internal := internal }

/-- The target of a hop that is followed by `later` ones. -/
def metadataForNextHop (later : List Proxy) (finalTarget : Target) : Target :=
  match later.find? fun proxy => !proxy.isTransparentHop && !proxy.addr.isEmpty with
  | some proxy => metadataForProxy world proxy finalTarget.internal
  | none => finalTarget

/-- Direct hops give back the stream that they are given. -/
def connectOver (stream : Conn) (hop : Proxy) (target : Target) : Except MeowError Conn :=
  if hop.isTransparentHop then .ok stream
  else
    match adapters.connectOver stream hop target with
    | some error => .error error
    | none => .ok (.over stream hop target)

/-- Ask the hops from the one at `index` on, each over the stream of the one before. -/
def connectHops (finalTarget : Target) : Nat → Conn → List Proxy → Dialed Ask Conn
  | _, stream, [] => ⟨[], .ok stream⟩
  | index, stream, [last] =>
    ⟨[⟨last, some stream, finalTarget⟩],
      (connectOver adapters stream last finalTarget).mapError (.relayHopFailed index)⟩
  | index, stream, hop :: next :: rest =>
    let target := metadataForNextHop world (next :: rest) finalTarget
    match connectOver adapters stream hop target with
    | .error error => ⟨[⟨hop, some stream, target⟩], .error (.relayHopFailed index error)⟩
    | .ok conn =>
      let later := connectHops finalTarget (index + 1) conn (next :: rest)
      ⟨⟨hop, some stream, target⟩ :: later.asks, later.result⟩

def dialHops (finalTarget : Target) : List Proxy → Dialed Ask Conn
  | first :: next :: rest =>
    let target := metadataForNextHop world (next :: rest) finalTarget
    match adapters.dialTcp first target with
    | some error => ⟨[⟨first, none, target⟩], .error (.relayHopFailed 0 error)⟩
    | none =>
      let later := connectHops world adapters finalTarget 1 (.dialed first target) (next :: rest)
      ⟨⟨first, none, target⟩ :: later.asks, later.result⟩
  | hops =>
    ⟨[], .error (.proxy (ofString "relay: chain resolved to fewer than 2 hops (" ++
      decimal hops.length ++ ofString ")"))⟩

def relayTcp (proxies : List Proxy) (finalTarget : Target) (state : State) : Dialed Ask Conn :=
  match flattenHops world finalTarget true proxies state with
  | .error error => ⟨[], .error error⟩
  | .ok (hops, _) => dialHops world adapters finalTarget hops

/-- The hop that sends a chain's datagrams, if they need no chaining. -/
def udpExit (hops : List Proxy) : Option Proxy :=
  match hops.filter fun hop => !hop.isTransparentHop with
  | [] => hops.head?
  | [exit] => some exit
  | _ :: _ :: _ => none

def dialUdpExit (target : Target) (hops : List Proxy) : Dialed (Proxy × Target) Unit :=
  match udpExit hops with
  | none => ⟨[], .error .udpNotSupported⟩
  | some exit =>
    if adapters.supportUdp exit then
      match adapters.dialUdp exit target with
      | some error => ⟨[(exit, target)], .error error⟩
      | none => ⟨[(exit, target)], .ok ()⟩
    else ⟨[], .error .udpNotSupported⟩

def relayUdp (proxies : List Proxy) (target : Target) (state : State) :
    Dialed (Proxy × Target) Unit :=
  match flattenHops world target true proxies state with
  | .error error => ⟨[], .error error⟩
  | .ok (hops, _) => dialUdpExit adapters target hops

/-- A text that stands for an address, in brackets or not. -/
def Spells (text : Text) (ip : IpAddr) : Prop :=
  world.parseIp text = some ip ∨ world.parseIp text = none ∧
    ∃ inner, text = ofString "[" ++ inner ++ ofString "]" ∧ world.parseIp inner = some ip

/-- The target is a server, by its address if the text stands for one and else by its name. -/
def Target.Names (target : Target) (server : Text) (port : Nat) : Prop :=
  target.dstPort = port ∧
    ((∃ ip, Spells world server ip ∧ target.dstIp = some ip ∧ target.host = []) ∨
      (∀ ip, ¬Spells world server ip) ∧ target.dstIp = none ∧ target.host = server)

def proxied (hops : List Proxy) : List Proxy :=
  hops.filter fun hop => !hop.isTransparentHop

/-- The target of a proxy that is followed by `later` ones. -/
def nextTarget (finalTarget : Target) : List Proxy → Target
  | [] => finalTarget
  | next :: _ => metadataForProxy world next finalTarget.internal

/-- Each proxy in turn is asked to reach the next one, over the stream of the one before. -/
def asksAlong (finalTarget : Target) : Option Conn → List Proxy → List Ask
  | _, [] => []
  | stream, proxy :: later =>
    let ask : Ask := ⟨proxy, stream, nextTarget world finalTarget later⟩
    ask :: asksAlong finalTarget (some ask.conn) later

def proxiedAsks (asks : List Ask) : List Ask :=
  asks.filter fun ask => !ask.hop.isTransparentHop

section Chain

variable {world adapters} {finalTarget : Target} {hops : List Proxy}

theorem stripPrefix_eq_some_iff {text start rest : Text} :
    stripPrefix text start = some rest ↔ text = start ++ rest := by
  rw [stripPrefix, ite_none_right_eq_some, isPrefixOf_iff_prefix, some.injEq]
  constructor
  · rintro ⟨⟨rest, rfl⟩, rfl⟩
    rw [drop_left]
  · rintro rfl
    exact ⟨prefix_append _ _, drop_left⟩

theorem metadataIpLiteral_eq_some_iff {text : Text} {ip : IpAddr} :
    metadataIpLiteral world text = some ip ↔ Spells world text ip := by
  have bracketed : ((stripPrefix text (ofString "[")).bind fun rest =>
      (stripPrefix rest.reverse (ofString "]")).bind fun inner =>
        world.parseIp inner.reverse) = some ip ↔
      ∃ inner, text = ofString "[" ++ inner ++ ofString "]" ∧ world.parseIp inner = some ip := by
    simp only [bind_eq_some_iff, stripPrefix_eq_some_iff]
    constructor
    · rintro ⟨rest, rfl, back, isBack, parsed⟩
      refine ⟨back.reverse, ?_, parsed⟩
      rw [← reverse_reverse rest, isBack, reverse_append, append_assoc]
      rfl
    · rintro ⟨inner, rfl, parsed⟩
      refine ⟨_, append_assoc _ _ _, inner.reverse, reverse_append, ?_⟩
      rwa [reverse_reverse]
  rw [metadataIpLiteral, Spells, Option.or_eq_some_iff, bracketed]

/-- An outbound's target is the server and the port that its address is printed from. -/
theorem metadataForProxy_names {proxy : Proxy} {server : Text} {port : Nat}
    (printed : proxy.addr = server ++ ofString ":" ++ decimal port) (isPort : port < 65536)
    (internal : Bool) : (metadataForProxy world proxy internal).Names world server port := by
  have cut : rsplitOnce proxy.addr 0x3a = some (server, decimal port) := by
    rw [printed, append_assoc]
    exact rsplitOnce_append (colon_notMem_decimal port)
  rw [metadataForProxy, cut]
  dsimp only
  rw [parseUnsigned_decimal isPort]
  split
  · rename_i ip isIp
    exact ⟨rfl, .inl ⟨ip, metadataIpLiteral_eq_some_iff.mp isIp, rfl, rfl⟩⟩
  · rename_i noIp
    refine ⟨rfl, .inr ⟨fun ip spells => ?_, rfl, rfl⟩⟩
    rw [metadataIpLiteral_eq_some_iff.mpr spells] at noIp
    cases noIp

theorem proxied_cons_transparent {hop : Proxy} (hd : hop.isTransparentHop = true)
    (hops : List Proxy) : proxied (hop :: hops) = proxied hops := by
  rw [proxied, filter_cons_of_neg (by simp [hd]), proxied]

theorem proxied_cons_proxy {hop : Proxy} (p : hop.isTransparentHop = false)
    (hops : List Proxy) : proxied (hop :: hops) = hop :: proxied hops := by
  rw [proxied, filter_cons_of_pos (by simp [p]), proxied]

theorem metadataForNextHop_eq {later : List Proxy} (dialable : ∀ hop ∈ later, Dialable hop) :
    metadataForNextHop world later finalTarget = nextTarget world finalTarget (proxied later) := by
  induction later with
  | nil => rfl
  | cons hop later ih =>
    have hr := ih fun o hm => dialable o (mem_cons_of_mem _ hm)
    cases hd : hop.isTransparentHop with
    | true =>
      rw [proxied_cons_transparent hd, ← hr, metadataForNextHop, metadataForNextHop,
        find?_cons_of_neg (by simp [hd])]
    | false =>
      have hs : hop.addr ≠ [] := by
        rcases dialable hop mem_cons_self with hdir | hs
        · rw [hd] at hdir
          cases hdir
        · exact hs
      rw [proxied_cons_proxy hd, metadataForNextHop, find?_cons_of_pos (by simp [hd, hs])]
      rfl

theorem connectHops_cons (i : Nat) (str : Conn) (hop : Proxy) (later : List Proxy) :
    connectHops world adapters finalTarget i str (hop :: later) =
      match connectOver adapters str hop (metadataForNextHop world later finalTarget) with
      | .error error =>
        ⟨[⟨hop, some str, metadataForNextHop world later finalTarget⟩],
          .error (.relayHopFailed i error)⟩
      | .ok conn =>
        let rest := connectHops world adapters finalTarget (i + 1) conn later
        ⟨⟨hop, some str, metadataForNextHop world later finalTarget⟩ :: rest.asks,
          rest.result⟩ := by
  cases later with
  | nil =>
    rw [connectHops]
    change _ = match connectOver adapters str hop finalTarget with
      | .error error => (⟨_, _⟩ : Dialed Ask Conn)
      | .ok conn => _
    cases connectOver adapters str hop finalTarget <;> rfl
  | cons next rest => rw [connectHops]

theorem stream_of_connectHops {i : Nat} {str : Conn} {ask : Ask}
    (hm : ask ∈ (connectHops world adapters finalTarget i str hops).asks) : ask.stream ≠ none := by
  induction hops generalizing i str with
  | nil => cases hm
  | cons hop later ih =>
    rw [connectHops_cons] at hm
    split at hm
    · rw [mem_singleton.mp hm]
      exact some_ne_none _
    · rcases mem_cons.mp hm with rfl | hm
      · exact some_ne_none _
      · exact ih hm

section

variable (dialable : ∀ hop ∈ hops, Dialable hop)
include dialable

/-- The asks over a stream follow the proxies of the chain. -/
theorem connectHops_asks {i : Nat} {str conn : Conn}
    (connected : (connectHops world adapters finalTarget i str hops).result = .ok conn) :
    proxiedAsks (connectHops world adapters finalTarget i str hops).asks =
      asksAlong world finalTarget (some str) (proxied hops) := by
  induction hops generalizing i str with
  | nil => rfl
  | cons hop later ih =>
    have hl : ∀ o ∈ later, Dialable o := fun o hm => dialable o (mem_cons_of_mem _ hm)
    rw [connectHops_cons, metadataForNextHop_eq hl] at connected ⊢
    cases ha : connectOver adapters str hop
        (nextTarget world finalTarget (proxied later)) with
    | error error =>
      rw [ha] at connected
      cases connected
    | ok next =>
      rw [ha] at connected
      have rest := ih hl connected
      cases hd : hop.isTransparentHop with
      | true =>
        -- A direct hop gives back the stream.
        obtain rfl : str = next := by
          rw [connectOver, if_pos hd] at ha
          exact Except.ok.inj ha
        rw [proxied_cons_transparent hd, ← rest, proxiedAsks,
          filter_cons_of_neg (by simp [hd]), proxiedAsks]
      | false =>
        obtain rfl : Conn.over str hop (nextTarget world finalTarget (proxied later)) =
            next := by
          rw [connectOver, if_neg (by simp [hd])] at ha
          split at ha
          · cases ha
          · exact Except.ok.inj ha
        rw [proxied_cons_proxy hd, asksAlong, proxiedAsks,
          filter_cons_of_pos (by simp [hd]), ← proxiedAsks, rest]
        rfl

variable {conn : Conn} (connected : (dialHops world adapters finalTarget hops).result = .ok conn)
include connected

/-- A successful dial asks the first hop, and then the others over a stream. -/
theorem dialHops_cases :
    ∃ fst rest asks, hops = fst :: rest ∧ (dialHops world adapters finalTarget hops).asks =
        ⟨fst, none, nextTarget world finalTarget (proxied rest)⟩ :: asks ∧
      (∀ ask ∈ asks, ask.stream ≠ none) ∧ proxiedAsks asks = asksAlong world finalTarget
        (some (.dialed fst (nextTarget world finalTarget (proxied rest)))) (proxied rest) := by
  match hops, dialable, connected with
  | [], _, connected => cases connected
  | [_], _, connected => cases connected
  | fst :: next :: rest, dialable, connected =>
    have hl : ∀ o ∈ next :: rest, Dialable o := fun o hm => dialable o (mem_cons_of_mem _ hm)
    rw [dialHops, metadataForNextHop_eq hl] at connected ⊢
    split at connected
    · cases connected
    · exact ⟨fst, _, _, rfl, rfl, fun _ => stream_of_connectHops, connectHops_asks hl connected⟩

/-- A successful dial has asked the proxies of the chain in turn. -/
theorem dialHops_asks :
    ∃ str, proxiedAsks (dialHops world adapters finalTarget hops).asks =
        asksAlong world finalTarget str (proxied hops) ∧
      (str = none ∨ ∃ direct, direct.isTransparentHop = true ∧
        str = some (.dialed direct (nextTarget world finalTarget (proxied hops)))) := by
  obtain ⟨fst, rest, asks, rfl, hs, -, hl⟩ := dialHops_cases dialable connected
  rw [hs]
  cases direct : fst.isTransparentHop with
  | true =>
    refine ⟨some (.dialed fst _), ?_, .inr ⟨fst, direct, rfl⟩⟩
    rw [proxied_cons_transparent direct, ← hl, proxiedAsks,
      filter_cons_of_neg (by simp [direct]), proxiedAsks]
  | false =>
    refine ⟨none, ?_, .inl rfl⟩
    rw [proxied_cons_proxy direct, asksAlong, proxiedAsks,
      filter_cons_of_pos (by simp [direct]), ← proxiedAsks, hl]
    rfl

/-- Whoever dials by itself dials the first proxy's server, or is the first proxy. -/
theorem target_of_dialHops {ask : Ask} (hm : ask ∈ (dialHops world adapters finalTarget hops).asks)
    (ho : ask.stream = none) (hd : ask.hop.isTransparentHop = true) :
    ask.target = nextTarget world finalTarget (proxied hops) := by
  obtain ⟨fst, rest, asks, rfl, hs, hst, -⟩ := dialHops_cases dialable connected
  rw [hs] at hm
  rcases mem_cons.mp hm with rfl | hl
  · rw [proxied_cons_transparent hd]
  · exact absurd ho (hst ask hl)

end

theorem udpExit_cases (hops : List Proxy) :
    (∀ exit, udpExit hops = some exit →
      proxied hops = [exit] ∨ proxied hops = [] ∧ exit.isTransparentHop = true ∧ exit ∈ hops) ∧
    (2 ≤ (proxied hops).length → udpExit hops = none) := by
  rw [udpExit, ← proxied]
  cases hs : proxied hops with
  | nil =>
    refine ⟨fun exit hi => .inr ⟨rfl, ?_, mem_of_head? hi⟩, by simp⟩
    by_contra proxy
    have hm : exit ∈ proxied hops := mem_filter.mpr ⟨mem_of_head? hi, by simpa using proxy⟩
    rw [hs] at hm
    cases hm
  | cons fst later =>
    cases later with
    | nil => exact ⟨fun exit hi => .inl (by rw [some.inj hi]), by simp⟩
    | cons snd rest => exact ⟨fun exit hi => (nomatch hi), fun _ => rfl⟩

theorem dialUdpExit_asks (hops : List Proxy) :
    ((dialUdpExit adapters finalTarget hops).asks = [] ∧
      ∃ error, (dialUdpExit adapters finalTarget hops).result = .error error) ∨
    ∃ exit, (dialUdpExit adapters finalTarget hops).asks = [(exit, finalTarget)] ∧
      (proxied hops = [exit] ∨
        proxied hops = [] ∧ exit.isTransparentHop = true ∧ exit ∈ hops) := by
  rw [dialUdpExit]
  split
  · exact .inl ⟨rfl, _, rfl⟩
  · rename_i exit hit
    have hp := (udpExit_cases hops).1 exit hit
    split
    · split
      all_goals exact .inr ⟨exit, rfl, hp⟩
    · exact .inl ⟨rfl, _, rfl⟩

/-- A relay asks exactly the proxies of its chain, each to reach the server that the next one's
address is printed from, and none before it knows that all of them can be dialed. -/
theorem relay_dials_chain (world : World State) (adapters : Adapters) {members : List Proxy}
    (allowed : ∀ member ∈ members, Allowed maxFlattenDepth member) (finalTarget : Target)
    (state : State) :
    let hops := (expandAll world finalTarget true members state).1
    let tcp := relayTcp world adapters members finalTarget state
    let udp := relayUdp world adapters members finalTarget state
    ((∃ proxy ∈ proxied hops, proxy.addr = []) →
      (tcp.asks = [] ∧ ∃ error, tcp.result = .error error) ∧
        udp.asks = [] ∧ ∃ error, udp.result = .error error) ∧
    ((∀ proxy ∈ proxied hops, proxy.addr ≠ []) → (∀ conn, tcp.result = .ok conn →
        (∃ stream, proxiedAsks tcp.asks = asksAlong world finalTarget stream (proxied hops) ∧
          (stream = none ∨ ∃ direct, direct.isTransparentHop = true ∧
            stream = some (.dialed direct (nextTarget world finalTarget (proxied hops))))) ∧
        ∀ ask ∈ tcp.asks, ask.stream = none → ask.hop.isTransparentHop = true →
          ask.target = nextTarget world finalTarget (proxied hops)) ∧
      ((udp.asks = [] ∧ ∃ error, udp.result = .error error) ∨
        ∃ exit, udp.asks = [(exit, finalTarget)] ∧ (proxied hops = [exit] ∨
          proxied hops = [] ∧ exit.isTransparentHop = true ∧ exit ∈ hops)) ∧
      (2 ≤ (proxied hops).length → udp.asks = [] ∧ udp.result = .error .udpNotSupported)) ∧
    ∀ proxy server port later, proxy.addr = server ++ ofString ":" ++ decimal port →
      port < 65536 → (nextTarget world finalTarget (proxy :: later)).Names world server port := by
  intro hops tcp udp
  have ha := @flattenHopsAt_appends _ world finalTarget true _ _ allowed state []
  refine ⟨?_, ?_, fun proxy server port later printed isPort =>
    metadataForProxy_names printed isPort _⟩
  · rintro ⟨proxy, member, hu⟩
    obtain ⟨hh, hn⟩ := mem_filter.mp member
    have hun : ¬ Dialable proxy := by
      rintro (direct | hs)
      · simp [direct] at hn
      · exact hs hu
    obtain ⟨error, hf⟩ := ha.fails proxy hh hun
    have tcp_eq : tcp = ⟨[], .error error⟩ := by
      simp only [tcp, relayTcp, flattenHops, hf]
    have udp_eq : udp = ⟨[], .error error⟩ := by
      simp only [udp, relayUdp, flattenHops, hf]
    rw [tcp_eq, udp_eq]
    exact ⟨⟨rfl, error, rfl⟩, rfl, error, rfl⟩
  · intro hs
    have dialable : ∀ hop ∈ hops, Dialable hop := by
      intro hop member
      cases direct : hop.isTransparentHop with
      | true => exact .inl direct
      | false => exact .inr (hs hop (mem_filter.mpr ⟨member, by simp [direct]⟩))
    have hfl := ha.all dialable
    have tcp_eq : tcp = dialHops world adapters finalTarget hops := by
      simp only [tcp, relayTcp, flattenHops, hfl]
      rfl
    have udp_eq : udp = dialUdpExit adapters finalTarget hops := by
      simp only [udp, relayUdp, flattenHops, hfl]
      rfl
    obtain ⟨he, hr⟩ := udpExit_cases hops
    refine ⟨?_, ?_, ?_⟩
    · intro conn connected
      rw [tcp_eq] at connected ⊢
      exact ⟨dialHops_asks dialable connected, fun ask =>
        target_of_dialHops dialable connected⟩
    · rw [udp_eq]
      exact dialUdpExit_asks hops
    · intro hl
      rw [udp_eq, dialUdpExit, hr hl]
      exact ⟨rfl, rfl⟩

def chainEntry : Proxy := .leaf (ofString "a") .trojan (ofString "a.com:443")

def chainExit : Proxy := .leaf (ofString "b") .trojan (ofString "b.com:443")

/-- A group of one outbound, followed by a relay that is direct up to its last hop. -/
def nestedChain : List Proxy :=
  [.group (ofString "g") .selector [chainEntry],
    .relay (ofString "r") [.leaf (ofString "DIRECT") .direct [], chainExit]]

theorem nestedChain_allowed : ∀ m ∈ nestedChain, Allowed maxFlattenDepth m := by
  intro m hc
  rcases mem_cons.mp hc with rfl | hc
  · refine .group _ _ fun m hg => ?_
    rw [mem_singleton.mp hg]
    exact .leaf _ _ _
  · rw [mem_singleton.mp hc]
    refine .relay _ fun m hr => ?_
    rcases mem_cons.mp hr with rfl | hr
    · exact .leaf _ _ _
    · rw [mem_singleton.mp hr]
      exact .leaf _ _ _

def firstPicks : World Unit where
  select state _ _ _ := (some 0, state)
  parseIp _ := none

def willingAdapters : Adapters where
  dialTcp _ _ := none
  connectOver _ _ _ := none
  supportUdp _ := true
  dialUdp _ _ := none

theorem relay_dials_chain_nested :
    (∃ stream,
      proxiedAsks (relayTcp firstPicks willingAdapters nestedChain Target.default ()).asks =
        asksAlong firstPicks Target.default stream [chainEntry, chainExit]) ∧
    (nextTarget firstPicks Target.default [chainExit]).Names firstPicks (ofString "b.com") 443 ∧
    (relayUdp firstPicks willingAdapters nestedChain Target.default ()).asks = [] := by
  have hs : ∀ proxy ∈ [chainEntry, chainExit], proxy.addr ≠ [] := by
    intro proxy hm
    rcases mem_cons.mp hm with rfl | hm
    · decide
    · rw [mem_singleton.mp hm]
      decide
  obtain ⟨-, hd, hn⟩ := relay_dials_chain firstPicks willingAdapters nestedChain_allowed
    Target.default ()
  obtain ⟨ht, -, hu⟩ := hd hs
  obtain ⟨⟨stream, ha, -⟩, -⟩ := ht _ rfl
  exact ⟨⟨stream, ha⟩, hn _ _ _ _ (by decide) (by decide), (hu (by decide)).1⟩

end Chain

end MeowRs.Relay
