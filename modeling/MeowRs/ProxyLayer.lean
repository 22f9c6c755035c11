import MeowRs.GraphSearch
import MeowRs.ProxyGroups

/-!
# The proxy layer of a configuration

Built-ins and leaves enter the registry first, `dialer-proxy` chains are bound by name, then groups
are built over them and an all-registry `GLOBAL` selector closes the list if there is none.  Three
checks refuse configurations whose dials would run in circles.  The leaf parsers are parameters.
-/

namespace MeowRs.ProxyLayer

open Text

/-- The `dialer-proxy` value of a leaf. -/
inductive DialerValue where
  | absent
  | null
  | text (value : Text)
  | other
  deriving DecidableEq

/-- A block of the `proxies:` list; `name` is there when it is a string. -/
structure RawProxy (Definition : Type) where
  name : Option Text
  dialerProxy : DialerValue
  definition : Definition

/-- What a leaf parser returns: the adapter's own name and its type. -/
structure Leaf where
  name : Text
  adapterType : AdapterType

structure LeafParsers (Definition : Type) where
  parseStaticProxy : RawProxy Definition → Except Text Leaf
  placeholderAdapterType : RawProxy Definition → Option AdapterType
  parseProxyWithDialer : RawProxy Definition → Except Text Leaf

structure RawConfig (Definition : Type) where
  proxies : Option (List (RawProxy Definition))
  proxyGroups : Option (List RawProxyGroup)
  rules : Option (List Text)
  tcpConnectTimeout : Option Nat

def maxDurationSecs : Nat := 10 * 365 * 24 * 60 * 60

def malformedDialerPrefix : Text := ofString "__malformed_dialer_proxy__"

def builtinAdapterNames : List Text :=
  [ofString "DIRECT", ofString "REJECT", ofString "REJECT-DROP",
    ofString "COMPATIBLE", ofString "PASS", ofString "PASS-RULE"]

def builtinGlobalPolicies : List Text :=
  [ofString "DIRECT", ofString "REJECT", ofString "REJECT-DROP",
    ofString "PASS", ofString "PASS-RULE", ofString "COMPATIBLE",
    ofString "GLOBAL", ofString "BLOCK"]

def globalName : Text := ofString "GLOBAL"

def Leaf.entry (leaf : Leaf) : Proxy where
  name := leaf.name
  adapterType := leaf.adapterType
  dialer := none
  members := []
  slots := []

def builtins : Registry :=
  ((((((∅ : Registry).insert (ofString "DIRECT")
      (Leaf.entry ⟨ofString "DIRECT", .direct⟩)).insert (ofString "REJECT")
      (Leaf.entry ⟨ofString "REJECT", .reject⟩)).insert (ofString "REJECT-DROP")
      (Leaf.entry ⟨ofString "REJECT-DROP", .rejectDrop⟩)).insert (ofString "COMPATIBLE")
      (Leaf.entry ⟨ofString "COMPATIBLE", .compatible⟩)).insert (ofString "PASS")
      (Leaf.entry ⟨ofString "PASS", .pass⟩)).insert (ofString "PASS-RULE")
      (Leaf.entry ⟨ofString "PASS-RULE", .passRule⟩)

section Leaves

variable {Definition : Type}

/-- The registry with the names of the leaves in it and of those bound to a dead placeholder. -/
structure Leaves where
  proxies : Registry
  staticProxyNames : List Text
  placeholderNames : List Text

/-- Enter one leaf; a placeholder leaves an earlier entry alone. -/
def Leaves.bind (leaves : Leaves) (key : Text) (leaf : Leaf) (placeholder : Bool) : Leaves :=
  let names := leaves.staticProxyNames.insert key
  if placeholder then
    match leaves.proxies.lookup key with
    | none => ⟨leaves.proxies.insert key leaf.entry, names, leaves.placeholderNames.insert key⟩
    | some _ => { leaves with staticProxyNames := names }
  else
    ⟨leaves.proxies.insert key leaf.entry, names, leaves.placeholderNames.filter (· ≠ key)⟩

/-- Parse one block, falling back to a placeholder; `none` when the block is dropped. -/
def parseLeaf (parsers : LeafParsers Definition) (strict : Bool) (raw : RawProxy Definition) :
    Except Text (Option (Leaf × Bool)) :=
  match parsers.parseStaticProxy raw with
  | .ok leaf => .ok (some (leaf, false))
  | .error reason =>
    let name := raw.name.getD (ofString "<unnamed>")
    if strict then
      .error (ofString "proxies: failed to parse '" ++ name ++
        ofString "' (strict mode): " ++ reason)
    else
      match parsers.placeholderAdapterType raw with
      | some declared => .ok (some (⟨name, declared⟩, true))
      | none => .ok none

def insertParsedLeaves (parsers : LeafParsers Definition) (strict : Bool) :
    List (RawProxy Definition) → Leaves → Except Text Leaves
  | [], leaves => .ok leaves
  | raw :: rest, leaves =>
    match parseLeaf parsers strict raw with
    | .error reason => .error reason
    | .ok none => insertParsedLeaves parsers strict rest leaves
    | .ok (some (leaf, placeholder)) =>
      let key := raw.name.getD leaf.name
      if key ∈ builtinAdapterNames then
        if strict then
          .error (ofString "proxies: '" ++ key ++
            ofString "' shadows a built-in adapter (strict mode)")
        else insertParsedLeaves parsers strict rest leaves
      else insertParsedLeaves parsers strict rest (leaves.bind key leaf placeholder)

end Leaves

/-- The declaration-level checks of the group names. -/
def checkGroupNames (proxies : Registry) : List RawProxyGroup → List Text → Except Text Unit
  | [], _ => .ok ()
  | group :: groups, seen =>
    if group.name ∈ proxies then
      .error (ofString "proxy group '" ++ group.name ++
        ofString "': the duplicate name — already used by a proxy or reserved built-in")
    else if maxDurationSecs < group.interval.getD 0 then
      .error (ofString "proxy group '" ++ group.name ++
        ofString "': interval exceeds the " ++ ofString (toString maxDurationSecs) ++
        ofString "s ceiling")
    else if group.name ∈ seen then
      .error (ofString "proxy group '" ++ group.name ++
        ofString "': the duplicate name — declared more than once")
    else checkGroupNames proxies groups (group.name :: seen)

def declaredMembers (groups : List RawProxyGroup) (name : Text) : List Text :=
  match groups.reverse.find? (·.name = name) with
  | some group => (group.proxies.getD []).filter (· ∈ groupNames groups)
  | none => []

def rejectDeclaredGroupCycles (groups : List RawProxyGroup) : Except Text Unit :=
  let fuel := ((groupNames groups).map fun name => (declaredMembers groups name).length + 1).sum + 1
  match GraphSearch.exploreAll (declaredMembers groups) fuel (groupNames groups) fun _ => none with
  | some (.error cycle) =>
    .error (ofString "proxy-group cycle detected: " ++
      (ofString " -> ").intercalate cycle)
  | _ => .ok ()

section Dialers

variable {Definition : Type}

/-- The dialer a block asks for.  A value that is no name binds the leaf to a target that never
resolves. -/
def readDialer (strict : Bool) (name : Text) (value : DialerValue) : Except Text (Option Text) :=
  let malformed : Except Text (Option Text) :=
    if strict then
      .error (ofString "proxy '" ++ name ++
        ofString "': malformed dialer-proxy value (strict mode)")
    else .ok (some (malformedDialerPrefix ++ name))
  match value with
  | .absent => .ok none
  | .text value =>
    if (trim value).isEmpty then if value.isEmpty then .ok none else malformed
    else .ok (some (trim value))
  | .null => .ok none
  | .other => malformed

/-- The edges from leaves to their dialers; the blocks come last one first, and only the last block
of a name counts. -/
def collectDialerEdges (strict : Bool) :
    List (RawProxy Definition) → List Text → Except Text (List (Text × Text))
  | [], _ => .ok []
  | raw :: rest, seen =>
    match raw.name with
    | none => collectDialerEdges strict rest seen
    | some name =>
      if name ∈ seen then collectDialerEdges strict rest seen
      else if name ∈ builtinAdapterNames then collectDialerEdges strict rest (name :: seen)
      else
        match readDialer strict name raw.dialerProxy with
        | .error reason => .error reason
        | .ok none => collectDialerEdges strict rest (name :: seen)
        | .ok (some dialer) =>
          if dialer = name then
            .error (ofString "proxy '" ++ name ++
              ofString "': dialer-proxy points to itself")
          else
            match collectDialerEdges strict rest (name :: seen) with
            | .error reason => .error reason
            | .ok edges => .ok ((name, dialer) :: edges)

/-- Whether a dialer stands for a malformed value. -/
def isMalformedDialer (dialer : Text) : Bool :=
  malformedDialerPrefix.isPrefixOf dialer

/-- One pass of peeling: drop every leaf whose dialer has no dialer left. -/
def peelPass (edges : List (Text × Text)) (live : List Text) : List Text :=
  edges.foldl (fun live edge =>
    if edge.1 ∈ live ∧ edge.2 ∉ live then live.filter (· ≠ edge.1) else live) live

/-- Peel until nothing changes; the leaves left are on a cycle or lead into one. -/
def peel (edges : List (Text × Text)) : Nat → List Text → List Text
  | 0, live => live
  | passes + 1, live =>
    let after := peelPass edges live
    if after.isEmpty ∨ after.length = live.length then after else peel edges passes after

/-- Rebuild the leaf of an edge with its dialer, or wrap the entry it has. -/
def applyDialerEdge (parsers : LeafParsers Definition) (strict : Bool)
    (raws : List (RawProxy Definition)) (placeholderNames : List Text) (proxies : Registry)
    (edge : Text × Text) : Except Text Registry :=
  let (name, dialer) := edge
  match raws.reverse.find? (·.name = some name) with
  | none =>
    .error (ofString "proxy '" ++ name ++ ofString "': dialer-proxy '" ++ dialer ++
      ofString "' not applied; no raw config block found for this name")
  | some raw =>
    match parsers.parseProxyWithDialer raw with
    | .ok rebuilt => .ok (proxies.insert name { rebuilt.entry with dialer := some dialer })
    | .error reason =>
      if strict then
        .error (ofString "proxy '" ++ name ++
          ofString "': cannot inject dialer-proxy '" ++ dialer ++
          ofString "' (strict mode): " ++ reason)
      else
        match proxies.lookup name with
        | some inner =>
          if name ∈ placeholderNames then .ok proxies
          else .ok (proxies.insert name { inner with dialer := some dialer })
        | none => .ok proxies

def applyDialerEdges (parsers : LeafParsers Definition) (strict : Bool)
    (raws : List (RawProxy Definition)) (placeholderNames : List Text) :
    List (Text × Text) → Registry → Except Text Registry
  | [], proxies => .ok proxies
  | edge :: edges, proxies =>
    match applyDialerEdge parsers strict raws placeholderNames proxies edge with
    | .error reason => .error reason
    | .ok proxies => applyDialerEdges parsers strict raws placeholderNames edges proxies

/-- Bind every `dialer-proxy` chain; it returns the registry and the edges. -/
def applyDialerProxies (parsers : LeafParsers Definition) (strict : Bool)
    (raws : List (RawProxy Definition)) (groups : List RawProxyGroup) (leaves : Leaves) :
    Except Text (Registry × List (Text × Text)) :=
  match collectDialerEdges strict raws.reverse [] with
  | .error reason => .error reason
  | .ok edges =>
    if edges.isEmpty then .ok (leaves.proxies, edges)
    else
      let dialable := leaves.proxies.keys ++ groupNames groups ++ [globalName]
      match edges.find? fun edge => edge.2 ∉ dialable ∧ !isMalformedDialer edge.2 with
      | some (name, dialer) =>
        .error (ofString "proxy '" ++ name ++ ofString "': dialer-proxy '" ++ dialer ++
          ofString "' not found")
      | none =>
        let live := peel edges (edges.length + 1) (edges.map Prod.fst)
        if live.isEmpty then
          match applyDialerEdges parsers strict raws leaves.placeholderNames edges
              leaves.proxies with
          | .error reason => .error reason
          | .ok proxies => .ok (proxies, edges)
        else
          let cycle := (edges.filter (·.1 ∈ live)).map fun edge =>
            edge.1 ++ ofString " -> " ++ edge.2
          .error (ofString "dialer-proxy cycle detected: " ++
            (ofString ", ").intercalate cycle)

end Dialers

/-- The names of an `include-all-proxies` group: the leaves in the order of their names. -/
def includeAllNames (staticProxyNames : List Text) (proxies : Registry) : List Text :=
  (staticProxyNames.filter (· ∈ proxies)).insertionSort fun a b => (compare a b).isLE = true

/-- The first provider a group uses that is not there, under strict checking. -/
def missingProvider (providers : List Text) (groups : List RawProxyGroup) : Option (Text × Text) :=
  groups.findSome? fun group =>
    if group.includeAll.getD false || group.includeAllProviders.getD false ||
        group.groupType = .relay then none
    else ((group.useProviders.getD []).find? (· ∉ providers)).map (group.name, ·)

section Global

variable {Definition : Type}

def isUsableGlobalTarget (name : Text) (proxies : Registry) : Bool :=
  !(builtinGlobalPolicies.any fun policy =>
      toAsciiLowercase name = toAsciiLowercase policy) && name ∈ proxies

/-- The target of a `MATCH` rule. -/
def matchTarget (rule : Text) : Option Text :=
  match (rule.splitOn 0x2c).map trim with
  | kind :: target :: _ =>
    if toAsciiLowercase kind = ofString "match" then some target else none
  | _ => none

def lastMatchTarget (raw : RawConfig Definition) : Option Text :=
  (raw.rules.getD []).reverse.findSome? matchTarget

def primaryGlobalTarget (raw : RawConfig Definition) (proxies : Registry) : Option Text :=
  match (lastMatchTarget raw).filter (isUsableGlobalTarget · proxies) with
  | some target => some target
  | none =>
    match (raw.proxyGroups.getD []).find? (isUsableGlobalTarget ·.name proxies) with
    | some group => some group.name
    | none =>
      ((raw.proxies.getD []).filterMap RawProxy.name).find? (isUsableGlobalTarget · proxies)

/-- The members of an auto-created `GLOBAL`: every entry but the match-loop signals, by name, the
primary target first. -/
def globalMembers (raw : RawConfig Definition) (proxies : Registry) : List Text :=
  let names := ((proxies.entries.filter fun entry =>
      !(entry.2.adapterType ∈ [.pass, .passRule, .compatible, .rejectDrop])).map
        Sigma.fst).insertionSort fun a b => (compare a b).isLE = true
  match primaryGlobalTarget raw proxies with
  | some primary => if primary ∈ names then primary :: names.erase primary else names
  | none => names

def globalConfig (members : List Text) : RawProxyGroup where
  name := globalName
  groupType := .select
  proxies := some members
  interval := none
  strategy := none
  useProviders := none
  filter := none
  excludeFilter := none
  excludeType := none
  includeAll := none
  includeAllProxies := none
  includeAllProviders := none

/-- Add the `GLOBAL` selector unless there is an entry of that name. -/
def addGlobal (context : GroupContext) (raw : RawConfig Definition) (proxies : Registry) : Registry :=
  if globalName ∈ proxies then proxies
  else
    match parseProxyGroupInner { context with includeAllProxies := [] }
        (globalConfig (globalMembers raw proxies)) proxies true with
    | .ok entry => proxies.insert globalName entry
    | .error _ => proxies

end Global

section Membership

/-- What a dial of an entry may go to next, as the membership check sees it. -/
structure MembershipGraph where
  edges : List (Text × Text)
  groups : List RawProxyGroup
  proxies : Registry
  includeAllProxyNames : List Text
  globalAutoCreated : Bool

namespace MembershipGraph

def groupMembers (graph : MembershipGraph) (group : RawProxyGroup) : List Text :=
  (group.proxies.getD []).filter (· ∈ graph.proxies) ++
    if group.includeAllProxies.getD false then
      graph.includeAllProxyNames.filter (· ∈ graph.proxies)
    else []

def membersOf (graph : MembershipGraph) (name : Text) : List Text :=
  ((graph.groups.filter fun group => group.name = name ∧ group.name ∈ graph.proxies).flatMap
      graph.groupMembers) ++
    if graph.globalAutoCreated ∧ name = globalName then graph.proxies.keys else []

def dialerOf (graph : MembershipGraph) (name : Text) : Option Text :=
  (graph.edges.reverse.find? fun edge => edge.1 = name ∧ edge.1 ∈ graph.proxies).map Prod.snd

/-- The entries pushed for a node, the last one first. -/
def next (graph : MembershipGraph) (name : Text) : List Text :=
  ((graph.dialerOf name).toList ++ graph.membersOf name).reverse

def nodes (graph : MembershipGraph) : List Text :=
  graph.edges.map Prod.fst ++ groupNames graph.groups ++ [globalName]

def fuel (graph : MembershipGraph) : Nat :=
  (graph.nodes.map fun name => (graph.next name).length).sum + 2

/-- Whether the dialer of an edge can route back to its source. -/
def routesBack (graph : MembershipGraph) (edge : Text × Text) : Bool :=
  edge.1 ∈ graph.proxies ∧
    GraphSearch.meets graph.next edge.1 graph.fuel [edge.2] [] = some true

end MembershipGraph

def rejectGroupMembershipCycles (graph : MembershipGraph) : Except Text Unit :=
  match graph.edges.find? graph.routesBack with
  | none => .ok ()
  | some (name, dialer) =>
    .error (ofString "proxy '" ++ name ++ ofString "': dialer-proxy '" ++ dialer ++
      ofString "' can route back to '" ++ name ++
      ofString "' through group membership, which would recurse forever on the first dial")

end Membership

/-- The registry of a configuration and the dialer edges it was checked with. -/
structure Layer where
  proxies : Registry
  dialerEdges : List (Text × Text)

section Build

variable {Definition : Type}

def checkLayer (edges : List (Text × Text)) (groups : List RawProxyGroup)
    (staticProxyNames : List Text) (hadGlobal : Bool) (proxies : Registry) : Except Text Layer :=
  match edges.find? fun edge => edge.2 ∉ proxies ∧ !isMalformedDialer edge.2 with
  | some (name, dialer) =>
    .error (ofString "proxy '" ++ name ++ ofString "': dialer-proxy '" ++ dialer ++
      ofString "' is declared but did not build into a registry entry")
  | none =>
    match rejectGroupMembershipCycles
        ⟨edges, groups, proxies, staticProxyNames, !hadGlobal && globalName ∈ proxies⟩ with
    | .error reason => .error reason
    | .ok () => .ok ⟨proxies, edges⟩

/-- The groups, the `GLOBAL` selector and the checks, over the leaves with their chains. -/
def buildGroupLayer (context : GroupContext) (strict : Bool) (raw : RawConfig Definition)
    (staticProxyNames : List Text) (chained : Registry) (edges : List (Text × Text)) :
    Except Text Layer :=
  match buildGroups context strict (raw.proxyGroups.getD []) chained with
  | .error reason => .error reason
  | .ok grouped =>
    checkLayer edges (raw.proxyGroups.getD []) staticProxyNames (globalName ∈ grouped)
      (addGlobal context raw grouped)

def buildProxyLayer (parsers : LeafParsers Definition) (compile : Text → Except Text Unit)
    (providers : List Text) (strict : Bool) (raw : RawConfig Definition) : Except Text Layer := do
  if maxDurationSecs < raw.tcpConnectTimeout.getD 0 then
    throw (ofString "tcp-connect-timeout: " ++
      ofString (toString (raw.tcpConnectTimeout.getD 0)) ++ ofString "s exceeds the " ++
      ofString (toString maxDurationSecs) ++ ofString "s ceiling")
  let raws := raw.proxies.getD []
  let groups := raw.proxyGroups.getD []
  let leaves ← insertParsedLeaves parsers strict raws ⟨builtins, [], []⟩
  checkGroupNames leaves.proxies groups []
  rejectDeclaredGroupCycles groups
  let (chained, edges) ← applyDialerProxies parsers strict raws groups leaves
  let context : GroupContext :=
    ⟨includeAllNames leaves.staticProxyNames chained, providers, compile⟩
  if strict then
    if let some (group, provider) := missingProvider providers groups then
      throw (ofString "proxy-groups: group '" ++ group ++
        ofString "' references unknown proxy-provider '" ++ provider ++
        ofString "' (strict mode)")
  buildGroupLayer context strict raw leaves.staticProxyNames chained edges

end Build

end MeowRs.ProxyLayer
