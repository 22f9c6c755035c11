import MeowRs.Rules

/-!
# Opcodes

What the rule compiler evaluates instead of rules: predicates with the data a rule has parsed or
shares, and trees of predicates for the logic rules.  Trees are folded before they are used: the
predicates that are constant on the platform disappear from them.
-/

namespace MeowRs

/-- A regular expression with a literal that every match must contain. -/
structure RegexMatcher (Regex : Type) where
  regex : Regex
  requiredLiteral : Option Text

def RegexMatcher.accepts {engine : RegexEngine} (matcher : RegexMatcher engine.Regex) (host : Text) :
    Bool :=
  matcher.requiredLiteral.all (domainKeywordMatches host) && engine.isMatch matcher.regex host

inductive WildcardMatcher (Regex : Type) where
  | glob (pieces : List Text)
  | regex (matcher : RegexMatcher Regex)

def WildcardMatcher.accepts {engine : RegexEngine} (host : Text) :
    WildcardMatcher engine.Regex → Bool
  | .glob pieces => Glob.matchPieces Text.byteToAsciiLowercase Text.dot pieces host
  | .regex matcher => matcher.accepts host

inductive ProcessPathOp (Regex : Type) where
  | glob (regex : Regex)
  | directory (path : Text)
  | exact (name : Text)

section Predicates

variable (runtime : Runtime)

/-- The opcodes without opcodes inside. -/
inductive Predicate where
  | domain (host : Text)
  | domainSuffix (suffix : Text)
  | domainKeyword (keyword : Text)
  | domainRegex (matcher : RegexMatcher runtime.regex.Regex)
  | domainWildcard (matcher : WildcardMatcher runtime.regex.Regex)
  | ipCidr (net : IpNet) (src : Bool)
  | srcPort (matcher : PortMatcher)
  | dstPort (matcher : PortMatcher)
  | inPort (matcher : PortMatcher)
  | dscp (value : Nat)
  | processName (name : Text)
  | processPath (op : ProcessPathOp runtime.regex.Regex)
  | network (network : Network)
  | uid (uid : Nat)
  | inName (name : Text)
  | inType (mask : InTypeMask)
  | inUser (user : Text)
  | match_
  | geoSite (db : Nat) (keys : List Text)
  | ruleSetRef (set : Nat)
  | ipRanges (set : Nat) (src : Bool)
  | ipSuffix (matcher : IpSuffixMatcher) (src : Bool)

end Predicates

section Opcodes

variable {runtime : Runtime}

def processPathMatches (op : ProcessPathOp runtime.regex.Regex) (path : Text) : Bool :=
  if path.isEmpty then false
  else
    match op with
    | .glob regex => runtime.regex.isMatch regex path
    | .directory directory => isBelow path directory
    | .exact name => (runtime.platform.fileName path).getD path == name

namespace Predicate

/-- What `matches_op` answers on a predicate. -/
def accepts (metadata : Metadata) : Predicate runtime → Bool
  | .domain host => Text.eqIgnoreAsciiCase metadata.ruleHost host
  | .domainSuffix suffix => domainSuffixMatches metadata.ruleHost suffix
  | .domainKeyword keyword => domainKeywordMatches metadata.ruleHost keyword
  | .domainRegex matcher => matcher.accepts metadata.ruleHost
  | .domainWildcard matcher => matcher.accepts metadata.ruleHost
  | .ipCidr net src => (metadata.ip src).any net.contains
  | .srcPort matcher => matcher.contains metadata.srcPort
  | .dstPort matcher => matcher.contains metadata.dstPort
  | .inPort matcher => metadata.inPort != 0 && matcher.contains metadata.inPort
  | .dscp value => metadata.dscp == some value
  | .processName name => Text.eqIgnoreAsciiCase metadata.process name
  | .processPath op => processPathMatches op metadata.processPath
  | .network expected => metadata.network == expected
  | .uid expected => runtime.platform.uidInfoAvailable && metadata.uid == some expected
  | .inName name => !metadata.inName.isEmpty && metadata.inName == name
  | .inType mask => mask.accepts metadata.connType
  | .inUser user => metadata.inUser == some user
  | .match_ => true
  | .geoSite db keys =>
    !metadata.ruleHost.isEmpty &&
      keys.all fun key => (runtime.geositeDbs db).lookupResolved key metadata.ruleHost
  | .ruleSetRef set => (runtime.ruleSets set).accepts metadata
  | .ipRanges set src => (metadata.ip src).any (runtime.ipRangeSets set).contains
  | .ipSuffix matcher src => (metadata.ip src).any matcher.accepts

/-- `op_never_matches`: the predicates that are false on this platform. -/
def neverMatches : Predicate runtime → Bool
  | .uid _ => !runtime.platform.uidInfoAvailable
  | .ipRanges set _ => (runtime.ipRangeSets set).isEmpty
  | .processPath _ => !runtime.platform.processInfoAvailable
  | .processName name => !runtime.platform.processInfoAvailable && !name.isEmpty
  | _ => false

def isMatch : Predicate runtime → Bool
  | .match_ => true
  | _ => false

end Predicate

variable (runtime) in
inductive RuleOp where
  | test (predicate : Predicate runtime)
  | allOf (children : List RuleOp)
  | anyOf (children : List RuleOp)
  | notOp (child : RuleOp)
  | trieOwned
  | fallback

mutual

def RuleOp.matchesOp (metadata : Metadata) : RuleOp runtime → Bool
  | .test predicate => predicate.accepts metadata
  | .allOf children => allMatchOps metadata children
  | .anyOf children => anyMatchesOp metadata children
  | .notOp child => !matchesOp metadata child
  | .trieOwned => false
  | .fallback => false

def RuleOp.allMatchOps (metadata : Metadata) : List (RuleOp runtime) → Bool
  | [] => true
  | op :: ops => matchesOp metadata op && allMatchOps metadata ops

def RuleOp.anyMatchesOp (metadata : Metadata) : List (RuleOp runtime) → Bool
  | [] => false
  | op :: ops => matchesOp metadata op || anyMatchesOp metadata ops

end

variable (runtime) in
inductive Folded where
  | never
  | always
  | op (op : RuleOp runtime)

def Folded.conjunction : List (RuleOp runtime) → Folded runtime
  | [] => .always
  | [child] => .op child
  | children => .op (.allOf children)

def Folded.disjunction : List (RuleOp runtime) → Folded runtime
  | [] => .never
  | [child] => .op child
  | children => .op (.anyOf children)

def Folded.negation : Folded runtime → Folded runtime
  | .never => .always
  | .always => .never
  | .op child => .op (.notOp child)

mutual

def foldOp : RuleOp runtime → Folded runtime
  | .test predicate =>
    if predicate.neverMatches then .never
    else if predicate.isMatch then .always
    else .op (.test predicate)
  | .allOf children =>
    match foldConjuncts children with
    | some kept => .conjunction kept
    | none => .never
  | .anyOf children =>
    match foldDisjuncts children with
    | some kept => .disjunction kept
    | none => .always
  | .notOp child => (foldOp child).negation
  | .trieOwned => .op .trieOwned
  | .fallback => .op .fallback

/-- The folded children of a conjunction that are not constant, unless one of them is false. -/
def foldConjuncts : List (RuleOp runtime) → Option (List (RuleOp runtime))
  | [] => some []
  | child :: children =>
    match foldOp child with
    | .never => none
    | .always => foldConjuncts children
    | .op folded => (foldConjuncts children).map (folded :: ·)

/-- The folded children of a disjunction that are not constant, unless one of them is true. -/
def foldDisjuncts : List (RuleOp runtime) → Option (List (RuleOp runtime))
  | [] => some []
  | child :: children =>
    match foldOp child with
    | .always => none
    | .never => foldDisjuncts children
    | .op folded => (foldDisjuncts children).map (folded :: ·)

end

end Opcodes

end MeowRs
