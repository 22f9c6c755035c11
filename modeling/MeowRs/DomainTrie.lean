import MeowRs.TrieSealed

/-!
# Domain tries

The trie that callers see: inserts of exact, `*.`, `.` and `+.` patterns while it is built, and the
searches that work on both of its forms.  Inserted patterns are lower-cased by the Unicode mapping
`toLowercase`, which is a parameter here; queries are folded in ASCII only.
-/

namespace MeowRs

open Text

inductive DomainTrie.TrieState (T : Type) where
  | building (builder : DomainTrie.Builder T)
  | sealed (trie : DomainTrie.Sealed T)

structure DomainTrie (T : Type) where
  state : DomainTrie.TrieState T
  len : Nat

namespace DomainTrie

variable {T : Type}

def new : DomainTrie T where
  state := .building .new
  len := 0

def insertIntoTree (trie : DomainTrie T) (base : Text) (value : T) (kind : MatchKind)
    (mode : InsertMode) : DomainTrie T :=
  match trie.state with
  | .building builder =>
    { trie with state := .building (builder.insertIntoTree base value kind mode) }
  | .sealed _ => trie

/-- A pattern trimmed and in lower case, as an insert stores it. -/
def normalizePattern (toLowercase : Text → Text) (domain : Text) : Text :=
  let trimmed := trim domain
  if trimmed.any fun byte => isAsciiUppercase byte || 0x80 ≤ byte then toLowercase trimmed
  else trimmed

/-- One of the pattern forms: the base without trailing dots, inserted under the given kinds. -/
def insertForm (trie : DomainTrie T) (rest : Text) (value : T) (kinds : List MatchKind)
    (mode : InsertMode) : Bool × DomainTrie T :=
  let base := trimEndDots rest
  if base.isEmpty then (false, trie)
  else
    let inserted := kinds.foldl (fun trie kind => trie.insertIntoTree base value kind mode) trie
    (true, { inserted with len := inserted.len + kinds.length })

def insertInner (trie : DomainTrie T) (toLowercase : Text → Text) (domain : Text) (value : T)
    (mode : InsertMode) : Bool × DomainTrie T :=
  let domain := normalizePattern toLowercase domain
  if (trimEndDots domain).isEmpty then (false, trie)
  else
    match stripPrefix domain (ofString "+.") with
    | some rest => trie.insertForm rest value [.exact, .dot] mode
    | none =>
      match stripPrefix domain (ofString "*.") with
      | some rest => trie.insertForm rest value [.star] mode
      | none =>
        match stripPrefix domain (ofString ".") with
        | some rest => trie.insertForm rest value [.dot] mode
        | none => trie.insertForm domain value [.exact] mode

def insert (trie : DomainTrie T) (toLowercase : Text → Text) (domain : Text) (value : T) :
    Bool × DomainTrie T :=
  trie.insertInner toLowercase domain value .firstWins

def insertOverwrite (trie : DomainTrie T) (toLowercase : Text → Text) (domain : Text) (value : T) :
    Bool × DomainTrie T :=
  trie.insertInner toLowercase domain value .overwrite

/-- One call of `insert` or `insert_overwrite`. -/
structure Insertion (T : Type) where
  domain : Text
  value : T
  mode : InsertMode

def Insertion.perform (toLowercase : Text → Text) (trie : DomainTrie T) (insertion : Insertion T) :
    DomainTrie T :=
  match insertion.mode with
  | .firstWins => (trie.insert toLowercase insertion.domain insertion.value).2
  | .overwrite => (trie.insertOverwrite toLowercase insertion.domain insertion.value).2

def insertAll (toLowercase : Text → Text) (insertions : List (Insertion T)) : DomainTrie T :=
  insertions.foldl (Insertion.perform toLowercase) new

/-- Freeze the trie; the two lists are the orders in which its hash maps list their entries. -/
def sealTrie (trie : DomainTrie T) (edgeOrder : List ((Nat × Nat) × Nat))
    (labelOrder : List (Text × Nat)) : Option (DomainTrie T) :=
  match trie.state with
  | .building builder =>
    (builder.intoSealed edgeOrder labelOrder).map fun frozen => { trie with state := .sealed frozen }
  | .sealed _ => some trie

/-- The walk of a most-specific search over the labels of a query with `count` labels, from the
right; `depth` of them are behind it. -/
def searchBestLoop (child : Nat → Text → Option Nat) (slot : MatchKind → Nat → Option T)
    (count : Nat) : Nat → Nat → Option T → List Text → Option T
  | _, _, best, [] => best
  | depth, node, best, label :: labels =>
    match child node label with
    | none => best
    | some node =>
      let remaining := count - depth - 1
      if remaining = 0 then
        match slot .exact node with
        | some value => some value
        | none => searchBestLoop child slot count (depth + 1) node best labels
      else if remaining = 1 then
        match slot .star node with
        | some value => searchBestLoop child slot count (depth + 1) node (some value) labels
        | none =>
          match slot .dot node with
          | some value => searchBestLoop child slot count (depth + 1) node (some value) labels
          | none => searchBestLoop child slot count (depth + 1) node best labels
      else
        match slot .dot node with
        | some value => searchBestLoop child slot count (depth + 1) node (some value) labels
        | none => searchBestLoop child slot count (depth + 1) node best labels

def foldMin [LE T] [DecidableLE T] (best candidate : Option T) : Option T :=
  match candidate with
  | none => best
  | some value =>
    match best with
    | some current => if current ≤ value then some current else some value
    | none => some value

def searchMinLoop [LE T] [DecidableLE T] (child : Nat → Text → Option Nat)
    (slot : MatchKind → Nat → Option T) (count : Nat) :
    Nat → Nat → Option T → List Text → Option T
  | _, _, best, [] => best
  | depth, node, best, label :: labels =>
    match child node label with
    | none => best
    | some node =>
      let remaining := count - depth - 1
      let best :=
        if remaining = 0 then foldMin best (slot .exact node)
        else
          let best := if remaining = 1 then foldMin best (slot .star node) else best
          foldMin best (slot .dot node)
      searchMinLoop child slot count (depth + 1) node best labels

def TrieState.child (state : TrieState T) (ci : Bool) : Nat → Text → Option Nat :=
  match state with
  | .building builder => if ci then builder.childCi else builder.child
  | .sealed trie => trie.findChild ci

theorem child_building (b : Builder T) (ci : Bool) (node : Nat) (l : Text) :
    (TrieState.building b).child ci node l =
      b.child node (l.map (queryFold ci)) := by
  rw [map_queryFold]
  cases ci with
  | false => rfl
  | true =>
    simp only [TrieState.child, Builder.childCi, if_true]
    cases hu : l.any isAsciiUppercase with
    | false => simp [toAsciiLowercase_of_lower hu]
    | true => simp

variable [ValueLayout T]

def TrieState.slot (state : TrieState T) : MatchKind → Nat → Option T :=
  match state with
  | .building builder => builder.slot
  | .sealed trie => trie.slot

def searchBest (trie : DomainTrie T) (ci : Bool) (query : Text) : Option T :=
  searchBestLoop (trie.state.child ci) trie.state.slot (labelCount query) 0 0 none
    (rsplitDots query)

def search (trie : DomainTrie T) (domain : Text) : Option T :=
  if trie.len = 0 then none
  else
    let trimmed := trim domain
    let query := trimEndDots trimmed
    if query.isEmpty then none
    else if trimmed.any isAsciiUppercase then trie.searchBest true query
    else trie.searchBest false query

def searchNormalized (trie : DomainTrie T) (domainLower : Text) : Option T :=
  if trie.len = 0 then none
  else
    let query := trimEndDots domainLower
    if query.isEmpty then none else trie.searchBest false query

def searchMinNormalized [LE T] [DecidableLE T] (trie : DomainTrie T) (domainLower : Text) :
    Option T :=
  if trie.len = 0 then none
  else
    let query := trimEndDots domainLower
    if query.isEmpty then none
    else
      searchMinLoop (trie.state.child false) trie.state.slot (labelCount query) 0 0 none
        (rsplitDots query)

end DomainTrie

end MeowRs
