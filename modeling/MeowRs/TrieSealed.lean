import MeowRs.BinarySearch
import MeowRs.BreadthFirst
import MeowRs.CsrGrouping
import MeowRs.TrieBuilder

/-!
# The sealed domain trie

The compact form: nodes in breadth-first order, each a label offset and a word that packs the index
of its first child with a three-bit mask of its values; one arena of labels, each terminated by a
dot; the values in node order, found through a sampled rank over the masks.
-/

namespace MeowRs.DomainTrie

open CsrGrouping

def maskShift : Nat := 29

/-- The low bits of a packed word, which hold the index of the first child. -/
def childMaskBits : BitVec 32 := (1#32 <<< maskShift) - 1#32

/-- The number of nodes per sampled value index. -/
def valueBlock : Nat := 32

def maskExact : BitVec 8 := 1

def maskStar : BitVec 8 := 2

def maskDot : BitVec 8 := 4

/-- Whether the values of a type take no memory; there is then at most one of them. -/
class ValueLayout (T : Type) where
  zeroSized : Bool
  subsingleton : zeroSized = true → Subsingleton T

instance : ValueLayout Nat where
  zeroSized := false
  subsingleton := nofun

structure Node where
  label : BitVec 32
  childMask : BitVec 32
  deriving Inhabited, DecidableEq

namespace Node

def firstChild (node : Node) : Nat :=
  (node.childMask &&& childMaskBits).toNat

def mask (node : Node) : BitVec 8 :=
  (node.childMask >>> maskShift).setWidth 8

def valueCount (node : Node) : Nat :=
  (node.childMask >>> maskShift).cpop.toNat

end Node

structure Sealed (T : Type) where
  nodes : List Node
  values : List T
  valueBase : List (BitVec 32)
  labels : Text

/-- Compare a stored label, terminated by a dot, with a query label; `fold` is applied to the query
bytes.  The stored bytes never run out before the terminator. -/
def cmpStored (fold : UInt8 → UInt8) : Text → Text → Ordering
  | stored, [] => if stored.head? = some Text.dot then .eq else .gt
  | [], _ :: _ => .lt
  | first :: stored, byte :: query =>
    if first = Text.dot then .lt
    else
      match compare first (fold byte) with
      | .eq => cmpStored fold stored query
      | decided => decided

/-- The byte folding of a case-insensitive search, and of one that takes the query as it is. -/
def queryFold (ci : Bool) (byte : UInt8) : UInt8 :=
  if ci then Text.byteToAsciiLowercase byte else byte

theorem map_queryFold (ci : Bool) (text : Text) :
    text.map (queryFold ci) = if ci then Text.toAsciiLowercase text else text := by
  cases ci with
  | false => exact List.map_id text
  | true => rfl

namespace Sealed

variable {T : Type}

def cmpLabel (trie : Sealed T) (ci : Bool) (offset : BitVec 32) (query : Text) : Ordering :=
  cmpStored (queryFold ci) (trie.labels.drop offset.toNat) query

def children (trie : Sealed T) (node : Nat) : Nat × List Node :=
  let first := (trie.nodes.getD node default).firstChild
  let last := (trie.nodes.getD (node + 1) default).firstChild
  (first, slice trie.nodes first last)

def findChild (trie : Sealed T) (ci : Bool) (node : Nat) (label : Text) : Option Nat :=
  let (first, children) := trie.children node
  (BinarySearch.binarySearchBy (fun child => trie.cmpLabel ci child.label label) children).map
    (first + ·)

/-- The index of the first value of a node: the sampled base and the values since. -/
def valueIndex [ValueLayout T] (trie : Sealed T) (node : Nat) : Nat :=
  if ValueLayout.zeroSized T then 0
  else
    let block := node / valueBlock
    (trie.valueBase.getD block 0).toNat +
      ((slice trie.nodes (block * valueBlock) node).map Node.valueCount).sum

variable [ValueLayout T]

def exact (trie : Sealed T) (node : Nat) : Option T :=
  let mask := (trie.nodes.getD node default).mask
  if mask &&& maskExact ≠ 0 then trie.values[trie.valueIndex node]? else none

def star (trie : Sealed T) (node : Nat) : Option T :=
  let mask := (trie.nodes.getD node default).mask
  if mask &&& maskStar ≠ 0 then
    trie.values[trie.valueIndex node + (mask &&& maskExact).toNat]?
  else none

def dot (trie : Sealed T) (node : Nat) : Option T :=
  let mask := (trie.nodes.getD node default).mask
  if mask &&& maskDot ≠ 0 then
    trie.values[trie.valueIndex node + (mask &&& (maskExact ||| maskStar)).cpop.toNat]?
  else none

def slot (trie : Sealed T) : MatchKind → Nat → Option T
  | .exact => trie.exact
  | .star => trie.star
  | .dot => trie.dot

end Sealed

namespace Builder

variable {T : Type}

/-- Where the run of a parent starts; the cursor of each parent marks the end of its run. -/
def runStart (bounds : List Nat) : Nat → Nat
  | 0 => 0
  | parent + 1 => bounds.getD parent 0

/-- The labels by their ids, from the interner in the order it lists them. -/
def labelById (builder : Builder T) (labelOrder : List (Text × Nat)) : List Text :=
  labelOrder.foldl (fun labels entry => labels.set entry.2 entry.1)
    (List.replicate builder.labels.entries.length [])

def nodeLabel (builder : Builder T) (labels : List Text) (node : Nat) : Text :=
  labels.getD (builder.nodes.getD node (.vacant 0)).label []

def sortByLabel (builder : Builder T) (labels : List Text) (siblings : List Nat) : List Nat :=
  siblings.insertionSort fun a b =>
    (compare (builder.nodeLabel labels a) (builder.nodeLabel labels b)).isLE = true

/-- The offsets of the labels in the arena and the arena itself. -/
def buildArena : List Text → List (BitVec 32) → Text → List (BitVec 32) × Text
  | [], offsets, arena => (offsets, arena)
  | label :: labels, offsets, arena =>
    buildArena labels (offsets ++ [BitVec.ofNat 32 arena.length]) (arena ++ label ++ [Text.dot])

def nodeValues (node : BuildNode T) : List T :=
  node.exact.toList ++ node.star.toList ++ node.dot.toList

def nodeMask (node : BuildNode T) : BitVec 8 :=
  (if node.exact.isSome then maskExact else 0) ||| (if node.star.isSome then maskStar else 0) |||
    (if node.dot.isSome then maskDot else 0)

/-- The packed form of a node: its label offset, its first child and its mask. -/
def packNode (builder : Builder T) (offsets : List (BitVec 32)) (firstChild : List Nat)
    (old index : Nat) : Node :=
  let node := builder.nodes.getD old (.vacant 0)
  ⟨offsets.getD node.label 0,
    BitVec.ofNat 32 (firstChild.getD index 0) ||| ((nodeMask node).setWidth 32 <<< maskShift)⟩

/-- Pack nodes in their new order, collecting their values and sampling the value index. -/
def packNodes (builder : Builder T) (offsets : List (BitVec 32)) (firstChild : List Nat) :
    List Nat → Nat → Sealed T → Sealed T
  | [], _, trie => trie
  | old :: order, index, trie =>
    packNodes builder offsets firstChild order (index + 1)
      { trie with
        valueBase :=
          if index % valueBlock = 0 then
            trie.valueBase ++ [BitVec.ofNat 32 trie.values.length]
          else trie.valueBase
        values := trie.values ++ nodeValues (builder.nodes.getD old (.vacant 0))
        nodes := trie.nodes ++ [builder.packNode offsets firstChild old index] }

/-- The compact form of a trie.  The edges and the labels come out of their hash maps in some order;
the source asserts that the nodes and the arena fit their fields. -/
def intoSealed (builder : Builder T) (edgeOrder : List ((Nat × Nat) × Nat))
    (labelOrder : List (Text × Nat)) : Option (Sealed T) :=
  let builder := builder.ensureRoot
  let n := builder.nodes.length
  let (bounds, childrenOld) := groupRuns n
    (edgeOrder.map fun edge => (edge.1.1, edge.2)) (List.replicate (n - 1) 0)
  let labels := builder.labelById labelOrder
  let childrenOld :=
    mapRuns (builder.sortByLabel labels) n (runStart bounds) childrenOld
  let (order, firstChild) := BreadthFirst.loop
    (fun old => slice childrenOld (runStart bounds old) (runStart bounds (old + 1)))
    n 0 [0] []
  let totalLabelBytes := (labels.map fun label => label.length + 1).sum
  if n < 2 ^ maskShift ∧ totalLabelBytes < 2 ^ 32 then
    let (offsets, arena) := buildArena labels [] []
    let packed := builder.packNodes offsets firstChild order 0
      { nodes := [], values := [], valueBase := [], labels := arena }
    some { packed with nodes := packed.nodes ++ [⟨0, BitVec.ofNat 32 n⟩] }
  else none

end Builder

end MeowRs.DomainTrie
