import MeowRs.CarryStack
import MeowRs.LittleEndian

/-!
# The hash of a derivation context

The context of a derived key is hashed as a BLAKE3 tree with one more flag at every node.  The code
builds the tree on a stack, in the order of the chunks; the specification cuts the bytes in two.
The code keeps a node with the parameters of its last compression, since only the root gets the root
flag; the specification knows from the start which node is the root.
-/

namespace MeowRs

open List

open Nat

namespace ContextHash

open CarryStack (Tree Stacked carry collapse)
open LittleEndian (leBytes)

abbrev Words := List UInt32

/-- The compression function: chaining value, block, counter, length of the block, flags. -/
abbrev Compress := Words → Bytes → UInt64 → UInt8 → UInt8 → Words

def chunkLen : Nat := 1024

def blockLen : Nat := 64

def iv : Words :=
  [0x6A09E667, 0xBB67AE85, 0x3C6EF372, 0xA54FF53A, 0x510E527F, 0x9B05688C, 0x1F83D9AB, 0x5BE0CD19]

def chunkStart : UInt8 := 1

def chunkEnd : UInt8 := 2

def parent : UInt8 := 4

def root : UInt8 := 8

def deriveKeyContext : UInt8 := 32

structure Node where
  cv : Words
  block : Bytes
  blockLen : UInt8
  counter : UInt64
  flags : UInt8

def wordsToBytes (words : Words) : Bytes :=
  words.flatMap fun word => leBytes 4 word.toNat

variable (compress : Compress)

def Node.cvBytes (node : Node) : Bytes :=
  wordsToBytes (compress node.cv node.block node.counter node.blockLen node.flags)

def Node.rootBytes (node : Node) : Bytes :=
  wordsToBytes (compress node.cv node.block node.counter node.blockLen (node.flags ||| root))

/-- The flags of a block of a chunk. -/
def blockFlags (first : Bool) : UInt8 :=
  deriveKeyContext ||| if first then chunkStart else 0

/-- A block is filled up with zeros. -/
def lastBlock (first : Bool) (cv : Words) (tail : Bytes) (counter : UInt64) : Node where
  cv := cv
  block := tail ++ replicate (blockLen - tail.length) 0
  blockLen := .ofNat tail.length
  counter := counter
  flags := deriveKeyContext ||| chunkEnd ||| if first then chunkStart else 0

/-- Compress the block of a chunk with some index. -/
def compressBlock (chunk : Bytes) (counter : UInt64) (cv : Words) (index : Nat) : Words :=
  compress cv ((chunk.drop (index * blockLen)).take blockLen) counter (.ofNat blockLen)
    (blockFlags (index = 0))

def chunkNode (chunk : Bytes) (counter : Nat) : Node :=
  let buffered := max ((chunk.length + blockLen - 1) / blockLen) 1 - 1
  let cv := (range buffered).foldl (compressBlock compress chunk (.ofNat counter)) iv
  lastBlock (buffered = 0) cv (chunk.drop (buffered * blockLen)) (.ofNat counter)

def parentNode (left right : Bytes) : Node where
  cv := iv
  block := left ++ right
  blockLen := 64
  counter := 0
  flags := deriveKeyContext ||| parent

def join (left right : Node) : Node :=
  parentNode (left.cvBytes compress) (right.cvBytes compress)

/-- `chunks` of a slice. -/
def chunks (bytes : Bytes) : List Bytes :=
  if bytes = [] then [] else bytes.take chunkLen :: chunks (bytes.drop chunkLen)
  termination_by bytes.length
  decreasing_by
    have some := length_pos_iff.mpr ‹_›
    simp only [length_drop, chunkLen]
    omega

/-- The last loop of `context_key`. -/
def finish (node : Node) : List Node → Bytes
  | [] => node.rootBytes compress
  | left :: stack =>
    let merged := join compress left node
    if stack.isEmpty then merged.rootBytes compress else finish merged stack

/-- `None` where a pop from the stack fails. -/
def contextKey (ctx : Bytes) : Option Bytes :=
  let chunks := if ctx = [] then [[]] else chunks ctx
  let stack := chunks.zipIdx.foldlM (fun stack (chunk, index) =>
    carry (join compress) (index + 1) (chunkNode compress chunk index) stack) []
  stack.bind fun
    | [] => none
    | node :: stack => some (finish compress node stack)

/-- A chunk block by block.  Its first block has the flag 1, its last one 2 and, if the chunk is the
whole tree, 8; the flag 32 of a context is everywhere. -/
def specChunk (isRoot : Bool) (counter : UInt64) (first : Bool) (cv : Words) (chunk : Bytes) :
    Words :=
  if chunk.length ≤ 64 then
    compress cv (chunk ++ replicate (64 - chunk.length) 0) counter (.ofNat chunk.length)
      (32 + (if first then 1 else 0) + 2 + if isRoot then 8 else 0)
  else
    specChunk isRoot counter false
      (compress cv (chunk.take 64) counter 64 (32 + if first then 1 else 0)) (chunk.drop 64)
  termination_by chunk.length
  decreasing_by
    rw [length_drop]
    omega

/-- The chunks on the left: the largest power of two that leaves a byte on the right. -/
def leftChunks (length : Nat) : Nat :=
  2 ^ ((length - 1) / 1024).log2

theorem leftChunks_lt {length : Nat} (large : ¬ length ≤ 1024) :
    0 < leftChunks length ∧ 1024 * leftChunks length < length := by
  have some : (length - 1) / 1024 ≠ 0 := by omega
  have most := Nat.log2_self_le some
  refine ⟨Nat.two_pow_pos _, ?_⟩
  simp only [leftChunks] at most ⊢
  omega

/-- The tree over some bytes, whose first chunk has a given number.  An inner node compresses the
results of its two sides, with the counter 0 and the flag 4. -/
def specTree (isRoot : Bool) (ctx : Bytes) (counter : Nat) : Words :=
  if ctx.length ≤ 1024 then specChunk compress isRoot (.ofNat counter) true iv ctx
  else
    let left := specTree false (ctx.take (1024 * leftChunks ctx.length)) counter
    let right := specTree false (ctx.drop (1024 * leftChunks ctx.length))
      (counter + leftChunks ctx.length)
    compress iv (wordsToBytes left ++ wordsToBytes right) 0 64 (32 + 4 + if isRoot then 8 else 0)
  termination_by ctx.length
  decreasing_by
    all_goals
      have bounds := leftChunks_lt ‹_›
      simp only [length_take, length_drop] at *
      omega

def specKey (ctx : Bytes) : Bytes :=
  wordsToBytes (specTree compress true ctx 0)

/-- What a node of the code comes to as the root or below it. -/
def Node.output (isRoot : Bool) (node : Node) : Words :=
  compress node.cv node.block node.counter node.blockLen
    (node.flags ||| if isRoot then root else 0)

variable {compress}

theorem cvBytes_eq (node : Node) :
    node.cvBytes compress = wordsToBytes (node.output compress false) := by
  simp [Node.cvBytes, Node.output]

theorem output_lastBlock (isRoot first : Bool) (cv : Words) (tail : Bytes) (counter : UInt64) :
    (lastBlock first cv tail counter).output compress isRoot =
      compress cv (tail ++ replicate (64 - tail.length) 0) counter (.ofNat tail.length)
        (32 + (if first then 1 else 0) + 2 + if isRoot then 8 else 0) := by
  have flags : ∀ isRoot first : Bool,
      (deriveKeyContext ||| chunkEnd ||| if first then chunkStart else 0) |||
          (if isRoot then root else 0) =
        32 + (if first then 1 else 0) + 2 + if isRoot then 8 else 0 := by
    decide
  rw [← flags]
  rfl

theorem output_join (isRoot : Bool) (left right : Node) :
    (join compress left right).output compress isRoot =
      compress iv (wordsToBytes (left.output compress false) ++
        wordsToBytes (right.output compress false)) 0 64 (32 + 4 + if isRoot then 8 else 0) := by
  have flags : ∀ isRoot : Bool, (deriveKeyContext ||| parent) ||| (if isRoot then root else 0) =
      32 + 4 + if isRoot then 8 else 0 := by
    decide
  rw [← flags, ← cvBytes_eq, ← cvBytes_eq]
  rfl

theorem blockFlags_eq : ∀ first : Bool, blockFlags first = 32 + if first then 1 else 0 := by
  decide

theorem specChunk_eq {isRoot : Bool} {chunk : Bytes} {counter : UInt64} {count : Nat} :
    ∀ {index : Nat} {cv : Words}, (count ≠ 0 → (index + count) * blockLen < chunk.length) →
      chunk.length ≤ (index + count + 1) * blockLen →
      specChunk compress isRoot counter (index = 0) cv (chunk.drop (index * blockLen)) =
        (lastBlock (index + count = 0)
          ((range' index count).foldl (compressBlock compress chunk counter) cv)
          (chunk.drop ((index + count) * blockLen)) counter).output compress isRoot := by
  induction count with
  | zero =>
    intro index cv _ short
    rw [specChunk, if_pos, output_lastBlock]
    · rfl
    · simp only [length_drop, blockLen] at short ⊢
      omega
  | succ count ih =>
    intro index cv long short
    have more := long (succ_ne_zero count)
    have large : ¬ (chunk.drop (index * blockLen)).length ≤ 64 := by
      simp only [length_drop, blockLen] at more ⊢
      omega
    have next := @ih (index + 1) (compressBlock compress chunk counter cv index)
      (fun _ => by rwa [add_right_comm, add_assoc])
      (by rwa [add_right_comm index, add_assoc index])
    have behind : index * blockLen + 64 = (index + 1) * blockLen := (succ_mul index blockLen).symm
    rw [specChunk, if_neg large, drop_drop, behind, List.range'_succ, foldl_cons,
      ← add_assoc, add_right_comm, ← blockFlags_eq]
    exact next

theorem output_chunkNode (isRoot : Bool) (chunk : Bytes) (counter : Nat) :
    (chunkNode compress chunk counter).output compress isRoot =
      specChunk compress isRoot (.ofNat counter) true iv chunk := by
  unfold chunkNode
  generalize isBuffered : max ((chunk.length + blockLen - 1) / blockLen) 1 - 1 = buffered
  have same := @specChunk_eq compress isRoot chunk (.ofNat counter) buffered 0 iv
    (by simp only [blockLen] at isBuffered ⊢; omega) (by simp only [blockLen] at isBuffered ⊢; omega)
  rw [zero_mul, drop_zero, zero_add, ← range_eq_range'] at same
  exact same.symm

theorem chunks_nil : chunks [] = [] := by
  rw [chunks, if_pos rfl]

theorem length_chunks (bytes : Bytes) :
    (chunks bytes).length = (bytes.length + chunkLen - 1) / chunkLen := by
  fun_induction chunks bytes with
  | case1 => rfl
  | case2 bytes some ih =>
    have positive := length_pos_iff.mpr some
    rw [length_cons, ih, length_drop]
    simp only [chunkLen]
    omega

theorem chunks_split (bytes : Bytes) (count : Nat) :
    (chunks bytes).take count = chunks (bytes.take (chunkLen * count)) ∧
      (chunks bytes).drop count = chunks (bytes.drop (chunkLen * count)) := by
  induction count generalizing bytes with
  | zero => simp [chunks_nil]
  | succ count ih =>
    by_cases none : bytes = []
    · simp [none, chunks_nil]
    · have size : chunkLen * (count + 1) = chunkLen + chunkLen * count := by ring
      have front : bytes.take (chunkLen * (count + 1)) ≠ [] := by
        simp [none, chunkLen]
      rw [chunks, if_neg none, take_succ_cons, drop_succ_cons, (ih _).1, (ih _).2,
        drop_drop, size]
      rw [size] at front
      refine ⟨?_, rfl⟩
      conv_rhs => rw [chunks]
      rw [if_neg front, take_take, Nat.min_eq_left (Nat.le_add_right _ _), drop_take,
        add_tsub_cancel_left]

def leaves (compress : Compress) (chunks : List Bytes) (counter : Nat) : List Node :=
  (chunks.zipIdx counter).map fun (chunk, index) => chunkNode compress chunk index

theorem leaves_append (first second : List Bytes) (counter : Nat) :
    leaves compress (first ++ second) counter =
      leaves compress first counter ++ leaves compress second (counter + first.length) := by
  simp [leaves, zipIdx_append]

/-- The tree over the chunks is the one over the bytes. -/
theorem output_tree {nodes : List Node} {node : Node} (tree : Tree (join compress) nodes node)
    {isRoot : Bool} {ctx : Bytes} {counter : Nat} (some : ctx ≠ [])
    (same : nodes = leaves compress (chunks ctx) counter) :
    node.output compress isRoot = specTree compress isRoot ctx counter := by
  have positive := length_pos_iff.mpr some
  induction tree generalizing isRoot ctx counter with
  | leaf a =>
    have one := congrArg List.length same
    simp only [leaves, length_map, length_zipIdx, length_chunks, length_singleton,
      chunkLen] at one
    have short : ctx.length ≤ chunkLen := by
      simp only [chunkLen]
      omega
    rw [chunks, if_neg some, take_of_length_le short, drop_of_length_le short,
      chunks_nil] at same
    have isLeaf := (cons.inj same).1
    rw [specTree, if_pos (show ctx.length ≤ 1024 from short), ← output_chunkNode, isLeaf]
  | @node height left right x y full nonempty fits isLeft isRight ihLeft ihRight =>
    have count : left.length + right.length = (ctx.length + chunkLen - 1) / chunkLen := by
      rw [← length_chunks, ← length_append, same]
      simp [leaves]
    have rightPos := length_pos_iff.mpr nonempty
    have large : ¬ ctx.length ≤ 1024 := by
      simp only [chunkLen] at count
      omega
    have isLeftCount : leftChunks ctx.length = 2 ^ height := by
      rw [leftChunks, (log2_eq_iff (by omega)).mpr]
      simp only [chunkLen] at count ⊢
      omega
    obtain ⟨front, back⟩ := chunks_split ctx (2 ^ height)
    have lengthFront : ((chunks ctx).take (2 ^ height)).length = 2 ^ height := by
      rw [length_take, length_chunks]
      omega
    rw [← take_append_drop (2 ^ height) (chunks ctx), leaves_append] at same
    obtain ⟨sameLeft, sameRight⟩ := append_inj same (by simp [leaves, full, lengthFront])
    have inside := leftChunks_lt large
    rw [isLeftCount] at inside
    have leftSome : ctx.take (1024 * 2 ^ height) ≠ [] := by
      simp [some]
    have rightSome : ctx.drop (1024 * 2 ^ height) ≠ [] := by
      simpa using inside.2
    rw [output_join, specTree, if_neg large, isLeftCount,
      ihLeft leftSome (front ▸ sameLeft) (length_pos_iff.mpr leftSome),
      ihRight rightSome (by rw [sameRight, back, lengthFront]; rfl)
        (length_pos_iff.mpr rightSome)]

/-- Pushing the chunks never fails. -/
theorem exists_stack (rest : List Bytes) {done stack : List Node}
    (stacked : Stacked (join compress) done stack) :
    ∃ final, (rest.zipIdx done.length).foldlM (fun stack (chunk, index) =>
        carry (join compress) (index + 1) (chunkNode compress chunk index) stack) stack = some final ∧
      Stacked (join compress) (done ++ leaves compress rest done.length) final := by
  induction rest generalizing done stack with
  | nil => exact ⟨stack, rfl, by simpa [leaves] using stacked⟩
  | cons chunk rest ih =>
    obtain ⟨next, carried, after⟩ := @CarryStack.exists_carry _ _ _ _ _ _ 0 stacked rfl (by simp)
      (.leaf (chunkNode compress chunk done.length))
    obtain ⟨final, folded, whole⟩ := ih after
    rw [pow_zero, Nat.div_one] at carried
    rw [length_append, length_singleton] at folded whole
    refine ⟨final, ?_, by simpa [leaves] using whole⟩
    rw [zipIdx_cons, foldlM_cons]
    dsimp only
    rw [carried]
    exact folded

theorem finish_eq (node : Node) (stack : List Node) :
    finish compress node stack = (collapse (join compress) node stack).rootBytes compress := by
  induction stack generalizing node with
  | nil => rfl
  | cons left stack ih =>
    cases stack with
    | nil => rfl
    | cons next stack => exact ih _

/-- The context hash is the one of the specification, and no pop from the stack fails. -/
theorem contextKey_eq (compress : Compress) (ctx : Bytes) :
    contextKey compress ctx = some (specKey compress ctx) := by
  unfold contextKey
  dsimp only
  obtain ⟨final, folded, stacked⟩ :=
    exists_stack (if ctx = [] then [[]] else chunks ctx) (@Stacked.empty _ (join compress))
  rw [length_nil] at folded
  rw [folded, Option.bind_some]
  rw [nil_append, length_nil] at stacked
  generalize isLeaves : leaves compress _ 0 = nodes at stacked
  cases stacked with
  | empty =>
    split at isLeaves
    · cases isLeaves
    · rw [chunks, if_neg ‹_›] at isLeaves
      cases isLeaves
  | @push height lower block stack x full larger isTree below =>
    have tree := CarryStack.tree_collapse below full.le
      ((pow_dvd_pow 2 (le_succ height)).trans larger) isTree
    rw [← isLeaves] at tree
    suffices same : (collapse (join compress) x stack).output compress true =
        specTree compress true ctx 0 by
      rw [specKey, ← same]
      exact congrArg some (finish_eq x stack)
    split at tree
    · subst ctx
      rw [specTree, if_pos (by simp), ← output_chunkNode]
      exact congrArg _ tree.eq_of_singleton
    · exact output_tree tree ‹_› rfl

end ContextHash

end MeowRs
