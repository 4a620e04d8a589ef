/-
The hasher (`blake3_hasher` and the `hasher_…`, `blake3_hasher_…` functions of
`blake3.c`).

`none` is again every step outside the arrays: the stack has 55 entries, the
merge loop reads the two below the top, a length never wraps below zero.  The
memory that a hasher is made in holds arbitrary values: `blake3HasherInit`
takes the old contents and overwrites what the C function overwrites, the
stack's cells not among them.

Input bytes are a list, an output array is the list of all its bytes together
with a position, so that a write outside it is visible.
-/
import Blake3Kmp.Subtree

open CheckedMemory

namespace Blake3Kmp

structure Hasher where
  key : Words 8
  chunk : ChunkState
  cvStackLen : UInt8
  cvStack : Vector (Bytes 32) 55

/-- Memory for a hasher with every byte zero. -/
def zeroedHasher : Hasher where
  key := Vector.replicate 8 0
  chunk := { cv := Vector.replicate 8 0, chunkCounter := 0, buf := zeroBlock, bufLen := 0,
             blocksCompressed := 0, flags := 0 }
  cvStackLen := 0
  cvStack := Vector.replicate 55 (Vector.replicate 32 0)

/-- `sizeof(blake3_hasher)`: the key, the chunk state up to its alignment of 8, the stack
and its length, up to the same alignment. -/
def blake3HasherSizeof : ℕ :=
  let chunkStateSize := (32 + 8 + 64 + 1 + 1 + 1 + 7) / 8 * 8
  (32 + chunkStateSize + 1 + 55 * 32 + 7) / 8 * 8

def hasherInitBase (self : Hasher) (key : Words 8) (flags : UInt8) : Hasher :=
  { self with key, chunk := chunkStateInit key flags, cvStackLen := 0 }

def blake3HasherInit (self : Hasher) : Hasher := hasherInitBase self iv 0

def blake3HasherInitKeyed (self : Hasher) (key : Bytes 32) : Hasher :=
  hasherInitBase self (loadKeyWords key) Flags.keyedHash

/-- The loop of `hasher_merge_cv_stack`. -/
def hasherMergeLoop (p : Platform) (self : Hasher) (postMergeStackLen : ℕ) : Option Hasher :=
  if self.cvStackLen.toNat > postMergeStackLen then do
    let parentNode ← checkedSub self.cvStackLen.toNat 2
    let left ← load self.cvStack parentNode
    let right ← load self.cvStack (parentNode + 1)
    let output := parentOutput (left ++ right) self.key self.chunk.flags
    let cvStack ← store self.cvStack parentNode (outputChainingValue p output)
    hasherMergeLoop p { self with cvStack, cvStackLen := self.cvStackLen - 1 } postMergeStackLen
  else some self
  termination_by self.cvStackLen.toNat
  decreasing_by
    have := self.cvStackLen.toNat_lt
    simp only [UInt8.toNat_sub, UInt8.toNat_one]
    omega

def hasherMergeCvStack (p : Platform) (self : Hasher) (totalLen : UInt64) : Option Hasher :=
  hasherMergeLoop p self (popcnt totalLen)

def hasherPushCv (p : Platform) (self : Hasher) (newCv : Bytes 32) (chunkCounter : UInt64) :
    Option Hasher := do
  let self ← hasherMergeCvStack p self chunkCounter
  let cvStack ← store self.cvStack self.cvStackLen.toNat newCv
  some { self with cvStack, cvStackLen := self.cvStackLen + 1 }

/-! ### `blake3_hasher_update_base` -/

/-- The first part: finish a partial chunk.  When no input is left after it, the rest of
`blake3_hasher_update_base` does nothing. -/
def hasherFinishChunk (p : Platform) (self : Hasher) (input : List UInt8) :
    Option (Hasher × List UInt8) :=
  if chunkStateLen self.chunk > 0 then do
    let room ← checkedSub 1024 (chunkStateLen self.chunk)
    let take := if room > input.length then input.length else room
    let first ← readSlice input 0 take
    let chunk ← chunkStateUpdate p self.chunk first
    let self := { self with chunk }
    let input := input.drop take
    -- If we've filled the current chunk and there's more coming, finalize this chunk.
    if input.length > 0 then do
      let chunkCv := outputChainingValue p (chunkStateOutput self.chunk)
      let self ← hasherPushCv p self chunkCv self.chunk.chunkCounter
      some ({ self with
        chunk := chunkStateReset self.chunk self.key (self.chunk.chunkCounter + 1) }, input)
    else some (self, input)
  else some (self, input)

/-- Halve `subtreeLen` until it evenly divides the count so far. -/
def shrinkSubtreeLen (subtreeLen : ℕ) (countSoFar : UInt64) : Option ℕ :=
  if subtreeLen = 0 then none -- subtree_len - 1
  else if UInt64.ofNat (subtreeLen - 1) &&& countSoFar ≠ 0 then
    shrinkSubtreeLen (subtreeLen / 2) countSoFar
  else some subtreeLen

/-- Hash a subtree of one chunk by itself, and push its value. -/
def hasherPushChunk (p : Platform) (self : Hasher) (subtree : List UInt8) : Option Hasher := do
  let chunkState :=
    { chunkStateInit self.key self.chunk.flags with chunkCounter := self.chunk.chunkCounter }
  let chunkState ← chunkStateUpdate p chunkState subtree
  let cv := outputChainingValue p (chunkStateOutput chunkState)
  hasherPushCv p self cv chunkState.chunkCounter

/-- Compress a larger subtree to its two top values, and push both. -/
def hasherPushSubtree (p : Platform) (self : Hasher) (subtree : List UInt8)
    (subtreeChunks : ℕ) : Option Hasher := do
  let cvPair ← compressSubtreeToParentNode p subtree self.key self.chunk.chunkCounter
    self.chunk.flags
  let left ← cvPair[0]?
  let right ← cvPair[1]?
  let self ← hasherPushCv p self left self.chunk.chunkCounter
  hasherPushCv p self right (self.chunk.chunkCounter + UInt64.ofNat (subtreeChunks / 2))

/-- One round of the loop over the input beyond one chunk: the new state and the length of
the subtree hashed. -/
def hasherUpdateStep (p : Platform) (self : Hasher) (input : List UInt8) :
    Option (Hasher × ℕ) := do
  let countSoFar := self.chunk.chunkCounter * 1024
  let subtreeLen ← shrinkSubtreeLen (roundDownToPowerOf2 input.length) countSoFar
  let subtreeChunks := subtreeLen / 1024
  let subtree ← readSlice input 0 subtreeLen
  let self ← (if subtreeLen ≤ 1024 then hasherPushChunk p self subtree
    else hasherPushSubtree p self subtree subtreeChunks)
  let chunkCounter := self.chunk.chunkCounter + UInt64.ofNat subtreeChunks
  some ({ self with chunk := { self.chunk with chunkCounter } }, subtreeLen)

/-- The loop; a round that hashed nothing would be repeated for ever. -/
def hasherUpdateLoop (p : Platform) (self : Hasher) (input : List UInt8) :
    Option (Hasher × List UInt8) :=
  if input.length > 1024 then
    match hasherUpdateStep p self input with
    | none => none
    | some (self, subtreeLen) =>
      if 0 < subtreeLen then hasherUpdateLoop p self (input.drop subtreeLen) else none
  else some (self, input)
  termination_by input.length
  decreasing_by
    rw [List.length_drop]
    omega

def blake3HasherUpdate (p : Platform) (self : Hasher) (input : List UInt8) : Option Hasher :=
  if input.length = 0 then some self
  else do
    let (self, input) ← hasherFinishChunk p self input
    let (self, input) ← hasherUpdateLoop p self input
    if input.length > 0 then do
      let chunk ← chunkStateUpdate p self.chunk input
      hasherMergeCvStack p { self with chunk } chunk.chunkCounter
    else some self

/-! ### `blake3_hasher_finalize_seek` -/

/-- The roll-up loop: `cvsRemaining` entries of the stack are left to join. -/
def finalizeLoop (p : Platform) (self : Hasher) (output : Output) :
    (cvsRemaining : ℕ) → Option Output
  | 0 => some output
  | cvsRemaining + 1 => do
    let left ← load self.cvStack cvsRemaining
    let parentBlock : Bytes 64 := left ++ outputChainingValue p output
    finalizeLoop p self (parentOutput parentBlock self.key self.chunk.flags) cvsRemaining

/-- The output that the roll-up starts from, and the number of stack entries left. -/
def finalizeStart (self : Hasher) : Option (Output × ℕ) :=
  if chunkStateLen self.chunk > 0 then
    some (chunkStateOutput self.chunk, self.cvStackLen.toNat)
  else do
    -- There are always at least 2 CVs in the stack in this case.
    let cvsRemaining ← checkedSub self.cvStackLen.toNat 2
    let left ← load self.cvStack cvsRemaining
    let right ← load self.cvStack (cvsRemaining + 1)
    some (parentOutput (left ++ right) self.key self.chunk.flags, cvsRemaining)

/-- `blake3_hasher_finalize_seek(self, seek, &out[pos], out_len)`, as the new contents of
the array `out`. -/
def blake3HasherFinalizeSeek (p : Platform) (self : Hasher) (seek : UInt64) (out : List UInt8)
    (pos outLen : ℕ) : Option (List UInt8) :=
  if outLen = 0 then some out
  -- If the subtree stack is empty, then the current chunk is the root.
  else if self.cvStackLen = 0 then
    outputRootBytes p (chunkStateOutput self.chunk) seek out pos outLen
  else do
    let (output, cvsRemaining) ← finalizeStart self
    let output ← finalizeLoop p self output cvsRemaining
    outputRootBytes p output seek out pos outLen

def blake3HasherFinalize (p : Platform) (self : Hasher) (out : List UInt8) (pos outLen : ℕ) :
    Option (List UInt8) :=
  blake3HasherFinalizeSeek p self 0 out pos outLen

def blake3HasherReset (self : Hasher) : Hasher :=
  { self with chunk := chunkStateReset self.chunk self.key 0, cvStackLen := 0 }

end Blake3Kmp
