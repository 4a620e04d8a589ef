/-
The compression function and the portable kernels
(`blake3_impl.h`, `blake3_portable.c`).

Sizes are written as numerals: a block is 64 bytes (`BLAKE3_BLOCK_LEN`), a
chunk 1024 (`BLAKE3_CHUNK_LEN`), a key and an output 32 (`BLAKE3_KEY_LEN`,
`BLAKE3_OUT_LEN`).  Words, counters and flags have the widths of the C types.
A pointer to input bytes is the list of the bytes that may be read through it.

* `compressInPlacePortable`, `compressXofPortable` — one compression, as a new
  chaining value or as 64 output bytes;
* `hashManyPortable` — several inputs of whole blocks each.

Nothing below this file looks inside a compression: the later modules only use
that these are functions of their arguments.
-/
import Blake3Kmp.CheckedMemory
import Mathlib.Data.Nat.BitIndices

open CheckedMemory

namespace Blake3Kmp

abbrev Bytes (n : ℕ) := Vector UInt8 n

abbrev Words (n : ℕ) := Vector UInt32 n

/-! ### Flags and constants of `blake3_impl.h` -/

namespace Flags

def chunkStart : UInt8 := 1
def chunkEnd : UInt8 := 2
def parent : UInt8 := 4
def root : UInt8 := 8
def keyedHash : UInt8 := 16
def deriveKeyContext : UInt8 := 32
def deriveKeyMaterial : UInt8 := 64

end Flags

def iv : Words 8 :=
  #v[0x6A09E667, 0xBB67AE85, 0x3C6EF372, 0xA54FF53A,
     0x510E527F, 0x9B05688C, 0x1F83D9AB, 0x5BE0CD19]

def msgSchedule : Vector (Vector (Fin 16) 16) 7 :=
  #v[#v[0, 1, 2, 3, 4, 5, 6, 7, 8, 9, 10, 11, 12, 13, 14, 15],
     #v[2, 6, 3, 10, 7, 0, 4, 13, 1, 11, 12, 5, 9, 14, 15, 8],
     #v[3, 4, 10, 12, 13, 2, 7, 14, 6, 5, 9, 0, 11, 15, 8, 1],
     #v[10, 7, 12, 9, 14, 3, 13, 15, 4, 0, 11, 2, 5, 8, 1, 6],
     #v[12, 13, 9, 11, 15, 10, 14, 8, 7, 2, 5, 3, 0, 1, 6, 4],
     #v[9, 14, 11, 5, 8, 12, 15, 1, 13, 3, 0, 10, 2, 6, 4, 7],
     #v[11, 15, 5, 0, 1, 9, 8, 6, 14, 10, 2, 12, 3, 4, 7, 13]]

/-- Index of the highest set bit of a nonzero `x`. -/
def highestOne (x : ℕ) : ℕ := x.log2

/-- The number of 1-bits of a 64-bit word. -/
def popcnt (x : UInt64) : ℕ := x.toNat.bitIndices.length

/-- Largest power of two less than or equal to `x`; 1 when `x` is 0. -/
def roundDownToPowerOf2 (x : ℕ) : ℕ := 1 <<< highestOne (x ||| 1)

def counterLow (counter : UInt64) : UInt32 := counter.toUInt32

def counterHigh (counter : UInt64) : UInt32 := (counter >>> 32).toUInt32

/-! ### Little-endian loads and stores -/

/-- `load32(&src[4 * i])`. -/
def load32 {n : ℕ} (src : Bytes (4 * n)) (i : Fin n) : UInt32 :=
  src[4 * i.val].toUInt32 ||| (src[4 * i.val + 1].toUInt32 <<< 8) |||
    (src[4 * i.val + 2].toUInt32 <<< 16) ||| (src[4 * i.val + 3].toUInt32 <<< 24)

def loadKeyWords (key : Bytes 32) : Words 8 := Vector.ofFn fun i => load32 (n := 8) key i

def loadBlockWords (block : Bytes 64) : Words 16 := Vector.ofFn fun i => load32 (n := 16) block i

/-- The byte `i` of what `store32` writes for the words `ws`, four bytes a word. -/
def store32 {n : ℕ} (ws : Words n) (i : Fin (4 * n)) : UInt8 :=
  (ws[i.val / 4] >>> (8 * (i.val % 4)).toUInt32).toUInt8

def storeCvWords (cvWords : Words 8) : Bytes 32 := Vector.ofFn fun i => store32 cvWords i

/-! ### `blake3_portable.c` -/

def rotr32 (w c : UInt32) : UInt32 := (w >>> c) ||| (w <<< (32 - c))

def g (state : Words 16) (a b c d : Fin 16) (x y : UInt32) : Words 16 :=
  let state := state.set a (state[a] + state[b] + x)
  let state := state.set d (rotr32 (state[d] ^^^ state[a]) 16)
  let state := state.set c (state[c] + state[d])
  let state := state.set b (rotr32 (state[b] ^^^ state[c]) 12)
  let state := state.set a (state[a] + state[b] + y)
  let state := state.set d (rotr32 (state[d] ^^^ state[a]) 8)
  let state := state.set c (state[c] + state[d])
  state.set b (rotr32 (state[b] ^^^ state[c]) 7)

def roundFn (state : Words 16) (msg : Words 16) (round : Fin 7) : Words 16 :=
  let schedule := msgSchedule[round]
  -- Mix the columns.
  let state := g state 0 4 8 12 msg[schedule[0]] msg[schedule[1]]
  let state := g state 1 5 9 13 msg[schedule[2]] msg[schedule[3]]
  let state := g state 2 6 10 14 msg[schedule[4]] msg[schedule[5]]
  let state := g state 3 7 11 15 msg[schedule[6]] msg[schedule[7]]
  -- Mix the rows.
  let state := g state 0 5 10 15 msg[schedule[8]] msg[schedule[9]]
  let state := g state 1 6 11 12 msg[schedule[10]] msg[schedule[11]]
  let state := g state 2 7 8 13 msg[schedule[12]] msg[schedule[13]]
  g state 3 4 9 14 msg[schedule[14]] msg[schedule[15]]

def compressPre (cv : Words 8) (block : Bytes 64) (blockLen : UInt8) (counter : UInt64)
    (flags : UInt8) : Words 16 :=
  let blockWords := loadBlockWords block
  let state : Words 16 :=
    #v[cv[0], cv[1], cv[2], cv[3], cv[4], cv[5], cv[6], cv[7],
       iv[0], iv[1], iv[2], iv[3],
       counterLow counter, counterHigh counter, blockLen.toUInt32, flags.toUInt32]
  let state := roundFn state blockWords 0
  let state := roundFn state blockWords 1
  let state := roundFn state blockWords 2
  let state := roundFn state blockWords 3
  let state := roundFn state blockWords 4
  let state := roundFn state blockWords 5
  roundFn state blockWords 6

def compressInPlacePortable (cv : Words 8) (block : Bytes 64) (blockLen : UInt8)
    (counter : UInt64) (flags : UInt8) : Words 8 :=
  let state := compressPre cv block blockLen counter flags
  Vector.ofFn fun i : Fin 8 => state[i.val] ^^^ state[i.val + 8]

def compressXofPortable (cv : Words 8) (block : Bytes 64) (blockLen : UInt8)
    (counter : UInt64) (flags : UInt8) : Bytes 64 :=
  let state := compressPre cv block blockLen counter flags
  let out : Words 16 :=
    (Vector.ofFn fun i : Fin 8 => state[i.val] ^^^ state[i.val + 8]) ++
      (Vector.ofFn fun i : Fin 8 => state[i.val + 8] ^^^ cv[i.val])
  Vector.ofFn fun i => store32 out i

/-- The 64 bytes a block pointer points at. -/
def readBlock (input : List UInt8) : Option (Bytes 64) :=
  if h : 64 ≤ input.length then some ⟨(input.take 64).toArray, by simp; omega⟩ else none

/-- The loop of `hash_one_portable`: `blocks` blocks are left, `input` points at the
next one and `blockFlags` are the flags it is compressed with, `flagsEnd` apart. -/
def hashOneLoop (counter : UInt64) (flags flagsEnd : UInt8) :
    ℕ → List UInt8 → Words 8 → UInt8 → Option (Words 8)
  | 0, _, cv, _ => some cv
  | blocks + 1, input, cv, blockFlags => do
    let blockFlags := if blocks + 1 = 1 then blockFlags ||| flagsEnd else blockFlags
    let block ← readBlock input
    hashOneLoop counter flags flagsEnd blocks (input.drop 64)
      (compressInPlacePortable cv block 64 counter blockFlags) flags

def hashOnePortable (input : List UInt8) (blocks : ℕ) (key : Words 8) (counter : UInt64)
    (flags flagsStart flagsEnd : UInt8) : Option (Bytes 32) := do
  let cv ← hashOneLoop counter flags flagsEnd blocks input key (flags ||| flagsStart)
  some (storeCvWords cv)

def hashManyPortable (inputs : List (List UInt8)) (blocks : ℕ) (key : Words 8)
    (counter : UInt64) (incrementCounter : Bool) (flags flagsStart flagsEnd : UInt8) :
    Option (List (Bytes 32)) :=
  match inputs with
  | [] => some []
  | input :: inputs => do
    let out ← hashOnePortable input blocks key counter flags flagsStart flagsEnd
    let counter := if incrementCounter then counter + 1 else counter
    let outs ← hashManyPortable inputs blocks key counter incrementCounter flags flagsStart
      flagsEnd
    some (out :: outs)

end Blake3Kmp
