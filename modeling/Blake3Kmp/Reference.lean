/-
The BLAKE3 reference tree.

This file states what the digest is, without any of the code's machinery:

* `chunkOutput` — the chain of a chunk's block compressions, the chunk number
  as counter, `CHUNK_START` on the first block, `CHUNK_END` on the last, the
  last block with its true length;
* `subtreeOutput` — a subtree of more than one chunk splits so that the left
  side is the largest power-of-two number of whole chunks that leaves at least
  one byte on the right (`leftLen_spec`); a parent compresses left value
  followed by right value with counter 0 and `PARENT`;
* `digest` — the topmost node alone compressed with `ROOT`, output block `i`
  with counter `i`.

The compression is the portable one.  The rest of the file connects the
recursion on bytes with the trees of `TreeHash`: the chaining values of the
chunks are the leaves (`leafCvs`), a subtree's value is their `treeRoot`
(`subtreeCv_eq`), and the node at the top is the parent of their `topPair`
(`subtreeOutput_eq`).
-/
import Blake3Kmp.TreeHash
import Blake3Kmp.Output

open TreeHash

namespace Blake3Kmp

/-- A block of 64 bytes, zeros after the last byte given. -/
def padBlock (bytes : List UInt8) : Bytes 64 :=
  ⟨(bytes.take 64 ++ List.replicate (64 - bytes.length) 0).toArray, by simp; omega⟩

/-- The chaining value of a node that is not the root. -/
def Output.cv (o : Output) : Bytes 32 :=
  storeCvWords (compressInPlacePortable o.inputCv o.block o.blockLen o.counter o.flags)

/-- The rest of a chunk: `bytes` are left, `cv` is the chaining value so far and `start`
is `CHUNK_START` before the first block and 0 after it. -/
def chunkFrom (flags : UInt8) (counter : UInt64) (cv : Words 8) (start : UInt8)
    (bytes : List UInt8) : Output :=
  if bytes.length ≤ 64 then
    { inputCv := cv, counter, block := padBlock bytes, blockLen := bytes.length.toUInt8,
      flags := flags ||| start ||| Flags.chunkEnd }
  else
    chunkFrom flags counter
      (compressInPlacePortable cv (padBlock (bytes.take 64)) 64 counter (flags ||| start)) 0
      (bytes.drop 64)
  termination_by bytes.length
  decreasing_by
    rw [List.length_drop]
    omega

/-- The last compression of the chunk number `i`. -/
def chunkOutput (key : Words 8) (flags : UInt8) (i : ℕ) (bytes : List UInt8) : Output :=
  chunkFrom flags (UInt64.ofNat i) key Flags.chunkStart bytes

/-- The parent of two chaining values. -/
def parentOf (key : Words 8) (flags : UInt8) (children : Bytes 32 × Bytes 32) : Output :=
  { inputCv := key, counter := 0, block := children.1 ++ children.2, blockLen := 64,
    flags := flags ||| Flags.parent }

/-- The number of bytes on the left of a subtree of `n` bytes, more than one chunk. -/
def leftLen (n : ℕ) : ℕ := 1024 * 2 ^ ((n - 1) / 1024).log2

/-- The top compression of the subtree over `bytes`, whose first chunk has number `i`. -/
def subtreeOutput (key : Words 8) (flags : UInt8) (i : ℕ) (bytes : List UInt8) : Output :=
  if bytes.length ≤ 1024 then chunkOutput key flags i bytes
  else
    parentOf key flags
      ((subtreeOutput key flags i (bytes.take (leftLen bytes.length))).cv,
        (subtreeOutput key flags (i + leftLen bytes.length / 1024)
          (bytes.drop (leftLen bytes.length))).cv)
  termination_by bytes.length
  decreasing_by
  · have := Nat.log2_self_le (n := (bytes.length - 1) / 1024) (by omega)
    rw [List.length_take, leftLen]
    omega
  · have := Nat.two_pow_pos ((bytes.length - 1) / 1024).log2
    rw [List.length_drop, leftLen]
    omega

/-- The first `n` bytes of the root output over `bytes`. -/
def digest (key : Words 8) (flags : UInt8) (bytes : List UInt8) (n : ℕ) : List UInt8 :=
  rootSlice (subtreeOutput key flags 0 bytes) 0 n

@[simp] theorem digest_length (key : Words 8) (flags : UInt8) (bytes : List UInt8) (n : ℕ) :
    (digest key flags bytes n).length = n := rootSlice_length _ _ _

/-- The left side is whole chunks, a power of two of them; it leaves at least one byte on
the right, and twice as many chunks would not. -/
theorem leftLen_spec {n : ℕ} (h : 1024 < n) :
    (∃ k, leftLen n = 1024 * 2 ^ k) ∧ leftLen n < n ∧ n ≤ 2 * leftLen n := by
  have h1 := Nat.log2_self_le (n := (n - 1) / 1024) (by omega)
  have h2 := Nat.lt_log2_self (n := (n - 1) / 1024)
  rw [pow_succ] at h2
  refine ⟨⟨_, rfl⟩, ?_, ?_⟩
  · rw [leftLen]
    omega
  · rw [leftLen]
    omega

/-! ### The chunks of a message -/

/-- The value of a parent, as a function of its children's values. -/
def parentCv (key : Words 8) (flags : UInt8) (l r : Bytes 32) : Bytes 32 :=
  (parentOf key flags (l, r)).cv

/-- The chaining values of the chunks of `bytes`, the first with number `i`. -/
def leafCvs (key : Words 8) (flags : UInt8) (i : ℕ) (bytes : List UInt8) : List (Bytes 32) :=
  if bytes.length = 0 then []
  else (chunkOutput key flags i (bytes.take 1024)).cv :: leafCvs key flags (i + 1) (bytes.drop 1024)
  termination_by bytes.length
  decreasing_by
    rw [List.length_drop]
    omega

section

variable (key : Words 8) (flags : UInt8)

@[simp] theorem leafCvs_nil (i : ℕ) : leafCvs key flags i [] = [] := by
  rw [leafCvs, if_pos List.length_nil]

theorem leafCvs_length (i : ℕ) (bytes : List UInt8) :
    (leafCvs key flags i bytes).length = (bytes.length + 1023) / 1024 := by
  induction hn : bytes.length using Nat.strong_induction_on generalizing i bytes with
  | _ n ih =>
    rw [leafCvs]
    by_cases h0 : bytes.length = 0
    · rw [if_pos h0, List.length_nil]
      omega
    · rw [if_neg h0, List.length_cons, ih (bytes.drop 1024).length (by simp; omega) _ _ rfl]
      rw [List.length_drop]
      omega

/-- One chunk or less. -/
theorem leafCvs_chunk {i : ℕ} {bytes : List UInt8} (hpos : 0 < bytes.length)
    (hle : bytes.length ≤ 1024) : leafCvs key flags i bytes = [(chunkOutput key flags i bytes).cv] := by
  rw [leafCvs, if_neg (by omega), List.take_of_length_le hle, List.drop_eq_nil_of_le hle,
    leafCvs_nil]

/-- Whole chunks may be split off on the left. -/
theorem leafCvs_append {i m : ℕ} {a : List UInt8} (ha : a.length = 1024 * m) (b : List UInt8) :
    leafCvs key flags i (a ++ b) = leafCvs key flags i a ++ leafCvs key flags (i + m) b := by
  induction m generalizing i a with
  | zero =>
    obtain rfl : a = [] := List.length_eq_zero_iff.mp (by omega)
    simp
  | succ m ih =>
    rw [leafCvs, if_neg (by rw [List.length_append]; omega),
      List.take_append_of_le_length (by omega), List.drop_append_of_le_length (by omega),
      ih (by rw [List.length_drop]; omega)]
    conv_rhs => rw [leafCvs, if_neg (by omega)]
    rw [List.cons_append, show i + 1 + m = i + (m + 1) by ring]

/-- The split of a subtree's bytes is the split of its leaves. -/
theorem leafCvs_split {i : ℕ} {bytes : List UInt8} (h : 1024 < bytes.length) :
    ∃ k, leftLen bytes.length = 1024 * 2 ^ k ∧
      leafCvs key flags i bytes =
        leafCvs key flags i (bytes.take (leftLen bytes.length)) ++
          leafCvs key flags (i + leftLen bytes.length / 1024) (bytes.drop (leftLen bytes.length)) ∧
      (leafCvs key flags i (bytes.take (leftLen bytes.length))).length = 2 ^ k ∧
      0 < (leafCvs key flags (i + leftLen bytes.length / 1024)
        (bytes.drop (leftLen bytes.length))).length ∧
      (leafCvs key flags (i + leftLen bytes.length / 1024)
        (bytes.drop (leftLen bytes.length))).length ≤ 2 ^ k := by
  obtain ⟨⟨k, hk⟩, hlt, hle⟩ := leftLen_spec h
  have hlen : (bytes.take (leftLen bytes.length)).length = 1024 * 2 ^ k := by
    rw [List.length_take]
    omega
  refine ⟨k, hk, ?_, ?_, ?_, ?_⟩
  · have := leafCvs_append key flags (i := i) hlen (bytes.drop (leftLen bytes.length))
    rwa [List.take_append_drop, show 2 ^ k = leftLen bytes.length / 1024 by omega] at this
  · rw [leafCvs_length, hlen]
    omega
  · rw [leafCvs_length, List.length_drop]
    omega
  · rw [leafCvs_length, List.length_drop]
    omega

/-- **The value of a subtree is the left-full tree over its chunks.** -/
theorem subtreeCv_eq (i : ℕ) {bytes : List UInt8} (hpos : 0 < bytes.length) :
    (subtreeOutput key flags i bytes).cv = treeRoot (parentCv key flags) (leafCvs key flags i bytes) := by
  induction hn : bytes.length using Nat.strong_induction_on generalizing i bytes with
  | _ n ih =>
    rw [subtreeOutput]
    by_cases h : bytes.length ≤ 1024
    · rw [if_pos h, leafCvs_chunk key flags hpos h, treeRoot_singleton]
    · have hlt := (leftLen_spec (n := bytes.length) (by omega)).2.1
      obtain ⟨k, hk, happ, hl, hr0, hr⟩ := leafCvs_split key flags (i := i)
        (show 1024 < bytes.length by omega)
      have h2k := Nat.two_pow_pos k
      rw [if_neg h, happ, treeRoot_append _ hl hr0 hr]
      rw [ih (bytes.take (leftLen bytes.length)).length (by simp; omega) i (by simp; omega) rfl,
        ih (bytes.drop (leftLen bytes.length)).length (by simp; omega) _ (by simp; omega) rfl]
      rfl

/-- The node at the top of more than one chunk. -/
theorem subtreeOutput_eq (i : ℕ) {bytes : List UInt8} (h : 1024 < bytes.length) :
    subtreeOutput key flags i bytes =
      parentOf key flags (topPair (parentCv key flags) (leafCvs key flags i bytes)) := by
  have hlt := (leftLen_spec h).2.1
  obtain ⟨k, hk, happ, hl, hr0, hr⟩ := leafCvs_split key flags (i := i) h
  have h2k := Nat.two_pow_pos k
  rw [subtreeOutput, if_neg (by omega), happ, topPair_append _ hl hr0 hr,
    subtreeCv_eq key flags i (by simp; omega), subtreeCv_eq key flags _ (by simp; omega)]

end

end Blake3Kmp
