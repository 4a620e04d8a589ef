/-
`output_t` and the extendable output (`blake3.c`, first part).

An `Output` is one compression that is still to be made: as a chaining value
of an inner node, or as the root with as many output blocks as wanted.

* `rootStream o` — the infinite output of the root `o`: byte `j` is byte
  `j % 64` of the block compressed with counter `j / 64`;
* `outputRootBytes_eq` — `output_root_bytes` writes the bytes
  `seek, seek + 1, …` of that stream at its destination, and nothing else: the
  head inside a block, the whole blocks and the tail meet exactly.
-/
import Blake3Kmp.Platform

open CheckedMemory

namespace Blake3Kmp

structure Output where
  inputCv : Words 8
  counter : UInt64
  block : Bytes 64
  blockLen : UInt8
  flags : UInt8

def makeOutput (inputCv : Words 8) (block : Bytes 64) (blockLen : UInt8) (counter : UInt64)
    (flags : UInt8) : Output :=
  { inputCv, counter, block, blockLen, flags }

def outputChainingValue (p : Platform) (self : Output) : Bytes 32 :=
  storeCvWords
    (blake3CompressInPlace p self.inputCv self.block self.blockLen self.counter self.flags)

def parentOutput (block : Bytes 64) (key : Words 8) (flags : UInt8) : Output :=
  makeOutput key block 64 0 (flags ||| Flags.parent)

/-- The part of `output_root_bytes` inside a first block that `seek` does not start:
the destination, and the position, the length and the block counter to go on with. -/
def outputRootHead (p : Platform) (self : Output) (outputBlockCounter : UInt64)
    (offsetWithinBlock : ℕ) (out : List UInt8) (pos outLen : ℕ) :
    Option (List UInt8 × ℕ × ℕ × UInt64) :=
  if offsetWithinBlock = 0 then some (out, pos, outLen, outputBlockCounter)
  else do
    let wideBuf := blake3CompressXof p self.inputCv self.block self.blockLen outputBlockCounter
      (self.flags ||| Flags.root)
    let availableBytes ← checkedSub 64 offsetWithinBlock
    let bytes := if outLen > availableBytes then availableBytes else outLen
    let src ← readSlice wideBuf.toList offsetWithinBlock bytes
    let out ← writeSlice out pos src
    let outLen ← checkedSub outLen bytes
    some (out, pos + bytes, outLen, outputBlockCounter + 1)

/-- The whole blocks of `output_root_bytes`. -/
def outputRootBlocks (p : Platform) (self : Output) (outputBlockCounter : UInt64)
    (out : List UInt8) (pos outblocks : ℕ) : Option (List UInt8) :=
  if outblocks = 0 then some out
  else writeSlice out pos (blake3XofMany p self.inputCv self.block self.blockLen
    outputBlockCounter (self.flags ||| Flags.root) outblocks)

/-- The whole blocks and the buffered tail of `output_root_bytes`; `out_len & -64` is
`outLen / 64 * 64`. -/
def outputRootRest (p : Platform) (self : Output) (outputBlockCounter : UInt64)
    (out : List UInt8) (pos outLen : ℕ) : Option (List UInt8) := do
  let out ← outputRootBlocks p self outputBlockCounter out pos (outLen / 64)
  let outputBlockCounter := outputBlockCounter + UInt64.ofNat (outLen / 64)
  let pos := pos + outLen / 64 * 64
  let outLen ← checkedSub outLen (outLen / 64 * 64)
  if outLen = 0 then some out
  else do
    let wideBuf := blake3CompressXof p self.inputCv self.block self.blockLen outputBlockCounter
      (self.flags ||| Flags.root)
    let src ← readSlice wideBuf.toList 0 outLen
    writeSlice out pos src

/-- `output_root_bytes(self, seek, &out[pos], out_len)`, as the new contents of the array
`out`. -/
def outputRootBytes (p : Platform) (self : Output) (seek : UInt64) (out : List UInt8)
    (pos outLen : ℕ) : Option (List UInt8) :=
  if outLen = 0 then some out
  else do
    let (out, pos, outLen, outputBlockCounter) ←
      outputRootHead p self (seek / 64) (seek % 64).toNat out pos outLen
    outputRootRest p self outputBlockCounter out pos outLen

/-! ### The output stream of a root -/

/-- Block `i` of the root's output. -/
def rootBlock (self : Output) (i : ℕ) : Bytes 64 :=
  compressXofPortable self.inputCv self.block self.blockLen (UInt64.ofNat i)
    (self.flags ||| Flags.root)

/-- Byte `j` of the root's output. -/
def rootStream (self : Output) (j : ℕ) : UInt8 :=
  (rootBlock self (j / 64)).get ⟨j % 64, Nat.mod_lt _ (by omega)⟩

/-- The bytes `start, …, start + n - 1` of the root's output. -/
def rootSlice (self : Output) (start n : ℕ) : List UInt8 :=
  (List.range' start n).map (rootStream self)

@[simp] theorem rootSlice_length (self : Output) (start n : ℕ) :
    (rootSlice self start n).length = n := by simp [rootSlice]

@[simp] theorem rootSlice_zero (self : Output) (start : ℕ) : rootSlice self start 0 = [] := rfl

theorem rootSlice_append (self : Output) (start m n : ℕ) :
    rootSlice self start m ++ rootSlice self (start + m) n = rootSlice self start (m + n) := by
  simp only [rootSlice, ← List.map_append, List.range'_append_1]

/-- A shorter output is a prefix of a longer one. -/
theorem rootSlice_take (self : Output) (start : ℕ) {m n : ℕ} (h : m ≤ n) :
    (rootSlice self start n).take m = rootSlice self start m := by
  obtain ⟨k, rfl⟩ := Nat.exists_eq_add_of_le h
  rw [← rootSlice_append, List.take_left' (rootSlice_length self start m)]

theorem rootBlock_slice (self : Output) (i off n : ℕ) (h : off + n ≤ 64) :
    ((rootBlock self i).toList.drop off).take n = rootSlice self (64 * i + off) n := by
  apply List.ext_getElem
  · simp
    omega
  · intro j h1 h2
    simp only [rootSlice_length] at h2
    have hdiv : (64 * i + off + j) / 64 = i := by omega
    have hmod : (64 * i + off + j) % 64 = off + j := by omega
    simp only [List.getElem_take, List.getElem_drop, Vector.getElem_toList, rootSlice,
      List.getElem_map, List.getElem_range', one_mul, rootStream, hdiv, hmod]
    rfl

theorem rootBlock_toList (self : Output) (i : ℕ) :
    (rootBlock self i).toList = rootSlice self (64 * i) 64 := by
  have := rootBlock_slice self i 0 64 (by omega)
  rwa [List.drop_zero, List.take_of_length_le (by simp)] at this

theorem xofManyLoop_eq (self : Output) (i n : ℕ) :
    xofManyLoop compressXofPortable self.inputCv self.block self.blockLen (UInt64.ofNat i)
      (self.flags ||| Flags.root) n = rootSlice self (64 * i) (64 * n) := by
  induction n with
  | zero => rfl
  | succ n ih =>
    rw [xofManyLoop] at ih ⊢
    rw [List.range_succ, List.flatMap_append, ih, List.flatMap_singleton, ← UInt64.ofNat_add]
    rw [show 64 * (n + 1) = 64 * n + 64 by ring, ← rootSlice_append,
      show 64 * i + 64 * n = 64 * (i + n) by ring, ← rootBlock_toList]
    rfl

/-! ### `output_root_bytes` writes the stream -/

section

variable {p : Platform} (hp : p.Agree)
include hp

theorem outputRootHead_eq (self : Output) (i off : ℕ) (out : List UInt8) (pos outLen : ℕ)
    (hoff : off < 64) (hlen : pos + outLen ≤ out.length) :
    ∃ n out' i', outputRootHead p self (UInt64.ofNat i) off out pos outLen =
        some (out', pos + n, outLen - n, UInt64.ofNat i') ∧ n ≤ outLen ∧
      writeSlice out pos (rootSlice self (64 * i + off) n) = some out' ∧
      (n < outLen → 64 * i + off + n = 64 * i') := by
  rw [outputRootHead, hp.compressXof]
  by_cases h0 : off = 0
  · subst h0
    refine ⟨0, out, i, by simp, by omega, ?_, fun _ => rfl⟩
    exact writeSlice_nil (by omega)
  · set n := if outLen > 64 - off then 64 - off else outLen with hn
    have hle : n ≤ outLen ∧ off + n ≤ 64 := by
      rw [hn]
      split_ifs <;> omega
    have hslice := rootBlock_slice self i off n hle.2
    obtain ⟨out', hw⟩ := exists_writeSlice (rootSlice self (64 * i + off) n)
      (show pos + _ ≤ out.length by rw [rootSlice_length]; omega)
    refine ⟨n, out', i + 1, ?_, hle.1, hw, ?_⟩
    · rw [if_neg h0, checkedSub_eq_some (by omega)]
      simp only [Option.bind_eq_bind, Option.bind_some, ← hn]
      rw [← rootBlock, readSlice_eq_some (by simp; omega), hslice]
      simp only [Option.bind_some]
      rw [hw, checkedSub_eq_some hle.1, UInt64.ofNat_add]
      rfl
    · intro hlt
      rw [hn] at hlt ⊢
      split_ifs at hlt ⊢ <;> omega

theorem outputRootBlocks_eq (self : Output) (i : ℕ) (out : List UInt8) (pos n : ℕ)
    (hlen : pos ≤ out.length) :
    outputRootBlocks p self (UInt64.ofNat i) out pos n =
      writeSlice out pos (rootSlice self (64 * i) (64 * n)) := by
  rw [outputRootBlocks]
  by_cases h0 : n = 0
  · rw [if_pos h0, h0, Nat.mul_zero, rootSlice_zero, writeSlice_nil hlen]
  · rw [if_neg h0, hp.xofMany, xofManyLoop_eq]

theorem outputRootRest_eq (self : Output) (i : ℕ) (out : List UInt8) (pos outLen : ℕ)
    (hlen : pos + outLen ≤ out.length) :
    outputRootRest p self (UInt64.ofNat i) out pos outLen =
      writeSlice out pos (rootSlice self (64 * i) outLen) := by
  set n := outLen / 64 with hn
  have hnle : n * 64 ≤ outLen := by omega
  -- the whole blocks
  obtain ⟨out', hw⟩ := exists_writeSlice (rootSlice self (64 * i) (n * 64))
    (show pos + _ ≤ out.length by rw [rootSlice_length]; omega)
  rw [outputRootRest, ← hn, outputRootBlocks_eq hp self i out pos n (by omega), Nat.mul_comm 64 n,
    hw]
  simp only [Option.bind_eq_bind, Option.bind_some]
  rw [checkedSub_eq_some hnle]
  simp only [Option.bind_some]
  -- the tail
  by_cases ht : outLen - n * 64 = 0
  · rw [if_pos ht, ← hw]
    congr 2
    omega
  · rw [if_neg ht, hp.compressXof, ← UInt64.ofNat_add, ← rootBlock,
      readSlice_eq_some (by simp; omega), rootBlock_slice self (i + n) 0 _ (by omega)]
    simp only [Option.bind_some]
    have hsplit : rootSlice self (64 * i) outLen
        = rootSlice self (64 * i) (n * 64) ++ rootSlice self (64 * (i + n) + 0) (outLen - n * 64) := by
      rw [show 64 * (i + n) + 0 = 64 * i + n * 64 by ring, rootSlice_append]
      congr 1
      omega
    have happ := writeSlice_append hw
      (b := rootSlice self (64 * (i + n) + 0) (outLen - n * 64)) (by simp; omega)
    rw [rootSlice_length] at happ
    rw [hsplit, ← happ]

/-- **`output_root_bytes` writes the root's output stream**: the bytes from `seek` on, at
the destination, for every length and every start inside a block. -/
theorem outputRootBytes_eq (self : Output) (seek : UInt64) (out : List UInt8) (pos outLen : ℕ)
    (hlen : pos + outLen ≤ out.length) :
    outputRootBytes p self seek out pos outLen =
      writeSlice out pos (rootSlice self seek.toNat outLen) := by
  rw [outputRootBytes]
  by_cases h0 : outLen = 0
  · rw [if_pos h0, h0, rootSlice_zero, writeSlice_nil (by omega)]
  rw [if_neg h0]
  have hseek : seek / 64 = UInt64.ofNat (seek.toNat / 64) := by
    apply UInt64.toNat_inj.mp
    have := seek.toNat_lt
    rw [UInt64.toNat_div, UInt64.toNat_ofNat', Nat.mod_eq_of_lt (by omega)]
    rfl
  have hmod : (seek % 64).toNat = seek.toNat % 64 := by
    rw [UInt64.toNat_mod]
    rfl
  obtain ⟨n, out', i', hhead, hn, hw, hnext⟩ := outputRootHead_eq hp self (seek.toNat / 64)
    (seek.toNat % 64) out pos outLen (by omega) hlen
  rw [show 64 * (seek.toNat / 64) + seek.toNat % 64 = seek.toNat by omega] at hw hnext
  rw [hseek, hmod, hhead]
  have hlen' := writeSlice_length hw
  simp only [Option.bind_eq_bind, Option.bind_some]
  rw [outputRootRest_eq hp self i' out' (pos + n) (outLen - n) (by omega)]
  by_cases hlt : n < outLen
  · have happ := writeSlice_append hw (b := rootSlice self (seek.toNat + n) (outLen - n))
      (by simp; omega)
    rw [rootSlice_length, rootSlice_append, show n + (outLen - n) = outLen by omega] at happ
    rw [← hnext hlt, happ]
  · obtain rfl : n = outLen := by omega
    rw [Nat.sub_self, rootSlice_zero, writeSlice_nil (by omega), hw]

end

end Blake3Kmp
