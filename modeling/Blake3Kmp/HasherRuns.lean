/-
Runs of one native hasher.

The JNI layer calls `blake3_hasher_update`, `blake3_hasher_finalize` and
`blake3_hasher_reset` on a hasher in any order.  `hasherRun` is such a run; it
is undefined as soon as one call is.

* `hasherRun_absorbed` — a run over less than `2 ^ 64` bytes between resets is
  defined, and leaves the hasher with the message since the last reset;
* `hasherRun_in_bounds` — what follows for memory, together with what the
  subtree recursion and the shrinking loop return.
-/
import Blake3Kmp.HasherInvariant

open CheckedMemory TreeHash

namespace Blake3Kmp

inductive HasherOp
  | update (input : List UInt8)
  /-- `blake3_hasher_finalize(self, &out[pos], outLen)`. -/
  | finalize (out : List UInt8) (pos outLen : ℕ)
  | reset

def hasherStep (p : Platform) (self : Hasher) : HasherOp → Option Hasher
  | .update input => blake3HasherUpdate p self input
  | .finalize out pos outLen => do
    let _out ← blake3HasherFinalize p self out pos outLen
    some self
  | .reset => some (blake3HasherReset self)

def hasherRun (p : Platform) (self : Hasher) (ops : List HasherOp) : Option Hasher :=
  ops.foldlM (hasherStep p) self

/-- The message since the last reset. -/
def HasherOp.message (m : List UInt8) : HasherOp → List UInt8
  | .update input => m ++ input
  | .finalize _ _ _ => m
  | .reset => []

/-- What the callers promise: a destination inside its array, and less than `2 ^ 64` bytes
since the last reset, of which there were `n`. -/
def HasherOp.Admitted (n : ℕ) : List HasherOp → Prop
  | [] => True
  | .update input :: ops => n + input.length < 2 ^ 64 ∧ Admitted (n + input.length) ops
  | .finalize out pos outLen :: ops => pos + outLen ≤ out.length ∧ Admitted n ops
  | .reset :: ops => Admitted 0 ops

section

variable {p : Platform} (hp : p.Agree) {key : Words 8} {flags : UInt8}
include hp

/-- **Every admitted run is defined**, and what the hasher has absorbed is the message. -/
theorem hasherRun_absorbed {h : Hasher} {m : List UInt8} (hm : h.Absorbed key flags m)
    {ops : List HasherOp} (hops : HasherOp.Admitted m.length ops) :
    ∃ h', hasherRun p h ops = some h' ∧
      h'.Absorbed key flags (ops.foldl HasherOp.message m) := by
  induction ops generalizing h m with
  | nil => exact ⟨h, rfl, hm⟩
  | cons op ops ih =>
    cases op with
    | update input =>
      obtain ⟨hlt, hrest⟩ := hops
      obtain ⟨h1, hupd, hm1⟩ := blake3HasherUpdate_absorbed hp hm hlt
      rw [← List.length_append] at hrest
      obtain ⟨h2, hrun, hm2⟩ := ih hm1 hrest
      refine ⟨h2, ?_, hm2⟩
      rw [hasherRun, List.foldlM_cons, hasherStep, hupd]
      exact hrun
    | finalize out pos outLen =>
      obtain ⟨hle, hrest⟩ := hops
      obtain ⟨out', hout⟩ := exists_writeSlice (digest key flags m outLen)
        (show pos + _ ≤ out.length by rwa [digest_length])
      obtain ⟨h2, hrun, hm2⟩ := ih hm hrest
      refine ⟨h2, ?_, hm2⟩
      rw [hasherRun, List.foldlM_cons, hasherStep, blake3HasherFinalize_eq hp hm hle, hout]
      exact hrun
    | reset =>
      obtain ⟨h2, hrun, hm2⟩ := ih (blake3HasherReset_absorbed hm) hops
      refine ⟨h2, ?_, hm2⟩
      rw [hasherRun, List.foldlM_cons, hasherStep]
      exact hrun

/-- A subtree of more than one chunk is condensed from at least two and at most
`MAX_SIMD_DEGREE_OR_2` values to exactly two. -/
theorem compressSubtree_bounds (key : Words 8) (flags : UInt8) (chunkCounter : UInt64)
    {input : List UInt8} (h : 1024 < input.length) :
    ∃ cvs l r, compressSubtreeWide p input key chunkCounter flags = some cvs ∧
      2 ≤ cvs.length ∧ cvs.length ≤ p.maxSimdDegreeOr2 ∧
      compressSubtreeToParentNode p input key chunkCounter flags = some [l, r] := by
  have hcounter : UInt64.ofNat chunkCounter.toNat = chunkCounter := UInt64.ofNat_toNat
  obtain ⟨cvs, hcvs, w⟩ := compressSubtreeWide_wide hp key flags chunkCounter.toNat
    (show 0 < input.length by omega)
  have hpair := compressSubtreeToParentNode_eq hp key flags chunkCounter.toNat h
  rw [hcounter] at hcvs hpair
  exact ⟨cvs, _, _, hcvs, w.two_le h, w.le_degree.trans (degree_le_maxOr2 p), hpair⟩

/-- **The native hasher is never over- or underrun.**  For every target and every detected
degree: a run from a new hasher, keyed or not and in whatever memory, over less than
`2 ^ 64` bytes between resets is defined; a subtree of more than one chunk comes back as two
to `MAX_SIMD_DEGREE_OR_2` values and is condensed to exactly two; the shrinking loop ends
with a power-of-two number of chunks that divides the count so far. -/
theorem hasherRun_in_bounds :
    (blake3SimdDegree p, p.maxSimdDegree) ∈
        [(1, 1), (1, 16), (4, 4), (4, 16), (8, 16), (16, 16)] ∧
      (∀ memory ops, HasherOp.Admitted 0 ops →
        (∃ h, hasherRun p (blake3HasherInit memory) ops = some h) ∧
        ∀ key, ∃ h, hasherRun p (blake3HasherInitKeyed memory key) ops = some h) ∧
      (∀ key flags chunkCounter input, 1024 < input.length →
        ∃ cvs l r, compressSubtreeWide p input key chunkCounter flags = some cvs ∧
          2 ≤ cvs.length ∧ cvs.length ≤ p.maxSimdDegreeOr2 ∧
          compressSubtreeToParentNode p input key chunkCounter flags = some [l, r]) ∧
      ∀ n len, 1024 < len → 1024 * n + len < 2 ^ 64 →
        ∃ k, shrinkSubtreeLen (roundDownToPowerOf2 len) (UInt64.ofNat n * 1024) =
            some (1024 * 2 ^ k) ∧ 1024 * 2 ^ k ≤ len ∧ 2 ^ k ∣ n := by
  refine ⟨degree_pairs p, ?_, ?_, ?_⟩
  · intro memory ops hops
    constructor
    · obtain ⟨h, hrun, -⟩ := hasherRun_absorbed hp (blake3HasherInit_absorbed memory) hops
      exact ⟨h, hrun⟩
    · intro key
      obtain ⟨h, hrun, -⟩ := hasherRun_absorbed hp (blake3HasherInitKeyed_absorbed memory key) hops
      exact ⟨h, hrun⟩
  · intro key flags chunkCounter input h
    exact compressSubtree_bounds hp key flags chunkCounter h
  · intro n len h hlt
    have hcount : UInt64.ofNat n * 1024 = UInt64.ofNat (1024 * n) := by
      rw [Nat.mul_comm, UInt64.ofNat_mul]
      rfl
    rw [hcount]
    exact shrinkSubtreeLen_roundDown h hlt

omit hp in
/-- Five chunks, some output, a reset. -/
theorem hasherRun_in_bounds_chunks :
    ∃ h, hasherRun linuxPortable (blake3HasherInit zeroedHasher)
      [.update (List.replicate 5000 7), .finalize (List.replicate 40 0) 8 32, .reset] =
        some h :=
  ((hasherRun_in_bounds linuxPortable_agree).2.1 zeroedHasher
    [.update (List.replicate 5000 7), .finalize (List.replicate 40 0) 8 32, .reset]
    ⟨by rw [List.length_replicate]; omega, by simp, trivial⟩).1

end

end Blake3Kmp
