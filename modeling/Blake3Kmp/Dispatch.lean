/-
What the dispatch runs.

The entry points of `blake3_dispatch.c` pick a kernel by the features that
`get_cpu_features` found.  A kernel that the CPU cannot run, or whose registers
the operating system does not save, must never be picked, whatever it would do.

* `Target.CanRun` — what a kernel needs, in terms of the registers of `cpuid`
  and of `xgetbv`;
* `Kernels.SameWhereRun` — two sets of kernels that differ only in those that
  cannot be run;
* `Platform.Same`, `dispatch_same` — the entry points cannot tell them apart;
* `Platform.Same.blake3HasherUpdate`, `Platform.Same.blake3HasherFinalizeSeek` —
  nor can what is built on them;
* `Platform.AgreeWhereRun` — what is then left to assume of the kernels.
-/
import Blake3Kmp.HasherRuns
import Mathlib.Data.Nat.Bitwise

open CheckedMemory

namespace Blake3Kmp

/-! ### What a kernel needs -/

/-- The instruction sets of the x86 kernels. -/
inductive Isa
  | sse2 | sse41 | avx2 | avx512vl | avx512f
  deriving DecidableEq, Repr

namespace Target

/-- The operating system saves the registers of AVX. -/
def SavesAvx (cpu : Cpuid) : Prop :=
  cpu.leaf1Ecx.toNat.testBit 27 = true ∧ cpu.xcr0.toNat.testBit 1 = true ∧
    cpu.xcr0.toNat.testBit 2 = true

/-- The operating system saves the registers of AVX-512. -/
def SavesAvx512 (cpu : Cpuid) : Prop :=
  SavesAvx cpu ∧ cpu.xcr0.toNat.testBit 5 = true ∧ cpu.xcr0.toNat.testBit 6 = true ∧
    cpu.xcr0.toNat.testBit 7 = true

def CanRun (t : Target) (cpu : Cpuid) : Isa → Prop
  | .sse2 => t.arch = .x86_64 ∨ t.arch = .x86 ∧ cpu.leaf1Edx.toNat.testBit 26 = true
  | .sse41 => t.isX86 = true ∧ cpu.leaf1Ecx.toNat.testBit 19 = true
  | .avx2 => t.isX86 = true ∧ SavesAvx cpu ∧ 7 ≤ cpu.maxId.toInt ∧
    cpu.leaf7Ebx.toNat.testBit 5 = true
  | .avx512vl => t.isX86 = true ∧ SavesAvx512 cpu ∧ 7 ≤ cpu.maxId.toInt ∧
    cpu.leaf7Ebx.toNat.testBit 31 = true
  | .avx512f => t.isX86 = true ∧ SavesAvx512 cpu ∧ 7 ≤ cpu.maxId.toInt ∧
    cpu.leaf7Ebx.toNat.testBit 16 = true

end Target

/-! ### Detected features -/

/-- A shifted one selects a bit. -/
theorem and_shift_ne_zero (reg i : UInt32) (hi : i.toNat < 32) :
    (reg &&& ((1 : UInt32) <<< i) != 0) = reg.toNat.testBit i.toNat := by
  have hpow : ((1 : UInt32) <<< i).toNat = 2 ^ i.toNat := by
    rw [UInt32.toNat_shiftLeft, Nat.mod_eq_of_lt hi, show (1 : UInt32).toNat = 1 from rfl,
      Nat.one_shiftLeft, Nat.mod_eq_of_lt (Nat.pow_lt_pow_right (by omega) hi)]
  rw [Bool.eq_iff_iff, bne_iff_ne, ne_eq, ← UInt32.toNat_inj, UInt32.toNat_and, hpow,
    Nat.and_two_pow]
  cases reg.toNat.testBit i.toNat with
  | false => simp
  | true => simp

theorem testBit_orIfBit (features reg i flag : UInt32) (hi : i.toNat < 32) (k : ℕ) :
    (orIfBit features reg i flag).toNat.testBit k =
      (features.toNat.testBit k || (reg.toNat.testBit i.toNat && flag.toNat.testBit k)) := by
  rw [orIfBit, and_shift_ne_zero reg i hi]
  by_cases h : reg.toNat.testBit i.toNat = true
  · rw [if_pos h, h, UInt32.toNat_or, Nat.testBit_or, Bool.true_and]
  · rw [if_neg h, (Bool.not_eq_true _).mp h, Bool.false_and, Bool.or_false]



/-- Where the bit `k` of the features comes from. -/
theorem getCpuFeatures_testBit (t : Target) (cpu : Cpuid) (k : ℕ) :
    (getCpuFeatures t cpu).toNat.testBit k = true ↔ t.isX86 = true ∧
      ((t.arch = .x86_64 ∨ cpu.leaf1Edx.toNat.testBit 26 = true) ∧
          CpuFeature.sse2.toNat.testBit k = true ∨
        cpu.leaf1Ecx.toNat.testBit 9 = true ∧ CpuFeature.ssse3.toNat.testBit k = true ∨
        cpu.leaf1Ecx.toNat.testBit 19 = true ∧ CpuFeature.sse41.toNat.testBit k = true ∨
        (cpu.leaf1Ecx.toNat.testBit 27 = true ∧ cpu.xcr0 &&& 6 = 6) ∧
          (cpu.leaf1Ecx.toNat.testBit 28 = true ∧ CpuFeature.avx.toNat.testBit k = true ∨
            cpu.maxId ≥ 7 ∧
              (cpu.leaf7Ebx.toNat.testBit 5 = true ∧ CpuFeature.avx2.toNat.testBit k = true ∨
                cpu.xcr0 &&& 224 = 224 ∧
                  (cpu.leaf7Ebx.toNat.testBit 31 = true ∧
                      CpuFeature.avx512vl.toNat.testBit k = true ∨
                    cpu.leaf7Ebx.toNat.testBit 16 = true ∧
                      CpuFeature.avx512f.toNat.testBit k = true)))) := by
  have hbase : (if (t.arch == .x86_64) = true then (0 : UInt32) ||| CpuFeature.sse2
      else orIfBit 0 cpu.leaf1Edx 26 CpuFeature.sse2).toNat.testBit k = true ↔
      (t.arch = .x86_64 ∨ cpu.leaf1Edx.toNat.testBit 26 = true) ∧
        CpuFeature.sse2.toNat.testBit k = true := by
    by_cases h : t.arch = .x86_64
    · simp [h]
    · simp [h, testBit_orIfBit]
  rw [getCpuFeatures, and_shift_ne_zero cpu.leaf1Ecx 27 (by decide)]
  by_cases hx : t.isX86 = true
  · rw [if_pos hx]
    dsimp only
    by_cases hos : cpu.leaf1Ecx.toNat.testBit 27 = true
    · rw [if_pos (show cpu.leaf1Ecx.toNat.testBit (27 : UInt32).toNat = true from hos)]
      by_cases hsave : cpu.xcr0 &&& 6 = 6
      · rw [if_pos (beq_iff_eq.mpr hsave)]
        by_cases hmax : cpu.maxId ≥ 7
        · rw [if_pos hmax]
          by_cases hmask : cpu.xcr0 &&& 224 = 224
          · rw [if_pos (beq_iff_eq.mpr hmask)]
            simp (disch := decide) only [testBit_orIfBit, Bool.or_eq_true, Bool.and_eq_true]
            rw [hbase]
            simp only [hx, hos, hsave, hmax, hmask, true_and, or_assoc, UInt32.reduceToNat]
          · rw [if_neg (fun h => hmask (beq_iff_eq.mp h))]
            simp (disch := decide) only [testBit_orIfBit, Bool.or_eq_true, Bool.and_eq_true]
            rw [hbase]
            simp only [hx, hos, hsave, hmax, hmask, true_and, false_and, or_false, or_assoc,
              UInt32.reduceToNat]
        · rw [if_neg hmax]
          simp (disch := decide) only [testBit_orIfBit, Bool.or_eq_true, Bool.and_eq_true]
          rw [hbase]
          simp only [hx, hos, hsave, hmax, true_and, false_and, or_false, or_assoc,
            UInt32.reduceToNat]
      · rw [if_neg (fun h => hsave (beq_iff_eq.mp h))]
        simp (disch := decide) only [testBit_orIfBit, Bool.or_eq_true, Bool.and_eq_true]
        rw [hbase]
        simp only [hx, hos, hsave, true_and, and_false, false_and, or_false, or_assoc,
          UInt32.reduceToNat]
    · rw [if_neg (show ¬ cpu.leaf1Ecx.toNat.testBit (27 : UInt32).toNat = true from hos)]
      simp (disch := decide) only [testBit_orIfBit, Bool.or_eq_true, Bool.and_eq_true]
      rw [hbase]
      simp only [hx, hos, Bool.false_eq_true, true_and, false_and, or_false, or_assoc,
        UInt32.reduceToNat]
  · rw [if_neg hx]
    simp [hx]

/-- A mask that is there has all its bits there. -/
theorem testBit_of_and_eq {a m : ℕ} (h : a &&& m = m) {k : ℕ} (hk : m.testBit k = true) :
    a.testBit k = true := by
  rw [← h, Nat.testBit_and, Bool.and_eq_true] at hk
  exact hk.1

section

variable {t : Target} {cpu : Cpuid}

theorem savesAvx (hos : cpu.leaf1Ecx.toNat.testBit 27 = true) (hmask : cpu.xcr0 &&& 6 = 6) :
    Target.SavesAvx cpu := by
  have h : cpu.xcr0.toNat &&& 6 = 6 := congrArg UInt64.toNat hmask
  exact ⟨hos, testBit_of_and_eq h (by decide), testBit_of_and_eq h (by decide)⟩

theorem savesAvx512 (h : Target.SavesAvx cpu) (hmask : cpu.xcr0 &&& 224 = 224) :
    Target.SavesAvx512 cpu := by
  have h224 : cpu.xcr0.toNat &&& 224 = 224 := congrArg UInt64.toNat hmask
  exact ⟨h, testBit_of_and_eq h224 (by decide), testBit_of_and_eq h224 (by decide),
    testBit_of_and_eq h224 (by decide)⟩

/-- The bits of the flags. -/
theorem feature_bits : ∀ k ∈ [0, 2, 4, 5, 6],
    (CpuFeature.sse2.toNat.testBit k = decide (k = 0)) ∧
    (CpuFeature.ssse3.toNat.testBit k = false) ∧
    (CpuFeature.sse41.toNat.testBit k = decide (k = 2)) ∧
    (CpuFeature.avx.toNat.testBit k = false) ∧
    (CpuFeature.avx2.toNat.testBit k = decide (k = 4)) ∧
    (CpuFeature.avx512f.toNat.testBit k = decide (k = 5)) ∧
    (CpuFeature.avx512vl.toNat.testBit k = decide (k = 6)) := by decide

/-- The bit of an instruction set among the features. -/
def Isa.bit : Isa → ℕ
  | sse2 => 0
  | sse41 => 2
  | avx2 => 4
  | avx512f => 5
  | avx512vl => 6

/-- **What is detected can be run.** -/
theorem canRun_of_detected {isa : Isa}
    (h : (getCpuFeatures t cpu).toNat.testBit isa.bit = true) : t.CanRun cpu isa := by
  have hmem : isa.bit ∈ [0, 2, 4, 5, 6] := by
    cases isa <;> decide
  obtain ⟨h0, h1, h2, h3, h4, h5, h6⟩ := feature_bits _ hmem
  rw [getCpuFeatures_testBit, h0, h1, h2, h3, h4, h5, h6] at h
  obtain ⟨hx, h⟩ := h
  cases isa with
  | sse2 =>
    simp only [Isa.bit, decide_true, and_true, Bool.false_eq_true, and_false, or_false,
      decide_false, OfNat.zero_ne_ofNat] at h
    rcases h with h | h
    · exact .inl h
    · rw [Target.isX86, Bool.or_eq_true, beq_iff_eq, beq_iff_eq] at hx
      rcases hx with hx | hx
      · exact .inl hx
      · exact .inr ⟨hx, h⟩
  | sse41 =>
    simp [Isa.bit] at h
    exact ⟨hx, h⟩
  | avx2 =>
    simp [Isa.bit] at h
    obtain ⟨⟨hos, hsave⟩, hmax, hbit⟩ := h
    exact ⟨hx, savesAvx hos hsave, Int32.le_iff_toInt_le.mp hmax, hbit⟩
  | avx512f =>
    simp [Isa.bit] at h
    obtain ⟨⟨hos, hsave⟩, hmax, hmask, hbit⟩ := h
    exact ⟨hx, savesAvx512 (savesAvx hos hsave) hmask, Int32.le_iff_toInt_le.mp hmax, hbit⟩
  | avx512vl =>
    simp [Isa.bit] at h
    obtain ⟨⟨hos, hsave⟩, hmax, hmask, hbit⟩ := h
    exact ⟨hx, savesAvx512 (savesAvx hos hsave) hmask, Int32.le_iff_toInt_le.mp hmax, hbit⟩

theorem canRun_of_has {p : Platform} {isa : Isa} {flags : UInt32}
    (hbit : flags.toNat.testBit isa.bit = true) (h : p.has flags = true) :
    p.target.CanRun p.cpu isa := by
  rw [Platform.has, beq_iff_eq] at h
  have hmask : (getCpuFeatures p.target p.cpu).toNat &&& flags.toNat = flags.toNat := by
    rw [← UInt32.toNat_and, h]
  exact canRun_of_detected (testBit_of_and_eq hmask hbit)

end

/-! ### Kernels that cannot be run -/

/-- The same kernels where the CPU can run them. -/
structure Kernels.SameWhereRun (t : Target) (cpu : Cpuid) (k k' : Kernels) : Prop where
  compressInPlaceSse2 : t.CanRun cpu .sse2 → k.compressInPlaceSse2 = k'.compressInPlaceSse2
  compressInPlaceSse41 : t.CanRun cpu .sse41 → k.compressInPlaceSse41 = k'.compressInPlaceSse41
  compressInPlaceAvx512 : t.CanRun cpu .avx512vl →
    k.compressInPlaceAvx512 = k'.compressInPlaceAvx512
  compressXofSse2 : t.CanRun cpu .sse2 → k.compressXofSse2 = k'.compressXofSse2
  compressXofSse41 : t.CanRun cpu .sse41 → k.compressXofSse41 = k'.compressXofSse41
  compressXofAvx512 : t.CanRun cpu .avx512vl → k.compressXofAvx512 = k'.compressXofAvx512
  xofManyAvx512 : t.CanRun cpu .avx512vl → k.xofManyAvx512 = k'.xofManyAvx512
  hashManySse2 : t.CanRun cpu .sse2 → k.hashManySse2 = k'.hashManySse2
  hashManySse41 : t.CanRun cpu .sse41 → k.hashManySse41 = k'.hashManySse41
  hashManyAvx2 : t.CanRun cpu .avx2 → k.hashManyAvx2 = k'.hashManyAvx2
  hashManyAvx512 : t.CanRun cpu .avx512f → t.CanRun cpu .avx512vl →
    k.hashManyAvx512 = k'.hashManyAvx512
  hashManyNeon : t.arch = .aarch64 → k.hashManyNeon = k'.hashManyNeon

/-- Two platforms whose entry points compute the same. -/
structure Platform.Same (p q : Platform) : Prop where
  target : p.target = q.target
  compressInPlace : blake3CompressInPlace p = blake3CompressInPlace q
  compressXof : blake3CompressXof p = blake3CompressXof q
  xofMany : blake3XofMany p = blake3XofMany q
  hashMany : blake3HashMany p = blake3HashMany q
  degree : blake3SimdDegree p = blake3SimdDegree q

/-- Two choices by the same condition, of things that are the same where it holds. -/
theorem ite_same {α : Type} {b : Bool} {x y z w : α} (hx : b = true → x = y) (hz : z = w) :
    (if b = true then x else z) = if b = true then y else w := by
  by_cases h : b = true
  · rw [if_pos h, if_pos h, hx h]
  · rw [if_neg h, if_neg h, hz]

/-- **The entry points run no kernel that the CPU cannot run.** -/
theorem dispatch_same {t : Target} {cpu : Cpuid} {k k' : Kernels}
    (h : k.SameWhereRun t cpu k') : Platform.Same ⟨t, cpu, k⟩ ⟨t, cpu, k'⟩ := by
  have hrun : ∀ {isa : Isa} {flags : UInt32}, flags.toNat.testBit isa.bit = true →
      (Platform.simdX86 ⟨t, cpu, k⟩ && Platform.has ⟨t, cpu, k⟩ flags) = true →
        t.CanRun cpu isa := by
    intro isa flags hbit hb
    rw [Bool.and_eq_true] at hb
    exact canRun_of_has (p := ⟨t, cpu, k⟩) hbit hb.2
  have hxof : blake3CompressXof ⟨t, cpu, k⟩ = blake3CompressXof ⟨t, cpu, k'⟩ := by
    refine ite_same (fun hb => h.compressXofAvx512 (hrun (by decide) hb)) ?_
    refine ite_same (fun hb => h.compressXofSse41 (hrun (by decide) hb)) ?_
    exact ite_same (fun hb => h.compressXofSse2 (hrun (by decide) hb)) rfl
  refine ⟨rfl, ?_, hxof, ?_, ?_, rfl⟩
  · refine ite_same (fun hb => h.compressInPlaceAvx512 (hrun (by decide) hb)) ?_
    refine ite_same (fun hb => h.compressInPlaceSse41 (hrun (by decide) hb)) ?_
    exact ite_same (fun hb => h.compressInPlaceSse2 (hrun (by decide) hb)) rfl
  · funext cv block blockLen counter flags outblocks
    refine ite_same (fun _ => rfl) ?_
    rw [hxof]
    refine ite_same (fun hb => ?_) rfl
    rw [Bool.and_eq_true, Bool.and_eq_true, and_assoc, ← Bool.and_eq_true] at hb
    exact congrArg (fun f : XofMany => f cv block blockLen counter flags outblocks)
      (h.xofManyAvx512 (hrun (by decide) hb.2))
  · refine ite_same (fun hb => h.hashManyAvx512 (hrun (by decide) hb)
      (hrun (by decide) hb)) ?_
    refine ite_same (fun hb => h.hashManyAvx2 (hrun (by decide) hb)) ?_
    refine ite_same (fun hb => h.hashManySse41 (hrun (by decide) hb)) ?_
    refine ite_same (fun hb => h.hashManySse2 (hrun (by decide) hb)) ?_
    exact ite_same (fun hb => h.hashManyNeon (beq_iff_eq.mp hb)) rfl

/-! ### What is built on the entry points -/

section

variable {p q : Platform} (h : p.Same q)
include h

namespace Platform.Same

theorem maxSimdDegree : p.maxSimdDegree = q.maxSimdDegree := congrArg Target.maxSimdDegree h.target

theorem maxSimdDegreeOr2 : p.maxSimdDegreeOr2 = q.maxSimdDegreeOr2 :=
  congrArg Target.maxSimdDegreeOr2 h.target

theorem outputChainingValue : outputChainingValue p = outputChainingValue q := by
  funext o
  rw [Blake3Kmp.outputChainingValue, h.compressInPlace]
  rfl

theorem outputRootBytes : outputRootBytes p = outputRootBytes q := by
  have hhead : outputRootHead p = outputRootHead q := by
    funext o counter offset out pos outLen
    rw [outputRootHead, h.compressXof]
    rfl
  have hblocks : outputRootBlocks p = outputRootBlocks q := by
    funext o counter out pos outblocks
    rw [outputRootBlocks, h.xofMany]
    rfl
  have hrest : outputRootRest p = outputRootRest q := by
    funext o counter out pos outLen
    rw [outputRootRest, hblocks, h.compressXof]
    rfl
  funext o seek out pos outLen
  rw [Blake3Kmp.outputRootBytes, hhead, hrest]
  rfl

theorem chunkStateCompress : chunkStateCompress p = chunkStateCompress q := by
  funext cs block
  rw [Blake3Kmp.chunkStateCompress, h.compressInPlace]
  rfl

theorem chunkStateUpdateLoop (cs : ChunkState) (input : List UInt8) :
    chunkStateUpdateLoop p cs input = chunkStateUpdateLoop q cs input := by
  induction hn : input.length using Nat.strong_induction_on generalizing cs input with
  | _ n ih =>
    rw [Blake3Kmp.chunkStateUpdateLoop, Blake3Kmp.chunkStateUpdateLoop]
    by_cases hlen : input.length > 64
    · rw [if_pos hlen, if_pos hlen, h.chunkStateCompress]
      have hrest : (input.drop 64).length < n := by
        rw [List.length_drop]
        omega
      exact bind_congr fun block => ih _ hrest _ _ rfl
    · rw [if_neg hlen, if_neg hlen]

theorem chunkStateUpdate : chunkStateUpdate p = chunkStateUpdate q := by
  have hdrain : chunkStateDrain p = chunkStateDrain q := by
    funext cs input
    rw [chunkStateDrain, h.chunkStateCompress]
    rfl
  have hloop : Blake3Kmp.chunkStateUpdateLoop p = Blake3Kmp.chunkStateUpdateLoop q := by
    funext cs input
    exact h.chunkStateUpdateLoop cs input
  funext cs input
  rw [Blake3Kmp.chunkStateUpdate, hdrain, hloop]
  rfl

theorem compressChunksParallel : compressChunksParallel p = compressChunksParallel q := by
  funext input key counter flags
  rw [Blake3Kmp.compressChunksParallel, h.maxSimdDegree, h.hashMany, h.chunkStateUpdate,
    h.outputChainingValue]
  rfl

theorem compressParentsParallel : compressParentsParallel p = compressParentsParallel q := by
  funext children key flags
  rw [Blake3Kmp.compressParentsParallel, h.maxSimdDegreeOr2, h.hashMany]
  rfl

theorem compressSubtreeWide (input : List UInt8) (key : Words 8) (counter : UInt64)
    (flags : UInt8) :
    compressSubtreeWide p input key counter flags = compressSubtreeWide q input key counter flags := by
  induction hn : input.length using Nat.strong_induction_on generalizing input counter with
  | _ n ih =>
    rw [Blake3Kmp.compressSubtreeWide, Blake3Kmp.compressSubtreeWide, h.degree,
      h.compressChunksParallel]
    by_cases hle : input.length ≤ blake3SimdDegree q * 1024
    · rw [if_pos hle, if_pos hle]
    rw [if_neg hle, if_neg hle]
    by_cases hleft : leftSubtreeLen input.length > input.length
    · rw [if_pos hleft, if_pos hleft]
    rw [if_neg hleft, if_neg hleft]
    have hd := degree_pos q
    have hlen := leftSubtreeLen_eq (n := input.length) (by omega)
    have hspec := leftLen_spec (n := input.length) (by omega)
    have htake : (input.take (leftSubtreeLen input.length)).length < n := by
      rw [List.length_take]
      omega
    have hdrop : (input.drop (leftSubtreeLen input.length)).length < n := by
      rw [List.length_drop]
      omega
    dsimp only
    rw [ih _ htake _ _ rfl, ih _ hdrop _ _ rfl, h.maxSimdDegreeOr2, h.compressParentsParallel]

theorem condenseLoop (key : Words 8) (flags : UInt8) (cvArray : List (Option (Bytes 32)))
    (numCvs : ℕ) :
    condenseLoop p key flags cvArray numCvs = condenseLoop q key flags cvArray numCvs := by
  induction numCvs using Nat.strong_induction_on generalizing cvArray with
  | _ n ih =>
    rw [Blake3Kmp.condenseLoop, Blake3Kmp.condenseLoop, h.maxSimdDegreeOr2,
      h.compressParentsParallel]
    by_cases hn : n > 2
    · rw [if_pos hn, if_pos hn]
      refine bind_congr fun children => bind_congr fun out => bind_congr fun _ =>
        bind_congr fun cvArray => ?_
      by_cases hlt : out.length < n
      · rw [if_pos hlt, if_pos hlt]
        exact ih _ hlt cvArray
      · rw [if_neg hlt, if_neg hlt]
    · rw [if_neg hn, if_neg hn]

theorem compressSubtreeToParentNode :
    compressSubtreeToParentNode p = compressSubtreeToParentNode q := by
  have hwide : Blake3Kmp.compressSubtreeWide p = Blake3Kmp.compressSubtreeWide q := by
    funext input key counter flags
    exact h.compressSubtreeWide input key counter flags
  have hloop : Blake3Kmp.condenseLoop p = Blake3Kmp.condenseLoop q := by
    funext key flags cvArray numCvs
    exact h.condenseLoop key flags cvArray numCvs
  funext input key counter flags
  rw [Blake3Kmp.compressSubtreeToParentNode, hwide, hloop, h.maxSimdDegreeOr2]
  rfl

theorem hasherMergeLoop (self : Hasher) (len : ℕ) :
    hasherMergeLoop p self len = hasherMergeLoop q self len := by
  induction hn : self.cvStackLen.toNat using Nat.strong_induction_on generalizing self with
  | _ n ih =>
    rw [Blake3Kmp.hasherMergeLoop, Blake3Kmp.hasherMergeLoop, h.outputChainingValue]
    by_cases hgt : self.cvStackLen.toNat > len
    · rw [if_pos hgt, if_pos hgt]
      have hdec : (self.cvStackLen - 1).toNat < n := by
        have := self.cvStackLen.toNat_lt
        simp only [UInt8.toNat_sub, UInt8.toNat_one]
        omega
      exact bind_congr fun node => bind_congr fun left => bind_congr fun right =>
        bind_congr fun cvStack => ih _ hdec _ rfl
    · rw [if_neg hgt, if_neg hgt]

theorem hasherMergeCvStack : hasherMergeCvStack p = hasherMergeCvStack q := by
  funext self totalLen
  exact h.hasherMergeLoop self (popcnt totalLen)

theorem hasherPushCv : hasherPushCv p = hasherPushCv q := by
  funext self cv counter
  rw [Blake3Kmp.hasherPushCv, h.hasherMergeCvStack]
  rfl

theorem hasherFinishChunk : hasherFinishChunk p = hasherFinishChunk q := by
  funext self input
  rw [Blake3Kmp.hasherFinishChunk, h.chunkStateUpdate, h.outputChainingValue, h.hasherPushCv]
  rfl

theorem hasherUpdateStep : hasherUpdateStep p = hasherUpdateStep q := by
  have hchunk : hasherPushChunk p = hasherPushChunk q := by
    funext self subtree
    rw [hasherPushChunk, h.chunkStateUpdate, h.outputChainingValue, h.hasherPushCv]
    rfl
  have hsubtree : hasherPushSubtree p = hasherPushSubtree q := by
    funext self subtree chunks
    rw [hasherPushSubtree, h.compressSubtreeToParentNode, h.hasherPushCv]
    rfl
  funext self input
  rw [Blake3Kmp.hasherUpdateStep, hchunk, hsubtree]
  rfl

theorem hasherUpdateLoop (self : Hasher) (input : List UInt8) :
    hasherUpdateLoop p self input = hasherUpdateLoop q self input := by
  induction hn : input.length using Nat.strong_induction_on generalizing self input with
  | _ n ih =>
    rw [Blake3Kmp.hasherUpdateLoop, Blake3Kmp.hasherUpdateLoop, h.hasherUpdateStep]
    by_cases hlen : input.length > 1024
    · rw [if_pos hlen, if_pos hlen]
      cases Blake3Kmp.hasherUpdateStep q self input with
      | none => rfl
      | some r =>
        obtain ⟨self', subtreeLen⟩ := r
        dsimp only
        by_cases hpos : 0 < subtreeLen
        · rw [if_pos hpos, if_pos hpos]
          have hdrop : (input.drop subtreeLen).length < n := by
            rw [List.length_drop]
            omega
          exact ih _ hdrop _ _ rfl
        · rw [if_neg hpos, if_neg hpos]
    · rw [if_neg hlen, if_neg hlen]

/-- **`blake3_hasher_update`.** -/
theorem blake3HasherUpdate : blake3HasherUpdate p = blake3HasherUpdate q := by
  have hloop : Blake3Kmp.hasherUpdateLoop p = Blake3Kmp.hasherUpdateLoop q := by
    funext self input
    exact h.hasherUpdateLoop self input
  funext self input
  rw [Blake3Kmp.blake3HasherUpdate, h.hasherFinishChunk, hloop, h.chunkStateUpdate,
    h.hasherMergeCvStack]
  rfl

theorem finalizeLoop (self : Hasher) (output : Output) (n : ℕ) :
    finalizeLoop p self output n = finalizeLoop q self output n := by
  induction n generalizing output with
  | zero => rfl
  | succ n ih =>
    rw [Blake3Kmp.finalizeLoop, Blake3Kmp.finalizeLoop, h.outputChainingValue]
    exact bind_congr fun left => ih _

/-- **`blake3_hasher_finalize_seek`.** -/
theorem blake3HasherFinalizeSeek : blake3HasherFinalizeSeek p = blake3HasherFinalizeSeek q := by
  have hloop : Blake3Kmp.finalizeLoop p = Blake3Kmp.finalizeLoop q := by
    funext self output n
    exact h.finalizeLoop self output n
  funext self seek out pos outLen
  rw [Blake3Kmp.blake3HasherFinalizeSeek, h.outputRootBytes, hloop]
  rfl

end Platform.Same

end

/-- What the library relies on: the kernels that the CPU can run compute what the portable
functions of their names compute. -/
def Platform.AgreeWhereRun (p : Platform) : Prop :=
  ∃ k, k.Agree ∧ p.kernels.SameWhereRun p.target p.cpu k

/-- Kernels that the CPU cannot run may be thought of as agreeing ones. -/
theorem Platform.AgreeWhereRun.same {p : Platform} (h : p.AgreeWhereRun) :
    ∃ q : Platform, q.Agree ∧ p.Same q := by
  obtain ⟨k, hk, hsame⟩ := h
  exact ⟨⟨p.target, p.cpu, k⟩, hk, dispatch_same hsame⟩

end Blake3Kmp
