/-
The targets of `build.zig` and the run-time dispatch of `blake3_dispatch.c`.

A `Platform` is one running copy of the library: the target it was compiled
for, what `cpuid` reports, and the assembly and NEON kernels.  The kernels are
not part of the repository's sources; they are parameters, and
`Kernels.Agree` is what the code relies on: each computes what the portable
kernel of the same name computes.

* `blake3CompressInPlace`, `blake3CompressXof`, `blake3XofMany`,
  `blake3HashMany`, `blake3SimdDegree` — the dispatched entry points;
* `degree_pairs` — which (detected, compiled) degrees occur;
* `Platform.Agree.compressInPlace` and its siblings — with agreeing kernels
  every dispatch is the portable function, on every target.
-/
import Blake3Kmp.Compression

open CheckedMemory

namespace Blake3Kmp

/-! ### `build.zig` -/

inductive OsTag
  | linux | macos | windows
  deriving DecidableEq, Repr

inductive Arch
  | x86_64 | x86 | aarch64 | arm
  deriving DecidableEq, Repr

structure Target where
  tag : OsTag
  arch : Arch
  deriving DecidableEq, Repr

/-- The `setupTarget` calls of the `jvm` step, then those of the `android` step. -/
def builtTargets : List Target :=
  [⟨.linux, .aarch64⟩, ⟨.linux, .x86_64⟩, ⟨.macos, .aarch64⟩, ⟨.macos, .x86_64⟩,
    ⟨.windows, .x86_64⟩, ⟨.windows, .aarch64⟩,
    ⟨.linux, .aarch64⟩, ⟨.linux, .arm⟩, ⟨.linux, .x86_64⟩, ⟨.linux, .x86⟩]

namespace Target

/-- `IS_X86`. -/
def isX86 (t : Target) : Bool := t.arch == .x86_64 || t.arch == .x86

/-- `setupTarget` defines the four `BLAKE3_NO_…` macros together, on 32-bit x86 only. -/
def noSimdX86 (t : Target) : Bool := t.arch == .x86

/-- `BLAKE3_USE_NEON`. -/
def useNeon (t : Target) : Bool := t.arch == .aarch64

/-- `MAX_SIMD_DEGREE`. -/
def maxSimdDegree (t : Target) : ℕ :=
  if t.isX86 then 16 else if t.useNeon then 4 else 1

/-- `MAX_SIMD_DEGREE_OR_2`. -/
def maxSimdDegreeOr2 (t : Target) : ℕ :=
  if t.maxSimdDegree > 2 then t.maxSimdDegree else 2

end Target

/-! ### CPU features -/

/-- The registers `get_cpu_features` reads: `eax` of leaf 0 as an `int`, `ecx` and `edx` of
leaf 1, `ebx` of leaf 7, and `xgetbv`. -/
structure Cpuid where
  maxId : Int32
  leaf1Ecx : UInt32
  leaf1Edx : UInt32
  leaf7Ebx : UInt32
  xcr0 : UInt64

namespace CpuFeature

def sse2 : UInt32 := 1
def ssse3 : UInt32 := 2
def sse41 : UInt32 := 4
def avx : UInt32 := 8
def avx2 : UInt32 := 16
def avx512f : UInt32 := 32
def avx512vl : UInt32 := 64

end CpuFeature

/-- `features |= flag` when the bit `i` of `reg` is set. -/
def orIfBit (features reg : UInt32) (i : UInt32) (flag : UInt32) : UInt32 :=
  if reg &&& ((1 : UInt32) <<< i) != 0 then features ||| flag else features

def getCpuFeatures (t : Target) (cpu : Cpuid) : UInt32 :=
  if t.isX86 then
    let features : UInt32 := 0
    let features := if t.arch == .x86_64 then features ||| CpuFeature.sse2
      else orIfBit features cpu.leaf1Edx 26 CpuFeature.sse2
    let features := orIfBit features cpu.leaf1Ecx 9 CpuFeature.ssse3
    let features := orIfBit features cpu.leaf1Ecx 19 CpuFeature.sse41
    if cpu.leaf1Ecx &&& ((1 : UInt32) <<< 27) != 0 then -- OSXSAVE
      let mask := cpu.xcr0
      if mask &&& 6 == 6 then -- SSE and AVX states
        let features := orIfBit features cpu.leaf1Ecx 28 CpuFeature.avx
        if cpu.maxId ≥ 7 then
          let features := orIfBit features cpu.leaf7Ebx 5 CpuFeature.avx2
          if mask &&& 224 == 224 then -- Opmask, ZMM_Hi256, Hi16_Zmm
            let features := orIfBit features cpu.leaf7Ebx 31 CpuFeature.avx512vl
            orIfBit features cpu.leaf7Ebx 16 CpuFeature.avx512f
          else features
        else features
      else features
    else features
  else 0

/-! ### Kernels -/

abbrev CompressInPlace := Words 8 → Bytes 64 → UInt8 → UInt64 → UInt8 → Words 8

abbrev CompressXof := Words 8 → Bytes 64 → UInt8 → UInt64 → UInt8 → Bytes 64

/-- The bytes written, for a number of output blocks. -/
abbrev XofMany := Words 8 → Bytes 64 → UInt8 → UInt64 → UInt8 → ℕ → List UInt8

abbrev HashMany := List (List UInt8) → ℕ → Words 8 → UInt64 → Bool → UInt8 → UInt8 → UInt8 →
  Option (List (Bytes 32))

/-- The kernels that `build.zig` links from outside the repository. -/
structure Kernels where
  compressInPlaceSse2 : CompressInPlace
  compressInPlaceSse41 : CompressInPlace
  compressInPlaceAvx512 : CompressInPlace
  compressXofSse2 : CompressXof
  compressXofSse41 : CompressXof
  compressXofAvx512 : CompressXof
  xofManyAvx512 : XofMany
  hashManySse2 : HashMany
  hashManySse41 : HashMany
  hashManyAvx2 : HashMany
  hashManyAvx512 : HashMany
  hashManyNeon : HashMany

/-- The plain per-block loop of `blake3_xof_many` over `compressXof`. -/
def xofManyLoop (compressXof : CompressXof) : XofMany :=
  fun cv block blockLen counter flags outblocks =>
    (List.range outblocks).flatMap fun i =>
      (compressXof cv block blockLen (counter + UInt64.ofNat i) flags).toList

/-- A kernel that hashes whole inputs of at least one block as the portable one does. -/
def HashMany.Agrees (k : HashMany) : Prop :=
  ∀ inputs blocks key counter incrementCounter flags flagsStart flagsEnd, 0 < blocks →
    (∀ input ∈ inputs, input.length = 64 * blocks) →
    k inputs blocks key counter incrementCounter flags flagsStart flagsEnd =
      hashManyPortable inputs blocks key counter incrementCounter flags flagsStart flagsEnd

/-- Each kernel computes what its portable counterpart computes. -/
structure Kernels.Agree (k : Kernels) : Prop where
  compressInPlaceSse2 : k.compressInPlaceSse2 = compressInPlacePortable
  compressInPlaceSse41 : k.compressInPlaceSse41 = compressInPlacePortable
  compressInPlaceAvx512 : k.compressInPlaceAvx512 = compressInPlacePortable
  compressXofSse2 : k.compressXofSse2 = compressXofPortable
  compressXofSse41 : k.compressXofSse41 = compressXofPortable
  compressXofAvx512 : k.compressXofAvx512 = compressXofPortable
  xofManyAvx512 : ∀ cv block blockLen counter flags outblocks, 0 < outblocks →
    k.xofManyAvx512 cv block blockLen counter flags outblocks =
      xofManyLoop compressXofPortable cv block blockLen counter flags outblocks
  hashManySse2 : k.hashManySse2.Agrees
  hashManySse41 : k.hashManySse41.Agrees
  hashManyAvx2 : k.hashManyAvx2.Agrees
  hashManyAvx512 : k.hashManyAvx512.Agrees
  hashManyNeon : k.hashManyNeon.Agrees

/-- Kernels that are the portable functions. -/
def portableKernels : Kernels where
  compressInPlaceSse2 := compressInPlacePortable
  compressInPlaceSse41 := compressInPlacePortable
  compressInPlaceAvx512 := compressInPlacePortable
  compressXofSse2 := compressXofPortable
  compressXofSse41 := compressXofPortable
  compressXofAvx512 := compressXofPortable
  xofManyAvx512 := xofManyLoop compressXofPortable
  hashManySse2 := hashManyPortable
  hashManySse41 := hashManyPortable
  hashManyAvx2 := hashManyPortable
  hashManyAvx512 := hashManyPortable
  hashManyNeon := hashManyPortable

theorem hashManyPortable_agrees : HashMany.Agrees hashManyPortable :=
  fun _ _ _ _ _ _ _ _ _ _ => rfl

theorem portableKernels_agree : portableKernels.Agree where
  compressInPlaceSse2 := rfl
  compressInPlaceSse41 := rfl
  compressInPlaceAvx512 := rfl
  compressXofSse2 := rfl
  compressXofSse41 := rfl
  compressXofAvx512 := rfl
  xofManyAvx512 := fun _ _ _ _ _ _ _ => rfl
  hashManySse2 := hashManyPortable_agrees
  hashManySse41 := hashManyPortable_agrees
  hashManyAvx2 := hashManyPortable_agrees
  hashManyAvx512 := hashManyPortable_agrees
  hashManyNeon := hashManyPortable_agrees

structure Platform where
  target : Target
  cpu : Cpuid
  kernels : Kernels

namespace Platform

/-- The x86 kernels are compiled in. -/
def simdX86 (p : Platform) : Bool := p.target.isX86 && !p.target.noSimdX86

def has (p : Platform) (flags : UInt32) : Bool :=
  getCpuFeatures p.target p.cpu &&& flags == flags

/-- The standing assumption on the code outside the repository. -/
def Agree (p : Platform) : Prop := p.kernels.Agree

def maxSimdDegree (p : Platform) : ℕ := p.target.maxSimdDegree

def maxSimdDegreeOr2 (p : Platform) : ℕ := p.target.maxSimdDegreeOr2

end Platform

/-- The library built for 64-bit Linux, on a CPU that reports SSE4.1 and no more, with
kernels that compute what the portable ones do. -/
def linuxPortable : Platform where
  target := ⟨.linux, .x86_64⟩
  cpu := { maxId := 7, leaf1Ecx := 0x80200, leaf1Edx := 0, leaf7Ebx := 0, xcr0 := 0 }
  kernels := portableKernels

theorem linuxPortable_agree : linuxPortable.Agree := portableKernels_agree

/-! ### `blake3_dispatch.c` -/

def blake3CompressInPlace (p : Platform) : CompressInPlace :=
  if p.simdX86 && p.has CpuFeature.avx512vl then p.kernels.compressInPlaceAvx512
  else if p.simdX86 && p.has CpuFeature.sse41 then p.kernels.compressInPlaceSse41
  else if p.simdX86 && p.has CpuFeature.sse2 then p.kernels.compressInPlaceSse2
  else compressInPlacePortable

def blake3CompressXof (p : Platform) : CompressXof :=
  if p.simdX86 && p.has CpuFeature.avx512vl then p.kernels.compressXofAvx512
  else if p.simdX86 && p.has CpuFeature.sse41 then p.kernels.compressXofSse41
  else if p.simdX86 && p.has CpuFeature.sse2 then p.kernels.compressXofSse2
  else compressXofPortable

def blake3XofMany (p : Platform) : XofMany :=
  fun cv block blockLen counter flags outblocks =>
    if outblocks == 0 then []
    else if p.target.tag != .windows && p.simdX86 && p.has CpuFeature.avx512vl then
      p.kernels.xofManyAvx512 cv block blockLen counter flags outblocks
    else xofManyLoop (blake3CompressXof p) cv block blockLen counter flags outblocks

def blake3HashMany (p : Platform) : HashMany :=
  if p.simdX86 && p.has (CpuFeature.avx512f ||| CpuFeature.avx512vl) then p.kernels.hashManyAvx512
  else if p.simdX86 && p.has CpuFeature.avx2 then p.kernels.hashManyAvx2
  else if p.simdX86 && p.has CpuFeature.sse41 then p.kernels.hashManySse41
  else if p.simdX86 && p.has CpuFeature.sse2 then p.kernels.hashManySse2
  else if p.target.useNeon then p.kernels.hashManyNeon
  else hashManyPortable

def blake3SimdDegree (p : Platform) : ℕ :=
  if p.simdX86 && p.has (CpuFeature.avx512f ||| CpuFeature.avx512vl) then 16
  else if p.simdX86 && p.has CpuFeature.avx2 then 8
  else if p.simdX86 && p.has CpuFeature.sse41 then 4
  else if p.simdX86 && p.has CpuFeature.sse2 then 4
  else if p.target.useNeon then 4
  else 1

/-! ### Degrees -/

/-- Every detected degree with its compiled maximum. -/
theorem degree_pairs (p : Platform) :
    (blake3SimdDegree p, p.maxSimdDegree) ∈
      [(1, 1), (1, 16), (4, 4), (4, 16), (8, 16), (16, 16)] := by
  obtain ⟨⟨tag, arch⟩, cpu, k⟩ := p
  rw [Platform.maxSimdDegree]
  cases arch with
  | x86_64 =>
    rw [show Target.maxSimdDegree ⟨tag, .x86_64⟩ = 16 from rfl, blake3SimdDegree]
    split_ifs <;> simp
  | x86 =>
    rw [show Target.maxSimdDegree ⟨tag, .x86⟩ = 16 from rfl, blake3SimdDegree]
    split_ifs <;> simp
  | aarch64 =>
    rw [show Target.maxSimdDegree ⟨tag, .aarch64⟩ = 4 from rfl, blake3SimdDegree]
    simp [Platform.simdX86, Target.isX86, Target.useNeon]
  | arm =>
    rw [show Target.maxSimdDegree ⟨tag, .arm⟩ = 1 from rfl, blake3SimdDegree]
    simp [Platform.simdX86, Target.isX86, Target.useNeon]

theorem maxSimdDegreeOr2_eq (p : Platform) : p.maxSimdDegreeOr2 = max p.maxSimdDegree 2 := by
  rw [Platform.maxSimdDegreeOr2, Target.maxSimdDegreeOr2, Platform.maxSimdDegree]
  split_ifs <;> omega

theorem degree_le_max (p : Platform) : blake3SimdDegree p ≤ p.maxSimdDegree := by
  have := degree_pairs p
  simp only [List.mem_cons, Prod.mk.injEq, List.not_mem_nil, or_false] at this
  omega

theorem degree_pos (p : Platform) : 0 < blake3SimdDegree p := by
  have := degree_pairs p
  simp only [List.mem_cons, Prod.mk.injEq, List.not_mem_nil, or_false] at this
  omega

theorem degree_eq_two_pow (p : Platform) : ∃ k, blake3SimdDegree p = 2 ^ k := by
  have := degree_pairs p
  simp only [List.mem_cons, Prod.mk.injEq, List.not_mem_nil, or_false] at this
  rcases this with h | h | h | h | h | h
  · exact ⟨0, h.1⟩
  · exact ⟨0, h.1⟩
  · exact ⟨2, h.1⟩
  · exact ⟨2, h.1⟩
  · exact ⟨3, h.1⟩
  · exact ⟨4, h.1⟩

theorem maxSimdDegreeOr2_even (p : Platform) : p.maxSimdDegreeOr2 % 2 = 0 := by
  have := degree_pairs p
  simp only [List.mem_cons, Prod.mk.injEq, List.not_mem_nil, or_false] at this
  rw [maxSimdDegreeOr2_eq]
  omega

/-! ### Agreeing kernels -/

section

variable {p : Platform} (hp : p.Agree)
include hp

theorem Platform.Agree.compressInPlace : blake3CompressInPlace p = compressInPlacePortable := by
  rw [blake3CompressInPlace, hp.compressInPlaceAvx512, hp.compressInPlaceSse41,
    hp.compressInPlaceSse2]
  simp

theorem Platform.Agree.compressXof : blake3CompressXof p = compressXofPortable := by
  rw [blake3CompressXof, hp.compressXofAvx512, hp.compressXofSse41, hp.compressXofSse2]
  simp

theorem Platform.Agree.xofMany (cv : Words 8) (block : Bytes 64) (blockLen : UInt8)
    (counter : UInt64) (flags : UInt8) (outblocks : ℕ) :
    blake3XofMany p cv block blockLen counter flags outblocks =
      xofManyLoop compressXofPortable cv block blockLen counter flags outblocks := by
  rw [blake3XofMany, hp.compressXof]
  by_cases h0 : outblocks = 0
  · subst h0
    simp [xofManyLoop]
  · rw [if_neg (by simpa using h0), hp.xofManyAvx512 _ _ _ _ _ _ (Nat.pos_of_ne_zero h0), ite_self]

theorem Platform.Agree.hashMany : (blake3HashMany p).Agrees := by
  intro inputs blocks key counter incrementCounter flags flagsStart flagsEnd hpos hlen
  have h512 := hp.hashManyAvx512 inputs blocks key counter incrementCounter flags flagsStart
    flagsEnd hpos hlen
  have h2 := hp.hashManyAvx2 inputs blocks key counter incrementCounter flags flagsStart
    flagsEnd hpos hlen
  have h41 := hp.hashManySse41 inputs blocks key counter incrementCounter flags flagsStart
    flagsEnd hpos hlen
  have hs2 := hp.hashManySse2 inputs blocks key counter incrementCounter flags flagsStart
    flagsEnd hpos hlen
  have hn := hp.hashManyNeon inputs blocks key counter incrementCounter flags flagsStart
    flagsEnd hpos hlen
  rw [blake3HashMany]
  split_ifs <;> first | assumption | rfl

end

end Blake3Kmp
