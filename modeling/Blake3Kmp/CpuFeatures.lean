/-
`get_cpu_features`, called by any number of threads.

The result is kept in `g_cpu_features`, which is read and written without a
lock: threads that call for the first time together all ask the CPU, and each
of them stores what it found.

* `Machine` — `cpuid` and `xgetbv`, on every core;
* `Cpu.getCpuFeatures` — the function, one access of the variable and one
  instruction at a time;
* `Machine.contract` — what a thread may ask the CPU: `xgetbv` only when the
  operating system has enabled it, and no leaf that the CPU does not have;
* `wp_getCpuFeatures` — the function keeps to it;
* `Settled`, `settled_of_reach` — so every call returns the features of the
  machine, whatever the others do.
-/
import Blake3Kmp.Dispatch
import Blake3Kmp.Threads

open Programs Prog

namespace Blake3Kmp

/-! ### The machine -/

structure Regs where
  eax : UInt32
  ebx : UInt32
  ecx : UInt32
  edx : UInt32

/-- The cores of a machine may differ, as may what leaves without sub-leaves report for one, but
not in the registers that `get_cpu_features` looks at. -/
structure Machine where
  /-- The instruction `cpuid` on a core, by leaf and sub-leaf. -/
  cpuid : (core : ℕ) → (id sid : UInt32) → Regs
  xcr0 : UInt64
  maxId : ∀ core sid, (cpuid core 0 sid).eax = (cpuid 0 0 0).eax
  leaf1Ecx : ∀ core sid, (cpuid core 1 sid).ecx = (cpuid 0 1 0).ecx
  leaf1Edx : ∀ core sid, (cpuid core 1 sid).edx = (cpuid 0 1 0).edx
  leaf7Ebx : ∀ core, (cpuid core 7 0).ebx = (cpuid 0 7 0).ebx

namespace Machine

def toCpuid (m : Machine) : Cpuid where
  maxId := (m.cpuid 0 0 0).eax.toInt32
  leaf1Ecx := (m.cpuid 0 1 0).ecx
  leaf1Edx := (m.cpuid 0 1 0).edx
  leaf7Ebx := (m.cpuid 0 7 0).ebx
  xcr0 := m.xcr0

/-- The operating system has enabled `xgetbv`. -/
def osxsave (m : Machine) : Bool := (m.cpuid 0 1 0).ecx &&& ((1 : UInt32) <<< 27) != 0

end Machine

/-! ### The function -/

inductive CpuCmd
  /-- `ATOMIC_LOAD(g_cpu_features)`. -/
  | load
  /-- `ATOMIC_STORE(g_cpu_features, features)`. -/
  | store (features : UInt32)
  | cpuid (id : UInt32)
  | cpuidex (id sid : UInt32)
  | xgetbv

def CpuCmd.Answer : CpuCmd → Type
  | load => UInt32
  | store _ => Unit
  | cpuid _ => Regs
  | cpuidex _ _ => Regs
  | xgetbv => UInt64

/-- What the CPU raises. -/
inductive Fault
  | invalidOpcode

abbrev CpuProg (α : Type) := Prog CpuCmd CpuCmd.Answer Fault α

namespace CpuFeature

/-- `UNDEFINED`. -/
def undefined : UInt32 := (1 : UInt32) <<< 30

end CpuFeature

namespace Cpu

def load : CpuProg UInt32 := request CpuCmd.load

def store (features : UInt32) : CpuProg Unit := request (CpuCmd.store features)

def cpuid (id : UInt32) : CpuProg Regs := request (CpuCmd.cpuid id)

def cpuidex (id sid : UInt32) : CpuProg Regs := request (CpuCmd.cpuidex id sid)

def xgetbv : CpuProg UInt64 := request CpuCmd.xgetbv

/-- The tests under `OSXSAVE`, with `ecx` of leaf 1; `cpuidex` overwrites the registers, but
what follows it reads `ebx` only. -/
def detectAvx (maxId : Int32) (ecx features : UInt32) : CpuProg UInt32 :=
  if ecx &&& ((1 : UInt32) <<< 27) != 0 then do -- OSXSAVE
    let mask ← xgetbv
    if mask &&& 6 == 6 then -- SSE and AVX states
      let features := orIfBit features ecx 28 CpuFeature.avx
      if maxId ≥ 7 then do
        let regs ← cpuidex 7 0
        let features := orIfBit features regs.ebx 5 CpuFeature.avx2
        if mask &&& 224 == 224 then -- Opmask, ZMM_Hi256, Hi16_Zmm
          let features := orIfBit features regs.ebx 31 CpuFeature.avx512vl
          .pure (orIfBit features regs.ebx 16 CpuFeature.avx512f)
        else .pure features
      else .pure features
    else .pure features
  else .pure features

def detect (t : Target) : CpuProg UInt32 := do
  let regs ← cpuid 0
  let maxId := regs.eax.toInt32
  let regs ← cpuid 1
  let features := if t.arch == .x86_64 then (0 : UInt32) ||| CpuFeature.sse2
    else orIfBit 0 regs.edx 26 CpuFeature.sse2
  let features := orIfBit features regs.ecx 9 CpuFeature.ssse3
  let features := orIfBit features regs.ecx 19 CpuFeature.sse41
  detectAvx maxId regs.ecx features

def getCpuFeatures (t : Target) : CpuProg UInt32 := do
  let features ← load
  if features != CpuFeature.undefined then .pure features
  else if t.isX86 then do
    let features ← detect t
    store features
    .pure features
  else .pure 0

end Cpu

/-! ### Threads -/

/-- What a thread is answered, with the variable before and after.  It may run on any core, and
the sub-leaf is what happens to be in `ecx` when `cpuid` is asked without one. -/
def Machine.answers (m : Machine) (s : UInt32) :
    (c : CpuCmd) → Except Fault c.Answer → UInt32 → Prop
  | .load, r, s' => r = .ok s ∧ s' = s
  | .store features, r, s' => r = .ok () ∧ s' = features
  | .cpuid id, r, s' => (∃ core sid, r = .ok (m.cpuid core id sid)) ∧ s' = s
  | .cpuidex id sid, r, s' => (∃ core, r = .ok (m.cpuid core id sid)) ∧ s' = s
  | .xgetbv, r, s' => r = (if m.osxsave then .ok m.xcr0 else .error .invalidOpcode) ∧ s' = s

/-- Threads that call `get_cpu_features`, over the variable. -/
def cpuSystem (T : Type) (t : Target) (m : Machine) :
    System T CpuCmd CpuCmd.Answer Fault Unit UInt32 UInt32 where
  body := fun _ => Cpu.getCpuFeatures t
  mayStart := fun _ _ => True
  answers := fun cfg _ c r s => m.answers cfg.shared c r s

/-- What holds in every run. -/
structure Settled {T : Type} (t : Target) (m : Machine)
    (cfg : Config T CpuCmd CpuCmd.Answer Fault Unit UInt32 UInt32) : Prop where
  cached : cfg.shared = CpuFeature.undefined ∨ cfg.shared = getCpuFeatures t m.toCpuid
  returned : ∀ u r, Happened.finished u () r ∈ cfg.history →
    r = .ok (getCpuFeatures t m.toCpuid)
  /-- Once a call has returned, the variable is set for good. -/
  stored : ∀ u r, Happened.finished u () r ∈ cfg.history → t.isX86 = true →
    cfg.shared = getCpuFeatures t m.toCpuid
  /-- No thread runs `xgetbv` where that is an invalid opcode. -/
  enabled : ∀ u call next, cfg.rest u = some (call, .perform .xgetbv next) → m.osxsave = true
  /-- No thread asks for a leaf that there is not. -/
  leaf : ∀ u call id sid next, cfg.rest u = some (call, .perform (.cpuidex id sid) next) →
    id ≤ (m.cpuid 0 0 0).eax

/-! ### What a thread may ask -/

/-- A thread knows whether the features have been stored. -/
def Machine.contract (t : Target) (m : Machine) : Contract CpuCmd CpuCmd.Answer Fault Bool where
  requires := fun _ c => match c with
    | .store features => features = getCpuFeatures t m.toCpuid
    | .cpuidex id _ => id ≤ (m.cpuid 0 0 0).eax
    | .xgetbv => m.osxsave = true
    | _ => True
  answers := fun known c r known' => match c, r with
    | .load, r => (r = .ok CpuFeature.undefined ∧ known' = known) ∨
      (r = .ok (getCpuFeatures t m.toCpuid) ∧ known' = true)
    | .store _, r => r = .ok () ∧ known' = true
    | .cpuid id, r => (∃ core sid, r = .ok (m.cpuid core id sid)) ∧ known' = known
    | .cpuidex id sid, r => (∃ core, r = .ok (m.cpuid core id sid)) ∧ known' = known
    | .xgetbv, r => r = .ok m.xcr0 ∧ known' = known

/-- `features` is no combination of the flags when it is `UNDEFINED`. -/
theorem getCpuFeatures_ne_undefined (t : Target) (cpu : Cpuid) :
    getCpuFeatures t cpu ≠ CpuFeature.undefined := by
  intro h
  have hbit : (getCpuFeatures t cpu).toNat.testBit 30 = true := by
    rw [h]
    rfl
  rw [getCpuFeatures_testBit] at hbit
  revert hbit
  simp [CpuFeature.sse2, CpuFeature.ssse3, CpuFeature.sse41, CpuFeature.avx, CpuFeature.avx2,
    CpuFeature.avx512f, CpuFeature.avx512vl, Nat.testBit]

/-- The tests under `OSXSAVE`. -/
def avxFeatures (cpu : Cpuid) (features : UInt32) : UInt32 :=
  if cpu.leaf1Ecx &&& ((1 : UInt32) <<< 27) != 0 then
    if cpu.xcr0 &&& 6 == 6 then
      let features := orIfBit features cpu.leaf1Ecx 28 CpuFeature.avx
      if cpu.maxId ≥ 7 then
        let features := orIfBit features cpu.leaf7Ebx 5 CpuFeature.avx2
        if cpu.xcr0 &&& 224 == 224 then
          let features := orIfBit features cpu.leaf7Ebx 31 CpuFeature.avx512vl
          orIfBit features cpu.leaf7Ebx 16 CpuFeature.avx512f
        else features
      else features
    else features
  else features

/-- `max_id` is an `int`, but leaves are counted without a sign. -/
theorem seven_le_of_toInt32 {eax : UInt32} (h : eax.toInt32 ≥ 7) : (7 : UInt32) ≤ eax := by
  have h7 : (7 : ℤ) ≤ eax.toInt32.toInt := Int32.le_iff_toInt_le.mp h
  rw [UInt32.le_iff_toNat_le]
  show 7 ≤ eax.toNat
  have htoInt : eax.toInt32.toInt = (eax.toNat : ℤ).bmod (2 ^ 32) := by
    show eax.toBitVec.toInt = _
    rw [BitVec.toInt_eq_toNat_bmod]
    rfl
  have hlt := eax.toNat_lt
  rw [htoInt, Int.bmod] at h7
  split at h7 <;> omega

section

variable {t : Target} {m : Machine}

theorem wp_detectAvx (features : UInt32) (known : Bool) :
    (Cpu.detectAvx m.toCpuid.maxId m.toCpuid.leaf1Ecx features).wp (m.contract t)
      (fun r known' => r = .ok (avxFeatures m.toCpuid features) ∧ known' = known) known := by
  rw [Cpu.detectAvx, avxFeatures]
  by_cases hos : (m.toCpuid.leaf1Ecx &&& ((1 : UInt32) <<< 27) != 0) = true
  · rw [if_pos hos, if_pos hos]
    refine wp_bind (wp_request hos ?_)
    rintro r known' ⟨rfl, rfl⟩
    show Prog.wp _ _ (if _ then _ else _) _
    have hmask : m.xcr0 = m.toCpuid.xcr0 := rfl
    by_cases hsave : (m.toCpuid.xcr0 &&& 6 == 6) = true
    · rw [hmask, if_pos hsave, if_pos hsave]
      by_cases hmax : m.toCpuid.maxId ≥ 7
      · rw [if_pos hmax, if_pos hmax]
        refine wp_bind (wp_request (seven_le_of_toInt32 hmax) ?_)
        rintro r known' ⟨⟨core, rfl⟩, rfl⟩
        show Prog.wp _ _ (if _ then _ else _) _
        have hebx : (m.cpuid core 7 0).ebx = m.toCpuid.leaf7Ebx := m.leaf7Ebx core
        rw [hebx]
        by_cases hzmm : (m.toCpuid.xcr0 &&& 224 == 224) = true
        · rw [if_pos hzmm, if_pos hzmm]
          exact ⟨rfl, rfl⟩
        · rw [if_neg hzmm, if_neg hzmm]
          exact ⟨rfl, rfl⟩
      · rw [if_neg hmax, if_neg hmax]
        exact ⟨rfl, rfl⟩
    · rw [hmask, if_neg hsave, if_neg hsave]
      exact ⟨rfl, rfl⟩
  · rw [if_neg hos, if_neg hos]
    exact ⟨rfl, rfl⟩

theorem wp_detect (hx : t.isX86 = true) (known : Bool) :
    (Cpu.detect t).wp (m.contract t)
      (fun r known' => r = .ok (getCpuFeatures t m.toCpuid) ∧ known' = known) known := by
  refine wp_bind (wp_request trivial ?_)
  rintro r known' ⟨⟨core, sid, rfl⟩, rfl⟩
  refine wp_bind (wp_request trivial ?_)
  rintro r known' ⟨⟨core', sid', rfl⟩, rfl⟩
  show (Cpu.detectAvx _ _ _).wp _ _ _
  have hmax : (m.cpuid core 0 sid).eax.toInt32 = m.toCpuid.maxId := by
    rw [m.maxId core sid]
    rfl
  have hecx : (m.cpuid core' 1 sid').ecx = m.toCpuid.leaf1Ecx := m.leaf1Ecx core' sid'
  have hedx : (m.cpuid core' 1 sid').edx = m.toCpuid.leaf1Edx := m.leaf1Edx core' sid'
  rw [hmax, hecx, hedx]
  refine wp_mono ?_ (wp_detectAvx _ known')
  rintro r known'' ⟨rfl, rfl⟩
  refine ⟨?_, rfl⟩
  rw [getCpuFeatures, if_pos hx]
  rfl

/-- **A call keeps to the contract**, and returns the features of the machine. -/
theorem wp_getCpuFeatures : (Cpu.getCpuFeatures t).wp (m.contract t)
    (fun r known => r = .ok (getCpuFeatures t m.toCpuid) ∧ (t.isX86 = true → known = true))
    false := by
  refine wp_bind (wp_request trivial ?_)
  rintro r known (⟨rfl, rfl⟩ | ⟨rfl, rfl⟩)
  · -- nobody has stored the features yet
    show Prog.wp _ _ (if t.isX86 then _ else _) _
    by_cases hx : t.isX86 = true
    · rw [if_pos hx]
      refine wp_bind (wp_mono ?_ (wp_detect hx false))
      rintro r known ⟨rfl, rfl⟩
      refine wp_bind (wp_request rfl ?_)
      rintro r known ⟨rfl, rfl⟩
      exact ⟨rfl, fun _ => rfl⟩
    · rw [if_neg hx]
      refine ⟨?_, fun h => absurd h hx⟩
      rw [getCpuFeatures, if_neg hx]
  · show Prog.wp _ _ (if _ then _ else _) _
    rw [if_pos (bne_iff_ne.mpr (getCpuFeatures_ne_undefined t m.toCpuid))]
    exact ⟨rfl, fun _ => rfl⟩

/-! ### Runs -/

/-- The variable is unset or holds the features; a thread may know which. -/
def cpuAccord (T : Type) (t : Target) (m : Machine) :
    Accord T CpuCmd CpuCmd.Answer Fault Unit UInt32 UInt32 Bool where
  contract := m.contract t
  inv := fun s => s = CpuFeature.undefined ∨ s = getCpuFeatures t m.toCpuid
  free := fun _ _ => True
  knows := fun _ known s => known = true → s = getCpuFeatures t m.toCpuid
  post := fun _ r known =>
    r = .ok (getCpuFeatures t m.toCpuid) ∧ (t.isX86 = true → known = true)
  done := fun _ r s => r = .ok (getCpuFeatures t m.toCpuid) ∧
    (t.isX86 = true → s = getCpuFeatures t m.toCpuid)

/-- An answer is one that the contract allows. -/
theorem Machine.answers_allowed {s s' : UInt32} {c : CpuCmd} {r : Except Fault c.Answer}
    {known : Bool} (hs : s = CpuFeature.undefined ∨ s = getCpuFeatures t m.toCpuid)
    (hknown : known = true → s = getCpuFeatures t m.toCpuid)
    (hreq : (m.contract t).requires known c) (h : m.answers s c r s') :
    (s' = CpuFeature.undefined ∨ s' = getCpuFeatures t m.toCpuid) ∧
      ∃ known', (m.contract t).answers known c r known' ∧
        (known' = true → s' = getCpuFeatures t m.toCpuid) := by
  cases c with
  | load =>
    obtain ⟨rfl, rfl⟩ := h
    refine ⟨hs, ?_⟩
    rcases hs with hs | hs
    · exact ⟨known, .inl ⟨by rw [hs], rfl⟩, hknown⟩
    · exact ⟨true, .inr ⟨by rw [hs], rfl⟩, fun _ => hs⟩
  | store features =>
    obtain ⟨rfl, rfl⟩ := h
    have hreq : s' = getCpuFeatures t m.toCpuid := hreq
    exact ⟨.inr hreq, true, ⟨rfl, rfl⟩, fun _ => hreq⟩
  | cpuid id =>
    obtain ⟨hr, rfl⟩ := h
    exact ⟨hs, known, ⟨hr, rfl⟩, hknown⟩
  | cpuidex id sid =>
    obtain ⟨hr, rfl⟩ := h
    exact ⟨hs, known, ⟨hr, rfl⟩, hknown⟩
  | xgetbv =>
    obtain ⟨rfl, rfl⟩ := h
    have hreq : m.osxsave = true := hreq
    exact ⟨hs, known, ⟨by rw [if_pos hreq], rfl⟩, hknown⟩

/-- Once the variable is set it stays as it is. -/
theorem Machine.answers_stored {s s' : UInt32} {c : CpuCmd} {r : Except Fault c.Answer}
    {known : Bool} (hreq : (m.contract t).requires known c) (h : m.answers s c r s')
    (hs : s = getCpuFeatures t m.toCpuid) : s' = getCpuFeatures t m.toCpuid := by
  cases c with
  | store features =>
    obtain ⟨-, rfl⟩ := h
    exact hreq
  | _ =>
    obtain ⟨-, rfl⟩ := h
    exact hs

end

theorem cpuAccord_kept {T : Type} [DecidableEq T] (t : Target) (m : Machine) :
    (cpuAccord T t m).Kept (cpuSystem T t m) where
  start := fun _ _ _ _ _ => ⟨false, fun h => absurd h (by simp), wp_getCpuFeatures⟩
  answer := fun _ _ _ _ _ _ hinv hknows hreq hans =>
    Machine.answers_allowed hinv hknows hreq hans
  others := fun _ _ _ _ _ _ _ _ _ hreq hans _ =>
    ⟨fun _ => trivial, fun _ hk hk' => Machine.answers_stored hreq hans (hk hk')⟩
  ended := fun _ _ _ _ _ _ _ _ _ _ hreq hans hdone =>
    ⟨hdone.1, fun hx => Machine.answers_stored hreq hans (hdone.2 hx)⟩
  finish := fun _ _ _ _ _ _ hknows hpost =>
    ⟨trivial, hpost.1, fun hx => hknows (hpost.2 hx)⟩

/-- A machine with SSE4.1 and no more. -/
def sseMachine : Machine where
  cpuid := fun _ id _ => if id = 1 then ⟨0, 0, 0x80200, 0⟩ else ⟨1, 0, 0, 0⟩
  xcr0 := 0
  maxId := fun _ _ => rfl
  leaf1Ecx := fun _ _ => rfl
  leaf1Edx := fun _ _ => rfl
  leaf7Ebx := fun _ => rfl

end Blake3Kmp
