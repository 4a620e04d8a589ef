/-
The functions of `blake3.h`, in any mode and order.

The JNI and FFM modules use two of the four ways to initialise a hasher, and
read its output from the start only.  Here is the whole interface: key
derivation, and output from any position on.

* `blake3HasherInitDeriveKeyRaw`, `blake3HasherInitDeriveKey` — key derivation:
  the key is the digest of the context string;
* `Mode` — the four initialisations; `Mode.root` — the root of the reference
  tree in each;
* `apiRun` — a run of calls on one hasher, with the arrays it has written;
  `refRun` — the same calls on the message itself;
* `apiRun_only_supported` — kernels that the CPU cannot run play no part;
* `apiRun_eq_reference` — every run writes what the reference says.
-/
import Blake3Kmp.Dispatch
import Blake3Kmp.Stream

open CheckedMemory

namespace Blake3Kmp

/-! ### Key derivation -/

/-- What is in the memory of the local variables `context_hasher` and `context_key`. -/
structure DeriveKeyLocals where
  contextHasher : Hasher
  contextKey : Bytes 32

def blake3HasherInitDeriveKeyRaw (p : Platform) (self : Hasher) (locals : DeriveKeyLocals)
    (context : List UInt8) : Option Hasher := do
  let contextHasher := hasherInitBase locals.contextHasher iv Flags.deriveKeyContext
  let contextHasher ← blake3HasherUpdate p contextHasher context
  let contextKey ← blake3HasherFinalize p contextHasher locals.contextKey.toList 0 32
  let contextKey ← keyBytes contextKey
  some (hasherInitBase self (loadKeyWords contextKey) Flags.deriveKeyMaterial)

/-- `strlen(s)`; `s` is the memory from the pointer on, which needs a zero byte. -/
def strlen (s : List UInt8) : Option ℕ :=
  if 0 ∈ s then some (s.takeWhile (· != 0)).length else none

def blake3HasherInitDeriveKey (p : Platform) (self : Hasher) (locals : DeriveKeyLocals)
    (context : List UInt8) : Option Hasher := do
  let len ← strlen context
  blake3HasherInitDeriveKeyRaw p self locals (← readSlice context 0 len)

/-! ### Runs -/

/-- How a hasher is initialised. -/
inductive Mode
  | hash
  | keyed (key : Bytes 32)
  | deriveKeyRaw (context : List UInt8)
  /-- The memory from the pointer `context` on. -/
  | deriveKey (context : List UInt8)

def Mode.init (p : Platform) (self : Hasher) (locals : DeriveKeyLocals) : Mode → Option Hasher
  | hash => some (blake3HasherInit self)
  | keyed key => some (blake3HasherInitKeyed self key)
  | deriveKeyRaw context => blake3HasherInitDeriveKeyRaw p self locals context
  | deriveKey context => blake3HasherInitDeriveKey p self locals context

inductive ApiOp
  | update (input : List UInt8)
  /-- The destination is `&out[pos]`. -/
  | finalize (out : List UInt8) (pos outLen : ℕ)
  | finalizeSeek (seek : UInt64) (out : List UInt8) (pos outLen : ℕ)
  | reset

/-- One call: the hasher after it, and the array written. -/
def apiStep (p : Platform) (self : Hasher) : ApiOp → Option (Hasher × Option (List UInt8))
  | .update input => do some (← blake3HasherUpdate p self input, none)
  | .finalize out pos outLen => do some (self, some (← blake3HasherFinalize p self out pos outLen))
  | .finalizeSeek seek out pos outLen => do
    some (self, some (← blake3HasherFinalizeSeek p self seek out pos outLen))
  | .reset => some (blake3HasherReset self, none)

/-- The hasher after the calls, and the arrays written. -/
def apiRun (p : Platform) (self : Hasher) : List ApiOp → Option (Hasher × List (List UInt8))
  | [] => some (self, [])
  | op :: ops => do
    let (self, out) ← apiStep p self op
    let (self, outs) ← apiRun p self ops
    some (self, out.toList ++ outs)

/-! ### The reference -/

/-- The key that a context string derives. -/
def contextKey (context : List UInt8) : Bytes 32 :=
  ⟨(digest iv Flags.deriveKeyContext context 32).toArray, by simp⟩

namespace Mode

def keyWords : Mode → Words 8
  | hash => iv
  | keyed key => loadKeyWords key
  | deriveKeyRaw context => loadKeyWords (contextKey context)
  | deriveKey context => loadKeyWords (contextKey (context.takeWhile (· != 0)))

def flags : Mode → UInt8
  | hash => 0
  | keyed _ => Flags.keyedHash
  | deriveKeyRaw _ => Flags.deriveKeyMaterial
  | deriveKey _ => Flags.deriveKeyMaterial

/-- The root over a message. -/
def root (mode : Mode) (m : List UInt8) : Output := subtreeOutput mode.keyWords mode.flags 0 m

/-- What the caller promises: a context of less than `2 ^ 64` bytes, and a zero byte at the end
of a string. -/
def Valid : Mode → Prop
  | hash => True
  | keyed _ => True
  | deriveKeyRaw context => context.length < 2 ^ 64
  | deriveKey context => 0 ∈ context ∧ context.length < 2 ^ 64

end Mode

/-- One call on the message itself. -/
def refStep (root : List UInt8 → Output) (m : List UInt8) :
    ApiOp → Option (List UInt8 × Option (List UInt8))
  | .update input => some (m ++ input, none)
  | .finalize out pos outLen => do some (m, some (← writeSlice out pos (rootSlice (root m) 0 outLen)))
  | .finalizeSeek seek out pos outLen => do
    some (m, some (← writeSlice out pos (rootSlice (root m) seek.toNat outLen)))
  | .reset => some ([], none)

def refRun (root : List UInt8 → Output) (m : List UInt8) :
    List ApiOp → Option (List UInt8 × List (List UInt8))
  | [] => some (m, [])
  | op :: ops => do
    let (m, out) ← refStep root m op
    let (m, outs) ← refRun root m ops
    some (m, out.toList ++ outs)

/-- What the callers promise of `n` bytes and the calls to come. -/
def ApiOp.Admitted (n : ℕ) : List ApiOp → Prop
  | [] => True
  | .update input :: ops => n + input.length < 2 ^ 64 ∧ Admitted (n + input.length) ops
  | .finalize out pos outLen :: ops => pos + outLen ≤ out.length ∧ Admitted n ops
  | .finalizeSeek _ out pos outLen :: ops => pos + outLen ≤ out.length ∧ Admitted n ops
  | .reset :: ops => Admitted 0 ops

section

variable {p : Platform} (hp : p.Agree)
include hp

/-- One step: the hasher goes on to hold the message, and writes what the reference does. -/
theorem apiStep_absorbed {key : Words 8} {flags : UInt8} {h : Hasher} {m : List UInt8}
    (hm : h.Absorbed key flags m) {op : ApiOp} {ops : List ApiOp}
    (hops : ApiOp.Admitted m.length (op :: ops)) :
    ∃ h' m' out, apiStep p h op = some (h', out) ∧
      refStep (subtreeOutput key flags 0) m op = some (m', out) ∧
      h'.Absorbed key flags m' ∧ ApiOp.Admitted m'.length ops := by
  cases op with
  | update input =>
    obtain ⟨hlt, hrest⟩ := hops
    obtain ⟨h', hupd, hm'⟩ := blake3HasherUpdate_absorbed hp hm hlt
    refine ⟨h', m ++ input, none, ?_, rfl, hm', by rwa [List.length_append]⟩
    rw [apiStep, hupd]
    rfl
  | finalize out pos outLen =>
    obtain ⟨hle, hrest⟩ := hops
    obtain ⟨out', hout⟩ := exists_writeSlice (digest key flags m outLen)
      (show pos + _ ≤ out.length by rwa [digest_length])
    refine ⟨h, m, some out', ?_, ?_, hm, hrest⟩
    · rw [apiStep, blake3HasherFinalize_eq hp hm hle, hout]
      rfl
    · rw [refStep, ← digest, hout]
      rfl
  | finalizeSeek seek out pos outLen =>
    obtain ⟨hle, hrest⟩ := hops
    obtain ⟨out', hout⟩ := exists_writeSlice
      (rootSlice (subtreeOutput key flags 0 m) seek.toNat outLen)
      (show pos + _ ≤ out.length by rwa [rootSlice_length])
    refine ⟨h, m, some out', ?_, ?_, hm, hrest⟩
    · rw [apiStep, blake3HasherFinalizeSeek_eq hp hm seek hle, hout]
      rfl
    · rw [refStep, hout]
      rfl
  | reset => exact ⟨_, [], none, rfl, rfl, blake3HasherReset_absorbed hm, hops⟩

theorem apiRun_absorbed {key : Words 8} {flags : UInt8} {h : Hasher} {m : List UInt8}
    (hm : h.Absorbed key flags m) {ops : List ApiOp} (hops : ApiOp.Admitted m.length ops) :
    ∃ h' m' outs, apiRun p h ops = some (h', outs) ∧
      refRun (subtreeOutput key flags 0) m ops = some (m', outs) := by
  induction ops generalizing h m with
  | nil => exact ⟨h, m, [], rfl, rfl⟩
  | cons op ops ih =>
    obtain ⟨h₁, m₁, out, hstep, href, hm₁, hops₁⟩ := apiStep_absorbed hp hm hops
    obtain ⟨h₂, m₂, outs, hrun, href₂⟩ := ih hm₁ hops₁
    refine ⟨h₂, m₂, out.toList ++ outs, ?_, ?_⟩
    · rw [apiRun, hstep]
      simp only [Option.bind_eq_bind, Option.bind_some, hrun]
    · rw [refRun, href]
      simp only [Option.bind_eq_bind, Option.bind_some, href₂]

/-- Key derivation leaves a hasher keyed with the digest of the context. -/
theorem blake3HasherInitDeriveKeyRaw_absorbed (self : Hasher) (locals : DeriveKeyLocals)
    {context : List UInt8} (hlt : context.length < 2 ^ 64) :
    ∃ h, blake3HasherInitDeriveKeyRaw p self locals context = some h ∧
      h.Absorbed (loadKeyWords (contextKey context)) Flags.deriveKeyMaterial [] := by
  obtain ⟨h, hupd, hm⟩ := blake3HasherUpdate_absorbed hp
    (hasherInitBase_absorbed locals.contextHasher iv Flags.deriveKeyContext)
    (show ([] : List UInt8).length + context.length < 2 ^ 64 by simpa using hlt)
  have hfin : blake3HasherFinalize p h locals.contextKey.toList 0 32 =
      some (digest iv Flags.deriveKeyContext context 32) := by
    rw [blake3HasherFinalize_eq hp hm (by simp), writeSlice_eq_some (by simp), List.take_zero,
      List.nil_append, digest_length, List.drop_eq_nil_of_le (by simp), List.append_nil,
      List.nil_append]
  refine ⟨_, ?_, hasherInitBase_absorbed self (loadKeyWords (contextKey context))
    Flags.deriveKeyMaterial⟩
  rw [blake3HasherInitDeriveKeyRaw, hupd]
  simp only [Option.bind_eq_bind, Option.bind_some, hfin]
  rw [keyBytes, dif_pos (digest_length _ _ _ _)]
  rfl

theorem Mode.init_absorbed (mode : Mode) (hmode : mode.Valid) (self : Hasher)
    (locals : DeriveKeyLocals) :
    ∃ h, mode.init p self locals = some h ∧ h.Absorbed mode.keyWords mode.flags [] := by
  cases mode with
  | hash => exact ⟨_, rfl, blake3HasherInit_absorbed self⟩
  | keyed key => exact ⟨_, rfl, blake3HasherInitKeyed_absorbed self key⟩
  | deriveKeyRaw context => exact blake3HasherInitDeriveKeyRaw_absorbed hp self locals hmode
  | deriveKey context =>
    obtain ⟨hzero, hlt⟩ := hmode
    have hprefix : context.takeWhile (· != 0) <+: context := List.takeWhile_prefix _
    have hle := hprefix.length_le
    obtain ⟨h, hraw, hm⟩ := blake3HasherInitDeriveKeyRaw_absorbed hp self locals
      (hle.trans_lt hlt)
    refine ⟨h, ?_, hm⟩
    rw [Mode.init, blake3HasherInitDeriveKey, strlen, if_pos hzero]
    simp only [Option.bind_eq_bind, Option.bind_some]
    rw [readSlice_eq_some (by omega), List.drop_zero, Option.bind_some,
      ← List.prefix_iff_eq_take.mp hprefix, hraw]

end

/-! ### Every CPU -/

namespace Platform.Same

variable {p q : Platform} (h : p.Same q)
include h

theorem modeInit (mode : Mode) (self : Hasher) (locals : DeriveKeyLocals) :
    mode.init p self locals = mode.init q self locals := by
  have hraw : blake3HasherInitDeriveKeyRaw p self locals =
      blake3HasherInitDeriveKeyRaw q self locals := by
    funext context
    simp only [blake3HasherInitDeriveKeyRaw, blake3HasherFinalize, h.blake3HasherUpdate,
      h.blake3HasherFinalizeSeek]
  cases mode with
  | hash => rfl
  | keyed key => rfl
  | deriveKeyRaw context => exact congrFun hraw context
  | deriveKey context =>
    rw [Mode.init, blake3HasherInitDeriveKey, hraw]
    rfl

theorem apiRun (self : Hasher) (ops : List ApiOp) : apiRun p self ops = apiRun q self ops := by
  have hstep : apiStep p = apiStep q := by
    funext self op
    cases op with
    | update input => rw [apiStep, h.blake3HasherUpdate]; rfl
    | finalize out pos outLen =>
      rw [apiStep, blake3HasherFinalize, h.blake3HasherFinalizeSeek]
      rfl
    | finalizeSeek seek out pos outLen => rw [apiStep, h.blake3HasherFinalizeSeek]; rfl
    | reset => rfl
  induction ops generalizing self with
  | nil => rfl
  | cons op ops ih =>
    rw [Blake3Kmp.apiRun, Blake3Kmp.apiRun, hstep]
    refine bind_congr fun r => ?_
    obtain ⟨self', out⟩ := r
    dsimp only
    rw [ih]

end Platform.Same

/-- **No kernel is run that the CPU cannot run**: exchanging such kernels changes no hasher and
no output, whatever they do, and whatever the others do. -/
theorem apiRun_only_supported {t : Target} {cpu : Cpuid} {k k' : Kernels}
    (h : k.SameWhereRun t cpu k') :
    (∀ (mode : Mode) self locals, mode.init ⟨t, cpu, k⟩ self locals =
      mode.init ⟨t, cpu, k'⟩ self locals) ∧
    ∀ self ops, apiRun ⟨t, cpu, k⟩ self ops = apiRun ⟨t, cpu, k'⟩ self ops := by
  have hsame := dispatch_same h
  exact ⟨hsame.modeInit, hsame.apiRun⟩

/-- The portable kernels, but for those of AVX2 and AVX-512, which do anything. -/
def sseKernels : Kernels :=
  { portableKernels with
    compressInPlaceAvx512 := fun cv _ _ _ _ => cv
    compressXofAvx512 := fun _ block _ _ _ => block
    xofManyAvx512 := fun _ _ _ _ _ _ => []
    hashManyAvx2 := fun _ _ _ _ _ _ _ _ => none
    hashManyAvx512 := fun _ _ _ _ _ _ _ _ => none }

/-- A CPU that reports no more than SSE4.1 cannot tell. -/
theorem sseKernels_same :
    sseKernels.SameWhereRun linuxPortable.target linuxPortable.cpu portableKernels := by
  have hos : ¬ Target.SavesAvx linuxPortable.cpu := fun h => absurd h.1 (by decide)
  constructor
  · exact fun _ => rfl
  · exact fun _ => rfl
  · exact fun h => absurd h.2.1.1 hos
  · exact fun _ => rfl
  · exact fun _ => rfl
  · exact fun h => absurd h.2.1.1 hos
  · exact fun h => absurd h.2.1.1 hos
  · exact fun _ => rfl
  · exact fun _ => rfl
  · exact fun h => absurd h.2.1 hos
  · exact fun h => absurd h.2.1.1 hos
  · exact fun _ => rfl

theorem apiRun_only_supported_sse :
    apiRun ⟨linuxPortable.target, linuxPortable.cpu, sseKernels⟩ zeroedHasher
        [.update (List.replicate 5000 7), .finalizeSeek 1000 (List.replicate 40 0) 8 32] =
      apiRun linuxPortable zeroedHasher
        [.update (List.replicate 5000 7), .finalizeSeek 1000 (List.replicate 40 0) 8 32] :=
  (apiRun_only_supported sseKernels_same).2 _ _

/-- **The whole interface computes BLAKE3.**  In each of the four modes, from memory with
anything in it, and on each CPU of which the kernels that it can run agree with the portable
functions: every run of calls is defined, and the arrays it writes are those of the reference
tree over the bytes since the last reset, from any position of the output on. -/
theorem apiRun_eq_reference {p : Platform} (hp : p.AgreeWhereRun) (mode : Mode)
    (hmode : mode.Valid) (self : Hasher) (locals : DeriveKeyLocals) (ops : List ApiOp)
    (hops : ApiOp.Admitted 0 ops) :
    ∃ h h' m outs, mode.init p self locals = some h ∧ apiRun p h ops = some (h', outs) ∧
      refRun mode.root [] ops = some (m, outs) := by
  obtain ⟨q, hq, hsame⟩ := hp.same
  obtain ⟨h, hinit, hm⟩ := Mode.init_absorbed hq mode hmode self locals
  obtain ⟨h', m, outs, hrun, href⟩ := apiRun_absorbed hq hm hops
  refine ⟨h, h', m, outs, ?_, ?_, href⟩
  · rw [hsame.modeInit, hinit]
  · rw [hsame.apiRun, hrun]

/-- A key derived from `"abc"`, on a CPU without AVX. -/
theorem apiRun_eq_reference_abc :
    ∃ h h' m outs,
      (Mode.deriveKey [97, 98, 99, 0]).init
        ⟨linuxPortable.target, linuxPortable.cpu, sseKernels⟩ zeroedHasher
        ⟨zeroedHasher, Vector.replicate 32 0⟩ = some h ∧
      apiRun ⟨linuxPortable.target, linuxPortable.cpu, sseKernels⟩ h
        [.update [1, 2, 3], .finalizeSeek 70 (List.replicate 40 0) 8 32, .reset] =
          some (h', outs) ∧
      refRun (Mode.deriveKey [97, 98, 99, 0]).root []
        [.update [1, 2, 3], .finalizeSeek 70 (List.replicate 40 0) 8 32, .reset] =
          some (m, outs) :=
  apiRun_eq_reference (p := ⟨linuxPortable.target, linuxPortable.cpu, sseKernels⟩)
    ⟨portableKernels, portableKernels_agree, sseKernels_same⟩ (.deriveKey [97, 98, 99, 0])
    ⟨by decide, by decide⟩ zeroedHasher ⟨zeroedHasher, Vector.replicate 32 0⟩
    [.update [1, 2, 3], .finalizeSeek 70 (List.replicate 40 0) 8 32, .reset]
    ⟨by decide, by decide, trivial⟩

end Blake3Kmp
