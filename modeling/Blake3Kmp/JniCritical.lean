/-
The native functions of `Blake3Kmp.c`, one JNI call at a time.

`Jni.lean` gives the effect of each native function at once.  Here they are
programs that ask the JVM for every step.  Between `GetPrimitiveArrayCritical`
and `ReleasePrimitiveArrayCritical` no other JNI function may be called, and
what C reads and writes is the array itself or a copy of it, as the JVM likes;
a copy is written back or thrown away as the release says.

* `Jvm`, `JvmChoice.answer` — the arrays, the native heap, the region a thread
  is in, and what the JVM answers;
* `jniContract` — what a native function may ask for, and when;
* `NativeC.hash` and its siblings — the native functions;
* `Refines` — a program keeps to the contract, leaves no region open, and has
  the outcome and effect given;
* `NativeFn.refines` — each native function does what `Jni.lean` says, whether
  the JVM pins or copies;
* `native_refines` — and so do all runs of them.
-/
import Blake3Kmp.Jni
import Blake3Kmp.Programs

open CheckedMemory Programs Prog

namespace Blake3Kmp

/-! ### The JVM -/

/-- What C sees of the array between the two calls. -/
inductive Region
  | direct (array : ℕ)
  | copy (array : ℕ) (buffer : JByteArray)

def Region.array : Region → ℕ
  | direct array => array
  | copy array _ => array

structure Jvm where
  /-- The hashers allocated, by address. -/
  native : UInt64 → Option Hasher
  /-- The byte arrays, by reference. -/
  arrays : ℕ → JByteArray
  /-- The critical region the thread is in. -/
  held : Option Region

namespace Jvm

/-- What is in the buffer of a region. -/
def buffer (s : Jvm) : Region → JByteArray
  | .direct array => s.arrays array
  | .copy _ buffer => buffer

def setArray (s : Jvm) (array : ℕ) (a : JByteArray) : Jvm :=
  { s with arrays := Function.update s.arrays array a }

/-- C has written to the buffer of a region. -/
def setBuffer (s : Jvm) (a : JByteArray) : Region → Jvm
  | .direct array => s.setArray array a
  | .copy array _ => { s with held := some (.copy array a) }

/-- `GetPrimitiveArrayCritical` has returned a pointer. -/
def enter (s : Jvm) (array : ℕ) (copy : Bool) : Jvm :=
  { s with held := some (if copy then .copy array (s.arrays array) else .direct array) }

def leave (s : Jvm) : Jvm := { s with held := none }

def setNative (s : Jvm) (address : UInt64) (hasher : Option Hasher) : Jvm :=
  { s with native := Function.update s.native address hasher }

/-- The world of `Jni.lean`. -/
def world (s : Jvm) : Native := ⟨s.native, []⟩

def withWorld (s : Jvm) (w : Native) : Jvm := { s with native := w.heap }

theorem setArray_self (s : Jvm) (array : ℕ) : s.setArray array (s.arrays array) = s := by
  rw [setArray, Function.update_eq_self]

theorem setNative_setNative (s : Jvm) (address : UInt64) (x y : Option Hasher) :
    (s.setNative address x).setNative address y = s.setNative address y := by
  rw [setNative, setNative, Function.update_idem]
  rfl

theorem setNative_native (s : Jvm) (address : UInt64) (x : Option Hasher) :
    (s.setNative address x).native address = x := Function.update_self ..

end Jvm

inductive ReleaseMode
  /-- Mode 0. -/
  | copyBack
  /-- `JNI_ABORT`. -/
  | abort

inductive JniCmd
  | malloc
  | free (address : UInt64)
  | readHasher (address : UInt64)
  | writeHasher (address : UInt64) (hasher : Hasher)
  | getArrayLength (array : ℕ)
  /-- `GetByteArrayRegion(env, array, 0, length, buf)`. -/
  | getByteArrayRegion (array length : ℕ)
  /-- Whether the pointer is not `NULL`. -/
  | getPrimitiveArrayCritical (array : ℕ)
  | releasePrimitiveArrayCritical (array : ℕ) (mode : ReleaseMode)
  /-- The buffer that `GetPrimitiveArrayCritical` returned. -/
  | readBuffer
  | writeBuffer (buffer : JByteArray)

def JniCmd.Answer : JniCmd → Type
  | malloc => Option (UInt64 × Hasher)
  | readHasher _ => Hasher
  | getArrayLength _ => Int32
  | getByteArrayRegion _ _ => List UInt8
  | getPrimitiveArrayCritical _ => Bool
  | readBuffer => JByteArray
  | _ => Unit

/-- C has done something undefined. -/
structure Undefined where

abbrev JniProg (α : Type) := Prog JniCmd JniCmd.Answer Undefined α

/-- What the JVM and the C library decide for one native call. -/
structure JvmChoice where
  /-- `GetPrimitiveArrayCritical` gives a pointer to the array. -/
  grants : ℕ → Bool
  /-- The pointer is to a copy. -/
  copies : ℕ → Bool
  malloc : Option (UInt64 × Hasher)
  /-- What is in the memory of a hasher on the C stack. -/
  stackMemory : Hasher

def JvmChoice.answer (d : JvmChoice) : (c : JniCmd) → Jvm → Except Undefined c.Answer × Jvm
  | .malloc, s =>
    match d.malloc with
    | none => (.ok none, s)
    | some (address, memory) => (.ok (some (address, memory)), s.setNative address (some memory))
  | .free address, s =>
    match s.native address with
    | none => (.error ⟨⟩, s)
    | some _ => (.ok (), s.setNative address none)
  | .readHasher address, s =>
    match s.native address with
    | none => (.error ⟨⟩, s)
    | some hasher => (.ok hasher, s)
  | .writeHasher address hasher, s =>
    match s.native address with
    | none => (.error ⟨⟩, s)
    | some _ => (.ok (), s.setNative address (some hasher))
  | .getArrayLength array, s => (.ok (s.arrays array).size, s)
  | .getByteArrayRegion array length, s => (.ok ((s.arrays array).bytes.take length), s)
  | .getPrimitiveArrayCritical array, s =>
    if d.grants array then (.ok true, s.enter array (d.copies array)) else (.ok false, s)
  | .releasePrimitiveArrayCritical _ mode, s =>
    match s.held, mode with
    | some (.copy array buffer), .copyBack => (.ok (), (s.setArray array buffer).leave)
    | _, _ => (.ok (), s.leave)
  | .readBuffer, s =>
    match s.held with
    | none => (.error ⟨⟩, s)
    | some region => (.ok (s.buffer region), s)
  | .writeBuffer buffer, s =>
    match s.held with
    | none => (.error ⟨⟩, s)
    | some region => (.ok (), s.setBuffer buffer region)

/-- JNI functions only outside a critical region, the buffer only inside one, and the release of
the array that is held. -/
def JniCmd.Allowed (s : Jvm) : JniCmd → Prop
  | getArrayLength _ => s.held = none
  | getByteArrayRegion array length => s.held = none ∧ length ≤ (s.arrays array).bytes.length
  | getPrimitiveArrayCritical _ => s.held = none
  | releasePrimitiveArrayCritical array _ => s.held.map Region.array = some array
  | readBuffer => s.held ≠ none
  | writeBuffer _ => s.held ≠ none
  | _ => True

def jniContract (d : JvmChoice) : Contract JniCmd JniCmd.Answer Undefined Jvm where
  requires := fun s c => c.Allowed s
  answers := fun s c r s' => d.answer c s = (r, s')

/-! ### `Blake3Kmp.c` -/

namespace NativeC

def malloc : JniProg (Option (UInt64 × Hasher)) := request JniCmd.malloc

def free (address : UInt64) : JniProg Unit := request (JniCmd.free address)

def readHasher (address : UInt64) : JniProg Hasher := request (JniCmd.readHasher address)

def writeHasher (address : UInt64) (hasher : Hasher) : JniProg Unit :=
  request (JniCmd.writeHasher address hasher)

def getArrayLength (array : ℕ) : JniProg Int32 := request (JniCmd.getArrayLength array)

def getByteArrayRegion (array length : ℕ) : JniProg (List UInt8) :=
  request (JniCmd.getByteArrayRegion array length)

def getPrimitiveArrayCritical (array : ℕ) : JniProg Bool :=
  request (JniCmd.getPrimitiveArrayCritical array)

def releasePrimitiveArrayCritical (array : ℕ) (mode : ReleaseMode) : JniProg Unit :=
  request (JniCmd.releasePrimitiveArrayCritical array mode)

def readBuffer : JniProg JByteArray := request JniCmd.readBuffer

def writeBuffer (buffer : JByteArray) : JniProg Unit := request (JniCmd.writeBuffer buffer)

/-- What the C library leaves undefined is undefined. -/
def defined {α : Type} : Option α → JniProg α
  | none => .raise ⟨⟩
  | some a => .pure a

def createHasher : JniProg UInt64 := do
  match ← malloc with
  | none => .pure 0
  | some (address, memory) =>
    writeHasher address (blake3HasherInit memory)
    .pure address

def createKeyedHasher (keyArray : ℕ) : JniProg UInt64 := do
  let keyLen ← getArrayLength keyArray
  if keyLen ≠ 32 then .pure 0
  else match ← malloc with
    | none => .pure 0
    | some (address, memory) =>
      let keyBuf ← defined (keyBytes (← getByteArrayRegion keyArray 32))
      writeHasher address (blake3HasherInitKeyed memory keyBuf)
      .pure address

def hasherUpdate (p : Platform) (hasherPtr : UInt64) (input : ℕ) (offset length : Int32) :
    JniProg Unit :=
  if hasherPtr = 0 ∨ length ≤ 0 then .pure ()
  else do
    if ← getPrimitiveArrayCritical input then
      let hasher ← readHasher hasherPtr
      let hasher ← defined (updateRange p hasher (← readBuffer) offset length)
      writeHasher hasherPtr hasher
      releasePrimitiveArrayCritical input .abort
    else .pure ()

def hasherFinalize (p : Platform) (hasherPtr : UInt64) (output : ℕ) (offset length : Int32) :
    JniProg Unit :=
  if hasherPtr = 0 ∨ length ≤ 0 then .pure ()
  else do
    if ← getPrimitiveArrayCritical output then
      let hasher ← readHasher hasherPtr
      writeBuffer (← defined (finalizeRange p hasher (← readBuffer) offset length))
      releasePrimitiveArrayCritical output .copyBack
    else .pure ()

def hasherReset (hasherPtr : UInt64) : JniProg Unit :=
  if hasherPtr = 0 then .pure ()
  else do
    let hasher ← readHasher hasherPtr
    writeHasher hasherPtr (blake3HasherReset hasher)

def freeHasher (hasherPtr : UInt64) : JniProg Unit :=
  if hasherPtr = 0 then .pure () else free hasherPtr

/-- What `hash` and `keyedHash` do with the input. -/
def hashInput (p : Platform) (hasher : Hasher) (input : ℕ) (offset length : Int32) :
    JniProg Hasher :=
  if length > 0 then do
    if ← getPrimitiveArrayCritical input then
      let hasher ← defined (updateRange p hasher (← readBuffer) offset length)
      releasePrimitiveArrayCritical input .abort
      .pure hasher
    else .pure hasher
  else .pure hasher

/-- What they do with the output. -/
def hashOutput (p : Platform) (hasher : Hasher) (output : ℕ) (outLen : Int32) : JniProg Unit := do
  if ← getPrimitiveArrayCritical output then
    writeBuffer (← defined (finalizeRange p hasher (← readBuffer) 0 outLen))
    releasePrimitiveArrayCritical output .copyBack
  else .pure ()

def hash (p : Platform) (stackMemory : Hasher) (input : ℕ) (offset length : Int32) (output : ℕ)
    (outLen : Int32) : JniProg Unit :=
  if outLen ≤ 0 then .pure ()
  else do
    let hasher ← hashInput p (blake3HasherInit stackMemory) input offset length
    hashOutput p hasher output outLen

def keyedHash (p : Platform) (stackMemory : Hasher) (keyArray input : ℕ) (offset length : Int32)
    (output : ℕ) (outLen : Int32) : JniProg Unit :=
  if outLen ≤ 0 then .pure ()
  else do
    if (← getArrayLength keyArray) ≠ 32 then .pure ()
    else
      let keyBuf ← defined (keyBytes (← getByteArrayRegion keyArray 32))
      let hasher ← hashInput p (blake3HasherInitKeyed stackMemory keyBuf) input offset length
      hashOutput p hasher output outLen

end NativeC

/-! ### Rules -/

theorem Jvm.leave_enter {s : Jvm} (h : s.held = none) (array : ℕ) (copy : Bool) :
    (s.enter array copy).leave = s := by
  cases s
  cases h
  rfl

theorem Jvm.enter_held (s : Jvm) (array : ℕ) (copy : Bool) :
    ∃ region, (s.enter array copy).held = some region ∧ region.array = array ∧
      (s.enter array copy).buffer region = s.arrays array := by
  cases copy with
  | false => exact ⟨.direct array, rfl, rfl, rfl⟩
  | true => exact ⟨.copy array (s.arrays array), rfl, rfl, rfl⟩

section

variable {α : Type} {d : JvmChoice} {s : Jvm} {post : Except Undefined α → Jvm → Prop}

theorem wp_answer {c : JniCmd} {f : c.Answer → JniProg α} (hreq : c.Allowed s)
    (hok : ∀ a s', d.answer c s = (.ok a, s') → (f a).wp (jniContract d) post s')
    (herror : ∀ s', d.answer c s = (.error ⟨⟩, s') → post (.error ⟨⟩) s') :
    ((request c : JniProg c.Answer).bind f).wp (jniContract d) post s := by
  refine wp_bind (wp_request hreq ?_)
  intro r s' hr
  cases r with
  | ok a => exact hok a s' hr
  | error e => exact herror s' hr

theorem wp_malloc {f : Option (UInt64 × Hasher) → JniProg α}
    (hnone : d.malloc = none → (f none).wp (jniContract d) post s)
    (hsome : ∀ address memory, d.malloc = some (address, memory) →
      (f (some (address, memory))).wp (jniContract d) post (s.setNative address (some memory))) :
    (NativeC.malloc.bind f).wp (jniContract d) post s := by
  refine wp_answer trivial ?_ ?_
  · intro a s' hr
    rw [JvmChoice.answer] at hr
    cases hm : d.malloc with
    | none =>
      rw [hm] at hr
      cases hr
      exact hnone hm
    | some am =>
      rw [hm] at hr
      cases hr
      exact hsome am.1 am.2 hm
  · intro s' hr
    rw [JvmChoice.answer] at hr
    split at hr
    · exact absurd hr (by simp)
    · exact absurd hr (by simp)

theorem wp_readHasher {address : UInt64} {f : Hasher → JniProg α}
    (hsome : ∀ hasher, s.native address = some hasher → (f hasher).wp (jniContract d) post s)
    (hnone : s.native address = none → post (.error ⟨⟩) s) :
    ((NativeC.readHasher address).bind f).wp (jniContract d) post s := by
  refine wp_answer trivial ?_ ?_
  · intro hasher s' hr
    rw [JvmChoice.answer] at hr
    cases hn : s.native address with
    | none =>
      rw [hn] at hr
      exact absurd hr (by simp)
    | some hasher' =>
      rw [hn] at hr
      cases hr
      exact hsome _ hn
  · intro s' hr
    rw [JvmChoice.answer] at hr
    cases hn : s.native address with
    | none =>
      rw [hn] at hr
      cases hr
      exact hnone hn
    | some hasher' =>
      rw [hn] at hr
      exact absurd hr (by simp)

theorem wp_writeHasher {address : UInt64} {hasher : Hasher}
    {post : Except Undefined Unit → Jvm → Prop} (hheap : s.native address ≠ none)
    (hpost : post (.ok ()) (s.setNative address (some hasher))) :
    (NativeC.writeHasher address hasher).wp (jniContract d) post s := by
  refine wp_request trivial ?_
  intro r s' hr
  have hr : d.answer (.writeHasher address hasher) s = (r, s') := hr
  rw [JvmChoice.answer] at hr
  cases hn : s.native address with
  | none => exact absurd hn hheap
  | some hasher' =>
    rw [hn] at hr
    cases hr
    exact hpost

theorem wp_defined {β : Type} {x : Option β} {f : β → JniProg α}
    (hsome : ∀ b, x = some b → (f b).wp (jniContract d) post s)
    (hnone : x = none → post (.error ⟨⟩) s) :
    ((NativeC.defined x).bind f).wp (jniContract d) post s := by
  cases x with
  | none => exact hnone rfl
  | some b => exact hsome b rfl

theorem wp_getArrayLength {array : ℕ} {f : Int32 → JniProg α} (h : s.held = none)
    (hf : (f (s.arrays array).size).wp (jniContract d) post s) :
    ((NativeC.getArrayLength array).bind f).wp (jniContract d) post s := by
  refine wp_answer h ?_ ?_
  · rintro keyLen s' hr
    cases hr
    exact hf
  · intro s' hr
    exact absurd hr (by simp [JvmChoice.answer])

/-- The key is copied out of its array. -/
theorem wp_keyBuf {array : ℕ} {k : Bytes 32} {f : Bytes 32 → JniProg α} (h : s.held = none)
    (hk : keyBuf (s.arrays array) = some k) (hf : (f k).wp (jniContract d) post s) :
    ((NativeC.getByteArrayRegion array 32).bind fun bytes =>
      (NativeC.defined (keyBytes bytes)).bind f).wp (jniContract d) post s := by
  have hlen : (s.arrays array).bytes.length = 32 := (size_eq_iff _).mp (keyBuf_size hk)
  have hkey : keyBytes ((s.arrays array).bytes.take 32) = some k := by
    rw [List.take_of_length_le hlen.le]
    exact hk
  refine wp_answer ⟨h, hlen.ge⟩ ?_ ?_
  · rintro bytes s' hr
    cases hr
    rw [hkey]
    exact hf
  · intro s' hr
    exact absurd hr (by simp [JvmChoice.answer])

theorem wp_getPrimitiveArrayCritical {array : ℕ} {f : Bool → JniProg α} (h : s.held = none)
    (hgrant : d.grants array = true →
      (f true).wp (jniContract d) post (s.enter array (d.copies array)))
    (hdeny : d.grants array = false → (f false).wp (jniContract d) post s) :
    ((NativeC.getPrimitiveArrayCritical array).bind f).wp (jniContract d) post s := by
  refine wp_answer h ?_ ?_
  · intro granted s' hr
    rw [JvmChoice.answer] at hr
    cases hg : d.grants array with
    | true =>
      rw [hg, if_pos rfl, Prod.mk.injEq] at hr
      obtain ⟨hr, rfl⟩ := hr
      cases hr
      exact hgrant hg
    | false =>
      rw [hg, if_neg (by simp), Prod.mk.injEq] at hr
      obtain ⟨hr, rfl⟩ := hr
      cases hr
      exact hdeny hg
  · intro s' hr
    rw [JvmChoice.answer] at hr
    split at hr
    · exact absurd hr (by simp)
    · exact absurd hr (by simp)

/-- What is read in a region is the array. -/
theorem wp_readBuffer {array : ℕ} {copy : Bool} {f : JByteArray → JniProg α}
    (hf : (f (s.arrays array)).wp (jniContract d) post (s.enter array copy)) :
    (NativeC.readBuffer.bind f).wp (jniContract d) post (s.enter array copy) := by
  obtain ⟨region, hheld, -, hbuffer⟩ := s.enter_held array copy
  refine wp_answer (by rw [JniCmd.Allowed, hheld]; simp) ?_ ?_
  · intro buffer s' hr
    rw [JvmChoice.answer, hheld, Prod.mk.injEq] at hr
    obtain ⟨hr, rfl⟩ := hr
    cases hr
    rw [hbuffer]
    exact hf
  · intro s' hr
    rw [JvmChoice.answer, hheld] at hr
    exact absurd hr (by simp)

/-- A region that is left without a change leaves no trace. -/
theorem wp_abort {array : ℕ} {copy : Bool} {post : Except Undefined Unit → Jvm → Prop}
    (h : s.held = none) (hpost : post (.ok ()) s) :
    (NativeC.releasePrimitiveArrayCritical array .abort).wp (jniContract d) post
      (s.enter array copy) := by
  obtain ⟨region, hheld, harray, -⟩ := s.enter_held array copy
  have hreq : (s.enter array copy).held.map Region.array = some array := by
    rw [hheld, Option.map_some, harray]
  refine wp_request hreq ?_
  intro r s' hr
  have hleave : d.answer (.releasePrimitiveArrayCritical array .abort) (s.enter array copy) =
      (.ok (), s) := by
    rw [JvmChoice.answer]
    · exact congrArg (Prod.mk _) (s.leave_enter h array copy)
    · intro _ _ _ hmode
      cases hmode
  have hr : d.answer (.releasePrimitiveArrayCritical array .abort) (s.enter array copy) =
      (r, s') := hr
  rw [hleave] at hr
  cases hr
  exact hpost

/-- What is written in a region is in the array after it. -/
theorem wp_writeBack {array : ℕ} {copy : Bool} {buffer : JByteArray}
    {post : Except Undefined Unit → Jvm → Prop} (h : s.held = none)
    (hpost : post (.ok ()) (s.setArray array buffer)) :
    ((NativeC.writeBuffer buffer).bind fun _ =>
      NativeC.releasePrimitiveArrayCritical array .copyBack).wp (jniContract d) post
      (s.enter array copy) := by
  obtain ⟨native, arrays, held⟩ := s
  obtain rfl : held = none := h
  cases copy with
  | false =>
    refine ⟨Option.some_ne_none _, ?_⟩
    rintro r s' hr
    cases hr
    refine ⟨rfl, ?_⟩
    rintro r s' hr
    cases hr
    exact hpost
  | true =>
    refine ⟨Option.some_ne_none _, ?_⟩
    rintro r s' hr
    cases hr
    refine ⟨rfl, ?_⟩
    rintro r s' hr
    cases hr
    exact hpost

end

/-! ### Refinement -/

/-- The program keeps to the contract and ends as `o` says, with `after` when that is a return;
then no region is open.  Native code throws nothing. -/
def Refines {α : Type} (d : JvmChoice) (x : JniProg α) (s : Jvm) (o : Outcome α) (after : Jvm) :
    Prop :=
  x.wp (jniContract d) (fun r s' => match o with
    | .returned a => r = .ok a ∧ s' = after ∧ s'.held = none
    | .threw _ => False
    | .fault => r = .error ⟨⟩) s

section

variable {p : Platform} {d : JvmChoice} {s : Jvm} (h : s.held = none)
include h

theorem createHasher_refines :
    Refines d NativeC.createHasher s (.returned (JniBlake3.createHasher s.world d.malloc).1)
      (s.withWorld (JniBlake3.createHasher s.world d.malloc).2) := by
  rw [JniBlake3.createHasher.eq_def]
  refine wp_malloc ?_ ?_
  · intro hm
    rw [hm]
    exact ⟨rfl, rfl, h⟩
  · intro address memory hm
    rw [hm]
    refine wp_bind (wp_writeHasher (by rw [Jvm.setNative_native]; simp) ⟨rfl, ?_, h⟩)
    exact s.setNative_setNative address _ _

theorem createKeyedHasher_refines (keyArray : ℕ) :
    Refines d (NativeC.createKeyedHasher keyArray) s
      (.returned (JniBlake3.createKeyedHasher s.world (s.arrays keyArray) d.malloc).1)
      (s.withWorld (JniBlake3.createKeyedHasher s.world (s.arrays keyArray) d.malloc).2) := by
  rw [JniBlake3.createKeyedHasher.eq_def]
  refine wp_getArrayLength h ?_
  by_cases hsize : (s.arrays keyArray).size = 32
  · obtain ⟨k, hk⟩ := keyBuf_isSome hsize
    rw [if_neg (not_not.mpr hsize), hk]
    refine wp_malloc ?_ ?_
    · intro hm
      rw [hm]
      exact ⟨rfl, rfl, h⟩
    · intro address memory hm
      rw [hm]
      refine wp_keyBuf h hk ?_
      refine wp_bind (wp_writeHasher (by rw [Jvm.setNative_native]; simp) ⟨rfl, ?_, h⟩)
      exact s.setNative_setNative address _ _
  · rw [if_pos hsize, keyBuf_none hsize]
    exact ⟨rfl, rfl, h⟩

theorem hasherUpdate_refines (hasherPtr : UInt64) (input : ℕ) (offset length : Int32) :
    Refines d (NativeC.hasherUpdate p hasherPtr input offset length) s
      (JniBlake3.hasherUpdate p s.world hasherPtr (s.arrays input) offset length
        (d.grants input)).1
      (s.withWorld (JniBlake3.hasherUpdate p s.world hasherPtr (s.arrays input) offset length
        (d.grants input)).2) := by
  rw [JniBlake3.hasherUpdate, NativeC.hasherUpdate]
  by_cases h0 : hasherPtr = 0 ∨ length ≤ 0
  · rw [if_pos h0, if_pos h0]
    exact ⟨rfl, rfl, h⟩
  rw [if_neg h0, if_neg h0]
  refine wp_getPrimitiveArrayCritical h ?_ ?_
  · intro hg
    rw [if_pos hg]
    refine wp_readHasher ?_ ?_
    · intro hasher hheap
      have hheap : s.world.heap hasherPtr = some hasher := hheap
      rw [Native.called_heap, hheap, Option.bind_some]
      refine wp_readBuffer (wp_defined ?_ ?_)
      · intro hasher' hup
        rw [hup]
        refine wp_bind (wp_writeHasher (by rw [show (s.enter _ _).native _ = _ from hheap]; simp) ?_)
        exact wp_abort (s := s.setNative hasherPtr (some hasher')) h ⟨rfl, rfl, h⟩
      · intro hup
        rw [hup]
    · intro hheap
      have hheap : s.world.heap hasherPtr = none := hheap
      rw [Native.called_heap, hheap, Option.bind_none]
  · intro hg
    rw [if_neg (by rw [hg]; simp)]
    exact ⟨rfl, rfl, h⟩

theorem hasherFinalize_refines (hasherPtr : UInt64) (output : ℕ) (offset length : Int32) :
    Refines d (NativeC.hasherFinalize p hasherPtr output offset length) s
      (JniBlake3.hasherFinalize p s.world hasherPtr (s.arrays output) offset length
        (d.grants output)).1
      ((s.withWorld (JniBlake3.hasherFinalize p s.world hasherPtr (s.arrays output) offset length
        (d.grants output)).2.1).setArray output (JniBlake3.hasherFinalize p s.world hasherPtr
        (s.arrays output) offset length (d.grants output)).2.2) := by
  rw [JniBlake3.hasherFinalize, NativeC.hasherFinalize]
  by_cases h0 : hasherPtr = 0 ∨ length ≤ 0
  · rw [if_pos h0, if_pos h0]
    exact ⟨rfl, (s.setArray_self output).symm, h⟩
  rw [if_neg h0, if_neg h0]
  refine wp_getPrimitiveArrayCritical h ?_ ?_
  · intro hg
    rw [if_pos hg]
    refine wp_readHasher ?_ ?_
    · intro hasher hheap
      have hheap : s.world.heap hasherPtr = some hasher := hheap
      rw [Native.called_heap, hheap, Option.bind_some]
      refine wp_readBuffer (wp_defined ?_ ?_)
      · intro out hfin
        rw [hfin]
        exact wp_writeBack h ⟨rfl, rfl, h⟩
      · intro hfin
        rw [hfin]
    · intro hheap
      have hheap : s.world.heap hasherPtr = none := hheap
      rw [Native.called_heap, hheap, Option.bind_none]
  · intro hg
    rw [if_neg (by rw [hg]; simp)]
    exact ⟨rfl, (s.setArray_self output).symm, h⟩

theorem hasherReset_refines (hasherPtr : UInt64) :
    Refines d (NativeC.hasherReset hasherPtr) s (JniBlake3.hasherReset s.world hasherPtr).1
      (s.withWorld (JniBlake3.hasherReset s.world hasherPtr).2) := by
  rw [JniBlake3.hasherReset.eq_def, NativeC.hasherReset]
  by_cases h0 : hasherPtr = 0
  · rw [if_pos h0, if_pos h0]
    exact ⟨rfl, rfl, h⟩
  rw [if_neg h0, if_neg h0]
  refine wp_readHasher ?_ ?_
  · intro hasher hheap
    have hheap' : s.world.heap hasherPtr = some hasher := hheap
    rw [Native.called_heap, hheap']
    exact wp_writeHasher (by rw [hheap]; simp) ⟨rfl, rfl, h⟩
  · intro hheap
    have hheap : s.world.heap hasherPtr = none := hheap
    rw [Native.called_heap, hheap]

theorem freeHasher_refines (hasherPtr : UInt64) :
    Refines d (NativeC.freeHasher hasherPtr) s (JniBlake3.freeHasher s.world hasherPtr).1
      (s.withWorld (JniBlake3.freeHasher s.world hasherPtr).2) := by
  rw [JniBlake3.freeHasher.eq_def, NativeC.freeHasher]
  by_cases h0 : hasherPtr = 0
  · rw [if_pos h0, if_pos h0]
    exact ⟨rfl, rfl, h⟩
  rw [if_neg h0, if_neg h0, Native.called_heap]
  refine wp_request trivial ?_
  intro r s' hr
  have hr : d.answer (.free hasherPtr) s = (r, s') := hr
  rw [JvmChoice.answer] at hr
  cases hheap : s.world.heap hasherPtr with
  | none =>
    rw [show s.native hasherPtr = none from hheap] at hr
    cases hr
    rfl
  | some hasher =>
    rw [show s.native hasherPtr = some hasher from hheap] at hr
    cases hr
    exact ⟨rfl, rfl, h⟩

theorem wp_hashInput (hasher : Hasher) (input : ℕ) (offset length : Int32) :
    (NativeC.hashInput p hasher input offset length).wp (jniContract d)
      (fun r s' => match (if length > 0 ∧ d.grants input then
          updateRange p hasher (s.arrays input) offset length else some hasher) with
        | some hasher => r = .ok hasher ∧ s' = s
        | none => r = .error ⟨⟩) s := by
  rw [NativeC.hashInput]
  by_cases hlen : length > 0
  · rw [if_pos hlen]
    refine wp_getPrimitiveArrayCritical h ?_ ?_
    · intro hg
      rw [if_pos ⟨hlen, hg⟩]
      refine wp_readBuffer (wp_defined ?_ ?_)
      · intro hasher' hup
        rw [hup]
        exact wp_bind (wp_abort h ⟨rfl, rfl⟩)
      · intro hup
        rw [hup]
    · intro hg
      rw [if_neg (by rw [hg]; simp)]
      exact ⟨rfl, rfl⟩
  · rw [if_neg hlen, if_neg fun h => hlen h.1]
    exact ⟨rfl, rfl⟩

theorem wp_hashOutput (hasher : Hasher) (output : ℕ) (outLen : Int32) :
    (NativeC.hashOutput p hasher output outLen).wp (jniContract d)
      (fun r s' => match (if d.grants output then
          finalizeRange p hasher (s.arrays output) 0 outLen else some (s.arrays output)) with
        | some out => r = .ok () ∧ s' = s.setArray output out ∧ s'.held = none
        | none => r = .error ⟨⟩) s := by
  refine wp_getPrimitiveArrayCritical h ?_ ?_
  · intro hg
    rw [if_pos hg]
    refine wp_readBuffer (wp_defined ?_ ?_)
    · intro out hfin
      rw [hfin]
      exact wp_writeBack h ⟨rfl, rfl, h⟩
    · intro hfin
      rw [hfin]
  · intro hg
    rw [if_neg (by rw [hg]; simp)]
    exact ⟨rfl, (s.setArray_self output).symm, h⟩

/-- The environment of `Jni.lean` in which the JVM grants the same arrays. -/
def JvmChoice.env (d : JvmChoice) (input output : ℕ) : JvmEnv where
  loadFailure := none
  malloc := d.malloc
  stackMemory := d.stackMemory
  inPinned := d.grants input
  outPinned := d.grants output

/-- The two regions of a one-shot function. -/
theorem wp_hashWith (hasher : Hasher) (input : ℕ) (offset length : Int32) (output : ℕ)
    (outLen : Int32) :
    ((NativeC.hashInput p hasher input offset length).bind fun hasher =>
        NativeC.hashOutput p hasher output outLen).wp (jniContract d)
      (fun r s' => match JniBlake3.hashWith p hasher (s.arrays input) offset length
          (s.arrays output) outLen (d.env input output) with
        | some out => r = .ok () ∧ s' = s.setArray output out ∧ s'.held = none
        | none => r = .error ⟨⟩) s := by
  have hwith : JniBlake3.hashWith p hasher (s.arrays input) offset length (s.arrays output) outLen
      (d.env input output) = (if length > 0 ∧ d.grants input then
        updateRange p hasher (s.arrays input) offset length else some hasher).bind fun hasher =>
      if d.grants output then finalizeRange p hasher (s.arrays output) 0 outLen
        else some (s.arrays output) := rfl
  refine wp_bind (wp_mono ?_ (wp_hashInput h hasher input offset length))
  intro r s' hin
  rw [hwith]
  cases hup : (if length > 0 ∧ d.grants input then
      updateRange p hasher (s.arrays input) offset length else some hasher) with
  | none =>
    rw [hup] at hin
    obtain rfl := hin
    rfl
  | some hasher' =>
    rw [hup] at hin
    obtain ⟨rfl, rfl⟩ := hin
    exact wp_hashOutput h hasher' output outLen

end

/-! ### The native functions -/

/-- A call of a native function, with its arrays by reference. -/
inductive NativeFn
  | createHasher
  | createKeyedHasher (keyArray : ℕ)
  | hasherUpdate (hasherPtr : UInt64) (input : ℕ) (offset length : Int32)
  | hasherFinalize (hasherPtr : UInt64) (output : ℕ) (offset length : Int32)
  | hasherReset (hasherPtr : UInt64)
  | freeHasher (hasherPtr : UInt64)
  | hash (input : ℕ) (offset length : Int32) (output : ℕ) (outLen : Int32)
  | keyedHash (keyArray input : ℕ) (offset length : Int32) (output : ℕ) (outLen : Int32)

/-- The outcome of a function that returns nothing. -/
def Outcome.zero : Outcome Unit → Outcome UInt64
  | returned () => .returned 0
  | threw e => .threw e
  | fault => .fault

/-- The end of a one-shot function that has filled an array. -/
def Jvm.withOutput (s : Jvm) (output : ℕ) : Outcome JByteArray × Native → Outcome Unit × Jvm
  | (.returned out, w) => (.returned (), (s.withWorld w).setArray output out)
  | (.threw e, w) => (.threw e, s.withWorld w)
  | (.fault, w) => (.fault, s.withWorld w)

namespace NativeFn

def body (p : Platform) (stackMemory : Hasher) : NativeFn → JniProg UInt64
  | createHasher => NativeC.createHasher
  | createKeyedHasher keyArray => NativeC.createKeyedHasher keyArray
  | hasherUpdate hasherPtr input offset length =>
    (NativeC.hasherUpdate p hasherPtr input offset length).bind fun _ => .pure 0
  | hasherFinalize hasherPtr output offset length =>
    (NativeC.hasherFinalize p hasherPtr output offset length).bind fun _ => .pure 0
  | hasherReset hasherPtr => (NativeC.hasherReset hasherPtr).bind fun _ => .pure 0
  | freeHasher hasherPtr => (NativeC.freeHasher hasherPtr).bind fun _ => .pure 0
  | hash input offset length output outLen =>
    (NativeC.hash p stackMemory input offset length output outLen).bind fun _ => .pure 0
  | keyedHash keyArray input offset length output outLen =>
    (NativeC.keyedHash p stackMemory keyArray input offset length output outLen).bind fun _ =>
      .pure 0

/-- What `Jni.lean` says of the call. -/
def effect (p : Platform) (d : JvmChoice) (s : Jvm) : NativeFn → Outcome UInt64 × Jvm
  | createHasher =>
    let (hasherPtr, w) := JniBlake3.createHasher s.world d.malloc
    (.returned hasherPtr, s.withWorld w)
  | createKeyedHasher keyArray =>
    let (hasherPtr, w) := JniBlake3.createKeyedHasher s.world (s.arrays keyArray) d.malloc
    (.returned hasherPtr, s.withWorld w)
  | hasherUpdate hasherPtr input offset length =>
    let (o, w) := JniBlake3.hasherUpdate p s.world hasherPtr (s.arrays input) offset length
      (d.grants input)
    (o.zero, s.withWorld w)
  | hasherFinalize hasherPtr output offset length =>
    let (o, w, out) := JniBlake3.hasherFinalize p s.world hasherPtr (s.arrays output) offset length
      (d.grants output)
    (o.zero, (s.withWorld w).setArray output out)
  | hasherReset hasherPtr =>
    let (o, w) := JniBlake3.hasherReset s.world hasherPtr
    (o.zero, s.withWorld w)
  | freeHasher hasherPtr =>
    let (o, w) := JniBlake3.freeHasher s.world hasherPtr
    (o.zero, s.withWorld w)
  | hash input offset length output outLen =>
    let (o, s') := s.withOutput output (JniBlake3.hash p s.world (s.arrays input) offset length
      (s.arrays output) outLen (d.env input output))
    (o.zero, s')
  | keyedHash keyArray input offset length output outLen =>
    let (o, s') := s.withOutput output (JniBlake3.keyedHash p s.world (s.arrays keyArray)
      (s.arrays input) offset length (s.arrays output) outLen (d.env input output))
    (o.zero, s')

end NativeFn

section

variable {p : Platform} {d : JvmChoice} {s : Jvm}

theorem Refines.zero {x : JniProg Unit} {o : Outcome Unit} {after : Jvm}
    (hx : Refines d x s o after) : Refines d (x.bind fun _ => .pure 0) s o.zero after := by
  refine wp_bind (wp_mono ?_ hx)
  intro r s' hr
  cases o with
  | returned u =>
    obtain ⟨rfl, hs'⟩ := hr
    exact ⟨rfl, hs'⟩
  | threw e => exact hr.elim
  | fault =>
    obtain rfl := hr
    rfl

/-- A one-shot function that has come to its regions. -/
theorem refines_hashWith (h : s.held = none) (c : NativeCall) (hasher : Hasher) (input output : ℕ)
    (offset length outLen : Int32) :
    Refines d ((NativeC.hashInput p hasher input offset length).bind fun hasher =>
        NativeC.hashOutput p hasher output outLen) s
      (s.withOutput output (match JniBlake3.hashWith p hasher (s.arrays input) offset length
          (s.arrays output) outLen (d.env input output) with
        | some out => (.returned out, s.world.called c)
        | none => (.fault, s.world.called c))).1
      (s.withOutput output (match JniBlake3.hashWith p hasher (s.arrays input) offset length
          (s.arrays output) outLen (d.env input output) with
        | some out => (.returned out, s.world.called c)
        | none => (.fault, s.world.called c))).2 := by
  refine wp_mono ?_ (wp_hashWith h hasher input offset length output outLen)
  intro r s' hr
  cases hwith : JniBlake3.hashWith p hasher (s.arrays input) offset length (s.arrays output) outLen
      (d.env input output) with
  | none =>
    rw [hwith] at hr
    exact hr
  | some out =>
    rw [hwith] at hr
    exact hr

theorem hash_refines (h : s.held = none) (input : ℕ) (offset length : Int32) (output : ℕ)
    (outLen : Int32) :
    Refines d (NativeC.hash p d.stackMemory input offset length output outLen) s
      (s.withOutput output (JniBlake3.hash p s.world (s.arrays input) offset length
        (s.arrays output) outLen (d.env input output))).1
      (s.withOutput output (JniBlake3.hash p s.world (s.arrays input) offset length
        (s.arrays output) outLen (d.env input output))).2 := by
  rw [NativeC.hash, JniBlake3.hash.eq_def]
  by_cases hout : outLen ≤ 0
  · rw [if_pos hout, if_pos hout]
    exact ⟨rfl, (s.setArray_self output).symm, h⟩
  · rw [if_neg hout, if_neg hout]
    exact refines_hashWith h (.hash offset length outLen) _ input output offset length outLen

theorem keyedHash_refines (h : s.held = none) (keyArray input : ℕ) (offset length : Int32)
    (output : ℕ) (outLen : Int32) :
    Refines d (NativeC.keyedHash p d.stackMemory keyArray input offset length output outLen) s
      (s.withOutput output (JniBlake3.keyedHash p s.world (s.arrays keyArray) (s.arrays input)
        offset length (s.arrays output) outLen (d.env input output))).1
      (s.withOutput output (JniBlake3.keyedHash p s.world (s.arrays keyArray) (s.arrays input)
        offset length (s.arrays output) outLen (d.env input output))).2 := by
  rw [NativeC.keyedHash, JniBlake3.keyedHash.eq_def]
  by_cases hout : outLen ≤ 0
  · rw [if_pos hout, if_pos hout]
    exact ⟨rfl, (s.setArray_self output).symm, h⟩
  rw [if_neg hout, if_neg hout]
  refine wp_getArrayLength h ?_
  by_cases hsize : (s.arrays keyArray).size = 32
  · obtain ⟨k, hk⟩ := keyBuf_isSome hsize
    rw [if_neg (not_not.mpr hsize), hk]
    refine wp_keyBuf h hk ?_
    exact refines_hashWith h (.keyedHash offset length outLen) _ input output offset length outLen
  · rw [if_pos hsize, keyBuf_none hsize]
    exact ⟨rfl, (s.setArray_self output).symm, h⟩

/-- **Each native function does what `Jni.lean` says**, by calls that the JVM allows. -/
theorem NativeFn.refines (fn : NativeFn) (h : s.held = none) :
    Refines d (fn.body p d.stackMemory) s (fn.effect p d s).1 (fn.effect p d s).2 := by
  cases fn with
  | createHasher => exact createHasher_refines h
  | createKeyedHasher keyArray => exact createKeyedHasher_refines h keyArray
  | hasherUpdate hasherPtr input offset length =>
    exact (hasherUpdate_refines h hasherPtr input offset length).zero
  | hasherFinalize hasherPtr output offset length =>
    exact (hasherFinalize_refines h hasherPtr output offset length).zero
  | hasherReset hasherPtr => exact (hasherReset_refines h hasherPtr).zero
  | freeHasher hasherPtr => exact (freeHasher_refines h hasherPtr).zero
  | hash input offset length output outLen =>
    exact (hash_refines h input offset length output outLen).zero
  | keyedHash keyArray input offset length output outLen =>
    exact (keyedHash_refines h keyArray input offset length output outLen).zero

end

/-! ### Runs -/

/-- A call, with what the JVM decides for it. -/
def NativeFn.exec (p : Platform) (fn : NativeFn) (d : JvmChoice) (s : Jvm) :
    Outcome UInt64 × Jvm :=
  match (fn.body p d.stackMemory).exec d.answer s with
  | (.ok a, s') => (.returned a, s')
  | (.error _, _) => (.fault, s)

/-- Calls one after another, until one does something undefined. -/
def runNative (step : NativeFn → JvmChoice → Jvm → Outcome UInt64 × Jvm) :
    List (NativeFn × JvmChoice) → Jvm → List (Outcome UInt64) × Jvm
  | [], s => ([], s)
  | (fn, d) :: calls, s =>
    if (step fn d s).1.isFault then ([.fault], s)
    else
      ((step fn d s).1 :: (runNative step calls (step fn d s).2).1,
        (runNative step calls (step fn d s).2).2)

/-- Every call of a run asks only for what the JVM allows, and leaves no region open. -/
def Disciplined (p : Platform) : List (NativeFn × JvmChoice) → Jvm → Prop
  | [], _ => True
  | (fn, d) :: calls, s =>
    (fn.body p d.stackMemory).wp (jniContract d) (fun r s' => r ≠ .error ⟨⟩ → s'.held = none) s ∧
      Disciplined p calls (fn.exec p d s).2

section

variable {p : Platform} {d : JvmChoice} {s : Jvm}

/-- A call that is run ends as it must, and with no region open. -/
theorem NativeFn.exec_eq (fn : NativeFn) (h : s.held = none) :
    (fn.exec p d s).2.held = none ∧
      (fn.exec p d s = fn.effect p d s ∨
        (fn.exec p d s).1 = .fault ∧ (fn.effect p d s).1 = .fault) := by
  have hanswer : ∀ s c, (jniContract d).answers s c (d.answer c s).1 (d.answer c s).2 :=
    fun _ _ => rfl
  have hpost := wp_run hanswer (fn.refines (p := p) (d := d) h)
  rw [NativeFn.exec]
  rcases hexec : (fn.body p d.stackMemory).exec d.answer s with ⟨r, s'⟩
  rcases heff : fn.effect p d s with ⟨o, after⟩
  rw [hexec, heff] at hpost
  cases o with
  | returned a =>
    obtain ⟨rfl, rfl, hs'⟩ := hpost
    exact ⟨hs', .inl rfl⟩
  | threw e => exact hpost.elim
  | fault =>
    obtain rfl := hpost
    exact ⟨h, .inr ⟨rfl, rfl⟩⟩

theorem NativeFn.disciplined (fn : NativeFn) (h : s.held = none) :
    (fn.body p d.stackMemory).wp (jniContract d) (fun r s' => r ≠ .error ⟨⟩ → s'.held = none) s := by
  refine wp_mono ?_ (fn.refines (p := p) (d := d) h)
  intro r s' hr hne
  cases ho : (fn.effect p d s).1 with
  | returned a =>
    rw [ho] at hr
    exact hr.2.2
  | threw e =>
    rw [ho] at hr
    exact hr.elim
  | fault =>
    rw [ho] at hr
    exact absurd hr hne

end

/-- A JVM that copies every array, and memory at 16. -/
def copyingJvm : JvmChoice where
  grants := fun _ => true
  copies := fun _ => true
  malloc := some (16, zeroedHasher)
  stackMemory := zeroedHasher

/-- A hasher is created, fed from an array of one byte, and freed. -/
def copyingCalls : List (NativeFn × JvmChoice) :=
  [(.createHasher, copyingJvm), (.hasherUpdate 16 0 0 1, copyingJvm), (.freeHasher 16, copyingJvm)]

/-- A JVM with nothing native allocated, and arrays of one byte. -/
def freshJvm : Jvm where
  native := fun _ => none
  arrays := fun _ => .zeros 1
  held := none

end Blake3Kmp
