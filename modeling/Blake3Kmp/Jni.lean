/-
The JNI module: `Blake3Kmp.c`, `JniBlake3.kt`, `Blake3.kt` and `Blake3Stream.kt`
of `blake3-kmp`.

The native heap is a partial map from addresses to hashers; a `Native` world
also records, newest first, the native entry points called.  What the C
library and the JVM decide for one call is its `JvmEnv`: whether the library
loads, what `malloc` returns, whether `GetPrimitiveArrayCritical` gives a
pointer or `NULL`.  Arrays and keys are never null here, since the Kotlin
types are not nullable.

* `JniBlake3.createHasher`, …, `JniBlake3.keyedHash` — the native functions;
* `Jni.hash`, `Jni.keyedHash` — the one-shot functions of `Blake3`;
* `Jni.Blake3Stream` — a stream, a handle on the native heap.
-/
import Blake3Kmp.Stream

open CheckedMemory

namespace Blake3Kmp

/-- A native entry point called, with its arguments other than arrays. -/
inductive NativeCall
  | createHasher
  | createKeyedHasher
  | hasherUpdate (hasherPtr : UInt64) (offset length : Int32)
  | hasherFinalize (hasherPtr : UInt64) (offset length : Int32)
  | hasherReset (hasherPtr : UInt64)
  | freeHasher (hasherPtr : UInt64)
  | hash (offset length outLen : Int32)
  | keyedHash (offset length outLen : Int32)
  deriving DecidableEq, Repr

/-- The address a native entry point is given. -/
def NativeCall.address? : NativeCall → Option UInt64
  | hasherUpdate hasherPtr _ _ => some hasherPtr
  | hasherFinalize hasherPtr _ _ => some hasherPtr
  | hasherReset hasherPtr => some hasherPtr
  | freeHasher hasherPtr => some hasherPtr
  | _ => none

structure Native where
  /-- The hashers allocated, by address. -/
  heap : UInt64 → Option Hasher
  calls : List NativeCall

namespace Native

def called (w : Native) (c : NativeCall) : Native := { w with calls := c :: w.calls }

/-- The hasher at an allocated address is overwritten, or a new one allocated there. -/
def put (w : Native) (address : UInt64) (hasher : Hasher) : Native :=
  { w with heap := Function.update w.heap address (some hasher) }

def release (w : Native) (address : UInt64) : Native :=
  { w with heap := Function.update w.heap address none }

variable (w : Native) (c : NativeCall) (a b : UInt64) (hasher : Hasher)

@[simp] theorem called_heap : (w.called c).heap = w.heap := rfl
@[simp] theorem called_calls : (w.called c).calls = c :: w.calls := rfl
@[simp] theorem put_calls : (w.put a hasher).calls = w.calls := rfl
@[simp] theorem release_calls : (w.release a).calls = w.calls := rfl

@[simp] theorem put_heap_self : (w.put a hasher).heap a = some hasher :=
  Function.update_self ..

@[simp] theorem release_heap_self : (w.release a).heap a = none :=
  Function.update_self ..

theorem put_heap_ne {a b : UInt64} (h : b ≠ a) : (w.put a hasher).heap b = w.heap b :=
  Function.update_of_ne h ..

theorem release_heap_ne {a b : UInt64} (h : b ≠ a) : (w.release a).heap b = w.heap b :=
  Function.update_of_ne h ..

/-- A process in which nothing native has been called yet. -/
def initial : Native where
  heap := fun _ => none
  calls := []

end Native

/-- What the C library and the JVM decide for one call. -/
structure JvmEnv where
  /-- What `loadNativeLibrary()` throws, if it does. -/
  loadFailure : Option Throwable
  /-- The address that `malloc` returns and what is in the memory there; `none` is `NULL`. -/
  malloc : Option (UInt64 × Hasher)
  /-- What is in the memory of a hasher on the C stack. -/
  stackMemory : Hasher
  /-- The input array is pinned; otherwise `GetPrimitiveArrayCritical` returns `NULL`. -/
  inPinned : Bool
  /-- The same for the output array. -/
  outPinned : Bool

/-- Everything is granted; `malloc` returns `address`. -/
def JvmEnv.granting (address : UInt64) : JvmEnv where
  loadFailure := none
  malloc := some (address, zeroedHasher)
  stackMemory := zeroedHasher
  inPinned := true
  outPinned := true

/-! ### `Blake3Kmp.c` -/

namespace JniBlake3

def createHasher (w : Native) (malloc : Option (UInt64 × Hasher)) : UInt64 × Native :=
  let w := w.called .createHasher
  match malloc with
  | none => (0, w)
  | some (address, memory) => (address, w.put address (blake3HasherInit memory))

def createKeyedHasher (w : Native) (key : JByteArray) (malloc : Option (UInt64 × Hasher)) :
    UInt64 × Native :=
  let w := w.called .createKeyedHasher
  match keyBuf key with
  | none => (0, w)
  | some keyBuf =>
    match malloc with
    | none => (0, w)
    | some (address, memory) => (address, w.put address (blake3HasherInitKeyed memory keyBuf))

def hasherUpdate (p : Platform) (w : Native) (hasherPtr : UInt64) (input : JByteArray)
    (offset length : Int32) (inPinned : Bool) : Outcome Unit × Native :=
  let w := w.called (.hasherUpdate hasherPtr offset length)
  if hasherPtr = 0 ∨ length ≤ 0 then (.returned (), w)
  else if inPinned then
    match (w.heap hasherPtr).bind fun hasher => updateRange p hasher input offset length with
    | some hasher => (.returned (), w.put hasherPtr hasher)
    | none => (.fault, w)
  else (.returned (), w)

/-- The outcome, and what `output` holds then. -/
def hasherFinalize (p : Platform) (w : Native) (hasherPtr : UInt64) (output : JByteArray)
    (offset length : Int32) (outPinned : Bool) : Outcome Unit × Native × JByteArray :=
  let w := w.called (.hasherFinalize hasherPtr offset length)
  if hasherPtr = 0 ∨ length ≤ 0 then (.returned (), w, output)
  else if outPinned then
    match (w.heap hasherPtr).bind fun hasher => finalizeRange p hasher output offset length with
    | some output => (.returned (), w, output)
    | none => (.fault, w, output)
  else (.returned (), w, output)

def hasherReset (w : Native) (hasherPtr : UInt64) : Outcome Unit × Native :=
  let w := w.called (.hasherReset hasherPtr)
  if hasherPtr = 0 then (.returned (), w)
  else match w.heap hasherPtr with
    | some hasher => (.returned (), w.put hasherPtr (blake3HasherReset hasher))
    | none => (.fault, w)

def freeHasher (w : Native) (hasherPtr : UInt64) : Outcome Unit × Native :=
  let w := w.called (.freeHasher hasherPtr)
  if hasherPtr = 0 then (.returned (), w)
  else match w.heap hasherPtr with
    | some _ => (.returned (), w.release hasherPtr)
    | none => (.fault, w)

/-- What `hash` and `keyedHash` do with their initialised hasher: the new contents of
`output`. -/
def hashWith (p : Platform) (hasher : Hasher) (input : JByteArray) (offset length : Int32)
    (output : JByteArray) (outLen : Int32) (env : JvmEnv) : Option JByteArray := do
  let hasher ← (if length > 0 ∧ env.inPinned then updateRange p hasher input offset length
    else some hasher)
  if env.outPinned then finalizeRange p hasher output 0 outLen else some output

/-- The outcome with what `output` holds then. -/
def hash (p : Platform) (w : Native) (input : JByteArray) (offset length : Int32)
    (output : JByteArray) (outLen : Int32) (env : JvmEnv) : Outcome JByteArray × Native :=
  let w := w.called (.hash offset length outLen)
  if outLen ≤ 0 then (.returned output, w)
  else
    let hasher := blake3HasherInit env.stackMemory
    match hashWith p hasher input offset length output outLen env with
    | some output => (.returned output, w)
    | none => (.fault, w)

def keyedHash (p : Platform) (w : Native) (key : JByteArray) (input : JByteArray)
    (offset length : Int32) (output : JByteArray) (outLen : Int32) (env : JvmEnv) :
    Outcome JByteArray × Native :=
  let w := w.called (.keyedHash offset length outLen)
  if outLen ≤ 0 then (.returned output, w)
  else match keyBuf key with
    | none => (.returned output, w)
    | some keyBuf =>
      let hasher := blake3HasherInitKeyed env.stackMemory keyBuf
      match hashWith p hasher input offset length output outLen env with
      | some output => (.returned output, w)
      | none => (.fault, w)

end JniBlake3

/-! ### `Blake3.kt` -/

namespace Jni

def hash (p : Platform) (w : Native) (data : JByteArray) (outLen : Int32) (env : JvmEnv) :
    Outcome JByteArray × Native :=
  match env.loadFailure with
  | some e => (.threw e, w)
  | none =>
    if ¬ outLen > 0 then (.threw badOutLen, w)
    else match JByteArray.alloc outLen with
      | .error e => (.threw e, w)
      | .ok result => JniBlake3.hash p w data 0 data.size result outLen env

def keyedHash (p : Platform) (w : Native) (key data : JByteArray) (outLen : Int32)
    (env : JvmEnv) : Outcome JByteArray × Native :=
  match env.loadFailure with
  | some e => (.threw e, w)
  | none =>
    if ¬ key.size = 32 then (.threw badKeySize, w)
    else if ¬ outLen > 0 then (.threw badOutLen, w)
    else match JByteArray.alloc outLen with
      | .error e => (.threw e, w)
      | .ok result => JniBlake3.keyedHash p w key data 0 data.size result outLen env

/-! ### `Blake3Stream.kt` -/

structure Blake3Stream where
  /-- The address of the native hasher, 0 for none. -/
  hasherPtr : UInt64 := 0
  deriving DecidableEq, Repr

namespace Blake3Stream

/-- The two constructors, without a key and with one. -/
def new (w : Native) (key : Option JByteArray) (env : JvmEnv) : Outcome Blake3Stream × Native :=
  match env.loadFailure with
  | some e => (.threw e, w)
  | none =>
    match key with
    | none =>
      let (hasherPtr, w) := JniBlake3.createHasher w env.malloc
      if ¬ hasherPtr ≠ 0 then
        (.threw ⟨.illegalStateException, "Failed to allocate native BLAKE3 hasher"⟩, w)
      else (.returned { hasherPtr }, w)
    | some key =>
      if ¬ key.size = 32 then (.threw badKeySize, w)
      else
        let (hasherPtr, w) := JniBlake3.createKeyedHasher w key env.malloc
        if ¬ hasherPtr ≠ 0 then
          (.threw ⟨.illegalStateException, "Failed to allocate native BLAKE3 keyed hasher"⟩, w)
        else (.returned { hasherPtr }, w)

def update (p : Platform) (w : Native) (self : Blake3Stream) (input : JByteArray)
    (offset length : Int32) (env : JvmEnv) : Outcome Unit × Native :=
  if length ≤ 0 then (.returned (), w)
  else if ¬ rangeCheck input offset length then (.threw outOfBounds, w)
  else if ¬ self.hasherPtr ≠ 0 then (.threw streamClosed, w)
  else JniBlake3.hasherUpdate p w self.hasherPtr input offset length env.inPinned

/-- `finalize(out, offset, length)`: the outcome, and what `out` holds then. -/
def finalizeInto (p : Platform) (w : Native) (self : Blake3Stream) (out : JByteArray)
    (offset length : Int32) (env : JvmEnv) : Outcome Unit × Native × JByteArray :=
  if length ≤ 0 then (.returned (), w, out)
  else if ¬ rangeCheck out offset length then (.threw outOfBounds, w, out)
  else if ¬ self.hasherPtr ≠ 0 then (.threw streamClosed, w, out)
  else JniBlake3.hasherFinalize p w self.hasherPtr out offset length env.outPinned

/-- `finalize(outLen)`. -/
def finalize (p : Platform) (w : Native) (self : Blake3Stream) (outLen : Int32) (env : JvmEnv) :
    Outcome JByteArray × Native :=
  match JByteArray.alloc outLen with
  | .error e => (.threw e, w)
  | .ok result =>
    match finalizeInto p w self result 0 outLen env with
    | (.returned (), w, result) => (.returned result, w)
    | (.threw e, w, _) => (.threw e, w)
    | (.fault, w, _) => (.fault, w)

def reset (w : Native) (self : Blake3Stream) : Outcome Unit × Native :=
  if ¬ self.hasherPtr ≠ 0 then (.threw streamClosed, w)
  else JniBlake3.hasherReset w self.hasherPtr

/-- The outcome, and the stream afterwards. -/
def close (w : Native) (self : Blake3Stream) : Outcome Unit × Native × Blake3Stream :=
  if self.hasherPtr ≠ 0 then
    match JniBlake3.freeHasher w self.hasherPtr with
    | (.returned (), w) => (.returned (), w, { self with hasherPtr := 0 })
    | (o, w) => (o, w, self)
  else (.returned (), w, self)

end Blake3Stream

/-- An outcome with its value replaced. -/
def reply {α : Type} (f : α → Reply) : Outcome α → Outcome Reply
  | .returned a => .returned (f a)
  | .threw e => .threw e
  | .fault => .fault

theorem reply_eq_returned {α : Type} {f : α → Reply} {o : Outcome α} {r : Reply}
    (h : reply f o = .returned r) : ∃ a, o = .returned a := by
  cases o with
  | returned a => exact ⟨a, rfl⟩
  | threw e => exact absurd h (by simp [reply])
  | fault => exact absurd h (by simp [reply])

/-- One operation on a stream: its outcome, and the world and the stream afterwards. -/
def Blake3Stream.call (p : Platform) (w : Native) (self : Blake3Stream) (op : StreamOp)
    (env : JvmEnv) : Outcome Reply × Native × Blake3Stream :=
  match op with
  | .update input offset length =>
    let (o, w) := self.update p w input offset length env
    (reply (fun _ => .unit) o, w, self)
  | .finalizeInto out offset length =>
    let (o, w, out) := self.finalizeInto p w out offset length env
    (reply (fun _ => .array out) o, w, self)
  | .finalize outLen =>
    let (o, w) := self.finalize p w outLen env
    (reply .array o, w, self)
  | .reset =>
    let (o, w) := self.reset w
    (reply (fun _ => .unit) o, w, self)
  | .close =>
    let (o, w, self) := self.close w
    (reply (fun _ => .unit) o, w, self)

end Jni

end Blake3Kmp
