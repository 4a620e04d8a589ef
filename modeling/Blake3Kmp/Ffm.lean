/-
The FFM module: `Blake3.kt` and `Blake3Stream.kt` of `blake3-ffm`.

Native memory lives in arenas, and every access to an arena, to native code or
to a field of a stream is a command, so that other threads may come in between.

* `FfmCmd` — the commands: what the JDK does for the module, and the two fields
  of a stream;
* `Ffm.hash`, `Ffm.keyedHash` — the one-shot functions;
* `Ffm.Blake3Stream.new`, …, `Ffm.Blake3Stream.close` — a stream, named by the
  number `self`.
-/
import Blake3Kmp.Programs
import Blake3Kmp.Stream

open Programs Prog

namespace Blake3Kmp

structure MemorySegment where
  id : ℕ
  /-- The arena it was allocated in. -/
  arena : ℕ
  size : ℕ
  deriving DecidableEq, Repr

/-- A call of a native function through its handle. -/
inductive Downcall
  | init (hasher : MemorySegment)
  | initKeyed (hasher key : MemorySegment)
  | update (hasher input : MemorySegment) (length : Int32)
  | finalize (hasher output : MemorySegment) (length : Int32)
  | reset (hasher : MemorySegment)

namespace Downcall

def name : Downcall → String
  | init _ => "blake3_hasher_init"
  | initKeyed _ _ => "blake3_hasher_init_keyed"
  | update _ _ _ => "blake3_hasher_update"
  | finalize _ _ _ => "blake3_hasher_finalize"
  | reset _ => "blake3_hasher_reset"

/-- The segments passed, the arenas of which stay open during the call. -/
def segments : Downcall → List MemorySegment
  | init hasher => [hasher]
  | initKeyed hasher key => [hasher, key]
  | update hasher input _ => [hasher, input]
  | finalize hasher output _ => [hasher, output]
  | reset hasher => [hasher]

end Downcall

inductive FfmCmd
  /-- `Arena.ofShared()`, for the stream `self`. -/
  | ofShared (self : ℕ)
  | ofConfined
  /-- `arena.close()`. -/
  | closeArena (arena : ℕ)
  | allocate (arena : ℕ) (size : ℕ)
  /-- `MemorySegment.copy` from an array. -/
  | copyIn (array : JByteArray) (offset : Int32) (segment : MemorySegment) (length : Int32)
  /-- `MemorySegment.copy` into an array; its contents afterwards. -/
  | copyOut (segment : MemorySegment) (array : JByteArray) (offset length : Int32)
  | loadNativeLibrary
  /-- The `lazy` handle of a native function, which is looked up at its first use. -/
  | handle (name : String)
  /-- `blake3_hasher_sizeof_handle`; whether the symbol was found. -/
  | sizeofHandle
  | hasherSizeof
  | downcall (d : Downcall)
  /-- The fields `arena` and `hasherSegment` of a stream. -/
  | getArena (self : ℕ)
  | setArena (self : ℕ) (arena : Option ℕ)
  | getSegment (self : ℕ)
  | setSegment (self : ℕ) (segment : Option MemorySegment)

def FfmCmd.Answer : FfmCmd → Type
  | ofShared _ => ℕ
  | ofConfined => ℕ
  | allocate _ _ => MemorySegment
  | copyOut _ _ _ _ => JByteArray
  | sizeofHandle => Bool
  | hasherSizeof => ℕ
  | getArena _ => Option ℕ
  | getSegment _ => Option MemorySegment
  | _ => Unit

abbrev FfmProg (α : Type) := Prog FfmCmd FfmCmd.Answer Throwable α

namespace Ffm

/-! ### The steps -/

def ofShared (self : ℕ) : FfmProg ℕ := request (FfmCmd.ofShared self)

def ofConfined : FfmProg ℕ := request FfmCmd.ofConfined

def closeArena (arena : ℕ) : FfmProg Unit := request (FfmCmd.closeArena arena)

def allocate (arena size : ℕ) : FfmProg MemorySegment := request (FfmCmd.allocate arena size)

def copyIn (array : JByteArray) (offset : Int32) (segment : MemorySegment) (length : Int32) :
    FfmProg Unit := request (FfmCmd.copyIn array offset segment length)

def copyOut (segment : MemorySegment) (array : JByteArray) (offset length : Int32) :
    FfmProg JByteArray := request (FfmCmd.copyOut segment array offset length)

def loadNativeLibraryStep : FfmProg Unit := request FfmCmd.loadNativeLibrary

def handle (name : String) : FfmProg Unit := request (FfmCmd.handle name)

def sizeofHandle : FfmProg Bool := request FfmCmd.sizeofHandle

def hasherSizeof : FfmProg ℕ := request FfmCmd.hasherSizeof

def downcall (d : Downcall) : FfmProg Unit := request (FfmCmd.downcall d)

def getArena (self : ℕ) : FfmProg (Option ℕ) := request (FfmCmd.getArena self)

def setArena (self : ℕ) (arena : Option ℕ) : FfmProg Unit := request (FfmCmd.setArena self arena)

def getSegment (self : ℕ) : FfmProg (Option MemorySegment) := request (FfmCmd.getSegment self)

def setSegment (self : ℕ) (segment : Option MemorySegment) : FfmProg Unit :=
  request (FfmCmd.setSegment self segment)

/-! ### `FfmBlake3.kt` -/

/-- `blake3_hasher_…_handle.invokeExact(…)`. -/
def invokeExact (d : Downcall) : FfmProg Unit := do
  handle d.name
  downcall d

/-- The size that the library tells, or else 1912. -/
def hasherSize : FfmProg ℕ :=
  Prog.tryCatch (do if ← sizeofHandle then hasherSizeof else .pure 1912) fun _ => .pure 1912

/-- `arena.use { … }`. -/
def useArena {α : Type} (arena : ℕ) (body : FfmProg α) : FfmProg α :=
  closing (closeArena arena) body

/-! ### `Blake3.kt` -/

def badInput : Throwable := ⟨.illegalArgumentException, "Input must be non-empty"⟩

/-- What `hash` and `keyedHash` do with their initialised hasher. -/
def hashWith (arena : ℕ) (hasherSegment : MemorySegment) (data result : JByteArray)
    (outLen : Int32) : FfmProg JByteArray := do
  let inputSegment ← allocate arena data.bytes.length
  copyIn data 0 inputSegment data.size
  invokeExact (.update hasherSegment inputSegment data.size)
  let outputSegment ← allocate arena outLen.toInt.toNat
  invokeExact (.finalize hasherSegment outputSegment outLen)
  copyOut outputSegment result 0 outLen

def hash (data : JByteArray) (outLen : Int32) : FfmProg JByteArray :=
  if ¬ outLen > 0 then .raise badOutLen
  else if data.bytes = [] then .raise badInput
  else match JByteArray.alloc outLen with
    | .error e => .raise e
    | .ok result => do
      let arena ← ofConfined
      useArena arena do
        let hasherSegment ← allocate arena (← hasherSize)
        invokeExact (.init hasherSegment)
        hashWith arena hasherSegment data result outLen

def keyedHash (key data : JByteArray) (outLen : Int32) : FfmProg JByteArray :=
  if ¬ key.size = 32 then .raise badKeySize
  else if ¬ outLen > 0 then .raise badOutLen
  else if data.bytes = [] then .raise badInput
  else match JByteArray.alloc outLen with
    | .error e => .raise e
    | .ok result => do
      let arena ← ofConfined
      useArena arena do
        let hasherSegment ← allocate arena (← hasherSize)
        let keySegment ← allocate arena 32
        copyIn key 0 keySegment 32
        invokeExact (.initKeyed hasherSegment keySegment)
        hashWith arena hasherSegment data result outLen

/-! ### `Blake3Stream.kt` -/

def streamIsClosed : Throwable := illegalState "Blake3Stream is closed"

namespace Blake3Stream

/-- The two constructors, without a key and with one.  The arena is opened by the initializer
of its property, before anything that may fail. -/
def new (self : ℕ) (key : Option JByteArray) : FfmProg Unit := do
  setArena self (some (← ofShared self))
  setSegment self none
  loadNativeLibraryStep
  match key with
  | none =>
    match ← getArena self with
    | none => .raise streamIsClosed
    | some currentArena =>
      let segment ← allocate currentArena (← hasherSize)
      invokeExact (.init segment)
      setSegment self (some segment)
  | some key =>
    if ¬ key.size = 32 then .raise badKeySize
    else match ← getArena self with
      | none => .raise streamIsClosed
      | some currentArena =>
        let segment ← allocate currentArena (← hasherSize)
        let keySegment ← allocate currentArena 32
        copyIn key 0 keySegment 32
        invokeExact (.initKeyed segment keySegment)
        setSegment self (some segment)

def update (self : ℕ) (input : JByteArray) (offset length : Int32) : FfmProg Unit :=
  if length ≤ 0 then .pure ()
  else if ¬ rangeCheck input offset length then .raise outOfBounds
  else do
    match ← getSegment self with
    | none => .raise streamIsClosed
    | some segment =>
      let tempArena ← ofConfined
      useArena tempArena do
        let inputSegment ← allocate tempArena length.toInt.toNat
        copyIn input offset inputSegment length
        invokeExact (.update segment inputSegment length)

/-- `finalize(out, offset, length)`: what `out` holds afterwards. -/
def finalizeInto (self : ℕ) (out : JByteArray) (offset length : Int32) : FfmProg JByteArray :=
  if length ≤ 0 then .pure out
  else if ¬ rangeCheck out offset length then .raise outOfBounds
  else do
    match ← getSegment self with
    | none => .raise streamIsClosed
    | some segment =>
      let tempArena ← ofConfined
      useArena tempArena do
        let outputSegment ← allocate tempArena length.toInt.toNat
        invokeExact (.finalize segment outputSegment length)
        copyOut outputSegment out offset length

/-- `finalize(outLen)`. -/
def finalize (self : ℕ) (outLen : Int32) : FfmProg JByteArray :=
  match JByteArray.alloc outLen with
  | .error e => .raise e
  | .ok result => finalizeInto self result 0 outLen

def reset (self : ℕ) : FfmProg Unit := do
  match ← getSegment self with
  | none => .raise streamIsClosed
  | some segment => invokeExact (.reset segment)

/-- The field is cleared before the arena is closed, and a failure to close it is dropped. -/
def close (self : ℕ) : FfmProg Unit := do
  match ← getArena self with
  | none => .pure ()
  | some currentArena =>
    setSegment self none
    setArena self none
    (closeArena currentArena).tryCatch fun _ => .pure ()

/-- One operation on a stream. -/
def call (self : ℕ) : StreamOp → FfmProg Reply
  | .update input offset length => do
    update self input offset length
    .pure .unit
  | .finalizeInto out offset length => do .pure (.array (← finalizeInto self out offset length))
  | .finalize outLen => do .pure (.array (← finalize self outLen))
  | .reset => do
    reset self
    .pure .unit
  | .close => do
    close self
    .pure .unit

end Blake3Stream

end Ffm

end Blake3Kmp
