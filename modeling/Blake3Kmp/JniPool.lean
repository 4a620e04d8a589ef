/-
Threads over the native heap and the streams of the JNI module.

Any number of threads call the constructors, the operations of streams and the
one-shot functions.  A thread is in a native function from when it asks for it
until it is answered, so that others may free or change the hasher meanwhile.

* `Jni.Threaded` — `Blake3.kt` and `Blake3Stream.kt` of `blake3-kmp`, one access
  of a field and one native call at a time;
* `KmpShared.Answers` — what a command may do: the functions of `Jni.lean`, and
  anything at all once one of them is undefined;
* `Racing` — a native function on a hasher that another thread is at work on;
* `kmpPool` — the system;
* `Exclusive` — no call on a stream overlaps another one, but for `finalize`;
* `Isolated` — what such threads can count on.
-/
import Blake3Kmp.Ownership
import Blake3Kmp.Threads

open Programs Prog

namespace Blake3Kmp

/-! ### Commands -/

inductive KmpCmd
  | loadNativeLibrary
  | createHasher
  | createKeyedHasher (key : JByteArray)
  | hasherUpdate (hasherPtr : UInt64) (input : JByteArray) (offset length : Int32)
  | hasherFinalize (hasherPtr : UInt64) (output : JByteArray) (offset length : Int32)
  | hasherReset (hasherPtr : UInt64)
  | freeHasher (hasherPtr : UInt64)
  | hash (input : JByteArray) (offset length : Int32) (output : JByteArray) (outLen : Int32)
  | keyedHash (key input : JByteArray) (offset length : Int32) (output : JByteArray)
      (outLen : Int32)
  /-- The field `hasherPtr` of the stream `self` is read. -/
  | getHasherPtr (self : ℕ)
  | setHasherPtr (self : ℕ) (hasherPtr : UInt64)

namespace KmpCmd

/-- A function that fills an array answers with what the array holds then. -/
def Answer : KmpCmd → Type
  | createHasher => UInt64
  | createKeyedHasher _ => UInt64
  | hasherFinalize _ _ _ _ => JByteArray
  | hash _ _ _ _ _ => JByteArray
  | keyedHash _ _ _ _ _ _ => JByteArray
  | getHasherPtr _ => UInt64
  | _ => Unit

/-- The hasher that a native function is given. -/
def address? : KmpCmd → Option UInt64
  | hasherUpdate hasherPtr _ _ _ => some hasherPtr
  | hasherFinalize hasherPtr _ _ _ => some hasherPtr
  | hasherReset hasherPtr => some hasherPtr
  | freeHasher hasherPtr => some hasherPtr
  | _ => none

/-- The hasher is `const` there. -/
def Const : KmpCmd → Prop
  | hasherFinalize _ _ _ _ => True
  | _ => False

end KmpCmd

abbrev KmpProg (α : Type) := Prog KmpCmd KmpCmd.Answer Throwable α

/-! ### `Blake3.kt` and `Blake3Stream.kt` -/

namespace Jni.Threaded

def loadNativeLibrary : KmpProg Unit := request KmpCmd.loadNativeLibrary

def createHasher : KmpProg UInt64 := request KmpCmd.createHasher

def createKeyedHasher (key : JByteArray) : KmpProg UInt64 := request (KmpCmd.createKeyedHasher key)

def hasherUpdate (hasherPtr : UInt64) (input : JByteArray) (offset length : Int32) :
    KmpProg Unit := request (KmpCmd.hasherUpdate hasherPtr input offset length)

def hasherFinalize (hasherPtr : UInt64) (output : JByteArray) (offset length : Int32) :
    KmpProg JByteArray := request (KmpCmd.hasherFinalize hasherPtr output offset length)

def hasherReset (hasherPtr : UInt64) : KmpProg Unit := request (KmpCmd.hasherReset hasherPtr)

def freeHasher (hasherPtr : UInt64) : KmpProg Unit := request (KmpCmd.freeHasher hasherPtr)

def getHasherPtr (self : ℕ) : KmpProg UInt64 := request (KmpCmd.getHasherPtr self)

def setHasherPtr (self : ℕ) (hasherPtr : UInt64) : KmpProg Unit :=
  request (KmpCmd.setHasherPtr self hasherPtr)

def hash (data : JByteArray) (outLen : Int32) : KmpProg JByteArray := do
  loadNativeLibrary
  if ¬ outLen > 0 then .raise badOutLen
  else match JByteArray.alloc outLen with
    | .error e => .raise e
    | .ok result => request (KmpCmd.hash data 0 data.size result outLen)

def keyedHash (key data : JByteArray) (outLen : Int32) : KmpProg JByteArray := do
  loadNativeLibrary
  if ¬ key.size = 32 then .raise badKeySize
  else if ¬ outLen > 0 then .raise badOutLen
  else match JByteArray.alloc outLen with
    | .error e => .raise e
    | .ok result => request (KmpCmd.keyedHash key data 0 data.size result outLen)

/-- The two constructors, without a key and with one; `check` reads the field again. -/
def new (self : ℕ) : Option JByteArray → KmpProg Unit
  | none => do
    loadNativeLibrary
    let hasherPtr ← createHasher
    setHasherPtr self hasherPtr
    let hasherPtr ← getHasherPtr self
    if ¬ hasherPtr ≠ 0 then .raise (allocationFailed none) else .pure ()
  | some key => do
    loadNativeLibrary
    if ¬ key.size = 32 then .raise badKeySize
    else do
      let hasherPtr ← createKeyedHasher key
      setHasherPtr self hasherPtr
      let hasherPtr ← getHasherPtr self
      if ¬ hasherPtr ≠ 0 then .raise (allocationFailed (some key)) else .pure ()

def update (self : ℕ) (input : JByteArray) (offset length : Int32) : KmpProg Unit :=
  if length ≤ 0 then .pure ()
  else if ¬ rangeCheck input offset length then .raise outOfBounds
  else do
    let hasherPtr ← getHasherPtr self
    if ¬ hasherPtr ≠ 0 then .raise streamClosed
    else do
      let hasherPtr ← getHasherPtr self
      hasherUpdate hasherPtr input offset length

/-- `finalize(out, offset, length)`: what `out` holds then. -/
def finalizeInto (self : ℕ) (out : JByteArray) (offset length : Int32) : KmpProg JByteArray :=
  if length ≤ 0 then .pure out
  else if ¬ rangeCheck out offset length then .raise outOfBounds
  else do
    let hasherPtr ← getHasherPtr self
    if ¬ hasherPtr ≠ 0 then .raise streamClosed
    else do
      let hasherPtr ← getHasherPtr self
      hasherFinalize hasherPtr out offset length

/-- `finalize(outLen)`. -/
def finalize (self : ℕ) (outLen : Int32) : KmpProg JByteArray :=
  match JByteArray.alloc outLen with
  | .error e => .raise e
  | .ok result => finalizeInto self result 0 outLen

def reset (self : ℕ) : KmpProg Unit := do
  let hasherPtr ← getHasherPtr self
  if ¬ hasherPtr ≠ 0 then .raise streamClosed
  else do
    let hasherPtr ← getHasherPtr self
    hasherReset hasherPtr

def close (self : ℕ) : KmpProg Unit := do
  let hasherPtr ← getHasherPtr self
  if hasherPtr ≠ 0 then do
    let hasherPtr ← getHasherPtr self
    freeHasher hasherPtr
    setHasherPtr self 0
  else .pure ()

/-- One operation on the stream `self`. -/
def call (self : ℕ) : StreamOp → KmpProg Reply
  | .update input offset length => (update self input offset length).bind fun _ => .pure .unit
  | .finalizeInto out offset length =>
    (finalizeInto self out offset length).bind fun out => .pure (.array out)
  | .finalize outLen => (finalize self outLen).bind fun out => .pure (.array out)
  | .reset => (reset self).bind fun _ => .pure .unit
  | .close => (close self).bind fun _ => .pure .unit

end Jni.Threaded

/-! ### The shared state -/

structure KmpShared where
  native : Native
  /-- The field of each stream; it is 0 before the constructor sets it. -/
  hasherPtr : ℕ → UInt64

namespace KmpShared

def initial : KmpShared where
  native := .initial
  hasherPtr := fun _ => 0

def setHasherPtr (s : KmpShared) (self : ℕ) (hasherPtr : UInt64) : KmpShared :=
  { s with hasherPtr := Function.update s.hasherPtr self hasherPtr }

/-- A native function ended with `o` in the world `native`; after undefined behaviour anything
may be. -/
def Ran {α : Type} (s : KmpShared) (o : Outcome α × Native) (r : Except Throwable α)
    (s' : KmpShared) : Prop :=
  match o with
  | (.returned a, native) => r = .ok a ∧ s' = { s with native }
  | (.threw e, native) => r = .error e ∧ s' = { s with native }
  | (.fault, _) => True

/-- An address of unused memory and what is in it, or `NULL`. -/
def Mallocs (s : KmpShared) (malloc : Option (UInt64 × Hasher)) : Prop :=
  ∀ a memory, malloc = some (a, memory) → a ≠ 0 ∧ s.native.heap a = none

/-- The outcome of a function that fills an array, without the array twice. -/
def filled (r : Outcome Unit × Native × JByteArray) : Outcome JByteArray × Native :=
  match r with
  | (.returned (), native, output) => (.returned output, native)
  | (.threw e, native, _) => (.threw e, native)
  | (.fault, native, _) => (.fault, native)

/-- What a thread may be answered.  The library may fail to load, or not be loaded when the
first native function is called. -/
def Answers (p : Platform) (s : KmpShared) :
    (c : KmpCmd) → Except Throwable c.Answer → KmpShared → Prop
  | .loadNativeLibrary, _, s' => s' = s
  | .createHasher, r, s' =>
    ((∃ e, r = .error e) ∧ s' = s) ∨ ∃ malloc, s.Mallocs malloc ∧
      r = .ok (JniBlake3.createHasher s.native malloc).1 ∧
      s' = { s with native := (JniBlake3.createHasher s.native malloc).2 }
  | .createKeyedHasher key, r, s' =>
    ((∃ e, r = .error e) ∧ s' = s) ∨ ∃ malloc, s.Mallocs malloc ∧
      r = .ok (JniBlake3.createKeyedHasher s.native key malloc).1 ∧
      s' = { s with native := (JniBlake3.createKeyedHasher s.native key malloc).2 }
  | .hasherUpdate hasherPtr input offset length, r, s' => ∃ inPinned,
    s.Ran (JniBlake3.hasherUpdate p s.native hasherPtr input offset length inPinned) r s'
  | .hasherFinalize hasherPtr output offset length, r, s' => ∃ outPinned,
    s.Ran (filled
      (JniBlake3.hasherFinalize p s.native hasherPtr output offset length outPinned)) r s'
  | .hasherReset hasherPtr, r, s' => s.Ran (JniBlake3.hasherReset s.native hasherPtr) r s'
  | .freeHasher hasherPtr, r, s' => s.Ran (JniBlake3.freeHasher s.native hasherPtr) r s'
  | .hash input offset length output outLen, r, s' =>
    ((∃ e, r = .error e) ∧ s' = s) ∨ ∃ env,
      s.Ran (JniBlake3.hash p s.native input offset length output outLen env) r s'
  | .keyedHash key input offset length output outLen, r, s' =>
    ((∃ e, r = .error e) ∧ s' = s) ∨ ∃ env,
      s.Ran (JniBlake3.keyedHash p s.native key input offset length output outLen env) r s'
  | .getHasherPtr self, r, s' => r = .ok (s.hasherPtr self) ∧ s' = s
  | .setHasherPtr self hasherPtr, r, s' => r = .ok () ∧ s' = s.setHasherPtr self hasherPtr

end KmpShared

/-! ### The threads -/

inductive KmpCall
  | new (self : ℕ) (key : Option JByteArray)
  | call (self : ℕ) (op : StreamOp)
  | hash (data : JByteArray) (outLen : Int32)
  | keyedHash (key data : JByteArray) (outLen : Int32)

def StreamOp.readsOnly : StreamOp → Bool
  | finalizeInto _ _ _ => true
  | finalize _ => true
  | _ => false

/-- The number of bytes given to the hasher. -/
def StreamOp.passed : StreamOp → ℕ
  | update _ _ length => length.toInt.toNat
  | _ => 0

namespace KmpCall

def body : KmpCall → KmpProg Reply
  | new self key => (Jni.Threaded.new self key).bind fun _ => .pure .unit
  | call self op => Jni.Threaded.call self op
  | hash data outLen => (Jni.Threaded.hash data outLen).bind fun r => .pure (.array r)
  | keyedHash key data outLen =>
    (Jni.Threaded.keyedHash key data outLen).bind fun r => .pure (.array r)

def stream? : KmpCall → Option ℕ
  | new self _ => some self
  | call self _ => some self
  | _ => none

def readsOnly : KmpCall → Bool
  | call _ op => op.readsOnly
  | _ => false

def passed : KmpCall → ℕ
  | call _ op => op.passed
  | _ => 0

end KmpCall

abbrev KmpConfig := Config ℕ KmpCmd KmpCmd.Answer Throwable KmpCall Reply KmpShared

abbrev KmpMove := Move ℕ KmpCmd KmpCmd.Answer Throwable KmpCall Reply

abbrev KmpHistory := List (Happened ℕ Throwable KmpCall Reply)

/-- The calls on the stream `i` that have ended, and how, oldest first. -/
def callsOn (i : ℕ) : KmpHistory → List (KmpCall × Except Throwable Reply)
  | [] => []
  | .started _ _ :: history => callsOn i history
  | .finished _ call r :: history =>
    if call.stream? = some i then callsOn i history ++ [(call, r)] else callsOn i history

/-- The bytes that calls have given to `update`. -/
def passedBytes (calls : List (KmpCall × Except Throwable Reply)) : ℕ :=
  (calls.map fun c => c.1.passed).sum

/-- The constructor of `i` has returned. -/
def Returned (history : KmpHistory) (i : ℕ) : Prop :=
  ∃ t key r, .finished t (.new i key) (.ok r) ∈ history

/-- `close()` has ended on `i`. -/
def Closed (history : KmpHistory) (i : ℕ) : Prop :=
  ∃ t r, .finished t (.call i .close) r ∈ history

/-- A native function on a hasher that another thread is in one of too, unless both only read
it. -/
def Racing (cfg : KmpConfig) (t : ℕ) (c : KmpCmd) : Prop :=
  ∃ a u call c' next, u ≠ t ∧ cfg.thread u = .waiting call c' next ∧
    c.address? = some a ∧ c'.address? = some a ∧ ¬ (c.Const ∧ c'.Const)

/-- A stream is constructed once, and used only once a constructor has returned it.  After a
data race anything may be. -/
def kmpPool (p : Platform) : System ℕ KmpCmd KmpCmd.Answer Throwable KmpCall Reply KmpShared where
  body := KmpCall.body
  mayStart := fun cfg call =>
    match call with
    | .new self _ => ∀ t key, .started t (.new self key) ∉ cfg.history
    | .call self _ => Returned cfg.history self
    | _ => True
  answers := fun cfg t c r s => Racing cfg t c ∨ cfg.shared.Answers p c r s

def freshKmpPool : KmpConfig := .initial .initial

/-- A call on a stream starts while no other one is in progress on it, unless both only read;
its range does not overflow, and its hasher is never given `2 ^ 64` bytes. -/
def Exclusive (cfg : KmpConfig) : KmpMove → Prop
  | .start _ (.call self op) =>
    (∀ u call x, cfg.rest u = some (call, x) → call.stream? = some self →
      op.readsOnly = true ∧ call.readsOnly = true) ∧
    op.NoOverflow ∧ passedBytes (callsOn self cfg.history) + op.passed < 2 ^ 64
  | _ => True

/-! ### The property -/

/-- How a call ended, as in `Kotlin.lean`. -/
def outcomeOf : Except Throwable Reply → Outcome Reply
  | .ok r => .returned r
  | .error e => .threw e

/-- An operation of `Ownership.lean` on the stream `i`, and a call that ended the same way. -/
def SameCall (i : ℕ) : Jni.StreamsOp × Outcome Reply → KmpCall × Except Throwable Reply → Prop
  | (.construct j key _, o), (.new _ key', r) => j = i ∧ key = key' ∧ o = outcomeOf r
  | (.call j op _, o), (.call _ op', r) => j = i ∧ op = op' ∧ o = outcomeOf r
  | _, _ => False

/-- What threads can count on. -/
structure Isolated (p : Platform) (cfg : KmpConfig) : Prop where
  /-- A native function is given a hasher that is allocated, freeing included. -/
  allocated : ∀ t call c next a, cfg.rest t = some (call, .perform c next) →
    c.address? = some a → cfg.shared.native.heap a ≠ none
  /-- No two threads are at the same hasher, unless both only read it. -/
  apart : ∀ t u call call' c c' next next' a, t ≠ u → cfg.rest t = some (call, .perform c next) →
    cfg.rest u = some (call', .perform c' next') → c.address? = some a → c'.address? = some a →
    c.Const ∧ c'.Const
  /-- While no call is in progress, the hashers allocated are those of the streams that are not
  closed, one each. -/
  owned : cfg.Quiet → ∀ a, cfg.shared.native.heap a ≠ none ↔
    ∃ i, Returned cfg.history i ∧ ¬ Closed cfg.history i ∧ cfg.shared.hasherPtr i = a
  distinct : cfg.Quiet → ∀ i j, cfg.shared.hasherPtr i ≠ 0 →
    cfg.shared.hasherPtr i = cfg.shared.hasherPtr j → i = j
  /-- The calls on a stream end as in a run of them one after another, by one thread and without
  the other streams. -/
  sequential : ∀ i, ∃ trace w, Jni.Streams.Run p trace w ∧
    List.Forall₂ (SameCall i) trace (callsOn i cfg.history)
  /-- So do the one-shot functions, each on its own. -/
  hashes : ∀ t data outLen r, .finished t (.hash data outLen) r ∈ cfg.history →
    ∃ env, Jni.reply .array (Jni.hash p .initial data outLen env).1 = outcomeOf r
  keyedHashes : ∀ t key data outLen r, .finished t (.keyedHash key data outLen) r ∈ cfg.history →
    ∃ env, Jni.reply .array (Jni.keyedHash p .initial key data outLen env).1 = outcomeOf r

end Blake3Kmp
