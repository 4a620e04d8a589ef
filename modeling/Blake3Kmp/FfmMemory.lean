/-
Arenas, native memory and the fields of FFM streams.

* `Resources` — the arenas and the fields of the streams;
* `FfmWorld` — the same with what is in native memory, and what the JVM decides
  for the commands to come: which of them fail;
* `FfmCmd.answer` — what a command does when one thread runs alone;
* `Later` — what commands on memory of their own leave as it was.
-/
import Blake3Kmp.Ffm

open CheckedMemory Programs Prog

namespace Blake3Kmp

/-! ### Arenas -/

structure Arena where
  /-- The thread of a confined arena; none for a shared one. -/
  owner : Option ℕ
  isOpen : Bool
  deriving DecidableEq, Repr

structure StreamFields where
  arena : Option ℕ
  hasherSegment : Option MemorySegment
  deriving DecidableEq, Repr

structure Resources where
  arenas : ℕ → Option Arena
  streams : ℕ → StreamFields
  /-- The arena that was opened for a stream. -/
  arenaOf : ℕ → Option ℕ

namespace Resources

def initial : Resources where
  arenas := fun _ => none
  streams := fun _ => ⟨none, none⟩
  arenaOf := fun _ => none

/-- A new confined arena of thread `t`. -/
def openConfined (s : Resources) (t a : ℕ) : Resources :=
  { s with arenas := Function.update s.arenas a (some ⟨some t, true⟩) }

/-- A new shared arena, for the stream `self`. -/
def openShared (s : Resources) (self a : ℕ) : Resources :=
  { s with
    arenas := Function.update s.arenas a (some ⟨none, true⟩)
    arenaOf := Function.update s.arenaOf self (some a) }

def close (s : Resources) (a : ℕ) : Resources :=
  { s with arenas := Function.update s.arenas a ((s.arenas a).map fun x => { x with isOpen := false }) }

def setArena (s : Resources) (self : ℕ) (arena : Option ℕ) : Resources :=
  { s with streams := Function.update s.streams self { s.streams self with arena } }

def setSegment (s : Resources) (self : ℕ) (hasherSegment : Option MemorySegment) : Resources :=
  { s with streams := Function.update s.streams self { s.streams self with hasherSegment } }

/-- Thread `t` may use the arena: it is open, and shared or its own. -/
def usable (s : Resources) (t a : ℕ) : Bool :=
  match s.arenas a with
  | none => false
  | some x => x.isOpen && (x.owner.isNone || x.owner == some t)

section

variable (s : Resources) (t u self a : ℕ)

@[simp] theorem usable_openConfined_self : (s.openConfined t a).usable t a = true := by
  simp [usable, openConfined]

@[simp] theorem usable_openShared_self : (s.openShared self a).usable t a = true := by
  simp [usable, openShared]

theorem usable_close_self : (s.close a).usable t a = false := by
  rw [usable, show (s.close a).arenas a = _ from Function.update_self ..]
  cases s.arenas a with
  | none => rfl
  | some x => rfl

variable {a} {b : ℕ} (h : b ≠ a)
include h

theorem usable_openConfined_ne : (s.openConfined t a).usable u b = s.usable u b := by
  rw [usable, show (s.openConfined t a).arenas b = s.arenas b from Function.update_of_ne h ..]
  rfl

theorem usable_openShared_ne : (s.openShared self a).usable u b = s.usable u b := by
  rw [usable, show (s.openShared self a).arenas b = s.arenas b from Function.update_of_ne h ..]
  rfl

theorem usable_close_ne : (s.close a).usable u b = s.usable u b := by
  rw [usable, show (s.close a).arenas b = s.arenas b from Function.update_of_ne h ..]
  rfl

end

end Resources

/-! ### Memory -/

inductive Cell
  | bytes (b : List UInt8)
  | hasher (h : Hasher)

/-- The hasher in a segment: one that was written there, or the zeros it was allocated with. -/
def Cell.asHasher : Cell → Option Hasher
  | hasher h => some h
  | bytes b =>
    if b = List.replicate b.length 0 ∧ blake3HasherSizeof ≤ b.length then some zeroedHasher
    else none

def Cell.asBytes : Cell → Option (List UInt8)
  | hasher _ => none
  | bytes b => some b

structure FfmWorld where
  resources : Resources
  memory : ℕ → Cell
  nextArena : ℕ
  nextSegment : ℕ
  /-- Which of the commands to come fail, counted by those that may. -/
  failures : ℕ → Option Throwable
  clock : ℕ
  /-- Native code has done something undefined. -/
  undefined : Bool

namespace FfmWorld

def initial : FfmWorld where
  resources := .initial
  memory := fun _ => .bytes []
  nextArena := 0
  nextSegment := 0
  failures := fun _ => none
  clock := 0
  undefined := false

/-- The world with other decisions of the JVM for what follows. -/
def given (w : FfmWorld) (env : List (Option Throwable)) : FfmWorld :=
  { w with failures := fun n => (env[n]?).join, clock := 0 }

def put (w : FfmWorld) (i : ℕ) (c : Cell) : FfmWorld :=
  { w with memory := Function.update w.memory i c }

def tick (w : FfmWorld) : FfmWorld := { w with clock := w.clock + 1 }

/-- A new shared arena, for the stream `self`. -/
def shared (w : FfmWorld) (self : ℕ) : FfmWorld :=
  { w with
    resources := w.resources.openShared self w.nextArena
    nextArena := w.nextArena + 1 }

/-- A new confined arena. -/
def confined (w : FfmWorld) : FfmWorld :=
  { w with
    resources := w.resources.openConfined 0 w.nextArena
    nextArena := w.nextArena + 1 }

def close (w : FfmWorld) (arena : ℕ) : FfmWorld :=
  { w with resources := w.resources.close arena }

/-- A new segment, of zeros. -/
def allocated (w : FfmWorld) (size : ℕ) : FfmWorld :=
  { w with
    memory := Function.update w.memory w.nextSegment (.bytes (List.replicate size 0))
    nextSegment := w.nextSegment + 1 }

section

variable (w : FfmWorld) (i size : ℕ) (c : Cell)

@[simp] theorem put_memory_self : (w.put i c).memory i = c := Function.update_self ..

theorem put_memory_ne {i j : ℕ} (h : j ≠ i) : (w.put i c).memory j = w.memory j :=
  Function.update_of_ne h ..

@[simp] theorem allocated_memory_self :
    (w.allocated size).memory w.nextSegment = .bytes (List.replicate size 0) :=
  Function.update_self ..

theorem allocated_memory_ne {j : ℕ} (h : j ≠ w.nextSegment) :
    (w.allocated size).memory j = w.memory j := Function.update_of_ne h ..

end

/-- A command that may fail. -/
def attempt {α : Type} (w : FfmWorld) (k : FfmWorld → Except Throwable α × FfmWorld) :
    Except Throwable α × FfmWorld :=
  match w.failures w.clock with
  | some e => (.error e, w.tick)
  | none => k w.tick

end FfmWorld

def alreadyClosed : Throwable := illegalState "Already closed"

def copyOutOfBounds : Throwable := ⟨.indexOutOfBoundsException, "Out of bound access on segment"⟩

/-- The native function called, on the memory of the segments. -/
def Downcall.native (p : Platform) (m : ℕ → Cell) : Downcall → Option (ℕ → Cell)
  | init hasher => do
    let memory ← (m hasher.id).asHasher
    some (Function.update m hasher.id (.hasher (blake3HasherInit memory)))
  | initKeyed hasher key => do
    let memory ← (m hasher.id).asHasher
    let key ← keyBytes (← readSlice (← (m key.id).asBytes) 0 32)
    some (Function.update m hasher.id (.hasher (blake3HasherInitKeyed memory key)))
  | update hasher input length => do
    let h ← (m hasher.id).asHasher
    let bytes ← readSlice (← (m input.id).asBytes) 0 length.toInt.toNat
    let h ← blake3HasherUpdate p h bytes
    some (Function.update m hasher.id (.hasher h))
  | finalize hasher output length => do
    let h ← (m hasher.id).asHasher
    let out ← (m output.id).asBytes
    assertThat (length.toInt.toNat ≤ out.length)
    let out ← blake3HasherFinalize p h out 0 length.toInt.toNat
    some (Function.update m output.id (.bytes out))
  | reset hasher => do
    let h ← (m hasher.id).asHasher
    some (Function.update m hasher.id (.hasher (blake3HasherReset h)))

section

variable (p : Platform)

/-- What a command does when one thread runs alone, thread 0. -/
def FfmCmd.answer : (c : FfmCmd) → FfmWorld → Except Throwable c.Answer × FfmWorld
  | ofShared self, w => w.attempt fun w => (.ok w.nextArena, w.shared self)
  | ofConfined, w => w.attempt fun w => (.ok w.nextArena, w.confined)
  | closeArena arena, w =>
    if w.resources.usable 0 arena then (.ok (), w.close arena) else (.error alreadyClosed, w)
  | allocate arena size, w => w.attempt fun w =>
    if w.resources.usable 0 arena then
      (.ok ⟨w.nextSegment, arena, size⟩, w.allocated size)
    else (.error alreadyClosed, w)
  | copyIn array offset segment length, w =>
    if ¬ (inRange array offset length ∧ 0 ≤ length.toInt ∧ length.toInt.toNat ≤ segment.size) then
      (.error copyOutOfBounds, w)
    else if ¬ w.resources.usable 0 segment.arena then (.error alreadyClosed, w)
    else
      match (w.memory segment.id).asBytes.bind fun b =>
          writeSlice b 0 (rangeBytes array offset length) with
      | some b => (.ok (), w.put segment.id (.bytes b))
      | none => (.ok (), { w with undefined := true })
  | copyOut segment array offset length, w =>
    if ¬ (inRange array offset length ∧ 0 ≤ length.toInt ∧ length.toInt.toNat ≤ segment.size) then
      (.error copyOutOfBounds, w)
    else if ¬ w.resources.usable 0 segment.arena then (.error alreadyClosed, w)
    else
      match (do
          let bytes ← readSlice (← (w.memory segment.id).asBytes) 0 length.toInt.toNat
          JByteArray.ofBytes (← writeSlice array.bytes offset.toInt.toNat bytes)) with
      | some array => (.ok array, w)
      | none => (.ok array, { w with undefined := true })
  | loadNativeLibrary, w => w.attempt fun w => (.ok (), w)
  | handle _, w => w.attempt fun w => (.ok (), w)
  | sizeofHandle, w => w.attempt fun w => (.ok true, w)
  | hasherSizeof, w => w.attempt fun w => (.ok blake3HasherSizeof, w)
  | downcall d, w => w.attempt fun w =>
    if d.segments.all fun s => w.resources.usable 0 s.arena then
      match d.native p w.memory with
      | some memory => (.ok (), { w with memory })
      | none => (.ok (), { w with undefined := true })
    else (.error alreadyClosed, w)
  | getArena self, w => (.ok (w.resources.streams self).arena, w)
  | setArena self arena, w => (.ok (), { w with resources := w.resources.setArena self arena })
  | getSegment self, w => (.ok (w.resources.streams self).hasherSegment, w)
  | setSegment self segment, w =>
    (.ok (), { w with resources := w.resources.setSegment self segment })

end

/-! ### What stays as it was -/

/-- `w'` comes after `w`, and only memory and arenas have changed that `w` does not have. -/
structure Later (w w' : FfmWorld) : Prop where
  failures : w'.failures = w.failures
  undefined : w'.undefined = w.undefined
  nextArena : w.nextArena ≤ w'.nextArena
  nextSegment : w.nextSegment ≤ w'.nextSegment
  streams : w'.resources.streams = w.resources.streams
  usable : ∀ a, a < w.nextArena → w'.resources.usable 0 a = w.resources.usable 0 a
  memory : ∀ i, i < w.nextSegment → w'.memory i = w.memory i

namespace Later

variable {w w' w'' : FfmWorld}

theorem refl (w : FfmWorld) : Later w w :=
  ⟨rfl, rfl, le_rfl, le_rfl, rfl, fun _ _ => rfl, fun _ _ => rfl⟩

theorem trans (h : Later w w') (h' : Later w' w'') : Later w w'' where
  failures := h'.failures.trans h.failures
  undefined := h'.undefined.trans h.undefined
  nextArena := h.nextArena.trans h'.nextArena
  nextSegment := h.nextSegment.trans h'.nextSegment
  streams := h'.streams.trans h.streams
  usable := by
    intro a ha
    rw [h'.usable a (ha.trans_le h.nextArena), h.usable a ha]
  memory := by
    intro i hi
    rw [h'.memory i (hi.trans_le h.nextSegment), h.memory i hi]

theorem tick (h : Later w w') : Later w w'.tick :=
  ⟨h.failures, h.undefined, h.nextArena, h.nextSegment, h.streams, h.usable, h.memory⟩

theorem confined (h : Later w w') : Later w w'.confined where
  failures := h.failures
  undefined := h.undefined
  nextArena := h.nextArena.trans (Nat.le_succ _)
  nextSegment := h.nextSegment
  streams := h.streams
  usable := by
    intro a ha
    rw [← h.usable a ha]
    exact Resources.usable_openConfined_ne _ _ _ (ha.trans_le h.nextArena).ne
  memory := h.memory

theorem allocated (h : Later w w') (size : ℕ) : Later w (w'.allocated size) where
  failures := h.failures
  undefined := h.undefined
  nextArena := h.nextArena
  nextSegment := h.nextSegment.trans (Nat.le_succ _)
  streams := h.streams
  usable := h.usable
  memory := by
    intro i hi
    rw [FfmWorld.allocated_memory_ne _ _ (hi.trans_le h.nextSegment).ne]
    exact h.memory i hi

/-- A segment that `w` does not have is written. -/
theorem put_new (h : Later w w') {i : ℕ} (hi : w.nextSegment ≤ i) (c : Cell) :
    Later w (w'.put i c) where
  failures := h.failures
  undefined := h.undefined
  nextArena := h.nextArena
  nextSegment := h.nextSegment
  streams := h.streams
  usable := h.usable
  memory := by
    intro j hj
    rw [FfmWorld.put_memory_ne _ _ (hj.trans_le hi).ne]
    exact h.memory j hj

/-- A segment is written in both worlds. -/
theorem put_both (h : Later w w') (i : ℕ) (c : Cell) : Later (w.put i c) (w'.put i c) where
  failures := h.failures
  undefined := h.undefined
  nextArena := h.nextArena
  nextSegment := h.nextSegment
  streams := h.streams
  usable := h.usable
  memory := by
    intro j hj
    by_cases hji : j = i
    · rw [hji, FfmWorld.put_memory_self, FfmWorld.put_memory_self]
    · rw [FfmWorld.put_memory_ne _ _ hji, FfmWorld.put_memory_ne _ _ hji]
      exact h.memory j hj

/-- An arena that `w` does not have is closed. -/
theorem close_new (h : Later w w') {a : ℕ} (ha : w.nextArena ≤ a) : Later w (w'.close a) where
  failures := h.failures
  undefined := h.undefined
  nextArena := h.nextArena
  nextSegment := h.nextSegment
  streams := h.streams
  usable := by
    intro b hb
    rw [← h.usable b hb]
    exact Resources.usable_close_ne _ _ (hb.trans_le ha).ne
  memory := h.memory

end Later

end Blake3Kmp
