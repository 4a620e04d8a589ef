/-
The JNI `Blake3Stream` simulates the stream of `Stream.lean`.

`Simulates w s st`: the handle `s` in the world `w` stands for `st`, that is, it
is 0 for a closed stream, and the address of an allocated hasher for an open
one.

* `new_cases` — a constructor throws and leaves the heap as it was, or
  allocates one hasher;
* `call_sim` — an operation has the outcome of the simulated one, keeps the
  simulation, calls at most one native function, with this handle, and touches
  no other address.
-/
import Blake3Kmp.Jni

open CheckedMemory

namespace Blake3Kmp

/-- What `malloc` promises: an address that is not null and not in use. -/
def JvmEnv.MallocOk (env : JvmEnv) (w : Native) : Prop :=
  ∀ address memory, env.malloc = some (address, memory) → address ≠ 0 ∧ w.heap address = none

/-- Whether the array of an operation, if it has one, is pinned. -/
def StreamOp.pinned (env : JvmEnv) : StreamOp → Bool
  | update _ _ _ => env.inPinned
  | finalizeInto _ _ _ => env.outPinned
  | finalize _ => env.outPinned
  | _ => true

/-- The key given to a constructor, when it accepts it. -/
def checkKey : Option JByteArray → Except Throwable (Option (Bytes 32))
  | none => .ok none
  | some key =>
    match keyBuf key with
    | none => .error badKeySize
    | some keyBuf => .ok (some keyBuf)

/-- What a constructor throws when `malloc` returns `NULL`. -/
def allocationFailed : Option JByteArray → Throwable
  | none => ⟨.illegalStateException, "Failed to allocate native BLAKE3 hasher"⟩
  | some _ => ⟨.illegalStateException, "Failed to allocate native BLAKE3 keyed hasher"⟩

/-- How a constructor ends: what it throws, or the key of the new hasher.  It depends on
whether `malloc` succeeds, not on the address. -/
def newOutcome (key : Option JByteArray) (env : JvmEnv) : Except Throwable (Option (Bytes 32)) :=
  match env.loadFailure with
  | some e => .error e
  | none =>
    match checkKey key with
    | .error e => .error e
    | .ok k => if env.malloc.isSome then .ok k else .error (allocationFailed key)

/-- When a constructor does not throw. -/
theorem newOutcome_eq_ok {key : Option JByteArray} {env : JvmEnv} {k : Option (Bytes 32)} :
    newOutcome key env = .ok k ↔
      env.loadFailure = none ∧ checkKey key = .ok k ∧ env.malloc.isSome = true := by
  rw [newOutcome]
  cases env.loadFailure with
  | some e => simp
  | none =>
    cases checkKey key with
    | error e => simp
    | ok k' =>
      by_cases hmal : env.malloc.isSome = true
      · simp [hmal]
      · simp [hmal]

namespace Jni.Blake3Stream

/-- The handle `s` stands for `st`. -/
def Simulates (w : Native) (s : Blake3Stream) : Option Hasher → Prop
  | none => s.hasherPtr = 0
  | some hasher => s.hasherPtr ≠ 0 ∧ w.heap s.hasherPtr = some hasher

/-- **A constructor throws, or allocates one hasher**, as `newOutcome` says. -/
theorem new_cases {w : Native} {env : JvmEnv} (hm : env.MallocOk w) (key : Option JByteArray) :
    (∃ e, newOutcome key env = .error e ∧ (new w key env).1 = .threw e ∧
        (new w key env).2.heap = w.heap) ∨
      ∃ address memory k c, newOutcome key env = .ok k ∧ env.malloc = some (address, memory) ∧
        address ≠ 0 ∧ w.heap address = none ∧ c.address? = none ∧
        new w key env =
          (.returned ⟨address⟩, (w.called c).put address (newHasher memory k)) := by
  rw [new.eq_def, newOutcome]
  cases hload : env.loadFailure with
  | some e => exact .inl ⟨e, rfl, rfl, rfl⟩
  | none =>
    cases key with
    | none =>
      simp only [JniBlake3.createHasher, checkKey]
      cases hmal : env.malloc with
      | none => exact .inl ⟨_, rfl, rfl, rfl⟩
      | some am =>
        obtain ⟨address, memory⟩ := am
        obtain ⟨h0, hfree⟩ := hm address memory hmal
        simp only [ne_eq, not_not, if_neg h0]
        exact .inr ⟨address, memory, none, .createHasher, rfl, rfl, h0, hfree, rfl, rfl⟩
    | some key =>
      by_cases hsize : key.size = 32
      · obtain ⟨k, hk⟩ := keyBuf_isSome hsize
        simp only [JniBlake3.createKeyedHasher, checkKey, hk, not_true_eq_false, if_false, hsize]
        cases hmal : env.malloc with
        | none => exact .inl ⟨_, rfl, rfl, rfl⟩
        | some am =>
          obtain ⟨address, memory⟩ := am
          obtain ⟨h0, hfree⟩ := hm address memory hmal
          simp only [ne_eq, not_not, if_neg h0]
          exact .inr ⟨address, memory, some k, .createKeyedHasher, rfl, rfl, h0, hfree, rfl, rfl⟩
      · simp only [checkKey, keyBuf_none hsize, if_pos hsize]
        exact .inl ⟨_, rfl, rfl, trivial⟩

/-- What an operation on `s` leaves alone, and what it calls. -/
structure Frame (w : Native) (s : Blake3Stream) (w' : Native) (s' : Blake3Stream) : Prop where
  others : ∀ a, a ≠ s.hasherPtr → w'.heap a = w.heap a
  closed : s.hasherPtr = 0 → w'.heap = w.heap
  handle : s' = s ∨ s'.hasherPtr = 0 ∧ w'.heap s.hasherPtr = none
  calls : w'.calls = w.calls ∨
    ∃ c, w'.calls = c :: w.calls ∧ c.address? = some s.hasherPtr ∧ s.hasherPtr ≠ 0

theorem Frame.refl (w : Native) (s : Blake3Stream) : Frame w s w s :=
  ⟨fun _ _ => rfl, fun _ => rfl, .inl rfl, .inl rfl⟩

/-- One native call that leaves the heap alone. -/
theorem Frame.called {w : Native} {s : Blake3Stream} {c : NativeCall}
    (hc : c.address? = some s.hasherPtr) (h0 : s.hasherPtr ≠ 0) : Frame w s (w.called c) s :=
  ⟨fun _ _ => rfl, fun h => absurd h h0, .inl rfl, .inr ⟨c, rfl, hc, h0⟩⟩

/-- One native call that overwrites the hasher. -/
theorem Frame.put {w : Native} {s : Blake3Stream} {c : NativeCall}
    (hc : c.address? = some s.hasherPtr) (h0 : s.hasherPtr ≠ 0) (hasher : Hasher) :
    Frame w s ((w.called c).put s.hasherPtr hasher) s :=
  ⟨fun _ ha => Native.put_heap_ne _ _ ha, fun h => absurd h h0, .inl rfl, .inr ⟨c, rfl, hc, h0⟩⟩

section

variable {p : Platform} {w : Native} {s : Blake3Stream} {st : Option Hasher}
  (h : s.Simulates w st)
include h

theorem update_sim (input : JByteArray) (offset length : Int32) (env : JvmEnv) :
    reply (fun _ => .unit) (s.update p w input offset length env).1 =
        (streamUpdate p env.inPinned st input offset length).1 ∧
      s.Simulates (s.update p w input offset length env).2
        (streamUpdate p env.inPinned st input offset length).2 ∧
      Frame w s (s.update p w input offset length env).2 s := by
  rw [update, streamUpdate.eq_def]
  by_cases hlen : length ≤ 0
  · rw [if_pos hlen, if_pos hlen]
    exact ⟨rfl, h, Frame.refl w s⟩
  rw [if_neg hlen, if_neg hlen]
  by_cases hr : ¬ rangeCheck input offset length = true
  · rw [if_pos hr, if_pos hr]
    exact ⟨rfl, h, Frame.refl w s⟩
  rw [if_neg hr, if_neg hr]
  cases st with
  | none =>
    have h0 : s.hasherPtr = 0 := h
    rw [if_pos (not_not.mpr h0)]
    exact ⟨rfl, h, Frame.refl w s⟩
  | some hasher =>
    obtain ⟨h0, hheap⟩ := h
    rw [if_neg (not_not.mpr h0), JniBlake3.hasherUpdate,
      if_neg (by simpa [h0] using hlen)]
    cases hpin : env.inPinned with
    | false => exact ⟨rfl, ⟨h0, hheap⟩, Frame.called rfl h0⟩
    | true =>
      simp only [if_true, Native.called_heap, hheap, Option.bind_some]
      cases updateRange p hasher input offset length with
      | none => exact ⟨rfl, ⟨h0, hheap⟩, Frame.called rfl h0⟩
      | some hasher' => exact ⟨rfl, ⟨h0, Native.put_heap_self _ _ _⟩, Frame.put rfl h0 hasher'⟩

theorem finalizeInto_sim (out : JByteArray) (offset length : Int32) (env : JvmEnv) :
    reply (fun _ => .array (s.finalizeInto p w out offset length env).2.2)
        (s.finalizeInto p w out offset length env).1 =
        streamFinalizeInto p env.outPinned st out offset length ∧
      s.Simulates (s.finalizeInto p w out offset length env).2.1 st ∧
      Frame w s (s.finalizeInto p w out offset length env).2.1 s := by
  rw [finalizeInto, streamFinalizeInto.eq_def]
  by_cases hlen : length ≤ 0
  · rw [if_pos hlen, if_pos hlen]
    exact ⟨rfl, h, Frame.refl w s⟩
  rw [if_neg hlen, if_neg hlen]
  by_cases hr : ¬ rangeCheck out offset length = true
  · rw [if_pos hr, if_pos hr]
    exact ⟨rfl, h, Frame.refl w s⟩
  rw [if_neg hr, if_neg hr]
  cases st with
  | none =>
    have h0 : s.hasherPtr = 0 := h
    rw [if_pos (not_not.mpr h0)]
    exact ⟨rfl, h, Frame.refl w s⟩
  | some hasher =>
    obtain ⟨h0, hheap⟩ := h
    rw [if_neg (not_not.mpr h0), JniBlake3.hasherFinalize,
      if_neg (by simpa [h0] using hlen)]
    cases hpin : env.outPinned with
    | false => exact ⟨rfl, ⟨h0, hheap⟩, Frame.called rfl h0⟩
    | true =>
      simp only [if_true, Native.called_heap, hheap, Option.bind_some]
      cases finalizeRange p hasher out offset length with
      | none => exact ⟨rfl, ⟨h0, hheap⟩, Frame.called rfl h0⟩
      | some out' => exact ⟨rfl, ⟨h0, hheap⟩, Frame.called rfl h0⟩

theorem reset_sim :
    reply (fun _ => .unit) (s.reset w).1 = (StreamOp.reset.step p true st).1 ∧
      s.Simulates (s.reset w).2 (StreamOp.reset.step p true st).2 ∧ Frame w s (s.reset w).2 s := by
  rw [reset]
  cases st with
  | none =>
    have h0 : s.hasherPtr = 0 := h
    rw [if_pos (not_not.mpr h0)]
    exact ⟨rfl, h, Frame.refl w s⟩
  | some hasher =>
    obtain ⟨h0, hheap⟩ := h
    rw [if_neg (not_not.mpr h0), JniBlake3.hasherReset, if_neg h0]
    simp only [Native.called_heap, hheap]
    exact ⟨rfl, ⟨h0, Native.put_heap_self _ _ _⟩, Frame.put rfl h0 _⟩

/-- Closing frees the hasher of an open stream, and clears the handle. -/
theorem close_sim :
    reply (fun _ => .unit) (s.close w).1 = .returned .unit ∧
      (s.close w).2.2.Simulates (s.close w).2.1 none ∧
      Frame w s (s.close w).2.1 (s.close w).2.2 := by
  rw [close]
  cases st with
  | none =>
    have h0 : s.hasherPtr = 0 := h
    rw [if_neg (not_not.mpr h0)]
    exact ⟨rfl, h, Frame.refl w s⟩
  | some hasher =>
    obtain ⟨h0, hheap⟩ := h
    rw [if_pos h0, JniBlake3.freeHasher, if_neg h0]
    simp only [Native.called_heap, hheap]
    exact ⟨rfl, rfl, fun a ha => Native.release_heap_ne _ ha, fun h => absurd h h0,
      .inr ⟨rfl, Native.release_heap_self _ _⟩, .inr ⟨.freeHasher s.hasherPtr, rfl, rfl, h0⟩⟩

/-- **The JNI stream simulates the stream without memory.** -/
theorem call_sim (op : StreamOp) (env : JvmEnv) :
    (s.call p w op env).1 = (op.step p (op.pinned env) st).1 ∧
      (s.call p w op env).2.2.Simulates (s.call p w op env).2.1
        (op.step p (op.pinned env) st).2 ∧
      Frame w s (s.call p w op env).2.1 (s.call p w op env).2.2 := by
  cases op with
  | update input offset length => exact update_sim h input offset length env
  | finalizeInto out offset length => exact finalizeInto_sim h out offset length env
  | finalize outLen =>
    have hfin := fun result => finalizeInto_sim (p := p) h result 0 outLen env
    simp only [call, finalize, StreamOp.step, StreamOp.pinned]
    cases JByteArray.alloc outLen with
    | error e => exact ⟨rfl, h, Frame.refl w s⟩
    | ok result =>
      obtain ⟨hout, hsim, hframe⟩ := hfin result
      rcases hr : finalizeInto p w s result 0 outLen env with ⟨o, w', result'⟩
      rw [hr] at hout hsim hframe
      simp only [hr] at hout hsim hframe ⊢
      rw [← hout]
      cases o with
      | returned u => exact ⟨rfl, hsim, hframe⟩
      | threw e => exact ⟨rfl, hsim, hframe⟩
      | fault => exact ⟨rfl, hsim, hframe⟩
  | reset => exact reset_sim (p := p) h
  | close => exact close_sim h

end

end Jni.Blake3Stream

end Blake3Kmp
