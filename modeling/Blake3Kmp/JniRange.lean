/-
Which ranges a JNI stream passes to native code.

The range check computes `offset + length` as an `Int`.  A sum beyond
`2 ^ 31 - 1` wraps to a negative number and is let through, and the native code
then reads or writes outside the caller's array.  `native_access_iff` says that
these are the only calls that go wrong: on an open stream, with a non-negative
`offset` and such a sum.
-/
import Blake3Kmp.ExtendedOutput

open CheckedMemory

namespace Blake3Kmp

namespace Jni

namespace Blake3Stream

/-- `update` on this range keeps native code inside the array, and turns down every other
range before any native call. -/
def UpdateInside (p : Platform) (w : Native) (s : Blake3Stream) (input : JByteArray)
    (offset length : Int32) (env : JvmEnv) : Prop :=
  ((s.update p w input offset length env).2.calls ≠ w.calls → inRange input offset length) ∧
    (¬ inRange input offset length →
      (∃ e, (s.update p w input offset length env).1 = .threw e) ∧
        (s.update p w input offset length env).2 = w)

/-- The same for `finalize`, which also changes no byte of the array outside the range. -/
def FinalizeInside (p : Platform) (w : Native) (s : Blake3Stream) (out : JByteArray)
    (offset length : Int32) (env : JvmEnv) : Prop :=
  ((s.finalizeInto p w out offset length env).2.1.calls ≠ w.calls →
      inRange out offset length ∧ ∀ i : ℕ, (i < offset.toInt ∨ offset.toInt + length.toInt ≤ i) →
        (s.finalizeInto p w out offset length env).2.2.bytes[i]? = out.bytes[i]?) ∧
    (¬ inRange out offset length →
      (∃ e, (s.finalizeInto p w out offset length env).1 = .threw e) ∧
        (s.finalizeInto p w out offset length env).2 = (w, out))

section

variable {p : Platform} {w : Native} {s : Blake3Stream} {a : JByteArray}
  {offset length : Int32} {env : JvmEnv}

theorem called_ne (w : Native) (c : NativeCall) : (w.called c).calls ≠ w.calls :=
  List.cons_ne_self c w.calls

/-- Every native call is recorded, however it ends. -/
theorem hasherUpdate_calls (ptr : UInt64) (pin : Bool) :
    (JniBlake3.hasherUpdate p w ptr a offset length pin).2.calls ≠ w.calls := by
  rw [JniBlake3.hasherUpdate.eq_def]
  dsimp only
  split
  · exact called_ne w _
  · split
    · split
      · exact called_ne w _
      · exact called_ne w _
    · exact called_ne w _

theorem hasherFinalize_calls (ptr : UInt64) (pin : Bool) :
    (JniBlake3.hasherFinalize p w ptr a offset length pin).2.1.calls ≠ w.calls := by
  rw [JniBlake3.hasherFinalize.eq_def]
  dsimp only
  split
  · exact called_ne w _
  · split
    · split
      · exact called_ne w _
      · exact called_ne w _
    · exact called_ne w _

theorem update_inside_iff (hlen : 0 < length.toInt) :
    UpdateInside p w s a offset length env ↔
      ¬ (overflows offset length ∧ s.hasherPtr ≠ 0) := by
  have hpos : ¬ length ≤ 0 := pos_toInt.mpr hlen
  rw [UpdateInside, update, if_neg hpos]
  by_cases hcheck : ¬ rangeCheck a offset length = true
  · -- turned down
    rw [if_pos hcheck]
    constructor
    · rintro - ⟨hov, -⟩
      exact hcheck ((rangeCheck_iff hpos).mpr (.inr hov))
    · intro _
      exact ⟨fun h => absurd rfl h, fun _ => ⟨⟨_, rfl⟩, rfl⟩⟩
  rw [if_neg hcheck]
  by_cases h0 : ¬ s.hasherPtr ≠ 0
  · -- closed
    rw [if_pos h0]
    constructor
    · rintro - ⟨-, hopen⟩
      exact h0 hopen
    · intro _
      exact ⟨fun h => absurd rfl h, fun _ => ⟨⟨_, rfl⟩, rfl⟩⟩
  · -- passed on to native code
    rw [if_neg h0]
    constructor
    · rintro ⟨hin, -⟩ ⟨hov, -⟩
      exact (hin (hasherUpdate_calls s.hasherPtr env.inPinned)).not_overflows hov
    · intro hno
      have hin := inRange_of_check hpos (not_not.mp hcheck) fun hov => hno ⟨hov, not_not.mp h0⟩
      exact ⟨fun _ => hin, fun hout => absurd hin hout⟩

/-- Native code writes inside the range only. -/
theorem hasherFinalize_outside (hp : p.Agree) (hin : inRange a offset length)
    (hlen : 0 < length.toInt) (pin : Bool) {i : ℕ}
    (hi : i < offset.toInt ∨ offset.toInt + length.toInt ≤ i) :
    (JniBlake3.hasherFinalize p w s.hasherPtr a offset length pin).2.2.bytes[i]? =
      a.bytes[i]? := by
  rw [JniBlake3.hasherFinalize.eq_def]
  dsimp only
  split
  · rfl
  · split
    · cases hheap : (w.called (.hasherFinalize s.hasherPtr offset length)).heap s.hasherPtr with
      | none => rfl
      | some hasher =>
        simp only [Option.bind_some]
        rcases finalizeRange_root hp (h := hasher) hin hlen with ⟨-, hfin⟩ | ⟨o, a', -, hfin, hfill⟩
        · rw [hfin]
        · rw [hfin]
          obtain ⟨h0, hle⟩ := hin
          exact hfill.outside (by rw [outputPrefix_length]; omega)
            (by rw [outputPrefix_length]; omega)
    · rfl

theorem finalize_inside_iff (hp : p.Agree) (hlen : 0 < length.toInt) :
    FinalizeInside p w s a offset length env ↔
      ¬ (overflows offset length ∧ s.hasherPtr ≠ 0) := by
  have hpos : ¬ length ≤ 0 := pos_toInt.mpr hlen
  rw [FinalizeInside, finalizeInto, if_neg hpos]
  by_cases hcheck : ¬ rangeCheck a offset length = true
  · rw [if_pos hcheck]
    constructor
    · rintro - ⟨hov, -⟩
      exact hcheck ((rangeCheck_iff hpos).mpr (.inr hov))
    · intro _
      exact ⟨fun h => absurd rfl h, fun _ => ⟨⟨_, rfl⟩, rfl⟩⟩
  rw [if_neg hcheck]
  by_cases h0 : ¬ s.hasherPtr ≠ 0
  · rw [if_pos h0]
    constructor
    · rintro - ⟨-, hopen⟩
      exact h0 hopen
    · intro _
      exact ⟨fun h => absurd rfl h, fun _ => ⟨⟨_, rfl⟩, rfl⟩⟩
  · rw [if_neg h0]
    constructor
    · rintro ⟨hin, -⟩ ⟨hov, -⟩
      exact (hin (hasherFinalize_calls s.hasherPtr env.outPinned)).1.not_overflows hov
    · intro hno
      have hin := inRange_of_check hpos (not_not.mp hcheck) fun hov => hno ⟨hov, not_not.mp h0⟩
      refine ⟨fun _ => ⟨hin, fun i hi => ?_⟩, fun hout => absurd hin hout⟩
      exact hasherFinalize_outside hp hin hlen env.outPinned hi

/-- **What happens then**: native code leaves the array. -/
theorem call_overflow {hasher : Hasher} (hsim : s.Simulates w (some hasher)) {op : StreamOp}
    (hno : ¬ op.NoOverflow) (hpin : op.pinned env = true) : (s.call p w op env).1 = .fault := by
  rw [(call_sim hsim op env).1, hpin, StreamOp.step_overflow hno]

/-- The default length is always safe. -/
theorem native_access_default (hp : p.Agree) (hlen : 0 < (a.size - offset).toInt) :
    UpdateInside p w s a offset (a.size - offset) env ∧
      FinalizeInside p w s a offset (a.size - offset) env := by
  have hno : ¬ (overflows offset (a.size - offset) ∧ s.hasherPtr ≠ 0) :=
    fun h => not_overflows_default a h.1
  exact ⟨(update_inside_iff hlen).mpr hno, (finalize_inside_iff hp hlen).mpr hno⟩

end

end Blake3Stream

end Jni

end Blake3Kmp
