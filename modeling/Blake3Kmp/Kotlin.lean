/-
What the Kotlin sources use of their language: `Int`, `ByteArray`, exceptions.

* `Int32` is Kotlin's `Int`: its sums and differences wrap;
* `JByteArray` — an array of fewer than `2 ^ 31` bytes, the length of which is
  an `Int`;
* `Outcome` — how a call ends: it returns, it throws, or native code has done
  something undefined (`fault`), after which nothing is known;
* `inRange`, `overflows` — the two facts about an `offset` and a `length` that
  the range checks are about; `rangeCheck_iff` says that the check of the
  sources lets through exactly the ranges inside the array and those whose sum
  leaves the `Int` range.
-/
import Blake3Kmp.CheckedMemory

open CheckedMemory

namespace Blake3Kmp

/-! ### Exceptions -/

inductive ThrowableClass
  | illegalArgumentException
  | illegalStateException
  | negativeArraySizeException
  | indexOutOfBoundsException
  | outOfMemoryError
  | unsatisfiedLinkError
  | ioException
  | nullPointerException
  deriving DecidableEq, Repr

structure Throwable where
  cls : ThrowableClass
  message : String
  deriving DecidableEq, Repr

/-- `error(message)`. -/
def illegalState (message : String) : Throwable := ⟨.illegalStateException, message⟩

/-- How a call with result type `α` ends. -/
inductive Outcome (α : Type)
  | returned (value : α)
  | threw (e : Throwable)
  /-- Native code has read or written outside an object, or used freed memory. -/
  | fault

namespace Outcome

variable {α : Type}

def isFault : Outcome α → Bool
  | fault => true
  | _ => false

/-- Two calls end alike: the same value, or exceptions of the same class. -/
def Alike : Outcome α → Outcome α → Prop
  | returned a, returned b => a = b
  | threw e, threw e' => e.cls = e'.cls
  | fault, fault => True
  | _, _ => False

theorem Alike.refl (o : Outcome α) : o.Alike o := by
  cases o with
  | returned a => rfl
  | threw e => rfl
  | fault => trivial

theorem Alike.symm {o o' : Outcome α} (h : o.Alike o') : o'.Alike o := by
  cases o <;> cases o' <;> first | exact Eq.symm h | exact h

theorem Alike.trans {o o' o'' : Outcome α} (h : o.Alike o') (h' : o'.Alike o'') :
    o.Alike o'' := by
  cases o <;> cases o' <;> cases o'' <;>
    first | exact Eq.trans h h' | exact absurd h not_false | exact absurd h' not_false | exact h

theorem Alike.returned_iff {o o' : Outcome α} (h : o'.Alike o) {a : α} :
    o' = .returned a ↔ o = .returned a := by
  cases o <;> cases o' <;> simp_all [Alike]

theorem Alike.fault_iff {o o' : Outcome α} (h : o'.Alike o) : o' = .fault ↔ o = .fault := by
  cases o <;> cases o' <;> simp_all [Alike]

theorem isFault_iff {o : Outcome α} : o.isFault = true ↔ o = .fault := by
  cases o <;> simp [isFault]

end Outcome

/-! ### Byte arrays -/

structure JByteArray where
  bytes : List UInt8
  size_lt : bytes.length < 2 ^ 31

namespace JByteArray

/-- `size`. -/
def size (a : JByteArray) : Int32 := Int32.ofNat a.bytes.length

@[simp] theorem size_toInt (a : JByteArray) : a.size.toInt = a.bytes.length :=
  Int32.toInt_ofNat_of_lt a.size_lt

@[ext] theorem ext {a b : JByteArray} (h : a.bytes = b.bytes) : a = b := by
  cases a
  cases b
  cases h
  rfl

/-- `n` zeros, for a size that is not negative. -/
def zeros (n : Int32) : JByteArray where
  bytes := List.replicate n.toInt.toNat 0
  size_lt := by
    have := n.toInt_lt
    rw [List.length_replicate]
    omega

/-- `ByteArray(size)`. -/
def alloc (n : Int32) : Except Throwable JByteArray :=
  if n < 0 then .error ⟨.negativeArraySizeException, toString n.toInt⟩
  else .ok (zeros n)

/-- An array over other bytes; undefined for a length no array has. -/
def ofBytes (bytes : List UInt8) : Option JByteArray :=
  if h : bytes.length < 2 ^ 31 then some ⟨bytes, h⟩ else none

theorem ofBytes_eq_some {bytes : List UInt8} (h : bytes.length < 2 ^ 31) :
    ofBytes bytes = some ⟨bytes, h⟩ := dif_pos h

end JByteArray

/-! ### Ranges -/

/-- The range lies inside the array, as mathematical integers. -/
def inRange (a : JByteArray) (offset length : Int32) : Prop :=
  0 ≤ offset.toInt ∧ offset.toInt + length.toInt ≤ a.bytes.length

/-- The sum of a non-negative `offset` and `length` leaves the `Int` range. -/
def overflows (offset length : Int32) : Prop :=
  0 ≤ offset.toInt ∧ 2 ^ 31 ≤ offset.toInt + length.toInt

instance (a : JByteArray) (offset length : Int32) : Decidable (inRange a offset length) :=
  inferInstanceAs (Decidable (_ ∧ _))

instance (offset length : Int32) : Decidable (overflows offset length) :=
  inferInstanceAs (Decidable (_ ∧ _))

/-- `offset >= 0 && offset + length <= array.size`. -/
def rangeCheck (a : JByteArray) (offset length : Int32) : Bool :=
  decide (offset ≥ 0) && decide (offset + length ≤ a.size)

theorem pos_toInt {length : Int32} : ¬ length ≤ 0 ↔ 0 < length.toInt := by
  rw [Int32.le_iff_toInt_le, Int32.toInt_zero]
  omega

/-- **What the range check lets through.** -/
theorem rangeCheck_iff {a : JByteArray} {offset length : Int32} (h : ¬ length ≤ 0) :
    rangeCheck a offset length = true ↔ inRange a offset length ∨ overflows offset length := by
  have h1 := a.size_lt
  have h2 := offset.toInt_lt
  have h3 := length.toInt_lt
  have h4 := pos_toInt.mp h
  rw [rangeCheck, Bool.and_eq_true, decide_eq_true_iff, decide_eq_true_iff, ge_iff_le,
    Int32.le_iff_toInt_le, Int32.le_iff_toInt_le, Int32.toInt_zero, JByteArray.size_toInt,
    Int32.toInt_add, inRange, overflows]
  constructor
  · rintro ⟨h0, hle⟩
    by_cases hov : offset.toInt + length.toInt < 2 ^ 31
    · rw [Int.bmod_eq_of_le (by omega) (by omega)] at hle
      exact .inl ⟨h0, hle⟩
    · exact .inr ⟨h0, by omega⟩
  · rintro (⟨h0, hle⟩ | ⟨h0, hle⟩)
    · rw [Int.bmod_eq_of_le (by omega) (by omega)]
      exact ⟨h0, hle⟩
    · -- the wrapped sum is negative
      refine ⟨h0, ?_⟩
      have hwrap : (offset.toInt + length.toInt).bmod (2 ^ 32) =
          offset.toInt + length.toInt - 2 ^ 32 := by
        rw [← Int.sub_bmod_right]
        exact Int.bmod_eq_of_le (by omega) (by omega)
      omega

/-- A range in the array does not overflow. -/
theorem inRange.not_overflows {a : JByteArray} {offset length : Int32}
    (h : inRange a offset length) : ¬ overflows offset length := by
  obtain ⟨-, hle⟩ := h
  rintro ⟨-, hov⟩
  have hsize := a.size_lt
  omega

/-- The default length `size - offset` never overflows from a non-negative offset. -/
theorem not_overflows_default (a : JByteArray) {offset : Int32} :
    ¬ overflows offset (a.size - offset) := by
  rintro ⟨h0, hle⟩
  have h1 := a.size_lt
  have h2 := offset.toInt_lt
  rw [Int32.toInt_sub, JByteArray.size_toInt, Int.bmod_eq_of_le (by omega) (by omega)] at hle
  omega

end Blake3Kmp
