/-
A stream, without memory management.

Both `Blake3Stream` classes do the same with different resources behind them:
one native hasher while the stream is open, none after `close()`.  This file
states that common behaviour once, over an `Option Hasher`; the two classes are
shown to simulate it.

* `updateRange`, `finalizeRange` — `blake3_hasher_update` and
  `blake3_hasher_finalize` at `buffer + offset`, undefined outside the array;
* `StreamOp.step` — one operation: its outcome and the stream after it;
* `StreamOp.step_same` — stale memory makes no difference to either.
-/
import Blake3Kmp.HasherStale
import Blake3Kmp.Kotlin

open CheckedMemory

namespace Blake3Kmp

/-! ### The hasher and an array -/

/-- `blake3_hasher_update(hasher, buffer + offset, (size_t)length)` for the bytes `buffer` of
an array. -/
def updateRange (p : Platform) (hasher : Hasher) (input : JByteArray) (offset length : Int32) :
    Option Hasher :=
  if 0 ≤ offset.toInt then do
    let bytes ← readSlice input.bytes offset.toInt.toNat length.toInt.toNat
    blake3HasherUpdate p hasher bytes
  else none

/-- `blake3_hasher_finalize(hasher, buffer + offset, (size_t)length)`, as the new contents of
the array. -/
def finalizeRange (p : Platform) (hasher : Hasher) (out : JByteArray) (offset length : Int32) :
    Option JByteArray :=
  if 0 ≤ offset.toInt then do
    assertThat (offset.toInt.toNat + length.toInt.toNat ≤ out.bytes.length)
    let bytes ← blake3HasherFinalize p hasher out.bytes offset.toInt.toNat length.toInt.toNat
    JByteArray.ofBytes bytes
  else none

/-- The 32 bytes of a key. -/
def keyBytes (key : List UInt8) : Option (Bytes 32) :=
  if h : key.length = 32 then some ⟨key.toArray, by simpa using h⟩ else none

def keyBuf (key : JByteArray) : Option (Bytes 32) := keyBytes key.bytes

theorem size_eq_iff (a : JByteArray) : a.size = 32 ↔ a.bytes.length = 32 := by
  rw [← Int32.toInt_inj, JByteArray.size_toInt]
  show (a.bytes.length : ℤ) = 32 ↔ _
  omega

theorem keyBuf_isSome {key : JByteArray} (h : key.size = 32) : ∃ k, keyBuf key = some k :=
  ⟨_, dif_pos ((size_eq_iff key).mp h)⟩

theorem keyBuf_none {key : JByteArray} (h : ¬ key.size = 32) : keyBuf key = none :=
  dif_neg fun hlen => h ((size_eq_iff key).mpr hlen)

theorem keyBuf_size {key : JByteArray} {k : Bytes 32} (h : keyBuf key = some k) :
    key.size = 32 := by
  by_contra hne
  rw [keyBuf_none hne] at h
  exact absurd h (by simp)

/-! ### Operations -/

inductive StreamOp
  | update (input : JByteArray) (offset length : Int32)
  /-- `finalize(out, offset, length)`. -/
  | finalizeInto (out : JByteArray) (offset length : Int32)
  /-- `finalize(outLen)`. -/
  | finalize (outLen : Int32)
  | reset
  | close

/-- What an operation gives back: nothing, or an array it returned or has filled. -/
inductive Reply
  | unit
  | array (a : JByteArray)

namespace StreamOp

/-- `update(input, offset)`, with the default length. -/
def updateFrom (input : JByteArray) (offset : Int32) : StreamOp :=
  .update input offset (input.size - offset)

/-- `finalize(out, offset)`, with the default length. -/
def finalizeFrom (out : JByteArray) (offset : Int32) : StreamOp :=
  .finalizeInto out offset (out.size - offset)

/-- The operation has bytes to read or write, so its array must be pinned. -/
def RequestsPin : StreamOp → Prop
  | update _ _ length => 0 < length.toInt
  | finalizeInto _ _ length => 0 < length.toInt
  | finalize outLen => 0 < outLen.toInt
  | _ => False

/-- The range given does not overflow. -/
def NoOverflow : StreamOp → Prop
  | update _ offset length => ¬ overflows offset length
  | finalizeInto _ offset length => ¬ overflows offset length
  | _ => True

end StreamOp

def outOfBounds : Throwable := ⟨.illegalArgumentException, "Index out of bounds"⟩

def badKeySize : Throwable := ⟨.illegalArgumentException, "Key size must be 32 bytes"⟩

def badOutLen : Throwable := ⟨.illegalArgumentException, "Output length must be positive"⟩

def streamClosed : Throwable := ⟨.illegalStateException, "Blake3Stream has been closed"⟩

/-- The hasher of a new stream, keyed or not, in some memory. -/
def newHasher (memory : Hasher) : Option (Bytes 32) → Hasher
  | none => blake3HasherInit memory
  | some key => blake3HasherInitKeyed memory key

section

variable (p : Platform) (pinned : Bool)

/-- `update` on a stream; nothing is hashed when the array cannot be pinned. -/
def streamUpdate (self : Option Hasher) (input : JByteArray) (offset length : Int32) :
    Outcome Reply × Option Hasher :=
  if length ≤ 0 then (.returned .unit, self)
  else if ¬ rangeCheck input offset length then (.threw outOfBounds, self)
  else match self with
    | none => (.threw streamClosed, none)
    | some hasher =>
      if pinned then
        match updateRange p hasher input offset length with
        | some hasher => (.returned .unit, some hasher)
        | none => (.fault, some hasher)
      else (.returned .unit, some hasher)

/-- `finalize` into an array. -/
def streamFinalizeInto (self : Option Hasher) (out : JByteArray) (offset length : Int32) :
    Outcome Reply :=
  if length ≤ 0 then .returned (.array out)
  else if ¬ rangeCheck out offset length then .threw outOfBounds
  else match self with
    | none => .threw streamClosed
    | some hasher =>
      if pinned then
        match finalizeRange p hasher out offset length with
        | some out => .returned (.array out)
        | none => .fault
      else .returned (.array out)

/-- One operation on a stream: `none` is a closed one. -/
def StreamOp.step (self : Option Hasher) : StreamOp → Outcome Reply × Option Hasher
  | update input offset length => streamUpdate p pinned self input offset length
  | finalizeInto out offset length => (streamFinalizeInto p pinned self out offset length, self)
  | finalize outLen =>
    match JByteArray.alloc outLen with
    | .error e => (.threw e, self)
    | .ok result => (streamFinalizeInto p pinned self result 0 outLen, self)
  | reset =>
    match self with
    | none => (.threw streamClosed, none)
    | some hasher => (.returned .unit, some (blake3HasherReset hasher))
  | close => (.returned .unit, none)

end

/-- Without bytes to read or write it does not matter what is pinned. -/
theorem StreamOp.step_pinned {p : Platform} {self : Option Hasher} {op : StreamOp}
    (h : ¬ op.RequestsPin) (pinned : Bool) : op.step p pinned self = op.step p true self := by
  cases op with
  | update input offset length =>
    have hlen : length ≤ 0 := by
      by_contra hlen
      exact h (pos_toInt.mp hlen)
    rw [step, step, streamUpdate.eq_def, streamUpdate.eq_def, if_pos hlen, if_pos hlen]
  | finalizeInto out offset length =>
    have hlen : length ≤ 0 := by
      by_contra hlen
      exact h (pos_toInt.mp hlen)
    rw [step, step, streamFinalizeInto.eq_def, streamFinalizeInto.eq_def, if_pos hlen,
      if_pos hlen]
  | finalize outLen =>
    have hlen : outLen ≤ 0 := by
      by_contra hlen
      exact h (pos_toInt.mp hlen)
    rw [step, step]
    simp only [streamFinalizeInto.eq_def, if_pos hlen]
  | reset => rfl
  | close => rfl

/-! ### Ranges inside the array -/

section

variable {p : Platform} {hasher : Hasher} {a : JByteArray} {offset length : Int32}

/-- The bytes of a range. -/
def rangeBytes (a : JByteArray) (offset length : Int32) : List UInt8 :=
  (a.bytes.drop offset.toInt.toNat).take length.toInt.toNat

theorem rangeBytes_length (h : inRange a offset length) :
    (rangeBytes a offset length).length = length.toInt.toNat := by
  obtain ⟨h0, hle⟩ := h
  rw [rangeBytes, List.length_take, List.length_drop]
  omega

theorem updateRange_eq (h : inRange a offset length) (hpos : 0 < length.toInt) :
    updateRange p hasher a offset length =
      blake3HasherUpdate p hasher (rangeBytes a offset length) := by
  obtain ⟨h0, hle⟩ := h
  rw [updateRange, if_pos h0, readSlice_eq_some (by omega)]
  rfl

theorem updateRange_outside (h : ¬ inRange a offset length) (hpos : 0 < length.toInt) :
    updateRange p hasher a offset length = none := by
  rw [updateRange]
  by_cases h0 : 0 ≤ offset.toInt
  · rw [if_pos h0, readSlice, if_neg]
    · rfl
    · rw [inRange] at h
      omega
  · rw [if_neg h0]

theorem finalizeRange_eq (h : inRange a offset length) (hpos : 0 < length.toInt) :
    finalizeRange p hasher a offset length =
      (blake3HasherFinalize p hasher a.bytes offset.toInt.toNat length.toInt.toNat).bind
        JByteArray.ofBytes := by
  obtain ⟨h0, hle⟩ := h
  rw [finalizeRange, if_pos h0, assertThat_eq_some (by rw [decide_eq_true_iff]; omega)]
  rfl

theorem finalizeRange_outside (h : ¬ inRange a offset length) (hpos : 0 < length.toInt) :
    finalizeRange p hasher a offset length = none := by
  rw [finalizeRange]
  by_cases h0 : 0 ≤ offset.toInt
  · rw [if_pos h0, assertThat, if_neg]
    · rfl
    · rw [inRange] at h
      rw [decide_eq_true_iff]
      omega
  · rw [if_neg h0]

end

/-! ### Stale memory -/

/-- Two streams that differ in stale memory only. -/
def StreamSame (self self' : Option Hasher) : Prop := Option.Rel Hasher.Same self self'

theorem newHasher_same (memory memory' : Hasher) (key : Option (Bytes 32)) :
    (newHasher memory key).Same (newHasher memory' key) := by
  cases key with
  | none => exact hasherInitBase_same memory memory' iv 0
  | some key => exact hasherInitBase_same memory memory' (loadKeyWords key) Flags.keyedHash

section

variable {p : Platform} {self self' : Option Hasher} (hs : StreamSame self self')
include hs

theorem streamFinalizeInto_same (pinned : Bool) (out : JByteArray) (offset length : Int32) :
    streamFinalizeInto p pinned self out offset length =
      streamFinalizeInto p pinned self' out offset length := by
  cases hs with
  | none => rfl
  | @some h h' hs =>
    have hfin : finalizeRange p h out offset length = finalizeRange p h' out offset length := by
      rw [finalizeRange, finalizeRange, blake3HasherFinalize, blake3HasherFinalize,
        blake3HasherFinalizeSeek_same p hs]
    rw [streamFinalizeInto, streamFinalizeInto, hfin]

theorem streamUpdate_same (pinned : Bool) (input : JByteArray) (offset length : Int32) :
    (streamUpdate p pinned self input offset length).1 =
        (streamUpdate p pinned self' input offset length).1 ∧
      StreamSame (streamUpdate p pinned self input offset length).2
        (streamUpdate p pinned self' input offset length).2 := by
  rw [streamUpdate.eq_def, streamUpdate.eq_def]
  by_cases h0 : length ≤ 0
  · rw [if_pos h0, if_pos h0]
    exact ⟨rfl, hs⟩
  rw [if_neg h0, if_neg h0]
  by_cases hr : ¬ rangeCheck input offset length = true
  · rw [if_pos hr, if_pos hr]
    exact ⟨rfl, hs⟩
  rw [if_neg hr, if_neg hr]
  cases hs with
  | none => exact ⟨rfl, .none⟩
  | @some h h' hs =>
    cases pinned with
    | false => exact ⟨rfl, .some hs⟩
    | true =>
      have hupd : Option.Rel Hasher.Same (updateRange p h input offset length)
          (updateRange p h' input offset length) := by
        rw [updateRange, updateRange]
        split_ifs
        · refine rel_bind (rel_refl _) fun bytes _ hb => ?_
          subst hb
          exact blake3HasherUpdate_same p hs bytes
        · exact .none
      simp only [if_true]
      generalize updateRange p h input offset length = r at hupd ⊢
      generalize updateRange p h' input offset length = r' at hupd ⊢
      cases hupd with
      | none => exact ⟨rfl, .some hs⟩
      | some hs' => exact ⟨rfl, .some hs'⟩

/-- **One operation on streams that differ in stale memory only**: the same outcome, and
streams that differ in stale memory only. -/
theorem StreamOp.step_same (pinned : Bool) (op : StreamOp) :
    (op.step p pinned self).1 = (op.step p pinned self').1 ∧
      StreamSame (op.step p pinned self).2 (op.step p pinned self').2 := by
  cases op with
  | update input offset length => exact streamUpdate_same hs pinned input offset length
  | finalizeInto out offset length =>
    exact ⟨streamFinalizeInto_same hs pinned out offset length, hs⟩
  | finalize outLen =>
    rw [StreamOp.step, StreamOp.step]
    cases JByteArray.alloc outLen with
    | error e => exact ⟨rfl, hs⟩
    | ok result => exact ⟨streamFinalizeInto_same hs pinned result 0 outLen, hs⟩
  | reset =>
    cases hs with
    | none => exact ⟨rfl, .none⟩
    | some hs => exact ⟨rfl, .some (blake3HasherReset_same hs)⟩
  | close => exact ⟨rfl, .none⟩

end

end Blake3Kmp
