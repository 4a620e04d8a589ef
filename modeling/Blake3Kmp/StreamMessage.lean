/-
What a stream is for: the digest of the bytes passed to it.

The message of a stream is the concatenation of the ranges passed to `update`
since the last `reset`.  A run of operations is `Streaming` when every array
that `finalize` returns or fills holds what a new hasher with the same key
makes of that message in one update (`freshDigest`).

* `updateRange_absorbed`, `finalizeRange_absorbed` — the hasher of a stream
  follows its message;
* `freshDigest_eq` — one update of the whole message gives the reference
  digest;
* `step_streaming` — one operation of an open stream keeps a run streaming.
-/
import Blake3Kmp.HasherInvariant
import Blake3Kmp.Stream

open CheckedMemory TreeHash

namespace Blake3Kmp

/-! ### The two modes -/

/-- The key words of a hasher made with or without a key. -/
def modeKey : Option (Bytes 32) → Words 8
  | none => iv
  | some key => loadKeyWords key

def modeFlags : Option (Bytes 32) → UInt8
  | none => 0
  | some _ => Flags.keyedHash

/-- The reference digest of a message, keyed or not. -/
def modeDigest (key : Option (Bytes 32)) (m : List UInt8) (n : ℕ) : List UInt8 :=
  digest (modeKey key) (modeFlags key) m n

/-- The hasher has absorbed `m` in the mode of `key`. -/
def Hasher.Follows (hasher : Hasher) (key : Option (Bytes 32)) (m : List UInt8) : Prop :=
  hasher.Absorbed (modeKey key) (modeFlags key) m

theorem newHasher_follows (memory : Hasher) (key : Option (Bytes 32)) :
    (newHasher memory key).Follows key [] := by
  cases key with
  | none => exact blake3HasherInit_absorbed memory
  | some key => exact blake3HasherInitKeyed_absorbed memory key

/-- What a new hasher makes of the whole message in one update. -/
def freshDigest (p : Platform) (key : Option (Bytes 32)) (m : List UInt8) (n : ℕ) :
    Option (List UInt8) := do
  let hasher ← blake3HasherUpdate p (newHasher zeroedHasher key) m
  blake3HasherFinalize p hasher (List.replicate n 0) 0 n

/-- `out'` is `out` with `bytes` at `offset`, and everything else as it was. -/
def Filled (out : JByteArray) (offset : ℕ) (bytes : List UInt8) (out' : JByteArray) : Prop :=
  out'.bytes = out.bytes.take offset ++ bytes ++ out.bytes.drop (offset + bytes.length)

/-- A byte outside the range filled. -/
theorem Filled.outside {out out' : JByteArray} {offset : ℕ} {bytes : List UInt8}
    (h : Filled out offset bytes out') (hle : offset + bytes.length ≤ out.bytes.length) {i : ℕ}
    (hi : i < offset ∨ offset + bytes.length ≤ i) : out'.bytes[i]? = out.bytes[i]? := by
  have htake : (out.bytes.take offset).length = offset := by
    rw [List.length_take]
    omega
  rw [h, List.append_assoc]
  rcases hi with hlt | hge
  · rw [List.getElem?_append_left (by omega), List.getElem?_take_of_lt hlt]
  · rw [List.getElem?_append_right (by omega), List.getElem?_append_right (by omega), htake,
      List.getElem?_drop]
    congr 1
    omega

/-! ### The hasher of a stream -/

section

variable {p : Platform} (hp : p.Agree) {key : Option (Bytes 32)} {hasher : Hasher}
  {m : List UInt8} {a : JByteArray} {offset length : Int32}
include hp

theorem freshDigest_eq (hlt : m.length < 2 ^ 64) (n : ℕ) :
    freshDigest p key m n = some (modeDigest key m n) := by
  obtain ⟨h, hupd, hm⟩ := blake3HasherUpdate_absorbed hp (newHasher_follows zeroedHasher key)
    (show ([] : List UInt8).length + m.length < 2 ^ 64 by simpa using hlt)
  rw [freshDigest, hupd]
  simp only [Option.bind_eq_bind, Option.bind_some]
  rw [blake3HasherFinalize_eq hp hm (by simp), writeSlice_eq_some (by simp), List.nil_append,
    modeDigest]
  simp

theorem updateRange_absorbed (hm : hasher.Follows key m) (hr : inRange a offset length)
    (hpos : 0 < length.toInt) (hlt : (m ++ rangeBytes a offset length).length < 2 ^ 64) :
    ∃ hasher', updateRange p hasher a offset length = some hasher' ∧
      hasher'.Follows key (m ++ rangeBytes a offset length) := by
  rw [List.length_append] at hlt
  rw [updateRange_eq hr hpos]
  exact blake3HasherUpdate_absorbed hp hm hlt

theorem finalizeRange_absorbed (hm : hasher.Follows key m) (hr : inRange a offset length)
    (hpos : 0 < length.toInt) :
    ∃ a', finalizeRange p hasher a offset length = some a' ∧
      Filled a offset.toInt.toNat (modeDigest key m length.toInt.toNat) a' := by
  obtain ⟨h0, hle⟩ := id hr
  have hsize := a.size_lt
  have hdig : (modeDigest key m length.toInt.toNat).length = length.toInt.toNat :=
    digest_length _ _ _ _
  rw [finalizeRange_eq hr hpos, blake3HasherFinalize_eq hp hm (by omega),
    writeSlice_eq_some (by rw [digest_length]; omega)]
  simp only [Option.bind_some]
  rw [JByteArray.ofBytes_eq_some]
  · exact ⟨_, rfl, rfl⟩
  · simp only [List.length_append, List.length_take, List.length_drop, digest_length]
    omega

end

/-! ### Runs -/

/-- One operation of a run: whether the environment granted what it asked for, and how it
ended. -/
structure Event where
  op : StreamOp
  granted : Bool
  outcome : Outcome Reply

/-- An operation that no argument check turns down. -/
def StreamOp.Valid : StreamOp → Prop
  | update input offset length => length ≤ 0 ∨ inRange input offset length
  | finalizeInto out offset length => length ≤ 0 ∨ inRange out offset length
  | finalize outLen => 0 ≤ outLen
  | _ => True

theorem not_overflows_of_le {offset length : Int32} (h : length ≤ 0) :
    ¬ overflows offset length := by
  rintro ⟨h0, hov⟩
  have h1 := offset.toInt_lt
  rw [Int32.le_iff_toInt_le, Int32.toInt_zero] at h
  omega

/-- An open stream on a range that overflows: the simulated one is undefined. -/
theorem StreamOp.step_overflow {p : Platform} {hasher : Hasher} {op : StreamOp} (hno : ¬ op.NoOverflow) :
    (op.step p true (some hasher)).1 = .fault := by
  have hpasses : ∀ {a : JByteArray} {offset length : Int32}, overflows offset length →
      ¬ length ≤ 0 ∧ ¬ ¬ rangeCheck a offset length = true ∧ ¬ inRange a offset length := by
    intro a offset length hov
    have hlen : ¬ length ≤ 0 := fun hle => not_overflows_of_le hle hov
    exact ⟨hlen, not_not.mpr ((rangeCheck_iff hlen).mpr (.inr hov)),
      fun hin => hin.not_overflows hov⟩
  cases op with
  | update input offset length =>
    obtain ⟨hlen, hcheck, hout⟩ := hpasses (a := input) (not_not.mp hno)
    rw [step, streamUpdate.eq_def, if_neg hlen, if_neg hcheck]
    simp only [if_true, updateRange_outside hout (pos_toInt.mp hlen)]
  | finalizeInto out offset length =>
    obtain ⟨hlen, hcheck, hout⟩ := hpasses (a := out) (not_not.mp hno)
    rw [step, streamFinalizeInto.eq_def, if_neg hlen, if_neg hcheck]
    simp only [if_true, finalizeRange_outside hout (pos_toInt.mp hlen)]
  | finalize outLen => exact absurd trivial hno
  | reset => exact absurd trivial hno
  | close => exact absurd trivial hno

/-- A valid operation does not overflow. -/
theorem StreamOp.Valid.noOverflow {op : StreamOp} (h : op.Valid) : op.NoOverflow := by
  cases op with
  | update input offset length =>
    rcases h with hlen | hin
    · exact not_overflows_of_le hlen
    · exact hin.not_overflows
  | finalizeInto out offset length =>
    rcases h with hlen | hin
    · exact not_overflows_of_le hlen
    · exact hin.not_overflows
  | finalize outLen => trivial
  | reset => trivial
  | close => trivial

/-- The message after an operation that returned. -/
def StreamOp.message (m : List UInt8) : StreamOp → List UInt8
  | update input offset length => if length ≤ 0 then m else m ++ rangeBytes input offset length
  | reset => []
  | _ => m

/-- The message after an operation: only one that returned changes it. -/
def Event.message (m : List UInt8) (e : Event) : List UInt8 :=
  match e.outcome with
  | .returned _ => e.op.message m
  | _ => m

/-- What an operation that returned must have given back, on the message `m`. -/
def StreamOp.Yields (p : Platform) (key : Option (Bytes 32)) (m : List UInt8) (reply : Reply) :
    StreamOp → Prop
  | finalizeInto out offset length =>
    if length ≤ 0 then reply = .array out
    else ∃ bytes out', freshDigest p key m length.toInt.toNat = some bytes ∧
      reply = .array out' ∧ Filled out offset.toInt.toNat bytes out'
  | finalize outLen =>
    ∃ out, reply = .array out ∧ freshDigest p key m outLen.toInt.toNat = some out.bytes
  | _ => reply = .unit

/-- An event is right on the message `m`: nothing undefined happened, what was returned is
what it must be, and a valid operation that was granted what it asked for did return. -/
structure Event.Right (p : Platform) (key : Option (Bytes 32)) (m : List UInt8) (e : Event) :
    Prop where
  defined : e.outcome ≠ .fault
  yields : ∀ r, e.outcome = .returned r → e.op.Yields p key m r
  returns : e.granted = true → e.op.Valid → ∃ r, e.outcome = .returned r

theorem Event.Right.isFault {p : Platform} {key : Option (Bytes 32)} {m : List UInt8} {e : Event}
    (h : e.Right p key m) : e.outcome.isFault = false := by
  cases hc : e.outcome with
  | returned r => rfl
  | threw t => rfl
  | fault => exact absurd hc h.defined

/-- A call that throws is right, unless it was valid and granted what it asked for. -/
theorem Event.right_threw {p : Platform} {key : Option (Bytes 32)} {m : List UInt8}
    {op : StreamOp} {granted : Bool} {e : Throwable} (h : granted = true → ¬ op.Valid) :
    (⟨op, granted, .threw e⟩ : Event).Right p key m :=
  ⟨by simp, fun r hr => by simp at hr, fun hg hv => absurd hv (h hg)⟩

section

variable {op : StreamOp} {granted : Bool} {o o' : Outcome Reply} (ha : o'.Alike o)
include ha

/-- Events that end alike are right together. -/
theorem Event.Right.alike {p : Platform} {key : Option (Bytes 32)} {m : List UInt8}
    (h : (⟨op, granted, o⟩ : Event).Right p key m) :
    (⟨op, granted, o'⟩ : Event).Right p key m where
  defined := fun hf => h.defined (ha.fault_iff.mp hf)
  yields := fun r hr => h.yields r (ha.returned_iff.mp hr)
  returns := by
    intro hg hv
    obtain ⟨r, hr⟩ := h.returns hg hv
    exact ⟨r, ha.returned_iff.mpr hr⟩

theorem Event.message_alike (m : List UInt8) :
    Event.message m ⟨op, granted, o'⟩ = Event.message m ⟨op, granted, o⟩ := by
  cases o with
  | returned r => rw [ha.returned_iff.mpr rfl]
  | threw e =>
    cases o' with
    | returned r => exact absurd ha not_false
    | threw e' => rfl
    | fault => exact absurd ha not_false
  | fault => rw [ha.fault_iff.mpr rfl]

end

/-- Every event of a run is right on the message before it. -/
def Streaming (p : Platform) (key : Option (Bytes 32)) (m : List UInt8) : List Event → Prop
  | [] => True
  | e :: es => e.Right p key m ∧ Streaming p key (e.message m) es

/-- The message with the range of the next operation is always shorter than `2 ^ 64` bytes,
the most that one update can be given. -/
def MessageFits (m : List UInt8) : List Event → Prop
  | [] => True
  | e :: es => (e.op.message m).length < 2 ^ 64 ∧ MessageFits (e.message m) es

/-! ### One operation of an open stream -/

theorem zeros_length (n : Int32) : (JByteArray.zeros n).bytes.length = n.toInt.toNat :=
  List.length_replicate

theorem alloc_eq_ok {n : Int32} (h : 0 ≤ n.toInt) :
    JByteArray.alloc n = .ok (JByteArray.zeros n) := by
  rw [JByteArray.alloc, if_neg]
  rw [Int32.lt_iff_toInt_lt, Int32.toInt_zero]
  omega

theorem alloc_eq_error {n : Int32} (h : n.toInt < 0) :
    JByteArray.alloc n = .error ⟨.negativeArraySizeException, toString n.toInt⟩ := by
  rw [JByteArray.alloc, if_pos]
  rw [Int32.lt_iff_toInt_lt, Int32.toInt_zero]
  exact h

theorem inRange_zeros {n : Int32} (h : 0 ≤ n.toInt) : inRange (JByteArray.zeros n) 0 n := by
  rw [inRange, zeros_length, Int32.toInt_zero]
  omega

/-- A range that is not let through is not in the array. -/
theorem not_inRange_of_check {a : JByteArray} {offset length : Int32} (hlen : ¬ length ≤ 0)
    (hr : ¬ rangeCheck a offset length = true) : ¬ inRange a offset length :=
  fun h => hr ((rangeCheck_iff hlen).mpr (.inl h))

/-- A range that is let through and does not overflow is in the array. -/
theorem inRange_of_check {a : JByteArray} {offset length : Int32} (hlen : ¬ length ≤ 0)
    (hr : rangeCheck a offset length = true) (hno : ¬ overflows offset length) :
    inRange a offset length :=
  ((rangeCheck_iff hlen).mp hr).resolve_right hno

section

variable {p : Platform} (hp : p.Agree) {key : Option (Bytes 32)} {hasher : Hasher}
  {m : List UInt8} (hm : hasher.Follows key m) (granted : Bool)
include hp hm

theorem streamUpdate_right {input : JByteArray} {offset length : Int32}
    (hno : ¬ overflows offset length)
    (hfit : ((StreamOp.update input offset length).message m).length < 2 ^ 64) :
    (⟨.update input offset length, granted,
        (streamUpdate p true (some hasher) input offset length).1⟩ : Event).Right p key m ∧
      ∃ hasher', (streamUpdate p true (some hasher) input offset length).2 = some hasher' ∧
        hasher'.Follows key (Event.message m ⟨.update input offset length, granted,
          (streamUpdate p true (some hasher) input offset length).1⟩) := by
  rw [StreamOp.message] at hfit
  rw [streamUpdate.eq_def]
  by_cases hlen : length ≤ 0
  · rw [if_pos hlen]
    refine ⟨⟨by simp, fun r hr => (Outcome.returned.inj hr).symm, fun _ _ => ⟨_, rfl⟩⟩, hasher,
      rfl, ?_⟩
    rwa [Event.message, StreamOp.message, if_pos hlen]
  rw [if_neg hlen] at hfit ⊢
  by_cases hr : ¬ rangeCheck input offset length = true
  · rw [if_pos hr]
    refine ⟨⟨by simp, fun r h => by simp at h, fun _ hv => ?_⟩, hasher, rfl, hm⟩
    exact absurd (hv.resolve_left hlen) (not_inRange_of_check hlen hr)
  · have hin := inRange_of_check hlen (not_not.mp hr) hno
    obtain ⟨hasher', hupd, hm'⟩ := updateRange_absorbed hp hm hin (pos_toInt.mp hlen) hfit
    rw [if_neg hr]
    simp only [if_true, hupd]
    refine ⟨⟨by simp, fun r h => (Outcome.returned.inj h).symm, fun _ _ => ⟨_, rfl⟩⟩, hasher',
      rfl, ?_⟩
    rwa [Event.message, StreamOp.message, if_neg hlen]

theorem streamFinalizeInto_right {out : JByteArray} {offset length : Int32}
    (hlt : m.length < 2 ^ 64) (hno : ¬ overflows offset length) :
    (⟨.finalizeInto out offset length, granted,
      streamFinalizeInto p true (some hasher) out offset length⟩ : Event).Right p key m := by
  rw [streamFinalizeInto.eq_def]
  by_cases hlen : length ≤ 0
  · rw [if_pos hlen]
    refine ⟨by simp, fun r hr => ?_, fun _ _ => ⟨_, rfl⟩⟩
    rw [StreamOp.Yields, if_pos hlen]
    exact (Outcome.returned.inj hr).symm
  rw [if_neg hlen]
  by_cases hr : ¬ rangeCheck out offset length = true
  · rw [if_pos hr]
    refine ⟨by simp, fun r h => by simp at h, fun _ hv => ?_⟩
    exact absurd (hv.resolve_left hlen) (not_inRange_of_check hlen hr)
  · have hin := inRange_of_check hlen (not_not.mp hr) hno
    obtain ⟨out', hfin, hfill⟩ := finalizeRange_absorbed hp hm hin (pos_toInt.mp hlen)
    rw [if_neg hr]
    simp only [if_true, hfin]
    refine ⟨by simp, fun r h => ?_, fun _ _ => ⟨_, rfl⟩⟩
    rw [StreamOp.Yields, if_neg hlen]
    exact ⟨_, out', freshDigest_eq hp hlt _, (Outcome.returned.inj h).symm, hfill⟩

/-- Finalizing a hasher into a new array of the length wanted. -/
theorem finalizeRange_zeros {n : Int32} (hpos : 0 < n.toInt) :
    ∃ out, finalizeRange p hasher (JByteArray.zeros n) 0 n = some out ∧
      out.bytes = modeDigest key m n.toInt.toNat := by
  obtain ⟨out, hfin, hfill⟩ := finalizeRange_absorbed hp hm (inRange_zeros hpos.le) hpos
  have hdig : (modeDigest key m n.toInt.toNat).length = n.toInt.toNat := digest_length _ _ _ _
  refine ⟨out, hfin, ?_⟩
  rw [hfill, Int32.toInt_zero, Int.toNat_zero, List.take_zero, List.nil_append, Nat.zero_add,
    hdig, List.drop_eq_nil_of_le (zeros_length n).le, List.append_nil]

theorem streamFinalizeInto_zeros {n : Int32} (hn : 0 ≤ n.toInt) :
    ∃ out, streamFinalizeInto p true (some hasher) (JByteArray.zeros n) 0 n =
        .returned (.array out) ∧ out.bytes = modeDigest key m n.toInt.toNat := by
  rw [streamFinalizeInto.eq_def]
  by_cases hlen : n ≤ 0
  · -- no bytes are wanted
    have h0 : n.toInt.toNat = 0 := by
      rw [Int32.le_iff_toInt_le, Int32.toInt_zero] at hlen
      omega
    have hnil : (JByteArray.zeros n).bytes = [] :=
      List.length_eq_zero_iff.mp (by rw [zeros_length, h0])
    rw [if_pos hlen]
    refine ⟨_, rfl, ?_⟩
    rw [hnil, h0]
    rfl
  · have hcheck : ¬ ¬ rangeCheck (JByteArray.zeros n) 0 n = true :=
      not_not.mpr ((rangeCheck_iff hlen).mpr (.inl (inRange_zeros hn)))
    obtain ⟨out, hfin, hout⟩ := finalizeRange_zeros hp hm (pos_toInt.mp hlen)
    rw [if_neg hlen, if_neg hcheck]
    simp only [if_true, hfin]
    exact ⟨out, rfl, hout⟩

/-- **One operation of an open stream is right**, and the stream goes on following its
message. -/
theorem step_right {op : StreamOp} (hop : op ≠ .close) (hno : op.NoOverflow)
    (hlt : m.length < 2 ^ 64) (hfit : (op.message m).length < 2 ^ 64) :
    (⟨op, granted, (op.step p true (some hasher)).1⟩ : Event).Right p key m ∧
      ∃ hasher', (op.step p true (some hasher)).2 = some hasher' ∧
        hasher'.Follows key
          (Event.message m ⟨op, granted, (op.step p true (some hasher)).1⟩) := by
  cases op with
  | update input offset length => exact streamUpdate_right hp hm granted hno hfit
  | finalizeInto out offset length =>
    refine ⟨streamFinalizeInto_right hp hm granted hlt hno, hasher, rfl, ?_⟩
    rw [Event.message]
    split
    · exact hm
    · exact hm
  | finalize outLen =>
    rw [StreamOp.step]
    by_cases hn : 0 ≤ outLen.toInt
    · obtain ⟨out, heq, hout⟩ := streamFinalizeInto_zeros hp hm hn
      rw [alloc_eq_ok hn]
      simp only [heq]
      refine ⟨⟨by simp, fun r hr => ?_, fun _ _ => ⟨_, rfl⟩⟩, hasher, rfl, hm⟩
      rw [StreamOp.Yields]
      exact ⟨out, (Outcome.returned.inj hr).symm, by rw [freshDigest_eq hp hlt, hout]⟩
    · rw [alloc_eq_error (by omega)]
      refine ⟨⟨by simp, fun r hr => by simp at hr, fun _ hv => ?_⟩, hasher, rfl, hm⟩
      rw [StreamOp.Valid, Int32.le_iff_toInt_le, Int32.toInt_zero] at hv
      exact absurd hv hn
  | reset =>
    refine ⟨⟨by simp [StreamOp.step], fun r hr => (Outcome.returned.inj hr).symm,
      fun _ _ => ⟨_, rfl⟩⟩, _, rfl, ?_⟩
    exact blake3HasherReset_absorbed hm
  | close => exact absurd rfl hop

end

end Blake3Kmp
