/-
The JNI module computes digests.

* `hash_eq_digest` — `Blake3.hash` and `Blake3.keyedHash` return the reference
  digest, on every target;
* `run_streaming` — a stream that is given ranges which do not overflow, and
  whose arrays are pinned, is `Streaming`, whatever the calls and their order.
-/
import Blake3Kmp.JniStream
import Blake3Kmp.StreamMessage

open CheckedMemory

namespace Blake3Kmp

namespace Jni

/-! ### One-shot functions -/

/-- What a one-shot call returns, for each way of pinning its arrays: without the input the
digest of the empty message, without the output zeros. -/
def oneShotBytes (key : Option (Bytes 32)) (data : JByteArray) (outLen : Int32) (env : JvmEnv) :
    List UInt8 :=
  if env.outPinned then
    modeDigest key (if env.inPinned then data.bytes else []) outLen.toInt.toNat
  else (JByteArray.zeros outLen).bytes

section

variable {p : Platform} (hp : p.Agree)
include hp

/-- The hasher of a one-shot call after its input: without a pin it is still a new one. -/
theorem hashWith_update {hasher : Hasher} {key : Option (Bytes 32)} (hm : hasher.Follows key [])
    (data : JByteArray) (env : JvmEnv) :
    ∃ hasher', (if data.size > 0 ∧ env.inPinned = true then updateRange p hasher data 0 data.size
        else some hasher) = some hasher' ∧
      hasher'.Follows key (if env.inPinned then data.bytes else []) := by
  have hsize := data.size_lt
  by_cases h : data.size > 0 ∧ env.inPinned = true
  · obtain ⟨hgt, hin⟩ := h
    have hlt : (0 : Int32).toInt < data.size.toInt := Int32.lt_iff_toInt_lt.mp hgt
    have hr : inRange data 0 data.size := by
      rw [inRange, JByteArray.size_toInt, Int32.toInt_zero]
      omega
    have hall : rangeBytes data 0 data.size = data.bytes := by
      rw [rangeBytes, JByteArray.size_toInt, Int32.toInt_zero]
      simp
    obtain ⟨hasher', hupd, hm'⟩ := updateRange_absorbed hp hm hr hlt
      (by rw [hall, List.nil_append]; omega)
    rw [hall, List.nil_append] at hm'
    rw [if_pos ⟨hgt, hin⟩, if_pos hin]
    exact ⟨hasher', hupd, hm'⟩
  · rw [if_neg h]
    refine ⟨hasher, rfl, ?_⟩
    cases hin : env.inPinned with
    | false => exact hm
    | true =>
      -- there is nothing to pin
      have hnil : data.bytes = [] := by
        by_contra hne
        have hpos := List.length_pos_of_ne_nil hne
        refine h ⟨?_, hin⟩
        show (0 : Int32) < data.size
        rw [Int32.lt_iff_toInt_lt, JByteArray.size_toInt, Int32.toInt_zero]
        omega
      rw [if_pos rfl, hnil]
      exact hm

theorem hashWith_bytes {hasher : Hasher} {key : Option (Bytes 32)} (hm : hasher.Follows key [])
    (data : JByteArray) {outLen : Int32} (hout : 0 < outLen.toInt) (env : JvmEnv) :
    ∃ r, JniBlake3.hashWith p hasher data 0 data.size (JByteArray.zeros outLen) outLen env =
        some r ∧ r.bytes = oneShotBytes key data outLen env := by
  obtain ⟨hasher', hupd, hm'⟩ := hashWith_update hp hm data env
  rw [JniBlake3.hashWith, hupd, oneShotBytes]
  simp only [Option.bind_eq_bind, Option.bind_some]
  cases env.outPinned with
  | false => exact ⟨_, rfl, rfl⟩
  | true => exact finalizeRange_zeros hp hm' hout

omit hp in
/-- The checks before a one-shot call. -/
theorem outLen_pos_checks {outLen : Int32} (hout : 0 < outLen.toInt) :
    outLen > 0 ∧ ¬ outLen ≤ 0 ∧ JByteArray.alloc outLen = .ok (JByteArray.zeros outLen) := by
  refine ⟨?_, pos_toInt.mpr hout, alloc_eq_ok hout.le⟩
  show (0 : Int32) < outLen
  rwa [Int32.lt_iff_toInt_lt, Int32.toInt_zero]

theorem hash_bytes (w : Native) (data : JByteArray) {outLen : Int32} (hout : 0 < outLen.toInt)
    {env : JvmEnv} (hload : env.loadFailure = none) :
    ∃ r, (hash p w data outLen env).1 = .returned r ∧
      r.bytes = oneShotBytes none data outLen env := by
  obtain ⟨hgt, hle, halloc⟩ := outLen_pos_checks hout
  obtain ⟨r, hr, hbytes⟩ := hashWith_bytes hp (newHasher_follows env.stackMemory none) data hout env
  refine ⟨r, ?_, hbytes⟩
  simp only [hash, hload, hgt, not_true_eq_false, if_false, halloc]
  rw [JniBlake3.hash, if_neg hle]
  simp only [show blake3HasherInit env.stackMemory = newHasher env.stackMemory none from rfl, hr]

theorem keyedHash_bytes (w : Native) {key : JByteArray} {k : Bytes 32} (hk : keyBuf key = some k)
    (data : JByteArray) {outLen : Int32} (hout : 0 < outLen.toInt) {env : JvmEnv}
    (hload : env.loadFailure = none) :
    ∃ r, (keyedHash p w key data outLen env).1 = .returned r ∧
      r.bytes = oneShotBytes (some k) data outLen env := by
  obtain ⟨hgt, hle, halloc⟩ := outLen_pos_checks hout
  obtain ⟨r, hr, hbytes⟩ := hashWith_bytes hp (newHasher_follows env.stackMemory (some k)) data hout
    env
  have hsize := keyBuf_size hk
  refine ⟨r, ?_, hbytes⟩
  simp only [keyedHash, hload, hsize, hgt, not_true_eq_false, if_false, halloc]
  rw [JniBlake3.keyedHash, if_neg hle, hk]
  simp only [show blake3HasherInitKeyed env.stackMemory k = newHasher env.stackMemory (some k)
    from rfl, hr]

omit hp in
/-- Once its arrays are pinned, a one-shot call returns the digest. -/
theorem oneShotBytes_pinned {key : Option (Bytes 32)} {data : JByteArray} {outLen : Int32}
    {env : JvmEnv} (hin : 0 < data.bytes.length → env.inPinned = true)
    (hpin : env.outPinned = true) :
    oneShotBytes key data outLen env = modeDigest key data.bytes outLen.toInt.toNat := by
  rw [oneShotBytes, if_pos hpin]
  by_cases h : env.inPinned = true
  · rw [if_pos h]
  · have hnil : data.bytes = [] := by
      by_contra hne
      exact h (hin (List.length_pos_of_ne_nil hne))
    rw [if_neg h, hnil]

theorem hash_eq (w : Native) (data : JByteArray) {outLen : Int32} (hout : 0 < outLen.toInt)
    {env : JvmEnv} (hload : env.loadFailure = none)
    (hin : 0 < data.bytes.length → env.inPinned = true) (hpin : env.outPinned = true) :
    ∃ r, (hash p w data outLen env).1 = .returned r ∧
      r.bytes = modeDigest none data.bytes outLen.toInt.toNat := by
  rw [← oneShotBytes_pinned hin hpin]
  exact hash_bytes hp w data hout hload

theorem keyedHash_eq (w : Native) {key : JByteArray} {k : Bytes 32} (hk : keyBuf key = some k)
    (data : JByteArray) {outLen : Int32} (hout : 0 < outLen.toInt) {env : JvmEnv}
    (hload : env.loadFailure = none) (hin : 0 < data.bytes.length → env.inPinned = true)
    (hpin : env.outPinned = true) :
    ∃ r, (keyedHash p w key data outLen env).1 = .returned r ∧
      r.bytes = modeDigest (some k) data.bytes outLen.toInt.toNat := by
  rw [← oneShotBytes_pinned hin hpin]
  exact keyedHash_bytes hp w hk data hout hload

/-- **`Blake3.hash` and `Blake3.keyedHash` return the BLAKE3 digest**, the one of the
reference tree, on every target, once the library loads and the arrays are pinned. -/
theorem hash_eq_digest (w : Native) (data : JByteArray) {outLen : Int32}
    (hout : 0 < outLen.toInt) {env : JvmEnv} (hload : env.loadFailure = none)
    (hin : 0 < data.bytes.length → env.inPinned = true) (hpin : env.outPinned = true) :
    (∃ r, (hash p w data outLen env).1 = .returned r ∧
      r.bytes = digest iv 0 data.bytes outLen.toInt.toNat) ∧
    ∀ key k, keyBuf key = some k →
      ∃ r, (keyedHash p w key data outLen env).1 = .returned r ∧
        r.bytes = digest (loadKeyWords k) Flags.keyedHash data.bytes outLen.toInt.toNat := by
  constructor
  · exact hash_eq hp w data hout hload hin hpin
  · intro key k hk
    exact keyedHash_eq hp w hk data hout hload hin hpin

omit hp in
/-- The three bytes `abc`. -/
theorem hash_eq_digest_abc :
    ∃ r, (hash linuxPortable .initial ⟨[97, 98, 99], by decide⟩ 32 (.granting 4096)).1 =
        .returned r ∧ r.bytes = digest iv 0 [97, 98, 99] 32 :=
  (hash_eq_digest linuxPortable_agree .initial ⟨[97, 98, 99], by decide⟩ (by decide) rfl
    (fun _ => rfl) rfl).1

end

/-! ### Streams -/

namespace Blake3Stream

/-- A run of operations, each in its own environment; nothing follows one that is
undefined. -/
def run (p : Platform) (w : Native) (s : Blake3Stream) :
    List (StreamOp × JvmEnv) → List Event × Native × Blake3Stream
  | [] => ([], w, s)
  | (op, env) :: rest =>
    let r := s.call p w op env
    let e : Event := ⟨op, op.pinned env, r.1⟩
    if r.1.isFault then ([e], r.2)
    else
      let rs := run p r.2.1 r.2.2 rest
      (e :: rs.1, rs.2)

/-- The stream is open, and its hasher follows the message `m`. -/
def Follows (w : Native) (s : Blake3Stream) (key : Option (Bytes 32)) (m : List UInt8) : Prop :=
  ∃ hasher, s.Simulates w (some hasher) ∧ hasher.Follows key m

theorem new_follows {w w' : Native} {env : JvmEnv} (hmal : env.MallocOk w)
    {key : Option JByteArray} {k : Option (Bytes 32)} (hk : checkKey key = .ok k)
    {s : Blake3Stream} (hnew : new w key env = (.returned s, w')) : s.Follows w' k [] := by
  rcases new_cases hmal key with ⟨e, -, he, -⟩ | ⟨a, memory, k', c, hok, -, h0, -, -, heq⟩
  · rw [hnew] at he
    exact absurd he (by simp)
  · rw [hnew, Prod.mk.injEq] at heq
    obtain ⟨hs, rfl⟩ := heq
    obtain rfl := Outcome.returned.inj hs
    obtain rfl : k' = k := Except.ok.inj ((newOutcome_eq_ok.mp hok).2.1.symm.trans hk)
    exact ⟨_, ⟨h0, Native.put_heap_self _ _ _⟩, newHasher_follows memory k'⟩

section

variable {p : Platform} (hp : p.Agree) {key : Option (Bytes 32)}
include hp

theorem call_right {w : Native} {s : Blake3Stream} {m : List UInt8} (hf : s.Follows w key m)
    {op : StreamOp} (hop : op ≠ .close) (hno : op.NoOverflow) {env : JvmEnv}
    (hpin : op.RequestsPin → op.pinned env = true) (hlt : m.length < 2 ^ 64)
    (hfit : (op.message m).length < 2 ^ 64) :
    (⟨op, op.pinned env, (s.call p w op env).1⟩ : Event).Right p key m ∧
      (s.call p w op env).2.2.Follows (s.call p w op env).2.1 key
        (Event.message m ⟨op, op.pinned env, (s.call p w op env).1⟩) := by
  obtain ⟨hasher, hsim, hm⟩ := hf
  obtain ⟨hout, hsim', -⟩ := call_sim (p := p) hsim op env
  have hstep : op.step p (op.pinned env) (some hasher) = op.step p true (some hasher) := by
    by_cases hreq : op.RequestsPin
    · rw [hpin hreq]
    · exact StreamOp.step_pinned hreq _
  obtain ⟨hright, hasher', hst, hm'⟩ :=
    step_right hp hm (op.pinned env) hop hno hlt hfit
  rw [hstep] at hout hsim'
  rw [hst] at hsim'
  rw [hout]
  exact ⟨hright, hasher', hsim', hm'⟩

/-- **A run of a stream is streaming**, as long as ranges do not overflow and arrays are
pinned; the stream at its end follows the message. -/
theorem run_streaming {w : Native} {s : Blake3Stream} {m : List UInt8} (hf : s.Follows w key m)
    {calls : List (StreamOp × JvmEnv)}
    (hcalls : ∀ c ∈ calls, c.1 ≠ .close ∧ c.1.NoOverflow ∧
      (c.1.RequestsPin → c.1.pinned c.2 = true))
    (hlt : m.length < 2 ^ 64) (hfit : MessageFits m (s.run p w calls).1) :
    Streaming p key m (s.run p w calls).1 ∧
      (s.run p w calls).2.2.Follows (s.run p w calls).2.1 key
        ((s.run p w calls).1.foldl Event.message m) ∧
      ((s.run p w calls).1.foldl Event.message m).length < 2 ^ 64 := by
  induction calls generalizing w s m with
  | nil => exact ⟨trivial, hf, hlt⟩
  | cons c calls ih =>
    obtain ⟨op, env⟩ := c
    obtain ⟨hop, hno, hpin⟩ := hcalls (op, env) (by simp)
    have hhead : (op.message m).length < 2 ^ 64 := by
      rw [run] at hfit
      dsimp only at hfit
      split at hfit
      · exact hfit.1
      · exact hfit.1
    obtain ⟨hright, hf'⟩ := call_right hp hf hop hno hpin hlt hhead
    have hdef : (s.call p w op env).1.isFault = false := hright.isFault
    have hlt' : (Event.message m ⟨op, op.pinned env, (s.call p w op env).1⟩).length < 2 ^ 64 := by
      rw [Event.message]
      split
      · exact hhead
      · exact hlt
    rw [run] at hfit ⊢
    dsimp only at hfit ⊢
    rw [hdef, if_neg (by simp)] at hfit ⊢
    obtain ⟨hstream, hend⟩ := ih hf' (fun c hc => hcalls c (List.mem_cons_of_mem _ hc)) hlt' hfit.2
    exact ⟨⟨hright, hstream⟩, hend⟩

end

end Blake3Stream

end Jni

end Blake3Kmp
