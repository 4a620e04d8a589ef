/-
The two modules against each other.

When nothing fails in the JVM, a session with a stream (the constructor, then
any operations) goes alike in both modules, and so do the one-shot functions,
with one exception: the FFM module turns empty data down, of which the JNI
module returns the digest.

* `sessions_alike` — two simulations of one stream, which may start with
  different stale memory;
* `oneShot_alike_iff` — the one-shot functions.
-/
import Blake3Kmp.Streaming

open CheckedMemory Programs Prog

namespace Blake3Kmp

/-! ### Sessions -/

/-- The outcomes of a constructor and of the operations on the stream it made. -/
def Jni.Blake3Stream.session (p : Platform) (w : Native) (key : Option JByteArray) (env₀ : JvmEnv)
    (calls : List (StreamOp × JvmEnv)) : List (Outcome Reply) :=
  match new w key env₀ with
  | (.returned s, w) => .returned .unit :: (s.run p w calls).1.map Event.outcome
  | (.threw e, _) => [.threw e]
  | (.fault, _) => [.fault]

/-- The same of the FFM module, when no command fails. -/
def Ffm.Blake3Stream.session (p : Platform) (w : FfmWorld) (self : ℕ) (key : Option JByteArray)
    (ops : List StreamOp) : List (Outcome Reply) :=
  let r := (new self key).exec (FfmCmd.answer p) (w.given [])
  match outcome r.1 r.2 with
  | .returned () =>
    .returned .unit :: (run p r.2 self (ops.map fun op => (op, []))).1.map Event.outcome
  | .threw e => [.threw e]
  | .fault => [.fault]

/-- Everything that an operation asks the JVM for is granted, and its range does not
overflow. -/
def PlainCall (c : StreamOp × JvmEnv) : Prop :=
  c.1.NoOverflow ∧ c.2.inPinned = true ∧ c.2.outPinned = true

theorem not_failing_given (w : FfmWorld) : ¬ (w.given []).Failing := by
  rintro ⟨n, hn⟩
  exact hn rfl

section

variable {p : Platform} (hp : p.Agree)
include hp

/-- Two streams that simulate one, up to stale memory. -/
theorem runs_alike {w : FfmWorld} {self : ℕ} {v : Native} {s : Jni.Blake3Stream}
    {st st' : Option Hasher} (hsim : Ffm.Blake3Stream.Simulates w self st)
    (hsim' : s.Simulates v st') (hsame : StreamSame st st') {calls : List (StreamOp × JvmEnv)}
    (hcalls : ∀ c ∈ calls, PlainCall c) :
    List.Forall₂ Outcome.Alike
      ((Ffm.Blake3Stream.run p w self (calls.map fun c => (c.1, []))).1.map Event.outcome)
      ((s.run p v calls).1.map Event.outcome) := by
  induction calls generalizing w v s st st' with
  | nil => exact .nil
  | cons c calls ih =>
    obtain ⟨op, env⟩ := c
    obtain ⟨hno, hin, hout⟩ := hcalls (op, env) (by simp)
    have hpinned : op.pinned env = true := by
      cases op with
      | update input offset length => exact hin
      | finalizeInto out offset length => exact hout
      | finalize outLen => exact hout
      | reset => rfl
      | close => rfl
    have hends := wp_exec.mp (Ffm.Blake3Stream.call_ends hp (hsim.given []) op)
    obtain ⟨houtcome, hnext, -⟩ := Jni.Blake3Stream.call_sim (p := p) hsim' op env
    obtain ⟨hstep, hsame'⟩ := StreamOp.step_same (p := p) hsame true op
    rw [hpinned] at houtcome hnext
    rcases hends with ⟨e, -, -, hf | hov⟩ | ⟨halike, hcases⟩
    · exact absurd hf (not_failing_given w)
    · exact absurd hno hov
    rw [hstep, ← houtcome] at halike
    rw [List.map_cons, Ffm.Blake3Stream.run, Jni.Blake3Stream.run]
    dsimp only
    by_cases hfault : (s.call p v op env).1 = .fault
    · rw [if_pos (Outcome.isFault_iff.mpr (halike.fault_iff.mpr hfault)),
        if_pos (Outcome.isFault_iff.mpr hfault)]
      exact .cons halike .nil
    · have hfault' := fun h => hfault (halike.fault_iff.mp h)
      rw [if_neg fun h => hfault' (Outcome.isFault_iff.mp h),
        if_neg fun h => hfault (Outcome.isFault_iff.mp h)]
      have hsim' := hcases.resolve_left fun h => hfault' h.1
      exact .cons halike (ih hsim' hnext hsame' fun c hc => hcalls c (List.mem_cons_of_mem _ hc))

/-- **A session goes alike in both modules.** -/
theorem sessions_alike {w : FfmWorld} (hdef : w.undefined = false) (self : ℕ) {v : Native}
    {env₀ : JvmEnv} (hmal : env₀.MallocOk v) (hload : env₀.loadFailure = none)
    (halloc : env₀.malloc.isSome = true) (key : Option JByteArray)
    {calls : List (StreamOp × JvmEnv)} (hcalls : ∀ c ∈ calls, PlainCall c) :
    List.Forall₂ Outcome.Alike
      (Ffm.Blake3Stream.session p w self key (calls.map Prod.fst))
      (Jni.Blake3Stream.session p v key env₀ calls) := by
  have hends := wp_exec.mp (show Ends p (Ffm.Blake3Stream.new self key) (w.given []) _ from
    Ffm.Blake3Stream.new_ends (w := w.given []) hdef key)
  have hmap : (calls.map Prod.fst).map (fun op => (op, ([] : List (Option Throwable)))) =
      calls.map fun c => (c.1, []) := List.map_map ..
  rw [Ffm.Blake3Stream.session, Jni.Blake3Stream.session, hmap]
  have hnew : newOutcome key env₀ = checkKey key := by
    rw [newOutcome, hload]
    cases checkKey key with
    | error e => rfl
    | ok k => simp only [halloc, if_true]
  rcases Jni.Blake3Stream.new_cases hmal key with
    ⟨e, he, hthrew, -⟩ | ⟨a, memory, k, c, hok, -, h0, -, -, heq⟩
  · -- the key is turned down
    rw [hnew] at he
    rcases hends with ⟨k, hk, -⟩ | ⟨e', he', hdef', hf | hcheck⟩
    · exact absurd (he.symm.trans hk) (by simp)
    · exact absurd hf (not_failing_given w)
    · rcases hr : Jni.Blake3Stream.new v key env₀ with ⟨o, v'⟩
      rw [hr] at hthrew
      obtain rfl : o = .threw e := hthrew
      rw [he', Ffm.outcome_defined hdef']
      have hcls : e' = e := Except.error.inj (hcheck.symm.trans he)
      exact .cons (show e'.cls = e.cls by rw [hcls]) .nil
  · rw [hnew] at hok
    rcases hends with ⟨k', hk, hr, hsim⟩ | ⟨e', he', hdef', hf | hcheck⟩
    · obtain rfl : k = k' := Except.ok.inj (hok.symm.trans hk)
      rw [hr, heq, Ffm.outcome_defined hsim.1]
      have hsame : StreamSame (some (newHasher zeroedHasher k)) (some (newHasher memory k)) :=
        .some (newHasher_same zeroedHasher memory k)
      have hsim' : (⟨a⟩ : Jni.Blake3Stream).Simulates ((v.called c).put a (newHasher memory k))
          (some (newHasher memory k)) := ⟨h0, Native.put_heap_self _ _ _⟩
      exact .cons rfl (runs_alike hp hsim hsim' hsame hcalls)
    · exact absurd hf (not_failing_given w)
    · exact absurd (hok.symm.trans hcheck) (by simp)

/-! ### One-shot functions -/

omit hp in
/-- What both modules turn down. -/
theorem oneShot_rejected {w : FfmWorld} (hdef : w.undefined = false) {v : Native} {env : JvmEnv}
    (hload : env.loadFailure = none) {key : Option JByteArray} {data : JByteArray}
    {outLen : Int32} (h : (∀ k, checkKey key ≠ .ok k) ∨ ¬ 0 < outLen.toInt) :
    ∃ e, Ffm.oneShot p w key data outLen = .threw e ∧
      Jni.oneShot p v key data outLen env = .threw e := by
  have hlen : ¬ 0 < outLen.toInt → ¬ outLen > 0 := by
    intro hout hgt
    exact hout (Int32.lt_iff_toInt_lt.mp hgt)
  cases key with
  | none =>
    have hgt := hlen (h.resolve_left fun h => h none rfl)
    refine ⟨badOutLen, ?_, ?_⟩
    · rw [Ffm.oneShot, Ffm.hash, if_pos hgt]
      exact Ffm.outcome_defined hdef
    · simp only [Jni.oneShot, Jni.hash, hload, hgt, not_false_eq_true, if_true]
  | some key =>
    by_cases hsize : key.size = 32
    · obtain ⟨k, hk⟩ := keyBuf_isSome hsize
      have hgt := hlen (h.resolve_left fun h => h (some k) (by rw [checkKey, hk]))
      refine ⟨badOutLen, ?_, ?_⟩
      · rw [Ffm.oneShot, Ffm.keyedHash, if_neg (not_not.mpr hsize), if_pos hgt]
        exact Ffm.outcome_defined hdef
      · simp only [Jni.oneShot, Jni.keyedHash, hload, hsize, hgt, not_false_eq_true,
          not_true_eq_false, if_true, if_false]
    · refine ⟨badKeySize, ?_, ?_⟩
      · rw [Ffm.oneShot, Ffm.keyedHash, if_pos hsize]
        exact Ffm.outcome_defined hdef
      · simp only [Jni.oneShot, Jni.keyedHash, hload, hsize, not_false_eq_true, if_true]

omit hp in
/-- What the FFM module turns down besides. -/
theorem oneShot_empty {w : FfmWorld} (hdef : w.undefined = false) {key : Option JByteArray}
    {k : Option (Bytes 32)} (hk : checkKey key = .ok k) {data : JByteArray}
    (hnil : data.bytes = []) {outLen : Int32} (hout : 0 < outLen.toInt) :
    Ffm.oneShot p w key data outLen = .threw Ffm.badInput := by
  obtain ⟨hgt, -, -⟩ := Jni.outLen_pos_checks hout
  cases key with
  | none =>
    rw [Ffm.oneShot, Ffm.hash, if_neg (not_not.mpr hgt), if_pos hnil]
    exact Ffm.outcome_defined hdef
  | some key =>
    have hsize : key.size = 32 := by
      by_contra hne
      rw [checkKey, keyBuf_none hne] at hk
      exact absurd hk (by simp)
    rw [Ffm.oneShot, Ffm.keyedHash, if_neg (not_not.mpr hsize), if_neg (not_not.mpr hgt),
      if_pos hnil]
    exact Ffm.outcome_defined hdef

/-- The one-shot functions end alike, except on empty data that is otherwise accepted. -/
theorem oneShot_alike_iff {w : FfmWorld} (hdef : w.undefined = false) (hgranted : ¬ w.Failing)
    (v : Native) {env : JvmEnv} (hload : env.loadFailure = none) (hin : env.inPinned = true)
    (hpin : env.outPinned = true) (key : Option JByteArray) (data : JByteArray) (outLen : Int32) :
    (Ffm.oneShot p w key data outLen).Alike (Jni.oneShot p v key data outLen env) ↔
      ¬ (data.bytes = [] ∧ (∃ k, checkKey key = .ok k) ∧ 0 < outLen.toInt) := by
  by_cases hrejected : (∀ k, checkKey key ≠ .ok k) ∨ ¬ 0 < outLen.toInt
  · obtain ⟨e, hffm, hjni⟩ : ∃ e, Ffm.oneShot p w key data outLen = .threw e ∧
        Jni.oneShot p v key data outLen env = .threw e :=
      oneShot_rejected hdef hload hrejected
    rw [hffm, hjni]
    refine ⟨?_, fun _ => Outcome.Alike.refl _⟩
    rintro - ⟨-, ⟨k, hk⟩, hout⟩
    rcases hrejected with h | h
    · exact h k hk
    · exact h hout
  · obtain ⟨hkey, hout⟩ := not_or.mp hrejected
    obtain ⟨k, hk⟩ := not_forall.mp hkey
    rw [not_not] at hk hout
    obtain ⟨r, hjni, hr⟩ : ∃ r, Jni.oneShot p v key data outLen env = .returned r ∧
        freshDigest p k data.bytes outLen.toInt.toNat = some r.bytes :=
      Jni.oneShot_eq hp hk hout v hload hin hpin
    rw [hjni]
    by_cases hnil : data.bytes = []
    · rw [oneShot_empty hdef hk hnil hout]
      exact ⟨fun h => absurd h not_false, fun h => absurd ⟨hnil, ⟨k, hk⟩, hout⟩ h⟩
    · obtain ⟨r', hffm, hr'⟩ := Ffm.oneShot_eq hp hk hout hdef hgranted hnil
      rw [hffm]
      refine ⟨fun _ h => hnil h.1, fun _ => ?_⟩
      exact JByteArray.ext (Option.some.inj (hr'.symm.trans hr))

/-- **The FFM module against the JNI module.**  Every session with a stream goes alike, and so
does every one-shot call but one: on empty data with a valid key and length the FFM module
throws, and the JNI module returns. -/
theorem modules_alike {w : FfmWorld} (hdef : w.undefined = false) (v : Native) :
    (∀ self key env₀ (calls : List (StreamOp × JvmEnv)), env₀.MallocOk v →
      env₀.loadFailure = none → env₀.malloc.isSome = true → (∀ c ∈ calls, PlainCall c) →
      List.Forall₂ Outcome.Alike
        (Ffm.Blake3Stream.session p w self key (calls.map Prod.fst))
        (Jni.Blake3Stream.session p v key env₀ calls)) ∧
    ∀ key data outLen env, env.loadFailure = none → env.inPinned = true → env.outPinned = true →
      ((Ffm.oneShot p (w.given []) key data outLen).Alike
          (Jni.oneShot p v key data outLen env) ↔
        ¬ (data.bytes = [] ∧ (∃ k, checkKey key = .ok k) ∧ 0 < outLen.toInt)) := by
  constructor
  · intro self key env₀ calls hmal hload halloc hcalls
    exact sessions_alike hp hdef self hmal hload halloc key hcalls
  · intro key data outLen env hload hin hpin
    exact oneShot_alike_iff hp (w := w.given []) hdef (not_failing_given w) v hload hin hpin key
      data outLen

omit hp in
/-- In two fresh processes, on one byte. -/
theorem modules_alike_byte :
    (Ffm.oneShot linuxPortable (FfmWorld.initial.given []) none ⟨[0], by decide⟩ 32).Alike
      (Jni.oneShot linuxPortable .initial none ⟨[0], by decide⟩ 32 (.granting 4096)) := by
  have hdef : FfmWorld.initial.undefined = false := rfl
  have hiff := (modules_alike linuxPortable_agree hdef .initial).2 none ⟨[0], by decide⟩ 32
    (.granting 4096) rfl rfl rfl
  rw [hiff]
  rintro ⟨hnil, -⟩
  exact List.cons_ne_nil _ _ hnil

omit hp in
/-- The digest of no bytes: one module returns it, the other throws. -/
theorem modules_differ_empty :
    ¬ (Ffm.oneShot linuxPortable (FfmWorld.initial.given []) none ⟨[], by decide⟩ 32).Alike
      (Jni.oneShot linuxPortable .initial none ⟨[], by decide⟩ 32 (.granting 4096)) := by
  have hdef : FfmWorld.initial.undefined = false := rfl
  have hiff := (modules_alike linuxPortable_agree hdef .initial).2 none ⟨[], by decide⟩ 32
    (.granting 4096) rfl rfl rfl
  intro h
  exact hiff.mp h ⟨rfl, ⟨none, rfl⟩, by decide⟩

end

end Blake3Kmp
