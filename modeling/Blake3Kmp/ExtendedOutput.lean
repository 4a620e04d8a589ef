/-
Extendable output, and what `finalize` leaves alone.

Every hasher state determines at most one root compression (`hasherRoot`), and
every call of `finalize` on that state writes a prefix of the root's infinite
output: the length and the place asked for do not matter, and the state is not
changed.

* `finalizeRange_root` — the bytes written by a call, in any state;
* `finalizeInto_output`, `finalize_output` — the same for a JNI stream;
* `finalize_total` — in the states that a stream reaches over less than
  `2 ^ 64` bytes there is such a root, so that the calls do return.
-/
import Blake3Kmp.JniRuns

open CheckedMemory

namespace Blake3Kmp

/-- The root compression that finalizing this state ends in, if it gets there. -/
def hasherRoot (p : Platform) (h : Hasher) : Option Output :=
  if h.cvStackLen = 0 then some (chunkStateOutput h.chunk)
  else do
    let (output, cvsRemaining) ← finalizeStart h
    finalizeLoop p h output cvsRemaining

/-- The first `n` bytes of an infinite output. -/
def outputPrefix (f : ℕ → UInt8) (n : ℕ) : List UInt8 := (List.range n).map f

@[simp] theorem outputPrefix_length (f : ℕ → UInt8) (n : ℕ) : (outputPrefix f n).length = n := by
  rw [outputPrefix, List.length_map, List.length_range]

/-- A shorter output is a prefix of a longer one. -/
theorem outputPrefix_take (f : ℕ → UInt8) {n m : ℕ} (h : n ≤ m) :
    (outputPrefix f m).take n = outputPrefix f n := by
  rw [outputPrefix, outputPrefix, ← List.map_take, List.take_range, Nat.min_eq_left h]

theorem rootSlice_eq_outputPrefix (o : Output) (n : ℕ) :
    rootSlice o 0 n = outputPrefix (rootStream o) n := by
  rw [rootSlice, outputPrefix, List.range_eq_range']

theorem modeDigest_eq_outputPrefix (key : Option (Bytes 32)) (m : List UInt8) (n : ℕ) :
    modeDigest key m n =
      outputPrefix (rootStream (subtreeOutput (modeKey key) (modeFlags key) 0 m)) n :=
  rootSlice_eq_outputPrefix _ n

section

variable {p : Platform} (hp : p.Agree)
include hp

/-- Finalizing writes the output of the state's root. -/
theorem blake3HasherFinalize_root {h : Hasher} {out : List UInt8} {pos outLen : ℕ}
    (hpos : 0 < outLen) (hlen : pos + outLen ≤ out.length) :
    blake3HasherFinalize p h out pos outLen =
      (hasherRoot p h).bind fun o =>
        writeSlice out pos (outputPrefix (rootStream o) outLen) := by
  have hroot : ∀ o, outputRootBytes p o 0 out pos outLen =
      writeSlice out pos (outputPrefix (rootStream o) outLen) := by
    intro o
    rw [outputRootBytes_eq hp o 0 out pos outLen hlen, ← rootSlice_eq_outputPrefix]
    rfl
  rw [blake3HasherFinalize, blake3HasherFinalizeSeek, if_neg (by omega), hasherRoot]
  by_cases h0 : h.cvStackLen = 0
  · rw [if_pos h0, if_pos h0, hroot]
    rfl
  · rw [if_neg h0, if_neg h0]
    cases finalizeStart h with
    | none => rfl
    | some oj =>
      obtain ⟨o, j⟩ := oj
      simp only [Option.bind_eq_bind, Option.bind_some]
      cases finalizeLoop p h o j with
      | none => rfl
      | some o' => exact hroot o'

/-- **The bytes written by a call are the first ones of the root's output**, and no other
byte changes. -/
theorem finalizeRange_root {h : Hasher} {a : JByteArray} {offset length : Int32}
    (hr : inRange a offset length) (hpos : 0 < length.toInt) :
    (hasherRoot p h = none ∧ finalizeRange p h a offset length = none) ∨
      ∃ o a', hasherRoot p h = some o ∧ finalizeRange p h a offset length = some a' ∧
        Filled a offset.toInt.toNat (outputPrefix (rootStream o) length.toInt.toNat) a' := by
  obtain ⟨h0, hle⟩ := id hr
  have hsize := a.size_lt
  rw [finalizeRange_eq hr hpos, blake3HasherFinalize_root hp (by omega) (by omega)]
  cases hasherRoot p h with
  | none => exact .inl ⟨rfl, rfl⟩
  | some o =>
    simp only [Option.bind_some]
    rw [writeSlice_eq_some (by rw [outputPrefix_length]; omega)]
    simp only [Option.bind_some]
    rw [JByteArray.ofBytes_eq_some]
    · exact .inr ⟨o, _, rfl, rfl, rfl⟩
    · simp only [List.length_append, List.length_take, List.length_drop, outputPrefix_length]
      omega

end

namespace Jni

namespace Blake3Stream

/-- The infinite output of a stream's state; zeros for a state without one. -/
def output (p : Platform) (w : Native) (s : Blake3Stream) : ℕ → UInt8 :=
  match (w.heap s.hasherPtr).bind (hasherRoot p) with
  | some o => rootStream o
  | none => fun _ => 0

section

variable {p : Platform} (w : Native) (s : Blake3Stream) (env : JvmEnv)

/-- Finalizing leaves every hasher as it is. -/
theorem finalizeInto_heap (out : JByteArray) (offset length : Int32) :
    (s.finalizeInto p w out offset length env).2.1.heap = w.heap := by
  rw [finalizeInto]
  by_cases hlen : length ≤ 0
  · rw [if_pos hlen]
  rw [if_neg hlen]
  by_cases hcheck : ¬ rangeCheck out offset length = true
  · rw [if_pos hcheck]
  rw [if_neg hcheck]
  by_cases hopen : ¬ s.hasherPtr ≠ 0
  · rw [if_pos hopen]
  rw [if_neg hopen, JniBlake3.hasherFinalize.eq_def]
  dsimp only
  split
  · rfl
  · split
    · split
      · rfl
      · rfl
    · rfl

theorem finalize_heap (outLen : Int32) : (s.finalize p w outLen env).2.heap = w.heap := by
  rw [finalize.eq_def]
  cases JByteArray.alloc outLen with
  | error e => rfl
  | ok result =>
    have hheap := finalizeInto_heap (p := p) w s env result 0 outLen
    rcases hr : s.finalizeInto p w result 0 outLen env with ⟨o, w', result'⟩
    simp only [hr] at hheap ⊢
    cases o with
    | returned u => exact hheap
    | threw e => exact hheap
    | fault => exact hheap

variable {w s env} (hp : p.Agree)
include hp

theorem finalizeInto_output {out : JByteArray} {offset length : Int32}
    (hpin : env.outPinned = true) (hr : inRange out offset length) (hpos : 0 < length.toInt)
    {u : Unit} (hret : (s.finalizeInto p w out offset length env).1 = .returned u) :
    Filled out offset.toInt.toNat (outputPrefix (s.output p w) length.toInt.toNat)
      (s.finalizeInto p w out offset length env).2.2 := by
  have hlen : ¬ length ≤ 0 := pos_toInt.mpr hpos
  have hcheck : ¬ ¬ rangeCheck out offset length = true :=
    not_not.mpr ((rangeCheck_iff hlen).mpr (.inl hr))
  rw [finalizeInto, if_neg hlen, if_neg hcheck] at hret ⊢
  by_cases h0 : s.hasherPtr = 0
  · rw [if_pos (not_not.mpr h0)] at hret
    exact absurd hret (by simp)
  rw [if_neg (not_not.mpr h0), JniBlake3.hasherFinalize,
    if_neg (by simpa [h0] using hlen), hpin] at hret ⊢
  simp only [if_true, Native.called_heap] at hret ⊢
  rw [output]
  cases hheap : w.heap s.hasherPtr with
  | none =>
    rw [hheap] at hret
    exact absurd hret (by simp)
  | some hasher =>
    rw [hheap] at hret
    simp only [Option.bind_some] at hret ⊢
    rcases finalizeRange_root hp (h := hasher) hr hpos with ⟨-, hfin⟩ | ⟨o, a', ho, hfin, hfill⟩
    · rw [hfin] at hret
      exact absurd hret (by simp)
    · rw [hfin, ho]
      exact hfill

theorem finalize_output {n : Int32} (hpin : env.outPinned = true) (hpos : 0 < n.toInt)
    {r : JByteArray} (hret : (s.finalize p w n env).1 = .returned r) :
    r.bytes = outputPrefix (s.output p w) n.toInt.toNat := by
  have hfill := fun u => finalizeInto_output (w := w) (s := s) hp hpin
    (inRange_zeros hpos.le) hpos (u := u)
  rw [finalize.eq_def, alloc_eq_ok hpos.le] at hret
  rcases hr : s.finalizeInto p w (JByteArray.zeros n) 0 n env with ⟨o, w', result⟩
  simp only [hr] at hret hfill
  cases o with
  | returned u =>
    obtain rfl := Outcome.returned.inj hret
    rw [hfill u rfl, Int32.toInt_zero, Int.toNat_zero, List.take_zero, List.nil_append,
      Nat.zero_add, outputPrefix_length, List.drop_eq_nil_of_le (zeros_length n).le,
      List.append_nil]
  | threw e => exact absurd hret (by simp)
  | fault => exact absurd hret (by simp)

/-- In a state that follows a message the calls do return. -/
theorem finalize_total {key : Option (Bytes 32)} {m : List UInt8} (hf : s.Follows w key m)
    (hlt : m.length < 2 ^ 64) (hpin : env.outPinned = true) :
    (∀ n : Int32, 0 ≤ n.toInt → ∃ r, (s.finalize p w n env).1 = .returned r) ∧
      ∀ out offset length, inRange out offset length →
        ∃ u, (s.finalizeInto p w out offset length env).1 = .returned u := by
  constructor
  · intro n hn
    have hgranted : (StreamOp.finalize n).RequestsPin →
        (StreamOp.finalize n).pinned env = true := fun _ => hpin
    obtain ⟨hright, -⟩ := call_right hp hf (by simp)
      (show (StreamOp.finalize n).NoOverflow from trivial) hgranted hlt hlt
    have hv : (StreamOp.finalize n).Valid := by
      rw [StreamOp.Valid, Int32.le_iff_toInt_le, Int32.toInt_zero]
      exact hn
    obtain ⟨r, hr⟩ := hright.returns hpin hv
    exact reply_eq_returned hr
  · intro out offset length hr
    have hv : (StreamOp.finalizeInto out offset length).Valid := .inr hr
    have hgranted : (StreamOp.finalizeInto out offset length).RequestsPin →
        (StreamOp.finalizeInto out offset length).pinned env = true := fun _ => hpin
    obtain ⟨hright, -⟩ := call_right hp hf (by simp) hv.noOverflow hgranted hlt hlt
    obtain ⟨r, hr⟩ := hright.returns hpin hv
    exact reply_eq_returned hr

omit hp in
/-- All that a state's finalize calls return or fill in is taken from one output. -/
structure HasOutput (p : Platform) (w : Native) (s : Blake3Stream) (f : ℕ → UInt8) : Prop where
  finalize : ∀ env n r, env.outPinned = true → 0 < n.toInt →
    (s.finalize p w n env).1 = .returned r → r.bytes = outputPrefix f n.toInt.toNat
  finalizeInto : ∀ env out offset length u, env.outPinned = true → inRange out offset length →
    0 < length.toInt → (s.finalizeInto p w out offset length env).1 = .returned u →
    Filled out offset.toInt.toNat (outputPrefix f length.toInt.toNat)
      (s.finalizeInto p w out offset length env).2.2
  finalize_frame : ∀ env n, (s.finalize p w n env).2.heap = w.heap
  finalizeInto_frame : ∀ env out offset length,
    (s.finalizeInto p w out offset length env).2.1.heap = w.heap

theorem hasOutput (w : Native) (s : Blake3Stream) : HasOutput p w s (s.output p w) where
  finalize := fun _ _ _ hpin hpos hret => finalize_output hp hpin hpos hret
  finalizeInto := fun _ _ _ _ _ hpin hr hpos hret => finalizeInto_output hp hpin hr hpos hret
  finalize_frame := fun env n => finalize_heap w s env n
  finalizeInto_frame := fun env out offset length => finalizeInto_heap w s env out offset length

end

end Blake3Stream

/-- **One infinite output a state**: in every state of a stream, what the finalize calls
return or fill in are first bytes of one output, the same after any of them, and they change
nothing else; in the
states reached over less than `2 ^ 64` bytes they do return; and `hash` and `keyedHash`
of any data return first bytes of one output as well. -/
theorem finalize_extendable {p : Platform} (hp : p.Agree) :
    (∀ (w : Native) (s : Blake3Stream), ∃ f, ∀ w' : Native, w'.heap = w.heap →
      s.HasOutput p w' f) ∧
    (∀ w env₀ key k s w', JvmEnv.MallocOk env₀ w → checkKey key = .ok k →
      Blake3Stream.new w key env₀ = (.returned s, w') → ∀ calls : List (StreamOp × JvmEnv),
      (∀ c ∈ calls, c.1 ≠ .close ∧ c.1.NoOverflow ∧ (c.1.RequestsPin → c.1.pinned c.2 = true)) →
      MessageFits [] (s.run p w' calls).1 →
      ∀ env, env.outPinned = true →
        (∀ n : Int32, 0 ≤ n.toInt → ∃ r,
          ((s.run p w' calls).2.2.finalize p (s.run p w' calls).2.1 n env).1 = .returned r) ∧
        ∀ out offset length, inRange out offset length → ∃ u,
          ((s.run p w' calls).2.2.finalizeInto p (s.run p w' calls).2.1 out offset length env).1 =
            .returned u) ∧
    (∀ data : JByteArray, ∃ f, ∀ w env outLen, env.loadFailure = none → env.inPinned = true →
      env.outPinned = true → 0 < outLen.toInt →
      ∃ r, (hash p w data outLen env).1 = .returned r ∧
        r.bytes = outputPrefix f outLen.toInt.toNat) ∧
    (∀ (data key : JByteArray), key.size = 32 → ∃ f, ∀ w env outLen, env.loadFailure = none →
      env.inPinned = true → env.outPinned = true → 0 < outLen.toInt →
      ∃ r, (keyedHash p w key data outLen env).1 = .returned r ∧
        r.bytes = outputPrefix f outLen.toInt.toNat) ∧
    ∀ f n m, n ≤ m → outputPrefix f n <+: outputPrefix f m := by
  refine ⟨?_, ?_, ?_, ?_, ?_⟩
  · intro w s
    refine ⟨s.output p w, fun w' hheap => ?_⟩
    have hsame : s.output p w' = s.output p w := by
      rw [Blake3Stream.output, Blake3Stream.output, hheap]
    rw [← hsame]
    exact Blake3Stream.hasOutput hp w' s
  · intro w env₀ key k s w' hmal hk hnew calls hcalls hfit env hpin
    have hnil : ([] : List UInt8).length < 2 ^ 64 := by simp
    obtain ⟨-, hf, hlt⟩ := Blake3Stream.run_streaming hp (Blake3Stream.new_follows hmal hk hnew)
      hcalls hnil hfit
    exact Blake3Stream.finalize_total hp hf hlt hpin
  · intro data
    refine ⟨rootStream (subtreeOutput iv 0 0 data.bytes), ?_⟩
    intro w env outLen hload hin hpin hout
    obtain ⟨r, hr, hbytes⟩ := hash_eq hp w data hout hload (fun _ => hin) hpin
    exact ⟨r, hr, hbytes.trans (modeDigest_eq_outputPrefix none data.bytes _)⟩
  · intro data key hsize
    obtain ⟨k, hk⟩ := keyBuf_isSome hsize
    refine ⟨rootStream (subtreeOutput (loadKeyWords k) Flags.keyedHash 0 data.bytes), ?_⟩
    intro w env outLen hload hin hpin hout
    obtain ⟨r, hr, hbytes⟩ := keyedHash_eq hp w hk data hout hload (fun _ => hin) hpin
    exact ⟨r, hr, hbytes.trans (modeDigest_eq_outputPrefix (some k) data.bytes _)⟩
  · intro f n m h
    rw [← outputPrefix_take f h]
    exact List.take_prefix _ _

/-- A new stream has one output. -/
theorem finalize_extendable_new :
    ∃ f, Blake3Stream.HasOutput linuxPortable
      (Blake3Stream.new .initial none (.granting 4096)).2 ⟨4096⟩ f := by
  obtain ⟨f, hf⟩ := (finalize_extendable linuxPortable_agree).1
    (Blake3Stream.new .initial none (.granting 4096)).2 ⟨4096⟩
  exact ⟨f, hf _ rfl⟩

end Jni

end Blake3Kmp
