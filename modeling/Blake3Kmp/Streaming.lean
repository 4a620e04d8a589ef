/-
Streaming equals one-shot, in both modules.

A stream of either module, from its constructor on, is `Streaming`: each
`finalize` yields what a fresh hasher makes of the message in one update, which
is what the one-shot functions return for a message in one array.  In the JNI
module this needs ranges that do not overflow and arrays that are pinned; the
FFM module needs nothing, since it checks a range again when it copies it.
-/
import Blake3Kmp.FfmRuns
import Blake3Kmp.JniRange

open CheckedMemory Programs Prog

namespace Blake3Kmp

/-- `Blake3.hash` or `Blake3.keyedHash` of the JNI module. -/
def Jni.oneShot (p : Platform) (w : Native) (key : Option JByteArray) (data : JByteArray)
    (outLen : Int32) (env : JvmEnv) : Outcome JByteArray :=
  match key with
  | none => (hash p w data outLen env).1
  | some key => (keyedHash p w key data outLen env).1

/-- The same of the FFM module. -/
def Ffm.oneShot (p : Platform) (w : FfmWorld) (key : Option JByteArray) (data : JByteArray)
    (outLen : Int32) : Outcome JByteArray :=
  let r := (match key with
    | none => hash data outLen
    | some key => keyedHash key data outLen).exec (FfmCmd.answer p) w
  outcome r.1 r.2

section

variable {p : Platform} (hp : p.Agree) {key : Option JByteArray} {k : Option (Bytes 32)}
  (hk : checkKey key = .ok k) {data : JByteArray} {outLen : Int32} (hout : 0 < outLen.toInt)
include hp hk hout

theorem Jni.oneShot_eq (w : Native) {env : JvmEnv} (hload : env.loadFailure = none)
    (hin : env.inPinned = true) (hpin : env.outPinned = true) :
    ∃ r, oneShot p w key data outLen env = .returned r ∧
      freshDigest p k data.bytes outLen.toInt.toNat = some r.bytes := by
  have hfresh : freshDigest p k data.bytes outLen.toInt.toNat =
      some (modeDigest k data.bytes outLen.toInt.toNat) :=
    freshDigest_eq hp (data.size_lt.trans (by decide)) _
  rw [hfresh]
  cases key with
  | none =>
    obtain rfl := Except.ok.inj hk
    obtain ⟨r, hr, hbytes⟩ := hash_eq hp w data hout hload (fun _ => hin) hpin
    exact ⟨r, hr, by rw [hbytes]⟩
  | some key =>
    rw [checkKey] at hk
    cases hbuf : keyBuf key with
    | none => simp [hbuf] at hk
    | some buf =>
      rw [hbuf] at hk
      obtain rfl := Except.ok.inj hk
      obtain ⟨r, hr, hbytes⟩ := keyedHash_eq hp w hbuf data hout hload (fun _ => hin) hpin
      exact ⟨r, hr, by rw [hbytes]⟩

theorem Ffm.oneShot_eq {w : FfmWorld} (hdef : w.undefined = false) (hgranted : ¬ w.Failing)
    (hne : data.bytes ≠ []) :
    ∃ r, oneShot p w key data outLen = .returned r ∧
      freshDigest p k data.bytes outLen.toInt.toNat = some r.bytes := by
  have hends : ∀ {x : FfmProg JByteArray}, Ends p x w (DigestEnds p k data outLen w) →
      ∃ r, outcome (x.exec (FfmCmd.answer p) w).1 (x.exec (FfmCmd.answer p) w).2 = .returned r ∧
        freshDigest p k data.bytes outLen.toInt.toNat = some r.bytes := by
    intro x hx
    obtain ⟨hdef', ⟨e, -, hf⟩ | ⟨r, hr, hbytes⟩⟩ := wp_exec.mp hx
    · exact absurd hf hgranted
    · refine ⟨r, ?_, hbytes⟩
      rw [outcome_defined hdef', hr]
  cases key with
  | none =>
    obtain rfl := Except.ok.inj hk
    exact hends (hash_ends hp hdef hout hne)
  | some key =>
    rw [checkKey] at hk
    cases hbuf : keyBuf key with
    | none => simp [hbuf] at hk
    | some buf =>
      rw [hbuf] at hk
      obtain rfl := Except.ok.inj hk
      exact hends (keyedHash_ends hp hdef hout hne hbuf)

end

theorem Ffm.Blake3Stream.new_follows {p : Platform} {w w' : FfmWorld}
    (hdef : w.undefined = false) {key : Option JByteArray} {k : Option (Bytes 32)}
    (hk : checkKey key = .ok k) {self : ℕ}
    (hnew : (new self key).exec (FfmCmd.answer p) w = (.ok (), w')) : Follows w' self k [] := by
  have hends := wp_exec.mp (show Ends p (new self key) w _ from new_ends hdef key)
  rw [hnew] at hends
  rcases hends with ⟨k', hk', -, hsim⟩ | ⟨e, he, -⟩
  · obtain rfl : k' = k := Except.ok.inj (hk'.symm.trans hk)
    exact ⟨_, hsim, newHasher_follows zeroedHasher k'⟩
  · exact absurd he (by simp)

/-- **Streaming equals one-shot.**  Every run of calls on a new stream, up to `close()`, is
streaming: of a JNI stream when no range overflows and every array is pinned, of an FFM stream
always.  Of a message in one array the one-shot functions return the same bytes. -/
theorem streaming_eq_oneShot {p : Platform} (hp : p.Agree) {key : Option JByteArray}
    {k : Option (Bytes 32)} (hk : checkKey key = .ok k) :
    (∀ w env₀ s w', env₀.MallocOk w → Jni.Blake3Stream.new w key env₀ = (.returned s, w') →
      ∀ calls : List (StreamOp × JvmEnv),
        (∀ c ∈ calls, c.1 ≠ .close ∧ c.1.NoOverflow ∧ (c.1.RequestsPin → c.1.pinned c.2 = true)) →
        MessageFits [] (s.run p w' calls).1 → Streaming p k [] (s.run p w' calls).1) ∧
    (∀ w self w', w.undefined = false →
      (Ffm.Blake3Stream.new self key).exec (FfmCmd.answer p) w = (.ok (), w') →
      ∀ calls : List (StreamOp × List (Option Throwable)), (∀ c ∈ calls, c.1 ≠ .close) →
        MessageFits [] (Ffm.Blake3Stream.run p w' self calls).1 →
        Streaming p k [] (Ffm.Blake3Stream.run p w' self calls).1) ∧
    ∀ (data : JByteArray) (outLen : Int32), 0 < outLen.toInt →
      (∀ w env, env.loadFailure = none → env.inPinned = true → env.outPinned = true →
        ∃ r, Jni.oneShot p w key data outLen env = .returned r ∧
          freshDigest p k data.bytes outLen.toInt.toNat = some r.bytes) ∧
      (∀ w, w.undefined = false → ¬ w.Failing → data.bytes ≠ [] →
        ∃ r, Ffm.oneShot p w key data outLen = .returned r ∧
          freshDigest p k data.bytes outLen.toInt.toNat = some r.bytes) := by
  have hnil : ([] : List UInt8).length < 2 ^ 64 := by simp
  refine ⟨?_, ?_, ?_⟩
  · intro w env₀ s w' hmal hnew calls hcalls hfit
    exact (Jni.Blake3Stream.run_streaming hp (Jni.Blake3Stream.new_follows hmal hk hnew) hcalls
      hnil hfit).1
  · intro w self w' hdef hnew calls hcalls hfit
    exact Ffm.Blake3Stream.run_streaming hp (Ffm.Blake3Stream.new_follows hdef hk hnew) hcalls
      hnil hfit
  · intro data outLen hout
    constructor
    · intro w env hload hin hpin
      exact Jni.oneShot_eq hp hk hout w hload hin hpin
    · intro w hdef hgranted hne
      exact Ffm.oneShot_eq hp hk hout hdef hgranted hne

/-- A run of one call is one event. -/
theorem Jni.Blake3Stream.run_single (p : Platform) (w : Native) (s : Blake3Stream) (op : StreamOp)
    (env : JvmEnv) : (s.run p w [(op, env)]).1 = [⟨op, op.pinned env, (s.call p w op env).1⟩] := by
  rw [run]
  dsimp only
  split
  · rfl
  · rfl

/-- A new stream that is given the three bytes `abc`. -/
theorem streaming_eq_oneShot_abc :
    Streaming linuxPortable none [] (Jni.Blake3Stream.run linuxPortable
      (Jni.Blake3Stream.new .initial none (.granting 4096)).2 ⟨4096⟩
      [(.update ⟨[97, 98, 99], by decide⟩ 0 3, .granting 4096)]).1 := by
  refine (streaming_eq_oneShot linuxPortable_agree (rfl : checkKey none = .ok none)).1 .initial
    (.granting 4096) ⟨4096⟩ _ ?_ rfl _ ?_ ?_
  · rintro address memory hmal
    obtain ⟨rfl, -⟩ := Prod.mk.inj (Option.some.inj hmal)
    exact ⟨by decide, rfl⟩
  · intro c hc
    obtain rfl := List.mem_singleton.mp hc
    exact ⟨by simp, show ¬ overflows 0 3 by decide, fun _ => rfl⟩
  · rw [Jni.Blake3Stream.run_single]
    exact ⟨show (StreamOp.message [] (.update ⟨[97, 98, 99], _⟩ 0 3)).length < 2 ^ 64 by decide,
      trivial⟩

/-- A range that overflows, on a new JNI stream: a call with it is not turned down. -/
theorem streaming_ne_oneShot_overflow :
    ¬ Streaming linuxPortable none [] (Jni.Blake3Stream.run linuxPortable
        (Jni.Blake3Stream.new .initial none (.granting 4096)).2 ⟨4096⟩
        [(.update ⟨[], by decide⟩ 1 2147483647, .granting 4096)]).1 ∧
      ¬ Streaming linuxPortable none [] (Jni.Blake3Stream.run linuxPortable
        (Jni.Blake3Stream.new .initial none (.granting 4096)).2 ⟨4096⟩
        [(.finalizeInto ⟨[], by decide⟩ 1 2147483647, .granting 4096)]).1 := by
  have hsim : (⟨4096⟩ : Jni.Blake3Stream).Simulates
      (Jni.Blake3Stream.new .initial none (.granting 4096)).2 (some (newHasher zeroedHasher none)) :=
    ⟨by decide, Native.put_heap_self _ _ _⟩
  have hov : overflows 1 2147483647 := by decide
  constructor
  · rw [Jni.Blake3Stream.run_single]
    rintro ⟨hright, -⟩
    exact hright.defined (Jni.Blake3Stream.call_overflow hsim (not_not.mpr hov) rfl)
  · rw [Jni.Blake3Stream.run_single]
    rintro ⟨hright, -⟩
    exact hright.defined (Jni.Blake3Stream.call_overflow hsim (not_not.mpr hov) rfl)

end Blake3Kmp
