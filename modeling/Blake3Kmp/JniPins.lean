/-
Arrays that cannot be pinned.

`GetPrimitiveArrayCritical` may return `NULL`.  The native functions test for
it, skip their work and return normally, so that the Kotlin caller is told
nothing.  This file says exactly when a call or a run tells the truth about its
pins: `ReportsPins` holds of a run if and only if none of the pins it asks for
is denied (`run_reportsPins_iff`), and the same for the one-shot functions
(`hash_reportsPins_iff`).
-/
import Blake3Kmp.JniRuns

open CheckedMemory

namespace Blake3Kmp

namespace Jni

/-! ### One-shot functions -/

/-- A pin that a one-shot call on `data` asks for is denied. -/
def OneShotPinDenied (env : JvmEnv) (data : JByteArray) : Prop :=
  (0 < data.bytes.length ∧ env.inPinned = false) ∨ env.outPinned = false

/-- What a one-shot call returns is the digest, and a denied pin is reported. -/
def OneShotReports (env : JvmEnv) (data : JByteArray) (digest : List UInt8)
    (o : Outcome JByteArray) : Prop :=
  (∀ r, o = .returned r → r.bytes = digest) ∧
    (OneShotPinDenied env data → ∃ e, o = .threw e)

theorem not_oneShotPinDenied {env : JvmEnv} {data : JByteArray} :
    ¬ OneShotPinDenied env data ↔
      (0 < data.bytes.length → env.inPinned = true) ∧ env.outPinned = true := by
  rw [OneShotPinDenied, not_or, not_and, Bool.not_eq_false, Bool.not_eq_false]

/-- A one-shot call that returns what it makes of its arrays tells the truth about its pins
if and only if none of them is denied. -/
theorem oneShotReports_iff {env : JvmEnv} {data : JByteArray} {key : Option (Bytes 32)}
    {outLen : Int32} {o : Outcome JByteArray} {r : JByteArray} (hr : o = .returned r)
    (hbytes : r.bytes = oneShotBytes key data outLen env) :
    OneShotReports env data (modeDigest key data.bytes outLen.toInt.toNat) o ↔
      ¬ OneShotPinDenied env data := by
  constructor
  · rintro ⟨-, hreport⟩ hdenied
    obtain ⟨e, he⟩ := hreport hdenied
    rw [hr] at he
    exact absurd he (by simp)
  · intro hdenied
    obtain ⟨hin, hpin⟩ := not_oneShotPinDenied.mp hdenied
    refine ⟨fun r' hr' => ?_, fun h => absurd h hdenied⟩
    rw [hr] at hr'
    rw [← Outcome.returned.inj hr', hbytes, oneShotBytes_pinned hin hpin]

section

variable {p : Platform} {w : Native} {data : JByteArray} {outLen : Int32} {env : JvmEnv}

theorem hash_reportsPins_iff (hp : p.Agree) (hout : 0 < outLen.toInt)
    (hload : env.loadFailure = none) :
    OneShotReports env data (modeDigest none data.bytes outLen.toInt.toNat)
        (hash p w data outLen env).1 ↔ ¬ OneShotPinDenied env data := by
  obtain ⟨r, hr, hbytes⟩ := hash_bytes hp w data hout hload
  exact oneShotReports_iff hr hbytes

theorem keyedHash_reportsPins_iff (hp : p.Agree) {key : JByteArray} {k : Bytes 32}
    (hk : keyBuf key = some k) (hout : 0 < outLen.toInt) (hload : env.loadFailure = none) :
    OneShotReports env data (modeDigest (some k) data.bytes outLen.toInt.toNat)
        (keyedHash p w key data outLen env).1 ↔ ¬ OneShotPinDenied env data := by
  obtain ⟨r, hr, hbytes⟩ := keyedHash_bytes hp w hk data hout hload
  exact oneShotReports_iff hr hbytes

end

/-! ### Streams -/

end Jni

/-- The pin that an operation asks for is denied. -/
def StreamOp.PinDenied (op : StreamOp) (env : JvmEnv) : Prop :=
  op.RequestsPin ∧ op.pinned env = false

/-- What an operation returned is what it must be on the message of all updates that returned,
and a denied pin is reported. -/
def Event.ReportsPin (p : Platform) (key : Option (Bytes 32)) (m : List UInt8) (e : Event) :
    Prop :=
  (∀ r, e.outcome = .returned r → e.op.Yields p key m r) ∧
    (e.op.RequestsPin ∧ e.granted = false → ∃ t, e.outcome = .threw t)

def ReportsPins (p : Platform) (key : Option (Bytes 32)) (m : List UInt8) : List Event → Prop
  | [] => True
  | e :: es => e.ReportsPin p key m ∧ ReportsPins p key (e.message m) es

namespace Jni.Blake3Stream

section

variable {p : Platform} {key : Option (Bytes 32)} {w : Native} {s : Blake3Stream}
  {m : List UInt8}

/-- A valid operation whose pin is denied returns normally. -/
theorem call_denied {hasher : Hasher} (hsim : s.Simulates w (some hasher)) {op : StreamOp}
    (hv : op.Valid) {env : JvmEnv} (hdenied : op.PinDenied env) :
    ∃ r, (s.call p w op env).1 = .returned r := by
  obtain ⟨hreq, hpin⟩ := hdenied
  obtain ⟨hout, -, -⟩ := call_sim (p := p) hsim op env
  rw [hout, hpin]
  cases op with
  | update input offset length =>
    have hlen : ¬ length ≤ 0 := pos_toInt.mpr hreq
    have hr : ¬ ¬ rangeCheck input offset length = true :=
      not_not.mpr ((rangeCheck_iff hlen).mpr (.inl (hv.resolve_left hlen)))
    rw [StreamOp.step, streamUpdate.eq_def, if_neg hlen, if_neg hr]
    exact ⟨_, rfl⟩
  | finalizeInto out offset length =>
    have hlen : ¬ length ≤ 0 := pos_toInt.mpr hreq
    have hr : ¬ ¬ rangeCheck out offset length = true :=
      not_not.mpr ((rangeCheck_iff hlen).mpr (.inl (hv.resolve_left hlen)))
    rw [StreamOp.step, streamFinalizeInto.eq_def, if_neg hlen, if_neg hr]
    exact ⟨_, rfl⟩
  | finalize outLen =>
    have hpos : 0 < outLen.toInt := hreq
    have hlen : ¬ outLen ≤ 0 := pos_toInt.mpr hreq
    have hr : ¬ ¬ rangeCheck (JByteArray.zeros outLen) 0 outLen = true :=
      not_not.mpr ((rangeCheck_iff hlen).mpr (.inl (inRange_zeros hpos.le)))
    rw [StreamOp.step, alloc_eq_ok hpos.le]
    dsimp only
    rw [streamFinalizeInto.eq_def, if_neg hlen, if_neg hr]
    exact ⟨_, rfl⟩
  | reset => exact absurd hreq not_false
  | close => exact absurd hreq not_false

/-- **A run of valid calls tells the truth about its pins if and only if none of those it
asks for is denied.** -/
theorem run_reportsPins_iff (hp : p.Agree) (hf : s.Follows w key m)
    {calls : List (StreamOp × JvmEnv)} (hcalls : ∀ c ∈ calls, c.1 ≠ .close ∧ c.1.Valid)
    (hlt : m.length < 2 ^ 64) (hfit : MessageFits m (s.run p w calls).1) :
    ReportsPins p key m (s.run p w calls).1 ↔ ∀ c ∈ calls, ¬ c.1.PinDenied c.2 := by
  induction calls generalizing w s m with
  | nil => exact ⟨fun _ => by simp, fun _ => trivial⟩
  | cons c calls ih =>
    obtain ⟨op, env⟩ := c
    obtain ⟨hop, hv⟩ := hcalls (op, env) (by simp)
    have hhead : (op.message m).length < 2 ^ 64 := by
      rw [run] at hfit
      dsimp only at hfit
      split at hfit
      · exact hfit.1
      · exact hfit.1
    have hlt' : (Event.message m ⟨op, op.pinned env, (s.call p w op env).1⟩).length < 2 ^ 64 := by
      rw [Event.message]
      split
      · exact hhead
      · exact hlt
    by_cases hdenied : op.PinDenied env
    · -- a denied pin is not reported
      obtain ⟨hasher, hsim, -⟩ := hf
      obtain ⟨r, hr⟩ := call_denied (p := p) hsim hv hdenied
      constructor
      · intro hreports
        rw [run] at hreports
        dsimp only at hreports
        rw [hr, if_neg (by simp [Outcome.isFault])] at hreports
        obtain ⟨t, ht⟩ := hreports.1.2 hdenied
        exact absurd ht (by simp)
      · intro hall
        exact absurd hdenied (hall (op, env) (by simp))
    · have hpin : op.RequestsPin → op.pinned env = true := by
        intro hreq
        by_contra hne
        exact hdenied ⟨hreq, Bool.eq_false_of_not_eq_true hne⟩
      obtain ⟨hright, hf'⟩ := call_right hp hf hop hv.noOverflow hpin hlt hhead
      have hdef : (s.call p w op env).1.isFault = false := hright.isFault
      rw [run] at hfit ⊢
      dsimp only at hfit ⊢
      rw [hdef, if_neg (by simp)] at hfit ⊢
      have hrest := ih hf' (fun c hc => hcalls c (List.mem_cons_of_mem _ hc)) hlt' hfit.2
      rw [List.forall_mem_cons, ← hrest]
      constructor
      · rintro ⟨-, hreports⟩
        exact ⟨hdenied, hreports⟩
      · rintro ⟨-, hreports⟩
        exact ⟨⟨hright.yields, fun h => absurd h hdenied⟩, hreports⟩

end

end Jni.Blake3Stream

namespace Jni

/-- **Exactly when no call hides a denied pin**: a one-shot call, and a run of valid calls on a
new stream, return the digest of the bytes passed and report every denied pin if and only if
none of the pins they ask for is denied. -/
theorem pins_reported_iff {p : Platform} (hp : p.Agree) :
    (∀ w data outLen env, 0 < outLen.toInt → env.loadFailure = none →
      (OneShotReports env data (modeDigest none data.bytes outLen.toInt.toNat)
          (hash p w data outLen env).1 ↔ ¬ OneShotPinDenied env data)) ∧
    (∀ w key k data outLen env, keyBuf key = some k → 0 < outLen.toInt →
      env.loadFailure = none →
      (OneShotReports env data (modeDigest (some k) data.bytes outLen.toInt.toNat)
          (keyedHash p w key data outLen env).1 ↔ ¬ OneShotPinDenied env data)) ∧
    ∀ w env₀ key k s w', JvmEnv.MallocOk env₀ w → checkKey key = .ok k →
      Blake3Stream.new w key env₀ = (.returned s, w') → ∀ calls : List (StreamOp × JvmEnv),
      (∀ c ∈ calls, c.1 ≠ .close ∧ c.1.Valid) → MessageFits [] (s.run p w' calls).1 →
      (ReportsPins p k [] (s.run p w' calls).1 ↔ ∀ c ∈ calls, ¬ c.1.PinDenied c.2) := by
  refine ⟨?_, ?_, ?_⟩
  · intro w data outLen env hout hload
    exact hash_reportsPins_iff hp hout hload
  · intro w key k data outLen env hk hout hload
    exact keyedHash_reportsPins_iff hp hk hout hload
  · intro w env₀ key k s w' hmal hk hnew calls hcalls hfit
    have hnil : ([] : List UInt8).length < 2 ^ 64 := by simp
    exact Blake3Stream.run_reportsPins_iff hp (Blake3Stream.new_follows hmal hk hnew) hcalls hnil
      hfit

/-- One byte, both of whose pins are granted. -/
theorem pins_reported_byte :
    OneShotReports (.granting 4096) ⟨[1], by decide⟩ (modeDigest none [1] 32)
      (hash linuxPortable .initial ⟨[1], by decide⟩ 32 (.granting 4096)).1 := by
  have hgranted : ¬ OneShotPinDenied (.granting 4096) ⟨[1], by decide⟩ :=
    not_oneShotPinDenied.mpr ⟨fun _ => rfl, rfl⟩
  exact ((pins_reported_iff linuxPortable_agree).1 .initial ⟨[1], by decide⟩ 32 (.granting 4096)
    (by decide) rfl).mpr hgranted

/-- One byte that cannot be pinned: `hash` returns all the same. -/
theorem pins_hidden_byte :
    ¬ OneShotReports { JvmEnv.granting 4096 with inPinned := false } ⟨[1], by decide⟩
      (modeDigest none [1] 32)
      (hash linuxPortable .initial ⟨[1], by decide⟩ 32
        { JvmEnv.granting 4096 with inPinned := false }).1 := by
  rintro ⟨-, hreport⟩
  obtain ⟨e, he⟩ := hreport (.inl ⟨by decide, rfl⟩)
  obtain ⟨r, hr, -⟩ := hash_bytes linuxPortable_agree .initial ⟨[1], by decide⟩
    (show 0 < (32 : Int32).toInt by decide)
    (show ({ JvmEnv.granting 4096 with inPinned := false } : JvmEnv).loadFailure = none from rfl)
  rw [hr] at he
  exact absurd he (by simp)

end Jni

end Blake3Kmp
