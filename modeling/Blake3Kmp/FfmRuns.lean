/-
The FFM module computes digests.

* `hash_ends`, `keyedHash_ends` — the one-shot functions return the fresh
  digest, or throw since they turn an argument down or the JVM fails a command;
* `run_streaming` — a stream is `Streaming`, whatever the calls, their order
  and the failures.
-/
import Blake3Kmp.FfmStream

open CheckedMemory Programs Prog

namespace Blake3Kmp

namespace Ffm

/-! ### One-shot functions -/

/-- A one-shot function that has accepted its arguments has ended. -/
def DigestEnds (p : Platform) (key : Option (Bytes 32)) (data : JByteArray) (outLen : Int32)
    (w : FfmWorld) (r : Except Throwable JByteArray) (w' : FfmWorld) : Prop :=
  w'.undefined = false ∧
    ((∃ e, r = .error e ∧ w.Failing) ∨
      ∃ out, r = .ok out ∧ freshDigest p key data.bytes outLen.toInt.toNat = some out.bytes)

section

variable {p : Platform} {w : FfmWorld} {key : Option (Bytes 32)} {data : JByteArray}
  {outLen : Int32}

theorem rangeBytes_all (a : JByteArray) : rangeBytes a 0 a.size = a.bytes := by
  rw [rangeBytes, JByteArray.size_toInt, Int32.toInt_zero]
  simp

theorem inRange_all (a : JByteArray) : inRange a 0 a.size := by
  rw [inRange, JByteArray.size_toInt, Int32.toInt_zero]
  omega

/-- What is copied into a new array. -/
theorem filled_zeros {n : Int32} {bytes : List UInt8} (hlen : bytes.length = n.toInt.toNat)
    {out : JByteArray} (h : Filled (JByteArray.zeros n) (0 : Int32).toInt.toNat bytes out) :
    out.bytes = bytes := by
  rw [h, Int32.toInt_zero, Int.toNat_zero, List.take_zero, List.nil_append, Nat.zero_add, hlen,
    List.drop_eq_nil_of_le (zeros_length n).le, List.append_nil]

/-- From the initialised hasher on. -/
theorem hashWith_ends (hp : p.Agree) (hdef : w.undefined = false) {s : MemorySegment}
    (ha : w.resources.usable 0 s.arena = true) (hid : s.id < w.nextSegment)
    (hm : w.memory s.id = .hasher (newHasher zeroedHasher key)) (hout : 0 < outLen.toInt)
    {w₀ : FfmWorld} (hw₀ : w.Failing → w₀.Failing) :
    Ends p (hashWith s.arena s data (JByteArray.zeros outLen) outLen) w
      (BeforeClose s.arena (DigestEnds p key data outLen w₀)) := by
  have hdigest : freshDigest p key data.bytes outLen.toInt.toNat =
      some (modeDigest key data.bytes outLen.toInt.toNat) :=
    freshDigest_eq hp (data.size_lt.trans (by decide)) _
  obtain ⟨hasher, hupd, hfin⟩ := Option.bind_eq_some_iff.mp hdigest
  have hfail : ∀ e w', w'.undefined = false → w'.resources.usable 0 s.arena = true → w.Failing →
      BeforeClose s.arena (DigestEnds p key data outLen w₀) (.error e) w' :=
    fun e w' hw' ha' hf => .inr ⟨ha', hw', .inl ⟨e, rfl, hw₀ hf⟩⟩
  have hsize : data.size.toInt.toNat = data.bytes.length := by
    rw [JByteArray.size_toInt, Int.toNat_natCast]
  -- the input
  refine ends_bind (ends_allocate ha (fun e hf => hfail e _ hdef ha hf) ?_)
  have hl := (Later.refl w).tick.allocated data.bytes.length
  refine ends_bind (ends_copyIn (FfmWorld.allocated_memory_self ..)
    (List.length_replicate.trans hsize.symm) (by rw [JByteArray.size_toInt]; omega) hsize.symm ?_
    (fun hr => absurd (inRange_all data) hr) ?_)
  · exact ha
  intro _
  rw [rangeBytes_all]
  have hl := hl.put_new le_rfl (.bytes data.bytes)
  refine ends_bind (ends_update (congrArg Cell.asHasher ((hl.memory s.id hid).trans hm)) ?_ ?_
    (FfmWorld.put_memory_self ..) ?_ hsize.symm ?_ ?_)
  · exact ha
  · rintro e w' hf (rfl | rfl)
    · exact hfail e _ hdef ha hf
    · exact hfail e _ hdef ha hf
  · exact ha
  · intro hasher' hupd'
    obtain rfl : hasher = hasher' := Option.some.inj (hupd.symm.trans hupd')
    have hl := hl.tick.tick.put_both s.id (.hasher hasher)
    -- the output
    refine ends_bind (ends_allocate ?_ (fun e hf => hfail e _ hdef ha hf) ?_)
    · exact ha
    have hl := hl.tick.allocated outLen.toInt.toNat
    have hm' := (hl.memory s.id hid).trans (FfmWorld.put_memory_self ..)
    refine ends_bind (ends_finalize (congrArg Cell.asHasher hm') ?_ ?_
      (FfmWorld.allocated_memory_self ..) ?_ List.length_replicate ?_ ?_)
    · exact ha
    · rintro e w' hf (rfl | rfl)
      · exact hfail e _ hdef ha hf
      · exact hfail e _ hdef ha hf
    · exact ha
    · intro bytes hfin'
      obtain rfl := Option.some.inj (hfin.symm.trans hfin')
      have hlen : (modeDigest key data.bytes outLen.toInt.toNat).length = outLen.toInt.toNat :=
        digest_length _ _ _ _
      refine ends_copyOut (FfmWorld.put_memory_self ..) hlen hout.le rfl ?_
        (fun hr => absurd (inRange_zeros hout.le) hr) ?_
      · exact ha
      intro _ out hfill
      refine .inr ⟨ha, hdef, .inr ⟨out, rfl, ?_⟩⟩
      rw [hdigest, filled_zeros hlen hfill]
    · intro hnone
      exact absurd (hfin.symm.trans hnone) (by simp)
  · intro hnone
    exact absurd (hupd.symm.trans hnone) (by simp)

theorem hash_ends (hp : p.Agree) (hdef : w.undefined = false) (hout : 0 < outLen.toInt)
    (hne : data.bytes ≠ []) : Ends p (hash data outLen) w (DigestEnds p none data outLen w) := by
  obtain ⟨hgt, -, halloc⟩ := Jni.outLen_pos_checks hout
  rw [hash, if_neg (not_not.mpr hgt), if_neg hne, halloc]
  refine ends_useArena (fun e hf => ⟨hdef, .inl ⟨e, rfl, hf⟩⟩) ?_
  have hopen := Resources.usable_openConfined_self w.resources 0 w.nextArena
  have hfail : ∀ e w', Later w.tick.confined w' → w.Failing →
      BeforeClose w.nextArena (DigestEnds p none data outLen w) (.error e) w' := by
    intro e w' hl hf
    refine .inr ⟨?_, hl.undefined.trans hdef, .inl ⟨e, rfl, hf⟩⟩
    exact (hl.usable _ (Nat.lt_succ_self _)).trans hopen
  refine ends_hasherSegment hopen (Nat.lt_succ_self _) hfail ?_
  intro w₁ i hnew
  have ha := (hnew.later.usable _ (Nat.lt_succ_self _)).trans hopen
  refine ends_bind (ends_init hnew.zeros ha ?_ ?_)
  · rintro e w' hf (rfl | rfl)
    · exact hfail e _ hnew.later.tick (hnew.later.failing hf)
    · exact hfail e _ hnew.later.tick.tick (hnew.later.failing hf)
  · refine hashWith_ends (s := ⟨i, w.nextArena, blake3HasherSizeof⟩) hp ?_ ?_ ?_ ?_ hout ?_
    · exact hnew.later.undefined.trans hdef
    · exact ha
    · exact hnew.lt
    · exact FfmWorld.put_memory_self ..
    · exact hnew.later.failing

theorem keyedHash_ends (hp : p.Agree) (hdef : w.undefined = false) (hout : 0 < outLen.toInt)
    (hne : data.bytes ≠ []) {key : JByteArray} {k : Bytes 32} (hk : keyBuf key = some k) :
    Ends p (keyedHash key data outLen) w (DigestEnds p (some k) data outLen w) := by
  obtain ⟨hgt, -, halloc⟩ := Jni.outLen_pos_checks hout
  rw [keyedHash, if_neg (not_not.mpr (keyBuf_size hk)), if_neg (not_not.mpr hgt), if_neg hne,
    halloc]
  refine ends_useArena (fun e hf => ⟨hdef, .inl ⟨e, rfl, hf⟩⟩) ?_
  have hopen := Resources.usable_openConfined_self w.resources 0 w.nextArena
  have hfail : ∀ e w', Later w.tick.confined w' → w.Failing →
      BeforeClose w.nextArena (DigestEnds p (some k) data outLen w) (.error e) w' := by
    intro e w' hl hf
    refine .inr ⟨?_, hl.undefined.trans hdef, .inl ⟨e, rfl, hf⟩⟩
    exact (hl.usable _ (Nat.lt_succ_self _)).trans hopen
  refine ends_hasherSegment hopen (Nat.lt_succ_self _) hfail ?_
  intro w₁ i hnew
  have hlt : w.nextArena < w₁.nextArena := hnew.later.nextArena
  have ha := (hnew.later.usable _ (Nat.lt_succ_self _)).trans hopen
  refine ends_keySegment hnew.lt ha hnew.zeros hk ?_ ?_
  · intro e w' hl hf
    exact hfail e _ (hnew.later.trans hl) (hnew.later.failing hf)
  · intro w₂ hl
    refine hashWith_ends (s := ⟨i, w.nextArena, blake3HasherSizeof⟩) hp
      ((hl.undefined.trans hnew.later.undefined).trans hdef)
      ((hl.usable _ hlt).trans ha) (hnew.lt.trans_le hl.nextSegment)
      ((hl.memory i hnew.lt).trans (FfmWorld.put_memory_self ..)) hout ?_
    intro hf
    exact hnew.later.failing (hl.failing hf)

end

/-! ### Streams -/

namespace Blake3Stream

/-- A run of operations, each with the failures of its own commands; nothing follows one that
is undefined. -/
def run (p : Platform) (w : FfmWorld) (self : ℕ) :
    List (StreamOp × List (Option Throwable)) → List Event × FfmWorld
  | [] => ([], w)
  | (op, env) :: rest =>
    let r := (call self op).exec (FfmCmd.answer p) (w.given env)
    let e : Event := ⟨op, env.all Option.isNone, outcome r.1 r.2⟩
    if e.outcome.isFault then ([e], r.2)
    else
      let rs := run p r.2 self rest
      (e :: rs.1, rs.2)

/-- The stream is open, and its hasher follows the message `m`. -/
def Follows (w : FfmWorld) (self : ℕ) (key : Option (Bytes 32)) (m : List UInt8) : Prop :=
  ∃ hasher, Simulates w self (some hasher) ∧ hasher.Follows key m

section

variable {p : Platform} {w : FfmWorld} {self : ℕ}

/-- The stream does not depend on what the JVM decides next. -/
theorem Simulates.given {st : Option Hasher} (h : Simulates w self st)
    (env : List (Option Throwable)) : Simulates (w.given env) self st := by
  obtain ⟨hdef, hst⟩ := h
  refine ⟨hdef, ?_⟩
  cases st with
  | none => exact hst
  | some hasher =>
    obtain ⟨segment, hholds⟩ := hst
    exact ⟨segment, hholds.fields, hholds.usable, hholds.arena_lt, hholds.segment_lt,
      hholds.memory⟩

/-- A command fails only where the JVM has decided so. -/
theorem not_granted {env : List (Option Throwable)} (h : (w.given env).Failing) :
    ¬ env.all Option.isNone = true := by
  obtain ⟨n, hn⟩ := h
  intro hall
  refine hn ?_
  show (env[n]?).join = none
  cases henv : env[n]? with
  | none => rfl
  | some o => exact Option.isNone_iff_eq_none.mp (List.all_eq_true.mp hall o
      (List.mem_of_getElem? henv))

variable (hp : p.Agree) {key : Option (Bytes 32)} {m : List UInt8} {hasher : Hasher}
include hp

/-- Native code is defined on a hasher that follows a message. -/
theorem not_breaks (hm : hasher.Follows key m) {op : StreamOp}
    (hfit : (op.message m).length < 2 ^ 64) : ¬ Breaks p hasher op := by
  have hroot : hasherRoot p hasher ≠ none := by
    intro hroot
    obtain ⟨out, hout, -⟩ := finalizeRange_zeros hp hm (show (0 : ℤ) < (1 : Int32).toInt by decide)
    rw [finalizeRange_none hp hroot (by decide)] at hout
    exact absurd hout (by simp)
  cases op with
  | update input offset length =>
    rintro ⟨hpos, hin, hupd⟩
    rw [StreamOp.message, if_neg (pos_toInt.mpr hpos)] at hfit
    obtain ⟨hasher', hsome, -⟩ := updateRange_absorbed hp hm hin hpos hfit
    rw [updateRange_eq hin hpos, hupd] at hsome
    exact absurd hsome (by simp)
  | finalizeInto out offset length => exact hroot
  | finalize outLen => exact hroot
  | reset => exact not_false
  | close => exact not_false

theorem call_right (hf : Follows w self key m) {op : StreamOp} (hop : op ≠ .close)
    (hlt : m.length < 2 ^ 64) (hfit : (op.message m).length < 2 ^ 64)
    (env : List (Option Throwable)) {r : Except Throwable Reply} {w' : FfmWorld}
    (hrun : (call self op).exec (FfmCmd.answer p) (w.given env) = (r, w')) :
    (⟨op, env.all Option.isNone, outcome r w'⟩ : Event).Right p key m ∧
      Follows w' self key (Event.message m ⟨op, env.all Option.isNone, outcome r w'⟩) := by
  obtain ⟨hasher, hsim, hm⟩ := hf
  have hends := wp_exec.mp (call_ends hp (hsim.given env) op)
  rw [hrun] at hends
  rcases hends with ⟨e, hr, hsim', hwhy⟩ | ⟨halike, hbreaks | hsim'⟩
  · -- thrown, and nothing has changed
    rw [show r = .error e from hr, outcome_defined hsim'.1]
    refine ⟨Event.right_threw ?_, hasher, hsim', hm⟩
    intro hgranted hv
    rcases hwhy with hfailing | hov
    · exact not_granted hfailing hgranted
    · exact hov hv.noOverflow
  · obtain ⟨-, hasher', heq, hbreaks⟩ := hbreaks
    obtain rfl := Option.some.inj heq
    exact absurd hbreaks (not_breaks hp hm hfit)
  · have hno : op.NoOverflow := by
      by_contra hov
      rw [StreamOp.step_overflow hov, show (r, w').1 = r from rfl, show (r, w').2 = w' from rfl,
        outcome_defined hsim'.1] at halike
      cases r with
      | ok a => exact halike
      | error e => exact halike
    obtain ⟨hright, hasher', hst, hm'⟩ := step_right hp hm (env.all Option.isNone) hop hno hlt hfit
    rw [hst] at hsim'
    exact ⟨hright.alike halike, hasher', hsim', by rwa [Event.message_alike halike]⟩

/-- **A run of a stream is streaming**, whatever fails and whatever the ranges: a range that
overflows is turned down when it is copied. -/
theorem run_streaming (hf : Follows w self key m)
    {calls : List (StreamOp × List (Option Throwable))} (hcalls : ∀ c ∈ calls, c.1 ≠ .close)
    (hlt : m.length < 2 ^ 64) (hfit : MessageFits m (run p w self calls).1) :
    Streaming p key m (run p w self calls).1 := by
  induction calls generalizing w m with
  | nil => exact trivial
  | cons c calls ih =>
    obtain ⟨op, env⟩ := c
    rw [run] at hfit ⊢
    dsimp only at hfit ⊢
    rcases hrun : (call self op).exec (FfmCmd.answer p) (w.given env) with ⟨r, w'⟩
    rw [hrun] at hfit
    have hhead : (op.message m).length < 2 ^ 64 := by
      split at hfit
      · exact hfit.1
      · exact hfit.1
    obtain ⟨hright, hf'⟩ := call_right hp hf (hcalls (op, env) (by simp)) hlt hhead env hrun
    have hdef : (outcome r w').isFault = false := hright.isFault
    have hlt' : (Event.message m ⟨op, env.all Option.isNone, outcome r w'⟩).length < 2 ^ 64 := by
      rw [Event.message]
      split
      · exact hhead
      · exact hlt
    dsimp only at hfit ⊢
    rw [hdef, if_neg (by simp)] at hfit ⊢
    exact ⟨hright, ih hf' (fun c hc => hcalls c (List.mem_cons_of_mem _ hc)) hlt' hfit.2⟩

end

end Blake3Stream

end Ffm

end Blake3Kmp
