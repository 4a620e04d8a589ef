/-
What each call of the JNI module does with the stream it is made on, whatever
the other threads do.

A thread in a call on a stream has the stream: its field, and the hasher
allocated for it, which no other thread changes meanwhile.

* `Hold`, `holdContract` — what such a thread may ask for, and what it may rely
  on: native functions are given its own hasher, and are defined on it;
* `Does` — how a call may end on a stream without memory, as in `Stream.lean`;
* `wp_body` — every call keeps to the contract and does that.
-/
import Blake3Kmp.JniPool
import Blake3Kmp.JniRuns

open CheckedMemory Programs Prog

namespace Blake3Kmp

/-! ### What a thread has -/

/-- A field, and the hasher allocated for the stream. -/
structure Belongings where
  hasherPtr : UInt64
  hasher : Option (UInt64 × Hasher)

namespace Belongings

/-- A new object. -/
def blank : Belongings where
  hasherPtr := 0
  hasher := none

/-- The stream between two calls: `none` before its constructor, `some none` once closed. -/
def Shows (b : Belongings) : Option (Option Hasher) → Prop
  | some (some h) => b.hasherPtr ≠ 0 ∧ b.hasher = some (b.hasherPtr, h)
  | _ => b = blank

end Belongings

/-- A thread in a call on the stream `self`, of which `base` was there before. -/
structure Hold where
  self : ℕ
  writes : Bool
  base : Option (Option Hasher)
  /-- The bytes given to `update` so far. -/
  passed : ℕ
  now : Belongings

/-- What is asked for is the thread's own; a one-shot call has nothing. -/
def holdContract (p : Platform) : Contract KmpCmd KmpCmd.Answer Throwable (Option Hold) where
  requires := fun g c =>
    match g, c with
    | _, .loadNativeLibrary => True
    | some g, .createHasher => g.writes = true ∧ g.now.hasher = none
    | some g, .createKeyedHasher _ => g.writes = true ∧ g.now.hasher = none
    | some g, .hasherUpdate hasherPtr input offset length => g.writes = true ∧
      ∃ h h', g.now.hasher = some (hasherPtr, h) ∧ updateRange p h input offset length = some h'
    | some g, .hasherFinalize hasherPtr output offset length =>
      ∃ h output', g.now.hasher = some (hasherPtr, h) ∧
        finalizeRange p h output offset length = some output'
    | some g, .hasherReset hasherPtr => g.writes = true ∧ hasherPtr ≠ 0 ∧
      ∃ h, g.now.hasher = some (hasherPtr, h)
    | some g, .freeHasher hasherPtr => g.writes = true ∧ hasherPtr ≠ 0 ∧
      ∃ h, g.now.hasher = some (hasherPtr, h)
    | some g, .getHasherPtr self => g.self = self
    | some g, .setHasherPtr self _ => g.writes = true ∧ g.self = self
    | none, .hash input offset length output outLen => ∀ env,
      (JniBlake3.hash p .initial input offset length output outLen env).1 ≠ .fault
    | none, .keyedHash key input offset length output outLen => ∀ env,
      (JniBlake3.keyedHash p .initial key input offset length output outLen env).1 ≠ .fault
    | _, _ => False
  answers := fun g c r g' =>
    match g, c with
    | some g, .createHasher => ((∃ e, r = .error e) ∧ g' = some g) ∨ (r = .ok (0 : UInt64) ∧ g' = some g) ∨
      ∃ (a : UInt64) (memory : Hasher), a ≠ 0 ∧ r = .ok a ∧
        g' = some { g with now := { g.now with hasher := some (a, newHasher memory none) } }
    | some g, .createKeyedHasher key => ((∃ e, r = .error e) ∧ g' = some g) ∨
      (r = .ok (0 : UInt64) ∧ g' = some g) ∨
      ∃ (a : UInt64) (memory : Hasher) (k : Bytes 32), keyBuf key = some k ∧ a ≠ 0 ∧ r = .ok a ∧
        g' = some { g with now := { g.now with hasher := some (a, newHasher memory (some k)) } }
    | some g, .hasherUpdate hasherPtr input offset length => r = .ok () ∧ (g' = some g ∨
      ∃ h h', g.now.hasher = some (hasherPtr, h) ∧
        updateRange p h input offset length = some h' ∧
        g' = some { g with now := { g.now with hasher := some (hasherPtr, h') } })
    | some g, .hasherFinalize hasherPtr output offset length => g' = some g ∧ (r = .ok output ∨
      ∃ h output', g.now.hasher = some (hasherPtr, h) ∧
        finalizeRange p h output offset length = some output' ∧ r = .ok output')
    | some g, .hasherReset hasherPtr => r = .ok () ∧ ∃ h, g.now.hasher = some (hasherPtr, h) ∧
      g' = some { g with
        now := { g.now with hasher := some (hasherPtr, blake3HasherReset h) } }
    | some g, .freeHasher _ => r = .ok () ∧
      g' = some { g with now := { g.now with hasher := none } }
    | some g, .getHasherPtr _ => r = .ok g.now.hasherPtr ∧ g' = some g
    | some g, .setHasherPtr _ hasherPtr => r = .ok () ∧
      g' = some { g with now := { g.now with hasherPtr } }
    | none, .hash input offset length output outLen => g' = none ∧ ((∃ e, r = .error e) ∨
      ∃ env a, (JniBlake3.hash p .initial input offset length output outLen env).1 =
        .returned a ∧ r = .ok a)
    | none, .keyedHash key input offset length output outLen => g' = none ∧
      ((∃ e, r = .error e) ∨ ∃ env a,
        (JniBlake3.keyedHash p .initial key input offset length output outLen env).1 =
          .returned a ∧ r = .ok a)
    | _, _ => g' = g

/-! ### What a call does -/

/-- How a call may end on the stream `st`, and the stream after it. -/
def Does (p : Platform) (st : Option (Option Hasher)) : KmpCall → Except Throwable Reply →
    Option (Option Hasher) → Prop
  | .new _ key, r, st' => st = none ∧
    ((∃ env e, newOutcome key env = .error e ∧ r = .error e ∧ st' = none) ∨
      ∃ env k memory, newOutcome key env = .ok k ∧ r = .ok .unit ∧
        st' = some (some (newHasher memory k)))
  | .call _ op, r, st' => ∃ self pinned, st = some self ∧
    (op.step p pinned self).1 = outcomeOf r ∧ st' = some (op.step p pinned self).2
  | .hash data outLen, r, _ =>
    ∃ env, Jni.reply .array (Jni.hash p .initial data outLen env).1 = outcomeOf r
  | .keyedHash key data outLen, r, _ =>
    ∃ env, Jni.reply .array (Jni.keyedHash p .initial key data outLen env).1 = outcomeOf r

/-- What a thread has at the end of a call. -/
def Does.post (p : Platform) (call : KmpCall) (r : Except Throwable Reply) :
    Option Hold → Prop
  | some g => ∃ st, Does p g.base call r st ∧ g.now.Shows st
  | none => Does p none call r none

/-! ### The commands -/

section

variable {p : Platform} {g : Hold}

open Jni.Threaded

/-- The reply of a call. -/
theorem wp_reply {α : Type} {x : KmpProg α} (f : α → Reply)
    {post : Except Throwable Reply → Option Hold → Prop} {g : Option Hold}
    (hx : x.wp (holdContract p) (fun r g' => post (r.map f) g') g) :
    (x.bind fun a => .pure (f a)).wp (holdContract p) post g := by
  refine wp_bind (wp_mono ?_ hx)
  intro r g' h
  cases r with
  | ok a => exact h
  | error e => exact h

theorem wp_loadNativeLibrary {post : Except Throwable Unit → Option Hold → Prop}
    {g : Option Hold} (h : ∀ r, post r g) :
    loadNativeLibrary.wp (holdContract p) post g := by
  cases g with
  | none =>
    refine wp_request trivial ?_
    rintro r g' rfl
    exact h r
  | some g =>
    refine wp_request trivial ?_
    rintro r g' rfl
    exact h r

theorem wp_getHasherPtr {post : Except Throwable UInt64 → Option Hold → Prop}
    (h : post (.ok g.now.hasherPtr) (some g)) :
    (getHasherPtr g.self).wp (holdContract p) post (some g) := by
  refine wp_request (show g.self = g.self from rfl) ?_
  rintro r g' ⟨rfl, rfl⟩
  exact h

theorem wp_setHasherPtr (hw : g.writes = true) {hasherPtr : UInt64}
    {post : Except Throwable Unit → Option Hold → Prop}
    (h : post (.ok ()) (some { g with now := { g.now with hasherPtr } })) :
    (setHasherPtr g.self hasherPtr).wp (holdContract p) post (some g) := by
  refine wp_request ⟨hw, rfl⟩ ?_
  rintro r g' ⟨rfl, rfl⟩
  exact h

/-- `check(hasherPtr != 0L)`, and then the field again. -/
theorem wp_checked {α : Type} {f : UInt64 → KmpProg α} {self : Option Hasher}
    (hshows : g.now.Shows (some self)) {post : Except Throwable α → Option Hold → Prop}
    (hclosed : self = none → post (.error streamClosed) (some g))
    (hopen : ∀ h, self = some h → g.now.hasher = some (g.now.hasherPtr, h) →
      (f g.now.hasherPtr).wp (holdContract p) post (some g)) :
    ((getHasherPtr g.self).bind fun hasherPtr => if ¬ hasherPtr ≠ 0 then .raise streamClosed
      else (getHasherPtr g.self).bind f).wp (holdContract p) post (some g) := by
  refine wp_bind (wp_getHasherPtr ?_)
  show Prog.wp _ _ (if _ then _ else _) _
  cases self with
  | none =>
    have h0 : g.now.hasherPtr = 0 := congrArg Belongings.hasherPtr hshows
    rw [if_pos (not_not.mpr h0)]
    exact hclosed rfl
  | some h =>
    obtain ⟨h0, hhasher⟩ := hshows
    rw [if_neg (not_not.mpr h0)]
    exact wp_bind (wp_getHasherPtr (hopen h rfl hhasher))

/-! ### The operations of a stream -/

theorem wp_update {self : Option Hasher} (hw : g.writes = true)
    (hshows : g.now.Shows (some self)) {input : JByteArray} {offset length : Int32}
    (hdef : (streamUpdate p true self input offset length).1 ≠ .fault) :
    (update g.self input offset length).wp (holdContract p) (fun r g' => ∃ pinned now,
      g' = some { g with now } ∧
      now.Shows (some (streamUpdate p pinned self input offset length).2) ∧
      (streamUpdate p pinned self input offset length).1 = outcomeOf (r.map fun _ => .unit))
      (some g) := by
  rw [streamUpdate.eq_def] at hdef
  rw [update]
  simp only [streamUpdate.eq_def]
  by_cases hlen : length ≤ 0
  · simp only [if_pos hlen]
    exact ⟨true, g.now, rfl, hshows, rfl⟩
  rw [if_neg hlen] at hdef ⊢
  simp only [if_neg hlen]
  by_cases hr : ¬ rangeCheck input offset length = true
  · simp only [if_pos hr]
    exact ⟨true, g.now, rfl, hshows, rfl⟩
  rw [if_neg hr] at hdef ⊢
  simp only [if_neg hr]
  refine wp_checked hshows ?_ ?_
  · rintro rfl
    exact ⟨true, g.now, rfl, hshows, rfl⟩
  · rintro h rfl hhasher
    obtain ⟨h0, -⟩ := id hshows
    cases hupd : updateRange p h input offset length with
    | none =>
      simp only [if_true, hupd] at hdef
      exact absurd rfl hdef
    | some h' =>
      refine wp_request ⟨hw, h, h', hhasher, hupd⟩ ?_
      rintro r g' ⟨rfl, rfl | ⟨h₁, h₂, hhasher', hupd', rfl⟩⟩
      · -- the array was not pinned
        exact ⟨false, g.now, rfl, hshows, rfl⟩
      · obtain rfl : h = h₁ := (Prod.mk.inj (Option.some.inj (hhasher.symm.trans hhasher'))).2
        rw [hupd] at hupd'
        obtain rfl := Option.some.inj hupd'
        refine ⟨true, _, rfl, ?_⟩
        simp only [if_true, hupd]
        exact ⟨⟨h0, rfl⟩, rfl⟩

theorem wp_finalizeInto {self : Option Hasher} (hshows : g.now.Shows (some self))
    {out : JByteArray} {offset length : Int32}
    (hdef : streamFinalizeInto p true self out offset length ≠ .fault) :
    (finalizeInto g.self out offset length).wp (holdContract p) (fun r g' => g' = some g ∧
      ∃ pinned, streamFinalizeInto p pinned self out offset length = outcomeOf (r.map .array))
      (some g) := by
  rw [streamFinalizeInto.eq_def] at hdef
  rw [finalizeInto]
  simp only [streamFinalizeInto.eq_def]
  by_cases hlen : length ≤ 0
  · simp only [if_pos hlen]
    exact ⟨rfl, true, rfl⟩
  rw [if_neg hlen] at hdef ⊢
  simp only [if_neg hlen]
  by_cases hr : ¬ rangeCheck out offset length = true
  · simp only [if_pos hr]
    exact ⟨rfl, true, rfl⟩
  rw [if_neg hr] at hdef ⊢
  simp only [if_neg hr]
  refine wp_checked hshows ?_ ?_
  · rintro rfl
    exact ⟨rfl, true, rfl⟩
  · rintro h rfl hhasher
    cases hfin : finalizeRange p h out offset length with
    | none =>
      simp only [if_true, hfin] at hdef
      exact absurd rfl hdef
    | some out' =>
      refine wp_request ⟨h, out', hhasher, hfin⟩ ?_
      rintro r g' ⟨rfl, rfl | ⟨h₁, out₁, hhasher', hfin', rfl⟩⟩
      · exact ⟨rfl, false, rfl⟩
      · obtain rfl : h = h₁ := (Prod.mk.inj (Option.some.inj (hhasher.symm.trans hhasher'))).2
        rw [hfin] at hfin'
        obtain rfl := Option.some.inj hfin'
        refine ⟨rfl, true, ?_⟩
        simp only [if_true, hfin]
        rfl

theorem wp_reset {self : Option Hasher} (hw : g.writes = true)
    (hshows : g.now.Shows (some self)) :
    (reset g.self).wp (holdContract p) (fun r g' => ∃ now, g' = some { g with now } ∧
      now.Shows (some (StreamOp.reset.step p true self).2) ∧
      (StreamOp.reset.step p true self).1 = outcomeOf (r.map fun _ => .unit)) (some g) := by
  refine wp_checked hshows ?_ ?_
  · rintro rfl
    exact ⟨g.now, rfl, hshows, rfl⟩
  · rintro h rfl hhasher
    obtain ⟨h0, -⟩ := id hshows
    refine wp_request ⟨hw, h0, h, hhasher⟩ ?_
    rintro r g' ⟨rfl, h₁, hhasher', rfl⟩
    obtain rfl : h = h₁ := (Prod.mk.inj (Option.some.inj (hhasher.symm.trans hhasher'))).2
    exact ⟨_, rfl, ⟨h0, rfl⟩, rfl⟩

theorem wp_close {self : Option Hasher} (hw : g.writes = true)
    (hshows : g.now.Shows (some self)) :
    (close g.self).wp (holdContract p) (fun r g' => r = .ok () ∧
      g' = some { g with now := .blank }) (some g) := by
  refine wp_bind (wp_getHasherPtr ?_)
  show Prog.wp _ _ (if _ then _ else _) _
  cases self with
  | none =>
    have hblank : g.now = .blank := hshows
    have h0 : g.now.hasherPtr = 0 := congrArg Belongings.hasherPtr hblank
    rw [if_neg (not_not.mpr h0), ← hblank]
    exact ⟨rfl, rfl⟩
  | some h =>
    obtain ⟨h0, hhasher⟩ := hshows
    rw [if_pos h0]
    refine wp_bind (wp_getHasherPtr ?_)
    refine wp_bind (wp_request ⟨hw, h0, h, hhasher⟩ ?_)
    rintro r g' ⟨rfl, rfl⟩
    -- the hasher is gone, and then the field is cleared
    exact wp_setHasherPtr (g := { g with now := { g.now with hasher := none } }) hw ⟨rfl, rfl⟩

/-! ### The constructors -/

/-- The end of both constructors: the field is set, read again and checked. -/
theorem wp_publish (hw : g.writes = true) {hasherPtr : UInt64} {e : Throwable}
    {post : Except Throwable Unit → Option Hold → Prop}
    (hnull : hasherPtr = 0 → post (.error e) (some { g with now := { g.now with hasherPtr } }))
    (hok : hasherPtr ≠ 0 → post (.ok ()) (some { g with now := { g.now with hasherPtr } })) :
    ((setHasherPtr g.self hasherPtr).bind fun _ => (getHasherPtr g.self).bind fun hasherPtr =>
      if ¬ hasherPtr ≠ 0 then .raise e else .pure ()).wp (holdContract p) post (some g) := by
  refine wp_bind (wp_setHasherPtr hw ?_)
  refine wp_bind (wp_getHasherPtr (g := { g with now := { g.now with hasherPtr } }) ?_)
  show Prog.wp _ _ (if _ then _ else _) _
  by_cases h0 : hasherPtr = 0
  · rw [if_pos (not_not.mpr h0)]
    exact hnull h0
  · rw [if_neg (not_not.mpr h0)]
    exact hok h0

/-- The library does not load. -/
theorem newOutcome_unloaded (key : Option JByteArray) (e : Throwable) :
    newOutcome key { JvmEnv.granting 16 with loadFailure := some e } = .error e := rfl

theorem newOutcome_null {key : Option JByteArray} {k : Option (Bytes 32)}
    (hk : checkKey key = .ok k) :
    newOutcome key { JvmEnv.granting 16 with malloc := none } = .error (allocationFailed key) := by
  rw [newOutcome]
  simp only [JvmEnv.granting, hk]
  rfl

theorem newOutcome_granted {key : Option JByteArray} {k : Option (Bytes 32)}
    (hk : checkKey key = .ok k) : newOutcome key (.granting 16) = .ok k :=
  newOutcome_eq_ok.mpr ⟨rfl, hk, rfl⟩

theorem wp_new (hw : g.writes = true) (hblank : g.now = .blank) (key : Option JByteArray) :
    (new g.self key).wp (holdContract p) (fun r g' => ∃ st now, g' = some { g with now } ∧
      Does p none (.new g.self key) (r.map fun _ => .unit) st ∧ now.Shows st) (some g) := by
  -- the three ways in which a constructor ends
  have hthrows : ∀ e env, newOutcome key env = .error e → ∃ st now,
      some g = some { g with now } ∧
      Does p none (.new g.self key) (Except.map (fun _ => Reply.unit) (.error e : Except Throwable Unit)) st ∧
      now.Shows st := fun e env h => ⟨none, g.now, rfl, ⟨rfl, .inl ⟨env, e, h, rfl, rfl⟩⟩, hblank⟩
  have hnull : ∀ k, checkKey key = .ok k → ∃ st now,
      (some { g with now := { g.now with hasherPtr := 0 } } : Option Hold) =
        some { g with now } ∧
      Does p none (.new g.self key) (.error (allocationFailed key)) st ∧ now.Shows st := by
    intro k hk
    refine ⟨none, _, rfl, ⟨rfl, .inl ⟨_, _, newOutcome_null hk, rfl, rfl⟩⟩, ?_⟩
    rw [hblank]
    rfl
  have hok : ∀ k a memory, checkKey key = .ok k → a ≠ 0 → ∃ st now,
      (some { g with now := ⟨a, some (a, newHasher memory k)⟩ } : Option Hold) =
        some { g with now } ∧
      Does p none (.new g.self key) (.ok .unit) st ∧ now.Shows st :=
    fun k a memory hk h0 => ⟨_, _, rfl,
      ⟨rfl, .inr ⟨_, k, memory, newOutcome_granted hk, rfl, rfl⟩⟩, h0, rfl⟩
  have hfree : g.now.hasher = none := congrArg Belongings.hasher hblank
  cases key with
  | none =>
    refine wp_bind (wp_loadNativeLibrary ?_)
    intro r
    cases r with
    | error e => exact hthrows e _ (newOutcome_unloaded none e)
    | ok u =>
      refine wp_bind (wp_request ⟨hw, hfree⟩ ?_)
      rintro r g' (⟨⟨e, rfl⟩, rfl⟩ | ⟨rfl, rfl⟩ | ⟨a, memory, h0, rfl, rfl⟩)
      · exact hthrows e _ (newOutcome_unloaded none e)
      · exact wp_publish hw (fun _ => hnull none rfl) fun h0 => absurd rfl h0
      · exact wp_publish
          (g := { g with now := { g.now with hasher := some (a, newHasher memory none) } }) hw
          (fun h => absurd h h0) fun _ => hok none a memory rfl h0
  | some key =>
    refine wp_bind (wp_loadNativeLibrary ?_)
    intro r
    cases r with
    | error e => exact hthrows e _ (newOutcome_unloaded (some key) e)
    | ok u =>
      show Prog.wp _ _ (if _ then _ else _) _
      by_cases hsize : key.size = 32
      · obtain ⟨k, hk⟩ := keyBuf_isSome hsize
        have hkey : checkKey (some key) = .ok (some k) := by
          rw [checkKey, hk]
        rw [if_neg (not_not.mpr hsize)]
        refine wp_bind (wp_request ⟨hw, hfree⟩ ?_)
        rintro r g' (⟨⟨e, rfl⟩, rfl⟩ | ⟨rfl, rfl⟩ | ⟨a, memory, k', hk', h0, rfl, rfl⟩)
        · exact hthrows e _ (newOutcome_unloaded (some key) e)
        · exact wp_publish hw (fun _ => hnull (some k) hkey) fun h0 => absurd rfl h0
        · obtain rfl := Option.some.inj (hk.symm.trans hk')
          exact wp_publish
            (g := { g with now := { g.now with hasher := some (a, newHasher memory (some k)) } }) hw
            (fun h => absurd h h0) fun _ => hok (some k) a memory hkey h0
      · rw [if_pos hsize]
        refine hthrows badKeySize (.granting 16) ?_
        rw [newOutcome, checkKey, keyBuf_none hsize]
        rfl

end

/-! ### The one-shot functions -/

section

variable {p : Platform} (hp : p.Agree)
include hp

theorem wp_hash (data : JByteArray) (outLen : Int32) :
    (Jni.Threaded.hash data outLen).wp (holdContract p) (fun r g' => g' = none ∧
      Does p none (.hash data outLen) (r.map .array) none) none := by
  -- the library is not there
  have hunloaded : ∀ e, Does p none (.hash data outLen) (.error e) none :=
    fun e => ⟨{ JvmEnv.granting 16 with loadFailure := some e }, rfl⟩
  refine wp_bind (wp_loadNativeLibrary ?_)
  intro r
  cases r with
  | error e => exact ⟨rfl, hunloaded e⟩
  | ok u =>
    show Prog.wp _ _ (if _ then _ else _) _
    by_cases hgt : outLen > 0
    · have hpos : 0 < outLen.toInt := by
        rwa [gt_iff_lt, Int32.lt_iff_toInt_lt, Int32.toInt_zero] at hgt
      obtain ⟨-, hle, halloc⟩ := Jni.outLen_pos_checks hpos
      rw [if_neg (not_not.mpr hgt), halloc]
      have hjni : ∀ env, env.loadFailure = none → Jni.hash p .initial data outLen env =
          JniBlake3.hash p .initial data 0 data.size (.zeros outLen) outLen env := by
        intro env hload
        simp only [Jni.hash, hload, hgt, not_true_eq_false, if_false, halloc]
      refine wp_request ?_ ?_
      · intro env hfault
        have hload : ({ env with loadFailure := none } : JvmEnv).loadFailure = none := rfl
        obtain ⟨r, hr, -⟩ := Jni.hash_bytes hp .initial data hpos hload
        rw [hjni _ rfl] at hr
        exact absurd (hr.symm.trans hfault) (by simp)
      · rintro r g' ⟨rfl, ⟨e, rfl⟩ | ⟨env, a, ha, rfl⟩⟩
        · exact ⟨rfl, hunloaded e⟩
        · refine ⟨rfl, { env with loadFailure := none }, ?_⟩
          rw [hjni _ rfl]
          exact congrArg (Jni.reply .array) ha
    · rw [if_pos hgt]
      refine ⟨rfl, .granting 16, ?_⟩
      rw [Jni.hash]
      simp only [JvmEnv.granting, if_pos hgt]
      rfl

theorem wp_keyedHash (key data : JByteArray) (outLen : Int32) :
    (Jni.Threaded.keyedHash key data outLen).wp (holdContract p) (fun r g' => g' = none ∧
      Does p none (.keyedHash key data outLen) (r.map .array) none) none := by
  have hunloaded : ∀ e, Does p none (.keyedHash key data outLen) (.error e) none :=
    fun e => ⟨{ JvmEnv.granting 16 with loadFailure := some e }, rfl⟩
  refine wp_bind (wp_loadNativeLibrary ?_)
  intro r
  cases r with
  | error e => exact ⟨rfl, hunloaded e⟩
  | ok u =>
    show Prog.wp _ _ (if _ then _ else if _ then _ else _) _
    by_cases hsize : key.size = 32
    · rw [if_neg (not_not.mpr hsize)]
      by_cases hgt : outLen > 0
      · have hpos : 0 < outLen.toInt := by
          rwa [gt_iff_lt, Int32.lt_iff_toInt_lt, Int32.toInt_zero] at hgt
        obtain ⟨-, hle, halloc⟩ := Jni.outLen_pos_checks hpos
        obtain ⟨k, hk⟩ := keyBuf_isSome hsize
        rw [if_neg (not_not.mpr hgt), halloc]
        have hjni : ∀ env, env.loadFailure = none →
            Jni.keyedHash p .initial key data outLen env =
              JniBlake3.keyedHash p .initial key data 0 data.size (.zeros outLen) outLen env := by
          intro env hload
          simp only [Jni.keyedHash, hload, hsize, hgt, not_true_eq_false, if_false, halloc]
        refine wp_request ?_ ?_
        · intro env hfault
          have hload : ({ env with loadFailure := none } : JvmEnv).loadFailure = none := rfl
          obtain ⟨r, hr, -⟩ := Jni.keyedHash_bytes hp .initial hk data hpos hload
          rw [hjni _ rfl] at hr
          exact absurd (hr.symm.trans hfault) (by simp)
        · rintro r g' ⟨rfl, ⟨e, rfl⟩ | ⟨env, a, ha, rfl⟩⟩
          · exact ⟨rfl, hunloaded e⟩
          · refine ⟨rfl, { env with loadFailure := none }, ?_⟩
            rw [hjni _ rfl]
            exact congrArg (Jni.reply .array) ha
      · rw [if_pos hgt]
        refine ⟨rfl, .granting 16, ?_⟩
        rw [Jni.keyedHash]
        simp only [JvmEnv.granting, hsize, not_true_eq_false, if_false, if_pos hgt]
        rfl
    · rw [if_pos hsize]
      refine ⟨rfl, .granting 16, ?_⟩
      rw [Jni.keyedHash]
      simp only [JvmEnv.granting, if_pos hsize]
      rfl

end

/-! ### Calls -/

/-- What a thread has at the start of a call: the stream between two calls, on which the call is
defined. -/
def Ready (p : Platform) : KmpCall → Option Hold → Prop
  | .new self _, some g => g.self = self ∧ g.writes = true ∧ g.base = none ∧ g.now = .blank
  | .call self op, some g => g.self = self ∧ g.writes = !op.readsOnly ∧ ∃ st, g.base = some st ∧
    g.now.Shows (some st) ∧ (op.step p true st).1 ≠ .fault
  | .hash _ _, none => True
  | .keyedHash _ _ _, none => True
  | _, _ => False

/-- An operation that ended as it does with the array pinned or not. -/
theorem Does.call_post {p : Platform} {g : Hold} {op : StreamOp} {st : Option Hasher}
    (hbase : g.base = some st) (pinned : Bool) {now : Belongings} {r : Except Throwable Reply}
    (hnow : now.Shows (some (op.step p pinned st).2))
    (hout : (op.step p pinned st).1 = outcomeOf r) :
    Does.post p (.call g.self op) r (some { g with now }) :=
  ⟨_, ⟨st, pinned, hbase, hout, rfl⟩, hnow⟩

theorem wp_call {p : Platform} {g : Hold} {op : StreamOp} (hw : g.writes = !op.readsOnly)
    {st : Option Hasher} (hbase : g.base = some st) (hshows : g.now.Shows (some st))
    (hdef : (op.step p true st).1 ≠ .fault) :
    (Jni.Threaded.call g.self op).wp (holdContract p) (Does.post p (.call g.self op))
      (some g) := by
  cases op with
  | update input offset length =>
    refine wp_reply _ (wp_mono ?_ (wp_update hw hshows hdef))
    rintro r g' ⟨pinned, now, rfl, hnow, hout⟩
    exact Does.call_post hbase pinned hnow hout
  | finalizeInto out offset length =>
    refine wp_reply _ (wp_mono ?_ (wp_finalizeInto hshows hdef))
    rintro r g' ⟨rfl, pinned, hout⟩
    exact Does.call_post hbase pinned hshows hout
  | finalize outLen =>
    refine wp_reply _ ?_
    rw [Jni.Threaded.finalize]
    cases halloc : JByteArray.alloc outLen with
    | error e =>
      have hstep : ∀ pinned, StreamOp.step p pinned st (.finalize outLen) = (.threw e, st) := by
        intro pinned
        rw [StreamOp.step, halloc]
      exact Does.call_post hbase true (by rw [hstep]; exact hshows) (by rw [hstep]; rfl)
    | ok result =>
      have hstep : ∀ pinned, StreamOp.step p pinned st (.finalize outLen) =
          (streamFinalizeInto p pinned st result 0 outLen, st) := by
        intro pinned
        rw [StreamOp.step, halloc]
      rw [hstep] at hdef
      refine wp_mono ?_ (wp_finalizeInto hshows hdef)
      rintro r g' ⟨rfl, pinned, hout⟩
      exact Does.call_post hbase pinned (by rw [hstep]; exact hshows) (by rw [hstep]; exact hout)
  | reset =>
    refine wp_reply _ (wp_mono ?_ (wp_reset hw hshows))
    rintro r g' ⟨now, rfl, hnow, hout⟩
    exact Does.call_post hbase true hnow hout
  | close =>
    refine wp_reply _ (wp_mono ?_ (wp_close hw hshows))
    rintro r g' ⟨rfl, rfl⟩
    exact Does.call_post hbase true rfl rfl

/-- **Every call keeps to the contract**, and ends as `Does` says. -/
theorem wp_body {p : Platform} (hp : p.Agree) {call : KmpCall} {g : Option Hold}
    (h : Ready p call g) : call.body.wp (holdContract p) (Does.post p call) g := by
  cases call with
  | new self key =>
    cases g with
    | none => exact absurd h not_false
    | some g =>
      obtain ⟨rfl, hw, hbase, hblank⟩ := h
      refine wp_reply _ (wp_mono ?_ (wp_new hw hblank key))
      rintro r g' ⟨st, now, rfl, hdoes, hnow⟩
      refine ⟨st, ?_, hnow⟩
      show Does p g.base _ _ _
      rw [hbase]
      exact hdoes
  | call self op =>
    cases g with
    | none => exact absurd h not_false
    | some g =>
      obtain ⟨rfl, hw, st, hbase, hshows, hdef⟩ := h
      exact wp_call hw hbase hshows hdef
  | hash data outLen =>
    cases g with
    | some g => exact absurd h not_false
    | none =>
      refine wp_reply _ (wp_mono ?_ (wp_hash hp data outLen))
      rintro r g' ⟨rfl, hdoes⟩
      exact hdoes
  | keyedHash key data outLen =>
    cases g with
    | some g => exact absurd h not_false
    | none =>
      refine wp_reply _ (wp_mono ?_ (wp_keyedHash hp key data outLen))
      rintro r g' ⟨rfl, hdoes⟩
      exact hdoes

end Blake3Kmp
