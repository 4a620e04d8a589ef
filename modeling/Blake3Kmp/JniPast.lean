/-
The calls on one stream, one after another.

* `Past` — calls that have ended on a stream, and the stream after them;
* `Past.open_iff` — it is open when a constructor has returned and nothing has
  closed it;
* `step_follows` — an operation on a stream that follows its message is defined,
  as long as it is given fewer than `2 ^ 64` bytes;
* `Past.run` — such calls are a run of `Ownership.lean`.
-/
import Blake3Kmp.JniDuties
import Mathlib.Data.List.Forall2

open CheckedMemory Programs

namespace Blake3Kmp

def KmpCall.NoOverflow : KmpCall → Prop
  | call _ op => op.NoOverflow
  | _ => True

/-- Calls that have ended on the stream `i`, and the stream after them. -/
inductive Past (p : Platform) (i : ℕ) :
    List (KmpCall × Except Throwable Reply) → Option (Option Hasher) → Prop
  | nil : Past p i [] none
  | snoc {calls : List (KmpCall × Except Throwable Reply)} {st st' : Option (Option Hasher)}
      {call : KmpCall} {r : Except Throwable Reply} (before : Past p i calls st)
      (on : call.stream? = some i) (fine : call.NoOverflow) (does : Does p st call r st') :
      Past p i (calls ++ [(call, r)]) st'

/-! ### One operation -/

section

variable {p : Platform}

/-- A closed stream stays closed, and nothing is undefined on it. -/
theorem step_closed (pinned : Bool) (op : StreamOp) :
    (op.step p pinned none).1 ≠ .fault ∧ (op.step p pinned none).2 = none := by
  have hinto : ∀ out offset length,
      streamFinalizeInto p pinned none out offset length ≠ .fault := by
    intro out offset length
    rw [streamFinalizeInto.eq_def]
    split_ifs <;> simp
  cases op with
  | update input offset length =>
    rw [StreamOp.step, streamUpdate.eq_def]
    split_ifs <;> simp
  | finalizeInto out offset length => exact ⟨hinto _ _ _, rfl⟩
  | finalize outLen =>
    rw [StreamOp.step]
    cases JByteArray.alloc outLen with
    | error e => exact ⟨by simp, rfl⟩
    | ok result => exact ⟨hinto _ _ _, rfl⟩
  | reset => exact ⟨by simp [StreamOp.step], rfl⟩
  | close => exact ⟨by simp [StreamOp.step], rfl⟩

/-- An operation that only reads leaves the stream as it is. -/
theorem step_readsOnly {op : StreamOp} (h : op.readsOnly = true) (pinned : Bool)
    (self : Option Hasher) : (op.step p pinned self).2 = self := by
  cases op with
  | finalizeInto out offset length => rfl
  | finalize outLen =>
    rw [StreamOp.step]
    cases JByteArray.alloc outLen with
    | error e => rfl
    | ok result => rfl
  | update input offset length => exact absurd h (by simp [StreamOp.readsOnly])
  | reset => exact absurd h (by simp [StreamOp.readsOnly])
  | close => exact absurd h (by simp [StreamOp.readsOnly])

/-- When the array is not pinned nothing is undefined, and nothing is hashed. -/
theorem step_unpinned (op : StreamOp) (h : Hasher) : op.RequestsPin →
    (op.step p false (some h)).1 ≠ .fault ∧ (op.step p false (some h)).2 = some h := by
  have hinto : ∀ out offset length,
      streamFinalizeInto p false (some h) out offset length ≠ .fault := by
    intro out offset length
    rw [streamFinalizeInto.eq_def]
    simp only [Bool.false_eq_true, if_false]
    split_ifs <;> simp
  intro hreq
  cases op with
  | update input offset length =>
    rw [StreamOp.step, streamUpdate.eq_def]
    simp only [Bool.false_eq_true, if_false]
    split_ifs <;> simp
  | finalizeInto out offset length => exact ⟨hinto _ _ _, rfl⟩
  | finalize outLen =>
    rw [StreamOp.step]
    cases JByteArray.alloc outLen with
    | error e => exact ⟨by simp, rfl⟩
    | ok result => exact ⟨hinto _ _ _, rfl⟩
  | reset => exact absurd hreq not_false
  | close => exact absurd hreq not_false

/-- The message grows by no more than what is passed. -/
theorem message_length_le (op : StreamOp) (m : List UInt8) :
    (op.message m).length ≤ m.length + op.passed := by
  cases op with
  | update input offset length =>
    rw [StreamOp.message]
    split_ifs
    · exact Nat.le_add_right ..
    · rw [List.length_append, rangeBytes, List.length_take]
      exact Nat.add_le_add_left (Nat.min_le_left ..) _
  | reset => exact Nat.zero_le _
  | _ => exact Nat.le_add_right ..

/-- **An operation on a stream that follows its message** is defined, and the stream goes on
following one. -/
theorem step_follows (hp : p.Agree) {key : Option (Bytes 32)} {h : Hasher} {m : List UInt8}
    (hm : h.Follows key m) {op : StreamOp} (hno : op.NoOverflow)
    (hlt : m.length + op.passed < 2 ^ 64) (pinned : Bool) :
    (op.step p pinned (some h)).1 ≠ .fault ∧ ∀ h', (op.step p pinned (some h)).2 = some h' →
      ∃ m', h'.Follows key m' ∧ m'.length ≤ m.length + op.passed := by
  have hpinned : (op.step p true (some h)).1 ≠ .fault ∧
      ∀ h', (op.step p true (some h)).2 = some h' →
        ∃ m', h'.Follows key m' ∧ m'.length ≤ m.length + op.passed := by
    by_cases hop : op = .close
    · subst hop
      exact ⟨by simp [StreamOp.step], fun h' hh' => absurd hh' (by simp [StreamOp.step])⟩
    · have hmessage := message_length_le op m
      obtain ⟨hright, h₁, hst, hm₁⟩ := step_right hp hm true hop hno
        (Nat.lt_of_le_of_lt (Nat.le_add_right ..) hlt) (Nat.lt_of_le_of_lt hmessage hlt)
      refine ⟨hright.defined, ?_⟩
      intro h' hh'
      obtain rfl := Option.some.inj (hst.symm.trans hh')
      refine ⟨_, hm₁, ?_⟩
      -- only an operation that returned changes the message
      rw [Event.message]
      split
      · exact hmessage
      · exact Nat.le_add_right ..
  cases pinned with
  | true => exact hpinned
  | false =>
    by_cases hreq : op.RequestsPin
    · obtain ⟨hdef, hst⟩ := step_unpinned (p := p) op h hreq
      refine ⟨hdef, ?_⟩
      intro h' hh'
      obtain rfl := Option.some.inj (hst.symm.trans hh')
      exact ⟨m, hm, Nat.le_add_right ..⟩
    · rw [StreamOp.step_pinned hreq]
      exact hpinned

/-- Only `close` closes a stream. -/
theorem step_open {op : StreamOp} (hop : op ≠ .close) (pinned : Bool) (h : Hasher) :
    ∃ h', (op.step p pinned (some h)).2 = some h' := by
  cases op with
  | update input offset length =>
    rw [StreamOp.step, streamUpdate.eq_def]
    dsimp only
    cases updateRange p h input offset length with
    | none => split_ifs <;> exact ⟨_, rfl⟩
    | some h' => split_ifs <;> exact ⟨_, rfl⟩
  | finalizeInto out offset length => exact ⟨h, rfl⟩
  | finalize outLen => exact ⟨h, step_readsOnly rfl pinned (some h)⟩
  | reset => exact ⟨_, rfl⟩
  | close => exact absurd rfl hop

end

/-! ### When a stream is open -/

section

variable {p : Platform} {i : ℕ} {calls : List (KmpCall × Except Throwable Reply)}
  {st : Option (Option Hasher)}

/-- Until a constructor returns there are only constructors that throw. -/
theorem Past.of_none (h : Past p i calls st) (hst : st = none) :
    ∀ c ∈ calls, ∃ key e, c = (.new i key, .error e) := by
  induction h with
  | nil => exact fun c hc => absurd hc List.not_mem_nil
  | @snoc calls st st' call r before on fine does ih =>
    subst hst
    intro c hc
    rcases List.mem_append.mp hc with hc | hc
    · refine ih ?_ c hc
      cases call with
      | new j key => exact does.1
      | call j op =>
        obtain ⟨self, pinned, -, -, hnone⟩ := does
        exact absurd hnone (by simp)
      | hash data outLen => exact absurd on (by simp [KmpCall.stream?])
      | keyedHash key data outLen => exact absurd on (by simp [KmpCall.stream?])
    · obtain rfl := List.mem_singleton.mp hc
      cases call with
      | new j key =>
        obtain rfl := Option.some.inj on
        obtain ⟨-, ⟨env, e, -, rfl, -⟩ | ⟨env, k, memory, -, -, hsome⟩⟩ := does
        · exact ⟨key, e, rfl⟩
        · exact absurd hsome (by simp)
      | call j op =>
        obtain ⟨self, pinned, -, -, hnone⟩ := does
        exact absurd hnone (by simp)
      | hash data outLen => exact absurd on (by simp [KmpCall.stream?])
      | keyedHash key data outLen => exact absurd on (by simp [KmpCall.stream?])

/-- A stream that is there was constructed, and is closed if `close` has ended. -/
theorem Past.of_some (h : Past p i calls st) {self : Option Hasher} (hst : st = some self) :
    (∃ key r, (.new i key, .ok r) ∈ calls) ∧
      (self = none ↔ ∃ r, (.call i .close, r) ∈ calls) := by
  induction h generalizing self with
  | nil => exact absurd hst (by simp)
  | @snoc calls st st' call r before on fine does ih =>
    subst hst
    cases call with
    | new j key =>
      obtain rfl := Option.some.inj on
      obtain ⟨rfl, ⟨env, e, -, -, hnone⟩ | ⟨env, k, memory, -, rfl, hsome⟩⟩ := does
      · exact absurd hnone (by simp)
      · obtain rfl := Option.some.inj hsome
        refine ⟨⟨key, .unit, List.mem_append_right _ List.mem_cons_self⟩, ?_⟩
        constructor
        · intro hnone
          exact absurd hnone (by simp)
        · rintro ⟨r, hr⟩
          rcases List.mem_append.mp hr with hr | hr
          · obtain ⟨key', e, heq⟩ := before.of_none rfl _ hr
            exact absurd heq (by simp)
          · exact absurd (List.mem_singleton.mp hr) (by simp)
    | call j op =>
      obtain rfl := Option.some.inj on
      obtain ⟨self', pinned, rfl, -, hsome⟩ := does
      obtain rfl := Option.some.inj hsome
      obtain ⟨⟨key, r', hmade⟩, hclosed⟩ := ih rfl
      refine ⟨⟨key, r', List.mem_append_left _ hmade⟩, ?_⟩
      by_cases hop : op = .close
      · subst hop
        exact ⟨fun _ => ⟨r, List.mem_append_right _ List.mem_cons_self⟩, fun _ => rfl⟩
      · have hmem : (∃ r', ((.call j .close, r') : KmpCall × Except Throwable Reply) ∈
            calls ++ [(.call j op, r)]) ↔ ∃ r', (.call j .close, r') ∈ calls := by
          constructor
          · rintro ⟨r', hr'⟩
            rcases List.mem_append.mp hr' with hr' | hr'
            · exact ⟨r', hr'⟩
            · have heq := (Prod.mk.inj (List.mem_singleton.mp hr')).1
              exact absurd (KmpCall.call.inj heq).2.symm hop
          · rintro ⟨r', hr'⟩
            exact ⟨r', List.mem_append_left _ hr'⟩
        rw [hmem, ← hclosed]
        cases self' with
        | none => exact ⟨fun _ => rfl, fun _ => (step_closed pinned op).2⟩
        | some hasher =>
          obtain ⟨h', hh'⟩ := step_open (p := p) hop pinned hasher
          rw [hh']
          simp
    | hash data outLen => exact absurd on (by simp [KmpCall.stream?])
    | keyedHash key data outLen => exact absurd on (by simp [KmpCall.stream?])

/-- **A stream is open** when a constructor has returned and `close` has not ended. -/
theorem Past.open_iff (h : Past p i calls st) : (∃ hasher, st = some (some hasher)) ↔
    (∃ key r, (.new i key, .ok r) ∈ calls) ∧ ¬ ∃ r, (.call i .close, r) ∈ calls := by
  cases hst : st with
  | none =>
    have hnone := h.of_none hst
    constructor
    · rintro ⟨hasher, hs⟩
      exact absurd hs (by simp)
    · rintro ⟨⟨key, r, hmem⟩, -⟩
      obtain ⟨key', e, heq⟩ := hnone _ hmem
      exact absurd heq (by simp)
  | some self =>
    obtain ⟨hmade, hclosed⟩ := h.of_some hst
    rw [← hclosed]
    cases self with
    | none => simp
    | some hasher => exact ⟨fun _ => ⟨hmade, by simp⟩, fun _ => ⟨hasher, rfl⟩⟩

/-! ### Runs -/

theorem SameCall.outcome {e : Jni.StreamsOp × Outcome Reply}
    {c : KmpCall × Except Throwable Reply} (h : SameCall i e c) : e.2 = outcomeOf c.2 := by
  obtain ⟨op, o⟩ := e
  obtain ⟨call, r⟩ := c
  cases op with
  | construct j key env =>
    cases call with
    | new self key' => exact h.2.2
    | _ => exact absurd h not_false
  | call j op env =>
    cases call with
    | call self op' => exact h.2.2
    | _ => exact absurd h not_false

/-- What threads are answered is never undefined. -/
theorem defined_of_same {trace : List (Jni.StreamsOp × Outcome Reply)}
    (h : List.Forall₂ (SameCall i) trace calls) : ∀ e ∈ trace, e.2 ≠ .fault := by
  induction h with
  | nil => exact fun e he => absurd he List.not_mem_nil
  | @cons e c trace calls hsame _ ih =>
    intro e' he'
    rcases List.mem_cons.mp he' with rfl | he'
    · rw [hsame.outcome]
      cases c.2 <;> simp [outcomeOf]
    · exact ih e' he'

/-- Nothing is allocated while there is no stream. -/
theorem heap_empty {w : Jni.Streams} (ho : w.Owned) (h : ∀ j, w.stream j = none) (a : UInt64) :
    w.native.heap a = none := by
  by_contra hne
  obtain ⟨hasher, hheap⟩ := Option.ne_none_iff_exists'.mp hne
  obtain ⟨j, s, hs, -, -⟩ := ho.held a hasher hheap
  rw [h j] at hs
  exact absurd hs (by simp)

/-- The same decisions, with memory at 16. -/
def JvmEnv.at16 (env : JvmEnv) (memory : Hasher) : JvmEnv :=
  { env with malloc := env.malloc.map fun _ => (16, memory) }

theorem newOutcome_at16 (key : Option JByteArray) (env : JvmEnv) (memory : Hasher) :
    newOutcome key (env.at16 memory) = newOutcome key env := by
  rw [newOutcome, newOutcome, JvmEnv.at16, Option.isSome_map]

/-- The next call of a run is one more step of a sequential run. -/
theorem Run.next {trace : List (Jni.StreamsOp × Outcome Reply)} {w : Jni.Streams}
    (hrun : Jni.Streams.Run p trace w) (hsame : List.Forall₂ (SameCall i) trace calls)
    {op : Jni.StreamsOp} (ha : w.Admissible op) (c : KmpCall × Except Throwable Reply)
    (hc : SameCall i (op, (w.step p op).1) c) :
    Jni.Streams.Run p (trace ++ [(op, (w.step p op).1)]) (w.step p op).2 ∧
      List.Forall₂ (SameCall i) (trace ++ [(op, (w.step p op).1)]) (calls ++ [c]) :=
  ⟨.snoc hrun (defined_of_same hsame) ha, List.rel_append hsame (.cons hc .nil)⟩

/-- **The calls on a stream are a run by one thread**, without other streams, with the same
outcomes. -/
theorem Past.run (h : Past p i calls st) : ∃ trace w, Jni.Streams.Run p trace w ∧
    List.Forall₂ (SameCall i) trace calls ∧ w.Reflects i st ∧
    ∀ j, j ≠ i → w.stream j = none := by
  induction h with
  | nil => exact ⟨[], .initial, .nil, .nil, rfl, fun _ _ => rfl⟩
  | @snoc calls st st' call r before on fine does ih =>
    obtain ⟨trace, w, hrun, hsame, href, halone⟩ := ih
    cases call with
    | new j key =>
      obtain rfl := Option.some.inj on
      obtain ⟨rfl, hends⟩ := does
      have hnone : w.stream j = none := href
      have hempty := heap_empty hrun.owned fun k => by
        by_cases hk : k = j
        · rw [hk, hnone]
        · exact halone k hk
      have hmalloc : ∀ env memory, (JvmEnv.at16 env memory).MallocOk w.native := by
        intro env memory a m hm
        obtain ⟨x, -, hx⟩ := Option.map_eq_some_iff.mp hm
        cases hx
        exact ⟨by decide, hempty 16⟩
      rcases hends with ⟨env, e, hout, rfl, rfl⟩ | ⟨env, k, memory, hout, rfl, rfl⟩
      · rcases Jni.Streams.step_construct (p := p) j key (hmalloc env zeroedHasher) with
          ⟨e', native, hout', -, hstep⟩ | ⟨a, m, k, c, hout', -, -, -, -⟩
        · rw [newOutcome_at16, hout, Except.error.injEq] at hout'
          subst hout'
          have hadm : w.Admissible (.construct j key (env.at16 zeroedHasher)) :=
            ⟨hnone, hmalloc env zeroedHasher⟩
          obtain ⟨hrun', hsame'⟩ := Run.next hrun hsame hadm (.new j key, .error e)
            ⟨rfl, rfl, by rw [hstep]; rfl⟩
          rw [hstep] at hrun' hsame'
          exact ⟨_, _, hrun', hsame', href, halone⟩
        · rw [newOutcome_at16, hout] at hout'
          exact absurd hout' (by simp)
      · rcases Jni.Streams.step_construct (p := p) j key (hmalloc env memory) with
          ⟨e', native, hout', -, hstep⟩ | ⟨a, m, k', c, hout', h0, -, hm, hstep⟩
        · rw [newOutcome_at16, hout] at hout'
          exact absurd hout' (by simp)
        · rw [newOutcome_at16, hout, Except.ok.injEq] at hout'
          subst hout'
          have hadm : w.Admissible (.construct j key (env.at16 memory)) :=
            ⟨hnone, hmalloc env memory⟩
          obtain ⟨hrun', hsame'⟩ := Run.next hrun hsame hadm (.new j key, .ok .unit)
            ⟨rfl, rfl, by rw [hstep]; rfl⟩
          rw [hstep] at hrun' hsame'
          refine ⟨_, _, hrun', hsame', ?_, ?_⟩
          · exact ⟨_, some (newHasher m k), Jni.Streams.set_stream_self _ _ _ _,
              ⟨h0, Native.put_heap_self _ _ _⟩, .some (newHasher_same m memory k)⟩
          · intro l hl
            exact (Jni.Streams.set_stream_ne w hl _ _).trans (halone l hl)
    | call j op =>
      obtain rfl := Option.some.inj on
      obtain ⟨self, pinned, rfl, hout, rfl⟩ := does
      have hpin : ∀ env : JvmEnv, env.inPinned = pinned → env.outPinned = pinned →
          op.step p (op.pinned env) self = op.step p pinned self := by
        intro env hin hfill
        cases op with
        | update input offset length => exact congrArg (StreamOp.step p · self _) hin
        | finalizeInto out offset length => exact congrArg (StreamOp.step p · self _) hfill
        | finalize outLen => exact congrArg (StreamOp.step p · self _) hfill
        | reset => rfl
        | close => rfl
      obtain ⟨s, st', hs, -, -⟩ := id href
      have hs : w.stream j = some s := hs
      have hadm : w.Admissible (.call j op
          { JvmEnv.granting 16 with inPinned := pinned, outPinned := pinned }) :=
        ⟨by rw [hs]; simp, fine⟩
      obtain ⟨hstep, href'⟩ := href.step (p := p) rfl hadm
      rw [Jni.Streams.soloStep, hpin _ rfl rfl] at hstep href'
      obtain ⟨hrun', hsame'⟩ := Run.next hrun hsame hadm (.call j op, r)
        ⟨rfl, rfl, hstep.trans hout⟩
      refine ⟨_, _, hrun', hsame', href', ?_⟩
      intro k hk
      obtain ⟨hother, -⟩ := hrun.owned.step_other (p := p) hadm (Ne.symm hk)
      exact hother.trans (halone k hk)
    | hash data outLen => exact absurd on (by simp [KmpCall.stream?])
    | keyedHash key data outLen => exact absurd on (by simp [KmpCall.stream?])

end

end Blake3Kmp
