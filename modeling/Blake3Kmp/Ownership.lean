/-
Many streams on one native heap.

A stream is a plain address, and `malloc` may return an address again that was
freed before.  This file is about runs of operations over any number of
streams, on a heap shared by all of them.

* `Streams.step` — a constructor call, or an operation on one of the streams;
* `Streams.Run` — the runs, with what each operation returned or threw;
* `Streams.Owned` — the invariant: the addresses allocated are those of the
  open streams, each of which has one of its own;
* `Run.project` — the operations of one stream are a run without the others;
* `Run.solo` — what they return is what the stream without memory does, so that
  it depends neither on the other streams nor on the addresses.
-/
import Blake3Kmp.JniStream

open CheckedMemory

namespace Blake3Kmp

namespace Jni

/-- A stream object, with the address that `malloc` returned when it was constructed. -/
structure Held where
  self : Blake3Stream
  allocated : UInt64

/-- The native heap and the stream objects, by name. -/
structure Streams where
  native : Native
  stream : ℕ → Option Held

inductive StreamsOp
  /-- A constructor call; the object it makes is called `i`. -/
  | construct (i : ℕ) (key : Option JByteArray) (env : JvmEnv)
  | call (i : ℕ) (op : StreamOp) (env : JvmEnv)

def StreamsOp.stream : StreamsOp → ℕ
  | construct i _ _ => i
  | call i _ _ => i

namespace Streams

def initial : Streams where
  native := .initial
  stream := fun _ => none

/-- The world after an operation that leaves the object `i` as `s`. -/
def set (w : Streams) (i : ℕ) (native : Native) (s : Held) : Streams where
  native := native
  stream := Function.update w.stream i (some s)

@[simp] theorem set_native (w : Streams) (i : ℕ) (native : Native) (s : Held) :
    (w.set i native s).native = native := rfl

@[simp] theorem set_stream_self (w : Streams) (i : ℕ) (native : Native) (s : Held) :
    (w.set i native s).stream i = some s := Function.update_self ..

theorem set_stream_ne (w : Streams) {i j : ℕ} (h : j ≠ i) (native : Native) (s : Held) :
    (w.set i native s).stream j = w.stream j := Function.update_of_ne h ..

def step (p : Platform) (w : Streams) : StreamsOp → Outcome Reply × Streams
  | .construct i key env =>
    match Blake3Stream.new w.native key env with
    | (.returned self, native) =>
      (.returned .unit, w.set i native ⟨self, (env.malloc.map Prod.fst).getD 0⟩)
    | (.threw e, native) => (.threw e, { w with native })
    | (.fault, native) => (.fault, { w with native })
  | .call i op env =>
    match w.stream i with
    | none => (.fault, w)
    | some s =>
      let (o, native, self) := s.self.call p w.native op env
      (o, w.set i native { s with self })

/-- What may come next: a constructor for a new object with any address `malloc` may return, or
an operation on an object, with a range that does not overflow. -/
def Admissible (w : Streams) : StreamsOp → Prop
  | .construct i _ env => w.stream i = none ∧ env.MallocOk w.native
  | .call i op _ => w.stream i ≠ none ∧ op.NoOverflow

/-- The runs from the start, with the outcome of each operation; nothing follows one that is
undefined. -/
inductive Run (p : Platform) : List (StreamsOp × Outcome Reply) → Streams → Prop
  | nil : Run p [] initial
  | snoc {trace : List (StreamsOp × Outcome Reply)} {w : Streams} {op : StreamsOp}
      (before : Run p trace w) (defined : ∀ e ∈ trace, e.2 ≠ .fault)
      (admissible : w.Admissible op) : Run p (trace ++ [(op, (w.step p op).1)]) (w.step p op).2

/-! ### Ownership -/

/-- **Who owns what**: an open stream holds the address allocated for it, what is allocated is
held by an open stream, and no two of them hold the same. -/
structure Owned (w : Streams) : Prop where
  live : ∀ i s, w.stream i = some s → s.self.hasherPtr ≠ 0 →
    s.self.hasherPtr = s.allocated ∧ ∃ hasher, w.native.heap s.self.hasherPtr = some hasher
  held : ∀ a hasher, w.native.heap a = some hasher →
    ∃ i s, w.stream i = some s ∧ s.self.hasherPtr = a ∧ a ≠ 0
  distinct : ∀ i j s t, w.stream i = some s → w.stream j = some t → s.self.hasherPtr ≠ 0 →
    s.self.hasherPtr = t.self.hasherPtr → i = j

theorem Owned.initial : Owned initial where
  live := by
    intro i s hs
    exact absurd hs (by simp [Streams.initial])
  held := by
    intro a hasher ha
    exact absurd ha (by simp [Streams.initial, Native.initial])
  distinct := by
    intro i j s t hs
    exact absurd hs (by simp [Streams.initial])

/-- Every stream object stands for a stream. -/
theorem Owned.simulates {w : Streams} (h : Owned w) {i : ℕ} {s : Held}
    (hs : w.stream i = some s) : ∃ st, s.self.Simulates w.native st := by
  by_cases h0 : s.self.hasherPtr = 0
  · exact ⟨none, h0⟩
  · obtain ⟨-, hasher, hheap⟩ := h.live i s hs h0
    exact ⟨some hasher, h0, hheap⟩

section

variable {p : Platform} {w : Streams}

/-- A constructor call: it throws and leaves the heap as it was, or makes a new object of an
address that was free. -/
theorem step_construct (i : ℕ) (key : Option JByteArray) {env : JvmEnv}
    (hm : env.MallocOk w.native) :
    (∃ e native, newOutcome key env = .error e ∧ native.heap = w.native.heap ∧
        w.step p (.construct i key env) = (.threw e, { w with native })) ∨
      ∃ a memory k c, newOutcome key env = .ok k ∧ a ≠ 0 ∧ w.native.heap a = none ∧
        env.malloc = some (a, memory) ∧
        w.step p (.construct i key env) = (.returned .unit,
          w.set i ((w.native.called c).put a (newHasher memory k)) ⟨⟨a⟩, a⟩) := by
  rcases Blake3Stream.new_cases hm key with ⟨e, hout, hthrew, hheap⟩ |
    ⟨a, memory, k, c, hout, hmal, h0, hfree, -, hnew⟩
  · rcases hr : Blake3Stream.new w.native key env with ⟨o, native⟩
    rw [hr] at hthrew hheap
    subst hthrew
    refine .inl ⟨e, native, hout, hheap, ?_⟩
    simp only [step, hr]
  · refine .inr ⟨a, memory, k, c, hout, h0, hfree, hmal, ?_⟩
    simp only [step, hnew, hmal, Option.map_some, Option.getD_some]

/-- An operation on an object: `call_sim`, in the world of all objects. -/
theorem step_call {i : ℕ} {s : Held} (hs : w.stream i = some s) {st : Option Hasher}
    (hsim : s.self.Simulates w.native st) (op : StreamOp) (env : JvmEnv) :
    ∃ native self, w.step p (.call i op env) =
        ((op.step p (op.pinned env) st).1, w.set i native { s with self }) ∧
      self.Simulates native (op.step p (op.pinned env) st).2 ∧
      Blake3Stream.Frame w.native s.self native self := by
  obtain ⟨hout, hsim', hframe⟩ := Blake3Stream.call_sim (p := p) hsim op env
  refine ⟨_, _, ?_, hsim', hframe⟩
  simp only [step, hs, ← hout]

/-- A new object of a free address keeps the invariant. -/
theorem Owned.set_new (h : Owned w) {i : ℕ} (hi : w.stream i = none) {a : UInt64} (h0 : a ≠ 0)
    (hfree : w.native.heap a = none) (c : NativeCall) (hasher : Hasher) :
    Owned (w.set i ((w.native.called c).put a hasher) ⟨⟨a⟩, a⟩) where
  live := by
    intro j s hs hptr
    by_cases hj : j = i
    · subst hj
      rw [set_stream_self] at hs
      cases hs
      exact ⟨rfl, hasher, Native.put_heap_self _ _ _⟩
    · rw [set_stream_ne w hj] at hs
      obtain ⟨heq, hasher', hheap⟩ := h.live j s hs hptr
      have hne : s.self.hasherPtr ≠ a := by
        intro hc
        rw [hc, hfree] at hheap
        exact absurd hheap (by simp)
      refine ⟨heq, hasher', ?_⟩
      rw [set_native, Native.put_heap_ne _ _ hne]
      exact hheap
  held := by
    intro b hasher' hb
    by_cases hba : b = a
    · exact ⟨i, _, set_stream_self _ _ _ _, hba.symm, hba ▸ h0⟩
    · rw [set_native, Native.put_heap_ne _ _ hba] at hb
      obtain ⟨j, s, hs, hptr, hb0⟩ := h.held b hasher' hb
      have hj : j ≠ i := by
        intro hc
        rw [hc, hi] at hs
        exact absurd hs (by simp)
      exact ⟨j, s, by rw [set_stream_ne w hj, hs], hptr, hb0⟩
  distinct := by
    -- the new address is no other object's
    have hnew : ∀ j s, j ≠ i → w.stream j = some s → s.self.hasherPtr ≠ 0 →
        s.self.hasherPtr ≠ a := by
      intro j s _ hs hptr hc
      obtain ⟨-, hasher', hheap⟩ := h.live j s hs hptr
      rw [hc, hfree] at hheap
      exact absurd hheap (by simp)
    intro j k s t hs ht hptr heq
    by_cases hj : j = i
    · by_cases hk : k = i
      · rw [hj, hk]
      · subst hj
        rw [set_stream_self] at hs
        rw [set_stream_ne w hk] at ht
        cases hs
        exact absurd heq.symm (hnew k t hk ht (heq ▸ hptr))
    · rw [set_stream_ne w hj] at hs
      by_cases hk : k = i
      · subst hk
        rw [set_stream_self] at ht
        cases ht
        exact absurd heq (hnew j s hj hs hptr)
      · rw [set_stream_ne w hk] at ht
        exact h.distinct j k s t hs ht hptr heq

/-- An operation on an object keeps the invariant. -/
theorem Owned.set_call (h : Owned w) {i : ℕ} {s : Held} (hs : w.stream i = some s)
    {native : Native} {self : Blake3Stream} {st : Option Hasher}
    (hsim : self.Simulates native st) (hframe : Blake3Stream.Frame w.native s.self native self) :
    Owned (w.set i native { s with self }) := by
  -- the object is as before, or closed and its address free
  have hself : self.hasherPtr ≠ 0 → self = s.self ∧ ∃ hasher, native.heap self.hasherPtr =
      some hasher := by
    intro hptr
    refine ⟨hframe.handle.resolve_right fun hc => hptr hc.1, ?_⟩
    cases st with
    | none => exact absurd hsim hptr
    | some hasher => exact ⟨hasher, hsim.2⟩
  have hother : ∀ j t, j ≠ i → w.stream j = some t → t.self.hasherPtr ≠ 0 →
      t.self.hasherPtr ≠ s.self.hasherPtr :=
    fun j t hj ht hptr hc => hj (h.distinct j i t s ht hs hptr hc)
  constructor
  · intro j t ht hptr
    by_cases hj : j = i
    · subst hj
      rw [set_stream_self] at ht
      cases ht
      obtain ⟨heq, hheap⟩ := hself hptr
      refine ⟨?_, hheap⟩
      rw [heq] at hptr ⊢
      exact (h.live j s hs hptr).1
    · rw [set_stream_ne w hj] at ht
      rw [set_native, hframe.others _ (hother j t hj ht hptr)]
      exact h.live j t ht hptr
  · intro b hasher hb
    rw [set_native] at hb
    by_cases hbs : b = s.self.hasherPtr
    · by_cases h0 : s.self.hasherPtr = 0
      · -- a closed stream leaves the heap alone, and nothing is allocated at 0
        rw [hframe.closed h0] at hb
        obtain ⟨-, -, -, -, hb0⟩ := h.held b hasher hb
        exact absurd (hbs.trans h0) hb0
      · rcases hframe.handle with heq | ⟨-, hfree⟩
        · exact ⟨i, _, set_stream_self _ _ _ _, by rw [heq, hbs], by rwa [hbs]⟩
        · rw [hbs, hfree] at hb
          exact absurd hb (by simp)
    · rw [hframe.others b hbs] at hb
      obtain ⟨j, t, ht, hptr, hb0⟩ := h.held b hasher hb
      have hj : j ≠ i := by
        intro hc
        rw [hc, hs] at ht
        cases ht
        exact hbs hptr.symm
      exact ⟨j, t, by rw [set_stream_ne w hj, ht], hptr, hb0⟩
  · intro j k t u ht hu hptr heq
    by_cases hj : j = i
    · by_cases hk : k = i
      · rw [hj, hk]
      · subst hj
        rw [set_stream_self] at ht
        rw [set_stream_ne w hk] at hu
        cases ht
        obtain ⟨hsame, -⟩ := hself hptr
        have hptr' : u.self.hasherPtr ≠ 0 := by rwa [← heq]
        exact absurd (by rw [← heq, hsame]) (hother k u hk hu hptr')
    · rw [set_stream_ne w hj] at ht
      by_cases hk : k = i
      · subst hk
        rw [set_stream_self] at hu
        cases hu
        obtain ⟨hsame, -⟩ := hself (heq ▸ hptr)
        exact absurd (by rw [heq, hsame]) (hother j t hj ht hptr)
      · rw [set_stream_ne w hk] at hu
        exact h.distinct j k t u ht hu hptr heq

/-- **Every operation keeps the invariant.** -/
theorem Owned.step (h : Owned w) {op : StreamsOp} (ha : w.Admissible op) :
    Owned (w.step p op).2 := by
  cases op with
  | construct i key env =>
    obtain ⟨hi, hm⟩ := ha
    rcases step_construct (p := p) i key hm with
      ⟨e, native, -, hheap, hstep⟩ | ⟨a, memory, k, c, -, h0, hfree, -, hstep⟩
    · rw [hstep]
      constructor
      · intro j s hs hptr
        rw [hheap]
        exact h.live j s hs hptr
      · intro b hasher hb
        rw [hheap] at hb
        exact h.held b hasher hb
      · exact h.distinct
    · rw [hstep]
      exact h.set_new hi h0 hfree c (newHasher memory k)
  | call i op env =>
    obtain ⟨hi, -⟩ := ha
    obtain ⟨s, hs⟩ := Option.ne_none_iff_exists'.mp hi
    obtain ⟨st, hsim⟩ := h.simulates hs
    obtain ⟨native, self, hstep, hsim', hframe⟩ := step_call (p := p) hs hsim op env
    rw [hstep]
    exact h.set_call hs hsim' hframe

theorem Run.owned {trace : List (StreamsOp × Outcome Reply)} (hrun : Run p trace w) :
    Owned w := by
  induction hrun with
  | nil => exact Owned.initial
  | snoc before defined admissible ih => exact ih.step admissible

/-- An operation leaves the other objects and their hashers as they were. -/
theorem Owned.step_other (h : Owned w) {op : StreamsOp} (ha : w.Admissible op) {i : ℕ}
    (hi : op.stream ≠ i) :
    (w.step p op).2.stream i = w.stream i ∧
      ∀ s st, w.stream i = some s → s.self.Simulates w.native st →
        s.self.Simulates (w.step p op).2.native st := by
  -- a world in which the address of every open object but `op.stream` is as before
  have hframe : ∀ native : Native, (∀ s, w.stream i = some s → s.self.hasherPtr ≠ 0 →
      native.heap s.self.hasherPtr = w.native.heap s.self.hasherPtr) →
      ∀ s st, w.stream i = some s → s.self.Simulates w.native st →
        s.self.Simulates native st := by
    intro native hheap s st hs hsim
    cases st with
    | none => exact hsim
    | some hasher => exact ⟨hsim.1, (hheap s hs hsim.1).trans hsim.2⟩
  cases op with
  | construct j key env =>
    obtain ⟨-, hm⟩ := ha
    rcases step_construct (p := p) j key hm with
      ⟨e, native, -, hheap, hstep⟩ | ⟨a, memory, k, c, -, -, hfree, -, hstep⟩
    · rw [hstep]
      refine ⟨rfl, hframe native fun s _ _ => ?_⟩
      rw [hheap]
    · rw [hstep]
      refine ⟨set_stream_ne w (Ne.symm hi) _ _, hframe _ fun s hs hptr => ?_⟩
      obtain ⟨-, hasher, hheap⟩ := h.live i s hs hptr
      have hne : s.self.hasherPtr ≠ a := by
        intro hc
        rw [hc, hfree] at hheap
        exact absurd hheap (by simp)
      exact Native.put_heap_ne _ _ hne
  | call j op env =>
    obtain ⟨hj, -⟩ := ha
    obtain ⟨t, ht⟩ := Option.ne_none_iff_exists'.mp hj
    obtain ⟨st, hsim⟩ := h.simulates ht
    obtain ⟨native, self, hstep, -, hfr⟩ := step_call (p := p) ht hsim op env
    rw [hstep]
    refine ⟨set_stream_ne w (Ne.symm hi) _ _, hframe native fun s hs hptr => ?_⟩
    exact hfr.others _ fun hc => hi (h.distinct i j s t hs ht hptr hc).symm

end

/-! ### One stream among others -/

/-- The part of a run that is about the object `i`. -/
def only (i : ℕ) (trace : List (StreamsOp × Outcome Reply)) :
    List (StreamsOp × Outcome Reply) :=
  trace.filter fun e => e.1.stream = i

theorem only_append_self {i : ℕ} {e : StreamsOp × Outcome Reply} (h : e.1.stream = i)
    (trace : List (StreamsOp × Outcome Reply)) : only i (trace ++ [e]) = only i trace ++ [e] := by
  rw [only, List.filter_append, List.filter_singleton, decide_eq_true h]
  rfl

theorem only_append_other {i : ℕ} {e : StreamsOp × Outcome Reply} (h : e.1.stream ≠ i)
    (trace : List (StreamsOp × Outcome Reply)) : only i (trace ++ [e]) = only i trace := by
  rw [only, List.filter_append, List.filter_singleton, decide_eq_false h]
  exact List.append_nil _

/-- `w'` has only the object `i` of `w`, on a heap of its own. -/
structure Mirrors (i : ℕ) (w w' : Streams) : Prop where
  same : w'.stream i = w.stream i
  alone : ∀ j, j ≠ i → w'.stream j = none
  simulates : ∀ s, w.stream i = some s →
    ∃ st, s.self.Simulates w.native st ∧ s.self.Simulates w'.native st

section

variable {p : Platform} {i : ℕ}

/-- An operation on `i` ends the same way without the other objects. -/
theorem Mirrors.step {w w' : Streams} (h : Mirrors i w w') (ho : Owned w') {op : StreamsOp}
    (hi : op.stream = i) (ha : w.Admissible op) :
    w'.Admissible op ∧ (w'.step p op).1 = (w.step p op).1 ∧
      Mirrors i (w.step p op).2 (w'.step p op).2 := by
  subst hi
  cases op with
  | construct i key env =>
    obtain ⟨hi, hm⟩ := ha
    have hi' : w'.stream i = none := h.same.trans hi
    -- nothing is allocated without the other objects
    have hempty : ∀ a, w'.native.heap a = none := by
      intro a
      by_contra hne
      obtain ⟨hasher, hheap⟩ := Option.ne_none_iff_exists'.mp hne
      obtain ⟨j, s, hs, -, -⟩ := ho.held a hasher hheap
      by_cases hj : j = i
      · rw [hj, hi'] at hs
        exact absurd hs (by simp)
      · rw [h.alone j hj] at hs
        exact absurd hs (by simp)
    have hm' : env.MallocOk w'.native := fun a memory hmal => ⟨(hm a memory hmal).1, hempty a⟩
    refine ⟨⟨hi', hm'⟩, ?_⟩
    rcases step_construct (p := p) i key hm with
      ⟨e, native, hout, -, hstep⟩ | ⟨a, memory, k, c, hout, h0, -, hmal, hstep⟩
    · rcases step_construct (p := p) i key hm' with
        ⟨e', native', hout', -, hstep'⟩ | ⟨a', memory', k', c', hout', -, -, -, -⟩
      · rw [hout, Except.error.injEq] at hout'
        rw [hstep, hstep', hout']
        exact ⟨rfl, h.same, h.alone, fun s hs => absurd (hi.symm.trans hs) (by simp)⟩
      · rw [hout] at hout'
        exact absurd hout' (by simp)
    · rcases step_construct (p := p) i key hm' with
        ⟨e', native', hout', -, hstep'⟩ | ⟨a', memory', k', c', hout', -, -, hmal', hstep'⟩
      · rw [hout] at hout'
        exact absurd hout' (by simp)
      · rw [hout, Except.ok.injEq] at hout'
        rw [hmal, Option.some.injEq, Prod.mk.injEq] at hmal'
        obtain ⟨rfl, rfl⟩ := hmal'
        subst hout'
        rw [hstep, hstep']
        refine ⟨rfl, ?_, ?_, ?_⟩
        · exact (set_stream_self _ _ _ _).trans (set_stream_self _ _ _ _).symm
        · intro j hj
          exact (set_stream_ne w' hj _ _).trans (h.alone j hj)
        · intro s hs
          cases (set_stream_self _ _ _ _).symm.trans hs
          exact ⟨some (newHasher memory k), ⟨h0, Native.put_heap_self _ _ _⟩, h0,
            Native.put_heap_self _ _ _⟩
  | call i op env =>
    obtain ⟨hi, hno⟩ := ha
    obtain ⟨s, hs⟩ := Option.ne_none_iff_exists'.mp hi
    have hs' : w'.stream i = some s := h.same.trans hs
    obtain ⟨st, hsim, hsim'⟩ := h.simulates s hs
    obtain ⟨native, self, hstep, hnext, hfr⟩ := step_call (p := p) hs hsim op env
    obtain ⟨native', self', hstep', hnext', hfr'⟩ := step_call (p := p) hs' hsim' op env
    have hself : self' = self := by
      cases hst : (op.step p (op.pinned env) st).2 with
      | none =>
        -- closed in both worlds
        rw [hst] at hnext hnext'
        cases self
        cases self'
        exact congrArg Blake3Stream.mk (hnext'.trans hnext.symm)
      | some hasher =>
        rw [hst] at hnext hnext'
        rw [hfr.handle.resolve_right fun hc => hnext.1 hc.1,
          hfr'.handle.resolve_right fun hc => hnext'.1 hc.1]
    subst hself
    rw [hstep, hstep']
    refine ⟨⟨by rw [hs']; simp, hno⟩, rfl, ?_, ?_, ?_⟩
    · exact (set_stream_self _ _ _ _).trans (set_stream_self _ _ _ _).symm
    · intro j hj
      exact (set_stream_ne w' hj _ _).trans (h.alone j hj)
    · intro t ht
      cases (set_stream_self _ _ _ _).symm.trans ht
      exact ⟨_, hnext, hnext'⟩

/-- **The operations of one stream are a run without the others**, with the same outcomes. -/
theorem Run.project {w : Streams} {trace : List (StreamsOp × Outcome Reply)}
    (hrun : Run p trace w) (i : ℕ) : ∃ w', Run p (only i trace) w' ∧ Mirrors i w w' := by
  induction hrun with
  | nil => exact ⟨.initial, .nil, rfl, fun _ _ => rfl, fun s hs => absurd hs (by simp [initial])⟩
  | @snoc trace w op before defined admissible ih =>
    obtain ⟨w', hrun', hmir⟩ := ih
    by_cases hi : op.stream = i
    · obtain ⟨ha', hout, hmir'⟩ := hmir.step (p := p) hrun'.owned hi admissible
      rw [only_append_self hi, ← hout]
      refine ⟨_, .snoc hrun' ?_ ha', hmir'⟩
      intro e he
      exact defined e (List.mem_of_mem_filter he)
    · rw [only_append_other hi]
      obtain ⟨hsame, hsims⟩ := before.owned.step_other (p := p) admissible hi
      refine ⟨w', hrun', hmir.same.trans hsame.symm, hmir.alone, ?_⟩
      intro s hs
      rw [hsame] at hs
      obtain ⟨st, hsim, hsim'⟩ := hmir.simulates s hs
      exact ⟨st, hsims s st hs hsim, hsim'⟩

end

/-! ### What a stream does on its own -/

/-- One operation on a stream without memory, of which `none` is not constructed yet. -/
def soloStep (p : Platform) (st : Option (Option Hasher)) :
    StreamsOp → Outcome Reply × Option (Option Hasher)
  | .construct _ key env =>
    match newOutcome key env with
    | .error e => (.threw e, st)
    | .ok k => (.returned .unit, some (some (newHasher zeroedHasher k)))
  | .call _ op env =>
    match st with
    | none => (.fault, none)
    | some self =>
      let (o, self) := op.step p (op.pinned env) self
      (o, some self)

/-- The outcomes of a list of operations, and the stream after them. -/
def solo (p : Platform) (ops : List StreamsOp) :
    List (Outcome Reply) × Option (Option Hasher) :=
  ops.foldl (fun r op => (r.1 ++ [(soloStep p r.2 op).1], (soloStep p r.2 op).2)) ([], none)

theorem solo_append (p : Platform) (ops : List StreamsOp) (op : StreamsOp) :
    solo p (ops ++ [op]) = ((solo p ops).1 ++ [(soloStep p (solo p ops).2 op).1],
      (soloStep p (solo p ops).2 op).2) := by
  rw [solo, List.foldl_append]
  rfl

/-- The object `i` is what a stream without memory says, up to stale memory. -/
def Reflects (w : Streams) (i : ℕ) : Option (Option Hasher) → Prop
  | none => w.stream i = none
  | some st => ∃ s st', w.stream i = some s ∧ s.self.Simulates w.native st' ∧ StreamSame st' st

section

variable {p : Platform}

theorem Reflects.step {w : Streams} {i : ℕ} {st : Option (Option Hasher)} (h : w.Reflects i st)
    {op : StreamsOp} (hi : op.stream = i) (ha : w.Admissible op) :
    (w.step p op).1 = (soloStep p st op).1 ∧
      (w.step p op).2.Reflects i (soloStep p st op).2 := by
  subst hi
  cases op with
  | construct i key env =>
    obtain ⟨hi, hm⟩ := ha
    have hst : st = none := by
      cases st with
      | none => rfl
      | some st =>
        obtain ⟨s, -, hs, -⟩ := h
        exact absurd (hi.symm.trans hs) (by simp)
    subst hst
    rw [soloStep]
    rcases step_construct (p := p) i key hm with
      ⟨e, native, hout, -, hstep⟩ | ⟨a, memory, k, c, hout, h0, -, -, hstep⟩
    · rw [hstep, hout]
      exact ⟨rfl, hi⟩
    · rw [hstep, hout]
      exact ⟨rfl, _, some (newHasher memory k), set_stream_self _ _ _ _,
        ⟨h0, Native.put_heap_self _ _ _⟩, .some (newHasher_same memory zeroedHasher k)⟩
  | call i op env =>
    cases st with
    | none => exact absurd h ha.1
    | some st =>
      obtain ⟨s, st', hs, hsim, hsame⟩ := h
      have hs : w.stream i = some s := hs
      obtain ⟨native, self, hstep, hnext, -⟩ := step_call (p := p) hs hsim op env
      obtain ⟨hout, hsame'⟩ := StreamOp.step_same (p := p) hsame (op.pinned env) op
      rw [hstep, soloStep]
      exact ⟨hout, _, _, set_stream_self _ _ _ _, hnext, hsame'⟩

/-- **The outcomes of a stream's operations in any run are its own.** -/
theorem Run.solo {w : Streams} {trace : List (StreamsOp × Outcome Reply)} (hrun : Run p trace w)
    (i : ℕ) :
    (only i trace).map Prod.snd = (Streams.solo p ((only i trace).map Prod.fst)).1 ∧
      w.Reflects i (Streams.solo p ((only i trace).map Prod.fst)).2 := by
  induction hrun with
  | nil => exact ⟨rfl, rfl⟩
  | @snoc trace w op before defined admissible ih =>
    obtain ⟨houts, href⟩ := ih
    by_cases hi : op.stream = i
    · obtain ⟨hout, href'⟩ := href.step (p := p) hi admissible
      rw [only_append_self hi, List.map_append, List.map_append, houts]
      simp only [List.map_cons, List.map_nil, solo_append, hout]
      exact ⟨trivial, href'⟩
    · rw [only_append_other hi]
      refine ⟨houts, ?_⟩
      obtain ⟨hsame, hsims⟩ := before.owned.step_other (p := p) admissible hi
      revert href
      generalize (Streams.solo p ((only i trace).map Prod.fst)).2 = st
      intro href
      cases st with
      | none => exact hsame.trans href
      | some st =>
        obtain ⟨s, st', hs, hsim, hst⟩ := href
        exact ⟨s, st', hsame.trans hs, hsims s st' hs hsim, hst⟩

/-- The same operations, up to the addresses and the memory that `malloc` returns. -/
def Corresponds : StreamsOp → StreamsOp → Prop
  | .construct _ key env, .construct _ key' env' =>
    key = key' ∧ env.loadFailure = env'.loadFailure ∧ env.malloc.isSome = env'.malloc.isSome
  | .call _ op env, .call _ op' env' =>
    op = op' ∧ env.inPinned = env'.inPinned ∧ env.outPinned = env'.outPinned
  | _, _ => False

theorem Corresponds.soloStep {op op' : StreamsOp} (h : Corresponds op op')
    (st : Option (Option Hasher)) : Streams.soloStep p st op = Streams.soloStep p st op' := by
  cases op with
  | construct i key env =>
    cases op' with
    | construct i' key' env' =>
      obtain ⟨rfl, hload, hmal⟩ := h
      rw [Streams.soloStep, Streams.soloStep, newOutcome, newOutcome, hload, hmal]
    | call i' op' env' => exact absurd h not_false
  | call i op env =>
    cases op' with
    | construct i' key' env' => exact absurd h not_false
    | call i' op' env' =>
      obtain ⟨rfl, hin, hout⟩ := h
      have hpin : op.pinned env = op.pinned env' := by
        cases op <;> simp [StreamOp.pinned, hin, hout]
      cases st with
      | none => rfl
      | some self => rw [Streams.soloStep, Streams.soloStep, hpin]

theorem solo_eq_of_corresponds {ops ops' : List StreamsOp}
    (h : List.Forall₂ Corresponds ops ops') : Streams.solo p ops = Streams.solo p ops' := by
  rw [solo, solo]
  generalize (([], none) : List (Outcome Reply) × Option (Option Hasher)) = r
  induction h generalizing r with
  | nil => rfl
  | cons hop _ ih =>
    rw [List.foldl_cons, List.foldl_cons, hop.soloStep]
    exact ih _

end

/-- Stream 0 is constructed at 4096 and closed, and stream 1 constructed at the same address. -/
def reused : Streams :=
  let w := (initial.step linuxPortable (.construct 0 none (.granting 4096))).2
  let w := (w.step linuxPortable (.call 0 .close (.granting 4096))).2
  (w.step linuxPortable (.construct 1 none (.granting 4096))).2

theorem reused_run : ∃ trace, Run linuxPortable trace reused := by
  have hm : ∀ w : Native, w.heap 4096 = none → (JvmEnv.granting 4096).MallocOk w := by
    intro w hw a memory hmal
    cases hmal
    exact ⟨by decide, hw⟩
  refine ⟨_, .snoc (.snoc (.snoc .nil ?_ ?_) ?_ ?_) ?_ ?_⟩
  · exact fun e he => absurd he (by simp)
  · exact ⟨rfl, hm _ rfl⟩
  · intro e he
    obtain rfl := List.mem_singleton.mp he
    exact fun h => nomatch h
  · exact ⟨nofun, trivial⟩
  · intro e he
    rcases List.mem_append.mp he with he | he
    · obtain rfl := List.mem_singleton.mp he
      exact fun h => nomatch h
    · obtain rfl := List.mem_singleton.mp he
      exact fun h => nomatch h
  · exact ⟨rfl, hm _ rfl⟩

end Streams

end Jni

end Blake3Kmp
