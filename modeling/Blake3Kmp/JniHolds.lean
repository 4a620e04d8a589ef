/-
What threads have of the streams of the JNI module.

* `Fits` — what the threads have, and the shared state: every stream has its
  field and its hasher, no two the same one; a thread in a call has the stream
  of that call, alone unless all that have it only read;
* `Fits.put`, `Fits.release`, `Fits.setField` — the changes that the thread
  which has a stream can make;
* `Fits.answer_none`, `Fits.answer_some` — so what it is answered is what its
  contract allows.
-/
import Blake3Kmp.JniPast

open CheckedMemory Programs Prog

namespace Blake3Kmp

/-! ### What the threads have -/

/-- What a thread has in a call. -/
def During (call : KmpCall) (g : Option Hold) : Prop :=
  g.map Hold.self = call.stream? ∧ ∀ h, g = some h → h.writes = !call.readsOnly ∧
    call.NoOverflow ∧ h.passed + call.passed < 2 ^ 64

/-- A thread has a stream. -/
def Has (has : ℕ → Option (Option Hold)) (t : ℕ) (h : Hold) : Prop := has t = some (some h)

/-- How what the threads have fits: `now i` belongs to the stream `i`, and `base i` is what the
calls that have ended made of it. -/
structure Fits (p : Platform) (s : KmpShared) (has : ℕ → Option (Option Hold))
    (history : KmpHistory) (now : ℕ → Belongings) (base : ℕ → Option (Option Hasher)) :
    Prop where
  field : ∀ i, s.hasherPtr i = (now i).hasherPtr
  heap : ∀ a h, s.native.heap a = some h ↔ ∃ i, (now i).hasher = some (a, h)
  distinct : ∀ i j a h h', (now i).hasher = some (a, h) → (now j).hasher = some (a, h') → i = j
  held : ∀ t h, Has has t h → h.now = now h.self ∧ h.base = base h.self ∧
    h.passed = passedBytes (callsOn h.self history)
  apart : ∀ t u h h', Has has t h → Has has u h' → h.self = h'.self →
    t = u ∨ (h.writes = false ∧ h'.writes = false)
  settled : ∀ i, (∀ t h, Has has t h → h.self = i → h.writes = false) → (now i).Shows (base i)
  past : ∀ i, Past p i (callsOn i history) (base i)
  begun : ∀ i, (base i ≠ none ∨ ∃ t h, Has has t h ∧ h.self = i) →
    ∃ u key, .started u (.new i key) ∈ history
  follows : ∀ i h, base i = some (some h) → ∃ key m, h.Follows key m ∧
    m.length ≤ passedBytes (callsOn i history)
  hashes : ∀ t call r, .finished t call r ∈ history → call.stream? = none →
    Does p none call r none

/-! ### History -/

theorem mem_callsOn {i : ℕ} {history : KmpHistory} {call : KmpCall} {r : Except Throwable Reply} :
    (call, r) ∈ callsOn i history ↔
      call.stream? = some i ∧ ∃ t, .finished t call r ∈ history := by
  induction history with
  | nil => simp [callsOn]
  | cons e history ih =>
    cases e with
    | started t call' => simpa [callsOn] using ih
    | finished t call' r' =>
      rw [callsOn]
      by_cases hi : call'.stream? = some i
      · rw [if_pos hi, List.mem_append, ih, List.mem_singleton, Prod.mk.injEq]
        constructor
        · rintro (⟨hs, u, hu⟩ | ⟨rfl, rfl⟩)
          · exact ⟨hs, u, List.mem_cons_of_mem _ hu⟩
          · exact ⟨hi, t, List.mem_cons_self⟩
        · rintro ⟨hs, u, hu⟩
          rcases List.mem_cons.mp hu with heq | hu
          · cases heq
            exact .inr ⟨rfl, rfl⟩
          · exact .inl ⟨hs, u, hu⟩
      · rw [if_neg hi, ih]
        constructor
        · rintro ⟨hs, u, hu⟩
          exact ⟨hs, u, List.mem_cons_of_mem _ hu⟩
        · rintro ⟨hs, u, hu⟩
          rcases List.mem_cons.mp hu with heq | hu
          · cases heq
            exact absurd hs hi
          · exact ⟨hs, u, hu⟩

theorem returned_iff {i : ℕ} {history : KmpHistory} :
    Returned history i ↔ ∃ key r, (.new i key, .ok r) ∈ callsOn i history := by
  constructor
  · rintro ⟨t, key, r, hmem⟩
    exact ⟨key, r, mem_callsOn.mpr ⟨rfl, t, hmem⟩⟩
  · rintro ⟨key, r, hmem⟩
    obtain ⟨-, t, hmem⟩ := mem_callsOn.mp hmem
    exact ⟨t, key, r, hmem⟩

theorem closed_iff {i : ℕ} {history : KmpHistory} :
    Closed history i ↔ ∃ r, (.call i .close, r) ∈ callsOn i history := by
  constructor
  · rintro ⟨t, r, hmem⟩
    exact ⟨r, mem_callsOn.mpr ⟨rfl, t, hmem⟩⟩
  · rintro ⟨r, hmem⟩
    obtain ⟨-, t, hmem⟩ := mem_callsOn.mp hmem
    exact ⟨t, r, hmem⟩

theorem passedBytes_append (calls : List (KmpCall × Except Throwable Reply))
    (c : KmpCall × Except Throwable Reply) :
    passedBytes (calls ++ [c]) = passedBytes calls + c.1.passed := by
  rw [passedBytes, passedBytes, List.map_append, List.sum_append]
  simp

theorem KmpCall.passed_of_readsOnly {call : KmpCall} (h : call.readsOnly = true) :
    call.passed = 0 := by
  cases call with
  | call self op =>
    cases op with
    | update input offset length => exact absurd h (by simp [readsOnly, StreamOp.readsOnly])
    | _ => rfl
  | _ => rfl

/-! ### What a thread may do with what it has -/

section

variable {p : Platform}

/-- An answer changes nothing but what belongs to the stream. -/
theorem holdContract_keeps {g g' : Option Hold} {c : KmpCmd} {r : Except Throwable c.Answer}
    (h : (holdContract p).answers g c r g') :
    (g = none ∧ g' = none) ∨ ∃ h now, g = some h ∧ g' = some { h with now } := by
  cases g with
  | none =>
    refine .inl ⟨rfl, ?_⟩
    cases c with
    | hash input offset length output outLen => exact h.1
    | keyedHash key input offset length output outLen => exact h.1
    | _ => exact h
  | some g =>
    refine .inr ?_
    cases c with
    | createHasher =>
      obtain ⟨-, rfl⟩ | ⟨-, rfl⟩ | ⟨a, memory, -, -, rfl⟩ := h
      · exact ⟨g, _, rfl, rfl⟩
      · exact ⟨g, _, rfl, rfl⟩
      · exact ⟨g, _, rfl, rfl⟩
    | createKeyedHasher key =>
      obtain ⟨-, rfl⟩ | ⟨-, rfl⟩ | ⟨a, memory, k, -, -, -, rfl⟩ := h
      · exact ⟨g, _, rfl, rfl⟩
      · exact ⟨g, _, rfl, rfl⟩
      · exact ⟨g, _, rfl, rfl⟩
    | hasherUpdate hasherPtr input offset length =>
      obtain ⟨-, rfl | ⟨h, h', -, -, rfl⟩⟩ := h
      · exact ⟨g, _, rfl, rfl⟩
      · exact ⟨g, _, rfl, rfl⟩
    | hasherFinalize hasherPtr output offset length => exact ⟨g, _, rfl, h.1⟩
    | hasherReset hasherPtr =>
      obtain ⟨-, h, -, rfl⟩ := h
      exact ⟨g, _, rfl, rfl⟩
    | freeHasher hasherPtr => exact ⟨g, _, rfl, h.2⟩
    | getHasherPtr self => exact ⟨g, _, rfl, h.2⟩
    | setHasherPtr self hasherPtr => exact ⟨g, _, rfl, h.2⟩
    | loadNativeLibrary => exact ⟨g, _, rfl, h⟩
    | hash input offset length output outLen => exact ⟨g, _, rfl, h⟩
    | keyedHash key input offset length output outLen => exact ⟨g, _, rfl, h⟩

theorem During.keeps {call : KmpCall} {g g' : Option Hold} (h : During call g) {c : KmpCmd}
    {r : Except Throwable c.Answer} (hans : (holdContract p).answers g c r g') :
    During call g' := by
  rcases holdContract_keeps hans with ⟨rfl, rfl⟩ | ⟨h₀, now, rfl, rfl⟩
  · exact h
  · obtain ⟨hself, hfine⟩ := h
    refine ⟨hself, ?_⟩
    intro h hh
    cases hh
    exact hfine h₀ rfl

/-- A native function is given the thread's own hasher, to read only or by a writer. -/
theorem holdContract_address {g : Option Hold} {c : KmpCmd}
    (hreq : (holdContract p).requires g c) {a : UInt64} (ha : c.address? = some a) :
    ∃ h hasher, g = some h ∧ h.now.hasher = some (a, hasher) ∧ (h.writes = true ∨ c.Const) := by
  cases g with
  | none =>
    cases c with
    | hash input offset length output outLen => exact absurd ha (by simp [KmpCmd.address?])
    | keyedHash key input offset length output outLen =>
      exact absurd ha (by simp [KmpCmd.address?])
    | loadNativeLibrary => exact absurd ha (by simp [KmpCmd.address?])
    | _ => exact absurd hreq not_false
  | some g =>
    cases c with
    | hasherUpdate hasherPtr input offset length =>
      obtain rfl := Option.some.inj ha
      obtain ⟨hw, h, -, hh, -⟩ := hreq
      exact ⟨g, h, rfl, hh, .inl hw⟩
    | hasherFinalize hasherPtr output offset length =>
      obtain rfl := Option.some.inj ha
      obtain ⟨h, -, hh, -⟩ := hreq
      exact ⟨g, h, rfl, hh, .inr trivial⟩
    | hasherReset hasherPtr =>
      obtain rfl := Option.some.inj ha
      obtain ⟨hw, -, h, hh⟩ := hreq
      exact ⟨g, h, rfl, hh, .inl hw⟩
    | freeHasher hasherPtr =>
      obtain rfl := Option.some.inj ha
      obtain ⟨hw, -, h, hh⟩ := hreq
      exact ⟨g, h, rfl, hh, .inl hw⟩
    | _ => exact absurd ha (by simp [KmpCmd.address?])

end

/-! ### Changes -/

theorem has_update_some {has : ℕ → Option (Option Hold)} {t u : ℕ} {g : Option Hold} {h : Hold} :
    Has (Function.update has t (some g)) u h ↔ (u = t ∧ g = some h) ∨ (u ≠ t ∧ Has has u h) := by
  by_cases hu : u = t
  · subst hu
    simp [Has]
  · simp [Has, hu]

theorem has_update_none {has : ℕ → Option (Option Hold)} {t u : ℕ} {h : Hold} :
    Has (Function.update has t none) u h ↔ u ≠ t ∧ Has has u h := by
  by_cases hu : u = t
  · subst hu
    simp [Has]
  · simp [Has, hu]

section

variable {p : Platform} {s s' : KmpShared} {has : ℕ → Option (Option Hold)}
  {history : KmpHistory} {now : ℕ → Belongings} {base : ℕ → Option (Option Hasher)}
  (hf : Fits p s has history now base)
include hf

/-- What is called and what is in no hasher does not matter. -/
theorem Fits.congr (hheap : s'.native.heap = s.native.heap) (hptr : s'.hasherPtr = s.hasherPtr) :
    Fits p s' has history now base :=
  { hf with
    field := by
      rw [hptr]
      exact hf.field
    heap := by
      rw [hheap]
      exact hf.heap }

/-- No other thread has what a writer has. -/
theorem Fits.writer {t u : ℕ} {h h' : Hold} (ht : Has has t h) (hw : h.writes = true)
    (hu : Has has u h') (hut : u ≠ t) : h'.self ≠ h.self := by
  intro hself
  rcases hf.apart t u h h' ht hu hself.symm with heq | ⟨hr, -⟩
  · exact hut heq.symm
  · rw [hw] at hr
    exact absurd hr (by simp)

/-- A writer changes what it has. -/
theorem Fits.change {t : ℕ} {h : Hold} (ht : Has has t h) (hw : h.writes = true)
    (b : Belongings)
    (hfield : ∀ i, s'.hasherPtr i = (Function.update now h.self b i).hasherPtr)
    (hheap : ∀ a x, s'.native.heap a = some x ↔
      ∃ i, (Function.update now h.self b i).hasher = some (a, x))
    (hdistinct : ∀ i j a x x', (Function.update now h.self b i).hasher = some (a, x) →
      (Function.update now h.self b j).hasher = some (a, x') → i = j) :
    Fits p s' (Function.update has t (some (some { h with now := b }))) history
      (Function.update now h.self b) base := by
  -- who has a stream had it before
  have hhad : ∀ u h', Has (Function.update has t (some (some { h with now := b }))) u h' →
      ∃ h₀, Has has u h₀ ∧ h₀.self = h'.self ∧ h₀.writes = h'.writes := by
    intro u h' hu
    rcases has_update_some.mp hu with ⟨rfl, heq⟩ | ⟨-, hu⟩
    · cases heq
      exact ⟨h, ht, rfl, rfl⟩
    · exact ⟨h', hu, rfl, rfl⟩
  refine
    { field := hfield
      heap := hheap
      distinct := hdistinct
      past := hf.past
      follows := hf.follows
      hashes := hf.hashes
      held := ?_
      apart := ?_
      settled := ?_
      begun := ?_ }
  · intro u h' hu
    rcases has_update_some.mp hu with ⟨rfl, heq⟩ | ⟨hut, hu⟩
    · cases heq
      obtain ⟨-, hbase, hpassed⟩ := hf.held u h ht
      refine ⟨?_, hbase, hpassed⟩
      show b = Function.update now h.self b h.self
      rw [Function.update_self]
    · rw [Function.update_of_ne (hf.writer ht hw hu hut)]
      exact hf.held u h' hu
  · intro u v h₁ h₂ hu hv hself
    obtain ⟨h₁', hu', hs₁, hw₁⟩ := hhad u h₁ hu
    obtain ⟨h₂', hv', hs₂, hw₂⟩ := hhad v h₂ hv
    rw [← hw₁, ← hw₂]
    exact hf.apart u v h₁' h₂' hu' hv' (by rw [hs₁, hs₂, hself])
  · intro i hreaders
    by_cases hi : i = h.self
    · -- the writer is still there
      have hfalse := hreaders t _ (has_update_some.mpr (.inl ⟨rfl, rfl⟩)) hi.symm
      exact absurd (hw.symm.trans hfalse) (by simp)
    · rw [Function.update_of_ne hi]
      refine hf.settled i ?_
      intro u h' hu hself
      refine hreaders u h' (has_update_some.mpr (.inr ⟨?_, hu⟩)) hself
      rintro rfl
      obtain rfl : h' = h := Option.some.inj (Option.some.inj (hu.symm.trans ht))
      exact hi hself.symm
  · rintro i (hbase | ⟨u, h', hu, hself⟩)
    · exact hf.begun i (.inl hbase)
    · obtain ⟨h₀, hu₀, hs₀, -⟩ := hhad u h' hu
      exact hf.begun i (.inr ⟨u, h₀, hu₀, hs₀.trans hself⟩)

/-- A writer's hasher is overwritten, or allocated where nothing was. -/
theorem Fits.put {t : ℕ} {h : Hold} (ht : Has has t h) (hw : h.writes = true) {a : UInt64}
    (hfree : (h.now.hasher = none ∧ s.native.heap a = none) ∨ ∃ x, h.now.hasher = some (a, x))
    {hasher : Hasher} (hheap : s'.native.heap = Function.update s.native.heap a (some hasher))
    (hptr : s'.hasherPtr = s.hasherPtr) :
    Fits p s' (Function.update has t
        (some (some { h with now := { h.now with hasher := some (a, hasher) } }))) history
      (Function.update now h.self { h.now with hasher := some (a, hasher) }) base := by
  obtain ⟨hnow, -, -⟩ := hf.held t h ht
  -- the address belongs to nobody else
  have hmine : ∀ i x, (now i).hasher = some (a, x) → i = h.self := by
    intro i x hi
    rcases hfree with ⟨-, hnone⟩ | ⟨y, hy⟩
    · rw [(hf.heap a x).mpr ⟨i, hi⟩] at hnone
      exact absurd hnone (by simp)
    · rw [hnow] at hy
      exact hf.distinct i h.self a x y hi hy
  have hmy : ∀ b x, (now h.self).hasher = some (b, x) → b = a := by
    intro b x hb
    rw [← hnow] at hb
    rcases hfree with ⟨hnone, -⟩ | ⟨y, hy⟩
    · rw [hnone] at hb
      exact absurd hb (by simp)
    · rw [hy] at hb
      exact (Prod.mk.inj (Option.some.inj hb)).1.symm
  refine hf.change ht hw _ ?_ ?_ ?_
  · intro i
    rw [hptr, hf.field]
    by_cases hi : i = h.self
    · rw [hi, Function.update_self, hnow]
    · rw [Function.update_of_ne hi]
  · intro b x
    rw [hheap]
    by_cases hb : b = a
    · subst hb
      rw [Function.update_self]
      constructor
      · intro hx
        cases hx
        exact ⟨h.self, by rw [Function.update_self]⟩
      · rintro ⟨i, hi⟩
        by_cases his : i = h.self
        · rw [his, Function.update_self] at hi
          rw [(Prod.mk.inj (Option.some.inj hi)).2]
        · rw [Function.update_of_ne his] at hi
          exact absurd (hmine i x hi) his
    · rw [Function.update_of_ne hb, hf.heap]
      constructor
      · rintro ⟨i, hi⟩
        refine ⟨i, ?_⟩
        rw [Function.update_of_ne]
        · exact hi
        · rintro rfl
          exact hb (hmy b x hi)
      · rintro ⟨i, hi⟩
        by_cases his : i = h.self
        · rw [his, Function.update_self] at hi
          exact absurd (Prod.mk.inj (Option.some.inj hi)).1.symm hb
        · rw [Function.update_of_ne his] at hi
          exact ⟨i, hi⟩
  · intro i j b x x' hi hj
    by_cases his : i = h.self
    · by_cases hjs : j = h.self
      · rw [his, hjs]
      · rw [his, Function.update_self] at hi
        rw [Function.update_of_ne hjs] at hj
        obtain rfl := (Prod.mk.inj (Option.some.inj hi)).1
        exact absurd (hmine j x' hj) hjs
    · rw [Function.update_of_ne his] at hi
      by_cases hjs : j = h.self
      · rw [hjs, Function.update_self] at hj
        obtain rfl := (Prod.mk.inj (Option.some.inj hj)).1
        exact absurd (hmine i x hi) his
      · rw [Function.update_of_ne hjs] at hj
        exact hf.distinct i j b x x' hi hj

/-- A writer's hasher is freed. -/
theorem Fits.release {t : ℕ} {h : Hold} (ht : Has has t h) (hw : h.writes = true) {a : UInt64}
    {x : Hasher} (hx : h.now.hasher = some (a, x))
    (hheap : s'.native.heap = Function.update s.native.heap a none)
    (hptr : s'.hasherPtr = s.hasherPtr) :
    Fits p s' (Function.update has t
        (some (some { h with now := { h.now with hasher := none } }))) history
      (Function.update now h.self { h.now with hasher := none }) base := by
  obtain ⟨hnow, -, -⟩ := hf.held t h ht
  refine hf.change ht hw _ ?_ ?_ ?_
  · intro i
    rw [hptr, hf.field]
    by_cases hi : i = h.self
    · rw [hi, Function.update_self, hnow]
    · rw [Function.update_of_ne hi]
  · intro b y
    rw [hheap]
    by_cases hb : b = a
    · subst hb
      rw [Function.update_self]
      constructor
      · intro hnone
        exact absurd hnone (by simp)
      · rintro ⟨i, hi⟩
        by_cases his : i = h.self
        · rw [his, Function.update_self] at hi
          exact absurd hi (by simp)
        · rw [Function.update_of_ne his] at hi
          rw [hnow] at hx
          exact absurd (hf.distinct i h.self b y x hi hx) his
    · rw [Function.update_of_ne hb, hf.heap]
      constructor
      · rintro ⟨i, hi⟩
        refine ⟨i, ?_⟩
        rw [Function.update_of_ne]
        · exact hi
        · rintro rfl
          rw [← hnow, hx] at hi
          exact hb (Prod.mk.inj (Option.some.inj hi)).1.symm
      · rintro ⟨i, hi⟩
        by_cases his : i = h.self
        · rw [his, Function.update_self] at hi
          exact absurd hi (by simp)
        · rw [Function.update_of_ne his] at hi
          exact ⟨i, hi⟩
  · intro i j b y y' hi hj
    by_cases his : i = h.self
    · rw [his, Function.update_self] at hi
      exact absurd hi (by simp)
    · by_cases hjs : j = h.self
      · rw [hjs, Function.update_self] at hj
        exact absurd hj (by simp)
      · rw [Function.update_of_ne his] at hi
        rw [Function.update_of_ne hjs] at hj
        exact hf.distinct i j b y y' hi hj

/-- A writer sets its field. -/
theorem Fits.setField {t : ℕ} {h : Hold} (ht : Has has t h) (hw : h.writes = true)
    (hasherPtr : UInt64) :
    Fits p (s.setHasherPtr h.self hasherPtr) (Function.update has t
        (some (some { h with now := { h.now with hasherPtr } }))) history
      (Function.update now h.self { h.now with hasherPtr }) base := by
  obtain ⟨hnow, -, -⟩ := hf.held t h ht
  -- the hashers are where they were
  have hhasher : ∀ i, (Function.update now h.self { h.now with hasherPtr } i).hasher =
      (now i).hasher := by
    intro i
    by_cases hi : i = h.self
    · rw [hi, Function.update_self, hnow]
    · rw [Function.update_of_ne hi]
  refine hf.change ht hw _ ?_ ?_ ?_
  · intro i
    show Function.update s.hasherPtr h.self hasherPtr i = _
    by_cases hi : i = h.self
    · rw [hi, Function.update_self, Function.update_self]
    · rw [Function.update_of_ne hi, Function.update_of_ne hi]
      exact hf.field i
  · intro a x
    simp only [hhasher]
    exact hf.heap a x
  · intro i j a x x' hi hj
    rw [hhasher] at hi hj
    exact hf.distinct i j a x x' hi hj

/-- A writer's own hasher is on the heap. -/
theorem Fits.heap_own {t : ℕ} {h : Hold} (ht : Has has t h) {a : UInt64} {x : Hasher}
    (hx : h.now.hasher = some (a, x)) : s.native.heap a = some x := by
  rw [(hf.held t h ht).1] at hx
  exact (hf.heap a x).mpr ⟨h.self, hx⟩

end

/-! ### Answers -/

section

variable {p : Platform}

/-- The one-shot functions leave the heap alone, and do not look at it. -/
theorem hash_world (w : Native) (input : JByteArray) (offset length : Int32)
    (output : JByteArray) (outLen : Int32) (env : JvmEnv) :
    (JniBlake3.hash p w input offset length output outLen env).1 =
        (JniBlake3.hash p .initial input offset length output outLen env).1 ∧
      (JniBlake3.hash p w input offset length output outLen env).2.heap = w.heap := by
  rw [JniBlake3.hash, JniBlake3.hash]
  split_ifs
  · exact ⟨rfl, rfl⟩
  · dsimp only
    cases JniBlake3.hashWith p (blake3HasherInit env.stackMemory) input offset length output
      outLen env with
    | none => exact ⟨rfl, rfl⟩
    | some output => exact ⟨rfl, rfl⟩

theorem keyedHash_world (w : Native) (key input : JByteArray) (offset length : Int32)
    (output : JByteArray) (outLen : Int32) (env : JvmEnv) :
    (JniBlake3.keyedHash p w key input offset length output outLen env).1 =
        (JniBlake3.keyedHash p .initial key input offset length output outLen env).1 ∧
      (JniBlake3.keyedHash p w key input offset length output outLen env).2.heap = w.heap := by
  rw [JniBlake3.keyedHash, JniBlake3.keyedHash]
  split_ifs
  · exact ⟨rfl, rfl⟩
  · cases keyBuf key with
    | none => exact ⟨rfl, rfl⟩
    | some k =>
      dsimp only
      cases JniBlake3.hashWith p (blake3HasherInitKeyed env.stackMemory k) input offset length
        output outLen env with
      | none => exact ⟨rfl, rfl⟩
      | some output => exact ⟨rfl, rfl⟩

variable {s s' : KmpShared} {has : ℕ → Option (Option Hold)} {history : KmpHistory}
  {now : ℕ → Belongings} {base : ℕ → Option (Option Hasher)}
  (hf : Fits p s has history now base) {t : ℕ}
include hf

/-- A one-shot call: nothing of a stream changes. -/
theorem Fits.answer_none (hg : has t = some none) {c : KmpCmd}
    (hreq : (holdContract p).requires none c) {r : Except Throwable c.Answer}
    (hans : s.Answers p c r s') :
    ∃ g', (holdContract p).answers none c r g' ∧
      ∃ now', Fits p s' (Function.update has t (some g')) history now' base := by
  have hsame : Function.update has t (some none) = has := by
    rw [← hg, Function.update_eq_self]
  cases c with
  | loadNativeLibrary =>
    obtain rfl : s' = s := hans
    exact ⟨none, rfl, now, by rw [hsame]; exact hf⟩
  | hash input offset length output outLen =>
    rcases hans with ⟨herror, rfl⟩ | ⟨env, hran⟩
    · exact ⟨none, ⟨rfl, .inl herror⟩, now, by rw [hsame]; exact hf⟩
    · obtain ⟨hout, hheap⟩ := hash_world (p := p) s.native input offset length output outLen env
      rcases hr : JniBlake3.hash p s.native input offset length output outLen env with ⟨o, native⟩
      rw [hr] at hran hout hheap
      cases o with
      | returned a =>
        obtain ⟨rfl, rfl⟩ := hran
        exact ⟨none, ⟨rfl, .inr ⟨env, a, hout.symm, rfl⟩⟩, now,
          by rw [hsame]; exact hf.congr hheap rfl⟩
      | threw e =>
        obtain ⟨rfl, rfl⟩ := hran
        exact ⟨none, ⟨rfl, .inl ⟨e, rfl⟩⟩, now, by rw [hsame]; exact hf.congr hheap rfl⟩
      | fault => exact absurd hout.symm (hreq env)
  | keyedHash key input offset length output outLen =>
    rcases hans with ⟨herror, rfl⟩ | ⟨env, hran⟩
    · exact ⟨none, ⟨rfl, .inl herror⟩, now, by rw [hsame]; exact hf⟩
    · obtain ⟨hout, hheap⟩ :=
        keyedHash_world (p := p) s.native key input offset length output outLen env
      rcases hr : JniBlake3.keyedHash p s.native key input offset length output outLen env with
        ⟨o, native⟩
      rw [hr] at hran hout hheap
      cases o with
      | returned a =>
        obtain ⟨rfl, rfl⟩ := hran
        exact ⟨none, ⟨rfl, .inr ⟨env, a, hout.symm, rfl⟩⟩, now,
          by rw [hsame]; exact hf.congr hheap rfl⟩
      | threw e =>
        obtain ⟨rfl, rfl⟩ := hran
        exact ⟨none, ⟨rfl, .inl ⟨e, rfl⟩⟩, now, by rw [hsame]; exact hf.congr hheap rfl⟩
      | fault => exact absurd hout.symm (hreq env)
  | _ => exact absurd hreq not_false

/-- **What a thread is answered on its stream** is what the contract allows. -/
theorem Fits.answer_some {h : Hold} (hg : Has has t h) {c : KmpCmd}
    (hreq : (holdContract p).requires (some h) c) {r : Except Throwable c.Answer}
    (hans : s.Answers p c r s') :
    ∃ g', (holdContract p).answers (some h) c r g' ∧
      ∃ now', Fits p s' (Function.update has t (some g')) history now' base := by
  have hsame : Function.update has t (some (some h)) = has := by
    rw [← show has t = some (some h) from hg, Function.update_eq_self]
  -- nothing has changed but what is called
  have hcalled : ∀ native : Native, native.heap = s.native.heap → ∃ now',
      Fits p { s with native } (Function.update has t (some (some h))) history now' base := by
    intro native hheap
    rw [hsame]
    exact ⟨now, hf.congr hheap rfl⟩
  cases c with
  | loadNativeLibrary =>
    obtain rfl : s' = s := hans
    exact ⟨some h, rfl, hcalled _ rfl⟩
  | createHasher =>
    obtain ⟨hw, hnone⟩ := hreq
    rcases hans with ⟨herror, rfl⟩ | ⟨malloc, hmalloc, rfl, rfl⟩
    · exact ⟨some h, .inl ⟨herror, rfl⟩, hcalled _ rfl⟩
    · cases malloc with
      | none => exact ⟨some h, .inr (.inl ⟨rfl, rfl⟩), hcalled _ rfl⟩
      | some am =>
        obtain ⟨a, memory⟩ := am
        obtain ⟨h0, hfree⟩ := hmalloc a memory rfl
        exact ⟨_, .inr (.inr ⟨a, memory, h0, rfl, rfl⟩), _,
          hf.put hg hw (.inl ⟨hnone, hfree⟩) rfl rfl⟩
  | createKeyedHasher key =>
    obtain ⟨hw, hnone⟩ := hreq
    rcases hans with ⟨herror, rfl⟩ | ⟨malloc, hmalloc, rfl, rfl⟩
    · exact ⟨some h, .inl ⟨herror, rfl⟩, hcalled _ rfl⟩
    · rw [JniBlake3.createKeyedHasher]
      cases hk : keyBuf key with
      | none => exact ⟨some h, .inr (.inl ⟨rfl, rfl⟩), hcalled _ rfl⟩
      | some k =>
        cases malloc with
        | none => exact ⟨some h, .inr (.inl ⟨rfl, rfl⟩), hcalled _ rfl⟩
        | some am =>
          obtain ⟨a, memory⟩ := am
          obtain ⟨h0, hfree⟩ := hmalloc a memory rfl
          exact ⟨_, .inr (.inr ⟨a, memory, k, hk, h0, rfl, rfl⟩), _,
            hf.put hg hw (.inl ⟨hnone, hfree⟩) rfl rfl⟩
  | hasherUpdate hasherPtr input offset length =>
    obtain ⟨hw, x, x', hx, hupd⟩ := hreq
    obtain ⟨inPinned, hran⟩ := hans
    rw [JniBlake3.hasherUpdate] at hran
    by_cases h0 : hasherPtr = 0 ∨ length ≤ 0
    · rw [if_pos h0] at hran
      obtain ⟨rfl, rfl⟩ := hran
      exact ⟨some h, ⟨rfl, .inl rfl⟩, hcalled _ rfl⟩
    · rw [if_neg h0] at hran
      cases inPinned with
      | false =>
        obtain ⟨rfl, rfl⟩ := hran
        exact ⟨some h, ⟨rfl, .inl rfl⟩, hcalled _ rfl⟩
      | true =>
        simp only [if_true, Native.called_heap, hf.heap_own hg hx, Option.bind_some, hupd] at hran
        obtain ⟨rfl, rfl⟩ := hran
        exact ⟨_, ⟨rfl, .inr ⟨x, x', hx, hupd, rfl⟩⟩, _, hf.put hg hw (.inr ⟨x, hx⟩) rfl rfl⟩
  | hasherFinalize hasherPtr output offset length =>
    obtain ⟨x, output', hx, hfin⟩ := hreq
    obtain ⟨outPinned, hran⟩ := hans
    rw [JniBlake3.hasherFinalize] at hran
    by_cases h0 : hasherPtr = 0 ∨ length ≤ 0
    · rw [if_pos h0] at hran
      obtain ⟨rfl, rfl⟩ := hran
      exact ⟨some h, ⟨rfl, .inl rfl⟩, hcalled _ rfl⟩
    · rw [if_neg h0] at hran
      cases outPinned with
      | false =>
        obtain ⟨rfl, rfl⟩ := hran
        exact ⟨some h, ⟨rfl, .inl rfl⟩, hcalled _ rfl⟩
      | true =>
        simp only [if_true, Native.called_heap, hf.heap_own hg hx, Option.bind_some, hfin] at hran
        obtain ⟨rfl, rfl⟩ := hran
        exact ⟨some h, ⟨rfl, .inr ⟨x, output', hx, hfin, rfl⟩⟩, hcalled _ rfl⟩
  | hasherReset hasherPtr =>
    obtain ⟨hw, h0, x, hx⟩ := hreq
    have hran : s.Ran (JniBlake3.hasherReset s.native hasherPtr) r s' := hans
    rw [JniBlake3.hasherReset, if_neg h0] at hran
    simp only [Native.called_heap, hf.heap_own hg hx] at hran
    obtain ⟨rfl, rfl⟩ := hran
    exact ⟨_, ⟨rfl, x, hx, rfl⟩, _, hf.put hg hw (.inr ⟨x, hx⟩) rfl rfl⟩
  | freeHasher hasherPtr =>
    obtain ⟨hw, h0, x, hx⟩ := hreq
    have hran : s.Ran (JniBlake3.freeHasher s.native hasherPtr) r s' := hans
    rw [JniBlake3.freeHasher, if_neg h0] at hran
    simp only [Native.called_heap, hf.heap_own hg hx] at hran
    obtain ⟨rfl, rfl⟩ := hran
    exact ⟨_, ⟨rfl, rfl⟩, _, hf.release hg hw hx rfl rfl⟩
  | getHasherPtr self =>
    obtain ⟨rfl, rfl⟩ := hans
    obtain rfl : h.self = self := hreq
    refine ⟨some h, ⟨?_, rfl⟩, hcalled _ rfl⟩
    rw [hf.field, (hf.held t h hg).1]
  | setHasherPtr self hasherPtr =>
    obtain ⟨hw, rfl⟩ := hreq
    obtain ⟨rfl, rfl⟩ := hans
    exact ⟨_, ⟨rfl, rfl⟩, _, hf.setField hg hw hasherPtr⟩
  | hash input offset length output outLen => exact absurd hreq not_false
  | keyedHash key input offset length output outLen => exact absurd hreq not_false

end

end Blake3Kmp
