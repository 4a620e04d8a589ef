/-
Values that are computed at their first use, by any number of threads.

A lazy value is read without a lock first.  A thread that does not find it takes
the lock of the value, reads again, and computes and stores it if it is still
not there; the computation may ask for other lazy values and for things outside.
A computation that fails leaves the value unset, and the next thread tries again.

* `get` — the steps of one access;
* `Promise` — the order in which locks may be taken, and what is promised of the
  values and of the failures;
* `Gets`, `gets_get` — a program that keeps to the order and gets the value; the
  initialiser has to be one that stays below in the order;
* `returned_of_reach` — each access of a value returns what is stored for good,
  so that all of them return the same;
* `exists_step` — no deadlock: as long as a thread is in a call, one can go on.
-/
import Blake3Kmp.Threads
import Mathlib.Data.Nat.Notation

open Programs Prog

namespace Lazies

variable {L O ε T : Type} {V : L → Type} {B : O → Type}

/-! ### Programs -/

inductive Cmd (L : Type) (V : L → Type) (O : Type)
  | read (l : L)
  | lock (l : L)
  | unlock (l : L)
  | write (l : L) (v : V l)
  /-- Anything that has to do with no lazy value. -/
  | outside (o : O)

def Cmd.Answer (B : O → Type) : Cmd L V O → Type
  | read l => Option (V l)
  | outside o => B o
  | _ => Unit

abbrev LazyProg (V : L → Type) (B : O → Type) (ε α : Type) := Prog (Cmd L V O) (Cmd.Answer B) ε α

def read (l : L) : LazyProg V B ε (Option (V l)) := request (Cmd.read l)

def lock (l : L) : LazyProg V B ε Unit := request (Cmd.lock l)

def unlock (l : L) : LazyProg V B ε Unit := request (Cmd.unlock l)

def write (l : L) (v : V l) : LazyProg V B ε Unit := request (Cmd.write l v)

def ask (o : O) : LazyProg V B ε (B o) := request (Cmd.outside o)

/-- What is done with the lock held. -/
def compute (l : L) (init : LazyProg V B ε (V l)) : LazyProg V B ε (V l) :=
  (read l).bind fun
    | some v => .pure v
    | none => init.bind fun v => (write l v).bind fun _ => .pure v

/-- One access. -/
def get (l : L) (init : LazyProg V B ε (V l)) : LazyProg V B ε (V l) :=
  (read l).bind fun
    | some v => .pure v
    | none => (lock l).bind fun _ => closing (unlock l) (compute l init)

/-! ### Threads -/

structure State (T : Type) (V : L → Type) where
  value : (l : L) → Option (V l)
  /-- The thread that holds the lock of a value. -/
  holder : L → Option T

def State.initial : State T V where
  value := fun _ => none
  holder := fun _ => none

variable [DecidableEq L]

/-- What thread `t` is answered; `out` is what may be answered from outside. -/
def State.answers (out : (o : O) → Except ε (B o) → Prop) (t : T) (s : State T V) :
    (c : Cmd L V O) → Except ε (c.Answer B) → State T V → Prop
  | .read l, r, s' => r = .ok (s.value l) ∧ s' = s
  | .lock l, r, s' => s.holder l = none ∧ r = .ok () ∧
    s' = { s with holder := Function.update s.holder l (some t) }
  | .unlock l, r, s' => r = .ok () ∧ s' = { s with holder := Function.update s.holder l none }
  | .write l v, r, s' => r = .ok () ∧
    s' = { s with value := Function.update s.value l (some v) }
  | .outside o, r, s' => out o r ∧ s' = s

/-- Threads that each access one value after another. -/
def system (T : Type) (out : (o : O) → Except ε (B o) → Prop)
    (prog : (l : L) → LazyProg V B ε (V l)) :
    System T (Cmd L V O) (Cmd.Answer B) ε L (Σ l, V l) (State T V) where
  body := fun l => (prog l).bind fun v => .pure ⟨l, v⟩
  mayStart := fun _ _ => True
  answers := fun cfg t c r s => cfg.shared.answers out t c r s

/-! ### Promises -/

structure Promise (V : L → Type) (ε : Type) where
  /-- A thread takes locks of smaller and smaller rank. -/
  rank : L → ℕ
  good : (l : L) → V l → Prop
  /-- How an access may fail. -/
  fails : L → ε → Prop

/-- What a thread knows: the locks it holds, newest first, each with whether its value is known
not to be there, and values it has seen. -/
structure Known (V : L → Type) where
  held : List (L × Bool)
  value : (l : L) → Option (V l)

namespace Known

def start : Known V := ⟨[], fun _ => none⟩

def learn (g : Known V) (l : L) (v : V l) : Known V :=
  { g with value := Function.update g.value l (some v) }

/-- A value that is not there will not be there as long as its lock is held. -/
def missing (g : Known V) (l : L) : Known V :=
  match g.held with
  | [] => g
  | (h, b) :: held => { g with held := (h, b || decide (h = l)) :: held }

@[simp] theorem learn_held (g : Known V) (l : L) (v : V l) : (g.learn l v).held = g.held := rfl

@[simp] theorem learn_self (g : Known V) (l : L) (v : V l) : (g.learn l v).value l = some v :=
  Function.update_self ..

theorem learn_ne (g : Known V) {l l' : L} (h : l' ≠ l) (v : V l) :
    (g.learn l v).value l' = g.value l' := Function.update_of_ne h ..

@[simp] theorem missing_value (g : Known V) (l : L) : (g.missing l).value = g.value := by
  obtain ⟨held, value⟩ := g
  cases held with
  | nil => rfl
  | cons hb held => rfl

@[simp] theorem missing_locks (g : Known V) (l : L) :
    (g.missing l).held.map Prod.fst = g.held.map Prod.fst := by
  obtain ⟨held, value⟩ := g
  cases held with
  | nil => rfl
  | cons hb held => rfl

theorem mem_missing {g : Known V} {l l' : L} (h : (l', true) ∈ (g.missing l).held) :
    (l', true) ∈ g.held ∨ l' = l := by
  obtain ⟨held, value⟩ := g
  cases held with
  | nil => exact .inl h
  | cons hb held =>
    rcases List.mem_cons.mp h with heq | hmem
    · obtain ⟨rfl, hor⟩ := Prod.mk.inj heq
      by_cases hl : hb.1 = l
      · exact .inr hl
      · rw [decide_eq_false hl, Bool.or_false] at hor
        exact .inl (List.mem_cons.mpr (.inl (Prod.ext rfl hor)))
    · exact .inl (List.mem_cons_of_mem _ hmem)

/-- The locks held come after `l` in the order. -/
def Above (P : Promise V ε) (g : Known V) (l : L) : Prop := ∀ h ∈ g.held, P.rank l < P.rank h.1

end Known

omit [DecidableEq L] in
theorem Known.Above.same {P : Promise V ε} {g g' : Known V} {l : L} (h : g.Above P l)
    (hheld : g'.held = g.held) : g'.Above P l := by
  intro hb hmem
  rw [hheld] at hmem
  exact h hb hmem

/-- What a program may ask for, and what it learns. -/
def contract (P : Promise V ε) (out : (o : O) → Except ε (B o) → Prop) :
    Contract (Cmd L V O) (Cmd.Answer B) ε (Known V) where
  requires := fun g c => match c with
    | .lock l => g.Above P l
    | .unlock l => ∃ b held, g.held = (l, b) :: held
    | .write l v => (∃ held, g.held = (l, true) :: held) ∧ P.good l v
    | _ => True
  answers := fun g c r g' => match c, r with
    | .read l, r => (∃ v, P.good l v ∧ r = .ok (some v) ∧ g' = g.learn l v) ∨
      (r = .ok none ∧ g' = g.missing l)
    | .lock l, r => r = .ok () ∧ g' = { g with held := (l, false) :: g.held }
    | .unlock _, r => r = .ok () ∧ g' = { g with held := g.held.tail }
    | .write l v, r => r = .ok () ∧ g' = { g.learn l v with held := (l, false) :: g.held.tail }
    | .outside o, r => out o r ∧ g' = g

/-- How an access of `l` ends. -/
def Ends (P : Promise V ε) (l : L) (g : Known V) : Except ε (V l) → Known V → Prop
  | .ok v, g' => g'.held = g.held ∧ g'.value l = some v ∧ P.good l v
  | .error e, g' => g'.held = g.held ∧ P.fails l e

/-- The program keeps to the order and gets the value `l`. -/
def Gets (P : Promise V ε) (out : (o : O) → Except ε (B o) → Prop) (l : L)
    (x : LazyProg V B ε (V l)) : Prop :=
  ∀ g : Known V, g.Above P l → x.wp (contract P out) (Ends P l g) g

/-- How an initialiser of `l` ends. -/
def Inits (P : Promise V ε) (l : L) (g : Known V) : Except ε (V l) → Known V → Prop
  | .ok v, g' => g'.held = g.held ∧ P.good l v
  | .error e, g' => g'.held = g.held ∧ P.fails l e

/-! ### The rule of an access -/

section

variable {P : Promise V ε} {out : (o : O) → Except ε (B o) → Prop} {l : L}

theorem Known.missing_of_above {g : Known V} (h : g.Above P l) : g.missing l = g := by
  obtain ⟨held, value⟩ := g
  cases held with
  | nil => rfl
  | cons hb held =>
    have hne : hb.1 ≠ l := by
      intro heq
      have hlt : P.rank l < P.rank hb.1 := h hb List.mem_cons_self
      rw [heq] at hlt
      exact absurd hlt (Nat.lt_irrefl _)
    simp [Known.missing, hne]

theorem Known.missing_self (g : Known V) (l : L) (b : Bool) (held : List (L × Bool)) :
    ({ g with held := (l, b) :: held } : Known V).missing l =
      { g with held := (l, true) :: held } := by
  simp [Known.missing]

/-- With the lock of `l` held, its value is read or computed. -/
theorem wp_compute {init : LazyProg V B ε (V l)}
    (hinit : ∀ g : Known V, (∀ h ∈ g.held, P.rank l ≤ P.rank h.1) →
      init.wp (contract P out) (Inits P l g) g) {g : Known V} (habove : g.Above P l) :
    (compute l init).wp (contract P out) (fun r g' => ∃ b, g'.held = (l, b) :: g.held ∧
      match r with
      | .ok v => g'.value l = some v ∧ P.good l v
      | .error e => P.fails l e) { g with held := (l, false) :: g.held } := by
  refine wp_bind (wp_request trivial ?_)
  rintro r g' (⟨v, hgood, rfl, rfl⟩ | ⟨rfl, rfl⟩)
  · exact ⟨false, rfl, Function.update_self .., hgood⟩
  · rw [Known.missing_self]
    refine wp_bind (wp_mono ?_ (hinit _ ?_))
    · intro r g' hr
      cases r with
      | ok v =>
        obtain ⟨hheld, hgood⟩ := hr
        refine wp_bind (wp_request ⟨⟨g.held, hheld⟩, hgood⟩ ?_)
        rintro r g'' ⟨rfl, rfl⟩
        exact ⟨false, by rw [hheld]; rfl, Function.update_self .., hgood⟩
      | error e => exact ⟨true, hr⟩
    · intro h hmem
      rcases List.mem_cons.mp hmem with rfl | hmem
      · exact Nat.le_refl _
      · exact Nat.le_of_lt (habove h hmem)

/-- **The rule of an access**: the initialiser takes no lock that comes after `l`, or `l`. -/
theorem gets_get {init : LazyProg V B ε (V l)}
    (hinit : ∀ g : Known V, (∀ h ∈ g.held, P.rank l ≤ P.rank h.1) →
      init.wp (contract P out) (Inits P l g) g) : Gets P out l (get l init) := by
  intro g habove
  refine wp_bind (wp_request trivial ?_)
  rintro r g' (⟨v, hgood, rfl, rfl⟩ | ⟨rfl, rfl⟩)
  · exact ⟨rfl, Function.update_self .., hgood⟩
  · rw [Known.missing_of_above habove]
    refine wp_bind (wp_request habove ?_)
    rintro r g' ⟨rfl, rfl⟩
    refine wp_closing (wp_compute hinit habove) ?_ ?_
    · rintro v g' ⟨b, hheld, hvalue, hgood⟩
      refine wp_request ⟨b, g.held, hheld⟩ ?_
      rintro r g'' ⟨rfl, rfl⟩
      exact ⟨by rw [hheld]; rfl, hvalue, hgood⟩
    · rintro e g' ⟨b, hheld, hfails⟩
      refine wp_request ⟨b, g.held, hheld⟩ ?_
      rintro r g'' ⟨rfl, rfl⟩
      exact ⟨by rw [hheld]; rfl, hfails⟩

/-- An access inside an initialiser. -/
theorem wp_gets {α : Type} {l' : L} {x : LazyProg V B ε (V l')} {f : V l' → LazyProg V B ε α}
    {post : Except ε α → Known V → Prop} {g : Known V} (hx : Gets P out l' x)
    (habove : g.Above P l')
    (hok : ∀ v g', g'.held = g.held → P.good l' v → (f v).wp (contract P out) post g')
    (herror : ∀ e g', g'.held = g.held → P.fails l' e → post (.error e) g') :
    (x.bind f).wp (contract P out) post g := by
  refine wp_bind (wp_mono ?_ (hx g habove))
  intro r g' hr
  cases r with
  | ok v => exact hok v g' hr.1 hr.2.2
  | error e => exact herror e g' hr.1 hr.2

theorem wp_ask {α : Type} {o : O} {f : B o → LazyProg V B ε α}
    {post : Except ε α → Known V → Prop} {g : Known V}
    (hok : ∀ b, out o (.ok b) → (f b).wp (contract P out) post g)
    (herror : ∀ e, out o (.error e) → post (.error e) g) :
    ((ask o).bind f).wp (contract P out) post g := by
  refine wp_bind (wp_request trivial ?_)
  rintro r g' ⟨hr, rfl⟩
  cases r with
  | ok b => exact hok b hr
  | error e => exact herror e hr

end

/-! ### Runs -/

/-- How an ended access of `l` stands: what it returned is what is stored. -/
def Stands (P : Promise V ε) (l : L) (s : State T V) : Except ε (Σ l, V l) → Prop
  | .ok w => w.1 = l ∧ s.value w.1 = some w.2 ∧ P.good w.1 w.2
  | .error e => P.fails l e

/-- What a thread that knows `g` may rely on. -/
structure Knows (t : T) (g : Known V) (s : State T V) : Prop where
  holder : ∀ l, s.holder l = some t ↔ l ∈ g.held.map Prod.fst
  nodup : (g.held.map Prod.fst).Nodup
  missing : ∀ l, (l, true) ∈ g.held → s.value l = none
  value : ∀ l v, g.value l = some v → s.value l = some v

/-- The accord of the threads: a value is written under its lock, and once. -/
def accord (T : Type) (P : Promise V ε) (out : (o : O) → Except ε (B o) → Prop) :
    Accord T (Cmd L V O) (Cmd.Answer B) ε L (Σ l, V l) (State T V) (Known V) where
  contract := contract P out
  inv := fun s => ∀ l v, s.value l = some v → P.good l v
  free := fun t s => ∀ l, s.holder l ≠ some t
  knows := Knows
  post := fun l r g => g.held = [] ∧ match r with
    | .ok w => w.1 = l ∧ g.value w.1 = some w.2 ∧ P.good w.1 w.2
    | .error e => P.fails l e
  done := fun l r s => Stands P l s r

section

variable {P : Promise V ε} {out : (o : O) → Except ε (B o) → Prop} {t : T} {s s' : State T V}
  {g : Known V}

omit [DecidableEq L] in
theorem Knows.start (h : ∀ l, s.holder l ≠ some t) : Knows t Known.start s where
  holder := fun l => ⟨fun hl => absurd hl (h l), fun hl => absurd hl List.not_mem_nil⟩
  nodup := List.nodup_nil
  missing := fun _ hl => absurd hl List.not_mem_nil
  value := fun _ _ hl => absurd hl (by simp [Known.start])

/-- A value that has been read is known. -/
theorem Knows.learn (h : Knows t g s) {l : L} {v : V l} (hv : s.value l = some v) :
    Knows t (g.learn l v) s := by
  refine ⟨h.holder, h.nodup, h.missing, ?_⟩
  intro l' v' hv'
  by_cases hl : l' = l
  · subst hl
    rw [Known.learn_self] at hv'
    rwa [hv]
  · rw [Known.learn_ne _ hl] at hv'
    exact h.value l' v' hv'

/-- So is one that has been found missing, with its lock held. -/
theorem Knows.noneRead (h : Knows t g s) {l : L} (hv : s.value l = none) :
    Knows t (g.missing l) s := by
  refine ⟨?_, ?_, ?_, ?_⟩
  · intro l'
    rw [Known.missing_locks]
    exact h.holder l'
  · rw [Known.missing_locks]
    exact h.nodup
  · intro l' hmem
    rcases Known.mem_missing hmem with hmem | rfl
    · exact h.missing l' hmem
    · exact hv
  · rw [Known.missing_value]
    exact h.value

theorem Knows.lock (h : Knows t g s) {l : L} (habove : g.Above P l) (hfree : s.holder l = none) :
    Knows t { g with held := (l, false) :: g.held }
      { s with holder := Function.update s.holder l (some t) } := by
  have hnew : l ∉ g.held.map Prod.fst := by
    intro hmem
    have hheld := (h.holder l).mpr hmem
    rw [hfree] at hheld
    exact absurd hheld (by simp)
  refine ⟨?_, List.nodup_cons.mpr ⟨hnew, h.nodup⟩, ?_, h.value⟩
  · intro l'
    show Function.update s.holder l (some t) l' = some t ↔ l' ∈ l :: g.held.map Prod.fst
    by_cases hl : l' = l
    · subst hl
      simp
    · rw [Function.update_of_ne hl, h.holder l', List.mem_cons, or_iff_right hl]
  · intro l' hmem
    rcases List.mem_cons.mp hmem with heq | hmem
    · exact absurd (Prod.mk.inj heq).2 (by simp)
    · exact h.missing l' hmem

theorem Knows.unlock (h : Knows t g s) {l : L} {b : Bool} {held : List (L × Bool)}
    (hheld : g.held = (l, b) :: held) :
    Knows t { g with held := g.held.tail }
      { s with holder := Function.update s.holder l none } := by
  have hnodup := h.nodup
  rw [hheld, List.map_cons, List.nodup_cons] at hnodup
  refine ⟨?_, ?_, ?_, h.value⟩
  · intro l'
    show Function.update s.holder l none l' = some t ↔ l' ∈ g.held.tail.map Prod.fst
    rw [hheld, List.tail_cons]
    by_cases hl : l' = l
    · subst hl
      simp [hnodup.1]
    · rw [Function.update_of_ne hl, h.holder l', hheld, List.map_cons, List.mem_cons,
        or_iff_right hl]
  · show (g.held.tail.map Prod.fst).Nodup
    rw [hheld]
    exact hnodup.2
  · intro l' hmem
    exact h.missing l' (List.mem_of_mem_tail hmem)

theorem Knows.write (h : Knows t g s) {l : L} {held : List (L × Bool)}
    (hheld : g.held = (l, true) :: held) (v : V l) :
    Knows t { g.learn l v with held := (l, false) :: g.held.tail }
      { s with value := Function.update s.value l (some v) } := by
  have hnodup := h.nodup
  rw [hheld, List.map_cons, List.nodup_cons] at hnodup
  refine ⟨?_, ?_, ?_, ?_⟩
  · intro l'
    show s.holder l' = some t ↔ l' ∈ l :: g.held.tail.map Prod.fst
    rw [h.holder l', hheld]
    rfl
  · show (l :: g.held.tail.map Prod.fst).Nodup
    rw [hheld]
    exact List.nodup_cons.mpr hnodup
  · intro l' hmem
    show Function.update s.value l (some v) l' = none
    rcases List.mem_cons.mp hmem with heq | hmem
    · exact absurd (Prod.mk.inj heq).2 (by simp)
    · have hold : (l', true) ∈ g.held.tail := hmem
      rw [hheld, List.tail_cons] at hold
      have hl : l' ≠ l := by
        rintro rfl
        exact hnodup.1 (List.mem_map.mpr ⟨_, hold, rfl⟩)
      rw [Function.update_of_ne hl]
      exact h.missing l' (by rw [hheld]; exact List.mem_cons_of_mem _ hold)
  · intro l' v' hv'
    show Function.update s.value l (some v) l' = some v'
    by_cases hl : l' = l
    · subst hl
      rw [Function.update_self]
      exact (Known.learn_self g l' v).symm.trans hv'
    · rw [Function.update_of_ne hl]
      exact h.value l' v' ((Known.learn_ne g hl v).symm.trans hv')

/-! ### One answer -/

/-- An answer is one that the contract allows. -/
theorem answers_allowed (hgood : ∀ l v, s.value l = some v → P.good l v) (h : Knows t g s)
    {c : Cmd L V O} {r : Except ε (c.Answer B)} (hreq : (contract P out).requires g c)
    (hans : s.answers out t c r s') :
    (∀ l v, s'.value l = some v → P.good l v) ∧
      ∃ g', (contract P out).answers g c r g' ∧ Knows t g' s' := by
  cases c with
  | read l =>
    obtain ⟨rfl, rfl⟩ := hans
    refine ⟨hgood, ?_⟩
    cases hv : s'.value l with
    | none => exact ⟨_, .inr ⟨rfl, rfl⟩, h.noneRead hv⟩
    | some v => exact ⟨_, .inl ⟨v, hgood l v hv, rfl, rfl⟩, h.learn hv⟩
  | lock l =>
    obtain ⟨hfree, rfl, rfl⟩ := hans
    exact ⟨hgood, _, ⟨rfl, rfl⟩, h.lock hreq hfree⟩
  | unlock l =>
    obtain ⟨rfl, rfl⟩ := hans
    obtain ⟨b, held, hheld⟩ := hreq
    exact ⟨hgood, _, ⟨rfl, rfl⟩, h.unlock hheld⟩
  | write l v =>
    obtain ⟨rfl, rfl⟩ := hans
    obtain ⟨⟨held, hheld⟩, hv⟩ := hreq
    refine ⟨?_, _, ⟨rfl, rfl⟩, h.write hheld v⟩
    intro l' v' hv'
    have hv' : Function.update s.value l (some v) l' = some v' := hv'
    by_cases hl : l' = l
    · subst hl
      rw [Function.update_self] at hv'
      cases hv'
      exact hv
    · rw [Function.update_of_ne hl] at hv'
      exact hgood l' v' hv'
  | outside o =>
    obtain ⟨hr, rfl⟩ := hans
    exact ⟨hgood, g, ⟨hr, rfl⟩, h⟩

/-- A value that is there stays as it is. -/
theorem answers_value (h : Knows t g s) {c : Cmd L V O} {r : Except ε (c.Answer B)}
    (hreq : (contract P out).requires g c) (hans : s.answers out t c r s') {l : L} {v : V l}
    (hv : s.value l = some v) : s'.value l = some v := by
  cases c with
  | read l' =>
    obtain ⟨-, rfl⟩ := hans
    exact hv
  | lock l' =>
    obtain ⟨-, -, rfl⟩ := hans
    exact hv
  | unlock l' =>
    obtain ⟨-, rfl⟩ := hans
    exact hv
  | write l' v' =>
    obtain ⟨-, rfl⟩ := hans
    obtain ⟨⟨held, hheld⟩, -⟩ := hreq
    show Function.update s.value l' (some v') l = some v
    by_cases hl : l = l'
    · -- it would be known to be missing
      subst hl
      have hnone := h.missing l (by rw [hheld]; exact List.mem_cons_self)
      rw [hv] at hnone
      exact absurd hnone (by simp)
    · rw [Function.update_of_ne hl]
      exact hv
  | outside o =>
    obtain ⟨-, rfl⟩ := hans
    exact hv

/-- The locks of another thread stay as they are. -/
theorem answers_holder (h : Knows t g s) {c : Cmd L V O} {r : Except ε (c.Answer B)}
    (hreq : (contract P out).requires g c) (hans : s.answers out t c r s') {u : T} (hu : u ≠ t)
    (l : L) : s'.holder l = some u ↔ s.holder l = some u := by
  cases c with
  | read l' =>
    obtain ⟨-, rfl⟩ := hans
    exact Iff.rfl
  | lock l' =>
    obtain ⟨hfree, -, rfl⟩ := hans
    show Function.update s.holder l' (some t) l = some u ↔ s.holder l = some u
    by_cases hl : l = l'
    · subst hl
      rw [Function.update_self, hfree]
      simp [hu.symm]
    · rw [Function.update_of_ne hl]
  | unlock l' =>
    obtain ⟨-, rfl⟩ := hans
    obtain ⟨b, held, hheld⟩ := hreq
    show Function.update s.holder l' none l = some u ↔ s.holder l = some u
    by_cases hl : l = l'
    · subst hl
      have hmine : s.holder l = some t := (h.holder l).mpr (by rw [hheld]; exact List.mem_cons_self)
      rw [Function.update_self, hmine]
      simp [hu.symm]
    · rw [Function.update_of_ne hl]
  | write l' v' =>
    obtain ⟨-, rfl⟩ := hans
    exact Iff.rfl
  | outside o =>
    obtain ⟨-, rfl⟩ := hans
    exact Iff.rfl

/-- A value that another thread has found missing, under its lock, stays missing. -/
theorem answers_missing (h : Knows t g s) {c : Cmd L V O} {r : Except ε (c.Answer B)}
    (hreq : (contract P out).requires g c) (hans : s.answers out t c r s') {u : T} (hu : u ≠ t)
    {l : L} (hl : s.holder l = some u) (hv : s.value l = none) : s'.value l = none := by
  cases c with
  | read l' =>
    obtain ⟨-, rfl⟩ := hans
    exact hv
  | lock l' =>
    obtain ⟨-, -, rfl⟩ := hans
    exact hv
  | unlock l' =>
    obtain ⟨-, rfl⟩ := hans
    exact hv
  | write l' v' =>
    obtain ⟨-, rfl⟩ := hans
    obtain ⟨⟨held, hheld⟩, -⟩ := hreq
    show Function.update s.value l' (some v') l = none
    have hne : l ≠ l' := by
      rintro rfl
      have hmine : s.holder l = some t := (h.holder l).mpr (by rw [hheld]; exact List.mem_cons_self)
      rw [hl] at hmine
      exact hu (Option.some.inj hmine)
    rw [Function.update_of_ne hne]
    exact hv
  | outside o =>
    obtain ⟨-, rfl⟩ := hans
    exact hv

end

/-! ### All runs -/

section

variable [DecidableEq T] {P : Promise V ε} {out : (o : O) → Except ε (B o) → Prop}
  {prog : (l : L) → LazyProg V B ε (V l)} (hprog : ∀ l, Gets P out l (prog l))
include hprog

omit [DecidableEq T] in
theorem accord_kept : (accord T P out).Kept (system T out prog) where
  start := by
    intro s t l _ hfree
    refine ⟨Known.start, Knows.start hfree, ?_⟩
    refine wp_bind (wp_mono ?_ (hprog l Known.start fun h hmem => absurd hmem List.not_mem_nil))
    intro r g hr
    cases r with
    | ok v => exact ⟨hr.1, rfl, hr.2⟩
    | error e => exact hr
  answer := fun _ _ _ _ _ _ hinv hknows hreq hans => answers_allowed hinv hknows hreq hans
  others := by
    intro cfg t c r s' g u _ hknows hreq hans hu
    refine ⟨?_, ?_⟩
    · intro hfree l hl
      exact hfree l ((answers_holder hknows hreq hans hu l).mp hl)
    · intro g' hg'
      refine ⟨?_, hg'.nodup, ?_, ?_⟩
      · intro l
        rw [answers_holder hknows hreq hans hu l]
        exact hg'.holder l
      · intro l hmem
        have hl := (hg'.holder l).mpr (List.mem_map.mpr ⟨_, hmem, rfl⟩)
        exact answers_missing hknows hreq hans hu hl (hg'.missing l hmem)
      · exact fun l v hv => answers_value hknows hreq hans (hg'.value l v hv)
  ended := by
    intro cfg t c r s' g l r' _ hknows hreq hans hdone
    cases r' with
    | ok w => exact ⟨hdone.1, answers_value hknows hreq hans hdone.2.1, hdone.2.2⟩
    | error e => exact hdone
  finish := by
    intro s t l r g _ hknows hpost
    obtain ⟨hheld, hpost⟩ := hpost
    refine ⟨?_, ?_⟩
    · intro l' hl'
      have hmem := (hknows.holder l').mp hl'
      rw [hheld] at hmem
      exact absurd hmem List.not_mem_nil
    · cases r with
      | ok w => exact ⟨hpost.1, hknows.value w.1 w.2 hpost.2.1, hpost.2.2⟩
      | error e => exact hpost

theorem holds_of_reach {cfg : Config T (Cmd L V O) (Cmd.Answer B) ε L (Σ l, V l) (State T V)}
    (h : Reach (system T out prog) Anything (.initial .initial) cfg) :
    (accord T P out).Holds cfg.shared cfg.rest cfg.history :=
  (accord_kept hprog).reach (fun l v hv => absurd hv (by simp [State.initial]))
    (fun t l => by simp [State.initial]) h

/-- **What an access returns is stored for good**, in every run. -/
theorem returned_of_reach {cfg : Config T (Cmd L V O) (Cmd.Answer B) ε L (Σ l, V l) (State T V)}
    (h : Reach (system T out prog) Anything (.initial .initial) cfg) {t : T} {l : L}
    {r : Except ε (Σ l, V l)} (hmem : Happened.finished t l r ∈ cfg.history) :
    Stands P l cfg.shared r := (holds_of_reach hprog h).finished t l r hmem

omit hprog in
/-- A thread that does not wait for a lock that is taken can go on. -/
theorem step_of_not_lock (hout : ∀ o, ∃ r, out o r)
    {cfg : Config T (Cmd L V O) (Cmd.Answer B) ε L (Σ l, V l) (State T V)} {t : T} {call : L}
    {x : LazyProg V B ε (Σ l, V l)} (hrest : cfg.rest t = some (call, x))
    (hlock : ∀ l next, x = .perform (.lock l) next → cfg.shared.holder l = none) :
    ∃ m cfg', Step (system T out prog) cfg m cfg' ∧ ∀ u call, m ≠ .start u call := by
  cases hthread : cfg.thread t with
  | idle =>
    rw [Config.rest, hthread] at hrest
    exact absurd hrest (by simp [Thread.rest])
  | running call' y =>
    cases y with
    | pure a => exact ⟨_, _, .returned hthread, by simp⟩
    | raise e => exact ⟨_, _, .raised hthread, by simp⟩
    | perform c next => exact ⟨_, _, .request hthread, by simp⟩
  | waiting call' c next =>
    rw [Config.rest, hthread] at hrest
    obtain ⟨rfl, rfl⟩ := Prod.mk.inj (Option.some.inj hrest)
    -- every command but a lock is answered at once
    have hans : ∃ r s, cfg.shared.answers out t c r s := by
      cases c with
      | read l => exact ⟨_, _, rfl, rfl⟩
      | lock l => exact ⟨_, _, hlock l next rfl, rfl, rfl⟩
      | unlock l => exact ⟨_, _, rfl, rfl⟩
      | write l v => exact ⟨_, _, rfl, rfl⟩
      | outside o =>
        obtain ⟨r, hr⟩ := hout o
        exact ⟨r, _, hr, rfl⟩
    obtain ⟨r, s, hans⟩ := hans
    exact ⟨_, _, .answer hthread hans, by simp⟩

omit hprog in
/-- The thread that holds the lock that another one waits for can go on, or waits for one that
comes before it. -/
theorem exists_step_of_lock (hout : ∀ o, ∃ r, out o r)
    {cfg : Config T (Cmd L V O) (Cmd.Answer B) ε L (Σ l, V l) (State T V)}
    (h : (accord T P out).Holds cfg.shared cfg.rest cfg.history) (n : ℕ) :
    ∀ t call l next, P.rank l = n → cfg.rest t = some (call, .perform (.lock l) next) →
      ∃ m cfg', Step (system T out prog) cfg m cfg' ∧ ∀ u call, m ≠ .start u call := by
  induction n using Nat.strongRecOn with
  | _ n ih =>
    intro t call l next hrank hrest
    cases hholder : cfg.shared.holder l with
    | none =>
      refine step_of_not_lock hout hrest ?_
      intro l' next' heq
      cases heq
      exact hholder
    | some u =>
      cases hu : cfg.rest u with
      | none => exact absurd hholder (h.idle u hu l)
      | some cy =>
        obtain ⟨call', y⟩ := cy
        obtain ⟨g, hknows, hwp⟩ := h.running u call' y hu
        obtain ⟨hb, hmem, hl⟩ := List.mem_map.mp ((hknows.holder l).mp hholder)
        by_cases hy : ∃ l' next', y = .perform (.lock l') next'
        · obtain ⟨l', next', rfl⟩ := hy
          -- it takes its locks in order
          have hlt : P.rank l' < P.rank hb.1 := hwp.1 hb hmem
          rw [hl, hrank] at hlt
          exact ih (P.rank l') hlt u call' l' next' rfl hu
        · exact step_of_not_lock hout hu fun l' next' heq => absurd ⟨l', next', heq⟩ hy

/-- **No deadlock**: as long as some thread is in a call, some thread can go on with one. -/
theorem exists_step (hout : ∀ o, ∃ r, out o r)
    {cfg : Config T (Cmd L V O) (Cmd.Answer B) ε L (Σ l, V l) (State T V)}
    (h : Reach (system T out prog) Anything (.initial .initial) cfg) {t : T}
    (ht : cfg.thread t ≠ .idle) :
    ∃ m cfg', Step (system T out prog) cfg m cfg' ∧ ∀ u call, m ≠ .start u call := by
  have hholds := holds_of_reach hprog h
  have hrest : ∃ call x, cfg.rest t = some (call, x) := by
    cases hthread : cfg.thread t with
    | idle => exact absurd hthread ht
    | running call x => exact ⟨call, x, by rw [Config.rest, hthread]; rfl⟩
    | waiting call c next => exact ⟨call, .perform c next, by rw [Config.rest, hthread]; rfl⟩
  obtain ⟨call, x, hrest⟩ := hrest
  by_cases hx : ∃ l next, x = .perform (.lock l) next
  · obtain ⟨l, next, rfl⟩ := hx
    exact exists_step_of_lock hout hholds (P.rank l) t call l next rfl hrest
  · exact step_of_not_lock hout hrest fun l next heq => absurd ⟨l, next, heq⟩ hx

end

end Lazies
