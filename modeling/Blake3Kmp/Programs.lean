/-
Programs that perform commands, one at a time, each of which may fail.

A `Prog C A ε α` is a tree: it returns a value, raises an exception, or
performs a command `c` and goes on with the answer, a value of type `A c` or an
exception.  What a command does is left to a state `σ` and to who answers it.

* `exec` — a run, when each command has one answer;
* `Contract` — the commands a program may ask for, and the answers allowed;
* `wp` — what holds at the end of a program, whatever the answers;
* `closing` — a program after which something is released, however it ends;
* `wp_bind`, `wp_tryCatch`, `wp_closing` — the rules of `wp`, one a combinator;
* `Only` — a program that performs commands of one kind; `wp_only` says what
  those leave alone;
* `wp_exec`, `wp_run` — the two agree;
* `Path` — a run so far: the commands performed, their answers, and what is left;
  `Path.allowed` says what holds along it.
-/
import Mathlib.Logic.Basic

namespace Programs

inductive Prog (C : Type) (A : C → Type) (ε α : Type)
  | pure (a : α)
  | raise (e : ε)
  | perform (c : C) (next : Except ε (A c) → Prog C A ε α)

namespace Prog

variable {C : Type} {A : C → Type} {ε α β σ : Type}

def bind : Prog C A ε α → (α → Prog C A ε β) → Prog C A ε β
  | pure a, f => f a
  | raise e, _ => raise e
  | perform c next, f => perform c fun r => (next r).bind f

instance : Monad (Prog C A ε) where
  pure := pure
  bind := bind

/-- One command; its failure is raised. -/
def request (c : C) : Prog C A ε (A c) :=
  perform c fun
    | .ok a => pure a
    | .error e => raise e

/-- An exception of `x` is handled by `handler`. -/
def tryCatch : Prog C A ε α → (ε → Prog C A ε α) → Prog C A ε α
  | pure a, _ => pure a
  | raise e, handler => handler e
  | perform c next, handler => perform c fun r => (next r).tryCatch handler

/-- `release` follows `body` however that ends; the exception of `body` is the one raised. -/
def closing (release : Prog C A ε Unit) (body : Prog C A ε α) : Prog C A ε α :=
  (body.tryCatch fun e =>
    (release.tryCatch fun _ => pure ()).bind fun _ => raise e).bind fun a =>
    release.bind fun _ => pure a

theorem pure_eq (a : α) : (Pure.pure a : Prog C A ε α) = pure a := rfl

theorem bind_eq (x : Prog C A ε α) (f : α → Prog C A ε β) : (x >>= f) = x.bind f := rfl

/-! ### Runs -/

/-- The result of a program and the state after it. -/
def exec (answer : (c : C) → σ → Except ε (A c) × σ) : Prog C A ε α → σ → Except ε α × σ
  | pure a, s => (.ok a, s)
  | raise e, s => (.error e, s)
  | perform c next, s => exec answer (next (answer c s).1) (answer c s).2

/-! ### What holds at the end -/

end Prog

/-- What a program may rely on: which commands it may ask for, and the answers to them. -/
structure Contract (C : Type) (A : C → Type) (ε σ : Type) where
  requires : σ → C → Prop
  answers : σ → (c : C) → Except ε (A c) → σ → Prop

namespace Prog

variable {C : Type} {A : C → Type} {ε α β σ : Type}

/-- The program asks only for what it may, and `post` holds at its end, whatever the answers. -/
def wp (K : Contract C A ε σ) (post : Except ε α → σ → Prop) : Prog C A ε α → σ → Prop
  | pure a, s => post (.ok a) s
  | raise e, s => post (.error e) s
  | perform c next, s => K.requires s c ∧ ∀ r s', K.answers s c r s' → wp K post (next r) s'

variable {K : Contract C A ε σ}

theorem wp_mono {post post' : Except ε α → σ → Prop} (h : ∀ r s, post r s → post' r s)
    {x : Prog C A ε α} {s : σ} (hx : x.wp K post s) : x.wp K post' s := by
  induction x generalizing s with
  | pure a => exact h _ _ hx
  | raise e => exact h _ _ hx
  | perform c next ih => exact ⟨hx.1, fun r s' hr => ih r (hx.2 r s' hr)⟩

/-- A property of states in which every command may be asked for and which every answer
keeps. -/
theorem wp_invariant {I : σ → Prop} (hreq : ∀ s c, I s → K.requires s c)
    (h : ∀ s c r s', I s → K.answers s c r s' → I s') (x : Prog C A ε α) {s : σ} (hs : I s) :
    x.wp K (fun _ => I) s := by
  induction x generalizing s with
  | pure a => exact hs
  | raise e => exact hs
  | perform c next ih => exact ⟨hreq s c hs, fun r s' hr => ih r (h s c r s' hs hr)⟩

theorem wp_bind {f : α → Prog C A ε β} {post : Except ε β → σ → Prop} {x : Prog C A ε α}
    {s : σ} (hx : x.wp K (fun r s' => match r with
      | .ok a => (f a).wp K post s'
      | .error e => post (.error e) s') s) : (x.bind f).wp K post s := by
  induction x generalizing s with
  | pure a => exact hx
  | raise e => exact hx
  | perform c next ih => exact ⟨hx.1, fun r s' hr => ih r (hx.2 r s' hr)⟩

theorem wp_request {c : C} {post : Except ε (A c) → σ → Prop} {s : σ} (hreq : K.requires s c)
    (h : ∀ r s', K.answers s c r s' → post r s') :
    (request c : Prog C A ε (A c)).wp K post s := by
  refine ⟨hreq, ?_⟩
  intro r s' hr
  cases r with
  | ok a => exact h _ s' hr
  | error e => exact h _ s' hr

theorem wp_tryCatch {handler : ε → Prog C A ε α} {post : Except ε α → σ → Prop}
    {x : Prog C A ε α} {s : σ} (hx : x.wp K (fun r s' => match r with
      | .ok a => post (.ok a) s'
      | .error e => (handler e).wp K post s') s) :
    (x.tryCatch handler).wp K post s := by
  induction x generalizing s with
  | pure a => exact hx
  | raise e => exact hx
  | perform c next ih => exact ⟨hx.1, fun r s' hr => ih r (hx.2 r s' hr)⟩

/-- **The rule of `closing`**: `mid` holds after the body, however it ended, and the release
takes it to `post`. -/
theorem wp_closing {release : Prog C A ε Unit} {mid post : Except ε α → σ → Prop}
    {body : Prog C A ε α} {s : σ} (hbody : body.wp K mid s)
    (hok : ∀ a s', mid (.ok a) s' → release.wp K (fun r s'' => match r with
      | .ok _ => post (.ok a) s''
      | .error e => post (.error e) s'') s')
    (herror : ∀ e s', mid (.error e) s' → release.wp K (fun _ => post (.error e)) s') :
    (closing release body).wp K post s := by
  refine wp_bind (wp_tryCatch (wp_mono ?_ hbody))
  intro r s' hmid
  cases r with
  | ok a =>
    refine wp_bind (wp_mono ?_ (hok a s' hmid))
    intro r s'' h
    cases r with
    | ok u => exact h
    | error e => exact h
  | error e =>
    refine wp_bind (wp_tryCatch (wp_mono ?_ (herror e s' hmid)))
    intro r s'' h
    cases r with
    | ok u => exact h
    | error e' => exact h

/-- Every command that the program performs satisfies `P`. -/
def Only (P : C → Prop) : Prog C A ε α → Prop
  | pure _ => True
  | raise _ => True
  | perform c next => P c ∧ ∀ r, Only P (next r)

theorem only_request {P : C → Prop} {c : C} (h : P c) :
    (request c : Prog C A ε (A c)).Only P := by
  refine ⟨h, ?_⟩
  intro r
  cases r with
  | ok a => trivial
  | error e => trivial

theorem Only.mono {P Q : C → Prop} {x : Prog C A ε α} (hx : x.Only P) (h : ∀ c, P c → Q c) :
    x.Only Q := by
  induction x with
  | pure a => trivial
  | raise e => trivial
  | perform c next ih => exact ⟨h c hx.1, fun r => ih r (hx.2 r)⟩

theorem Only.bind {P : C → Prop} {x : Prog C A ε α} {f : α → Prog C A ε β} (hx : x.Only P)
    (hf : ∀ a, (f a).Only P) : (x.bind f).Only P := by
  induction x with
  | pure a => exact hf a
  | raise e => trivial
  | perform c next ih => exact ⟨hx.1, fun r => ih r (hx.2 r)⟩

theorem Only.tryCatch {P : C → Prop} {x : Prog C A ε α} {handler : ε → Prog C A ε α}
    (hx : x.Only P) (hh : ∀ e, (handler e).Only P) : (x.tryCatch handler).Only P := by
  induction x with
  | pure a => trivial
  | raise e => exact hh e
  | perform c next ih => exact ⟨hx.1, fun r => ih r (hx.2 r)⟩

theorem Only.closing {P : C → Prop} {release : Prog C A ε Unit} {x : Prog C A ε α}
    (hr : release.Only P) (hx : x.Only P) : (closing release x).Only P := by
  have hpure : ∀ _ : ε, (pure () : Prog C A ε Unit).Only P := fun _ => trivial
  have hraise : ∀ e, ∀ _ : Unit, (raise e : Prog C A ε α).Only P := fun _ _ => trivial
  have hreturn : ∀ a, ∀ _ : Unit, (pure a : Prog C A ε α).Only P := fun _ _ => trivial
  exact (hx.tryCatch fun e => (hr.tryCatch hpure).bind (hraise e)).bind fun a =>
    hr.bind (hreturn a)

/-- Commands of one kind keep what each of them keeps. -/
theorem wp_only_keeps {P : C → Prop} {I : σ → Prop} (hreq : ∀ s c, I s → P c → K.requires s c)
    (hkeep : ∀ s c r s', I s → P c → K.answers s c r s' → I s') {x : Prog C A ε α}
    (hx : x.Only P) {s : σ} (hs : I s) : x.wp K (fun _ => I) s := by
  induction x generalizing s with
  | pure a => exact hs
  | raise e => exact hs
  | perform c next ih =>
    exact ⟨hreq s c hs hx.1, fun r s' hr => ih r (hx.2 r) (hkeep s c r s' hs hx.1 hr)⟩

/-- Commands that leave the state as it is. -/
theorem wp_only {P : C → Prop} (hreq : ∀ s c, P c → K.requires s c)
    (hkeep : ∀ s c r s', P c → K.answers s c r s' → s' = s) {x : Prog C A ε α} (hx : x.Only P)
    (s : σ) : x.wp K (fun _ s' => s' = s) s := by
  refine wp_only_keeps (I := (· = s)) (fun s c _ => hreq s c) ?_ hx rfl
  rintro s₁ c r s' rfl hc hr
  exact hkeep _ c r s' hc hr

/-- Every command may be asked for, and has one answer. -/
def answeredBy (answer : (c : C) → σ → Except ε (A c) × σ) : Contract C A ε σ where
  requires := fun _ _ => True
  answers := fun s c r s' => answer c s = (r, s')

/-- What holds at the end is then what holds after the run. -/
theorem wp_exec {answer : (c : C) → σ → Except ε (A c) × σ} {post : Except ε α → σ → Prop}
    {x : Prog C A ε α} {s : σ} :
    x.wp (answeredBy answer) post s ↔ post (x.exec answer s).1 (x.exec answer s).2 := by
  induction x generalizing s with
  | pure a => exact Iff.rfl
  | raise e => exact Iff.rfl
  | perform c next ih =>
    constructor
    · intro h
      exact (ih _).mp (h.2 _ _ rfl)
    · intro h
      refine ⟨trivial, ?_⟩
      intro r s' hr
      have h' := (ih (answer c s).1).mpr h
      rw [show answer c s = (r, s') from hr] at h'
      exact h'

/-- A run whose answers are allowed ends as `wp` says. -/
theorem wp_run {answer : (c : C) → σ → Except ε (A c) × σ}
    (hanswer : ∀ s c, K.answers s c (answer c s).1 (answer c s).2)
    {post : Except ε α → σ → Prop} {x : Prog C A ε α} {s : σ} (hx : x.wp K post s) :
    post (x.exec answer s).1 (x.exec answer s).2 := by
  induction x generalizing s with
  | pure a => exact hx
  | raise e => exact hx
  | perform c next ih => exact ih _ (hx.2 _ _ (hanswer s c))

end Prog

/-! ### Runs so far -/

/-- A command that has been performed. -/
structure Answered (C : Type) (A : C → Type) (ε : Type) where
  cmd : C
  answer : Except ε (A cmd)

/-- What a program may ask for, judged by what it has asked for so far, newest first. -/
def logged {C : Type} {A : C → Type} {ε : Type} (P : List (Answered C A ε) → C → Prop) :
    Contract C A ε (List (Answered C A ε)) where
  requires := P
  answers := fun log c r log' => log' = ⟨c, r⟩ :: log

namespace Prog

variable {C : Type} {A : C → Type} {ε α : Type}

/-- `Path x log y`: the program `x` has performed the commands of `log`, newest first, and `y`
is left of it. -/
inductive Path (x : Prog C A ε α) : List (Answered C A ε) → Prog C A ε α → Prop
  | refl : Path x [] x
  | step {log : List (Answered C A ε)} {c : C} {next : Except ε (A c) → Prog C A ε α}
      (before : Path x log (perform c next)) (r : Except ε (A c)) :
      Path x (⟨c, r⟩ :: log) (next r)

variable {P : List (Answered C A ε) → C → Prop}
  {post : Except ε α → List (Answered C A ε) → Prop} {x y : Prog C A ε α}
  {log : List (Answered C A ε)}

theorem Path.wp (h : x.Path log y) (hx : x.wp (logged P) post []) : y.wp (logged P) post log := by
  induction h with
  | refl => exact hx
  | step before r ih => exact ih.2 r _ rfl

/-- **What holds along a path**: each command was one that the log before it allows. -/
theorem Path.allowed (h : x.Path log y) (hx : x.wp (logged P) post [])
    {later earlier : List (Answered C A ε)} {e : Answered C A ε}
    (hlog : log = later ++ e :: earlier) : P earlier e.cmd := by
  induction h generalizing later with
  | refl => exact absurd hlog (by simp)
  | @step log c next before r ih =>
    cases later with
    | nil =>
      obtain ⟨rfl, rfl⟩ := List.cons.inj hlog
      exact (before.wp hx).1
    | cons e' later => exact ih (List.cons.inj hlog).2

end Prog

end Programs
