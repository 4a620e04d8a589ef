/-
Threads that run programs over a shared state.

Each thread makes one call after another.  A call is a program; a thread first
asks for its next command and is answered later, so that others move in between
and a command may take its time.  The state changes when a command is answered.

* `System` — the program of each call, and how commands are answered;
* `Step` — one move of one thread;
* `Reach` — the configurations that runs reach whose steps all meet a condition;
* `Reach.invariant` — what every start, answer and end of a call keeps holds in
  all of them;
* `Ledger`, `Ledger.Kept.reach` — each program judged by a contract over what its
  thread has, and what all of them have between them;
* `Accord`, `Accord.Kept.reach` — the ledger of what each thread knows of the
  shared state;
* `System.traced` — the same system with a record of who performed what;
  `Reach.traced` says that every run is one of it.
-/
import Blake3Kmp.Programs
import Mathlib.Logic.Function.Basic

namespace Programs

variable {T C : Type} {A : C → Type} {ε K R σ : Type}

/-- A thread is in no call, or in one with the rest of its program, where it may be waiting
for the answer to a command. -/
inductive Thread (C : Type) (A : C → Type) (ε K R : Type)
  | idle
  | running (call : K) (rest : Prog C A ε R)
  | waiting (call : K) (c : C) (next : Except ε (A c) → Prog C A ε R)

/-- The call of a thread and what is left of it. -/
def Thread.rest : Thread C A ε K R → Option (K × Prog C A ε R)
  | idle => none
  | running call x => some (call, x)
  | waiting call c next => some (call, .perform c next)

inductive Happened (T ε K R : Type)
  | started (t : T) (call : K)
  | finished (t : T) (call : K) (result : Except ε R)

structure Config (T C : Type) (A : C → Type) (ε K R σ : Type) where
  shared : σ
  thread : T → Thread C A ε K R
  /-- The calls begun and ended so far, newest first. -/
  history : List (Happened T ε K R)

namespace Config

/-- Nothing has happened yet. -/
def initial (s : σ) : Config T C A ε K R σ where
  shared := s
  thread := fun _ => .idle
  history := []

def rest (cfg : Config T C A ε K R σ) (t : T) : Option (K × Prog C A ε R) :=
  (cfg.thread t).rest

/-- No call is in progress. -/
def Quiet (cfg : Config T C A ε K R σ) : Prop := ∀ t, cfg.thread t = .idle

theorem Quiet.rest {cfg : Config T C A ε K R σ} (h : cfg.Quiet) (t : T) : cfg.rest t = none := by
  rw [Config.rest, h t]
  rfl

variable [DecidableEq T]

def set (cfg : Config T C A ε K R σ) (t : T) (th : Thread C A ε K R) : Config T C A ε K R σ :=
  { cfg with thread := Function.update cfg.thread t th }

def log (cfg : Config T C A ε K R σ) (h : Happened T ε K R) : Config T C A ε K R σ :=
  { cfg with history := h :: cfg.history }

@[simp] theorem set_thread_self (cfg : Config T C A ε K R σ) (t : T) (th : Thread C A ε K R) :
    (cfg.set t th).thread t = th := Function.update_self ..

theorem set_thread_ne (cfg : Config T C A ε K R σ) {t u : T} (h : u ≠ t)
    (th : Thread C A ε K R) : (cfg.set t th).thread u = cfg.thread u := Function.update_of_ne h ..

theorem rest_set (cfg : Config T C A ε K R σ) (t : T) (th : Thread C A ε K R) :
    (cfg.set t th).rest = Function.update cfg.rest t th.rest := by
  funext u
  show (Function.update cfg.thread t th u).rest = _
  by_cases hu : u = t
  · subst hu
    rw [Function.update_self, Function.update_self]
  · rw [Function.update_of_ne hu, Function.update_of_ne hu]
    rfl

end Config

structure System (T C : Type) (A : C → Type) (ε K R σ : Type) where
  body : K → Prog C A ε R
  /-- The calls that may be made. -/
  mayStart : Config T C A ε K R σ → K → Prop
  /-- The answers a thread may get to a command, and the shared state they leave. -/
  answers : Config T C A ε K R σ → T → (c : C) → Except ε (A c) → σ → Prop

/-- What a thread does in one step. -/
inductive Move (T C : Type) (A : C → Type) (ε K R : Type)
  | start (t : T) (call : K)
  | request (t : T) (call : K) (c : C)
  | answer (t : T) (call : K) (c : C) (r : Except ε (A c))
  | finish (t : T) (call : K) (result : Except ε R)

variable [DecidableEq T] {S : System T C A ε K R σ}

inductive Step (S : System T C A ε K R σ) (cfg : Config T C A ε K R σ) :
    Move T C A ε K R → Config T C A ε K R σ → Prop
  | start {t : T} {call : K} (idle : cfg.thread t = .idle) (may : S.mayStart cfg call) :
      Step S cfg (.start t call) ((cfg.set t (.running call (S.body call))).log (.started t call))
  | request {t : T} {call : K} {c : C} {next : Except ε (A c) → Prog C A ε R}
      (running : cfg.thread t = .running call (.perform c next)) :
      Step S cfg (.request t call c) (cfg.set t (.waiting call c next))
  | answer {t : T} {call : K} {c : C} {next : Except ε (A c) → Prog C A ε R}
      {r : Except ε (A c)} {s : σ} (waiting : cfg.thread t = .waiting call c next)
      (answered : S.answers cfg t c r s) :
      Step S cfg (.answer t call c r) { cfg.set t (.running call (next r)) with shared := s }
  | returned {t : T} {call : K} {a : R} (running : cfg.thread t = .running call (.pure a)) :
      Step S cfg (.finish t call (.ok a)) ((cfg.set t .idle).log (.finished t call (.ok a)))
  | raised {t : T} {call : K} {e : ε} (running : cfg.thread t = .running call (.raise e)) :
      Step S cfg (.finish t call (.error e)) ((cfg.set t .idle).log (.finished t call (.error e)))

/-- The configurations reached from `init` by steps that all meet the condition `ok`. -/
inductive Reach (S : System T C A ε K R σ)
    (ok : Config T C A ε K R σ → Move T C A ε K R → Prop) (init : Config T C A ε K R σ) :
    Config T C A ε K R σ → Prop
  | refl : Reach S ok init init
  | step {cfg cfg' : Config T C A ε K R σ} {m : Move T C A ε K R} (before : Reach S ok init cfg)
      (met : ok cfg m) (step : Step S cfg m cfg') : Reach S ok init cfg'

/-- Any run at all. -/
def Anything (_ : Config T C A ε K R σ) (_ : Move T C A ε K R) : Prop := True

/-- **The rule for invariants.**  A property of the shared state, the rests of the programs and
the history holds in every configuration reached, if it does at the start and is kept when a
call starts, when a command is answered and when a call ends. -/
theorem Reach.invariant {ok : Config T C A ε K R σ → Move T C A ε K R → Prop}
    {init : Config T C A ε K R σ}
    (I : σ → (T → Option (K × Prog C A ε R)) → List (Happened T ε K R) → Prop)
    (hinit : I init.shared init.rest init.history)
    (hstart : ∀ cfg t call, I cfg.shared cfg.rest cfg.history → cfg.rest t = none →
      S.mayStart cfg call → ok cfg (.start t call) →
      I cfg.shared (Function.update cfg.rest t (some (call, S.body call)))
        (.started t call :: cfg.history))
    (hanswer : ∀ cfg t call c next r s, I cfg.shared cfg.rest cfg.history →
      cfg.rest t = some (call, .perform c next) → S.answers cfg t c r s →
      ok cfg (.answer t call c r) →
      I s (Function.update cfg.rest t (some (call, next r))) cfg.history)
    (hreturned : ∀ cfg t call a, I cfg.shared cfg.rest cfg.history →
      cfg.rest t = some (call, .pure a) → ok cfg (.finish t call (.ok a)) →
      I cfg.shared (Function.update cfg.rest t none) (.finished t call (.ok a) :: cfg.history))
    (hraised : ∀ cfg t call e, I cfg.shared cfg.rest cfg.history →
      cfg.rest t = some (call, .raise e) → ok cfg (.finish t call (.error e)) →
      I cfg.shared (Function.update cfg.rest t none)
        (.finished t call (.error e) :: cfg.history))
    {cfg : Config T C A ε K R σ} (h : Reach S ok init cfg) :
    I cfg.shared cfg.rest cfg.history := by
  induction h with
  | refl => exact hinit
  | @step cfg cfg' m before met step ih =>
    cases step with
    | @start t call idle may =>
      have hrest := Config.rest_set cfg t (.running call (S.body call))
      show I cfg.shared (cfg.set t _).rest _
      rw [hrest]
      exact hstart cfg t call ih (by rw [Config.rest, idle]; rfl) may met
    | @request t call c next running =>
      -- asking changes nothing
      have hrest := Config.rest_set cfg t (.waiting call c next)
      show I cfg.shared (cfg.set t _).rest cfg.history
      have hsame : cfg.rest t = (Thread.waiting (K := K) call c next).rest := by
        rw [Config.rest, running]
        rfl
      rw [hrest, ← hsame, Function.update_eq_self]
      exact ih
    | @answer t call c next r s waiting answered =>
      have hrest := Config.rest_set cfg t (.running call (next r))
      show I s (cfg.set t _).rest cfg.history
      rw [hrest]
      exact hanswer cfg t call c next r s ih (by rw [Config.rest, waiting]; rfl) answered met
    | @returned t call a running =>
      have hrest := Config.rest_set cfg t .idle
      show I cfg.shared (cfg.set t _).rest _
      rw [hrest]
      exact hreturned cfg t call a ih (by rw [Config.rest, running]; rfl) met
    | @raised t call e running =>
      have hrest := Config.rest_set cfg t .idle
      show I cfg.shared (cfg.set t _).rest _
      rw [hrest]
      exact hraised cfg t call e ih (by rw [Config.rest, running]; rfl) met

/-- Two steps of one thread: it asks for a command and is answered. -/
theorem Reach.perform {ok : Config T C A ε K R σ → Move T C A ε K R → Prop}
    {init cfg : Config T C A ε K R σ} (before : Reach S ok init cfg) {t : T} {call : K} {c : C}
    {next : Except ε (A c) → Prog C A ε R}
    (running : cfg.thread t = .running call (.perform c next)) (r : Except ε (A c)) (s : σ)
    (answered : S.answers (cfg.set t (.waiting call c next)) t c r s)
    (met : ok cfg (.request t call c))
    (met' : ok (cfg.set t (.waiting call c next)) (.answer t call c r)) :
    Reach S ok init { cfg.set t (.running call (next r)) with shared := s } := by
  have hasked := cfg.set_thread_self t (.waiting call c next)
  have hrun := (before.step met (.request running)).step met' (.answer hasked answered)
  have hset : (cfg.set t (.waiting call c next)).set t (.running call (next r)) =
      cfg.set t (.running call (next r)) := by
    rw [Config.set, Config.set, Config.set, Function.update_idem]
  rwa [hset] at hrun

/-- A weaker condition allows more runs. -/
theorem Reach.mono {ok ok' : Config T C A ε K R σ → Move T C A ε K R → Prop}
    {init cfg : Config T C A ε K R σ} (h : ∀ cfg m, ok cfg m → ok' cfg m)
    (hreach : Reach S ok init cfg) : Reach S ok' init cfg := by
  induction hreach with
  | refl => exact .refl
  | step before met step ih => exact .step ih (h _ _ met) step

/-! ### What the threads have between them -/

/-- A ledger says what each thread in a call has.  Its program is judged by a contract over
that, and what all of them have fits the shared state and the history. -/
structure Ledger (T C : Type) (A : C → Type) (ε K R σ G : Type) where
  contract : Contract C A ε G
  /-- What a thread may have in a call. -/
  during : K → G → Prop
  /-- What a thread has at the end of a call. -/
  post : K → Except ε R → G → Prop
  fits : σ → (T → Option G) → List (Happened T ε K R) → Prop

namespace Ledger

variable {G : Type}

structure Balanced (D : Ledger T C A ε K R σ G) (s : σ) (rest : T → Option (K × Prog C A ε R))
    (history : List (Happened T ε K R)) (has : T → Option G) : Prop where
  fits : D.fits s has history
  idle : ∀ t, rest t = none → has t = none
  running : ∀ t call x, rest t = some (call, x) →
    ∃ g, has t = some g ∧ D.during call g ∧ x.wp D.contract (D.post call) g

/-- What there is to show of the system, whose steps meet `ok`. -/
structure Kept (D : Ledger T C A ε K R σ G) (S : System T C A ε K R σ)
    (ok : Config T C A ε K R σ → Move T C A ε K R → Prop) : Prop where
  start : ∀ cfg has t call, D.Balanced cfg.shared cfg.rest cfg.history has →
    cfg.rest t = none → S.mayStart cfg call → ok cfg (.start t call) →
    ∃ g, D.fits cfg.shared (Function.update has t (some g)) (.started t call :: cfg.history) ∧
      D.during call g ∧ (S.body call).wp D.contract (D.post call) g
  answer : ∀ cfg has t call c next r s' g, D.Balanced cfg.shared cfg.rest cfg.history has →
    cfg.rest t = some (call, .perform c next) → has t = some g → D.during call g →
    D.contract.requires g c → S.answers cfg t c r s' → ok cfg (.answer t call c r) →
    ∃ g', D.contract.answers g c r g' ∧ D.during call g' ∧
      D.fits s' (Function.update has t (some g')) cfg.history
  finish : ∀ cfg has t call r g, D.Balanced cfg.shared cfg.rest cfg.history has →
    has t = some g → D.during call g → D.post call r g → ok cfg (.finish t call r) →
    D.fits cfg.shared (Function.update has t none) (.finished t call r :: cfg.history)

variable {D : Ledger T C A ε K R σ G} {s s' : σ} {rest : T → Option (K × Prog C A ε R)}
  {history history' : List (Happened T ε K R)} {has : T → Option G}

/-- One thread goes on, with something else. -/
theorem Balanced.run (h : D.Balanced s rest history has) {t : T} {call : K} {x : Prog C A ε R}
    {g : G} (hfits : D.fits s' (Function.update has t (some g)) history')
    (hduring : D.during call g) (hx : x.wp D.contract (D.post call) g) :
    D.Balanced s' (Function.update rest t (some (call, x))) history'
      (Function.update has t (some g)) := by
  refine ⟨hfits, ?_, ?_⟩
  · intro u hu
    by_cases hut : u = t
    · subst hut
      rw [Function.update_self] at hu
      exact absurd hu (by simp)
    · rw [Function.update_of_ne hut] at hu ⊢
      exact h.idle u hu
  · intro u call' y hu
    by_cases hut : u = t
    · subst hut
      rw [Function.update_self, Option.some.injEq, Prod.mk.injEq] at hu
      obtain ⟨rfl, rfl⟩ := hu
      exact ⟨g, Function.update_self .., hduring, hx⟩
    · rw [Function.update_of_ne hut] at hu ⊢
      exact h.running u call' y hu

theorem Balanced.stop (h : D.Balanced s rest history has) {t : T}
    (hfits : D.fits s (Function.update has t none) history') :
    D.Balanced s (Function.update rest t none) history' (Function.update has t none) := by
  refine ⟨hfits, ?_, ?_⟩
  · intro u hu
    by_cases hut : u = t
    · subst hut
      exact Function.update_self ..
    · rw [Function.update_of_ne hut] at hu ⊢
      exact h.idle u hu
  · intro u call x hu
    by_cases hut : u = t
    · subst hut
      rw [Function.update_self] at hu
      exact absurd hu (by simp)
    · rw [Function.update_of_ne hut] at hu ⊢
      exact h.running u call x hu

/-- **The rule for ledgers**: a ledger that is kept is balanced in every configuration
reached. -/
theorem Kept.reach {ok : Config T C A ε K R σ → Move T C A ε K R → Prop} {init : σ}
    (hk : D.Kept S ok) (hinit : D.fits init (fun _ => none) []) {cfg : Config T C A ε K R σ}
    (h : Reach S ok (.initial init) cfg) :
    ∃ has, D.Balanced cfg.shared cfg.rest cfg.history has := by
  refine Reach.invariant (fun s rest history => ∃ has, D.Balanced s rest history has)
    ?_ ?_ ?_ ?_ ?_ h
  · exact ⟨fun _ => none, hinit, fun _ _ => rfl,
      fun t call x hx => absurd hx (by simp [Config.rest, Config.initial, Thread.rest])⟩
  · rintro cfg t call ⟨has, hb⟩ hidle hmay hok
    obtain ⟨g, hfits, hduring, hx⟩ := hk.start cfg has t call hb hidle hmay hok
    exact ⟨_, hb.run hfits hduring hx⟩
  · rintro cfg t call c next r s' ⟨has, hb⟩ hrest hans hok
    obtain ⟨g, hg, hduring, hreq, hnext⟩ := hb.running t call _ hrest
    obtain ⟨g', hallowed, hduring', hfits⟩ :=
      hk.answer cfg has t call c next r s' g hb hrest hg hduring hreq hans hok
    exact ⟨_, hb.run hfits hduring' (hnext r g' hallowed)⟩
  · rintro cfg t call a ⟨has, hb⟩ hrest hok
    obtain ⟨g, hg, hduring, hpost⟩ := hb.running t call _ hrest
    exact ⟨_, hb.stop (hk.finish cfg has t call _ g hb hg hduring hpost hok)⟩
  · rintro cfg t call e ⟨has, hb⟩ hrest hok
    obtain ⟨g, hg, hduring, hpost⟩ := hb.running t call _ hrest
    exact ⟨_, hb.stop (hk.finish cfg has t call _ g hb hg hduring hpost hok)⟩

end Ledger

/-! ### Threads that rely on each other -/

/-- What threads promise each other.  A program is judged by a contract over what its thread
knows of the shared state, `G`. -/
structure Accord (T C : Type) (A : C → Type) (ε K R σ G : Type) where
  contract : Contract C A ε G
  /-- What holds of the shared state between any two steps. -/
  inv : σ → Prop
  /-- What holds of a thread that is in no call. -/
  free : T → σ → Prop
  /-- What a thread in a call knows is true. -/
  knows : T → G → σ → Prop
  /-- What a thread knows at the end of a call. -/
  post : K → Except ε R → G → Prop
  /-- What remains true of a call that has ended. -/
  done : K → Except ε R → σ → Prop

namespace Accord

variable {G : Type}

structure Holds (D : Accord T C A ε K R σ G) (s : σ) (rest : T → Option (K × Prog C A ε R))
    (history : List (Happened T ε K R)) : Prop where
  shared : D.inv s
  idle : ∀ t, rest t = none → D.free t s
  running : ∀ t call x, rest t = some (call, x) →
    ∃ g, D.knows t g s ∧ x.wp D.contract (D.post call) g
  finished : ∀ t call r, Happened.finished t call r ∈ history → D.done call r s

/-- What there is to show of the system: the first answer is one that the contract allows, and
the others lose nothing by it. -/
structure Kept (D : Accord T C A ε K R σ G) (S : System T C A ε K R σ) : Prop where
  start : ∀ s t call, D.inv s → D.free t s →
    ∃ g, D.knows t g s ∧ (S.body call).wp D.contract (D.post call) g
  answer : ∀ cfg t c r s' g, D.inv cfg.shared → D.knows t g cfg.shared →
    D.contract.requires g c → S.answers cfg t c r s' →
    D.inv s' ∧ ∃ g', D.contract.answers g c r g' ∧ D.knows t g' s'
  others : ∀ cfg t c r s' g u, D.inv cfg.shared → D.knows t g cfg.shared →
    D.contract.requires g c → S.answers cfg t c r s' → u ≠ t →
    (D.free u cfg.shared → D.free u s') ∧ ∀ g', D.knows u g' cfg.shared → D.knows u g' s'
  ended : ∀ cfg t c r s' g call r', D.inv cfg.shared → D.knows t g cfg.shared →
    D.contract.requires g c → S.answers cfg t c r s' →
    D.done call r' cfg.shared → D.done call r' s'
  finish : ∀ s t call r g, D.inv s → D.knows t g s → D.post call r g →
    D.free t s ∧ D.done call r s

variable {D : Accord T C A ε K R σ G}

/-- The ledger of what each thread knows. -/
def ledger (D : Accord T C A ε K R σ G) : Ledger T C A ε K R σ G where
  contract := D.contract
  during := fun _ _ => True
  post := D.post
  fits := fun s has history => D.inv s ∧ (∀ t, has t = none → D.free t s) ∧
    (∀ t g, has t = some g → D.knows t g s) ∧
    ∀ t call r, Happened.finished t call r ∈ history → D.done call r s

theorem Kept.ledger (hk : D.Kept S) (ok : Config T C A ε K R σ → Move T C A ε K R → Prop) :
    D.ledger.Kept S ok where
  start := by
    rintro cfg has t call ⟨⟨hinv, hfree, hknows, hdone⟩, hidle, -⟩ hrest - -
    obtain ⟨g, hg, hx⟩ := hk.start cfg.shared t call hinv (hfree t (hidle t hrest))
    refine ⟨g, ⟨hinv, ?_, ?_, ?_⟩, trivial, hx⟩
    · intro u hu
      by_cases hut : u = t
      · subst hut
        rw [Function.update_self] at hu
        exact absurd hu (by simp)
      · rw [Function.update_of_ne hut] at hu
        exact hfree u hu
    · intro u g' hu
      by_cases hut : u = t
      · subst hut
        rw [Function.update_self, Option.some.injEq] at hu
        exact hu ▸ hg
      · rw [Function.update_of_ne hut] at hu
        exact hknows u g' hu
    · intro u call' r hmem
      rcases List.mem_cons.mp hmem with heq | hmem
      · exact absurd heq (by simp)
      · exact hdone u call' r hmem
  answer := by
    rintro cfg has t call c next r s' g ⟨⟨hinv, hfree, hknows, hdone⟩, -, -⟩ - hg - hreq hans -
    have hgt := hknows t g hg
    obtain ⟨hs', g', hallowed, hg'⟩ := hk.answer cfg t c r s' g hinv hgt hreq hans
    refine ⟨g', hallowed, trivial, hs', ?_, ?_, ?_⟩
    · intro u hu
      by_cases hut : u = t
      · subst hut
        rw [Function.update_self] at hu
        exact absurd hu (by simp)
      · rw [Function.update_of_ne hut] at hu
        exact (hk.others cfg t c r s' g u hinv hgt hreq hans hut).1 (hfree u hu)
    · intro u g'' hu
      by_cases hut : u = t
      · subst hut
        rw [Function.update_self, Option.some.injEq] at hu
        exact hu ▸ hg'
      · rw [Function.update_of_ne hut] at hu
        exact (hk.others cfg t c r s' g u hinv hgt hreq hans hut).2 g'' (hknows u g'' hu)
    · intro u call' r' hmem
      exact hk.ended cfg t c r s' g call' r' hinv hgt hreq hans (hdone u call' r' hmem)
  finish := by
    rintro cfg has t call r g ⟨⟨hinv, hfree, hknows, hdone⟩, -, -⟩ hg - hpost -
    obtain ⟨hfree', hdone'⟩ := hk.finish cfg.shared t call r g hinv (hknows t g hg) hpost
    refine ⟨hinv, ?_, ?_, ?_⟩
    · intro u hu
      by_cases hut : u = t
      · subst hut
        exact hfree'
      · rw [Function.update_of_ne hut] at hu
        exact hfree u hu
    · intro u g' hu
      by_cases hut : u = t
      · subst hut
        rw [Function.update_self] at hu
        exact absurd hu (by simp)
      · rw [Function.update_of_ne hut] at hu
        exact hknows u g' hu
    · intro u call' r' hmem
      rcases List.mem_cons.mp hmem with heq | hmem
      · cases heq
        exact hdone'
      · exact hdone u call' r' hmem

/-- **The rule for threads that rely on each other**: what an accord says holds in every
configuration reached. -/
theorem Kept.reach {ok : Config T C A ε K R σ → Move T C A ε K R → Prop} {init : σ}
    (hk : D.Kept S) (hinv : D.inv init) (hfree : ∀ t, D.free t init)
    {cfg : Config T C A ε K R σ} (h : Reach S ok (.initial init) cfg) :
    D.Holds cfg.shared cfg.rest cfg.history := by
  have hinit : D.ledger.fits init (fun _ => none) [] :=
    ⟨hinv, fun t _ => hfree t, fun _ _ hg => absurd hg (by simp),
      fun _ _ _ hmem => absurd hmem List.not_mem_nil⟩
  obtain ⟨has, ⟨hinv, hfree, hknows, hdone⟩, hidle, hrunning⟩ := (hk.ledger ok).reach hinit h
  refine ⟨hinv, fun t ht => hfree t (hidle t ht), ?_, hdone⟩
  intro t call x hrest
  obtain ⟨g, hg, -, hx⟩ := hrunning t call x hrest
  exact ⟨g, hknows t g hg, hx⟩

end Accord

/-! ### Traces -/

/-- The commands performed so far, newest first, each with its thread. -/
abbrev Trace (T C : Type) (A : C → Type) (ε : Type) := List (T × Answered C A ε)

/-- The configuration without the trace. -/
def Config.bare {τ : Type} (cfg : Config T C A ε K R (σ × τ)) : Config T C A ε K R σ where
  shared := cfg.shared.1
  thread := cfg.thread
  history := cfg.history

/-- The same threads; a trace of what is performed is kept beside the shared state. -/
def System.traced (S : System T C A ε K R σ) :
    System T C A ε K R (σ × Trace T C A ε) where
  body := S.body
  mayStart := fun cfg call => S.mayStart cfg.bare call
  answers := fun cfg t c r s => S.answers cfg.bare t c r s.1 ∧ s.2 = (t, ⟨c, r⟩) :: cfg.shared.2

/-- **Every run has a trace.** -/
theorem Reach.traced {ok : Config T C A ε K R σ → Move T C A ε K R → Prop} {init : σ}
    {cfg : Config T C A ε K R σ} (h : Reach S ok (.initial init) cfg) :
    ∃ cfg', Reach S.traced (fun cfg m => ok cfg.bare m) (.initial (init, [])) cfg' ∧
      cfg'.bare = cfg := by
  induction h with
  | refl => exact ⟨_, .refl, rfl⟩
  | @step cfg cfg' m before met step ih =>
    obtain ⟨traced, hreach, rfl⟩ := ih
    cases step with
    | start idle may => exact ⟨_, hreach.step met (.start idle may), rfl⟩
    | request running => exact ⟨_, hreach.step met (.request running), rfl⟩
    | @answer t call c next r s waiting answered =>
      -- the only step that the trace records
      have hstep : Step S.traced traced (.answer t call c r) _ :=
        .answer (s := (s, (t, ⟨c, r⟩) :: traced.shared.2)) waiting ⟨answered, rfl⟩
      exact ⟨_, hreach.step met hstep, rfl⟩
    | returned running => exact ⟨_, hreach.step met (.returned running), rfl⟩
    | raised running => exact ⟨_, hreach.step met (.raised running), rfl⟩

end Programs
