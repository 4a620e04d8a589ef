/-
The flag that is set before the library is loaded.

Any number of threads run a loader over one process.  All three loaders set
`loaded` first and load afterwards, so that a call that finds the flag set
returns at once, also while the first one is still at work and after it has
failed.

* `loadSystem` — the threads of one module over a `Process`;
* `FlagSound` — a step finds the flag set only when the library is loaded;
* `Loads` — a program returns, and uses the symbols, only once it knows that the
  library is loaded; every loader does, if what it finds of the flag is true;
* `notTooEarly_of_flagSound` — so runs in which the flag is sound are right;
* `returns_too_early` — and one step in which it is not can be followed by a
  return without the library.
-/
import Blake3Kmp.Loader
import Blake3Kmp.Threads

open Programs Prog

namespace Blake3Kmp

open Loader

/-! ### The process -/

structure Process where
  /-- The flag. -/
  loaded : Bool
  /-- The `lazy` value of `lookup` is there. -/
  lookup : Bool
  /-- The thread that holds the lock of `lookup`. -/
  holder : Option ℕ
  /-- The native library has been loaded into the process. -/
  library : Bool

/-- What thread `t` may be answered.  Everything outside may fail or say anything; a load that
does not fail has loaded the library. -/
def Process.answers (t : ℕ) (s : Process) :
    (c : LoaderCmd) → Except Throwable c.Answer → Process → Prop
  | .getAndSet, r, s' => r = .ok s.loaded ∧ s' = { s with loaded := true }
  | .load _, .ok _, s' => s' = { s with library := true }
  | .loadLibrary _, .ok _, s' => s' = { s with library := true }
  | .readLookup, r, s' => r = .ok s.lookup ∧ s' = s
  | .lockLookup, r, s' => s.holder = none ∧ r = .ok () ∧ s' = { s with holder := some t }
  | .unlockLookup, r, s' => r = .ok () ∧ s' = { s with holder := none }
  | .writeLookup, r, s' => r = .ok () ∧ s' = { s with lookup := true }
  | _, _, s' => s' = s

/-- The three modules, each with a flag of its own. -/
inductive LoaderModule
  | jvm
  | android
  | ffm

inductive LoaderCall
  | loadNativeLibrary
  | lookup

def loaderBody (lowercase : String → String) : LoaderModule → LoaderCall → LoaderProg Unit
  | .jvm, _ => Jvm.loadNativeLibrary lowercase
  | .android, _ => Android.loadNativeLibrary lowercase
  | .ffm, .loadNativeLibrary => Ffm.loadNativeLibrary lowercase
  | .ffm, .lookup => Ffm.lookup lowercase

abbrev LoaderConfig := Config ℕ LoaderCmd LoaderCmd.Answer Throwable LoaderCall Unit Process

abbrev LoaderMove := Move ℕ LoaderCmd LoaderCmd.Answer Throwable LoaderCall Unit

/-- The threads of one module; only the FFM module has a `lookup`. -/
def loadSystem (lowercase : String → String) (m : LoaderModule) :
    System ℕ LoaderCmd LoaderCmd.Answer Throwable LoaderCall Unit Process where
  body := loaderBody lowercase m
  mayStart := fun _ call => call = .loadNativeLibrary ∨ m = .ffm
  answers := fun cfg t c r s => cfg.shared.answers t c r s

/-- A process in which nothing has been loaded. -/
def freshProcess : LoaderConfig := .initial ⟨false, false, none, false⟩

/-- The step does not find the flag set without the library. -/
def FlagSound (cfg : LoaderConfig) (m : LoaderMove) : Prop :=
  ∀ t call r, m = .answer t call .getAndSet r → cfg.shared.loaded = true →
    cfg.shared.library = true

/-- No caller has got past `loadNativeLibrary` without the library: no call has returned, and
no `lookup` has come to its next step. -/
structure NotTooEarly (cfg : LoaderConfig) : Prop where
  returned : ∀ t call, Happened.finished t call (.ok ()) ∈ cfg.history →
    cfg.shared.library = true
  lookedUp : ∀ t call next, cfg.rest t = some (call, .perform .loaderLookup next) →
    cfg.shared.library = true

/-! ### What a loader knows -/

/-- The answer shows that the library is loaded. -/
def teaches : (c : LoaderCmd) → Except Throwable c.Answer → Bool
  | .getAndSet, .ok found => found
  | .load _, .ok _ => true
  | .loadLibrary _, .ok _ => true
  | .readLookup, .ok there => there
  | _, _ => false

/-- The symbols are used only once the library is known to be loaded. -/
def loaderContract : Contract LoaderCmd LoaderCmd.Answer Throwable Bool where
  requires := fun known c => c = .loaderLookup ∨ c = .writeLookup → known = true
  answers := fun known c r known' => known' = (known || teaches c r)

/-- The program returns only once the library is known to be loaded. -/
def Loads (x : LoaderProg Unit) : Prop :=
  x.wp loaderContract (fun r known => r = .ok () → known = true) false

/-- The program uses no symbols. -/
def Plain {α : Type} (x : LoaderProg α) : Prop :=
  ∀ known, x.wp loaderContract (fun _ _ => True) known

section

variable {α β : Type}

theorem wp_known (x : LoaderProg α) : x.wp loaderContract (fun _ known => known = true) true := by
  refine wp_invariant ?_ ?_ x rfl
  · intro known c hk _
    exact hk
  · intro known c r known' hk hr
    rw [show known' = (known || teaches c r) from hr, hk]
    rfl

theorem loads_known (x : LoaderProg Unit) :
    x.wp loaderContract (fun r known => r = .ok () → known = true) true := by
  refine wp_mono ?_ (wp_known x)
  intro r known h _
  exact h

theorem plain_pure (a : α) : Plain (.pure a : LoaderProg α) := fun _ => trivial

theorem plain_raise (e : Throwable) : Plain (.raise e : LoaderProg α) := fun _ => trivial

theorem plain_request {c : LoaderCmd} (h : c ≠ .loaderLookup) (h' : c ≠ .writeLookup) :
    Plain (request c : LoaderProg c.Answer) := by
  intro known
  refine wp_request ?_ fun _ _ _ => trivial
  rintro (hc | hc)
  · exact absurd hc h
  · exact absurd hc h'

theorem Plain.bind {x : LoaderProg α} {f : α → LoaderProg β} (hx : Plain x)
    (hf : ∀ a, Plain (f a)) : Plain (x.bind f) := by
  intro known
  refine wp_bind (wp_mono ?_ (hx known))
  intro r known' _
  cases r with
  | ok a => exact hf a known'
  | error e => trivial

theorem Plain.tryCatch {x : LoaderProg α} {handler : Throwable → LoaderProg α} (hx : Plain x)
    (hh : ∀ e, Plain (handler e)) : Plain (x.tryCatch handler) := by
  intro known
  refine wp_tryCatch (wp_mono ?_ (hx known))
  intro r known' _
  cases r with
  | ok a => trivial
  | error e => exact hh e known'

theorem Plain.closing {release : LoaderProg Unit} {x : LoaderProg α} (hr : Plain release)
    (hx : Plain x) : Plain (closing release x) := by
  have hcatch : ∀ e, Plain ((release.tryCatch fun _ => .pure ()).bind fun _ =>
      (.raise e : LoaderProg α)) := fun e =>
    (hr.tryCatch fun _ => plain_pure ()).bind fun _ => plain_raise e
  exact (hx.tryCatch hcatch).bind fun a => hr.bind fun _ => plain_pure a

/-- First something else, then a load. -/
theorem Loads.after {x : LoaderProg α} {f : α → LoaderProg Unit} (hx : Plain x)
    (hf : ∀ a, Loads (f a)) : Loads (x.bind f) := by
  refine wp_bind (wp_mono ?_ (hx false))
  intro r known _
  cases r with
  | error e => exact fun h => absurd h (by simp)
  | ok a =>
    cases known with
    | false => exact hf a
    | true => exact loads_known (f a)

/-- First a load, then anything. -/
theorem Loads.before {x : LoaderProg Unit} (hx : Loads x) (f : Unit → LoaderProg Unit) :
    Loads (x.bind f) := by
  refine wp_bind (wp_mono ?_ hx)
  intro r known h
  cases r with
  | error e => exact fun h' => absurd h' (by simp)
  | ok a =>
    obtain rfl := h rfl
    exact loads_known (f a)

theorem Loads.closing {release body : LoaderProg Unit} (hr : Plain release) (hb : Loads body) :
    Loads (closing release body) := by
  refine wp_closing hb ?_ ?_
  · intro a known h
    obtain rfl := h rfl
    refine wp_mono ?_ (wp_known release)
    intro r known' h'
    cases r with
    | ok u => exact fun _ => h'
    | error e => exact fun h'' => absurd h'' (by simp)
  · intro e known _
    exact wp_mono (fun _ _ _ h => absurd h (by simp)) (hr known)

/-- A program that ends at once when the answer says that the library is loaded. -/
theorem Loads.unless {x : LoaderProg Bool} {rest : LoaderProg Unit}
    (hx : ∀ known, x.wp loaderContract (fun r known' => r = .ok true → known' = true) known)
    (hrest : Loads rest) : Loads (x.bind fun found => if found then .pure () else rest) := by
  refine wp_bind (wp_mono ?_ (hx false))
  intro r known h
  cases r with
  | error e => exact fun h' => absurd h' (by simp)
  | ok found =>
    cases found with
    | true => exact fun _ => h rfl
    | false =>
      cases known with
      | false => exact hrest
      | true => exact loads_known rest

end

/-! ### The loaders -/

/-- The answer to one command, when it says whether the library is loaded. -/
theorem wp_teaches {c : LoaderCmd} (h : c ≠ .loaderLookup) (h' : c ≠ .writeLookup)
    (known : Bool) : (request c : LoaderProg c.Answer).wp loaderContract
      (fun r known' => teaches c r = true → known' = true) known := by
  refine wp_request ?_ ?_
  · rintro (hc | hc)
    · exact absurd hc h
    · exact absurd hc h'
  · intro r known' hr ht
    rw [show known' = (known || teaches c r) from hr, ht, Bool.or_true]

theorem wp_getAndSet (known : Bool) :
    getAndSet.wp loaderContract (fun r known' => r = .ok true → known' = true) known := by
  refine wp_mono ?_ (wp_teaches (c := .getAndSet) nofun nofun known)
  rintro r known' h rfl
  exact h rfl

theorem wp_readLookup (known : Bool) :
    readLookup.wp loaderContract (fun r known' => r = .ok true → known' = true) known := by
  refine wp_mono ?_ (wp_teaches (c := .readLookup) nofun nofun known)
  rintro r known' h rfl
  exact h rfl

theorem loads_load (path : String) : Loads (load path) := by
  refine wp_mono ?_ (wp_teaches (c := .load path) nofun nofun false)
  rintro r known h rfl
  exact h rfl

theorem loads_loadLibrary (name : String) : Loads (loadLibrary name) := by
  refine wp_mono ?_ (wp_teaches (c := .loadLibrary name) nofun nofun false)
  rintro r known h rfl
  exact h rfl

theorem loads_raise (e : Throwable) : Loads (.raise e) := fun h => absurd h (by simp)

theorem plain_firstResource (paths : List String) : Plain (firstResource paths) := by
  induction paths with
  | nil => exact plain_pure false
  | cons path paths ih =>
    refine Plain.bind (plain_request (c := .getResource path) nofun nofun) fun found => ?_
    by_cases hf : found = true
    · rw [if_pos hf]
      exact plain_pure true
    · rw [if_neg hf]
      exact ih

theorem plain_property (lowercase : String → String) (name : String) :
    Plain (property lowercase name) :=
  Plain.bind (plain_request (c := .getProperty name) nofun nofun) fun _ => plain_pure _

theorem plain_propertyOf (lowercase : String → String) (name : String) :
    Plain (propertyOf lowercase name) := by
  refine Plain.bind (plain_request (c := .getProperty name) nofun nofun) fun value => ?_
  cases value with
  | none => exact plain_raise _
  | some value => exact plain_pure _

theorem loads_copyAndLoad (start : String) : Loads (copyAndLoad start) := by
  refine Loads.after (plain_request (c := .createTempFile start) nofun nofun) fun tempFile => ?_
  refine Loads.after (plain_request (c := .deleteOnExit tempFile) nofun nofun) fun _ => ?_
  refine Loads.after (Plain.closing (plain_request (c := .closeStream) nofun nofun)
    (plain_request (c := .copy tempFile) nofun nofun)) fun _ => ?_
  exact loads_load tempFile

theorem loads_loadDesktop (start osName osArch : String) :
    Loads (loadDesktop start osName osArch) := by
  rw [loadDesktop]
  cases libName osName osArch with
  | error e => exact loads_raise e
  | ok lib =>
    refine Loads.after (plain_firstResource _) fun found => ?_
    by_cases hf : found = true
    · rw [if_pos hf]
      exact loads_copyAndLoad start
    · rw [if_neg hf]
      refine wp_tryCatch (wp_mono ?_ (loads_loadLibrary _))
      intro r known h
      cases r with
      | ok u => exact h
      | error e => exact fun h' => absurd h' (by simp)

theorem loads_jvm (lowercase : String → String) : Loads (Jvm.loadNativeLibrary lowercase) := by
  refine Loads.unless wp_getAndSet ?_
  refine Loads.after (plain_property lowercase _) fun osName => ?_
  refine Loads.after (plain_property lowercase _) fun osArch => ?_
  exact loads_loadDesktop "blake3-kmp" osName osArch

theorem loads_ffm (lowercase : String → String) : Loads (Ffm.loadNativeLibrary lowercase) := by
  refine Loads.unless wp_getAndSet ?_
  refine Loads.after (plain_propertyOf lowercase _) fun osName => ?_
  refine Loads.after (plain_propertyOf lowercase _) fun osArch => ?_
  exact loads_loadDesktop "blake3-ffm" osName osArch

theorem loads_android (lowercase : String → String) :
    Loads (Android.loadNativeLibrary lowercase) := by
  refine Loads.unless wp_getAndSet ?_
  -- the packaged library, or an error that falls through
  refine Loads.unless ?_ ?_
  · intro known
    refine wp_tryCatch (wp_bind (wp_mono ?_ (wp_teaches (c := .loadLibrary _) nofun nofun known)))
    intro r known' h
    cases r with
    | ok u => exact fun _ => h rfl
    | error e =>
      show Prog.wp _ _ (if _ then _ else _) _
      by_cases he : e.cls = .unsatisfiedLinkError
      · rw [if_pos he]
        exact fun h' => absurd h' (by simp)
      · rw [if_neg he]
        exact fun h' => absurd h' (by simp)
  · refine Loads.after (plain_property lowercase _) fun osName => ?_
    refine Loads.after (plain_property lowercase _) fun osArch => ?_
    cases libName osName osArch with
    | error e => exact loads_raise e
    | ok lib =>
      refine Loads.after (plain_firstResource _) fun found => ?_
      by_cases hf : found = true
      · rw [if_pos hf]
        exact loads_copyAndLoad "blake3-kmp"
      · rw [if_neg hf]
        exact loads_raise _

theorem loads_lookup (lowercase : String → String) : Loads (Ffm.lookup lowercase) := by
  refine Loads.unless wp_readLookup ?_
  refine Loads.after (plain_request (c := .lockLookup) nofun nofun) fun _ => ?_
  refine Loads.closing (plain_request (c := .unlockLookup) nofun nofun) ?_
  refine Loads.unless wp_readLookup ?_
  exact (loads_ffm lowercase).before _

/-- **Every loader returns only once it knows that the library is loaded**, if what the flag
tells it is true. -/
theorem loads_loaderBody (lowercase : String → String) (m : LoaderModule) (call : LoaderCall) :
    Loads (loaderBody lowercase m call) := by
  cases m with
  | jvm => exact loads_jvm lowercase
  | android => exact loads_android lowercase
  | ffm =>
    cases call with
    | loadNativeLibrary => exact loads_ffm lowercase
    | lookup => exact loads_lookup lowercase

/-! ### Runs -/

/-- The library stays loaded. -/
theorem Process.answers_library {t : ℕ} {s s' : Process} {c : LoaderCmd}
    {r : Except Throwable c.Answer} (h : s.answers t c r s') (hs : s.library = true) :
    s'.library = true := by
  cases c with
  | getAndSet =>
    obtain ⟨-, rfl⟩ := h
    exact hs
  | load path =>
    cases r with
    | ok u =>
      obtain rfl := h
      rfl
    | error e =>
      obtain rfl := h
      exact hs
  | loadLibrary name =>
    cases r with
    | ok u =>
      obtain rfl := h
      rfl
    | error e =>
      obtain rfl := h
      exact hs
  | readLookup =>
    obtain ⟨-, rfl⟩ := h
    exact hs
  | lockLookup =>
    obtain ⟨-, -, rfl⟩ := h
    exact hs
  | unlockLookup =>
    obtain ⟨-, rfl⟩ := h
    exact hs
  | writeLookup =>
    obtain ⟨-, rfl⟩ := h
    exact hs
  | _ =>
    obtain rfl := h
    exact hs

/-- Only storing it sets the value of `lookup`. -/
theorem Process.answers_lookup {t : ℕ} {s s' : Process} {c : LoaderCmd}
    {r : Except Throwable c.Answer} (h : s.answers t c r s') (hc : c ≠ .writeLookup) :
    s'.lookup = s.lookup := by
  cases c with
  | getAndSet => rw [h.2]
  | load path =>
    cases r with
    | ok u => rw [show s' = _ from h]
    | error e => rw [show s' = _ from h]
  | loadLibrary name =>
    cases r with
    | ok u => rw [show s' = _ from h]
    | error e => rw [show s' = _ from h]
  | readLookup => rw [h.2]
  | lockLookup => rw [h.2.2]
  | unlockLookup => rw [h.2]
  | writeLookup => exact absurd rfl hc
  | _ => rw [show s' = _ from h]

/-- An answer that shows that the library is loaded is right, if the flag and the value of
`lookup` are. -/
theorem Process.answers_teaches {t : ℕ} {s s' : Process} {c : LoaderCmd}
    {r : Except Throwable c.Answer} (h : s.answers t c r s')
    (hflag : c = .getAndSet → s.loaded = true → s.library = true)
    (hlookup : s.lookup = true → s.library = true) (ht : teaches c r = true) :
    s'.library = true := by
  cases c with
  | getAndSet =>
    obtain ⟨rfl, rfl⟩ := h
    exact hflag rfl ht
  | load path =>
    cases r with
    | ok u =>
      obtain rfl := h
      rfl
    | error e => exact absurd ht Bool.false_ne_true
  | loadLibrary name =>
    cases r with
    | ok u =>
      obtain rfl := h
      rfl
    | error e => exact absurd ht Bool.false_ne_true
  | readLookup =>
    obtain ⟨rfl, rfl⟩ := h
    exact hlookup ht
  | _ => exact absurd ht Bool.false_ne_true

/-- What runs keep in which the flag is sound. -/
structure Sound (s : Process) (rest : ℕ → Option (LoaderCall × LoaderProg Unit))
    (history : List (Happened ℕ Throwable LoaderCall Unit)) : Prop where
  lookup : s.lookup = true → s.library = true
  returned : ∀ t call, Happened.finished t call (.ok ()) ∈ history → s.library = true
  loads : ∀ t call x, rest t = some (call, x) → s.library = true ∨ Loads x

theorem sound_of_reach {lowercase : String → String} {m : LoaderModule} {cfg : LoaderConfig}
    (h : Reach (loadSystem lowercase m) FlagSound freshProcess cfg) :
    Sound cfg.shared cfg.rest cfg.history := by
  refine Reach.invariant Sound ?_ ?_ ?_ ?_ ?_ h
  · exact ⟨fun h => absurd h (by simp [freshProcess, Config.initial]),
      fun t call h => absurd h (by simp [freshProcess, Config.initial]),
      fun t call x h => absurd h (by simp [Config.rest, freshProcess, Config.initial, Thread.rest])⟩
  · intro cfg t call hI hidle hmay hok
    refine ⟨hI.lookup, ?_, ?_⟩
    · intro u call' hmem
      rcases List.mem_cons.mp hmem with heq | hmem
      · exact absurd heq (by simp)
      · exact hI.returned u call' hmem
    · intro u call' x hu
      by_cases hut : u = t
      · subst hut
        rw [Function.update_self, Option.some.injEq, Prod.mk.injEq] at hu
        obtain ⟨-, rfl⟩ := hu
        exact .inr (loads_loaderBody lowercase m call)
      · rw [Function.update_of_ne hut] at hu
        exact hI.loads u call' x hu
  · intro cfg t call c next r s hI hrest hans hok
    have hans : cfg.shared.answers t c r s := hans
    by_cases hlib : s.library = true
    · exact ⟨fun _ => hlib, fun _ _ _ => hlib, fun _ _ _ _ => .inl hlib⟩
    -- the library is not loaded yet
    have hbefore : ¬ cfg.shared.library = true := fun h => hlib (Process.answers_library hans h)
    obtain ⟨hreq, hnext⟩ := (hI.loads t call _ hrest).resolve_left hbefore
    have hc : c ≠ .writeLookup := fun hc => absurd (hreq (.inr hc)) (by simp)
    have ht : teaches c r = false := by
      by_contra hne
      refine hlib (Process.answers_teaches hans ?_ hI.lookup (Bool.eq_true_of_not_eq_false hne))
      intro hget hflag
      subst hget
      exact hok t call r rfl hflag
    refine ⟨?_, ?_, ?_⟩
    · rw [Process.answers_lookup hans hc]
      exact fun h => absurd (hI.lookup h) hbefore
    · exact fun u call' h => absurd (hI.returned u call' h) hbefore
    · intro u call' x hu
      by_cases hut : u = t
      · subst hut
        rw [Function.update_self, Option.some.injEq, Prod.mk.injEq] at hu
        obtain ⟨-, rfl⟩ := hu
        exact .inr (hnext r false ht.symm)
      · rw [Function.update_of_ne hut] at hu
        exact .inr ((hI.loads u call' x hu).resolve_left hbefore)
  · intro cfg t call a hI hrest hok
    -- a program that returns knows of the library
    have hlib : cfg.shared.library = true := by
      rcases hI.loads t call _ hrest with hlib | hloads
      · exact hlib
      · exact absurd (hloads rfl) (by simp)
    exact ⟨fun _ => hlib, fun _ _ _ => hlib, fun _ _ _ _ => .inl hlib⟩
  · intro cfg t call e hI hrest hok
    refine ⟨hI.lookup, ?_, ?_⟩
    · intro u call' hmem
      rcases List.mem_cons.mp hmem with heq | hmem
      · exact absurd heq (by simp)
      · exact hI.returned u call' hmem
    · intro u call' x hu
      by_cases hut : u = t
      · subst hut
        rw [Function.update_self] at hu
        exact absurd hu (by simp)
      · rw [Function.update_of_ne hut] at hu
        exact hI.loads u call' x hu

/-- **Nobody gets past the loader without the library**, in every run of every module in which
no step finds the flag set before the library is loaded. -/
theorem notTooEarly_of_flagSound (lowercase : String → String) (m : LoaderModule) :
    ∀ cfg, Reach (loadSystem lowercase m) FlagSound freshProcess cfg → NotTooEarly cfg := by
  intro cfg h
  have hs := sound_of_reach h
  refine ⟨hs.returned, ?_⟩
  intro t call next hrest
  rcases hs.loads t call _ hrest with hlib | hloads
  · exact hlib
  · exact absurd (hloads.1 (.inl rfl)) (by simp)

/-- One thread loads the packaged library on Android, and returns. -/
theorem notTooEarly_of_flagSound_android :
    ∃ cfg, Reach (loadSystem String.toLower .android) FlagSound freshProcess cfg ∧
      Happened.finished 0 .loadNativeLibrary (.ok ()) ∈ cfg.history ∧
      cfg.shared.library = true := by
  have hrun : Reach (loadSystem String.toLower .android) FlagSound freshProcess _ :=
    Reach.refl.step nofun (.start (t := 0) rfl (.inl rfl))
  have hrun := hrun.perform (t := 0) (c := .getAndSet) rfl (.ok false) ⟨true, false, none, false⟩
    ⟨rfl, rfl⟩ nofun fun _ _ _ _ hset => absurd hset (by decide)
  have hrun := hrun.perform (t := 0) (c := .loadLibrary "blake3-kmp") rfl (.ok ())
    ⟨true, false, none, true⟩ rfl nofun nofun
  have hrun := hrun.step (m := .finish 0 .loadNativeLibrary (.ok ())) nofun (.returned rfl)
  refine ⟨_, hrun, List.mem_cons_self, ?_⟩
  exact (notTooEarly_of_flagSound String.toLower .android _ hrun).returned 0 .loadNativeLibrary
    List.mem_cons_self

/-! ### The flag set, and no library -/

/-- Every loader asks for the flag first, and returns at once when it was set. -/
theorem loaderBody_flag (lowercase : String → String) (m : LoaderModule) :
    ∃ next, loaderBody lowercase m .loadNativeLibrary = .perform .getAndSet next ∧
      next (.ok true) = .pure () := by
  cases m with
  | jvm => exact ⟨_, rfl, rfl⟩
  | android => exact ⟨_, rfl, rfl⟩
  | ffm => exact ⟨_, rfl, rfl⟩

/-- **The other direction**: once the flag is set and the library is not loaded, because a load
is still going on or has failed, the next call of an idle thread may return without it. -/
theorem returns_too_early {lowercase : String → String} {m : LoaderModule} {cfg : LoaderConfig}
    (hreach : Reach (loadSystem lowercase m) Anything freshProcess cfg) {t : ℕ}
    (hidle : cfg.thread t = .idle) (hflag : cfg.shared.loaded = true)
    (hlib : cfg.shared.library = false) :
    ∃ cfg', Reach (loadSystem lowercase m) Anything freshProcess cfg' ∧ ¬ NotTooEarly cfg' := by
  obtain ⟨next, hbody, hnext⟩ := loaderBody_flag lowercase m
  have hrun := hreach.step trivial (Step.start hidle (.inl rfl))
  have hrun := hrun.perform (t := t) (c := .getAndSet)
    (by rw [← hbody]; exact Function.update_self ..) (.ok true) cfg.shared
    ⟨by rw [← hflag]; rfl, by rw [← hflag]; rfl⟩ trivial trivial
  have hrun := hrun.step trivial (.returned (t := t)
    (by rw [← hnext]; exact Function.update_self ..))
  refine ⟨_, hrun, ?_⟩
  intro h
  have hloaded : cfg.shared.library = true :=
    h.returned t .loadNativeLibrary List.mem_cons_self
  rw [hlib] at hloaded
  exact absurd hloaded (by simp)

/-- A second thread calls while the first one has only set the flag. -/
theorem notTooEarly_fails_jvm :
    ¬ ∀ cfg, Reach (loadSystem String.toLower .jvm) Anything freshProcess cfg →
      NotTooEarly cfg := by
  intro hall
  have hrun : Reach (loadSystem String.toLower .jvm) Anything freshProcess _ :=
    Reach.refl.step trivial (.start (t := 0) rfl (.inl rfl))
  have hrun := hrun.perform (t := 0) (c := .getAndSet) rfl (.ok false) ⟨true, false, none, false⟩
    ⟨rfl, rfl⟩ trivial trivial
  obtain ⟨cfg, hcfg, hearly⟩ := returns_too_early hrun (t := 1) rfl rfl rfl
  exact hearly (hall cfg hcfg)

end Blake3Kmp
