/-
Only one call loads, and it loads whole files.

`LoadOnce.lean` has what the flag of the loaders does not do.  Here is what it
does.  Whatever threads call, and however their steps interleave and fail, all
that is done to find, copy and load the library is one run of one call's code.

* `loading` — that code: what a loader does when it finds the flag clear;
* `LoadOrder` — what has been done before each step of it: a file is loaded only
  when it was created and copied whole, a library is asked for by name only when
  no load has been tried, and each is tried once;
* `loading_ordered` — for every answer, `loading` goes in this order, and it
  returns just when a load has succeeded (`LoadOutcome`);
* `Serial` — the code is in the hands of one thread at most, and the steps of the
  trace are a run of it; each step keeps this;
* `oneLoad_of_reach` — so there is one load in every run of every module.
-/
import Blake3Kmp.LoadOnce

open Programs Prog

namespace Blake3Kmp

open Loader

/-! ### The code that loads -/

/-- What is left of a loader once it has found the flag clear. -/
def afterFlag : LoaderProg Unit → LoaderProg Unit
  | .perform .getAndSet next => next (.ok false)
  | x => x

def loading (lowercase : String → String) (m : LoaderModule) : LoaderProg Unit :=
  afterFlag (loaderBody lowercase m .loadNativeLibrary)

/-- A command that looks for the library. -/
def LoaderCmd.looks : LoaderCmd → Bool
  | getProperty _ => true
  | getResource _ => true
  | _ => false

/-- A command that loads it. -/
def LoaderCmd.loads : LoaderCmd → Bool
  | load _ => true
  | loadLibrary _ => true
  | _ => false

/-- Any command of the code that loads. -/
def LoaderCmd.isLoading : LoaderCmd → Bool
  | getAndSet => false
  | readLookup => false
  | lockLookup => false
  | unlockLookup => false
  | loaderLookup => false
  | writeLookup => false
  | _ => true

abbrev LoaderEvent := Answered LoaderCmd LoaderCmd.Answer Throwable

/-- The flag was clear. -/
def flagWasClear : LoaderEvent → Bool
  | ⟨.getAndSet, .ok found⟩ => !found
  | _ => false

/-- A load that has succeeded. -/
def loadSucceeded : LoaderEvent → Bool
  | ⟨.load _, .ok _⟩ => true
  | ⟨.loadLibrary _, .ok _⟩ => true
  | _ => false

/-- What the commands before one have done, the newest first. -/
def LoadOrder (earlier : List LoaderEvent) : LoaderCmd → Prop
  | .createTempFile _ => ∀ start r, ⟨.createTempFile start, r⟩ ∉ earlier
  | .copy path => (∃ start, ⟨.createTempFile start, .ok path⟩ ∈ earlier) ∧
    ⟨.deleteOnExit path, .ok ()⟩ ∈ earlier ∧ ∀ p r, ⟨.copy p, r⟩ ∉ earlier
  | .load path => ⟨.copy path, .ok ()⟩ ∈ earlier ∧ ⟨.closeStream, .ok ()⟩ ∈ earlier ∧
    ∀ p r, ⟨.load p, r⟩ ∉ earlier
  | .loadLibrary _ => ∀ e ∈ earlier, e.cmd.loads = false
  | _ => True

/-- How a run ends: it returns just when a load has succeeded. -/
def LoadOutcome (r : Except Throwable Unit) (log : List LoaderEvent) : Prop :=
  r = .ok () ↔ ∃ e ∈ log, loadSucceeded e = true

/-- Nothing has been done but looking, and asking in vain for the packaged library. -/
def Looked (log : List LoaderEvent) : Prop :=
  ∀ e ∈ log, e.cmd.looks = true ∨ ∃ name error, e = ⟨.loadLibrary name, .error error⟩

/-- Nothing has been done but looking. -/
def OnlyLooked (log : List LoaderEvent) : Prop := ∀ e ∈ log, e.cmd.looks = true

theorem OnlyLooked.looked {log : List LoaderEvent} (h : OnlyLooked log) : Looked log :=
  fun e he => .inl (h e he)

theorem Looked.not_succeeded {log : List LoaderEvent} (h : Looked log) :
    ∀ e ∈ log, loadSucceeded e = false := by
  intro e he
  rcases h e he with hl | ⟨name, error, rfl⟩
  · obtain ⟨c, r⟩ := e
    cases c <;> simp [LoaderCmd.looks] at hl <;> rfl
  · rfl

theorem OnlyLooked.not_loads {log : List LoaderEvent} (h : OnlyLooked log) :
    ∀ e ∈ log, e.cmd.loads = false := by
  intro e he
  have hl := h e he
  cases hc : e.cmd <;> simp [LoaderCmd.looks, LoaderCmd.loads, hc] at hl ⊢

theorem Looked.not_mem {log : List LoaderEvent} (h : Looked log) {e : LoaderEvent}
    (hl : e.cmd.looks = false) (he : ∀ name error, e ≠ ⟨.loadLibrary name, .error error⟩) :
    e ∉ log := by
  intro hmem
  rcases h e hmem with h | ⟨name, error, h⟩
  · rw [hl] at h
    exact absurd h (by simp)
  · exact he name error h

section

variable {α : Type}

/-- Looking keeps what looking keeps. -/
theorem wp_looks {I : List LoaderEvent → Prop}
    (hI : ∀ log (e : LoaderEvent), I log → e.cmd.looks = true → I (e :: log))
    {x : LoaderProg α} (hx : x.Only fun c => c.looks = true) {log : List LoaderEvent}
    (h : I log) : x.wp (logged LoadOrder) (fun _ log => I log) log := by
  refine wp_only_keeps ?_ ?_ hx h
  · intro log c _ hc
    cases c <;> simp [LoaderCmd.looks] at hc <;> exact trivial
  · rintro log c r _ hlog hc rfl
    exact hI log ⟨c, r⟩ hlog hc

theorem looked_cons (log : List LoaderEvent) (e : LoaderEvent) (h : Looked log)
    (he : e.cmd.looks = true) : Looked (e :: log) := by
  intro e' h'
  rcases List.mem_cons.mp h' with rfl | h'
  · exact .inl he
  · exact h e' h'

theorem onlyLooked_cons (log : List LoaderEvent) (e : LoaderEvent) (h : OnlyLooked log)
    (he : e.cmd.looks = true) : OnlyLooked (e :: log) := by
  intro e' h'
  rcases List.mem_cons.mp h' with rfl | h'
  · exact he
  · exact h e' h'

theorem looks_firstResource (paths : List String) :
    (firstResource paths).Only fun c => c.looks = true := by
  induction paths with
  | nil => exact trivial
  | cons path paths ih =>
    have hget : (getResource path).Only fun c => c.looks = true := only_request rfl
    refine hget.bind fun found => ?_
    by_cases hf : found = true
    · rw [if_pos hf]
      exact trivial
    · rw [if_neg hf]
      exact ih

theorem looks_property (lowercase : String → String) (name : String) :
    (property lowercase name).Only fun c => c.looks = true := by
  have hget : (getProperty name).Only fun c => c.looks = true := only_request rfl
  exact hget.bind fun _ => trivial

theorem looks_propertyOf (lowercase : String → String) (name : String) :
    (propertyOf lowercase name).Only fun c => c.looks = true := by
  have hget : (getProperty name).Only fun c => c.looks = true := only_request rfl
  refine hget.bind fun value => ?_
  cases value with
  | none => exact trivial
  | some value => exact trivial

end

/-! ### What a run of it has done -/

theorem outcome_error {e : Throwable} {log : List LoaderEvent}
    (h : ∀ e ∈ log, loadSucceeded e = false) : LoadOutcome (.error e) log := by
  constructor
  · intro he
    exact absurd he (by simp)
  · rintro ⟨e', he', hs⟩
    rw [h e' he'] at hs
    exact absurd hs (by simp)

/-- The last step decides. -/
theorem outcome_last {r : Except Throwable Unit} {e : LoaderEvent} {log : List LoaderEvent}
    (he : r = .ok () ↔ loadSucceeded e = true) (h : ∀ e ∈ log, loadSucceeded e = false) :
    LoadOutcome r (e :: log) := by
  constructor
  · intro hr
    exact ⟨e, List.mem_cons_self, he.mp hr⟩
  · rintro ⟨e', he', hs⟩
    rcases List.mem_cons.mp he' with rfl | he'
    · exact he.mpr hs
    · rw [h e' he'] at hs
      exact absurd hs (by simp)

/-- What `use` leaves of a copy that returns. -/
theorem ordered_copy {tempFile start : String} {log : List LoaderEvent} (h : Looked log) :
    (closing closeStream (copy tempFile)).wp (logged LoadOrder)
      (fun r log' => (∀ e ∈ log', loadSucceeded e = false) ∧
        (r = .ok () → log' = ⟨.closeStream, .ok ()⟩ :: ⟨.copy tempFile, .ok ()⟩ ::
          ⟨.deleteOnExit tempFile, .ok ()⟩ :: ⟨.createTempFile start, .ok tempFile⟩ :: log))
      (⟨.deleteOnExit tempFile, .ok ()⟩ :: ⟨.createTempFile start, .ok tempFile⟩ :: log) := by
  set before : List LoaderEvent :=
    ⟨.deleteOnExit tempFile, .ok ()⟩ :: ⟨.createTempFile start, .ok tempFile⟩ :: log with hbefore
  have hnone : ∀ e ∈ before, loadSucceeded e = false :=
    List.forall_mem_cons.mpr ⟨rfl, List.forall_mem_cons.mpr ⟨rfl, h.not_succeeded⟩⟩
  have hcopy : (copy tempFile).wp (logged LoadOrder)
      (fun r log' => log' = ⟨.copy tempFile, r⟩ :: before) before := by
    refine wp_request ⟨⟨start, ?_⟩, ?_, ?_⟩ fun r log' hlog => hlog
    · exact List.mem_cons_of_mem _ List.mem_cons_self
    · exact List.mem_cons_self
    · intro p r hmem
      simp only [hbefore, List.mem_cons, Answered.mk.injEq, reduceCtorEq, false_and,
        false_or] at hmem
      exact h.not_mem rfl (by simp) hmem
  refine wp_closing hcopy ?_ ?_
  · rintro u log' rfl
    refine wp_request trivial ?_
    rintro r log' rfl
    have hnone' : ∀ e ∈ (⟨.closeStream, r⟩ :: ⟨.copy tempFile, .ok u⟩ :: before :
        List LoaderEvent), loadSucceeded e = false :=
      List.forall_mem_cons.mpr ⟨rfl, List.forall_mem_cons.mpr ⟨rfl, hnone⟩⟩
    cases r with
    | ok u => exact ⟨hnone', fun _ => rfl⟩
    | error e => exact ⟨hnone', fun he => absurd he (by simp)⟩
  · rintro e log' rfl
    refine wp_request trivial ?_
    rintro r log' rfl
    exact ⟨List.forall_mem_cons.mpr ⟨rfl, List.forall_mem_cons.mpr ⟨rfl, hnone⟩⟩,
      fun he => absurd he (by simp)⟩

theorem ordered_copyAndLoad (start : String) {log : List LoaderEvent} (h : Looked log) :
    (copyAndLoad start).wp (logged LoadOrder) LoadOutcome log := by
  have hnone := h.not_succeeded
  refine wp_bind (wp_request ?_ ?_)
  · intro start' r
    exact h.not_mem rfl (by simp)
  rintro r _ rfl
  cases r with
  | error e => exact outcome_error (List.forall_mem_cons.mpr ⟨rfl, hnone⟩)
  | ok tempFile =>
    refine wp_bind (wp_request trivial ?_)
    rintro r _ rfl
    cases r with
    | error e =>
      exact outcome_error (List.forall_mem_cons.mpr ⟨rfl, List.forall_mem_cons.mpr ⟨rfl, hnone⟩⟩)
    | ok u =>
      refine wp_bind (wp_mono ?_ (ordered_copy h))
      rintro r log' ⟨hnone', hlog⟩
      cases r with
      | error e => exact outcome_error hnone'
      | ok u =>
        -- the file is there, and nothing has been loaded
        refine wp_request ⟨?_, ?_, ?_⟩ ?_
        · rw [hlog rfl]
          exact List.mem_cons_of_mem _ List.mem_cons_self
        · rw [hlog rfl]
          exact List.mem_cons_self
        · intro p r hmem
          rw [hlog rfl] at hmem
          simp only [List.mem_cons, Answered.mk.injEq, reduceCtorEq, false_and,
            false_or] at hmem
          exact h.not_mem rfl (by simp) hmem
        · rintro r _ rfl
          refine outcome_last ?_ hnone'
          cases r with
          | ok u => exact ⟨fun _ => rfl, fun _ => rfl⟩
          | error e => simp [loadSucceeded]

/-- Asking for a library by its name, as the first load. -/
theorem ordered_loadLibrary {name : String} {log : List LoaderEvent} (h : OnlyLooked log) :
    (loadLibrary name).wp (logged LoadOrder)
      (fun r log' => log' = ⟨.loadLibrary name, r⟩ :: log) log :=
  wp_request h.not_loads fun _ _ hlog => hlog

theorem ordered_loadDesktop (start osName osArch : String) {log : List LoaderEvent}
    (h : OnlyLooked log) :
    (loadDesktop start osName osArch).wp (logged LoadOrder) LoadOutcome log := by
  rw [loadDesktop]
  cases libName osName osArch with
  | error e => exact outcome_error h.looked.not_succeeded
  | ok lib =>
    refine wp_bind (wp_mono ?_ (wp_looks onlyLooked_cons (looks_firstResource _) h))
    intro r log h
    cases r with
    | error e => exact outcome_error h.looked.not_succeeded
    | ok found =>
      cases found with
      | true => exact ordered_copyAndLoad start h.looked
      | false =>
        -- without a resource, the library is asked for by name
        refine wp_tryCatch (wp_mono ?_ (ordered_loadLibrary h))
        rintro r log' rfl
        cases r with
        | ok u => exact outcome_last ⟨fun _ => rfl, fun _ => rfl⟩ h.looked.not_succeeded
        | error e => exact outcome_error (List.forall_mem_cons.mpr ⟨rfl, h.looked.not_succeeded⟩)

/-- Two properties are read, and what follows is in order. -/
theorem ordered_properties {I : List LoaderEvent → Prop}
    (hI : ∀ log (e : LoaderEvent), I log → e.cmd.looks = true → I (e :: log))
    (hnone : ∀ log, I log → ∀ e ∈ log, loadSucceeded e = false) {name arch : LoaderProg String}
    (hname : name.Only fun c => c.looks = true) (harch : arch.Only fun c => c.looks = true)
    {rest : String → String → LoaderProg Unit}
    (hrest : ∀ a b log, I log → (rest a b).wp (logged LoadOrder) LoadOutcome log)
    {log : List LoaderEvent} (h : I log) :
    (name.bind fun a => arch.bind fun b => rest a b).wp (logged LoadOrder) LoadOutcome log := by
  refine wp_bind (wp_mono ?_ (wp_looks hI hname h))
  intro r log h
  cases r with
  | error e => exact outcome_error (hnone log h)
  | ok a =>
    refine wp_bind (wp_mono ?_ (wp_looks hI harch h))
    intro r log h
    cases r with
    | error e => exact outcome_error (hnone log h)
    | ok b => exact hrest a b log h

/-- **The code that loads does it in order**, whatever the answers. -/
theorem loading_ordered (lowercase : String → String) (m : LoaderModule) :
    (loading lowercase m).wp (logged LoadOrder) LoadOutcome [] := by
  have hnil : OnlyLooked [] := by
    intro e he
    exact absurd he List.not_mem_nil
  cases m with
  | jvm =>
    exact ordered_properties onlyLooked_cons (fun _ h => h.looked.not_succeeded)
      (looks_property lowercase _) (looks_property lowercase _)
      (fun a b _ h => ordered_loadDesktop "blake3-kmp" a b h) hnil
  | ffm =>
    exact ordered_properties onlyLooked_cons (fun _ h => h.looked.not_succeeded)
      (looks_propertyOf lowercase _) (looks_propertyOf lowercase _)
      (fun a b _ h => ordered_loadDesktop "blake3-ffm" a b h) hnil
  | android =>
    show Prog.wp _ _ (Prog.bind (Prog.tryCatch (Prog.bind (loadLibrary _) _) _) _) _
    refine wp_bind (wp_tryCatch (wp_bind (wp_mono ?_ (ordered_loadLibrary hnil))))
    rintro r _ rfl
    cases r with
    | ok u => exact outcome_last ⟨fun _ => rfl, fun _ => rfl⟩ hnil.looked.not_succeeded
    | error e =>
      have hlog : Looked [⟨.loadLibrary "blake3-kmp", .error e⟩] := by
        intro e' he'
        exact .inr ⟨_, _, List.mem_singleton.mp he'⟩
      -- only an `UnsatisfiedLinkError` goes on to the resources
      show Prog.wp _ _ (if _ then _ else _) _
      by_cases he : e.cls = .unsatisfiedLinkError
      · rw [if_pos he]
        refine ordered_properties looked_cons (fun _ h => h.not_succeeded)
          (looks_property lowercase _) (looks_property lowercase _) ?_ hlog
        intro osName osArch log h
        cases libName osName osArch with
        | error e => exact outcome_error h.not_succeeded
        | ok lib =>
          refine wp_bind (wp_mono ?_ (wp_looks looked_cons (looks_firstResource _) h))
          intro r log h
          cases r with
          | error e => exact outcome_error h.not_succeeded
          | ok found =>
            cases found with
            | true => exact ordered_copyAndLoad "blake3-kmp" h
            | false => exact outcome_error h.not_succeeded
      · rw [if_neg he]
        exact outcome_error hlog.not_succeeded

/-! ### The commands of the code that loads -/

theorem isLoading_of_looks {c : LoaderCmd} (h : c.looks = true) : c.isLoading = true := by
  cases c <;> simp [LoaderCmd.looks] at h <;> rfl

theorem loading_of_looks {α : Type} {x : LoaderProg α} (h : x.Only fun c => c.looks = true) :
    x.Only fun c => c.isLoading = true :=
  h.mono fun _ => isLoading_of_looks

theorem only_copyAndLoad (start : String) :
    (copyAndLoad start).Only fun c => c.isLoading = true := by
  have hcreate : (createTempFile start).Only fun c => c.isLoading = true := only_request rfl
  refine hcreate.bind fun tempFile => ?_
  have hdelete : (deleteOnExit tempFile).Only fun c => c.isLoading = true := only_request rfl
  have hclose : closeStream.Only fun c => c.isLoading = true := only_request rfl
  have hcopy : (copy tempFile).Only fun c => c.isLoading = true := only_request rfl
  have hload : (load tempFile).Only fun c => c.isLoading = true := only_request rfl
  exact hdelete.bind fun _ => (hclose.closing hcopy).bind fun _ => hload

theorem only_loadLibrary (name : String) :
    (loadLibrary name).Only fun c => c.isLoading = true := only_request rfl

theorem only_loadDesktop (start osName osArch : String) :
    (loadDesktop start osName osArch).Only fun c => c.isLoading = true := by
  rw [loadDesktop]
  cases libName osName osArch with
  | error e => exact trivial
  | ok lib =>
    refine (loading_of_looks (looks_firstResource _)).bind fun found => ?_
    cases found with
    | true => exact only_copyAndLoad start
    | false => exact (only_loadLibrary _).tryCatch fun _ => trivial

theorem only_loading (lowercase : String → String) (m : LoaderModule) :
    (loading lowercase m).Only fun c => c.isLoading = true := by
  have hproperty := fun name => loading_of_looks (looks_property lowercase name)
  have hpropertyOf := fun name => loading_of_looks (looks_propertyOf lowercase name)
  cases m with
  | jvm =>
    exact (hproperty _).bind fun _ => (hproperty _).bind fun _ => only_loadDesktop _ _ _
  | ffm =>
    exact (hpropertyOf _).bind fun _ => (hpropertyOf _).bind fun _ => only_loadDesktop _ _ _
  | android =>
    show Prog.Only _ (Prog.bind (Prog.tryCatch (Prog.bind (loadLibrary _) _) _) _)
    have hpackaged : (Prog.bind (loadLibrary "blake3-kmp") fun _ =>
        (.pure true : LoaderProg Bool)).Only fun c => c.isLoading = true :=
      (only_loadLibrary _).bind fun _ => trivial
    refine (hpackaged.tryCatch fun e => ?_).bind fun done => ?_
    · by_cases he : e.cls = .unsatisfiedLinkError
      · rw [if_pos he]
        exact trivial
      · rw [if_neg he]
        exact trivial
    · cases done with
      | true => exact trivial
      | false =>
        refine (hproperty _).bind fun osName => (hproperty _).bind fun osArch => ?_
        cases libName osName osArch with
        | error e => exact trivial
        | ok lib =>
          refine (loading_of_looks (looks_firstResource _)).bind fun found => ?_
          cases found with
          | true => exact only_copyAndLoad _
          | false => exact trivial

/-! ### One call at a time -/

/-- Only the call that has found the flag clear goes on to load, by the code `start`; what is
left of that is noted. -/
def oneLoadContract (start : LoaderProg Unit) :
    Contract LoaderCmd LoaderCmd.Answer Throwable (Option (LoaderProg Unit)) where
  requires := fun left c => c.isLoading = true → ∃ next, left = some (.perform c next)
  answers := fun left c r left' =>
    (flagWasClear ⟨c, r⟩ = true → left' = some start) ∧
    (c.isLoading = true → ∀ next, left = some (.perform c next) → left' = some (next r)) ∧
    (flagWasClear ⟨c, r⟩ = false → c.isLoading = false → left' = left)

section

variable {start : LoaderProg Unit} {α β : Type}

/-- The code itself keeps to it. -/
theorem wp_start {x : LoaderProg Unit} (hx : x.Only fun c => c.isLoading = true) :
    x.wp (oneLoadContract start) (fun _ _ => True) (some x) := by
  induction x with
  | pure a => exact trivial
  | raise e => exact trivial
  | perform c next ih =>
    refine ⟨fun _ => ⟨next, rfl⟩, ?_⟩
    rintro r left ⟨-, hnext, -⟩
    rw [hnext hx.1 next rfl]
    exact ih r (hx.2 r)

/-- Other code has nothing to do with it. -/
theorem wp_apart {x : LoaderProg α} (hx : x.Only fun c => c.isLoading = false)
    (left : Option (LoaderProg Unit)) :
    x.wp (oneLoadContract start) (fun _ _ => True) left := by
  refine wp_only_keeps (I := fun _ => True) ?_ (fun _ _ _ _ _ _ _ => trivial) hx trivial
  intro left c _ hc hloading
  rw [hc] at hloading
  exact absurd hloading (by simp)

theorem wp_apart_bind {x : LoaderProg α} {f : α → LoaderProg β}
    (hx : x.Only fun c => c.isLoading = false)
    (hf : ∀ a left, (f a).wp (oneLoadContract start) (fun _ _ => True) left)
    (left : Option (LoaderProg Unit)) :
    (x.bind f).wp (oneLoadContract start) (fun _ _ => True) left := by
  refine wp_bind (wp_mono ?_ (wp_apart hx left))
  intro r left _
  cases r with
  | ok a => exact hf a left
  | error e => exact trivial

theorem wp_apart_closing {release : LoaderProg Unit} {body : LoaderProg α}
    {left : Option (LoaderProg Unit)} (hr : release.Only fun c => c.isLoading = false)
    (hb : body.wp (oneLoadContract start) (fun _ _ => True) left) :
    (closing release body).wp (oneLoadContract start) (fun _ _ => True) left := by
  refine wp_closing hb ?_ fun _ left _ => wp_apart hr left
  intro a left _
  refine wp_mono ?_ (wp_apart hr left)
  intro r left _
  cases r with
  | ok u => exact trivial
  | error e => exact trivial

theorem wp_loader (lowercase : String → String) (m : LoaderModule)
    (left : Option (LoaderProg Unit)) :
    (loaderBody lowercase m .loadNativeLibrary).wp (oneLoadContract (loading lowercase m))
      (fun _ _ => True) left := by
  obtain ⟨next, hbody, hset, hclear, hfailed⟩ : ∃ next,
      loaderBody lowercase m .loadNativeLibrary = .perform .getAndSet next ∧
      next (.ok true) = .pure () ∧ next (.ok false) = loading lowercase m ∧
      ∀ e, next (.error e) = .raise e := by
    cases m with
    | jvm => exact ⟨_, rfl, rfl, rfl, fun _ => rfl⟩
    | android => exact ⟨_, rfl, rfl, rfl, fun _ => rfl⟩
    | ffm => exact ⟨_, rfl, rfl, rfl, fun _ => rfl⟩
  rw [hbody]
  refine ⟨fun h => absurd h (by simp [LoaderCmd.isLoading]), ?_⟩
  rintro r left' ⟨hwon, -, -⟩
  cases r with
  | error e =>
    rw [hfailed]
    exact trivial
  | ok found =>
    cases found with
    | true =>
      rw [hset]
      exact trivial
    | false =>
      -- the call has won, and goes on by the code it was given
      rw [hclear, hwon rfl]
      exact wp_start (only_loading lowercase m)

theorem wp_loaderBody (lowercase : String → String) (m : LoaderModule) (call : LoaderCall)
    (left : Option (LoaderProg Unit)) :
    (loaderBody lowercase m call).wp (oneLoadContract (loading lowercase m))
      (fun _ _ => True) left := by
  cases m with
  | jvm => exact wp_loader lowercase .jvm left
  | android => exact wp_loader lowercase .android left
  | ffm =>
    cases call with
    | loadNativeLibrary => exact wp_loader lowercase .ffm left
    | lookup =>
      have hread : readLookup.Only fun c => c.isLoading = false := only_request rfl
      have hlock : lockLookup.Only fun c => c.isLoading = false := only_request rfl
      have hunlock : unlockLookup.Only fun c => c.isLoading = false := only_request rfl
      have hlookup : loaderLookup.Only fun c => c.isLoading = false := only_request rfl
      have hwrite : writeLookup.Only fun c => c.isLoading = false := only_request rfl
      refine wp_apart_bind hread (fun found left => ?_) left
      cases found with
      | true => exact trivial
      | false =>
        refine wp_apart_bind hlock (fun _ left => ?_) left
        refine wp_apart_closing hunlock (wp_apart_bind hread (fun found left => ?_) left)
        cases found with
        | true => exact trivial
        | false =>
          -- the load, and then the rest of `lookup`
          refine wp_bind (wp_mono ?_ (wp_loader lowercase .ffm left))
          intro r left _
          cases r with
          | error e => exact trivial
          | ok u => exact wp_apart (hlookup.bind fun _ => hwrite) left

end

/-! ### Runs -/

abbrev LoadTrace := Trace ℕ LoaderCmd LoaderCmd.Answer Throwable

/-- The steps of the code that loads. -/
def loadingSteps (trace : LoadTrace) : List LoaderEvent :=
  (trace.map Prod.snd).filter fun e => e.cmd.isLoading

/-- A step of that code, or the one that gives access to it. -/
def belongs (e : LoaderEvent) : Bool := e.cmd.isLoading || flagWasClear e

theorem loadingSteps_cons {trace : LoadTrace} {t : ℕ} {e : LoaderEvent} :
    loadingSteps ((t, e) :: trace) =
      if e.cmd.isLoading then e :: loadingSteps trace else loadingSteps trace := by
  rw [loadingSteps, List.map_cons, List.filter_cons]
  rfl

theorem loadingSteps_nil {trace : LoadTrace} (h : ∀ e ∈ trace, belongs e.2 = false) :
    loadingSteps trace = [] := by
  rw [loadingSteps, List.filter_eq_nil_iff]
  intro e he
  obtain ⟨e', he', rfl⟩ := List.mem_map.mp he
  exact Bool.not_eq_true _ ▸ (Bool.or_eq_false_iff.mp (h e' he')).1

theorem not_loading_of_clear {e : LoaderEvent} (h : flagWasClear e = true) :
    e.cmd.isLoading = false := by
  obtain ⟨c, r⟩ := e
  cases c with
  | getAndSet => rfl
  | _ => exact absurd h Bool.false_ne_true

/-- Only `getAndSet` changes the flag. -/
theorem Process.answers_flag {t : ℕ} {s s' : Process} {c : LoaderCmd}
    {r : Except Throwable c.Answer} (h : s.answers t c r s') :
    (flagWasClear ⟨c, r⟩ = true ∧ s.loaded = false ∧ s'.loaded = true) ∨
      (flagWasClear ⟨c, r⟩ = false ∧ s'.loaded = s.loaded) := by
  cases c with
  | getAndSet =>
    obtain ⟨rfl, rfl⟩ := h
    cases hs : s.loaded with
    | true => exact .inr ⟨rfl, rfl⟩
    | false => exact .inl ⟨rfl, rfl, rfl⟩
  | readLookup =>
    obtain ⟨-, rfl⟩ := h
    exact .inr ⟨rfl, rfl⟩
  | lockLookup =>
    obtain ⟨-, -, rfl⟩ := h
    exact .inr ⟨rfl, rfl⟩
  | unlockLookup =>
    obtain ⟨-, rfl⟩ := h
    exact .inr ⟨rfl, rfl⟩
  | writeLookup =>
    obtain ⟨-, rfl⟩ := h
    exact .inr ⟨rfl, rfl⟩
  | load path =>
    cases r with
    | ok u =>
      obtain rfl := h
      exact .inr ⟨rfl, rfl⟩
    | error e =>
      obtain rfl := h
      exact .inr ⟨rfl, rfl⟩
  | loadLibrary name =>
    cases r with
    | ok u =>
      obtain rfl := h
      exact .inr ⟨rfl, rfl⟩
    | error e =>
      obtain rfl := h
      exact .inr ⟨rfl, rfl⟩
  | _ =>
    obtain rfl := h
    exact .inr ⟨rfl, rfl⟩

/-- What the threads have between them: the code `start` at most once, in the hands of the
thread that found the flag clear. -/
structure Serial (start : LoaderProg Unit) (s : Process × LoadTrace)
    (has : ℕ → Option (Option (LoaderProg Unit))) : Prop where
  winners : s.2.countP (fun e => flagWasClear e.2) = if s.1.loaded then 1 else 0
  before : s.1.loaded = false → ∀ e ∈ s.2, belongs e.2 = false
  path : ∃ t y, (∀ e ∈ s.2, belongs e.2 = true → e.1 = t) ∧ start.Path (loadingSteps s.2) y ∧
    ∀ u z, has u = some (some z) → s.1.loaded = true ∧ u = t ∧ z = y

theorem Serial.update_none {start : LoaderProg Unit} {s : Process × LoadTrace}
    {has : ℕ → Option (Option (LoaderProg Unit))} (h : Serial start s has) {t : ℕ}
    {left : Option (Option (LoaderProg Unit))} (hleft : ∀ z, left ≠ some (some z)) :
    Serial start s (Function.update has t left) := by
  obtain ⟨t₀, y, hone, hpath, hhas⟩ := h.path
  refine ⟨h.winners, h.before, t₀, y, hone, hpath, ?_⟩
  intro u z hu
  by_cases hut : u = t
  · subst hut
    rw [Function.update_self] at hu
    exact absurd hu (hleft z)
  · rw [Function.update_of_ne hut] at hu
    exact hhas u z hu

/-- The code is given out when the flag is found clear. -/
theorem Serial.win {start : LoaderProg Unit} {s s' : Process} {trace : LoadTrace}
    {has : ℕ → Option (Option (LoaderProg Unit))} (h : Serial start (s, trace) has) {t : ℕ}
    {e : LoaderEvent} (he : flagWasClear e = true) (hs : s.loaded = false)
    (hs' : s'.loaded = true) :
    Serial start (s', (t, e) :: trace) (Function.update has t (some (some start))) := by
  have hbefore : ∀ e ∈ trace, belongs e.2 = false := h.before hs
  have hwinners : trace.countP (fun e => flagWasClear e.2) = if s.loaded then 1 else 0 := h.winners
  obtain ⟨t₀, y, -, -, hhas⟩ := h.path
  have hnone : loadingSteps ((t, e) :: trace) = [] := by
    rw [loadingSteps_cons, not_loading_of_clear he, loadingSteps_nil hbefore]
    rfl
  refine ⟨?_, fun h' => absurd (hs'.symm.trans h') (by simp), t, start, ?_, ?_, ?_⟩
  · show ((t, e) :: trace).countP (fun e => flagWasClear e.2) = if s'.loaded then 1 else 0
    simp [hwinners, he, hs, hs']
  · intro e' he' hb
    rcases List.mem_cons.mp he' with rfl | he'
    · rfl
    · rw [hbefore e' he'] at hb
      exact absurd hb (by simp)
  · show start.Path (loadingSteps ((t, e) :: trace)) start
    rw [hnone]
    exact .refl
  · intro u z hu
    by_cases hut : u = t
    · subst hut
      rw [Function.update_self, Option.some.injEq, Option.some.injEq] at hu
      exact ⟨hs', rfl, hu.symm⟩
    · -- no other thread had it
      rw [Function.update_of_ne hut] at hu
      exact absurd (hs.symm.trans (hhas u z hu).1) (by simp)

/-- The thread that has the code makes a step of it. -/
theorem Serial.advance {start : LoaderProg Unit} {s s' : Process} {trace : LoadTrace}
    {has : ℕ → Option (Option (LoaderProg Unit))} (h : Serial start (s, trace) has) {t : ℕ}
    {c : LoaderCmd} {next : Except Throwable c.Answer → LoaderProg Unit}
    (hhas : has t = some (some (.perform c next))) (hc : c.isLoading = true)
    (r : Except Throwable c.Answer) (hclear : flagWasClear ⟨c, r⟩ = false)
    (hs' : s'.loaded = s.loaded) :
    Serial start (s', (t, ⟨c, r⟩) :: trace) (Function.update has t (some (some (next r)))) := by
  have hwinners : trace.countP (fun e => flagWasClear e.2) = if s.loaded then 1 else 0 := h.winners
  obtain ⟨t₀, y, hone, hpath, hall⟩ := h.path
  obtain ⟨hset, rfl, rfl⟩ := hall t _ hhas
  have hset' : s'.loaded = true := hs'.trans hset
  refine ⟨?_, fun h' => absurd (hset'.symm.trans h') (by simp), t, next r, ?_, ?_, ?_⟩
  · show ((t, _) :: trace).countP (fun e => flagWasClear e.2) = if s'.loaded then 1 else 0
    rw [List.countP_cons_of_neg (by simp [hclear]), hwinners, hs']
  · intro e' he' hb
    rcases List.mem_cons.mp he' with rfl | he'
    · rfl
    · exact hone e' he' hb
  · show start.Path (loadingSteps ((t, ⟨c, r⟩) :: trace)) (next r)
    rw [loadingSteps_cons, if_pos hc]
    exact hpath.step r
  · intro u z hu
    by_cases hut : u = t
    · subst hut
      rw [Function.update_self, Option.some.injEq, Option.some.injEq] at hu
      exact ⟨hset', rfl, hu.symm⟩
    · rw [Function.update_of_ne hut] at hu
      exact absurd (hall u z hu).2.1 hut

/-- Any other step. -/
theorem Serial.other {start : LoaderProg Unit} {s s' : Process} {trace : LoadTrace}
    {has : ℕ → Option (Option (LoaderProg Unit))} (h : Serial start (s, trace) has) (t : ℕ)
    {e : LoaderEvent} (he : belongs e = false) (hs' : s'.loaded = s.loaded) :
    Serial start (s', (t, e) :: trace) has := by
  have hwinners : trace.countP (fun e => flagWasClear e.2) = if s.loaded then 1 else 0 := h.winners
  obtain ⟨hloading, hclear⟩ := Bool.or_eq_false_iff.mp he
  obtain ⟨t₀, y, hone, hpath, hall⟩ := h.path
  refine ⟨?_, ?_, t₀, y, ?_, ?_, ?_⟩
  · show ((t, e) :: trace).countP (fun e => flagWasClear e.2) = if s'.loaded then 1 else 0
    rw [List.countP_cons_of_neg (by simp [hclear]), hwinners, hs']
  · intro hunset e' he'
    rcases List.mem_cons.mp he' with rfl | he'
    · exact he
    · exact h.before (hs'.symm.trans hunset) e' he'
  · intro e' he' hb
    rcases List.mem_cons.mp he' with rfl | he'
    · rw [he] at hb
      exact absurd hb (by simp)
    · exact hone e' he' hb
  · show start.Path (loadingSteps ((t, e) :: trace)) y
    rw [loadingSteps_cons, hloading]
    exact hpath
  · intro u z hu
    obtain ⟨hset, hut, hz⟩ := hall u z hu
    exact ⟨hs'.trans hset, hut, hz⟩

def oneLoadLedger (start : LoaderProg Unit) : Ledger ℕ LoaderCmd LoaderCmd.Answer Throwable
    LoaderCall Unit (Process × LoadTrace) (Option (LoaderProg Unit)) where
  contract := oneLoadContract start
  during := fun _ _ => True
  post := fun _ _ _ => True
  fits := fun s has _ => Serial start s has

theorem oneLoadLedger_kept (lowercase : String → String) (m : LoaderModule) :
    (oneLoadLedger (loading lowercase m)).Kept (loadSystem lowercase m).traced Anything where
  start := by
    intro cfg has t call hb _ _ _
    exact ⟨none, hb.fits.update_none (by simp), trivial, wp_loaderBody lowercase m call none⟩
  answer := by
    rintro cfg has t call c next r ⟨s', trace'⟩ left hb - hg - hreq ⟨hans, htrace⟩ -
    have hfits : Serial (loading lowercase m) (cfg.shared.1, cfg.shared.2) has := hb.fits
    obtain rfl : trace' = (t, ⟨c, r⟩) :: cfg.shared.2 := htrace
    rcases Process.answers_flag hans with ⟨hclear, hs, hs'⟩ | ⟨hclear, hs'⟩
    · -- the flag was clear, and the code is given out
      have hnot : c.isLoading = false := not_loading_of_clear hclear
      refine ⟨some (loading lowercase m), ⟨fun _ => rfl, ?_, ?_⟩, trivial,
        hfits.win hclear hs hs'⟩
      · intro hc
        rw [hnot] at hc
        exact absurd hc (by simp)
      · intro h
        rw [hclear] at h
        exact absurd h (by simp)
    by_cases hc : c.isLoading = true
    · -- a step of the code, which only one thread has
      obtain ⟨next', rfl⟩ := hreq hc
      refine ⟨some (next' r), ⟨?_, ?_, ?_⟩, trivial, hfits.advance hg hc r hclear hs'⟩
      · intro h
        rw [hclear] at h
        exact absurd h (by simp)
      · -- what is asked for determines what is left
        rintro - next'' heq
        obtain rfl := eq_of_heq (Prog.perform.inj (Option.some.inj heq)).2
        rfl
      · intro _ h
        rw [hc] at h
        exact absurd h (by simp)
    · -- the flag was set, or a step of `lookup`
      rw [Bool.not_eq_true] at hc
      refine ⟨left, ⟨?_, ?_, fun _ _ => rfl⟩, trivial, ?_⟩
      · intro h
        rw [hclear] at h
        exact absurd h (by simp)
      · intro h
        rw [hc] at h
        exact absurd h (by simp)
      · show Serial _ _ (Function.update has t (some left))
        rw [← hg, Function.update_eq_self]
        exact hfits.other t (Bool.or_eq_false_iff.mpr ⟨hc, hclear⟩) hs'
  finish := by
    intro cfg has t call r g hb _ _ _ _
    exact hb.fits.update_none (by simp)

/-- A process in which nothing has been loaded, with an empty trace. -/
def freshTrace : Config ℕ LoaderCmd LoaderCmd.Answer Throwable LoaderCall Unit
    (Process × LoadTrace) := .initial (⟨false, false, none, false⟩, [])

/-- There is one load in the trace. -/
structure OneLoad (lowercase : String → String) (m : LoaderModule) (trace : LoadTrace) :
    Prop where
  /-- At most one call finds the flag clear. -/
  winners : trace.countP (fun e => flagWasClear e.2) ≤ 1
  /-- The steps that look for, copy and load the library are one run of the loader's code, by
  the thread of that call, and the run returns just when a load has succeeded. -/
  serial : ∃ t rest, (∀ e ∈ trace, belongs e.2 = true → e.1 = t) ∧
    (loading lowercase m).Path (loadingSteps trace) rest ∧
    (rest = .pure () → ∃ e ∈ loadingSteps trace, loadSucceeded e = true) ∧
    ∀ e, rest = .raise e → ∀ e' ∈ loadingSteps trace, loadSucceeded e' = false
  /-- Each of them comes after what it needs. -/
  ordered : ∀ later e earlier, loadingSteps trace = later ++ e :: earlier →
    LoadOrder earlier e.cmd

/-- **There is one load**, in every run of every module, whatever fails. -/
theorem oneLoad_of_reach (lowercase : String → String) (m : LoaderModule) :
    ∀ cfg, Reach (loadSystem lowercase m).traced Anything freshTrace cfg →
      OneLoad lowercase m cfg.shared.2 := by
  intro cfg h
  have hinit : (oneLoadLedger (loading lowercase m)).fits (⟨false, false, none, false⟩, [])
      (fun _ => none) [] :=
    ⟨rfl, fun _ e he => absurd he List.not_mem_nil, 0, _, fun e he => absurd he List.not_mem_nil,
      .refl, fun _ _ hu => absurd hu (by simp)⟩
  obtain ⟨has, hb⟩ := (oneLoadLedger_kept lowercase m).reach hinit h
  obtain ⟨hwinners, -, t, rest, hone, hpath, -⟩ := hb.fits
  have hordered := loading_ordered lowercase m
  have hend := hpath.wp hordered
  refine ⟨?_, ⟨t, rest, hone, hpath, ?_, ?_⟩, fun later e earlier => hpath.allowed hordered⟩
  · rw [hwinners]
    split <;> simp
  · rintro rfl
    exact hend.mp rfl
  · rintro e rfl e' he'
    by_contra hne
    exact absurd (hend.mpr ⟨e', he', Bool.eq_true_of_not_eq_false hne⟩) (by simp)

/-- The run in which one thread loads the packaged library on Android. -/
theorem oneLoad_of_reach_android :
    ∃ cfg, Reach (loadSystem String.toLower .android).traced Anything freshTrace cfg ∧
      Happened.finished 0 .loadNativeLibrary (.ok ()) ∈ cfg.history ∧
      OneLoad String.toLower .android cfg.shared.2 := by
  have hrun : Reach (loadSystem String.toLower .android) Anything freshProcess _ :=
    Reach.refl.step trivial (.start (t := 0) rfl (.inl rfl))
  have hrun := hrun.perform (t := 0) (c := .getAndSet) rfl (.ok false) ⟨true, false, none, false⟩
    ⟨rfl, rfl⟩ trivial trivial
  have hrun := hrun.perform (t := 0) (c := .loadLibrary "blake3-kmp") rfl (.ok ())
    ⟨true, false, none, true⟩ rfl trivial trivial
  have hrun := hrun.step (m := .finish 0 .loadNativeLibrary (.ok ())) trivial (.returned rfl)
  obtain ⟨cfg, htraced, hbare⟩ := hrun.traced
  have htraced : Reach (loadSystem String.toLower .android).traced Anything freshTrace cfg :=
    htraced.mono fun _ _ _ => trivial
  refine ⟨cfg, htraced, ?_, oneLoad_of_reach _ _ cfg htraced⟩
  show Happened.finished 0 .loadNativeLibrary (.ok ()) ∈ cfg.bare.history
  rw [hbare]
  exact List.mem_cons_self

end Blake3Kmp
