/-
The lazy properties of `FfmBlake3.kt`.

The linker, the symbol lookup, the method handles and the size of a hasher are
each computed at their first use, by whatever thread comes first.

* `linker`, `lookup`, …, `hasherSize` — the properties, as programs;
* `CPrototype` — the declarations of `blake3.h`;
* `Linkage.out` — what the JDK may answer;
* `FfmLazy.gets` — each property keeps to the order of the locks;
* `LaziesRight`, `lazies_right` — every access gets the right handle and the
  right size, or fails in a known way, and none waits for ever.
-/
import Blake3Kmp.FfmMemory
import Blake3Kmp.Lazies

open Programs Prog Lazies

namespace Blake3Kmp

/-! ### Handles -/

inductive ValueLayout
  | javaLong
  | address
  deriving DecidableEq, Repr

structure FunctionDescriptor where
  result : Option ValueLayout
  arguments : List ValueLayout
  deriving DecidableEq, Repr

namespace FunctionDescriptor

def of (result : ValueLayout) (arguments : List ValueLayout) : FunctionDescriptor :=
  ⟨some result, arguments⟩

def ofVoid (arguments : List ValueLayout) : FunctionDescriptor := ⟨none, arguments⟩

end FunctionDescriptor

structure MethodHandle where
  /-- The address of the function. -/
  symbol : ℕ
  descriptor : FunctionDescriptor
  deriving DecidableEq, Repr

/-- The handles that are declared not to be null. -/
inductive NativeHandle
  | init | initKeyed | update | finalize | reset
  deriving DecidableEq, Repr

inductive FfmLazy
  | linker
  | lookup
  | sizeofHandle
  | handle (f : NativeHandle)
  | hasherSize
  deriving DecidableEq, Repr

def FfmLazy.Value : FfmLazy → Type
  | linker => Unit
  | lookup => Unit
  | sizeofHandle => Option MethodHandle
  | handle _ => MethodHandle
  | hasherSize => ℕ

/-! ### Outside -/

inductive LinkerCmd
  | nativeLinker
  | loadNativeLibrary
  | loaderLookup
  /-- `lookup.find(name)`. -/
  | find (name : String)
  | downcallHandle (symbol : ℕ) (descriptor : FunctionDescriptor)
  /-- `handle.invokeExact()` of `blake3_hasher_sizeof_handle`. -/
  | invokeSizeof (handle : MethodHandle)

def LinkerCmd.Answer : LinkerCmd → Type
  | find _ => Option ℕ
  | downcallHandle _ _ => MethodHandle
  | invokeSizeof _ => ℕ
  | _ => Unit

abbrev FfmLazyProg (α : Type) := LazyProg FfmLazy.Value LinkerCmd.Answer Throwable α

namespace FfmBlake3

def unsatisfiedLink (name : String) : Throwable :=
  ⟨.unsatisfiedLinkError, "Failed to find native symbol: " ++ name⟩

/-- `by lazy { … }`. -/
def byLazy (l : FfmLazy) (init : FfmLazyProg l.Value) : FfmLazyProg l.Value := get l init

def nativeLinker : FfmLazyProg Unit := ask LinkerCmd.nativeLinker

def loadNativeLibrary : FfmLazyProg Unit := ask LinkerCmd.loadNativeLibrary

def loaderLookup : FfmLazyProg Unit := ask LinkerCmd.loaderLookup

def findIn (name : String) : FfmLazyProg (Option ℕ) := ask (LinkerCmd.find name)

def downcallHandle (symbol : ℕ) (descriptor : FunctionDescriptor) : FfmLazyProg MethodHandle :=
  ask (LinkerCmd.downcallHandle symbol descriptor)

def invokeSizeof (handle : MethodHandle) : FfmLazyProg ℕ := ask (LinkerCmd.invokeSizeof handle)

def linker : FfmLazyProg Unit := byLazy .linker nativeLinker

def lookup : FfmLazyProg Unit :=
  byLazy .lookup do
    loadNativeLibrary
    loaderLookup

/-- `lookup.find(name)`. -/
def find (name : String) : FfmLazyProg (Option ℕ) := do
  lookup
  findIn name

def findSymbol (name : String) : FfmLazyProg ℕ := do
  match ← find name with
  | some symbol => .pure symbol
  | none => .raise (unsatisfiedLink name)

/-- `linker.downcallHandle(findSymbol(name), descriptor)`, at the first use. -/
def downcall (f : NativeHandle) (name : String) (descriptor : FunctionDescriptor) :
    FfmLazyProg MethodHandle :=
  byLazy (.handle f) do
    linker
    let symbol ← findSymbol name
    downcallHandle symbol descriptor

def blake3HasherSizeofHandle : FfmLazyProg (Option MethodHandle) :=
  byLazy .sizeofHandle do
    match ← find "blake3_hasher_sizeof" with
    | none => .pure none
    | some symbol =>
      linker
      let handle ← downcallHandle symbol (.of .javaLong [])
      .pure (some handle)

def blake3HasherInitHandle : FfmLazyProg MethodHandle :=
  downcall .init "blake3_hasher_init" (.ofVoid [.address])

def blake3HasherInitKeyedHandle : FfmLazyProg MethodHandle :=
  downcall .initKeyed "blake3_hasher_init_keyed" (.ofVoid [.address, .address])

def blake3HasherUpdateHandle : FfmLazyProg MethodHandle :=
  downcall .update "blake3_hasher_update" (.ofVoid [.address, .address, .javaLong])

def blake3HasherFinalizeHandle : FfmLazyProg MethodHandle :=
  downcall .finalize "blake3_hasher_finalize" (.ofVoid [.address, .address, .javaLong])

def blake3HasherResetHandle : FfmLazyProg MethodHandle :=
  downcall .reset "blake3_hasher_reset" (.ofVoid [.address])

/-- What the library says, if it can be asked. -/
def sizeofHasher : FfmLazyProg ℕ := do
  match ← blake3HasherSizeofHandle with
  | some handle => invokeSizeof handle
  | none => .pure 1912

/-- Whatever goes wrong, the size is 1912. -/
def hasherSize : FfmLazyProg ℕ :=
  byLazy .hasherSize (sizeofHasher.tryCatch fun _ => .pure (1912 : ℕ))

end FfmBlake3

/-- An access of a property. -/
def FfmLazy.prog : (l : FfmLazy) → FfmLazyProg l.Value
  | linker => FfmBlake3.linker
  | lookup => FfmBlake3.lookup
  | sizeofHandle => FfmBlake3.blake3HasherSizeofHandle
  | handle .init => FfmBlake3.blake3HasherInitHandle
  | handle .initKeyed => FfmBlake3.blake3HasherInitKeyedHandle
  | handle .update => FfmBlake3.blake3HasherUpdateHandle
  | handle .finalize => FfmBlake3.blake3HasherFinalizeHandle
  | handle .reset => FfmBlake3.blake3HasherResetHandle
  | hasherSize => FfmBlake3.hasherSize

/-! ### The library -/

/-- The types in the declarations of `blake3.h`. -/
inductive CType
  | pointer
  | sizeT
  deriving DecidableEq, Repr

/-- How a value of the type is passed, on a 64-bit platform. -/
def CType.layout : CType → ValueLayout
  | pointer => .address
  | sizeT => .javaLong

structure CPrototype where
  name : String
  result : Option CType
  parameters : List CType
  deriving DecidableEq, Repr

def CPrototype.descriptor (f : CPrototype) : FunctionDescriptor :=
  ⟨f.result.map CType.layout, f.parameters.map CType.layout⟩

/-- `size_t blake3_hasher_sizeof(void)`. -/
def sizeofPrototype : CPrototype := ⟨"blake3_hasher_sizeof", some .sizeT, []⟩

/-- The declarations of the other functions, all of them `void`. -/
def NativeHandle.prototype : NativeHandle → CPrototype
  | init => ⟨"blake3_hasher_init", none, [.pointer]⟩
  | initKeyed => ⟨"blake3_hasher_init_keyed", none, [.pointer, .pointer]⟩
  | update => ⟨"blake3_hasher_update", none, [.pointer, .pointer, .sizeT]⟩
  | finalize => ⟨"blake3_hasher_finalize", none, [.pointer, .pointer, .sizeT]⟩
  | reset => ⟨"blake3_hasher_reset", none, [.pointer]⟩

structure Linkage where
  /-- The function at an address. -/
  nameAt : ℕ → String
  /-- What the JDK may throw. -/
  throws : Throwable → Prop

/-- What may come back.  A symbol may not be found, as long as the library is not loaded. -/
def Linkage.allows (k : Linkage) : (c : LinkerCmd) → c.Answer → Prop
  | .find name, found => ∀ symbol, (found : Option ℕ) = some symbol → k.nameAt symbol = name
  | .downcallHandle symbol descriptor, handle => handle = (⟨symbol, descriptor⟩ : MethodHandle)
  | .invokeSizeof handle, size => k.nameAt handle.symbol = sizeofPrototype.name →
    size = blake3HasherSizeof
  | _, _ => True

/-- What the JDK may answer; everything may fail. -/
def Linkage.out (k : Linkage) (c : LinkerCmd) : Except Throwable c.Answer → Prop
  | .ok a => k.allows c a
  | .error e => k.throws e

/-- The handle calls the function as it is declared. -/
def MethodHandle.Calls (k : Linkage) (h : MethodHandle) (f : CPrototype) : Prop :=
  k.nameAt h.symbol = f.name ∧ h.descriptor = f.descriptor

/-- The locks in order, what the values are, and how an access may fail. -/
def Linkage.promise (k : Linkage) : Promise FfmLazy.Value Throwable where
  rank := fun
    | .linker => 0
    | .lookup => 0
    | .sizeofHandle => 1
    | .handle _ => 1
    | .hasherSize => 2
  good := fun
    | .linker => fun _ => True
    | .lookup => fun _ => True
    | .sizeofHandle => fun v => ∀ h, v = some h → h.Calls k sizeofPrototype
    | .handle f => fun h => h.Calls k f.prototype
    | .hasherSize => fun n => n = blake3HasherSizeof
  fails := fun
    | .linker => k.throws
    | .lookup => k.throws
    | .sizeofHandle => k.throws
    | .handle f => fun e => k.throws e ∨ e = FfmBlake3.unsatisfiedLink f.prototype.name
    | .hasherSize => fun _ => False

/-! ### The order of the locks -/

section

variable {k : Linkage}

/-- An access of a value that comes before `l`, in the initialiser of `l`. -/
theorem above_of_le {g : Known FfmLazy.Value} {l l' : FfmLazy}
    (hg : ∀ h ∈ g.held, k.promise.rank l ≤ k.promise.rank h.1)
    (hlt : k.promise.rank l' < k.promise.rank l) : g.Above k.promise l' :=
  fun h hmem => Nat.lt_of_lt_of_le hlt (hg h hmem)

/-- The last step of an initialiser. -/
theorem wp_lastAsk {c : LinkerCmd} {post : Except Throwable c.Answer → Known FfmLazy.Value → Prop}
    {g : Known FfmLazy.Value} (h : ∀ r, k.out c r → post r g) :
    (ask c : FfmLazyProg c.Answer).wp (contract k.promise k.out) post g := by
  refine wp_request trivial ?_
  rintro r g' ⟨hr, rfl⟩
  exact h r hr

theorem linker_gets : Gets k.promise k.out .linker FfmBlake3.linker := by
  refine gets_get ?_
  intro g _
  refine wp_lastAsk ?_
  intro r hr
  cases r with
  | ok u => exact ⟨rfl, trivial⟩
  | error e => exact ⟨rfl, hr⟩

theorem lookup_gets : Gets k.promise k.out .lookup FfmBlake3.lookup := by
  refine gets_get ?_
  intro g _
  refine wp_ask ?_ ?_
  · intro u _
    refine wp_lastAsk ?_
    intro r hr
    cases r with
    | ok u => exact ⟨rfl, trivial⟩
    | error e => exact ⟨rfl, hr⟩
  · exact fun e he => ⟨rfl, he⟩

/-- What is found under a name has that name. -/
theorem wp_find {α : Type} {name : String} {f : Option ℕ → FfmLazyProg α}
    {post : Except Throwable α → Known FfmLazy.Value → Prop} {g : Known FfmLazy.Value}
    (habove : g.Above k.promise .lookup)
    (hok : ∀ found g', g'.held = g.held → (∀ symbol, found = some symbol →
      k.nameAt symbol = name) → (f found).wp (contract k.promise k.out) post g')
    (herror : ∀ e g', g'.held = g.held → k.throws e → post (.error e) g') :
    ((FfmBlake3.find name).bind f).wp (contract k.promise k.out) post g := by
  refine wp_bind (wp_gets lookup_gets habove ?_ ?_)
  · intro u g' hheld _
    refine wp_lastAsk ?_
    intro r hr
    cases r with
    | ok found => exact hok found g' hheld hr
    | error e => exact herror e g' hheld hr
  · intro e g' hheld he
    exact herror e g' hheld he

/-- A handle that is not null. -/
theorem downcall_gets {f : NativeHandle} {name : String} {descriptor : FunctionDescriptor}
    (hname : name = f.prototype.name) (hdesc : descriptor = f.prototype.descriptor) :
    Gets k.promise k.out (.handle f) (FfmBlake3.downcall f name descriptor) := by
  subst hname
  subst hdesc
  refine gets_get ?_
  intro g hg
  have hlinker : g.Above k.promise .linker := above_of_le hg Nat.zero_lt_one
  have hlookup : g.Above k.promise .lookup := above_of_le hg Nat.zero_lt_one
  refine wp_gets linker_gets hlinker ?_ ?_
  · intro u g' hheld _
    refine wp_bind (wp_find (Known.Above.same hlookup hheld) ?_ ?_)
    · intro found g'' hheld' hfound
      cases found with
      | none => exact ⟨hheld'.trans hheld, .inr rfl⟩
      | some symbol =>
        refine wp_lastAsk ?_
        intro r hr
        cases r with
        | ok h =>
          obtain rfl := hr
          exact ⟨hheld'.trans hheld, hfound symbol rfl, rfl⟩
        | error e => exact ⟨hheld'.trans hheld, .inl hr⟩
    · exact fun e g'' hheld' he => ⟨hheld'.trans hheld, .inl he⟩
  · exact fun e g' hheld he => ⟨hheld, .inl he⟩

theorem sizeofHandle_gets :
    Gets k.promise k.out .sizeofHandle FfmBlake3.blake3HasherSizeofHandle := by
  refine gets_get ?_
  intro g hg
  have hlinker : g.Above k.promise .linker := above_of_le hg Nat.zero_lt_one
  have hlookup : g.Above k.promise .lookup := above_of_le hg Nat.zero_lt_one
  refine wp_find hlookup ?_ ?_
  · intro found g' hheld hfound
    cases found with
    | none => exact ⟨hheld, fun h hh => absurd hh (by simp)⟩
    | some symbol =>
      refine wp_gets linker_gets (Known.Above.same hlinker hheld) ?_ ?_
      · intro u g'' hheld' _
        refine wp_ask ?_ ?_
        · rintro handle rfl
          refine ⟨hheld'.trans hheld, ?_⟩
          rintro h hh
          cases hh
          exact ⟨hfound symbol rfl, rfl⟩
        · exact fun e he => ⟨hheld'.trans hheld, he⟩
      · exact fun e g'' hheld' he => ⟨hheld'.trans hheld, he⟩
  · exact fun e g' hheld he => ⟨hheld, he⟩

theorem hasherSize_gets : Gets k.promise k.out .hasherSize FfmBlake3.hasherSize := by
  have h1912 : 1912 = blake3HasherSizeof := rfl
  refine gets_get ?_
  intro g hg
  have hsize : g.Above k.promise .sizeofHandle := above_of_le hg (Nat.lt_succ_self 1)
  refine wp_tryCatch (wp_gets sizeofHandle_gets hsize ?_ ?_)
  · intro handle g' hheld hhandle
    cases handle with
    | none => exact ⟨hheld, h1912⟩
    | some h =>
      refine wp_lastAsk ?_
      intro r hr
      cases r with
      | ok size => exact ⟨hheld, hr (hhandle h rfl).1⟩
      | error e => exact ⟨hheld, h1912⟩
  · exact fun e g' hheld _ => ⟨hheld, h1912⟩

/-- **Every property keeps to the order of the locks.** -/
theorem FfmLazy.gets (l : FfmLazy) : Gets k.promise k.out l l.prog := by
  cases l with
  | linker => exact linker_gets
  | lookup => exact lookup_gets
  | sizeofHandle => exact sizeofHandle_gets
  | handle f =>
    cases f with
    | init => exact downcall_gets rfl rfl
    | initKeyed => exact downcall_gets rfl rfl
    | update => exact downcall_gets rfl rfl
    | finalize => exact downcall_gets rfl rfl
    | reset => exact downcall_gets rfl rfl
  | hasherSize => exact hasherSize_gets

end

/-! ### Runs -/

abbrev FfmLazyConfig (T : Type) := Config T (Cmd FfmLazy FfmLazy.Value LinkerCmd)
  (Cmd.Answer LinkerCmd.Answer) Throwable FfmLazy (Σ l, FfmLazy.Value l) (State T FfmLazy.Value)

/-- Threads that read the properties. -/
def ffmLazies (T : Type) (k : Linkage) := system T k.out FfmLazy.prog

/-- What holds in every run. -/
structure LaziesRight {T : Type} [DecidableEq T] (k : Linkage) (cfg : FfmLazyConfig T) :
    Prop where
  /-- All accesses of a property that return, return the same. -/
  same : ∀ t u l v w, Happened.finished t l (.ok v) ∈ cfg.history →
    Happened.finished u l (.ok w) ∈ cfg.history → v = w
  handle : ∀ t f h, Happened.finished t (.handle f) (.ok ⟨.handle f, h⟩) ∈ cfg.history →
    MethodHandle.Calls k h f.prototype
  failed : ∀ t f e, Happened.finished t (.handle f) (.error e) ∈ cfg.history →
    k.throws e ∨ e = FfmBlake3.unsatisfiedLink f.prototype.name
  /-- The size is known whatever else fails. -/
  size : ∀ t r, Happened.finished t .hasherSize r ∈ cfg.history → r = .ok ⟨.hasherSize, (1912 : ℕ)⟩
  /-- No thread waits for ever. -/
  goesOn : ∀ t, cfg.thread t ≠ .idle →
    ∃ m cfg', Step (ffmLazies T k) cfg m cfg' ∧ ∀ u call, m ≠ .start u call

theorem Linkage.exists_out (k : Linkage) (c : LinkerCmd) : ∃ r, k.out c r := by
  cases c with
  | find name => exact ⟨.ok none, fun symbol h => absurd h (by simp)⟩
  | downcallHandle symbol descriptor => exact ⟨.ok ⟨symbol, descriptor⟩, rfl⟩
  | invokeSizeof handle => exact ⟨.ok blake3HasherSizeof, fun _ => rfl⟩
  | nativeLinker => exact ⟨.ok (), trivial⟩
  | loadNativeLibrary => exact ⟨.ok (), trivial⟩
  | loaderLookup => exact ⟨.ok (), trivial⟩

/-- A JDK that finds every symbol. -/
def linked : Linkage where
  nameAt := fun _ => "blake3_hasher_init"
  throws := fun _ => False

end Blake3Kmp
