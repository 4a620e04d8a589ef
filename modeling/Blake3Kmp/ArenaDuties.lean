/-
What each call does with arenas, whatever the other threads do.

A call keeps track of the arenas it has to close.  There are three kinds: a
call with a temporary arena, a constructor, and `close()`.  Each kind has a
contract: which commands it asks for in which state, and what it may rely on in
the answers.

* `TempKept` — the temporary arena is closed at the end;
* `Builds` — a constructor that returns has an open arena, which its field
  holds, and one that throws has opened none, if nothing fails after that;
* `Closes` — `close()` reads the field once, and what it found there it has
  closed at its end.
-/
import Blake3Kmp.ArenaPool

open Programs Prog

namespace Blake3Kmp

/-- A command that opens or closes no arena and writes no field. -/
def FfmCmd.Plain : FfmCmd → Prop
  | ofShared _ => False
  | ofConfined => False
  | closeArena _ => False
  | setArena _ _ => False
  | setSegment _ _ => False
  | _ => True

/-! ### Temporary arenas -/

/-- The state is the temporary arena that is open. -/
def tempContract : Contract FfmCmd FfmCmd.Answer Throwable (Option ℕ) where
  requires := fun temp c =>
    match c with
    | .ofConfined => temp = none
    | .closeArena a => temp = some a
    | c => c.Plain
  answers := fun temp c r temp' =>
    match c, r with
    | .ofConfined, .ok a => temp' = some a
    | .closeArena _, r => r = .ok () ∧ temp' = none
    | _, _ => temp' = temp

/-- The program closes its temporary arena, however it ends. -/
def TempKept {α : Type} (temp : Option ℕ) (x : FfmProg α) : Prop :=
  x.wp tempContract (fun _ temp' => temp' = none) temp

section

variable {α β : Type}

theorem wp_temp_plain {x : FfmProg α} (hx : x.Only FfmCmd.Plain) (temp : Option ℕ) :
    x.wp tempContract (fun _ temp' => temp' = temp) temp := by
  refine wp_only ?_ ?_ hx temp
  · intro temp c hc
    cases c with
    | ofConfined => exact absurd hc not_false
    | closeArena a => exact absurd hc not_false
    | _ => exact hc
  · intro temp c r temp' hc hr
    cases c with
    | ofConfined => exact absurd hc not_false
    | closeArena a => exact absurd hc not_false
    | _ => exact hr

theorem tempKept_plain {x : FfmProg α} (hx : x.Only FfmCmd.Plain) : TempKept none x :=
  wp_temp_plain hx none

theorem TempKept.bind {x : FfmProg α} {f : α → FfmProg β} (hx : TempKept none x)
    (hf : ∀ a, TempKept none (f a)) : TempKept none (x.bind f) := by
  refine wp_bind (wp_mono ?_ hx)
  intro r temp h
  cases r with
  | ok a =>
    rw [show temp = none from h]
    exact hf a
  | error e => exact h

/-- **A block with an arena of its own.** -/
theorem tempKept_useArena {body : ℕ → FfmProg α} (hbody : ∀ a, (body a).Only FfmCmd.Plain) :
    TempKept none (Ffm.ofConfined.bind fun a => Ffm.useArena a (body a)) := by
  refine wp_bind (wp_request rfl ?_)
  intro r temp hr
  cases r with
  | error e => exact hr
  | ok a =>
    rw [show temp = some a from hr]
    have hclose : (Ffm.closeArena a).wp tempContract
        (fun r temp => r = .ok () ∧ temp = none) (some a) :=
      wp_request rfl fun r temp hr => hr
    refine wp_closing (wp_temp_plain (hbody a) (some a)) ?_ ?_
    · intro b temp h
      rw [show temp = some a from h]
      refine wp_mono ?_ hclose
      rintro r temp ⟨rfl, h⟩
      exact h
    · intro e temp h
      rw [show temp = some a from h]
      refine wp_mono ?_ hclose
      rintro r temp ⟨-, h⟩
      exact h

/-! ### The programs that use one -/

theorem plainCmd_request {c : FfmCmd} (h : c.Plain) :
    (request c : FfmProg c.Answer).Only FfmCmd.Plain := only_request h

theorem plain_invokeExact (d : Downcall) : (Ffm.invokeExact d).Only FfmCmd.Plain :=
  (plainCmd_request (c := .handle d.name) trivial).bind fun _ =>
    plainCmd_request (c := .downcall d) trivial

theorem plain_hasherSize : Ffm.hasherSize.Only FfmCmd.Plain := by
  refine Only.tryCatch ((plainCmd_request (c := .sizeofHandle) trivial).bind ?_) fun _ => trivial
  intro (found : Bool)
  cases found with
  | true => exact plainCmd_request (c := .hasherSizeof) trivial
  | false => exact trivial

theorem plain_hashWith (arena : ℕ) (s : MemorySegment) (data result : JByteArray)
    (outLen : Int32) : (Ffm.hashWith arena s data result outLen).Only FfmCmd.Plain := by
  refine (plainCmd_request (c := .allocate arena data.bytes.length) trivial).bind fun input => ?_
  refine (plainCmd_request (c := .copyIn data 0 input data.size) trivial).bind fun _ => ?_
  refine (plain_invokeExact _).bind fun _ => ?_
  refine (plainCmd_request (c := .allocate arena outLen.toInt.toNat) trivial).bind fun output => ?_
  refine (plain_invokeExact _).bind fun _ => ?_
  exact plainCmd_request (c := .copyOut output result 0 outLen) trivial

theorem tempKept_hash (data : JByteArray) (outLen : Int32) :
    TempKept none (Ffm.hash data outLen) := by
  rw [Ffm.hash]
  split
  · exact rfl
  · split
    · exact rfl
    · split
      · exact rfl
      · refine tempKept_useArena fun a => ?_
        refine plain_hasherSize.bind fun size => ?_
        refine (plainCmd_request (c := .allocate a size) trivial).bind fun s => ?_
        exact (plain_invokeExact _).bind fun _ => plain_hashWith a s _ _ _

theorem tempKept_keyedHash (key data : JByteArray) (outLen : Int32) :
    TempKept none (Ffm.keyedHash key data outLen) := by
  rw [Ffm.keyedHash]
  split
  · exact rfl
  · split
    · exact rfl
    · split
      · exact rfl
      · split
        · exact rfl
        · refine tempKept_useArena fun a => ?_
          refine plain_hasherSize.bind fun size => ?_
          refine (plainCmd_request (c := .allocate a size) trivial).bind fun s => ?_
          refine (plainCmd_request (c := .allocate a 32) trivial).bind fun k => ?_
          refine (plainCmd_request (c := .copyIn key 0 k 32) trivial).bind fun _ => ?_
          exact (plain_invokeExact _).bind fun _ => plain_hashWith a s _ _ _

theorem tempKept_update (self : ℕ) (input : JByteArray) (offset length : Int32) :
    TempKept none (Ffm.Blake3Stream.update self input offset length) := by
  rw [Ffm.Blake3Stream.update]
  split
  · exact rfl
  · split
    · exact rfl
    · refine (tempKept_plain (plainCmd_request (c := .getSegment self) trivial)).bind fun found => ?_
      cases found with
      | none => exact rfl
      | some s =>
        refine tempKept_useArena fun a => ?_
        refine (plainCmd_request (c := .allocate a length.toInt.toNat) trivial).bind fun i => ?_
        refine (plainCmd_request (c := .copyIn input offset i length) trivial).bind fun _ => ?_
        exact plain_invokeExact _

theorem tempKept_finalizeInto (self : ℕ) (out : JByteArray) (offset length : Int32) :
    TempKept none (Ffm.Blake3Stream.finalizeInto self out offset length) := by
  rw [Ffm.Blake3Stream.finalizeInto]
  split
  · exact rfl
  · split
    · exact rfl
    · refine (tempKept_plain (plainCmd_request (c := .getSegment self) trivial)).bind fun found => ?_
      cases found with
      | none => exact rfl
      | some s =>
        refine tempKept_useArena fun a => ?_
        refine (plainCmd_request (c := .allocate a length.toInt.toNat) trivial).bind fun o => ?_
        refine (plain_invokeExact _).bind fun _ => ?_
        exact plainCmd_request (c := .copyOut o out offset length) trivial

/-- The calls other than constructors and `close()`. -/
def FfmCall.Temporary : FfmCall → Prop
  | new _ _ => False
  | call _ .close => False
  | _ => True

/-- **Every other call closes its temporary arena.** -/
theorem tempKept_body {call : FfmCall} (h : call.Temporary) : TempKept none call.body := by
  have hreply : ∀ {α : Type} {x : FfmProg α} {f : α → Reply}, TempKept none x →
      TempKept none (x.bind fun a => .pure (f a)) :=
    fun hx => hx.bind fun _ => rfl
  cases call with
  | new self key => exact absurd h not_false
  | hash data outLen => exact hreply (tempKept_hash data outLen)
  | keyedHash key data outLen => exact hreply (tempKept_keyedHash key data outLen)
  | call self op =>
    cases op with
    | update input offset length => exact hreply (tempKept_update self input offset length)
    | finalizeInto out offset length => exact hreply (tempKept_finalizeInto self out offset length)
    | finalize outLen =>
      refine hreply ?_
      rw [Ffm.Blake3Stream.finalize]
      cases JByteArray.alloc outLen with
      | error e => exact rfl
      | ok result => exact tempKept_finalizeInto self result 0 outLen
    | reset =>
      refine hreply ?_
      refine (tempKept_plain (plainCmd_request (c := .getSegment self) trivial)).bind fun found => ?_
      cases found with
      | none => exact rfl
      | some s => exact tempKept_plain (plain_invokeExact _)
    | close => exact absurd h not_false

end

/-! ### Constructors -/

/-- The arena that a constructor has opened, and whether the field holds it. -/
structure BuildState where
  arena : Option ℕ
  stored : Bool

/-- Nobody else has the stream yet, and nothing essential fails. -/
def buildContract (self : ℕ) : Contract FfmCmd FfmCmd.Answer Throwable BuildState where
  requires := fun b c =>
    match c with
    | .ofShared self' => self' = self ∧ b = ⟨none, false⟩
    | .setArena self' arena => self' = self ∧ arena = b.arena ∧ b.arena.isSome = true
    | .setSegment self' _ => self' = self
    | .getArena self' => self' = self ∧ b.stored = true
    | .ofConfined => False
    | .closeArena _ => False
    | _ => True
  answers := fun b c r b' =>
    match c, r with
    | .ofShared _, .ok a => b' = ⟨some a, false⟩
    | .setArena _ _, r => r = .ok () ∧ b' = { b with stored := true }
    | .setSegment _ _, r => r = .ok () ∧ b' = b
    | .getArena _, r => r = .ok b.arena ∧ b' = b
    | .allocate a size, r => (∃ s : MemorySegment, r = .ok s ∧ s.arena = a ∧ s.size = size) ∧ b' = b
    | .copyIn array offset s length, r =>
      ((inRange array offset length ∧ 0 ≤ length.toInt ∧ length.toInt.toNat ≤ s.size) ∧
        b.arena = some s.arena → ∃ u, r = .ok u) ∧ b' = b
    | c, r => (c.Essential → ∃ v, r = .ok v) ∧ b' = b

/-- The program ends with an arena stored, or throws without one. -/
def Builds {α : Type} (self : ℕ) (b : BuildState) (x : FfmProg α) : Prop :=
  x.wp (buildContract self) (fun r b' => match r with
    | .ok _ => ∃ a, b' = ⟨some a, true⟩
    | .error _ => b'.arena = none) b

section

variable {α : Type} {self : ℕ} {b : BuildState}

/-- A command that does not fail and leaves the state as it is. -/
theorem builds_request {c : FfmCmd} {f : c.Answer → FfmProg α}
    (hreq : (buildContract self).requires b c)
    (hok : ∀ r b', (buildContract self).answers b c r b' → (∃ v, r = .ok v) ∧ b' = b)
    (hf : ∀ v b', (buildContract self).answers b c (.ok v) b' → Builds self b (f v)) :
    Builds self b ((request c).bind f) := by
  refine wp_bind (wp_request hreq ?_)
  intro r b' hr
  obtain ⟨⟨v, rfl⟩, rfl⟩ := hok r b' hr
  exact hf v b' hr

theorem builds_invokeExact {d : Downcall} {f : Unit → FfmProg α} (hf : Builds self b (f ())) :
    Builds self b ((Ffm.invokeExact d).bind f) := by
  refine wp_bind (wp_bind (wp_request trivial ?_))
  rintro r b' ⟨hok, rfl⟩
  obtain ⟨v, rfl⟩ := hok trivial
  refine wp_request trivial ?_
  rintro r b' ⟨hok, rfl⟩
  obtain ⟨v, rfl⟩ := hok trivial
  exact hf

theorem builds_hasherSize {f : ℕ → FfmProg α} (hf : ∀ size, Builds self b (f size)) :
    Builds self b (Ffm.hasherSize.bind f) := by
  refine wp_bind (wp_tryCatch (wp_bind (wp_request trivial ?_)))
  rintro r b' ⟨-, rfl⟩
  cases r with
  | error e => exact hf 1912
  | ok found =>
    cases found with
    | false => exact hf 1912
    | true =>
      refine wp_request trivial ?_
      rintro r b' ⟨-, rfl⟩
      cases r with
      | error e => exact hf 1912
      | ok size => exact hf size

/-- **A constructor keeps the arena that it opens.** -/
theorem builds_new {key : Option JByteArray} (hkey : ∀ k, key = some k → k.size = 32) :
    Builds self ⟨none, false⟩ (FfmCall.new self key).body := by
  suffices hnew : Builds self ⟨none, false⟩ (Ffm.Blake3Stream.new self key) by
    refine wp_bind (wp_mono ?_ hnew)
    intro r b h
    cases r with
    | ok u => exact h
    | error e => exact h
  refine wp_bind (wp_request ⟨rfl, rfl⟩ ?_)
  intro r b hr
  cases r with
  | error e => exact congrArg BuildState.arena hr.2
  | ok a =>
    obtain rfl : b = ⟨some a, false⟩ := hr
    refine wp_bind (wp_request ⟨rfl, rfl, rfl⟩ ?_)
    rintro r b ⟨rfl, rfl⟩
    refine builds_request (c := .setSegment self none) rfl (fun r b h => ⟨⟨(), h.1⟩, h.2⟩) ?_
    intro _ _ _
    refine builds_request (c := .loadNativeLibrary) trivial (fun r b h => ⟨h.1 trivial, h.2⟩) ?_
    intro _ _ _
    cases key with
    | none =>
      refine builds_request (c := .getArena self) ⟨rfl, rfl⟩ (fun r b h => ⟨⟨_, h.1⟩, h.2⟩) ?_
      intro v _ hv
      obtain rfl : v = some a := Except.ok.inj hv.1
      refine builds_hasherSize fun size => ?_
      refine builds_request (c := .allocate a size) trivial
        (fun r b h => ⟨⟨h.1.choose, h.1.choose_spec.1⟩, h.2⟩) ?_
      intro s _ _
      refine builds_invokeExact (wp_request rfl ?_)
      rintro r b ⟨rfl, rfl⟩
      exact ⟨a, rfl⟩
    | some key =>
      have hsize := hkey key rfl
      have hin : inRange key 0 32 := by
        refine ⟨le_rfl, ?_⟩
        have hlen := (size_eq_iff key).mp hsize
        show (0 : ℤ) + 32 ≤ _
        omega
      dsimp only
      rw [if_neg (not_not.mpr hsize)]
      refine builds_request (c := .getArena self) ⟨rfl, rfl⟩ (fun r b h => ⟨⟨_, h.1⟩, h.2⟩) ?_
      intro v _ hv
      obtain rfl : v = some a := Except.ok.inj hv.1
      refine builds_hasherSize fun size => ?_
      refine builds_request (c := .allocate a size) trivial
        (fun r b h => ⟨⟨h.1.choose, h.1.choose_spec.1⟩, h.2⟩) ?_
      intro s _ _
      refine builds_request (c := .allocate a 32) trivial
        (fun r b h => ⟨⟨h.1.choose, h.1.choose_spec.1⟩, h.2⟩) ?_
      rintro k _ ⟨⟨k', hk, harena, hk32⟩, -⟩
      obtain rfl := Except.ok.inj hk
      -- the copy is in range
      refine builds_request (c := .copyIn key 0 k 32) trivial
        (fun r b h => ⟨h.1 ⟨⟨hin, by decide, hk32.ge⟩, by rw [harena]⟩, h.2⟩) ?_
      intro _ _ _
      refine builds_invokeExact (wp_request rfl ?_)
      rintro r b ⟨rfl, rfl⟩
      exact ⟨a, rfl⟩

end

/-! ### `close()` -/

/-- Before the field is read, with an arena to close, and after that. -/
inductive Closing
  | reading
  | pending (a : ℕ)
  | done

def closeContract (self : ℕ) : Contract FfmCmd FfmCmd.Answer Throwable Closing where
  requires := fun d c =>
    match c with
    | .getArena self' => self' = self ∧ d = .reading
    | .setSegment self' _ => self' = self ∧ ∃ a, d = .pending a
    | .setArena self' arena => self' = self ∧ arena = none ∧ ∃ a, d = .pending a
    | .closeArena a => d = .pending a
    | _ => False
  answers := fun d c r d' =>
    match c, r with
    | .getArena _, .ok none => d' = .done
    | .getArena _, .ok (some a) => d' = .pending a
    | .getArena _, .error _ => False
    | .setSegment _ _, r => r = .ok () ∧ d' = d
    | .setArena _ _, r => r = .ok () ∧ d' = d
    | .closeArena _, _ => d' = .done
    | _, _ => d' = d

/-- The program closes the arena that it finds in the field. -/
def Closes {α : Type} (self : ℕ) (d : Closing) (x : FfmProg α) : Prop :=
  x.wp (closeContract self) (fun _ d' => d' = .done) d

theorem closes_close (self : ℕ) : Closes self .reading (FfmCall.call self .close).body := by
  refine wp_bind (wp_bind (wp_request ⟨rfl, rfl⟩ ?_))
  intro r d hr
  cases r with
  | error e => exact absurd hr not_false
  | ok found =>
    cases found with
    | none => exact hr
    | some a =>
      obtain rfl : d = .pending a := hr
      refine wp_bind (wp_request ⟨rfl, a, rfl⟩ ?_)
      rintro r d ⟨rfl, rfl⟩
      refine wp_bind (wp_request ⟨rfl, rfl, a, rfl⟩ ?_)
      rintro r d ⟨rfl, rfl⟩
      refine wp_tryCatch (wp_request rfl ?_)
      intro r d hd
      cases r with
      | ok u => exact hd
      | error e => exact hd

end Blake3Kmp
