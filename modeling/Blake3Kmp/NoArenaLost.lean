/-
No arena is lost, in careful runs.

Each of the three kinds of calls keeps the invariant of `ArenasKept.lean` when
one of its commands is answered; the rule for invariants does the rest.

* `answer_temporary`, `answer_new`, `answer_close` — one answer, for each kind
  of call;
* `noArenaLost` — in a careful run no arena is lost;
* `arena_lost` — without care one may be: a key of 31 bytes is enough.
-/
import Blake3Kmp.ArenasKept

open Programs Prog

namespace Blake3Kmp

/-! ### One answer -/

section

variable {s s' : Resources} {t : ℕ} {inUse : ℕ → Prop}

/-- A plain command leaves arenas and fields as they are. -/
theorem Resources.Answers.plain {c : FfmCmd} {r : Except Throwable c.Answer} (hc : c.Plain)
    (h : s.Answers t inUse c r s') : s' = s := by
  cases c with
  | ofShared self => exact absurd hc not_false
  | ofConfined => exact absurd hc not_false
  | closeArena a => exact absurd hc not_false
  | setArena self arena => exact absurd hc not_false
  | setSegment self segment => exact absurd hc not_false
  | allocate a size =>
    cases r with
    | ok segment => exact h.2.2.2
    | error e => exact h
  | downcall d =>
    cases r with
    | ok u => exact h.2
    | error e => exact h
  | copyIn _ _ _ _ | copyOut _ _ _ _ | getArena _ | getSegment _ => exact h.2
  | loadNativeLibrary | handle _ | sizeofHandle | hasherSizeof =>
    cases r with
    | ok v => exact h
    | error e => exact h

theorem Resources.usable_shared {a : ℕ} (h : s.arenas a = some ⟨none, true⟩) :
    s.usable t a = true := by
  rw [Resources.usable, h]
  rfl

theorem Resources.usable_confined {a u : ℕ} (h : s.arenas a = some ⟨some t, true⟩) :
    s.usable u a = true ↔ u = t := by
  rw [Resources.usable, h]
  simp only [Option.isNone_some, Bool.false_or, Bool.true_and, beq_iff_eq, Option.some.injEq]
  exact eq_comm

variable {rest : Rests} {history : PoolHistory} (hacc : Accounted s rest history)
  (huse : ∀ a, inUse a → ∃ u, u ≠ t ∧ s.usable u a = true)
include hacc

include huse in
/-- A call with a temporary arena. -/
theorem answer_temporary {call : FfmCall} (htemporary : call.Temporary) {c : FfmCmd}
    {next : Except Throwable c.Answer → FfmProg Reply}
    (hrest : rest t = some (call, .perform c next)) {r : Except Throwable c.Answer}
    (hanswer : s.Answers t inUse c r s') : Frame t call s s' ∧ Dutiful s' t call (next r) := by
  obtain ⟨⟨temp, htemp, hkept, -⟩, -, -⟩ := hacc.dutiful t call _ hrest
  obtain ⟨hreq, hnext⟩ := hkept htemporary
  have hduty : ∀ {temp'}, (∀ a, s'.arenas a = some ⟨some t, true⟩ ↔ temp' = some a) →
      TempKept temp' (next r) → Dutiful s' t call (next r) := by
    intro temp' htemp' hx
    refine ⟨⟨temp', htemp', fun _ => hx, fun h => absurd htemporary h⟩, ?_, ?_⟩
    · rintro self key rfl
      exact absurd htemporary not_false
    · rintro self rfl
      exact absurd htemporary not_false
  have hplain : c.Plain → tempContract.answers temp c r temp →
      Frame t call s s' ∧ Dutiful s' t call (next r) := by
    intro hc hr
    have hsame := hanswer.plain hc
    subst hsame
    exact ⟨.same, hduty htemp (hnext r temp hr)⟩
  cases c with
  | ofShared self => exact absurd hreq not_false
  | setArena self arena => exact absurd hreq not_false
  | setSegment self segment => exact absurd hreq not_false
  | ofConfined =>
    obtain rfl : temp = none := hreq
    cases r with
    | error e =>
      obtain rfl : s' = s := hanswer
      exact ⟨.same, hduty htemp (hnext _ none rfl)⟩
    | ok a =>
      obtain ⟨hfresh, rfl⟩ : s.arenas a = none ∧ s' = s.openConfined t a := hanswer
      refine ⟨.openConfined hacc htemporary hfresh, hduty ?_ (hnext _ (some a) rfl)⟩
      intro b
      show Function.update s.arenas a _ b = _ ↔ _
      by_cases hb : b = a
      · subst hb
        rw [Function.update_self]
        exact ⟨fun _ => rfl, fun _ => rfl⟩
      · rw [Function.update_of_ne hb, htemp b]
        exact ⟨nofun, fun h => absurd (Option.some.inj h).symm hb⟩
  | closeArena a =>
    obtain rfl : temp = some a := hreq
    have hopen := (htemp a).mpr rfl
    -- nobody else can use a confined arena
    have hfree : ¬ inUse a := by
      intro h
      obtain ⟨u, hu, husable⟩ := huse a h
      exact hu ((Resources.usable_confined hopen).mp husable)
    rcases hanswer with ⟨-, -, rfl, rfl⟩ | ⟨hnot, -, -⟩
    · refine ⟨.closeConfined hacc htemporary hopen, hduty ?_ (hnext _ none ⟨rfl, rfl⟩)⟩
      intro b
      show Function.update s.arenas a _ b = _ ↔ _
      by_cases hb : b = a
      · subst hb
        rw [Function.update_self, hopen]
        simp
      · rw [Function.update_of_ne hb, htemp b]
        simp [Ne.symm hb]
    · exact absurd ⟨(Resources.usable_confined hopen).mpr rfl, hfree⟩ hnot
  | allocate _ _ | copyIn _ _ _ _ | copyOut _ _ _ _ | loadNativeLibrary | handle _
  | sizeofHandle | hasherSizeof | downcall _ | getArena _ | getSegment _ => exact hplain hreq rfl

/-- A constructor, as long as nothing essential fails. -/
theorem answer_new {self : ℕ} {key : Option JByteArray} {c : FfmCmd}
    {next : Except Throwable c.Answer → FfmProg Reply}
    (hrest : rest t = some (.new self key, .perform c next)) {r : Except Throwable c.Answer}
    (hanswer : s.Answers t inUse c r s') (hcare : c.Essential → ∃ v, r = .ok v) :
    Frame t (.new self key) s s' ∧ Dutiful s' t (.new self key) (next r) := by
  obtain ⟨⟨temp, htemp, -, hnone⟩, hbuilds, -⟩ := hacc.dutiful t _ _ hrest
  obtain ⟨b, hb, hreq, hnext⟩ := hbuilds self key rfl
  have hduty : Frame t (.new self key) s s' → ∀ b', BuiltSoFar s' self b' →
      Builds self b' (next r) → Dutiful s' t (.new self key) (next r) := by
    intro hframe b' hb' hx
    refine ⟨⟨temp, ?_, fun h => absurd h not_false, hnone⟩, ?_, nofun⟩
    · intro a
      rw [hframe.temps t (.inr not_false) a]
      exact htemp a
    · rintro self' key' h
      obtain ⟨rfl, -⟩ := FfmCall.new.inj h
      exact ⟨b', hb', hx⟩
  have hplain : c.Plain → (buildContract self).answers b c r b →
      Frame t (.new self key) s s' ∧ Dutiful s' t (.new self key) (next r) := by
    intro hc hr
    have hsame := hanswer.plain hc
    subst hsame
    exact ⟨.same, hduty .same b hb (hnext r b hr)⟩
  cases c with
  | ofConfined => exact absurd hreq not_false
  | closeArena a => exact absurd hreq not_false
  | ofShared self' =>
    obtain ⟨rfl, rfl⟩ : self' = self ∧ b = ⟨none, false⟩ := hreq
    cases r with
    | error e =>
      obtain rfl : s' = s := hanswer
      exact ⟨.same, hduty .same _ hb (hnext _ _ ⟨fun h => absurd h not_false, rfl⟩)⟩
    | ok a =>
      obtain ⟨hfresh, rfl⟩ : s.arenas a = none ∧ s' = s.openShared self' a := hanswer
      have hframe : Frame t (.new self' key) s (s.openShared self' a) :=
        .openShared hacc hfresh hb.arenaOf
      refine ⟨hframe, hduty hframe ⟨some a, false⟩ ⟨Function.update_self .., ?_, nofun⟩
        (hnext _ _ rfl)⟩
      intro a' h
      obtain rfl := Option.some.inj h
      exact Function.update_self ..
  | setArena self' arena =>
    obtain ⟨rfl, rfl, -⟩ : self' = self ∧ arena = b.arena ∧ b.arena.isSome = true := hreq
    obtain ⟨rfl, rfl⟩ : r = .ok () ∧ s' = s.setArena self' b.arena := hanswer
    have hframe : Frame t (.new self' key) s (s.setArena self' b.arena) :=
      .setArena (.inl ⟨key, rfl⟩) fun a h => hb.arenaOf.trans h
    refine ⟨hframe, hduty hframe { b with stored := true } ⟨hb.arenaOf, hb.isOpen, fun _ => ?_⟩
      (hnext _ _ ⟨rfl, rfl⟩)⟩
    show (Function.update s.streams self' _ self').arena = _
    rw [Function.update_self]
  | setSegment self' segment =>
    obtain rfl : self' = self := hreq
    obtain ⟨rfl, rfl⟩ : r = .ok () ∧ s' = s.setSegment self' segment := hanswer
    have hframe : Frame t (.new self' key) s (s.setSegment self' segment) := .setSegment self' _
    refine ⟨hframe, hduty hframe b ⟨hb.arenaOf, hb.isOpen, fun h => ?_⟩ (hnext _ _ ⟨rfl, rfl⟩)⟩
    show (Function.update s.streams self' _ self').arena = _
    rw [Function.update_self]
    exact hb.field h
  | getArena self' =>
    obtain ⟨rfl, hstored⟩ : self' = self ∧ b.stored = true := hreq
    have hr : r = .ok (s.streams self').arena := hanswer.1
    exact hplain trivial ⟨hr.trans (congrArg Except.ok (hb.field hstored)), rfl⟩
  | allocate a size =>
    obtain ⟨v, rfl⟩ := hcare trivial
    obtain ⟨-, harena, hsize, -⟩ : _ ∧ v.arena = a ∧ v.size = size ∧ s' = s := hanswer
    exact hplain trivial ⟨⟨v, rfl, harena, hsize⟩, rfl⟩
  | copyIn array offset segment length =>
    refine hplain trivial ⟨?_, rfl⟩
    rintro ⟨hin, harena⟩
    exact hanswer.1.mpr ⟨hin, Resources.usable_shared (hb.isOpen _ harena)⟩
  | copyOut _ _ _ _ | loadNativeLibrary | handle _ | sizeofHandle | hasherSizeof | downcall _
  | getSegment _ => exact hplain trivial ⟨hcare, rfl⟩

/-- `close()`, when nobody else is in a native call on the arena that it closes. -/
theorem answer_close {self : ℕ} {c : FfmCmd} {next : Except Throwable c.Answer → FfmProg Reply}
    (hrest : rest t = some (.call self .close, .perform c next)) {r : Except Throwable c.Answer}
    (hanswer : s.Answers t inUse c r s') (hcare : ∀ a, c = .closeArena a → ¬ inUse a) :
    Frame t (.call self .close) s s' ∧ Dutiful s' t (.call self .close) (next r) ∧
      StreamKept s' (Function.update rest t (some (.call self .close, next r))) history self := by
  obtain ⟨⟨temp, htemp, -, hnone⟩, -, hcloses⟩ := hacc.dutiful t _ _ hrest
  obtain ⟨d, hd, hreq, hnext⟩ := hcloses self rfl
  have hstarted := hacc.started t _ _ hrest
  obtain ⟨a, ha, hopen, hwho⟩ := hacc.kept self (hacc.called t self .close hstarted)
  have hduty : Frame t (.call self .close) s s' → ∀ d',
      (∀ a, d' = .pending a → s'.arenaOf self = some a) → Closes self d' (next r) →
        Dutiful s' t (.call self .close) (next r) := by
    intro hframe d' hd' hx
    refine ⟨⟨temp, ?_, fun h => absurd h not_false, hnone⟩, nofun, ?_⟩
    · intro a
      rw [hframe.temps t (.inr not_false) a]
      exact htemp a
    · rintro self' h
      obtain ⟨rfl, -⟩ := FfmCall.call.inj h
      exact ⟨d', hd', hx⟩
  -- this thread goes on to close the arena
  have hmine : ∀ {d'}, Closes self d' (next r) →
      InClose (Function.update rest t (some (.call self .close, next r))) self d' :=
    fun hx => ⟨t, next r, rest_self, hx⟩
  have hpending : d = .pending a → Frame t (.call self .close) s s' →
      (s'.arenaOf = s.arenaOf ∧ s'.arenas = s.arenas) →
      (closeContract self).answers d c r d →
      Frame t (.call self .close) s s' ∧ Dutiful s' t (.call self .close) (next r) ∧
      StreamKept s' (Function.update rest t (some (.call self .close, next r))) history self := by
    rintro rfl hframe ⟨hof, harenas⟩ hr
    have hx := hnext r _ hr
    have hof' : s'.arenaOf self = some a := hof ▸ ha
    refine ⟨hframe, hduty hframe _ ?_ hx, a, hof', harenas ▸ hopen, fun _ => .inr (hmine hx)⟩
    intro a' h
    rwa [← Closing.pending.inj h]
  have hsame : ∀ {a'}, d = .pending a' → a' = a :=
    fun h => Option.some.inj ((hd _ h).symm.trans ha)
  cases c with
  | getArena self' =>
    obtain ⟨rfl, rfl⟩ : self' = self ∧ d = .reading := hreq
    obtain ⟨rfl, rfl⟩ : r = .ok (s.streams self').arena ∧ s' = s := hanswer
    cases hfield : (s'.streams self').arena with
    | none =>
      rw [hfield] at hduty hmine
      have hx := hnext (.ok none) .done rfl
      refine ⟨.same, hduty .same .done nofun hx, a, ha, hopen, fun h => ?_⟩
      rcases hwho h with ⟨hf, -⟩ | h
      · exact absurd (hf.symm.trans hfield) (by simp)
      · -- another `close()` has it
        refine .inr (h.update ?_)
        intro x hx hclosing
        obtain ⟨-, rfl⟩ := Prod.mk.inj (Option.some.inj (hrest.symm.trans hx))
        exact absurd hclosing.1.2 nofun
    | some a' =>
      rw [hfield] at hduty hmine
      obtain rfl : a' = a := Option.some.inj ((hacc.field self' a' hfield).symm.trans ha)
      have hx := hnext (.ok (some a')) (.pending a') rfl
      refine ⟨.same, hduty .same (.pending a') ?_ hx, a', ha, hopen, fun _ => .inr (hmine hx)⟩
      intro b hb
      rwa [← Closing.pending.inj hb]
  | setSegment self' segment =>
    obtain ⟨rfl, a', rfl⟩ : self' = self ∧ ∃ a', d = .pending a' := hreq
    obtain rfl := hsame rfl
    obtain ⟨rfl, rfl⟩ : r = .ok () ∧ s' = s.setSegment self' segment := hanswer
    exact hpending rfl (.setSegment self' _) ⟨rfl, rfl⟩ ⟨rfl, rfl⟩
  | setArena self' arena =>
    obtain ⟨rfl, rfl, a', rfl⟩ : self' = self ∧ arena = none ∧ ∃ a', d = .pending a' := hreq
    obtain rfl := hsame rfl
    obtain ⟨rfl, rfl⟩ : r = .ok () ∧ s' = s.setArena self' none := hanswer
    exact hpending rfl (.setArena (.inr rfl) nofun) ⟨rfl, rfl⟩ ⟨rfl, rfl⟩
  | closeArena a' =>
    obtain rfl : d = .pending a' := hreq
    obtain rfl := hsame rfl
    have hcalled : CloseCalled history self := ⟨t, hstarted⟩
    have hx := hnext r .done rfl
    rcases hanswer with ⟨-, -, -, rfl⟩ | ⟨hnot, -, rfl⟩
    · have hframe : Frame t (.call self .close) s (s.close a') := .closeShared hacc ha
      refine ⟨hframe, hduty hframe .done nofun hx, a', ha, fun h => absurd hcalled h, ?_⟩
      intro h
      have husable := Resources.usable_shared (t := t) h
      rw [Resources.usable_close_self] at husable
      exact absurd husable nofun
    · refine ⟨.same, hduty .same .done nofun hx, a', ha, fun h => absurd hcalled h, ?_⟩
      intro h
      exact absurd ⟨Resources.usable_shared h, hcare a' rfl⟩ hnot
  | ofShared _ | ofConfined | allocate _ _ | copyIn _ _ _ _ | copyOut _ _ _ _
  | loadNativeLibrary | handle _ | sizeofHandle | hasherSizeof | downcall _ | getSegment _ =>
    exact absurd hreq not_false

end

/-! ### Careful runs -/

theorem Accounted.initial : Accounted .initial (fun _ => none) [] where
  dutiful := fun _ _ _ h => absurd h (by simp)
  idle := fun _ _ _ h => absurd h (by simp [Resources.initial])
  shared := fun _ _ h => absurd h (by simp [Resources.initial])
  distinct := fun _ _ _ h => absurd h (by simp [Resources.initial])
  field := fun _ _ h => absurd h (by simp [Resources.initial])
  owned := fun _ h => absurd h (by simp [Resources.initial])
  kept := fun _ ⟨_, _, _, h⟩ => absurd h (by simp)
  unused := fun _ _ h => absurd h (by simp [Resources.initial])
  started := fun _ _ _ h => absurd h (by simp)
  finished := fun _ _ _ h => absurd h (by simp)
  building := fun _ _ _ _ h => absurd h (by simp)
  called := fun _ _ _ h => absurd h (by simp)

theorem accounted_of_reach {cfg : PoolConfig} (h : Reach ffmPool Careful freshPool cfg) :
    Accounted cfg.shared cfg.rest cfg.history := by
  refine Reach.invariant Accounted .initial ?_ ?_ ?_ ?_ h
  · intro cfg t call hacc hidle hmay hcare
    refine hacc.start hidle ?_ ?_ tempKept_body ?_
    · rintro self key rfl
      exact ⟨hmay, builds_new hcare⟩
    · rintro self op rfl
      exact hmay
    · rintro self rfl
      exact closes_close self
  · intro cfg t call c next r s hacc hrest hanswer hcare
    have huse : ∀ a, InUse cfg t a → ∃ u, u ≠ t ∧ cfg.shared.usable u a = true := by
      rintro a ⟨u, hu, husable, -⟩
      exact ⟨u, hu, husable⟩
    by_cases htemporary : call.Temporary
    · obtain ⟨hframe, hduty⟩ := answer_temporary hacc huse htemporary hrest hanswer
      refine hacc.answer hrest hframe hduty ?_
      rintro self rfl
      exact absurd htemporary not_false
    · cases call with
      | new self key =>
        obtain ⟨hframe, hduty⟩ := answer_new hacc hrest hanswer hcare
        exact hacc.answer hrest hframe hduty nofun
      | hash data outLen => exact absurd trivial htemporary
      | keyedHash key data outLen => exact absurd trivial htemporary
      | call self op =>
        cases op with
        | close =>
          have hfree : ∀ a, c = .closeArena a → ¬ InUse cfg t a := by
            rintro a rfl
            exact hcare
          obtain ⟨hframe, hduty, hkept⟩ := answer_close hacc hrest hanswer hfree
          refine hacc.answer hrest hframe hduty ?_
          intro self' h
          obtain ⟨rfl, -⟩ := FfmCall.call.inj h
          exact hkept
        | _ => exact absurd trivial htemporary
  · intro cfg t call a hacc hrest _
    exact hacc.finish (r := .ok a) hrest
  · intro cfg t call e hacc hrest _
    exact hacc.finish (r := .error e) hrest

/-- **No arena is lost**: in every interleaving of calls in which no constructor fails once its
arena is open and no `close()` meets a native call on its arena. -/
theorem noArenaLost (cfg : PoolConfig) (h : Reach ffmPool Careful freshPool cfg) :
    NoArenaLost cfg := by
  have hacc := accounted_of_reach h
  constructor
  · intro hquiet a
    have hidle := hquiet.rest
    rw [Resources.isOpen, Option.any_eq_true]
    constructor
    · rintro ⟨⟨owner, isOpen⟩, ha, hopen⟩
      obtain rfl : isOpen = true := hopen
      cases owner with
      | some t => exact absurd ha (hacc.idle t (hidle t) a)
      | none =>
        obtain ⟨self, hof, hdone | ⟨t, key, x, ht⟩⟩ := hacc.owned a ha
        · obtain ⟨a', ha', -, hwho⟩ := hacc.kept self hdone
          obtain rfl := Option.some.inj (hof.symm.trans ha')
          rcases hwho ha with ⟨-, hcalled⟩ | hclosing
          · exact ⟨self, hdone, fun hc => (hcalled hc).not_idle hidle, hof⟩
          · exact (hclosing.not_idle hidle).elim
        · exact absurd ((hidle t).symm.trans ht) (by simp)
    · rintro ⟨self, hdone, hnot, hof⟩
      obtain ⟨a', ha', hopen, -⟩ := hacc.kept self hdone
      obtain rfl := Option.some.inj (hof.symm.trans ha')
      exact ⟨_, hopen hnot, rfl⟩
  · intro t ht a
    exact hacc.idle t (by rw [Config.rest, ht]; rfl) a
  · rintro self a ⟨t, r, hfinished⟩ hnone hof
    have hstarted := hacc.finished t _ r hfinished
    obtain ⟨a', ha', -, hwho⟩ := hacc.kept self (hacc.called t self .close hstarted)
    obtain rfl := Option.some.inj (hof.symm.trans ha')
    obtain ⟨b, hb⟩ := hacc.shared self a hof
    have hnobody : ∀ d, ¬ InClose cfg.rest self d := by
      rintro d ⟨u, x, hu, -⟩
      exact hnone u x hu
    cases b with
    | false => rw [Resources.isOpen, hb]; rfl
    | true =>
      rcases hwho hb with ⟨-, hcalled⟩ | hclosing
      · exact absurd (hcalled ⟨t, hstarted⟩) (hnobody _)
      · exact absurd hclosing (hnobody _)

/-- A constructor alone, and the arena it leaves. -/
theorem careful_new : ∃ cfg : PoolConfig, Reach ffmPool Careful freshPool cfg ∧ cfg.Quiet ∧
    Constructed cfg.history 0 ∧ cfg.shared.isOpen 7 = true := by
  have hstart : Alone Careful (.new 0 none) .initial (FfmCall.new 0 none).body :=
    .start (fun _ _ => List.not_mem_nil) nofun
  have hopened := hstart.answer (.ok (7 : ℕ)) ⟨rfl, rfl⟩ fun _ => ⟨trivial, nofun⟩
  have hstored := hopened.answer (.ok ()) ⟨rfl, rfl⟩ fun _ => ⟨trivial, nofun⟩
  have hcleared := hstored.answer (.ok ()) ⟨rfl, rfl⟩ fun _ => ⟨trivial, nofun⟩
  have hloaded := hcleared.answer (.ok ()) rfl fun _ => ⟨trivial, fun _ => ⟨(), rfl⟩⟩
  have hread := hloaded.answer (.ok (some (7 : ℕ))) ⟨rfl, rfl⟩ fun _ => ⟨trivial, nofun⟩
  have hfound := hread.answer (.ok false) rfl fun _ => ⟨trivial, nofun⟩
  have hallocated := hfound.answer (.ok (⟨0, 7, 1912⟩ : MemorySegment)) ⟨rfl, rfl, rfl, rfl⟩
    fun _ => ⟨trivial, fun _ => ⟨_, rfl⟩⟩
  have hlooked := hallocated.answer (.ok ()) rfl fun _ => ⟨trivial, fun _ => ⟨(), rfl⟩⟩
  have hinit := hlooked.answer (.ok ()) ⟨List.forall_mem_singleton.mpr rfl, rfl⟩
    fun _ => ⟨trivial, fun _ => ⟨(), rfl⟩⟩
  have hdone := hinit.answer (.ok ()) ⟨rfl, rfl⟩ fun _ => ⟨trivial, nofun⟩
  obtain ⟨cfg, hreach, hshared, hquiet, hhistory⟩ := 
    Alone.finish (r := .ok .unit) hdone fun _ => trivial
  refine ⟨cfg, hreach, hquiet, ?_, ?_⟩
  · rw [hhistory]
    exact ⟨0, none, .unit, .head _⟩
  · rw [hshared]
    rfl

theorem noArenaLost_new : ∃ cfg : PoolConfig, Reach ffmPool Careful freshPool cfg ∧
    (cfg.Quiet ∧ Constructed cfg.history 0 ∧ cfg.shared.isOpen 7 = true) ∧ NoArenaLost cfg := by
  obtain ⟨cfg, hreach, h⟩ := careful_new
  exact ⟨cfg, hreach, h, noArenaLost cfg hreach⟩

/-- A key of 31 bytes. -/
def shortKey : JByteArray := ⟨List.replicate 31 0, by decide⟩

/-- Its constructor throws, and leaves an arena that belongs to no stream. -/
theorem arena_lost : ∃ cfg : PoolConfig, Reach ffmPool Anything freshPool cfg ∧
    ¬ NoArenaLost cfg := by
  have hstart : Alone Anything (.new 0 (some shortKey)) .initial
      (FfmCall.new 0 (some shortKey)).body := .start (fun _ _ => List.not_mem_nil) trivial
  have hopened := hstart.answer (.ok (7 : ℕ)) ⟨rfl, rfl⟩ fun _ => ⟨trivial, trivial⟩
  have hstored := hopened.answer (.ok ()) ⟨rfl, rfl⟩ fun _ => ⟨trivial, trivial⟩
  have hcleared := hstored.answer (.ok ()) ⟨rfl, rfl⟩ fun _ => ⟨trivial, trivial⟩
  have hloaded := hcleared.answer (.ok ()) rfl fun _ => ⟨trivial, trivial⟩
  obtain ⟨cfg, hreach, hshared, hquiet, hhistory⟩ :=
    Alone.finish (r := .error badKeySize) hloaded fun _ => trivial
  refine ⟨cfg, hreach, fun h => ?_⟩
  have hopen : cfg.shared.isOpen 7 = true := by
    rw [hshared]
    rfl
  obtain ⟨self, ⟨t, key, r, hdone⟩, -⟩ := (h.quiet hquiet 7).mp hopen
  rw [hhistory] at hdone
  simp at hdone

end Blake3Kmp
