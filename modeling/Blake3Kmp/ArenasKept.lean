/-
Who accounts for the open arenas.

A temporary arena is accounted for by the thread that is to close it, and the
arena of a stream by its constructor, by the field of the stream, or by a
`close()` that has taken it from there.

* `Dutiful` — the rest of a call does its duty (`ArenaDuties.lean`) in the
  shared state;
* `Accounted` — the invariant;
* `Frame` — what one answer leaves alone;
* `Accounted.answer`, `Accounted.start`, `Accounted.finish` — the steps of a
  thread keep the invariant, if the call goes on to do its duty.
-/
import Blake3Kmp.ArenaDuties

open Programs Prog

namespace Blake3Kmp

abbrev Rests := ℕ → Option (FfmCall × FfmProg Reply)

/-! ### The invariant -/

/-- What a constructor knows of its stream. -/
structure BuiltSoFar (s : Resources) (stream : ℕ) (b : BuildState) : Prop where
  arenaOf : s.arenaOf stream = b.arena
  isOpen : ∀ a, b.arena = some a → s.arenas a = some ⟨none, true⟩
  field : b.stored = true → (s.streams stream).arena = b.arena

/-- What is left of the call of thread `t` does its duty. -/
structure Dutiful (s : Resources) (t : ℕ) (call : FfmCall) (x : FfmProg Reply) : Prop where
  temp : ∃ temp, (∀ a, s.arenas a = some ⟨some t, true⟩ ↔ temp = some a) ∧
    (call.Temporary → TempKept temp x) ∧ (¬ call.Temporary → temp = none)
  builds : ∀ self key, call = .new self key → ∃ b, BuiltSoFar s self b ∧ Builds self b x
  closes : ∀ self, call = .call self .close →
    ∃ d, (∀ a, d = .pending a → s.arenaOf self = some a) ∧ Closes self d x

/-- A thread is in `close()` on the stream, in the state `d`. -/
def InClose (rest : Rests) (self : ℕ) (d : Closing) : Prop :=
  ∃ t x, rest t = some (.call self .close, x) ∧ Closes self d x

/-- The arena of a constructed stream: open until `close()` is called; and while it is open,
it is still in the field, for any `close()` called to read, or a `close()` has it. -/
def StreamKept (s : Resources) (rest : Rests) (history : PoolHistory) (self : ℕ) : Prop :=
  ∃ a, s.arenaOf self = some a ∧
    (¬ CloseCalled history self → s.arenas a = some ⟨none, true⟩) ∧
    (s.arenas a = some ⟨none, true⟩ →
      ((s.streams self).arena = some a ∧ (CloseCalled history self → InClose rest self .reading)) ∨
        InClose rest self (.pending a))

structure Accounted (s : Resources) (rest : Rests) (history : PoolHistory) : Prop where
  dutiful : ∀ t call x, rest t = some (call, x) → Dutiful s t call x
  idle : ∀ t, rest t = none → ∀ a, s.arenas a ≠ some ⟨some t, true⟩
  shared : ∀ self a, s.arenaOf self = some a → ∃ b, s.arenas a = some ⟨none, b⟩
  distinct : ∀ self self' a, s.arenaOf self = some a → s.arenaOf self' = some a → self = self'
  field : ∀ self a, (s.streams self).arena = some a → s.arenaOf self = some a
  owned : ∀ a, s.arenas a = some ⟨none, true⟩ → ∃ self, s.arenaOf self = some a ∧
    (Constructed history self ∨ ∃ t key x, rest t = some (.new self key, x))
  kept : ∀ self, Constructed history self → StreamKept s rest history self
  unused : ∀ self a, s.arenaOf self = some a → ∃ t key, .started t (.new self key) ∈ history
  started : ∀ t call x, rest t = some (call, x) → .started t call ∈ history
  finished : ∀ t call r, .finished t call r ∈ history → .started t call ∈ history
  building : ∀ t self key x, rest t = some (.new self key, x) → ¬ Constructed history self ∧
    ∀ u key' x', rest u = some (.new self key', x') → u = t
  called : ∀ t self op, .started t (.call self op) ∈ history → Constructed history self

/-! ### One answer -/

/-- The call may change the stream and its arena. -/
def FfmCall.Mine (call : FfmCall) (self : ℕ) : Prop :=
  (∃ key, call = .new self key) ∨ call = .call self .close

/-- What an answer to thread `t`, in `call`, leaves alone. -/
structure Frame (t : ℕ) (call : FfmCall) (s s' : Resources) : Prop where
  temps : ∀ u, u ≠ t ∨ ¬ call.Temporary → ∀ a,
    s'.arenas a = some ⟨some u, true⟩ ↔ s.arenas a = some ⟨some u, true⟩
  kind : ∀ a o b, s.arenas a = some ⟨o, b⟩ → ∃ b', s'.arenas a = some ⟨o, b'⟩
  keeps : ∀ self a, s.arenaOf self = some a → s'.arenaOf self = some a
  opens : ∀ self a, s'.arenaOf self = some a → s.arenaOf self = some a ∨
    (s.arenas a = none ∧ s'.arenas a = some ⟨none, true⟩ ∧ ∃ key, call = .new self key)
  isOpen : ∀ a, s'.arenas a = some ⟨none, true⟩ → s.arenas a = some ⟨none, true⟩ ∨
    ∃ self key, s'.arenaOf self = some a ∧ call = .new self key
  field : ∀ self a, (s'.streams self).arena = some a → (s.streams self).arena = some a ∨
    s'.arenaOf self = some a
  others : ∀ self, ¬ call.Mine self → (s'.streams self).arena = (s.streams self).arena ∧
    ∀ a, s.arenaOf self = some a → s'.arenas a = s.arenas a

section

variable {s : Resources} {rest : Rests} {history : PoolHistory} {t : ℕ} {call : FfmCall}

theorem Frame.same : Frame t call s s where
  temps := fun _ _ _ => Iff.rfl
  kind := fun _ _ b h => ⟨b, h⟩
  keeps := fun _ _ h => h
  opens := fun _ _ h => .inl h
  isOpen := fun _ h => .inl h
  field := fun _ _ h => .inl h
  others := fun _ _ => ⟨rfl, fun _ _ => rfl⟩

/-- Only the segment of a stream is written. -/
theorem Frame.setSegment (self : ℕ) (segment : Option MemorySegment) :
    Frame t call s (s.setSegment self segment) := by
  have hfield : ∀ stream, ((s.setSegment self segment).streams stream).arena =
      (s.streams stream).arena := by
    intro stream
    show (Function.update s.streams self _ stream).arena = _
    by_cases h : stream = self
    · rw [h, Function.update_self]
    · rw [Function.update_of_ne h]
  exact { (Frame.same : Frame t call s s) with
    field := fun stream a h => .inl (hfield stream ▸ h)
    others := fun stream _ => ⟨hfield stream, fun _ _ => rfl⟩ }

/-- The field of the call's own stream is written. -/
theorem Frame.setArena {self : ℕ} {arena : Option ℕ} (hmine : call.Mine self)
    (harena : ∀ a, arena = some a → s.arenaOf self = some a) :
    Frame t call s (s.setArena self arena) := by
  have hother : ∀ stream, stream ≠ self → (s.setArena self arena).streams stream =
      s.streams stream := fun stream h => Function.update_of_ne h ..
  have hself : ((s.setArena self arena).streams self).arena = arena := by
    show (Function.update s.streams self _ self).arena = _
    rw [Function.update_self]
  refine { (Frame.same : Frame t call s s) with field := ?_, others := ?_ }
  · intro stream a h
    by_cases hs : stream = self
    · rw [hs] at h ⊢
      exact .inr (harena a (hself ▸ h))
    · exact .inl (hother stream hs ▸ h)
  · intro stream h
    have hs : stream ≠ self := fun hs => h (hs ▸ hmine)
    exact ⟨by rw [hother stream hs], fun _ _ => rfl⟩

variable (hacc : Accounted s rest history)
include hacc

/-- An arena that is still to come is not the one of a stream. -/
theorem Accounted.ne_fresh {self a b : ℕ} (h : s.arenaOf self = some b)
    (hfresh : s.arenas a = none) : b ≠ a := by
  rintro rfl
  obtain ⟨o, ho⟩ := hacc.shared self b h
  exact absurd (ho.symm.trans hfresh) (by simp)

theorem Frame.openConfined {a : ℕ} (htemp : call.Temporary) (hfresh : s.arenas a = none) :
    Frame t call s (s.openConfined t a) := by
  have hself : (s.openConfined t a).arenas a = some ⟨some t, true⟩ := Function.update_self ..
  have hother : ∀ b, b ≠ a → (s.openConfined t a).arenas b = s.arenas b :=
    fun b h => Function.update_of_ne h ..
  refine { (Frame.same : Frame t call s s) with
    temps := ?_, kind := ?_, opens := fun _ _ h => .inl h, isOpen := ?_, others := ?_ }
  · intro u hu b
    have hne : u ≠ t := hu.resolve_right (not_not.mpr htemp)
    by_cases hb : b = a
    · subst hb
      rw [hself, hfresh]
      constructor
      · intro h
        injection h with h
        injection h with h
        exact absurd (Option.some.inj h).symm hne
      · intro h
        exact absurd h (by simp)
    · rw [hother b hb]
  · intro b o x h
    have hb : b ≠ a := by
      rintro rfl
      exact absurd (h.symm.trans hfresh) (by simp)
    exact ⟨x, (hother b hb).trans h⟩
  · intro b h
    by_cases hb : b = a
    · subst hb
      exact absurd (hself.symm.trans h) (by simp)
    · exact .inl (hother b hb ▸ h)
  · intro self _
    exact ⟨rfl, fun b h => hother b (hacc.ne_fresh h hfresh)⟩

/-- A constructor opens its arena. -/
theorem Frame.openShared {self a : ℕ} {key : Option JByteArray}
    (hfresh : s.arenas a = none) (hself : s.arenaOf self = none) :
    Frame t (.new self key) s (s.openShared self a) := by
  have hnew : (s.openShared self a).arenas a = some ⟨none, true⟩ := Function.update_self ..
  have hother : ∀ b, b ≠ a → (s.openShared self a).arenas b = s.arenas b :=
    fun b h => Function.update_of_ne h ..
  have hof : (s.openShared self a).arenaOf self = some a := Function.update_self ..
  have hofOther : ∀ stream, stream ≠ self → (s.openShared self a).arenaOf stream =
      s.arenaOf stream := fun stream h => Function.update_of_ne h ..
  constructor
  · intro u _ b
    by_cases hb : b = a
    · subst hb
      rw [hnew, hfresh]
      simp
    · rw [hother b hb]
  · intro b o x h
    have hb : b ≠ a := by
      rintro rfl
      exact absurd (h.symm.trans hfresh) (by simp)
    exact ⟨x, (hother b hb).trans h⟩
  · intro stream b h
    have hs : stream ≠ self := by
      rintro rfl
      exact absurd (h.symm.trans hself) (by simp)
    rw [hofOther stream hs]
    exact h
  · intro stream b h
    by_cases hs : stream = self
    · subst hs
      obtain rfl : a = b := Option.some.inj (hof.symm.trans h)
      exact .inr ⟨hfresh, hnew, key, rfl⟩
    · exact .inl (hofOther stream hs ▸ h)
  · intro b h
    by_cases hb : b = a
    · subst hb
      exact .inr ⟨self, key, hof, rfl⟩
    · exact .inl (hother b hb ▸ h)
  · intro stream b h
    exact .inl h
  · intro stream _
    exact ⟨rfl, fun b h => hother b (hacc.ne_fresh h hfresh)⟩

omit hacc in
/-- An arena is closed that only this thread and this call may close. -/
theorem Frame.close {a : ℕ} {o : Option ℕ} {x : Bool} (ha : s.arenas a = some ⟨o, x⟩)
    (htemps : ∀ u, u ≠ t ∨ ¬ call.Temporary → o ≠ some u)
    (hothers : ∀ self, ¬ call.Mine self → s.arenaOf self ≠ some a) :
    Frame t call s (s.close a) := by
  have hself : (s.close a).arenas a = some ⟨o, false⟩ := by
    show Function.update s.arenas a _ a = _
    rw [Function.update_self, ha]
    rfl
  have hother : ∀ b, b ≠ a → (s.close a).arenas b = s.arenas b :=
    fun b h => Function.update_of_ne h ..
  refine { (Frame.same : Frame t call s s) with
    temps := ?_, kind := ?_, opens := fun _ _ h => .inl h, isOpen := ?_, others := ?_ }
  · intro u hu b
    have hne := htemps u hu
    by_cases hb : b = a
    · subst hb
      rw [hself, ha]
      simp [hne]
    · rw [hother b hb]
  · intro b o' y h
    by_cases hb : b = a
    · subst hb
      obtain ⟨rfl, -⟩ := Arena.mk.inj (Option.some.inj (ha.symm.trans h))
      exact ⟨false, hself⟩
    · exact ⟨y, (hother b hb).trans h⟩
  · intro b h
    by_cases hb : b = a
    · subst hb
      exact absurd (hself.symm.trans h) (by simp)
    · exact .inl (hother b hb ▸ h)
  · intro self hmine
    refine ⟨rfl, fun b h => hother b ?_⟩
    rintro rfl
    exact hothers self hmine h

/-- A temporary arena is closed by its owner. -/
theorem Frame.closeConfined {a : ℕ} (htemp : call.Temporary)
    (ha : s.arenas a = some ⟨some t, true⟩) : Frame t call s (s.close a) := by
  refine Frame.close ha ?_ ?_
  · intro u hu hut
    exact hu.resolve_right (not_not.mpr htemp) (Option.some.inj hut).symm
  · intro self _ h
    obtain ⟨x, hx⟩ := hacc.shared self a h
    exact absurd (ha.symm.trans hx) (by simp)

/-- `close()` closes the arena of its stream. -/
theorem Frame.closeShared {self a : ℕ} (ha : s.arenaOf self = some a) :
    Frame t (.call self .close) s (s.close a) := by
  obtain ⟨x, hx⟩ := hacc.shared self a ha
  refine Frame.close hx (fun _ _ => nofun) ?_
  rintro stream hmine h
  obtain rfl := hacc.distinct stream self a h ha
  exact hmine (.inr rfl)

end

/-! ### The rests of the other threads -/

section

variable {rest : Rests} {t : ℕ} {y : Option (FfmCall × FfmProg Reply)} {self : ℕ} {d : Closing}

theorem rest_self : (Function.update rest t y : Rests) t = y := Function.update_self ..

theorem rest_ne {u : ℕ} (h : u ≠ t) : (Function.update rest t y : Rests) u = rest u :=
  Function.update_of_ne h ..

/-- A thread in `close()` stays there while another one moves. -/
theorem InClose.update (h : InClose rest self d)
    (ht : ∀ x, rest t = some (.call self .close, x) → ¬ Closes self d x) :
    InClose (Function.update rest t y) self d := by
  obtain ⟨u, x, hu, hx⟩ := h
  have hut : u ≠ t := by
    rintro rfl
    exact ht x hu hx
  exact ⟨u, x, (rest_ne hut).trans hu, hx⟩

theorem InClose.not_idle (h : InClose rest self d) (hidle : ∀ u, rest u = none) : False := by
  obtain ⟨u, x, hu, -⟩ := h
  exact absurd ((hidle u).symm.trans hu) (by simp)

end

/-! ### An answer keeps the invariant -/

section

variable {s s' : Resources} {rest : Rests} {history : PoolHistory} {t : ℕ} {call : FfmCall}
  {x y : FfmProg Reply} (hacc : Accounted s rest history) (hrest : rest t = some (call, x))
  (hframe : Frame t call s s')
include hacc hrest

/-- A constructor of `self` in progress is the only call that may change it. -/
theorem Accounted.not_mine_of_building {u self : ℕ} {key : Option JByteArray}
    {z : FfmProg Reply} (hu : rest u = some (.new self key, z)) (hut : u ≠ t) :
    ¬ call.Mine self := by
  obtain ⟨hnot, honly⟩ := hacc.building u self key z hu
  rintro (⟨key', rfl⟩ | rfl)
  · exact hut (honly t key' x hrest).symm
  · exact hnot (hacc.called t self .close (hacc.started t _ x hrest))

include hframe

omit hacc hrest in
theorem Frame.arenaOf_same {self : ℕ} (hmine : ¬ call.Mine self) :
    s'.arenaOf self = s.arenaOf self := by
  cases h : s.arenaOf self with
  | some a => exact hframe.keeps self a h
  | none =>
    cases h' : s'.arenaOf self with
    | none => rfl
    | some a =>
      rcases hframe.opens self a h' with h'' | ⟨-, -, hnew⟩
      · exact absurd (h.symm.trans h'') (by simp)
      · exact absurd (.inl hnew) hmine

/-- The duty of another thread stays what it was. -/
theorem Accounted.dutiful_other {u : ℕ} {call' : FfmCall} {z : FfmProg Reply}
    (hu : rest u = some (call', z)) (hut : u ≠ t) : Dutiful s' u call' z := by
  obtain ⟨⟨temp, htemp, hduty⟩, hbuilds, hcloses⟩ := hacc.dutiful u call' z hu
  refine ⟨⟨temp, ?_, hduty⟩, ?_, ?_⟩
  · intro a
    rw [hframe.temps u (.inl hut) a]
    exact htemp a
  · intro self key hcall
    obtain ⟨b, hb, hx⟩ := hbuilds self key hcall
    have hmine := hacc.not_mine_of_building hrest (hcall ▸ hu) hut
    obtain ⟨hfield, hsame⟩ := hframe.others self hmine
    refine ⟨b, ⟨?_, ?_, ?_⟩, hx⟩
    · rw [hframe.arenaOf_same hmine]
      exact hb.arenaOf
    · intro a ha
      rw [hsame a (hb.arenaOf.trans ha)]
      exact hb.isOpen a ha
    · intro hstored
      rw [hfield]
      exact hb.field hstored
  · intro self hcall
    obtain ⟨d, hd, hx⟩ := hcloses self hcall
    exact ⟨d, fun a ha => hframe.keeps self a (hd a ha), hx⟩

omit hacc in
/-- A stream that the call may not change is kept as it was. -/
theorem StreamKept.other {self : ℕ} (hkept : StreamKept s rest history self)
    (hmine : ¬ call.Mine self) :
    StreamKept s' (Function.update rest t (some (call, y))) history self := by
  obtain ⟨a, ha, hopen, hwho⟩ := hkept
  obtain ⟨hfield, hsame⟩ := hframe.others self hmine
  have hclose : ∀ d, InClose rest self d →
      InClose (Function.update rest t (some (call, y))) self d := by
    intro d h
    refine h.update ?_
    intro z hz _
    obtain ⟨rfl, -⟩ := Prod.mk.inj (Option.some.inj (hrest.symm.trans hz))
    exact hmine (.inr rfl)
  refine ⟨a, hframe.keeps self a ha, ?_, ?_⟩
  · rw [hsame a ha]
    exact hopen
  · rw [hsame a ha, hfield]
    intro h
    rcases hwho h with ⟨hf, hc⟩ | h
    · exact .inl ⟨hf, fun hcalled => hclose _ (hc hcalled)⟩
    · exact .inr (hclose _ h)

/-- **An answer keeps the invariant**, if the call goes on to do its duty. -/
theorem Accounted.answer (hduty : Dutiful s' t call y)
    (hclose : ∀ self, call = .call self .close →
      StreamKept s' (Function.update rest t (some (call, y))) history self) :
    Accounted s' (Function.update rest t (some (call, y))) history := by
  have hself : (Function.update rest t (some (call, y)) : Rests) t = some (call, y) := rest_self
  -- whoever is in a call now was in the same call before
  have hcall : ∀ u call' z, (Function.update rest t (some (call, y)) : Rests) u =
      some (call', z) → ∃ z', rest u = some (call', z') := by
    intro u call' z h
    by_cases hut : u = t
    · subst hut
      obtain ⟨rfl, -⟩ := Prod.mk.inj (Option.some.inj (hself.symm.trans h))
      exact ⟨x, hrest⟩
    · exact ⟨z, (rest_ne hut).symm.trans h⟩
  constructor
  · intro u call' z h
    by_cases hut : u = t
    · subst hut
      obtain ⟨rfl, rfl⟩ := Prod.mk.inj (Option.some.inj (hself.symm.trans h))
      exact hduty
    · exact hacc.dutiful_other hrest hframe ((rest_ne hut).symm.trans h) hut
  · intro u h a ha
    have hut : u ≠ t := by
      rintro rfl
      exact absurd (hself.symm.trans h) (by simp)
    exact hacc.idle u ((rest_ne hut).symm.trans h) a ((hframe.temps u (.inl hut) a).mp ha)
  · intro self a h
    rcases hframe.opens self a h with h | ⟨-, hnew, -⟩
    · obtain ⟨b, hb⟩ := hacc.shared self a h
      exact hframe.kind a none b hb
    · exact ⟨true, hnew⟩
  · intro self self' a h h'
    rcases hframe.opens self a h with h | ⟨hfresh, -, key, hnew⟩
    · rcases hframe.opens self' a h' with h' | ⟨hfresh, -, -⟩
      · exact hacc.distinct self self' a h h'
      · exact absurd rfl (hacc.ne_fresh h hfresh)
    · rcases hframe.opens self' a h' with h' | ⟨-, -, key', hnew'⟩
      · exact absurd rfl (hacc.ne_fresh h' hfresh)
      · exact (FfmCall.new.inj (hnew.symm.trans hnew')).1
  · intro self a h
    rcases hframe.field self a h with h | h
    · exact hframe.keeps self a (hacc.field self a h)
    · exact h
  · intro a h
    rcases hframe.isOpen a h with h | ⟨self, key, hof, rfl⟩
    · obtain ⟨self, hof, hwho⟩ := hacc.owned a h
      refine ⟨self, hframe.keeps self a hof, ?_⟩
      rcases hwho with hdone | ⟨u, key, z, hu⟩
      · exact .inl hdone
      · by_cases hut : u = t
        · subst hut
          obtain ⟨rfl, -⟩ := Prod.mk.inj (Option.some.inj (hrest.symm.trans hu))
          exact .inr ⟨u, key, y, hself⟩
        · exact .inr ⟨u, key, z, (rest_ne hut).trans hu⟩
    · exact ⟨self, hof, .inr ⟨t, key, y, hself⟩⟩
  · intro self hdone
    by_cases hmine : call.Mine self
    · rcases hmine with ⟨key, rfl⟩ | rfl
      · exact absurd hdone (hacc.building t self key x hrest).1
      · exact hclose self rfl
    · exact (hacc.kept self hdone).other hrest hframe hmine
  · intro self a h
    rcases hframe.opens self a h with h | ⟨-, -, key, rfl⟩
    · exact hacc.unused self a h
    · exact ⟨t, key, hacc.started t _ x hrest⟩
  · intro u call' z h
    obtain ⟨z', hz⟩ := hcall u call' z h
    exact hacc.started u call' z' hz
  · exact hacc.finished
  · intro u self key z h
    obtain ⟨z', hz⟩ := hcall u _ z h
    obtain ⟨hnot, honly⟩ := hacc.building u self key z' hz
    refine ⟨hnot, fun v key' w hv => ?_⟩
    obtain ⟨w', hw⟩ := hcall v _ w hv
    exact honly v key' w' hw
  · exact hacc.called

end

/-! ### A call begins or ends -/

section

variable {s : Resources} {rest : Rests} {history : PoolHistory} {t : ℕ} {call : FfmCall}
  (hacc : Accounted s rest history)
include hacc

/-- The constructor of a stream that nobody has begun to build. -/
theorem Accounted.unbuilt {self : ℕ} (hnew : ∀ u key, .started u (.new self key) ∉ history) :
    s.arenaOf self = none ∧ ¬ Constructed history self := by
  constructor
  · cases h : s.arenaOf self with
    | none => rfl
    | some a =>
      obtain ⟨u, key, hu⟩ := hacc.unused self a h
      exact absurd hu (hnew u key)
  · rintro ⟨u, key, r, h⟩
    exact hnew u key (hacc.finished u _ _ h)

/-- **A call that begins.** -/
theorem Accounted.start {y : FfmProg Reply} (hidle : rest t = none)
    (hnew : ∀ self key, call = .new self key →
      (∀ u key', .started u (.new self key') ∉ history) ∧ Builds self ⟨none, false⟩ y)
    (hcall : ∀ self op, call = .call self op → Constructed history self)
    (htemp : call.Temporary → TempKept none y)
    (hcloses : ∀ self, call = .call self .close → Closes self .reading y) :
    Accounted s (Function.update rest t (some (call, y))) (.started t call :: history) := by
  have hself : (Function.update rest t (some (call, y)) : Rests) t = some (call, y) := rest_self
  have hother : ∀ {u call' z}, rest u = some (call', z) →
      (Function.update rest t (some (call, y)) : Rests) u = some (call', z) := by
    intro u call' z hu
    have hut : u ≠ t := by
      rintro rfl
      exact absurd (hidle.symm.trans hu) (by simp)
    exact (rest_ne hut).trans hu
  have hcons : ∀ self, Constructed (.started t call :: history) self ↔
      Constructed history self := by
    intro self
    simp [Constructed]
  constructor
  · intro u call' z h
    by_cases hut : u = t
    · subst hut
      obtain ⟨rfl, rfl⟩ := Prod.mk.inj (Option.some.inj (hself.symm.trans h))
      refine ⟨⟨none, ?_, htemp, fun _ => rfl⟩, ?_, ?_⟩
      · intro a
        exact ⟨fun ha => absurd ha (hacc.idle u hidle a), nofun⟩
      · intro self key hc
        obtain ⟨hunused, hbuilds⟩ := hnew self key hc
        exact ⟨⟨none, false⟩, ⟨(hacc.unbuilt hunused).1, nofun, nofun⟩, hbuilds⟩
      · intro self hc
        exact ⟨.reading, nofun, hcloses self hc⟩
    · exact hacc.dutiful u call' z ((rest_ne hut).symm.trans h)
  · intro u h
    have hut : u ≠ t := by
      rintro rfl
      exact absurd (hself.symm.trans h) (by simp)
    exact hacc.idle u ((rest_ne hut).symm.trans h)
  · exact hacc.shared
  · exact hacc.distinct
  · exact hacc.field
  · intro a h
    obtain ⟨self, hof, hwho⟩ := hacc.owned a h
    refine ⟨self, hof, ?_⟩
    rcases hwho with hdone | ⟨u, key, z, hu⟩
    · exact .inl ((hcons self).mpr hdone)
    · exact .inr ⟨u, key, z, hother hu⟩
  · intro self hdone
    obtain ⟨a, ha, hopen, hwho⟩ := hacc.kept self ((hcons self).mp hdone)
    have hkeep : ∀ {d}, InClose rest self d →
        InClose (Function.update rest t (some (call, y))) self d := by
      rintro d ⟨u, z, hu, hz⟩
      exact ⟨u, z, hother hu, hz⟩
    refine ⟨a, ha, ?_, ?_⟩
    · intro hnot
      refine hopen ?_
      rintro ⟨u, hu⟩
      exact hnot ⟨u, .tail _ hu⟩
    · intro h
      rcases hwho h with ⟨hf, hc⟩ | h
      · refine .inl ⟨hf, ?_⟩
        rintro ⟨u, hu⟩
        rcases List.mem_cons.mp hu with hu | hu
        · -- it is this call that closes the stream
          obtain ⟨rfl, rfl⟩ := Happened.started.inj hu
          exact ⟨u, y, hself, hcloses self rfl⟩
        · exact hkeep (hc ⟨u, hu⟩)
      · exact .inr (hkeep h)
  · intro self a h
    obtain ⟨u, key, hu⟩ := hacc.unused self a h
    exact ⟨u, key, .tail _ hu⟩
  · intro u call' z h
    by_cases hut : u = t
    · subst hut
      obtain ⟨rfl, -⟩ := Prod.mk.inj (Option.some.inj (hself.symm.trans h))
      exact .head _
    · exact .tail _ (hacc.started u call' z ((rest_ne hut).symm.trans h))
  · intro u call' r h
    rcases List.mem_cons.mp h with h | h
    · exact absurd h (by simp)
    · exact .tail _ (hacc.finished u call' r h)
  · -- nobody else builds what this call is to build
    have hfirst : ∀ u self key z, (Function.update rest t (some (call, y)) : Rests) u =
        some (.new self key, z) → u = t ∧ call = .new self key ∨
          u ≠ t ∧ rest u = some (.new self key, z) := by
      intro u self key z h
      by_cases hut : u = t
      · subst hut
        obtain ⟨rfl, -⟩ := Prod.mk.inj (Option.some.inj (hself.symm.trans h))
        exact .inl ⟨rfl, rfl⟩
      · exact .inr ⟨hut, (rest_ne hut).symm.trans h⟩
    have hclash : ∀ u self key key' z, call = .new self key →
        rest u ≠ some (.new self key', z) := by
      intro u self key key' z hc hu
      exact (hnew self key hc).1 u key' (hacc.started u _ z hu)
    intro u self key z h
    rw [hcons]
    rcases hfirst u self key z h with ⟨rfl, hc⟩ | ⟨hut, hu⟩
    · refine ⟨(hacc.unbuilt (hnew self key hc).1).2, fun v key' w hv => ?_⟩
      rcases hfirst v self key' w hv with ⟨hvt, -⟩ | ⟨-, hv⟩
      · exact hvt
      · exact absurd hv (hclash v self key key' w hc)
    · obtain ⟨hnot, honly⟩ := hacc.building u self key z hu
      refine ⟨hnot, fun v key' w hv => ?_⟩
      rcases hfirst v self key' w hv with ⟨-, hc⟩ | ⟨-, hv⟩
      · exact absurd hu (hclash u self key' key z hc)
      · exact honly v key' w hv
  · intro u self op h
    rw [hcons]
    rcases List.mem_cons.mp h with h | h
    · obtain ⟨-, rfl⟩ := Happened.started.inj h
      exact hcall self op rfl
    · exact hacc.called u self op h

/-- A stream is not used before it is constructed. -/
theorem Accounted.not_closeCalled {self : ℕ} (h : ¬ Constructed history self) :
    ¬ CloseCalled history self := by
  rintro ⟨u, hu⟩
  exact h (hacc.called u self .close hu)

/-- **A call that ends.** -/
theorem Accounted.finish {r : Except Throwable Reply} (hrest : rest t = some (call, ended r)) :
    Accounted s (Function.update rest t none) (.finished t call r :: history) := by
  have hself : (Function.update rest t none : Rests) t = none := rest_self
  obtain ⟨⟨temp, htemp, htemporary, hnone⟩, hbuilds, hcloses⟩ := hacc.dutiful t call _ hrest
  have hback : ∀ {u call' z}, (Function.update rest t none : Rests) u = some (call', z) →
      rest u = some (call', z) := by
    intro u call' z h
    have hut : u ≠ t := by
      rintro rfl
      exact absurd (hself.symm.trans h) (by simp)
    exact (rest_ne hut).symm.trans h
  have hother : ∀ {u call' z}, rest u = some (call', z) → call' ≠ call →
      (Function.update rest t none : Rests) u = some (call', z) := by
    intro u call' z h hne
    have hut : u ≠ t := by
      rintro rfl
      exact hne (Prod.mk.inj (Option.some.inj (h.symm.trans hrest))).1
    exact (rest_ne hut).trans h
  have hcons : ∀ {self}, Constructed (.finished t call r :: history) self →
      Constructed history self ∨ ∃ key u, call = .new self key ∧ r = .ok u := by
    rintro self ⟨u, key, v, h⟩
    rcases List.mem_cons.mp h with h | h
    · obtain ⟨-, rfl, rfl⟩ := Happened.finished.inj h
      exact .inr ⟨key, v, rfl, rfl⟩
    · exact .inl ⟨u, key, v, h⟩
  have hmono : ∀ {self}, Constructed history self →
      Constructed (.finished t call r :: history) self := by
    rintro self ⟨u, key, v, h⟩
    exact ⟨u, key, v, .tail _ h⟩
  have hcalled : ∀ {self}, CloseCalled (.finished t call r :: history) self →
      CloseCalled history self := by
    rintro self ⟨u, h⟩
    rcases List.mem_cons.mp h with h | h
    · exact absurd h (by simp)
    · exact ⟨u, h⟩
  have hclosed : ∀ {self d}, InClose rest self d → d ≠ .done →
      InClose (Function.update rest t none) self d := by
    intro self d h hd
    refine h.update ?_
    intro z hz hx
    obtain ⟨-, rfl⟩ := Prod.mk.inj (Option.some.inj (hrest.symm.trans hz))
    cases r with
    | ok v => exact hd hx
    | error e => exact hd hx
  constructor
  · intro u call' z h
    exact hacc.dutiful u call' z (hback h)
  · intro u h a ha
    by_cases hut : u = t
    · subst hut
      -- its temporary arena has been closed
      have hclosed : temp = none := by
        by_cases hc : call.Temporary
        · have hkept := htemporary hc
          cases r with
          | ok v => exact hkept
          | error e => exact hkept
        · exact hnone hc
      have hopen := (htemp a).mp ha
      rw [hclosed] at hopen
      exact absurd hopen (by simp)
    · exact hacc.idle u ((rest_ne hut).symm.trans h) a ha
  · exact hacc.shared
  · exact hacc.distinct
  · exact hacc.field
  · intro a h
    obtain ⟨self, hof, hwho⟩ := hacc.owned a h
    refine ⟨self, hof, ?_⟩
    rcases hwho with hdone | ⟨u, key, z, hu⟩
    · exact .inl (hmono hdone)
    · by_cases hc : FfmCall.new self key = call
      · subst hc
        obtain ⟨b, hb, hx⟩ := hbuilds self key rfl
        cases r with
        | ok v => exact .inl ⟨t, key, v, .head _⟩
        | error e =>
          have hnever : b.arena = none := hx
          exact absurd (hof.symm.trans (hb.arenaOf.trans hnever)) (by simp)
      · exact .inr ⟨u, key, z, hother hu hc⟩
  · intro self hdone
    rcases hcons hdone with hbefore | ⟨key, v, rfl, rfl⟩
    · obtain ⟨a, ha, hopen, hwho⟩ := hacc.kept self hbefore
      refine ⟨a, ha, ?_, ?_⟩
      · intro hnot
        refine hopen ?_
        rintro ⟨u, hu⟩
        exact hnot ⟨u, .tail _ hu⟩
      · intro h
        rcases hwho h with ⟨hf, hc⟩ | h
        · exact .inl ⟨hf, fun hnow => hclosed (hc (hcalled hnow)) nofun⟩
        · exact .inr (hclosed h nofun)
    · -- it has just been constructed
      obtain ⟨b, hb, hx⟩ := hbuilds self key rfl
      obtain ⟨a, rfl⟩ : ∃ a, b = ⟨some a, true⟩ := hx
      refine ⟨a, hb.arenaOf, fun _ => hb.isOpen a rfl, fun _ => .inl ⟨hb.field rfl, ?_⟩⟩
      intro hnow
      exact absurd (hcalled hnow) (hacc.not_closeCalled (hacc.building t self key _ hrest).1)
  · intro self a h
    obtain ⟨u, key, hu⟩ := hacc.unused self a h
    exact ⟨u, key, .tail _ hu⟩
  · intro u call' z h
    exact .tail _ (hacc.started u call' z (hback h))
  · intro u call' r' h
    rcases List.mem_cons.mp h with h | h
    · obtain ⟨rfl, rfl, -⟩ := Happened.finished.inj h
      exact .tail _ (hacc.started u call' _ hrest)
    · exact .tail _ (hacc.finished u call' r' h)
  · intro u self key z h
    obtain ⟨hnot, honly⟩ := hacc.building u self key z (hback h)
    refine ⟨?_, fun v key' w hv => honly v key' w (hback hv)⟩
    intro hdone
    rcases hcons hdone with hbefore | ⟨key', v, rfl, -⟩
    · exact hnot hbefore
    · obtain rfl := honly t key' _ hrest
      exact absurd (hself.symm.trans h) (by simp)
  · intro u self op h
    rcases List.mem_cons.mp h with h | h
    · exact absurd h (by simp)
    · exact hmono (hacc.called u self op h)

end

end Blake3Kmp
