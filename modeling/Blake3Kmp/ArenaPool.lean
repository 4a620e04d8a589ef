/-
Threads over shared arenas and streams.

Any number of threads call the constructors, the operations of streams and the
one-shot functions.  Native memory plays no part here: only which arenas are
open, and the fields of the streams.

* `Resources.Answers` — what a command may do: every one but a field access may
  fail, and an arena is not closed while another thread is in a native call on
  one of its segments;
* `ffmPool` — the system;
* `NoArenaLost` — the arenas that are open are those of the open streams;
* `Careful` — the steps of a run in which no constructor fails once it has
  opened its arena, and no `close()` meets a native call;
* `exec_reach` — a program run alone, as in `FfmMemory.lean`, is one such run.
-/
import Blake3Kmp.FfmMemory
import Blake3Kmp.Threads

open Programs Prog

namespace Blake3Kmp

/-! ### Commands -/

namespace Resources

/-- What thread `t` may be answered; `inUse a` says that another thread is in a native call on
the arena `a`. -/
def Answers (t : ℕ) (inUse : ℕ → Prop) (s : Resources) :
    (c : FfmCmd) → Except Throwable c.Answer → Resources → Prop
  | .ofShared self, .ok a, s' => s.arenas a = none ∧ s' = s.openShared self a
  | .ofConfined, .ok a, s' => s.arenas a = none ∧ s' = s.openConfined t a
  | .closeArena a, r, s' =>
    (s.usable t a = true ∧ ¬ inUse a ∧ r = .ok () ∧ s' = s.close a) ∨
      (¬ (s.usable t a = true ∧ ¬ inUse a) ∧ (∃ e, r = .error e) ∧ s' = s)
  | .allocate a size, .ok segment, s' =>
    s.usable t a = true ∧ segment.arena = a ∧ segment.size = size ∧ s' = s
  | .copyIn array offset segment length, r, s' =>
    ((∃ u, r = .ok u) ↔ (inRange array offset length ∧ 0 ≤ length.toInt ∧
      length.toInt.toNat ≤ segment.size) ∧ s.usable t segment.arena = true) ∧ s' = s
  | .copyOut segment array offset length, r, s' =>
    ((∃ a, r = .ok a) ↔ (inRange array offset length ∧ 0 ≤ length.toInt ∧
      length.toInt.toNat ≤ segment.size) ∧ s.usable t segment.arena = true) ∧ s' = s
  | .downcall d, .ok _, s' => (∀ segment ∈ d.segments, s.usable t segment.arena = true) ∧ s' = s
  | .getArena self, r, s' => r = .ok (s.streams self).arena ∧ s' = s
  | .setArena self arena, r, s' => r = .ok () ∧ s' = s.setArena self arena
  | .getSegment self, r, s' => r = .ok (s.streams self).hasherSegment ∧ s' = s
  | .setSegment self segment, r, s' => r = .ok () ∧ s' = s.setSegment self segment
  | _, _, s' => s' = s

def isOpen (s : Resources) (a : ℕ) : Bool := (s.arenas a).any Arena.isOpen

end Resources

/-! ### The threads -/

inductive FfmCall
  | new (self : ℕ) (key : Option JByteArray)
  | call (self : ℕ) (op : StreamOp)
  | hash (data : JByteArray) (outLen : Int32)
  | keyedHash (key data : JByteArray) (outLen : Int32)

def FfmCall.body : FfmCall → FfmProg Reply
  | new self key => (Ffm.Blake3Stream.new self key).bind fun _ => .pure .unit
  | call self op => Ffm.Blake3Stream.call self op
  | hash data outLen => (Ffm.hash data outLen).bind fun r => .pure (.array r)
  | keyedHash key data outLen => (Ffm.keyedHash key data outLen).bind fun r => .pure (.array r)

abbrev PoolConfig := Config ℕ FfmCmd FfmCmd.Answer Throwable FfmCall Reply Resources

abbrev PoolMove := Move ℕ FfmCmd FfmCmd.Answer Throwable FfmCall Reply

abbrev PoolHistory := List (Happened ℕ Throwable FfmCall Reply)

/-- A constructor of `self` has returned. -/
def Constructed (history : PoolHistory) (self : ℕ) : Prop :=
  ∃ t key r, .finished t (.new self key) (.ok r) ∈ history

/-- `close()` has been called on `self`. -/
def CloseCalled (history : PoolHistory) (self : ℕ) : Prop :=
  ∃ t, .started t (.call self .close) ∈ history

/-- A thread other than `t` is in a native call on a segment of `a`. -/
def InUse (cfg : PoolConfig) (t a : ℕ) : Prop :=
  ∃ u, u ≠ t ∧ cfg.shared.usable u a = true ∧ ∃ call d next,
    cfg.thread u = .waiting call (.downcall d) next ∧ ∃ segment ∈ d.segments, segment.arena = a

/-- A stream is constructed once, and used by others only after that. -/
def ffmPool : System ℕ FfmCmd FfmCmd.Answer Throwable FfmCall Reply Resources where
  body := FfmCall.body
  mayStart := fun cfg call =>
    match call with
    | .new self _ => ∀ t key, .started t (.new self key) ∉ cfg.history
    | .call self _ => Constructed cfg.history self
    | _ => True
  answers := fun cfg t c r s => cfg.shared.Answers t (InUse cfg t) c r s

def freshPool : PoolConfig := .initial .initial

/-! ### The property -/

/-- No arena is lost. -/
structure NoArenaLost (cfg : PoolConfig) : Prop where
  /-- While no call is in progress, the arenas of the open streams are open, and no others. -/
  quiet : cfg.Quiet → ∀ a, cfg.shared.isOpen a = true ↔ ∃ self, Constructed cfg.history self ∧
    ¬ CloseCalled cfg.history self ∧ cfg.shared.arenaOf self = some a
  /-- A thread that is in no call has no temporary arena. -/
  temporary : ∀ t, cfg.thread t = .idle → ∀ a, cfg.shared.arenas a ≠ some ⟨some t, true⟩
  /-- After `close()` the arena of a stream is closed. -/
  closed : ∀ self a, (∃ t r, .finished t (.call self .close) r ∈ cfg.history) →
    (∀ t x, cfg.rest t ≠ some (.call self .close, x)) → cfg.shared.arenaOf self = some a →
      cfg.shared.isOpen a = false

/-- The commands without which a constructor throws, but for the opening of its arena. -/
def FfmCmd.Essential : FfmCmd → Prop
  | loadNativeLibrary => True
  | allocate _ _ => True
  | handle _ => True
  | downcall _ => True
  | _ => False

/-- No constructor fails once its arena is open, and no `close()` comes to close the arena
while another thread is in a native call on it. -/
def Careful (cfg : PoolConfig) : PoolMove → Prop
  | .start _ (.new _ key) => ∀ k, key = some k → k.size = 32
  | .answer _ (.new _ _) c r => c.Essential → ∃ v, r = .ok v
  | .answer t (.call _ .close) (.closeArena a) _ => ¬ InUse cfg t a
  | _ => True

/-! ### One thread alone -/

/-- No arena is in use before it is opened. -/
def FfmWorld.Fresh (w : FfmWorld) : Prop := ∀ a, w.nextArena ≤ a → w.resources.arenas a = none

section

variable (p : Platform) {w : FfmWorld} (hw : w.Fresh)
include hw

/-- What a command does when one thread runs alone is among its answers in the pool. -/
theorem FfmCmd.answer_answers (c : FfmCmd) :
    w.resources.Answers 0 (fun _ => False) c (c.answer p w).1 (c.answer p w).2.resources := by
  have hfresh : w.resources.arenas w.nextArena = none := hw _ le_rfl
  have hattempt : ∀ {k : FfmWorld → Except Throwable c.Answer × FfmWorld},
      (∀ e, w.resources.Answers 0 (fun _ => False) c (.error e) w.resources) →
      w.resources.Answers 0 (fun _ => False) c (k w.tick).1 (k w.tick).2.resources →
      w.resources.Answers 0 (fun _ => False) c (w.attempt k).1 (w.attempt k).2.resources := by
    intro k herror hok
    rw [FfmWorld.attempt]
    cases w.failures w.clock with
    | some e => exact herror e
    | none => exact hok
  cases c with
  | ofShared self =>
    rw [answer]
    exact hattempt (fun _ => rfl) ⟨hfresh, rfl⟩
  | ofConfined =>
    rw [answer]
    exact hattempt (fun _ => rfl) ⟨hfresh, rfl⟩
  | closeArena arena =>
    rw [answer]
    by_cases ha : w.resources.usable 0 arena = true
    · rw [if_pos ha]
      exact .inl ⟨ha, not_false, rfl, rfl⟩
    · rw [if_neg ha]
      exact .inr ⟨fun h => ha h.1, ⟨_, rfl⟩, rfl⟩
  | allocate arena size =>
    rw [answer]
    refine hattempt (fun _ => rfl) ?_
    by_cases ha : w.tick.resources.usable 0 arena = true
    · rw [if_pos ha]
      exact ⟨ha, rfl, rfl, rfl⟩
    · rw [if_neg ha]
      exact rfl
  | copyIn array offset segment length =>
    rw [answer]
    by_cases hin : inRange array offset length ∧ 0 ≤ length.toInt ∧
        length.toInt.toNat ≤ segment.size
    · rw [if_neg (not_not.mpr hin)]
      by_cases ha : w.resources.usable 0 segment.arena = true
      · rw [if_neg (not_not.mpr ha)]
        split
        · exact ⟨⟨fun _ => ⟨hin, ha⟩, fun _ => ⟨_, rfl⟩⟩, rfl⟩
        · exact ⟨⟨fun _ => ⟨hin, ha⟩, fun _ => ⟨_, rfl⟩⟩, rfl⟩
      · rw [if_pos ha]
        exact ⟨⟨fun h => absurd h (by simp), fun h => absurd h.2 ha⟩, rfl⟩
    · rw [if_pos hin]
      exact ⟨⟨fun h => absurd h (by simp), fun h => absurd h.1 hin⟩, rfl⟩
  | copyOut segment array offset length =>
    rw [answer]
    by_cases hin : inRange array offset length ∧ 0 ≤ length.toInt ∧
        length.toInt.toNat ≤ segment.size
    · rw [if_neg (not_not.mpr hin)]
      by_cases ha : w.resources.usable 0 segment.arena = true
      · rw [if_neg (not_not.mpr ha)]
        split
        · exact ⟨⟨fun _ => ⟨hin, ha⟩, fun _ => ⟨_, rfl⟩⟩, rfl⟩
        · exact ⟨⟨fun _ => ⟨hin, ha⟩, fun _ => ⟨_, rfl⟩⟩, rfl⟩
      · rw [if_pos ha]
        exact ⟨⟨fun h => absurd h (by simp), fun h => absurd h.2 ha⟩, rfl⟩
    · rw [if_pos hin]
      exact ⟨⟨fun h => absurd h (by simp), fun h => absurd h.1 hin⟩, rfl⟩
  | loadNativeLibrary =>
    rw [answer]
    exact hattempt (fun _ => rfl) rfl
  | handle name =>
    rw [answer]
    exact hattempt (fun _ => rfl) rfl
  | sizeofHandle =>
    rw [answer]
    exact hattempt (fun _ => rfl) rfl
  | hasherSizeof =>
    rw [answer]
    exact hattempt (fun _ => rfl) rfl
  | downcall d =>
    rw [answer]
    refine hattempt (fun _ => rfl) ?_
    by_cases ha : (d.segments.all fun s => w.tick.resources.usable 0 s.arena) = true
    · rw [if_pos ha]
      split
      · exact ⟨List.all_eq_true.mp ha, rfl⟩
      · exact ⟨List.all_eq_true.mp ha, rfl⟩
    · rw [if_neg ha]
      exact rfl
  | getArena self => exact ⟨rfl, rfl⟩
  | setArena self arena => exact ⟨rfl, rfl⟩
  | getSegment self => exact ⟨rfl, rfl⟩
  | setSegment self segment => exact ⟨rfl, rfl⟩

/-- No command touches an arena that is still to come. -/
theorem FfmCmd.answer_fresh (c : FfmCmd) : (c.answer p w).2.Fresh := by
  have hsame : ∀ {w' : FfmWorld}, w'.resources.arenas = w.resources.arenas →
      w'.nextArena = w.nextArena → w'.Fresh := by
    intro w' harenas hnext a ha
    rw [harenas]
    exact hw a (hnext ▸ ha)
  have hopened : ∀ {w' : FfmWorld} {x : Option Arena}, w'.resources.arenas =
      Function.update w.resources.arenas w.nextArena x → w'.nextArena = w.nextArena + 1 →
      w'.Fresh := by
    intro w' x harenas hnext a ha
    rw [harenas, Function.update_of_ne (by omega)]
    exact hw a (by omega)
  have hattempt : ∀ {k : FfmWorld → Except Throwable c.Answer × FfmWorld},
      (k w.tick).2.Fresh → (w.attempt k).2.Fresh := by
    intro k hk
    rw [FfmWorld.attempt]
    cases w.failures w.clock with
    | some e => exact hsame rfl rfl
    | none => exact hk
  cases c with
  | ofShared self =>
    rw [answer]
    exact hattempt (hopened rfl rfl)
  | ofConfined =>
    rw [answer]
    exact hattempt (hopened rfl rfl)
  | closeArena arena =>
    rw [answer]
    split
    · intro a ha
      have hnone := hw a ha
      show Function.update w.resources.arenas arena _ a = none
      by_cases haa : a = arena
      · subst haa
        rw [Function.update_self, hnone]
        rfl
      · rw [Function.update_of_ne haa, hnone]
    · exact hw
  | allocate arena size =>
    rw [answer]
    refine hattempt ?_
    split
    · exact hsame rfl rfl
    · exact hsame rfl rfl
  | copyIn array offset segment length =>
    rw [answer]
    split
    · exact hw
    · split
      · exact hw
      · split
        · exact hsame rfl rfl
        · exact hsame rfl rfl
  | copyOut segment array offset length =>
    rw [answer]
    split
    · exact hw
    · split
      · exact hw
      · split
        · exact hw
        · exact hsame rfl rfl
  | downcall d =>
    rw [answer]
    refine hattempt ?_
    split
    · split
      · exact hsame rfl rfl
      · exact hsame rfl rfl
    · exact hsame rfl rfl
  | loadNativeLibrary | handle _ | sizeofHandle | hasherSizeof =>
    rw [answer]
    exact hattempt (hsame rfl rfl)
  | getArena _ | setArena _ _ | getSegment _ | setSegment _ _ => exact hsame rfl rfl

end

/-- A program that has ended. -/
def ended {α : Type} : Except Throwable α → FfmProg α
  | .ok a => .pure a
  | .error e => .raise e

section

variable {ok : PoolConfig → PoolMove → Prop} {call : FfmCall} {s s' : Resources}

/-- In the first call of a run thread 0 has come to `x`, and no other thread is in a call. -/
def Alone (ok : PoolConfig → PoolMove → Prop) (call : FfmCall) (s : Resources)
    (x : FfmProg Reply) : Prop :=
  ∃ cfg : PoolConfig, Reach ffmPool ok freshPool cfg ∧ cfg.shared = s ∧
    cfg.thread 0 = .running call x ∧ (∀ u, u ≠ 0 → cfg.thread u = .idle) ∧
    cfg.history = [.started 0 call]

theorem Alone.start (hmay : ffmPool.mayStart freshPool call)
    (hmet : ok freshPool (.start 0 call)) : Alone ok call .initial call.body := by
  refine ⟨_, .step .refl hmet (.start rfl hmay), rfl, rfl, ?_, rfl⟩
  intro u hu
  exact Function.update_of_ne hu ..

/-- One command; no other thread is in a native call. -/
theorem Alone.answer {c : FfmCmd} {next : Except Throwable c.Answer → FfmProg Reply}
    (h : Alone ok call s (.perform c next)) (r : Except Throwable c.Answer)
    (hanswer : s.Answers 0 (fun _ => False) c r s')
    (hmet : ∀ cfg, ok cfg (.request 0 call c) ∧ ok cfg (.answer 0 call c r)) :
    Alone ok call s' (next r) := by
  obtain ⟨cfg, hreach, rfl, hrun, hidle, hhistory⟩ := h
  have hother : ∀ {th : Thread FfmCmd FfmCmd.Answer Throwable FfmCall Reply} (u : ℕ), u ≠ 0 →
      (cfg.set 0 th).thread u = .idle :=
    fun u hu => (cfg.set_thread_ne hu _).trans (hidle u hu)
  have huse : InUse (cfg.set 0 (.waiting call c next)) 0 = fun _ => False := by
    funext a
    rw [eq_iff_iff, iff_false]
    rintro ⟨u, hu, -, call', d, next', hwait, -⟩
    rw [hother u hu] at hwait
    exact absurd hwait (by simp)
  have hanswer' : ffmPool.answers (cfg.set 0 (.waiting call c next)) 0 c r s' := by
    show cfg.shared.Answers 0 (InUse _ 0) c r s'
    rw [huse]
    exact hanswer
  have hnext := hreach.perform hrun r s' hanswer' (hmet _).1 (hmet _).2
  exact ⟨_, hnext, rfl, cfg.set_thread_self 0 _, fun u hu => hother u hu, hhistory⟩

/-- The call ends, and then no call is in progress. -/
theorem Alone.finish {r : Except Throwable Reply} (h : Alone ok call s (ended r))
    (hmet : ∀ cfg, ok cfg (.finish 0 call r)) :
    ∃ cfg : PoolConfig, Reach ffmPool ok freshPool cfg ∧ cfg.shared = s ∧ cfg.Quiet ∧
      cfg.history = [.finished 0 call r, .started 0 call] := by
  obtain ⟨cfg, hreach, rfl, hrun, hidle, hhistory⟩ := h
  have hquiet : (cfg.set 0 .idle).Quiet := by
    intro u
    by_cases hu : u = 0
    · rw [hu, cfg.set_thread_self]
    · exact (cfg.set_thread_ne hu _).trans (hidle u hu)
  cases r with
  | ok v =>
    exact ⟨_, hreach.step (hmet cfg) (.returned hrun), rfl, hquiet,
      congrArg (List.cons _) hhistory⟩
  | error e =>
    exact ⟨_, hreach.step (hmet cfg) (.raised hrun), rfl, hquiet,
      congrArg (List.cons _) hhistory⟩

/-- **A program run alone is a run of the pool.** -/
theorem exec_reach (p : Platform) {x : FfmProg Reply} {w : FfmWorld} (hw : w.Fresh)
    (h : Alone Anything call w.resources x) :
    Alone Anything call (x.exec (FfmCmd.answer p) w).2.resources
      (ended (x.exec (FfmCmd.answer p) w).1) := by
  induction x generalizing w with
  | pure a => exact h
  | raise e => exact h
  | perform c next ih =>
    have hanswer := FfmCmd.answer_answers p hw c
    exact ih _ (FfmCmd.answer_fresh p hw c)
      (h.answer (c.answer p w).1 hanswer fun _ => ⟨trivial, trivial⟩)

end

end Blake3Kmp
