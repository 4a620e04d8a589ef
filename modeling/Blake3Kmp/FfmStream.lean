/-
The FFM `Blake3Stream` simulates the stream of `Stream.lean`.

Run alone, an operation ends as the simulated one does, or throws and leaves
the stream as it was, which happens only when the JVM fails a command or the
range overflows.

* `Simulates` — an open stream has its arena and the segment of its hasher, a
  closed one neither;
* `update_ends`, …, `call_ends` — the operations;
* `new_ends` — the constructors.
-/
import Blake3Kmp.ExtendedOutput
import Blake3Kmp.FfmRules

open CheckedMemory Programs Prog

namespace Blake3Kmp

/-! ### The simulation -/

namespace Ffm

/-- How a call ends. -/
def outcome {α : Type} (r : Except Throwable α) (w : FfmWorld) : Outcome α :=
  if w.undefined then .fault
  else match r with
    | .ok a => .returned a
    | .error e => .threw e

theorem outcome_defined {α : Type} {r : Except Throwable α} {w : FfmWorld}
    (h : w.undefined = false) :
    outcome r w = match r with
      | .ok a => .returned a
      | .error e => .threw e := if_neg (by rw [h]; simp)

theorem outcome_undefined {α : Type} {r : Except Throwable α} {w : FfmWorld}
    (h : w.undefined = true) : outcome r w = .fault := if_pos h

namespace Blake3Stream

/-- An open stream: its arena, and the segment that its hasher is in. -/
structure Holds (w : FfmWorld) (stream : ℕ) (segment : MemorySegment) (hasher : Hasher) :
    Prop where
  fields : w.resources.streams stream = ⟨some segment.arena, some segment⟩
  usable : w.resources.usable 0 segment.arena = true
  arena_lt : segment.arena < w.nextArena
  segment_lt : segment.id < w.nextSegment
  memory : w.memory segment.id = .hasher hasher

/-- The stream `self` stands for `st`. -/
def Simulates (w : FfmWorld) (self : ℕ) (st : Option Hasher) : Prop :=
  w.undefined = false ∧
    match st with
    | none => w.resources.streams self = ⟨none, none⟩
    | some hasher => ∃ segment, Holds w self segment hasher

section

variable {w w' : FfmWorld} {self : ℕ}

theorem Holds.later {segment : MemorySegment} {hasher : Hasher}
    (h : Holds w self segment hasher) (hl : Later w w') : Holds w' self segment hasher where
  fields := by rw [hl.streams, h.fields]
  usable := by rw [hl.usable _ h.arena_lt, h.usable]
  arena_lt := h.arena_lt.trans_le hl.nextArena
  segment_lt := h.segment_lt.trans_le hl.nextSegment
  memory := by rw [hl.memory _ h.segment_lt, h.memory]

theorem Simulates.later {st : Option Hasher} (h : Simulates w self st) (hl : Later w w') :
    Simulates w' self st := by
  obtain ⟨hdef, hst⟩ := h
  refine ⟨hl.undefined.trans hdef, ?_⟩
  cases st with
  | none => exact (congrFun hl.streams self).trans hst
  | some hasher =>
    obtain ⟨segment, hst⟩ := hst
    exact ⟨segment, hst.later hl⟩

/-- The hasher of an open stream is written. -/
theorem Holds.put {segment : MemorySegment} {hasher hasher' : Hasher}
    (h : Holds w self segment hasher) :
    Holds (w.put segment.id (.hasher hasher')) self segment hasher' where
  fields := h.fields
  usable := h.usable
  arena_lt := h.arena_lt
  segment_lt := h.segment_lt
  memory := FfmWorld.put_memory_self ..

/-- The same, with what came before and after. -/
theorem Simulates.written {segment : MemorySegment} {hasher hasher' : Hasher}
    (hholds : Holds w self segment hasher) (hdef : w.undefined = false)
    (hl : Later (w.put segment.id (.hasher hasher')) w') : Simulates w' self (some hasher') :=
  ⟨hl.undefined.trans hdef, segment, hholds.put.later hl⟩

end

/-- Native code is undefined on the hasher, whatever the array. -/
def Breaks (p : Platform) (hasher : Hasher) : StreamOp → Prop
  | .update input offset length => 0 < length.toInt ∧ inRange input offset length ∧
      blake3HasherUpdate p hasher (rangeBytes input offset length) = none
  | .finalizeInto _ _ _ => hasherRoot p hasher = none
  | .finalize _ => hasherRoot p hasher = none
  | _ => False

/-- An operation has ended as the simulated one; or it has thrown, since the JVM failed a
command or the range overflows, and the stream is as it was. -/
def EndsAs (p : Platform) (self : ℕ) (st : Option Hasher) (op : StreamOp) (w : FfmWorld)
    (r : Except Throwable Reply) (w' : FfmWorld) : Prop :=
  (∃ e, r = .error e ∧ Simulates w' self st ∧ (w.Failing ∨ ¬ op.NoOverflow)) ∨
    ((outcome r w').Alike (op.step p true st).1 ∧
      (outcome r w' = .fault ∧ (∃ hasher, st = some hasher ∧ Breaks p hasher op) ∨
        Simulates w' self (op.step p true st).2))

/-! ### The operations -/

section

variable {p : Platform} {w : FfmWorld} {self : ℕ} {st : Option Hasher}

/-- Inside the block of `update` and `finalize`: it ends by throwing, with nothing changed. -/
theorem beforeClose_threw {α : Type} {f : α → Reply} {op : StreamOp} {a : ℕ} (h : Simulates w self st) {w' : FfmWorld}
    (hl : Later w w') (ha : w.nextArena ≤ a) (hopen : w'.resources.usable 0 a = true)
    (hwhy : w.Failing ∨ ¬ op.NoOverflow) (e : Throwable) :
    BeforeClose a (fun r => EndsAs p self st op w (r.map f)) (.error e) w' :=
  .inr ⟨hopen, .inl ⟨e, rfl, h.later (hl.close_new ha), hwhy⟩⟩

theorem endsAs_returned {op : StreamOp} {reply : Reply} {st' : Option Hasher} {w' : FfmWorld}
    (h : Simulates w' self st') (hstep : op.step p true st = (.returned reply, st')) :
    EndsAs p self st op w (.ok reply) w' := by
  refine .inr ⟨?_, .inr (by rwa [hstep])⟩
  rw [hstep, outcome_defined h.1]
  exact rfl

theorem endsAs_threw {op : StreamOp} {e e' : Throwable} {st' : Option Hasher} {w' : FfmWorld}
    (h : Simulates w' self st') (hstep : op.step p true st = (.threw e', st'))
    (he : e.cls = e'.cls) : EndsAs p self st op w (.error e) w' := by
  refine .inr ⟨?_, .inr (by rwa [hstep])⟩
  rw [hstep, outcome_defined h.1]
  exact he

theorem endsAs_fault {op : StreamOp} {hasher : Hasher} (hbreaks : Breaks p hasher op)
    {r : Except Throwable Reply} {st' : Option Hasher} {w' : FfmWorld}
    (hundef : w'.undefined = true) (hstep : op.step p true (some hasher) = (.fault, st')) :
    EndsAs p self (some hasher) op w r w' := by
  refine .inr ⟨?_, .inl ⟨outcome_undefined hundef, hasher, rfl, hbreaks⟩⟩
  rw [hstep, outcome_undefined hundef]
  exact trivial

theorem update_ends (h : Simulates w self st) (input : JByteArray) (offset length : Int32) :
    Ends p (update self input offset length) w fun r =>
      EndsAs p self st (.update input offset length) w (r.map fun _ => .unit) := by
  have hdef := h.1
  have hstep : (StreamOp.update input offset length).step p true st =
    streamUpdate p true st input offset length := rfl
  rw [update]
  rw [streamUpdate.eq_def] at hstep
  by_cases hlen : length ≤ 0
  · rw [if_pos hlen] at hstep ⊢
    exact endsAs_returned h hstep
  rw [if_neg hlen] at hstep ⊢
  by_cases hcheck : ¬ rangeCheck input offset length = true
  · rw [if_pos hcheck] at hstep ⊢
    exact endsAs_threw h hstep rfl
  rw [if_neg hcheck] at hstep ⊢
  have hpos := pos_toInt.mp hlen
  cases st with
  | none =>
    refine ends_bind (ends_getSegment (by rw [h.2]) ?_)
    exact endsAs_threw h hstep rfl
  | some hasher =>
    obtain ⟨segment, hholds⟩ := id h.2
    simp only [if_true] at hstep
    refine ends_bind (ends_getSegment (by rw [hholds.fields]) ?_)
    refine ends_useArena ?_ ?_
    · intro e hf
      exact .inl ⟨e, rfl, h.later (Later.refl w).tick, .inl hf⟩
    have hl := (Later.refl w).tick.confined
    have hopen := Resources.usable_openConfined_self w.resources 0 w.nextArena
    refine ends_bind (ends_allocate hopen ?_ ?_)
    · intro e hf
      exact beforeClose_threw h hl.tick le_rfl hopen (.inl hf) e
    have hl := hl.tick.allocated length.toInt.toNat
    refine ends_bind (ends_copyIn (FfmWorld.allocated_memory_self ..) (List.length_replicate)
      hpos.le rfl hopen ?_ ?_)
    · -- the array is checked again: an overflowing range is turned down here
      intro hout
      refine beforeClose_threw h hl le_rfl hopen (.inr ?_) _
      intro hno
      exact hout (inRange_of_check hlen (not_not.mp hcheck) hno)
    intro hin
    have hl := hl.put_new le_rfl (.bytes (rangeBytes input offset length))
    have hheld := hholds.later hl
    rw [updateRange_eq hin hpos] at hstep
    refine ends_update (congrArg Cell.asHasher hheld.memory) hheld.usable ?_
      (FfmWorld.put_memory_self ..) ?_ (rangeBytes_length hin) ?_ ?_
    · rintro e w' hf (rfl | rfl)
      · exact beforeClose_threw h hl.tick le_rfl hopen (.inl hf) e
      · exact beforeClose_threw h hl.tick.tick le_rfl hopen (.inl hf) e
    · exact hopen
    · intro hasher' hupd
      have hl := hl.tick.tick.put_both segment.id (.hasher hasher')
      have hsim := Simulates.written hholds hdef (hl.close_new (le_refl w.nextArena))
      rw [hupd] at hstep
      exact .inr ⟨hopen, endsAs_returned hsim hstep⟩
    · intro hupd w' hundef
      have hbreaks : Breaks p hasher (.update input offset length) := ⟨hpos, hin, hupd⟩
      rw [hupd] at hstep
      exact .inl ⟨hundef, fun r w'' hundef => endsAs_fault hbreaks hundef hstep⟩

/-- What is written to a new segment, and from there to the array, is what is written to the
array. -/
theorem finalizeRange_segment (hp : p.Agree) {hasher : Hasher} {out : JByteArray}
    {offset length : Int32} (hr : inRange out offset length) (hpos : 0 < length.toInt)
    {bytes : List UInt8}
    (hfin : blake3HasherFinalize p hasher (List.replicate length.toInt.toNat 0) 0
      length.toInt.toNat = some bytes) {out' : JByteArray}
    (hfill : Filled out offset.toInt.toNat bytes out') :
    finalizeRange p hasher out offset length = some out' := by
  have hrep : (List.replicate length.toInt.toNat (0 : UInt8)).length = length.toInt.toNat :=
    List.length_replicate
  rw [blake3HasherFinalize_root hp (by omega) (by omega)] at hfin
  rcases finalizeRange_root hp (h := hasher) hr hpos with ⟨hroot, -⟩ | ⟨o, a', hroot, heq, hfill'⟩
  · rw [hroot] at hfin
    exact absurd hfin (by simp)
  · rw [hroot, Option.bind_some, writeSlice_eq_some (by rw [outputPrefix_length]; omega),
      List.take_zero, List.nil_append, List.drop_eq_nil_of_le (by rw [outputPrefix_length]; omega),
      List.append_nil, Option.some_inj] at hfin
    rw [heq, Option.some_inj]
    refine JByteArray.ext ?_
    rw [hfill, hfill', hfin]

theorem finalize_zeros_length (hp : p.Agree) {hasher : Hasher} {n : ℕ} (hn : 0 < n)
    {bytes : List UInt8}
    (hfin : blake3HasherFinalize p hasher (List.replicate n 0) 0 n = some bytes) :
    bytes.length = n := by
  rw [blake3HasherFinalize_root hp hn (by simp)] at hfin
  obtain ⟨o, -, hwrite⟩ := Option.bind_eq_some_iff.mp hfin
  rw [writeSlice_eq_some (by simp [outputPrefix_length]), Option.some_inj] at hwrite
  rw [← hwrite]
  simp [outputPrefix_length]

theorem hasherRoot_none (hp : p.Agree) {hasher : Hasher} {n : ℕ} (hn : 0 < n)
    (hfin : blake3HasherFinalize p hasher (List.replicate n 0) 0 n = none) :
    hasherRoot p hasher = none := by
  rw [blake3HasherFinalize_root hp hn (by simp), Option.bind_eq_none_iff] at hfin
  cases hroot : hasherRoot p hasher with
  | none => rfl
  | some o =>
    have hwrite := hfin o hroot
    rw [writeSlice_eq_some (by simp [outputPrefix_length])] at hwrite
    exact absurd hwrite (by simp)

theorem finalizeRange_none (hp : p.Agree) {hasher : Hasher} (hroot : hasherRoot p hasher = none)
    {out : JByteArray} {offset length : Int32} (hpos : 0 < length.toInt) :
    finalizeRange p hasher out offset length = none := by
  by_cases hr : inRange out offset length
  · rcases finalizeRange_root hp (h := hasher) hr hpos with ⟨-, heq⟩ | ⟨o, a', hsome, -, -⟩
    · exact heq
    · exact absurd (hroot.symm.trans hsome) (by simp)
  · exact finalizeRange_outside hr hpos

theorem finalizeInto_ends (hp : p.Agree) (h : Simulates w self st) (out : JByteArray)
    (offset length : Int32) :
    Ends p (finalizeInto self out offset length) w fun r =>
      EndsAs p self st (.finalizeInto out offset length) w (r.map .array) := by
  have hstep : (StreamOp.finalizeInto out offset length).step p true st =
    (streamFinalizeInto p true st out offset length, st) := rfl
  rw [finalizeInto]
  rw [streamFinalizeInto.eq_def] at hstep
  by_cases hlen : length ≤ 0
  · rw [if_pos hlen] at hstep ⊢
    exact endsAs_returned h hstep
  rw [if_neg hlen] at hstep ⊢
  by_cases hcheck : ¬ rangeCheck out offset length = true
  · rw [if_pos hcheck] at hstep ⊢
    exact endsAs_threw h hstep rfl
  rw [if_neg hcheck] at hstep ⊢
  have hpos := pos_toInt.mp hlen
  cases st with
  | none =>
    refine ends_bind (ends_getSegment (by rw [h.2]) ?_)
    exact endsAs_threw h hstep rfl
  | some hasher =>
    obtain ⟨segment, hholds⟩ := id h.2
    simp only [if_true] at hstep
    refine ends_bind (ends_getSegment (by rw [hholds.fields]) ?_)
    refine ends_useArena ?_ ?_
    · intro e hf
      exact .inl ⟨e, rfl, h.later (Later.refl w).tick, .inl hf⟩
    have hl := (Later.refl w).tick.confined
    have hopen := Resources.usable_openConfined_self w.resources 0 w.nextArena
    refine ends_bind (ends_allocate hopen ?_ ?_)
    · intro e hf
      exact beforeClose_threw h hl.tick le_rfl hopen (.inl hf) e
    have hl := hl.tick.allocated length.toInt.toNat
    have hheld := hholds.later hl
    refine ends_bind (ends_finalize (congrArg Cell.asHasher hheld.memory) hheld.usable ?_
      (FfmWorld.allocated_memory_self ..) ?_ (List.length_replicate) ?_ ?_)
    · rintro e w' hf (rfl | rfl)
      · exact beforeClose_threw h hl.tick le_rfl hopen (.inl hf) e
      · exact beforeClose_threw h hl.tick.tick le_rfl hopen (.inl hf) e
    · exact hopen
    · intro bytes hfin
      have hl := hl.tick.tick.put_new le_rfl (.bytes bytes)
      refine ends_copyOut (FfmWorld.put_memory_self ..) (finalize_zeros_length hp (by omega) hfin) hpos.le rfl
        ?_ ?_ ?_
      · exact hopen
      · intro hout
        refine beforeClose_threw h hl le_rfl hopen (.inr ?_) _
        intro hno
        exact hout (inRange_of_check hlen (not_not.mp hcheck) hno)
      · intro hin out' hfill
        have hsim := h.later (hl.close_new (le_refl w.nextArena))
        rw [finalizeRange_segment hp hin hpos hfin hfill] at hstep
        exact .inr ⟨hopen, endsAs_returned hsim hstep⟩
    · intro hfin w' hundef
      have hroot := hasherRoot_none hp (by omega) hfin
      have hbreaks : Breaks p hasher (.finalizeInto out offset length) := hroot
      rw [finalizeRange_none hp hroot hpos] at hstep
      refine wp_mono ?_ (ends_undefined hundef)
      intro r w' hundef
      exact .inl ⟨hundef, fun r w'' hundef => endsAs_fault hbreaks hundef hstep⟩

theorem finalize_ends (hp : p.Agree) (h : Simulates w self st) (outLen : Int32) :
    Ends p (finalize self outLen) w fun r =>
      EndsAs p self st (.finalize outLen) w (r.map .array) := by
  rw [finalize]
  cases halloc : JByteArray.alloc outLen with
  | error e =>
    have hstep : (StreamOp.finalize outLen).step p true st = (.threw e, st) := by
      rw [StreamOp.step, halloc]
    exact endsAs_threw h hstep rfl
  | ok result =>
    have hstep : (StreamOp.finalize outLen).step p true st =
        (StreamOp.finalizeInto result 0 outLen).step p true st := by
      simp only [StreamOp.step, halloc]
    refine wp_mono ?_ (finalizeInto_ends hp h result 0 outLen)
    rintro r w' (⟨e, hr, hsim, hwhy⟩ | hends)
    · refine .inl ⟨e, hr, hsim, .inl (hwhy.resolve_right ?_)⟩
      rintro hno
      refine hno ?_
      rintro ⟨-, hov⟩
      have hlt := outLen.toInt_lt
      rw [Int32.toInt_zero] at hov
      omega
    · rw [EndsAs, hstep]
      exact .inr hends

theorem reset_ends (h : Simulates w self st) :
    Ends p (reset self) w fun r => EndsAs p self st .reset w (r.map fun _ => .unit) := by
  rw [reset]
  cases st with
  | none =>
    refine ends_bind (ends_getSegment (by rw [h.2]) ?_)
    exact endsAs_threw h rfl rfl
  | some hasher =>
    obtain ⟨segment, hholds⟩ := id h.2
    refine ends_bind (ends_getSegment (by rw [hholds.fields]) ?_)
    refine ends_reset (congrArg Cell.asHasher hholds.memory) hholds.usable ?_ ?_
    · rintro e w' hf (rfl | rfl)
      · exact .inl ⟨e, rfl, h.later (Later.refl w).tick, .inl hf⟩
      · exact .inl ⟨e, rfl, h.later (Later.refl w).tick.tick, .inl hf⟩
    · have hl := (Later.refl w).tick.tick.put_both segment.id (.hasher (blake3HasherReset hasher))
      exact endsAs_returned (Simulates.written hholds h.1 hl) rfl

theorem close_ends (h : Simulates w self st) :
    Ends p (close self) w fun r => EndsAs p self st .close w (r.map fun _ => .unit) := by
  rw [close]
  cases st with
  | none =>
    refine ends_bind (ends_getArena (by rw [h.2]) ?_)
    exact endsAs_returned h rfl
  | some hasher =>
    obtain ⟨segment, hholds⟩ := id h.2
    refine ends_bind (ends_getArena (by rw [hholds.fields]) ?_)
    refine ends_bind (ends_setSegment ?_)
    refine ends_bind (ends_setArena ?_)
    have hfields : ((w.resources.setSegment self none).setArena self none).streams self =
        ⟨none, none⟩ := by
      simp [Resources.setSegment, Resources.setArena]
    refine wp_tryCatch (ends_closeArena ?_ ?_)
    · intro _
      exact endsAs_returned ⟨h.1, hfields⟩ rfl
    · intro _
      exact endsAs_returned ⟨h.1, hfields⟩ rfl

/-- **The FFM stream simulates the stream without memory.** -/
theorem call_ends (hp : p.Agree) (h : Simulates w self st) (op : StreamOp) :
    Ends p (call self op) w (EndsAs p self st op w) := by
  have hreply : ∀ {α : Type} {f : α → Reply} {x : FfmProg α},
      Ends p x w (fun r => EndsAs p self st op w (r.map f)) →
        Ends p (x.bind fun a => .pure (f a)) w (EndsAs p self st op w) := by
    intro α f x hx
    refine ends_bind (wp_mono ?_ hx)
    intro r w' hr
    cases r with
    | ok a => exact hr
    | error e => exact hr
  cases op with
  | update input offset length => exact hreply (update_ends h input offset length)
  | finalizeInto out offset length => exact hreply (finalizeInto_ends hp h out offset length)
  | finalize outLen => exact hreply (finalize_ends hp h outLen)
  | reset => exact hreply (reset_ends h)
  | close => exact hreply (close_ends h)

/-- A constructor has ended: with a new hasher, or it threw, since it turned the key down or
the JVM failed a command. -/
def NewEnds (self : ℕ) (key : Option JByteArray) (w : FfmWorld) (r : Except Throwable Unit)
    (w' : FfmWorld) : Prop :=
  (∃ k, checkKey key = .ok k ∧ r = .ok () ∧
      Simulates w' self (some (newHasher zeroedHasher k))) ∨
    ∃ e, r = .error e ∧ w'.undefined = false ∧ (w.Failing ∨ checkKey key = .error e)

/-- A stream under construction: its arena is open, and it has no hasher yet. -/
structure Building (w : FfmWorld) (stream a : ℕ) : Prop where
  defined : w.undefined = false
  fields : w.resources.streams stream = ⟨some a, none⟩
  usable : w.resources.usable 0 a = true
  arena_lt : a < w.nextArena

theorem Building.later {a : ℕ} {w' : FfmWorld} (h : Building w self a) (hl : Later w w') :
    Building w' self a where
  defined := hl.undefined.trans h.defined
  fields := by rw [hl.streams, h.fields]
  usable := by rw [hl.usable _ h.arena_lt, h.usable]
  arena_lt := h.arena_lt.trans_le hl.nextArena

/-- The segment of the new hasher is stored. -/
theorem Building.stored {s : MemorySegment} {hasher : Hasher} (h : Building w self s.arena)
    (hid : s.id < w.nextSegment) {w' : FfmWorld}
    (hl : Later (w.put s.id (.hasher hasher)) w') :
    Simulates { w' with resources := w'.resources.setSegment self (some s) } self
      (some hasher) := by
  have hbuild : Building (w.put s.id (.hasher hasher)) self s.arena :=
    ⟨h.defined, h.fields, h.usable, h.arena_lt⟩
  have hnow := hbuild.later hl
  refine ⟨hnow.defined, s, ?_, hnow.usable, hnow.arena_lt, hid.trans_le hl.nextSegment, ?_⟩
  · show Function.update w'.resources.streams self _ self = _
    rw [Function.update_self, hnow.fields]
  · rw [hl.memory _ hid, FfmWorld.put_memory_self]

theorem new_ends (hdef : w.undefined = false) (key : Option JByteArray) :
    Ends p (new self key) w (NewEnds self key w) := by
  have hfail : ∀ e w', w.Failing → w'.undefined = false → NewEnds self key w (.error e) w' :=
    fun e w' hf hw' => .inr ⟨e, rfl, hw', .inl hf⟩
  refine ends_bind (ends_attempt (c := .ofShared self) (by rw [FfmCmd.answer])
    (fun e hf => hfail e _ hf hdef) ?_)
  refine ends_bind (ends_setArena ?_)
  refine ends_bind (ends_setSegment ?_)
  refine ends_bind (ends_attempt (c := .loadNativeLibrary) (by rw [FfmCmd.answer])
    (fun e hf => hfail e _ hf hdef) ?_)
  -- from here on the arena is open, whatever fails
  generalize hw₁ : FfmWorld.tick _ = w₁
  have hbuild : Building w₁ self w.nextArena := by
    subst hw₁
    refine ⟨hdef, ?_, Resources.usable_openShared_self w.resources 0 self _,
      Nat.lt_succ_self _⟩
    simp [FfmWorld.tick, FfmWorld.shared, Resources.setSegment, Resources.setArena]
  have hfailures : w₁.failures = w.failures := by
    subst hw₁
    rfl
  have hfail : ∀ e w', Later w₁ w' → w₁.Failing → NewEnds self key w (.error e) w' := by
    intro e w' hl hf
    rw [FfmWorld.Failing, hfailures] at hf
    exact hfail e w' hf (hl.undefined.trans hbuild.defined)
  have harena : (w₁.resources.streams self).arena = some w.nextArena := by rw [hbuild.fields]
  cases key with
  | none =>
    refine ends_bind (ends_getArena harena ?_)
    refine ends_hasherSegment hbuild.usable hbuild.arena_lt hfail ?_
    intro w₂ i hnew
    have hbuild₂ := hbuild.later hnew.later
    refine ends_bind (ends_init hnew.zeros hbuild₂.usable ?_ ?_)
    · rintro e w' hf (rfl | rfl)
      · exact hfail e _ hnew.later.tick (hnew.later.failing hf)
      · exact hfail e _ hnew.later.tick.tick (hnew.later.failing hf)
    · have hput := (Later.refl w₂).tick.tick.put_both i (.hasher (blake3HasherInit zeroedHasher))
      refine ends_setSegment (.inl ⟨none, rfl, rfl, ?_⟩)
      exact hbuild₂.stored (s := ⟨i, w.nextArena, blake3HasherSizeof⟩) hnew.lt hput
  | some key =>
    dsimp only
    by_cases hsize : ¬ key.size = 32
    · have hkey : checkKey (some key) = .error badKeySize := by
        rw [checkKey, keyBuf_none hsize]
      rw [if_pos hsize]
      exact .inr ⟨_, rfl, hbuild.defined, .inr hkey⟩
    rw [if_neg hsize]
    obtain ⟨k, hk⟩ := keyBuf_isSome (not_not.mp hsize)
    refine ends_bind (ends_getArena harena ?_)
    refine ends_hasherSegment hbuild.usable hbuild.arena_lt hfail ?_
    intro w₂ i hnew
    have hbuild₂ := hbuild.later hnew.later
    refine ends_keySegment hnew.lt hbuild₂.usable hnew.zeros hk ?_ ?_
    · intro e w' hl hf
      exact hfail e _ (hnew.later.trans hl) (hnew.later.failing hf)
    · intro w₃ hl
      have hkey : checkKey (some key) = .ok (some k) := by rw [checkKey, hk]
      refine ends_setSegment (.inl ⟨some k, hkey, rfl, ?_⟩)
      exact hbuild₂.stored (s := ⟨i, w.nextArena, blake3HasherSizeof⟩) hnew.lt hl

end

end Blake3Stream

end Ffm

end Blake3Kmp
