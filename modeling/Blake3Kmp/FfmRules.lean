/-
What the commands of the FFM module do, as rules.

`Ends p x w post` says what holds when the program `x` has run alone from the
world `w`.  There is one rule for each command: what holds if it fails, where
it may, and what holds else.

* `ends_copyIn`, `ends_copyOut` — copies are in range or throw;
* `ends_useArena` — a block with an arena of its own;
* `ends_invokeExact` — a native call, and `ends_init`, …, `ends_finalize` for
  each native function.
-/
import Blake3Kmp.FfmMemory
import Blake3Kmp.StreamMessage

open CheckedMemory Programs Prog

namespace Blake3Kmp

/-- A command to come fails. -/
def FfmWorld.Failing (w : FfmWorld) : Prop := ∃ n, w.failures n ≠ none

theorem Later.failing {w w' : FfmWorld} (h : Later w w') (hf : w'.Failing) : w.Failing := by
  rwa [FfmWorld.Failing, h.failures] at hf

/-- `post` holds after the program, run by one thread alone. -/
def Ends (p : Platform) {α : Type} (x : FfmProg α) (w : FfmWorld)
    (post : Except Throwable α → FfmWorld → Prop) : Prop :=
  x.wp (answeredBy (FfmCmd.answer p)) post w

/-! ### The commands -/

section

variable {p : Platform} {w : FfmWorld}

/-- A command that may fail. -/
theorem ends_attempt {c : FfmCmd} {k : FfmWorld → Except Throwable c.Answer × FfmWorld}
    {post : Except Throwable c.Answer → FfmWorld → Prop} (hc : c.answer p w = w.attempt k)
    (hfail : ∀ e, w.Failing → post (.error e) w.tick)
    (hok : post (k w.tick).1 (k w.tick).2) : Ends p (request c) w post := by
  refine wp_request trivial ?_
  intro r w' hr
  have hr : c.answer p w = (r, w') := hr
  rw [hc, FfmWorld.attempt] at hr
  cases hf : w.failures w.clock with
  | some e =>
    rw [hf] at hr
    cases hr
    exact hfail e ⟨w.clock, by rw [hf]; simp⟩
  | none =>
    rw [hf] at hr
    rw [show k w.tick = (r, w') from hr] at hok
    exact hok

/-- A command that gives the answer at once. -/
theorem ends_answer {c : FfmCmd} {post : Except Throwable c.Answer → FfmWorld → Prop}
    (h : post (c.answer p w).1 (c.answer p w).2) : Ends p (request c) w post := by
  refine wp_request trivial ?_
  intro r w' hr
  rw [show c.answer p w = (r, w') from hr] at h
  exact h

theorem ends_bind {α β : Type} {x : FfmProg α} {f : α → FfmProg β}
    {post : Except Throwable β → FfmWorld → Prop}
    (h : Ends p x w fun r w' => match r with
      | .ok a => Ends p (f a) w' post
      | .error e => post (.error e) w') : Ends p (x.bind f) w post := by
  refine wp_bind (wp_mono ?_ h)
  intro r w' hr
  cases r with
  | ok a => exact hr
  | error e => exact hr

theorem ends_allocate {a size : ℕ} (ha : w.resources.usable 0 a = true)
    {post : Except Throwable MemorySegment → FfmWorld → Prop}
    (hfail : ∀ e, w.Failing → post (.error e) w.tick)
    (hok : post (.ok ⟨w.nextSegment, a, size⟩) (w.tick.allocated size)) :
    Ends p (Ffm.allocate a size) w post := by
  refine ends_attempt (c := .allocate a size) (by rw [FfmCmd.answer]) hfail ?_
  rw [if_pos (show w.tick.resources.usable 0 a = true from ha)]
  exact hok

/-- Copying a range of an array into a segment of its length. -/
theorem ends_copyIn {array : JByteArray} {offset length : Int32} {s : MemorySegment}
    {b : List UInt8} (hb : w.memory s.id = .bytes b) (hlen : b.length = length.toInt.toNat)
    (h0 : 0 ≤ length.toInt) (hsize : s.size = length.toInt.toNat)
    (ha : w.resources.usable 0 s.arena = true)
    {post : Except Throwable Unit → FfmWorld → Prop}
    (hout : ¬ inRange array offset length → post (.error copyOutOfBounds) w)
    (hin : inRange array offset length →
      post (.ok ()) (w.put s.id (.bytes (rangeBytes array offset length)))) :
    Ends p (Ffm.copyIn array offset s length) w post := by
  refine ends_answer ?_
  rw [FfmCmd.answer]
  by_cases hr : inRange array offset length
  · have hfits : inRange array offset length ∧ 0 ≤ length.toInt ∧
        length.toInt.toNat ≤ s.size := ⟨hr, h0, hsize.ge⟩
    have hrange := rangeBytes_length hr
    rw [if_neg (not_not.mpr hfits), if_neg (not_not.mpr ha), hb]
    simp only [Cell.asBytes, Option.bind_some]
    rw [writeSlice_eq_some (by omega), List.take_zero, List.nil_append, Nat.zero_add,
      List.drop_eq_nil_of_le (by omega), List.append_nil]
    exact hin hr
  · rw [if_pos fun h => hr h.1]
    exact hout hr

/-- Copying a whole segment into a range of an array. -/
theorem ends_copyOut {array : JByteArray} {offset length : Int32} {s : MemorySegment}
    {b : List UInt8} (hb : w.memory s.id = .bytes b) (hlen : b.length = length.toInt.toNat)
    (h0 : 0 ≤ length.toInt) (hsize : s.size = length.toInt.toNat)
    (ha : w.resources.usable 0 s.arena = true)
    {post : Except Throwable JByteArray → FfmWorld → Prop}
    (hout : ¬ inRange array offset length → post (.error copyOutOfBounds) w)
    (hin : inRange array offset length →
      ∀ array', Filled array offset.toInt.toNat b array' → post (.ok array') w) :
    Ends p (Ffm.copyOut s array offset length) w post := by
  refine ends_answer ?_
  rw [FfmCmd.answer]
  by_cases hr : inRange array offset length
  · have hfits : inRange array offset length ∧ 0 ≤ length.toInt ∧
        length.toInt.toNat ≤ s.size := ⟨hr, h0, hsize.ge⟩
    obtain ⟨ho, hle⟩ := id hr
    have harray := array.size_lt
    rw [if_neg (not_not.mpr hfits), if_neg (not_not.mpr ha), hb]
    simp only [Cell.asBytes, Option.bind_eq_bind, Option.bind_some]
    rw [readSlice_eq_some (by omega), List.drop_zero, ← hlen, List.take_length]
    simp only [Option.bind_some]
    rw [writeSlice_eq_some (by omega)]
    simp only [Option.bind_some]
    rw [JByteArray.ofBytes_eq_some]
    · exact hin hr _ rfl
    · simp only [List.length_append, List.length_take, List.length_drop]
      omega
  · rw [if_pos fun h => hr h.1]
    exact hout hr

/-- A native call: it may fail before it begins, or be undefined. -/
theorem ends_invokeExact {d : Downcall} (ha : ∀ s ∈ d.segments, w.resources.usable 0 s.arena = true)
    {post : Except Throwable Unit → FfmWorld → Prop}
    (hfail : ∀ e w', w.Failing → w' = w.tick ∨ w' = w.tick.tick → post (.error e) w')
    (hsome : ∀ memory, d.native p w.memory = some memory →
      post (.ok ()) { w.tick.tick with memory })
    (hnone : d.native p w.memory = none → ∀ w', w'.undefined = true → post (.ok ()) w') :
    Ends p (Ffm.invokeExact d) w post := by
  refine ends_bind (ends_attempt (c := .handle d.name) rfl ?_ ?_)
  · intro e hf
    exact hfail e _ hf (.inl rfl)
  · show Ends p (Ffm.downcall d) w.tick post
    refine ends_attempt (c := .downcall d) (by rw [FfmCmd.answer]) ?_ ?_
    · intro e hf
      exact hfail e _ hf (.inr rfl)
    · have hall : (d.segments.all fun s => w.tick.tick.resources.usable 0 s.arena) = true :=
        List.all_eq_true.mpr ha
      rw [if_pos hall, show w.tick.tick.memory = w.memory from rfl]
      cases hn : d.native p w.memory with
      | some memory => exact hsome memory hn
      | none => exact hnone hn _ rfl

theorem ends_getArena {self : ℕ} {arena : Option ℕ}
    (h : (w.resources.streams self).arena = arena)
    {post : Except Throwable (Option ℕ) → FfmWorld → Prop} (hpost : post (.ok arena) w) :
    Ends p (Ffm.getArena self) w post := by
  subst h
  exact ends_answer hpost

theorem ends_getSegment {self : ℕ} {segment : Option MemorySegment}
    (h : (w.resources.streams self).hasherSegment = segment)
    {post : Except Throwable (Option MemorySegment) → FfmWorld → Prop}
    (hpost : post (.ok segment) w) : Ends p (Ffm.getSegment self) w post := by
  subst h
  exact ends_answer hpost

theorem ends_setArena {self : ℕ} {arena : Option ℕ} {post : Except Throwable Unit → FfmWorld → Prop}
    (hpost : post (.ok ()) { w with resources := w.resources.setArena self arena }) :
    Ends p (Ffm.setArena self arena) w post := ends_answer hpost

theorem ends_setSegment {self : ℕ} {segment : Option MemorySegment}
    {post : Except Throwable Unit → FfmWorld → Prop}
    (hpost : post (.ok ()) { w with resources := w.resources.setSegment self segment }) :
    Ends p (Ffm.setSegment self segment) w post := ends_answer hpost

/-- What must hold at the end of a block for `post` to hold once its arena is closed. -/
def BeforeClose {α : Type} (a : ℕ) (post : Except Throwable α → FfmWorld → Prop)
    (r : Except Throwable α) (w : FfmWorld) : Prop :=
  (w.undefined = true ∧ ∀ r w', w'.undefined = true → post r w') ∨
    (w.resources.usable 0 a = true ∧ post r (w.close a))

theorem ends_closeArena {a : ℕ} {post : Except Throwable Unit → FfmWorld → Prop}
    (hok : w.resources.usable 0 a = true → post (.ok ()) (w.close a))
    (hclosed : ¬ w.resources.usable 0 a = true → post (.error alreadyClosed) w) :
    Ends p (Ffm.closeArena a) w post := by
  refine ends_answer ?_
  rw [FfmCmd.answer]
  by_cases ha : w.resources.usable 0 a = true
  · rw [if_pos ha]
    exact hok ha
  · rw [if_neg ha]
    exact hclosed ha

/-- A block with a new confined arena, which is closed at its end. -/
theorem ends_useArena {α : Type} {body : ℕ → FfmProg α}
    {post : Except Throwable α → FfmWorld → Prop}
    (hfail : ∀ e, w.Failing → post (.error e) w.tick)
    (hbody : Ends p (body w.nextArena) w.tick.confined (BeforeClose w.nextArena post)) :
    Ends p (Ffm.ofConfined.bind fun a => Ffm.useArena a (body a)) w post := by
  refine ends_bind (ends_attempt (c := .ofConfined) (by rw [FfmCmd.answer]) hfail ?_)
  refine wp_closing hbody ?_ ?_
  · intro r w' hmid
    refine ends_closeArena ?_ ?_
    · intro ha
      rcases hmid with ⟨hundef, hpost⟩ | ⟨-, hpost⟩
      · exact hpost _ _ hundef
      · exact hpost
    · intro ha
      rcases hmid with ⟨hundef, hpost⟩ | ⟨hopen, -⟩
      · exact hpost _ _ hundef
      · exact absurd hopen ha
  · intro e w' hmid
    refine ends_closeArena ?_ ?_
    · intro ha
      rcases hmid with ⟨hundef, hpost⟩ | ⟨-, hpost⟩
      · exact hpost _ _ hundef
      · exact hpost
    · intro ha
      rcases hmid with ⟨hundef, hpost⟩ | ⟨hopen, -⟩
      · exact hpost _ _ hundef
      · exact absurd hopen ha

/-- Whatever fails, the size is that of the struct. -/
theorem ends_hasherSize {post : Except Throwable ℕ → FfmWorld → Prop}
    (h : ∀ w', w' = w.tick ∨ w' = w.tick.tick → post (.ok blake3HasherSizeof) w') :
    Ends p Ffm.hasherSize w post := by
  have h1912 : blake3HasherSizeof = 1912 := by decide
  refine wp_tryCatch (ends_bind (ends_attempt (c := .sizeofHandle) rfl ?_ ?_))
  · intro e _
    exact h1912 ▸ h _ (.inl rfl)
  · refine ends_attempt (c := .hasherSizeof) rfl ?_ ?_
    · intro e _
      exact h1912 ▸ h _ (.inr rfl)
    · exact h _ (.inr rfl)

end

/-- Nothing makes good what native code has done. -/
theorem ends_undefined {α : Type} {x : FfmProg α} (h : w.undefined = true) :
    Ends p x w fun _ w' => w'.undefined = true := by
  refine wp_invariant (fun _ _ _ => trivial) ?_ x h
  intro w c r w' hw hr
  have hr : c.answer p w = (r, w') := hr
  have hattempt : ∀ {k : FfmWorld → Except Throwable c.Answer × FfmWorld},
      (k w.tick).2.undefined = true → (w.attempt k).2.undefined = true := by
    intro k hk
    rw [FfmWorld.attempt]
    cases w.failures w.clock with
    | some e => exact hw
    | none => exact hk
  rw [← show (c.answer p w).2 = w' from congrArg Prod.snd hr]
  cases c with
  | closeArena arena =>
    rw [FfmCmd.answer]
    split
    · exact hw
    · exact hw
  | allocate arena size =>
    rw [FfmCmd.answer]
    refine hattempt ?_
    split
    · exact hw
    · exact hw
  | copyIn array offset segment length =>
    rw [FfmCmd.answer]
    split
    · exact hw
    · split
      · exact hw
      · split
        · exact hw
        · rfl
  | copyOut segment array offset length =>
    rw [FfmCmd.answer]
    split
    · exact hw
    · split
      · exact hw
      · split
        · exact hw
        · rfl
  | downcall d =>
    rw [FfmCmd.answer]
    refine hattempt ?_
    split
    · split
      · exact hw
      · rfl
    · exact hw
  | ofShared _ | ofConfined | loadNativeLibrary | handle _ | sizeofHandle | hasherSizeof =>
    rw [FfmCmd.answer]
    exact hattempt hw
  | getArena _ | setArena _ _ | getSegment _ | setSegment _ _ => exact hw

/-! ### Native functions on their segments -/

section

variable {p : Platform} {w : FfmWorld} {s : MemorySegment} {hasher : Hasher}
  {post : Except Throwable Unit → FfmWorld → Prop}
  (hs : (w.memory s.id).asHasher = some hasher) (ha : w.resources.usable 0 s.arena = true)
  (hfail : ∀ e w', w.Failing → w' = w.tick ∨ w' = w.tick.tick → post (.error e) w')
include hs ha hfail

theorem ends_init
    (hok : post (.ok ()) (w.tick.tick.put s.id (.hasher (blake3HasherInit hasher)))) :
    Ends p (Ffm.invokeExact (.init s)) w post := by
  have hnative : (Downcall.init s).native p w.memory =
      some (Function.update w.memory s.id (.hasher (blake3HasherInit hasher))) := by
    rw [Downcall.native, hs]
    rfl
  refine ends_invokeExact ?_ hfail ?_ ?_
  · intro s' hs'
    exact List.mem_singleton.mp hs' ▸ ha
  · intro memory hmemory
    obtain rfl := Option.some.inj (hnative.symm.trans hmemory)
    exact hok
  · intro hnone
    exact absurd (hnative.symm.trans hnone) (by simp)

theorem ends_reset
    (hok : post (.ok ()) (w.tick.tick.put s.id (.hasher (blake3HasherReset hasher)))) :
    Ends p (Ffm.invokeExact (.reset s)) w post := by
  have hnative : (Downcall.reset s).native p w.memory =
      some (Function.update w.memory s.id (.hasher (blake3HasherReset hasher))) := by
    rw [Downcall.native, hs]
    rfl
  refine ends_invokeExact ?_ hfail ?_ ?_
  · intro s' hs'
    exact List.mem_singleton.mp hs' ▸ ha
  · intro memory hmemory
    obtain rfl := Option.some.inj (hnative.symm.trans hmemory)
    exact hok
  · intro hnone
    exact absurd (hnative.symm.trans hnone) (by simp)

variable {s' : MemorySegment} {b : List UInt8} (hb : w.memory s'.id = .bytes b)
  (ha' : w.resources.usable 0 s'.arena = true)
include hb ha'

theorem ends_initKeyed {key : Bytes 32} (hkey : keyBytes b = some key)
    (hok : post (.ok ()) (w.tick.tick.put s.id (.hasher (blake3HasherInitKeyed hasher key)))) :
    Ends p (Ffm.invokeExact (.initKeyed s s')) w post := by
  have hlen : b.length = 32 := by
    by_contra hne
    rw [keyBytes, dif_neg hne] at hkey
    exact absurd hkey (by simp)
  have hnative : (Downcall.initKeyed s s').native p w.memory =
      some (Function.update w.memory s.id (.hasher (blake3HasherInitKeyed hasher key))) := by
    rw [Downcall.native, hs, hb]
    simp only [Option.bind_eq_bind, Option.bind_some, Cell.asBytes]
    rw [readSlice_eq_some (by omega), List.drop_zero, List.take_of_length_le hlen.le]
    simp only [Option.bind_some, hkey]
  refine ends_invokeExact ?_ hfail ?_ ?_
  · intro x hx
    rcases List.mem_pair.mp hx with rfl | rfl
    · exact ha
    · exact ha'
  · intro memory hmemory
    obtain rfl := Option.some.inj (hnative.symm.trans hmemory)
    exact hok
  · intro hnone
    exact absurd (hnative.symm.trans hnone) (by simp)

variable {length : Int32} (hlen : b.length = length.toInt.toNat)
include hlen

theorem ends_update
    (hok : ∀ h, blake3HasherUpdate p hasher b = some h →
      post (.ok ()) (w.tick.tick.put s.id (.hasher h)))
    (hnone : blake3HasherUpdate p hasher b = none → ∀ w', w'.undefined = true → post (.ok ()) w') :
    Ends p (Ffm.invokeExact (.update s s' length)) w post := by
  have hnative : (Downcall.update s s' length).native p w.memory =
      (blake3HasherUpdate p hasher b).map fun h => Function.update w.memory s.id (.hasher h) := by
    rw [Downcall.native, hs, hb]
    simp only [Option.bind_eq_bind, Option.bind_some, Cell.asBytes]
    rw [readSlice_eq_some (by omega), List.drop_zero, ← hlen, List.take_length, Option.bind_some]
    cases blake3HasherUpdate p hasher b with
    | none => rfl
    | some h => rfl
  refine ends_invokeExact ?_ hfail ?_ ?_
  · intro x hx
    rcases List.mem_pair.mp hx with rfl | rfl
    · exact ha
    · exact ha'
  · intro memory hmemory
    obtain ⟨h, hh, rfl⟩ := Option.map_eq_some_iff.mp (hnative.symm.trans hmemory)
    exact hok h hh
  · intro h
    exact hnone (Option.map_eq_none_iff.mp (hnative.symm.trans h))

theorem ends_finalize
    (hok : ∀ out, blake3HasherFinalize p hasher b 0 length.toInt.toNat = some out →
      post (.ok ()) (w.tick.tick.put s'.id (.bytes out)))
    (hnone : blake3HasherFinalize p hasher b 0 length.toInt.toNat = none →
      ∀ w', w'.undefined = true → post (.ok ()) w') :
    Ends p (Ffm.invokeExact (.finalize s s' length)) w post := by
  have hnative : (Downcall.finalize s s' length).native p w.memory =
      (blake3HasherFinalize p hasher b 0 length.toInt.toNat).map fun out =>
        Function.update w.memory s'.id (.bytes out) := by
    rw [Downcall.native, hs, hb]
    simp only [Option.bind_eq_bind, Option.bind_some, Cell.asBytes]
    rw [assertThat_eq_some (by rw [decide_eq_true_iff]; omega)]
    simp only [Option.bind_some]
    cases blake3HasherFinalize p hasher b 0 length.toInt.toNat with
    | none => rfl
    | some out => rfl
  refine ends_invokeExact ?_ hfail ?_ ?_
  · intro x hx
    rcases List.mem_pair.mp hx with rfl | rfl
    · exact ha
    · exact ha'
  · intro memory hmemory
    obtain ⟨out, hout, rfl⟩ := Option.map_eq_some_iff.mp (hnative.symm.trans hmemory)
    exact hok out hout
  · intro h
    exact hnone (Option.map_eq_none_iff.mp (hnative.symm.trans h))

end

/-! ### A new hasher -/

/-- The memory of a new hasher. -/
theorem asHasher_zeros : (Cell.bytes (List.replicate blake3HasherSizeof 0)).asHasher =
    some zeroedHasher := by
  rw [Cell.asHasher, if_pos]
  rw [List.length_replicate]
  exact ⟨rfl, le_rfl⟩

/-- Segment `i` is a new one, with room for a hasher. -/
structure NewSegment (w w' : FfmWorld) (i : ℕ) : Prop where
  later : Later w w'
  lt : i < w'.nextSegment
  zeros : (w'.memory i).asHasher = some zeroedHasher

section

variable {p : Platform} {w : FfmWorld} {α : Type} {a : ℕ}
  {post : Except Throwable α → FfmWorld → Prop}

/-- A segment for a hasher is allocated, then `rest` follows. -/
theorem ends_hasherSegment (ha : w.resources.usable 0 a = true) (hlt : a < w.nextArena)
    {rest : MemorySegment → FfmProg α}
    (hfail : ∀ e w', Later w w' → w.Failing → post (.error e) w')
    (hok : ∀ w' i, NewSegment w w' i → Ends p (rest ⟨i, a, blake3HasherSizeof⟩) w' post) :
    Ends p (Ffm.hasherSize.bind fun size => (Ffm.allocate a size).bind rest) w post := by
  refine ends_bind (ends_hasherSize ?_)
  intro w₁ hw₁
  have hl : Later w w₁ := by
    rcases hw₁ with rfl | rfl
    · exact (Later.refl w).tick
    · exact (Later.refl w).tick.tick
  have ha₁ : w₁.resources.usable 0 a = true := by rw [hl.usable a hlt, ha]
  refine ends_bind (ends_allocate ha₁ ?_ ?_)
  · intro e hf
    exact hfail e _ hl.tick (hl.failing hf)
  · refine hok _ _ ⟨hl.tick.allocated _, Nat.lt_succ_self _, ?_⟩
    exact (congrArg Cell.asHasher (FfmWorld.allocated_memory_self ..)).trans asHasher_zeros

/-- A keyed hasher is initialised, then `rest` follows. -/
theorem ends_keySegment {i size : ℕ} (hi : i < w.nextSegment)
    (ha : w.resources.usable 0 a = true) {hasher : Hasher}
    (hs : (w.memory i).asHasher = some hasher) {key : JByteArray} {k : Bytes 32}
    (hk : keyBuf key = some k) {rest : FfmProg α}
    (hfail : ∀ e w', Later w w' → w.Failing → post (.error e) w')
    (hok : ∀ w', Later (w.put i (.hasher (blake3HasherInitKeyed hasher k))) w' →
      Ends p rest w' post) :
    Ends p ((Ffm.allocate a 32).bind fun keySegment =>
      (Ffm.copyIn key 0 keySegment 32).bind fun _ =>
      (Ffm.invokeExact (.initKeyed ⟨i, a, size⟩ keySegment)).bind fun _ => rest) w post := by
  have hlen : key.bytes.length = 32 := by
    by_contra hne
    rw [keyBuf, keyBytes, dif_neg hne] at hk
    exact absurd hk (by simp)
  have hin : inRange key 0 32 := by
    refine ⟨le_rfl, ?_⟩
    show (0 : ℤ) + 32 ≤ _
    omega
  have hall : rangeBytes key 0 32 = key.bytes := List.take_of_length_le hlen.le
  refine ends_bind (ends_allocate ha (fun e hf => hfail e _ (Later.refl w).tick hf) ?_)
  have hl := (Later.refl w).tick.allocated 32
  refine ends_bind (ends_copyIn (FfmWorld.allocated_memory_self ..) List.length_replicate
    (by decide) rfl ha (fun hout => absurd hin hout) ?_)
  intro _
  rw [hall]
  have hl := hl.put_new le_rfl (.bytes key.bytes)
  refine ends_bind (ends_initKeyed ((congrArg Cell.asHasher (hl.memory i hi)).trans hs) ?_ ?_
    (FfmWorld.put_memory_self ..) ?_ hk ?_)
  · exact ha
  · rintro e w' hf (rfl | rfl)
    · exact hfail e _ hl.tick hf
    · exact hfail e _ hl.tick.tick hf
  · exact ha
  · exact hok _ (hl.tick.tick.put_both i (.hasher (blake3HasherInitKeyed hasher k)))

end

end Blake3Kmp
