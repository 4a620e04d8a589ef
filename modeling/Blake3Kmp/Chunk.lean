/-
The chunk state (`blake3_chunk_state` and the `chunk_state_…` functions of
`blake3.c`).

A chunk is absorbed lazily: a full buffer is compressed only when more input
arrives, so that the last block is still there when the chunk ends.  The
invariant `ChunkState.Holds` says so without naming the compressions made: for
whatever input still follows, the reference chain from the start of the chunk
and the chain from the stored value over the buffered tail are the same.

* `chunkStateUpdate_absorbed` — absorbing `input` after `bytes` is absorbing
  `bytes ++ input`, wherever the cut lies;
* `chunkStateOutput_eq` — the output is the reference chunk's;
* `hashOnePortable_eq`, `hashManyPortable_eq` — hashing whole chunks at once
  gives the same chaining values.
-/
import Blake3Kmp.Reference

open CheckedMemory

namespace Blake3Kmp

structure ChunkState where
  cv : Words 8
  chunkCounter : UInt64
  buf : Bytes 64
  bufLen : UInt8
  blocksCompressed : UInt8
  flags : UInt8

/-- `memset(buf, 0, BLAKE3_BLOCK_LEN)`. -/
def zeroBlock : Bytes 64 := Vector.replicate 64 0

def chunkStateInit (key : Words 8) (flags : UInt8) : ChunkState :=
  { cv := key, chunkCounter := 0, buf := zeroBlock, bufLen := 0, blocksCompressed := 0, flags }

def chunkStateReset (self : ChunkState) (key : Words 8) (chunkCounter : UInt64) : ChunkState :=
  { self with cv := key, chunkCounter, blocksCompressed := 0, buf := zeroBlock, bufLen := 0 }

def chunkStateLen (self : ChunkState) : ℕ :=
  64 * self.blocksCompressed.toNat + self.bufLen.toNat

/-- The new state and the number of bytes taken. -/
def chunkStateFillBuf (self : ChunkState) (input : List UInt8) : Option (ChunkState × ℕ) := do
  let room ← checkedSub 64 self.bufLen.toNat
  let take := if room > input.length then input.length else room
  let src ← readSlice input 0 take
  let buf ← memcpy self.buf self.bufLen.toNat src
  some ({ self with buf, bufLen := self.bufLen + take.toUInt8 }, take)

def chunkStateMaybeStartFlag (self : ChunkState) : UInt8 :=
  if self.blocksCompressed = 0 then Flags.chunkStart else 0

/-- Compress one more block of the chunk. -/
def chunkStateCompress (p : Platform) (self : ChunkState) (block : Bytes 64) : ChunkState :=
  { self with
    cv := blake3CompressInPlace p self.cv block 64 self.chunkCounter
      (self.flags ||| chunkStateMaybeStartFlag self)
    blocksCompressed := self.blocksCompressed + 1 }

/-- The first part of `chunk_state_update`: fill a partial buffer, and compress it when
input remains.  Returns the state and the rest of the input. -/
def chunkStateDrain (p : Platform) (self : ChunkState) (input : List UInt8) :
    Option (ChunkState × List UInt8) :=
  if self.bufLen > 0 then do
    let (self, take) ← chunkStateFillBuf self input
    let input := input.drop take
    if input.length > 0 then
      some ({ chunkStateCompress p self self.buf with bufLen := 0, buf := zeroBlock }, input)
    else some (self, input)
  else some (self, input)

/-- The loop of `chunk_state_update`: compress whole blocks while more than one is left. -/
def chunkStateUpdateLoop (p : Platform) (self : ChunkState) (input : List UInt8) :
    Option (ChunkState × List UInt8) :=
  if input.length > 64 then do
    let block ← readBlock input
    chunkStateUpdateLoop p (chunkStateCompress p self block) (input.drop 64)
  else some (self, input)
  termination_by input.length
  decreasing_by
    rw [List.length_drop]
    omega

def chunkStateUpdate (p : Platform) (self : ChunkState) (input : List UInt8) :
    Option ChunkState := do
  let (self, input) ← chunkStateDrain p self input
  let (self, input) ← chunkStateUpdateLoop p self input
  let (self, _) ← chunkStateFillBuf self input
  some self

def chunkStateOutput (self : ChunkState) : Output :=
  let blockFlags := self.flags ||| chunkStateMaybeStartFlag self ||| Flags.chunkEnd
  makeOutput self.cv self.buf self.bufLen self.chunkCounter blockFlags

/-! ### Blocks -/

theorem padBlock_toList {bytes : List UInt8} (h : bytes.length ≤ 64) :
    (padBlock bytes).toList = bytes ++ List.replicate (64 - bytes.length) 0 := by
  simp [padBlock, Vector.toList, List.take_of_length_le h]

theorem padBlock_nil : padBlock [] = zeroBlock := by
  apply Vector.toList_inj.mp
  rw [padBlock_toList (by simp)]
  simp [zeroBlock]

theorem memcpy_padBlock {tail src : List UInt8} (h : tail.length + src.length ≤ 64) :
    memcpy (padBlock tail) tail.length src = some (padBlock (tail ++ src)) := by
  obtain ⟨dst, hdst, hlist⟩ := memcpy_eq_some (padBlock tail) h
  rw [hdst, Option.some_inj]
  apply Vector.toList_inj.mp
  rw [hlist, padBlock_toList (by omega), padBlock_toList (by rw [List.length_append]; omega),
    List.take_left, List.drop_append, List.drop_eq_nil_of_le (by omega), List.nil_append,
    List.drop_replicate, List.length_append]
  congr 2
  omega

theorem readBlock_eq_some {input : List UInt8} (h : 64 ≤ input.length) :
    readBlock input = some (padBlock (input.take 64)) := by
  rw [readBlock, dif_pos h, Option.some_inj]
  apply Vector.toList_inj.mp
  rw [padBlock_toList (by simp)]
  simp [Vector.toList]
  omega

/-! ### The invariant of a chunk -/

/-- `cs` has absorbed `bytes` of the chunk number `i`, the last of them, `tail`, still in
its buffer. -/
structure ChunkState.Holds (key : Words 8) (flags : UInt8) (i : ℕ) (cs : ChunkState)
    (bytes tail : List UInt8) : Prop where
  counter : cs.chunkCounter = UInt64.ofNat i
  flags_eq : cs.flags = flags
  length : bytes.length = 64 * cs.blocksCompressed.toNat + tail.length
  bufLen : cs.bufLen.toNat = tail.length
  fits : tail.length ≤ 64
  buf : cs.buf = padBlock tail
  chain : ∀ more : List UInt8, tail ++ more ≠ [] ∨ bytes = [] →
    chunkFrom flags (UInt64.ofNat i) key Flags.chunkStart (bytes ++ more) =
      chunkFrom flags (UInt64.ofNat i) cs.cv (chunkStateMaybeStartFlag cs) (tail ++ more)

/-- `cs` has absorbed `bytes` and keeps its last block back. -/
def ChunkState.Absorbed (key : Words 8) (flags : UInt8) (i : ℕ) (cs : ChunkState)
    (bytes : List UInt8) : Prop :=
  ∃ tail, cs.Holds key flags i bytes tail ∧ (bytes ≠ [] → tail ≠ [])

section

variable {key : Words 8} {flags : UInt8} {i : ℕ}

theorem chunkFrom_le {cv : Words 8} {start : UInt8} {counter : UInt64} {bytes : List UInt8}
    (h : bytes.length ≤ 64) :
    chunkFrom flags counter cv start bytes =
      { inputCv := cv, counter, block := padBlock bytes, blockLen := bytes.length.toUInt8,
        flags := flags ||| start ||| Flags.chunkEnd } := by
  rw [chunkFrom, if_pos h]

theorem chunkFrom_block {cv : Words 8} {start : UInt8} {counter : UInt64}
    {block more : List UInt8} (hb : block.length = 64) (hm : more ≠ []) :
    chunkFrom flags counter cv start (block ++ more) =
      chunkFrom flags counter
        (compressInPlacePortable cv (padBlock block) 64 counter (flags ||| start)) 0 more := by
  have := List.length_pos_iff.mpr hm
  rw [chunkFrom, if_neg (by rw [List.length_append]; omega), List.take_left' hb,
    List.drop_left' hb]

theorem chunkStateInit_absorbed (key : Words 8) (flags : UInt8) (i : ℕ) :
    ({ chunkStateInit key flags with chunkCounter := UInt64.ofNat i } : ChunkState).Absorbed
      key flags i [] :=
  ⟨[], ⟨rfl, rfl, rfl, rfl, by simp, padBlock_nil.symm, fun _ _ => rfl⟩, fun h => h⟩

theorem chunkStateReset_absorbed {cs : ChunkState} (h : cs.flags = flags) (key : Words 8) (i : ℕ) :
    (chunkStateReset cs key (UInt64.ofNat i)).Absorbed key flags i [] :=
  ⟨[], ⟨rfl, h, rfl, rfl, by simp, padBlock_nil.symm, fun _ _ => rfl⟩, fun h => h⟩

theorem ChunkState.Absorbed.len {cs : ChunkState} {bytes : List UInt8}
    (h : cs.Absorbed key flags i bytes) : chunkStateLen cs = bytes.length := by
  obtain ⟨tail, ht, -⟩ := h
  rw [chunkStateLen, ht.length, ht.bufLen]

theorem ChunkState.Absorbed.counter {cs : ChunkState} {bytes : List UInt8}
    (h : cs.Absorbed key flags i bytes) : cs.chunkCounter = UInt64.ofNat i := by
  obtain ⟨tail, ht, -⟩ := h
  exact ht.counter

theorem ChunkState.Absorbed.flags_eq {cs : ChunkState} {bytes : List UInt8}
    (h : cs.Absorbed key flags i bytes) : cs.flags = flags := by
  obtain ⟨tail, ht, -⟩ := h
  exact ht.flags_eq

/-- An empty chunk state may be given any number. -/
theorem ChunkState.Absorbed.setCounter {cs : ChunkState} (h : cs.Absorbed key flags i [])
    (j : ℕ) : ({ cs with chunkCounter := UInt64.ofNat j } : ChunkState).Absorbed key flags j [] := by
  obtain ⟨tail, ht, -⟩ := h
  have hlen := ht.length
  rw [List.length_nil] at hlen
  obtain rfl : tail = [] := List.length_eq_zero_iff.mp (by omega)
  have hblocks : cs.blocksCompressed = 0 := UInt8.toNat_inj.mp (show _ = 0 by omega)
  have hcv : key = cs.cv := by
    have hchain := ht.chain [] (.inr rfl)
    rw [List.append_nil, chunkFrom_le (by simp), chunkFrom_le (by simp)] at hchain
    exact congrArg Output.inputCv hchain
  refine ⟨[], ⟨rfl, ht.flags_eq, hlen, ht.bufLen, by simp, ht.buf, fun more _ => ?_⟩, fun h => h⟩
  rw [← hcv, chunkStateMaybeStartFlag, if_pos hblocks]

theorem chunkStateFillBuf_holds {cs : ChunkState} {bytes tail : List UInt8}
    (h : cs.Holds key flags i bytes tail) (input : List UInt8) :
    ∃ cs' take, chunkStateFillBuf cs input = some (cs', take) ∧
      take = min (64 - tail.length) input.length ∧
      cs'.Holds key flags i (bytes ++ input.take take) (tail ++ input.take take) := by
  have hfits := h.fits
  set take := if 64 - tail.length > input.length then input.length else 64 - tail.length with htake
  have hmin : take = min (64 - tail.length) input.length := by
    rw [htake]
    split_ifs <;> omega
  have hsrc : (input.take take).length = take := by
    rw [List.length_take]
    omega
  refine ⟨{ cs with buf := padBlock (tail ++ input.take take),
                    bufLen := cs.bufLen + take.toUInt8 }, take, ?_, hmin, ?_⟩
  · rw [chunkStateFillBuf, h.bufLen, checkedSub_eq_some hfits]
    simp only [Option.bind_eq_bind, Option.bind_some, ← htake]
    rw [readSlice_eq_some (by omega), List.drop_zero]
    simp only [Option.bind_some]
    have hmem : memcpy cs.buf tail.length (input.take take) =
        some (padBlock (tail ++ input.take take)) := by
      rw [h.buf]
      exact memcpy_padBlock (by omega)
    rw [hmem]
    rfl
  · refine ⟨h.counter, h.flags_eq, ?_, ?_, ?_, rfl, fun more hmore => ?_⟩
    · rw [List.length_append, List.length_append, h.length]
      simp only
      omega
    · have h1 := h.bufLen
      simp only [List.length_append, hsrc, UInt8.toNat_add, Nat.toUInt8_eq, UInt8.toNat_ofNat']
      omega
    · rw [List.length_append, hsrc]
      omega
    · rw [List.append_assoc, List.append_assoc]
      refine h.chain (input.take take ++ more) ?_
      rcases hmore with hmore | hmore
      · exact .inl (by rwa [List.append_assoc] at hmore)
      · exact .inr (List.append_eq_nil_iff.mp hmore).1

/-- Nothing to take. -/
theorem chunkStateFillBuf_nil {cs : ChunkState} {bytes tail : List UInt8}
    (h : cs.Holds key flags i bytes tail) :
    ∃ cs', chunkStateFillBuf cs [] = some (cs', 0) ∧ cs'.Holds key flags i bytes tail := by
  obtain ⟨cs', take, h1, h2, h3⟩ := chunkStateFillBuf_holds h []
  obtain rfl : take = 0 := by simpa using h2
  exact ⟨cs', h1, by simpa using h3⟩

variable {p : Platform} (hp : p.Agree)
include hp

/-- One more block moves the chain past it. -/
theorem chunkStateCompress_chain {cs : ChunkState} {bytes tail : List UInt8}
    (h : cs.Holds key flags i bytes tail) (block more : List UInt8)
    (hb : (tail ++ block).length = 64) (hm : more ≠ []) (hlen : bytes.length + block.length ≤ 1024) :
    (chunkStateCompress p cs (padBlock (tail ++ block))).blocksCompressed.toNat =
        cs.blocksCompressed.toNat + 1 ∧
      chunkFrom flags (UInt64.ofNat i) key Flags.chunkStart (bytes ++ block ++ more) =
        chunkFrom flags (UInt64.ofNat i) (chunkStateCompress p cs (padBlock (tail ++ block))).cv
          (chunkStateMaybeStartFlag (chunkStateCompress p cs (padBlock (tail ++ block)))) more := by
  have hl := h.length
  rw [List.length_append] at hb
  have hcount : (chunkStateCompress p cs (padBlock (tail ++ block))).blocksCompressed.toNat =
      cs.blocksCompressed.toNat + 1 := by
    simp only [chunkStateCompress, UInt8.toNat_add, UInt8.toNat_one]
    omega
  refine ⟨hcount, ?_⟩
  have hstart : chunkStateMaybeStartFlag (chunkStateCompress p cs (padBlock (tail ++ block))) = 0 := by
    rw [chunkStateMaybeStartFlag, if_neg]
    intro h0
    rw [h0] at hcount
    simp at hcount
  rw [hstart, List.append_assoc, h.chain (block ++ more) (.inl (by simp [hm])), ← List.append_assoc,
    chunkFrom_block (by rw [List.length_append]; omega) hm, chunkStateCompress, hp.compressInPlace,
    h.counter, h.flags_eq]

theorem chunkStateDrain_holds {cs : ChunkState} {bytes tail : List UInt8}
    (h : cs.Holds key flags i bytes tail) (hne : bytes ≠ [] → tail ≠ []) {input : List UInt8}
    (hlen : bytes.length + input.length ≤ 1024) :
    ∃ cs' taken rest tail', chunkStateDrain p cs input = some (cs', rest) ∧
      input = taken ++ rest ∧ cs'.Holds key flags i (bytes ++ taken) tail' ∧
      (rest ≠ [] → tail' = []) ∧ (rest = [] → bytes ++ taken ≠ [] → tail' ≠ []) := by
  rw [chunkStateDrain]
  by_cases h0 : cs.bufLen > 0
  · obtain ⟨cs1, take, hfill, hmin, h1⟩ := chunkStateFillBuf_holds h input
    rw [if_pos h0, hfill]
    simp only [Option.bind_eq_bind, Option.bind_some]
    have htail : 0 < tail.length := by
      rw [← h.bufLen]
      simpa [UInt8.lt_iff_toNat_lt] using h0
    by_cases hrest : (input.drop take).length > 0
    · -- the buffer is full and more follows: compress it
      rw [if_pos hrest]
      rw [List.length_drop] at hrest
      have hfull : (tail ++ input.take take).length = 64 := by
        rw [List.length_append, List.length_take]
        have := h.fits
        omega
      have hlen1 : (bytes ++ input.take take).length ≤ 1024 := by
        rw [List.length_append, List.length_take]
        omega
      have key1 := fun more hm => chunkStateCompress_chain hp h1 [] more
        (by rwa [List.append_nil]) hm (by simpa using hlen1)
      simp only [List.append_nil, ← h1.buf] at key1
      refine ⟨_, input.take take, input.drop take, [], rfl, (List.take_append_drop _ _).symm, ?_,
        fun _ => rfl, fun hnil => ?_⟩
      · refine ⟨h1.counter, h1.flags_eq, ?_, rfl, by simp, padBlock_nil.symm, fun more hm => ?_⟩
        · obtain ⟨hc, -⟩ := key1 [0] (by simp)
          have := h1.length
          simp only [List.length_nil, hc]
          omega
        · rcases hm with hm | hm
          · exact (key1 more (by simpa using hm)).2
          · have := congrArg List.length hm
            rw [List.length_append, List.length_take, List.length_nil] at this
            have := h.length
            omega
      · have := congrArg List.length hnil
        rw [List.length_drop, List.length_nil] at this
        omega
    · rw [if_neg hrest]
      have hnil : input.drop take = [] := List.length_eq_zero_iff.mp (by omega)
      refine ⟨cs1, input.take take, input.drop take, _, rfl, (List.take_append_drop _ _).symm, h1,
        fun hr => absurd hnil hr, fun _ _ hnil' => ?_⟩
      rw [(List.append_eq_nil_iff.mp hnil').1] at htail
      exact absurd htail (by simp)
  · have htail : tail = [] := by
      apply List.length_eq_zero_iff.mp
      rw [← h.bufLen]
      simpa [UInt8.lt_iff_toNat_lt] using h0
    rw [if_neg h0]
    subst htail
    refine ⟨cs, [], input, [], rfl, rfl, by rwa [List.append_nil], fun _ => rfl, fun _ hb => ?_⟩
    exact hne (by rwa [List.append_nil] at hb)

theorem chunkStateUpdateLoop_holds {cs : ChunkState} {bytes : List UInt8}
    (h : cs.Holds key flags i bytes []) {input : List UInt8} (hlen : bytes.length + input.length ≤ 1024) :
    ∃ cs' taken rest, chunkStateUpdateLoop p cs input = some (cs', rest) ∧
      input = taken ++ rest ∧ cs'.Holds key flags i (bytes ++ taken) [] ∧ rest.length ≤ 64 ∧
      (input ≠ [] → rest ≠ []) := by
  induction hn : input.length using Nat.strong_induction_on generalizing cs bytes input with
  | _ n ih =>
    rw [chunkStateUpdateLoop]
    by_cases hgt : input.length > 64
    · have hblk : (input.take 64).length = 64 := by
        rw [List.length_take]
        omega
      have key1 := fun more hm => chunkStateCompress_chain hp h (input.take 64) more
        (by rwa [List.nil_append]) hm (by omega)
      simp only [List.nil_append] at key1
      have h1 : (chunkStateCompress p cs (padBlock (input.take 64))).Holds key flags i
          (bytes ++ input.take 64) [] := by
        refine ⟨h.counter, h.flags_eq, ?_, h.bufLen, by simp, h.buf, fun more hm => ?_⟩
        · obtain ⟨hc, -⟩ := key1 [0] (by simp)
          have := h.length
          rw [List.length_append, hc]
          simp only [List.length_nil] at this ⊢
          omega
        · rcases hm with hm | hm
          · exact (key1 more (by simpa using hm)).2
          · have := congrArg List.length hm
            rw [List.length_append, List.length_nil] at this
            omega
      obtain ⟨cs', taken, rest, heq, hsplit, hh, hle, hne⟩ := ih (input.drop 64).length
        (by rw [List.length_drop]; omega) h1
        (by rw [List.length_append, List.length_drop]; omega) rfl
      rw [if_pos hgt, readBlock_eq_some (by omega)]
      simp only [Option.bind_eq_bind, Option.bind_some]
      refine ⟨cs', input.take 64 ++ taken, rest, heq, ?_, by rwa [← List.append_assoc], hle,
        fun _ => hne ?_⟩
      · rw [List.append_assoc, ← hsplit, List.take_append_drop]
      · intro hnil
        have := congrArg List.length hnil
        rw [List.length_drop, List.length_nil] at this
        omega
    · rw [if_neg hgt]
      exact ⟨cs, [], input, rfl, rfl, by rwa [List.append_nil], by omega, fun hi => hi⟩

/-- **A chunk does not see how its input was cut.** -/
theorem chunkStateUpdate_absorbed {cs : ChunkState} {bytes : List UInt8}
    (h : cs.Absorbed key flags i bytes) {input : List UInt8} (hlen : bytes.length + input.length ≤ 1024) :
    ∃ cs', chunkStateUpdate p cs input = some cs' ∧
      cs'.Absorbed key flags i (bytes ++ input) := by
  obtain ⟨tail, ht, hne⟩ := h
  obtain ⟨cs1, taken, rest, tail1, hdrain, rfl, h1, hor, htail⟩ :=
    chunkStateDrain_holds hp ht hne hlen
  rw [List.length_append] at hlen
  rw [chunkStateUpdate, hdrain]
  simp only [Option.bind_eq_bind, Option.bind_some]
  by_cases hrest : rest = []
  · -- the input is used up
    subst hrest
    obtain ⟨cs2, hfill, h2⟩ := chunkStateFillBuf_nil h1
    rw [chunkStateUpdateLoop, if_neg (by simp)]
    simp only [Option.bind_some]
    rw [hfill, List.append_nil]
    exact ⟨cs2, rfl, tail1, h2, htail rfl⟩
  · obtain rfl := hor hrest
    have hlen1 : (bytes ++ taken).length + rest.length ≤ 1024 := by
      rw [List.length_append]
      omega
    obtain ⟨cs2, taken2, rest2, hloop, rfl, h2, hle, hrest2⟩ :=
      chunkStateUpdateLoop_holds hp h1 hlen1
    obtain ⟨cs3, take, hfill, hmin, h3⟩ := chunkStateFillBuf_holds h2 rest2
    obtain rfl : take = rest2.length := by
      rw [hmin, List.length_nil]
      omega
    rw [hloop]
    simp only [Option.bind_some]
    rw [hfill]
    rw [List.take_length, List.nil_append] at h3
    refine ⟨cs3, rfl, rest2, ?_, fun _ => hrest2 hrest⟩
    rwa [← List.append_assoc, ← List.append_assoc]

omit hp in
/-- **The output of a chunk is the reference chunk's.** -/
theorem chunkStateOutput_eq {cs : ChunkState} {bytes : List UInt8}
    (h : cs.Absorbed key flags i bytes) : chunkStateOutput cs = chunkOutput key flags i bytes := by
  obtain ⟨tail, ht, hne⟩ := h
  have hchain := ht.chain [] (by
    rw [List.append_nil]
    exact or_iff_not_imp_right.mpr hne)
  rw [List.append_nil, List.append_nil] at hchain
  have hlen : cs.bufLen = tail.length.toUInt8 := by
    apply UInt8.toNat_inj.mp
    have := ht.fits
    rw [ht.bufLen, Nat.toUInt8_eq, UInt8.toNat_ofNat']
    omega
  rw [chunkOutput, hchain, chunkFrom_le ht.fits, chunkStateOutput, makeOutput, ht.counter,
    ht.flags_eq, ht.buf, hlen]

theorem outputChainingValue_eq (o : Output) : outputChainingValue p o = o.cv := by
  rw [outputChainingValue, Output.cv, hp.compressInPlace]

omit hp in
theorem hashOneLoop_eq (flags : UInt8) (counter : UInt64) (cv : Words 8) (start : UInt8) {n : ℕ}
    {input : List UInt8} (hlen : input.length = 64 * (n + 1)) :
    ∃ cv', hashOneLoop counter flags Flags.chunkEnd (n + 1) input cv (flags ||| start) = some cv' ∧
      storeCvWords cv' = (chunkFrom flags counter cv start input).cv := by
  induction n generalizing input cv start with
  | zero =>
    rw [hashOneLoop, readBlock_eq_some (by omega), List.take_of_length_le (by omega),
      chunkFrom_le (by omega), hlen]
    exact ⟨_, rfl, rfl⟩
  | succ n ih =>
    have hb : (input.take 64).length = 64 := by
      rw [List.length_take]
      omega
    have hd : (input.drop 64).length = 64 * (n + 1) := by
      rw [List.length_drop]
      omega
    have hmore : input.drop 64 ≠ [] := List.ne_nil_of_length_pos (by omega)
    have hchain : chunkFrom flags counter cv start input =
        chunkFrom flags counter (compressInPlacePortable cv (padBlock (input.take 64)) 64 counter
          (flags ||| start)) 0 (input.drop 64) := by
      rw [← chunkFrom_block hb hmore, List.take_append_drop]
    obtain ⟨cv', heq, hcv⟩ := ih (compressInPlacePortable cv (padBlock (input.take 64)) 64 counter
      (flags ||| start)) 0 hd
    rw [UInt8.or_zero] at heq
    rw [hashOneLoop, readBlock_eq_some (by omega), if_neg (by omega), hchain]
    exact ⟨cv', heq, hcv⟩

omit hp in
/-- A whole chunk hashed at once. -/
theorem hashOnePortable_eq {input : List UInt8} (hlen : input.length = 1024) :
    hashOnePortable input 16 key (UInt64.ofNat i) flags Flags.chunkStart Flags.chunkEnd =
      some (chunkOutput key flags i input).cv := by
  obtain ⟨cv', heq, hcv⟩ := hashOneLoop_eq flags (UInt64.ofNat i) key Flags.chunkStart
    (show input.length = 64 * (15 + 1) from hlen)
  rw [hashOnePortable, heq]
  simp only [Option.bind_eq_bind, Option.bind_some]
  rw [hcv, chunkOutput]

omit hp in
/-- Several whole chunks hashed at once. -/
theorem hashManyPortable_eq {inputs : List (List UInt8)}
    (hlen : ∀ input ∈ inputs, input.length = 1024) :
    hashManyPortable inputs 16 key (UInt64.ofNat i) true flags Flags.chunkStart Flags.chunkEnd =
      some (leafCvs key flags i inputs.flatten) := by
  induction inputs generalizing i with
  | nil => rw [hashManyPortable, List.flatten_nil, leafCvs_nil]
  | cons input inputs ih =>
    have h1 := hlen input (by simp)
    rw [hashManyPortable, hashOnePortable_eq h1]
    simp only [Option.bind_eq_bind, Option.bind_some, ↓reduceIte]
    have hnext : (UInt64.ofNat i + 1 : UInt64) = UInt64.ofNat (i + 1) := by
      rw [UInt64.ofNat_add]
      rfl
    rw [hnext, ih fun x hx => hlen x (List.mem_cons_of_mem _ hx), List.flatten_cons,
      leafCvs_append key flags (m := 1) h1,
      leafCvs_chunk key flags (show 0 < input.length by omega) (by omega)]
    rfl

end

end Blake3Kmp
