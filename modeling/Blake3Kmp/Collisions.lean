/-
What it takes for two outputs of BLAKE3 to agree.

The flags keep apart what a compression is made for: the first block of a chunk,
a later one, a parent, the root, and the mode.  So the input of a compression
says which chaining values it holds (`Output.refs`), and the compressions of one
message form a tree in the sense of `CallTrees`.

* `chunkCalls`, `subtreeCalls`, `rootCalls` — the compressions of the reference
  tree, each above those whose results it holds (`subtreeCalls_genuine`);
* `messageOf_subtreeCalls`, `keyOf_subtreeCalls` — the tree has the message and
  the key in it;
* `same_root` — two output blocks that start alike are the same block of the same
  message, in one mode and with one key, or two compressions collide;
* `same_output` — so for any two runs of the functions of `blake3.h`.
-/
import Blake3Kmp.CallTrees
import Blake3Kmp.BitHelpers
import Blake3Kmp.NativeApi

open CheckedMemory

namespace Blake3Kmp

/-! ### What a compression is made for -/

/-- The flags of the four modes; the third is that of hashing a context string. -/
def Flags.modes : List UInt8 :=
  [0, Flags.keyedHash, Flags.deriveKeyContext, Flags.deriveKeyMaterial]

/-- The bits of a mode. -/
def Flags.mode : UInt8 := Flags.keyedHash ||| Flags.deriveKeyContext ||| Flags.deriveKeyMaterial

/-- The flags of a block of a chunk: its mode comes back, it is no parent, and it is a first
block if it was started as one. -/
theorem flags_block : ∀ f ∈ Flags.modes, ∀ s ∈ [Flags.chunkStart, 0],
    ∀ e ∈ [Flags.chunkEnd, 0], (f ||| s ||| e) &&& Flags.mode = f ∧
      (f ||| s ||| e) &&& Flags.parent = 0 ∧ (f ||| s ||| e) &&& Flags.chunkStart = s := by
  intro f hf s hs e he
  simp only [Flags.modes, List.mem_cons, List.not_mem_nil, or_false] at hf hs he
  rcases hf with rfl | rfl | rfl | rfl <;> rcases hs with rfl | rfl <;>
    rcases he with rfl | rfl <;> exact ⟨rfl, rfl, rfl⟩

/-- The flags of a parent. -/
theorem flags_parent : ∀ f ∈ Flags.modes, (f ||| Flags.parent) &&& Flags.mode = f ∧
    (f ||| Flags.parent) &&& Flags.parent = Flags.parent := by
  intro f hf
  simp only [Flags.modes, List.mem_cons, List.not_mem_nil, or_false] at hf
  rcases hf with rfl | rfl | rfl | rfl <;> exact ⟨rfl, rfl⟩

/-- `ROOT` is none of the other bits. -/
theorem flags_root (f : UInt8) {g : UInt8} (hg : Flags.root &&& g = 0) :
    (f ||| Flags.root) &&& g = f &&& g := by
  have h := congrArg UInt8.toBitVec hg
  rw [← UInt8.toBitVec_inj]
  rw [UInt8.toBitVec_and] at h ⊢
  rw [UInt8.toBitVec_or, BitVec.and_or_distrib_right, h]
  exact BitVec.or_zero

/-- The first 32 bytes of a block. -/
def leftHalf (block : Bytes 64) : Bytes 32 := Vector.ofFn fun i : Fin 32 => block[i.val]

/-- The last 32 bytes of a block. -/
def rightHalf (block : Bytes 64) : Bytes 32 := Vector.ofFn fun i : Fin 32 => block[32 + i.val]

theorem leftHalf_append (l r : Bytes 32) : leftHalf (l ++ r) = l := by
  refine Vector.ext fun i hi => ?_
  rw [leftHalf, Vector.getElem_ofFn, Vector.getElem_append_left hi]

theorem rightHalf_append (l r : Bytes 32) : rightHalf (l ++ r) = r := by
  refine Vector.ext fun i hi => ?_
  have hsub : 32 + i - 32 = i := by omega
  rw [rightHalf, Vector.getElem_ofFn, Vector.getElem_append_right (by omega) (by omega)]
  simp only [hsub]

namespace Output

/-- The chaining values that the input of a compression holds: two in the block of a parent,
none at the start of a chunk, one in the other blocks. -/
def refs (o : Output) : List (Bytes 32) :=
  if o.flags &&& Flags.parent ≠ 0 then [leftHalf o.block, rightHalf o.block]
  else if o.flags &&& Flags.chunkStart ≠ 0 then []
  else [storeCvWords o.inputCv]

/-- The compression of the output block `k` of a root. -/
def asRoot (k : ℕ) (o : Output) : Output :=
  { o with counter := UInt64.ofNat k, flags := o.flags ||| Flags.root }

theorem refs_asRoot (k : ℕ) (o : Output) : (o.asRoot k).refs = o.refs := by
  have hp : (o.flags ||| Flags.root) &&& Flags.parent = o.flags &&& Flags.parent :=
    flags_root _ rfl
  have hs : (o.flags ||| Flags.root) &&& Flags.chunkStart = o.flags &&& Flags.chunkStart :=
    flags_root _ rfl
  rw [refs, refs, asRoot]
  simp only [hp, hs]

end Output

/-! ### The compressions of a message -/

/-- The compression of a block of a chunk that is not its last. -/
def blockOutput (flags : UInt8) (counter : UInt64) (cv : Words 8) (start : UInt8)
    (bytes : List UInt8) : Output :=
  { inputCv := cv, counter, block := padBlock (bytes.take 64), blockLen := 64,
    flags := flags ||| start }

/-- The compressions of the rest of a chunk, above those `before`. -/
def chunkCalls (flags : UInt8) (counter : UInt64) (cv : Words 8) (start : UInt8)
    (before : Option (CallTree Output)) (bytes : List UInt8) : CallTree Output :=
  if bytes.length ≤ 64 then .onto (chunkFrom flags counter cv start bytes) before
  else
    -- a block that is not the last one has no `CHUNK_END`
    chunkCalls flags counter
      (compressInPlacePortable cv (padBlock (bytes.take 64)) 64 counter (flags ||| start)) 0
      (some (.onto (blockOutput flags counter cv start bytes) before)) (bytes.drop 64)
  termination_by bytes.length
  decreasing_by
    rw [List.length_drop]
    omega

/-- The compressions of a subtree. -/
def subtreeCalls (key : Words 8) (flags : UInt8) (i : ℕ) (bytes : List UInt8) :
    CallTree Output :=
  if bytes.length ≤ 1024 then
    chunkCalls flags (UInt64.ofNat i) key Flags.chunkStart none bytes
  else
    .fork (subtreeOutput key flags i bytes)
      (subtreeCalls key flags i (bytes.take (leftLen bytes.length)))
      (subtreeCalls key flags (i + leftLen bytes.length / 1024)
        (bytes.drop (leftLen bytes.length)))
  termination_by bytes.length
  decreasing_by
  · have := (leftLen_spec (n := bytes.length) (by omega)).2.1
    rw [List.length_take]
    omega
  · have := leftLen_spec (n := bytes.length) (by omega)
    rw [List.length_drop]
    omega

/-- The compressions of a message up to its output block `k`. -/
def rootCalls (key : Words 8) (flags : UInt8) (bytes : List UInt8) (k : ℕ) : CallTree Output :=
  (subtreeCalls key flags 0 bytes).mapTop (Output.asRoot k)

section

variable (key : Words 8) (flags : UInt8)

@[simp] theorem top_chunkCalls (counter : UInt64) (cv : Words 8) (start : UInt8)
    (before : Option (CallTree Output)) (bytes : List UInt8) :
    (chunkCalls flags counter cv start before bytes).top =
      chunkFrom flags counter cv start bytes := by
  induction hn : bytes.length using Nat.strong_induction_on generalizing cv start before bytes with
  | _ n ih =>
    rw [chunkCalls]
    by_cases h : bytes.length ≤ 64
    · rw [if_pos h, CallTree.top_onto]
    · rw [if_neg h, ih (bytes.drop 64).length (by simp; omega) _ _ _ _ rfl]
      conv_rhs => rw [chunkFrom, if_neg h]

@[simp] theorem top_subtreeCalls (i : ℕ) (bytes : List UInt8) :
    (subtreeCalls key flags i bytes).top = subtreeOutput key flags i bytes := by
  rw [subtreeCalls]
  by_cases h : bytes.length ≤ 1024
  · rw [if_pos h, top_chunkCalls, subtreeOutput, if_pos h, chunkOutput]
  · rw [if_neg h, CallTree.top]

variable {flags} (hf : flags ∈ Flags.modes)
include hf

/-- The input of a block refers to the block before it, if there is one. -/
theorem refs_block {o : Output} {start last : UInt8} (hs : start ∈ [Flags.chunkStart, 0])
    (he : last ∈ [Flags.chunkEnd, 0]) (ho : o.flags = flags ||| start ||| last) :
    o.refs = if start = 0 then [storeCvWords o.inputCv] else [] := by
  obtain ⟨-, hp, hc⟩ := flags_block flags hf start hs last he
  rw [Output.refs, ho, if_neg (not_not.mpr hp), hc]
  by_cases h : start = 0
  · rw [if_pos h, if_neg (not_not.mpr h)]
  · rw [if_neg h, if_pos h]

theorem refs_parentOf (l r : Bytes 32) : (parentOf key flags (l, r)).refs = [l, r] := by
  obtain ⟨-, hp⟩ := flags_parent flags hf
  have hne : (flags ||| Flags.parent) &&& Flags.parent ≠ 0 := fun h =>
    absurd (hp.symm.trans h) (by decide)
  rw [Output.refs, parentOf, if_pos hne, leftHalf_append, rightHalf_append]

/-- What leads to the next block of a chunk: nothing but the key, or the compressions `before`,
of which the last has its chaining value. -/
def Chained (key cv : Words 8) (start : UInt8) : Option (CallTree Output) → Prop
  | none => cv = key ∧ start = Flags.chunkStart
  | some t => t.Genuine Output.cv Output.refs ∧ t.top.cv = storeCvWords cv ∧ start = 0

omit hf in
variable {key} in
theorem Chained.start_mem {cv : Words 8} {start : UInt8} {before : Option (CallTree Output)}
    (h : Chained key cv start before) : start ∈ [Flags.chunkStart, 0] := by
  cases before with
  | none => simp [h.2]
  | some t => simp [h.2.2]

variable {key}

theorem onto_genuine {cv : Words 8} {start last : UInt8} {before : Option (CallTree Output)}
    (h : Chained key cv start before) {o : Output} (hcv : o.inputCv = cv)
    (he : last ∈ [Flags.chunkEnd, 0]) (ho : o.flags = flags ||| start ||| last) :
    (CallTree.onto o before).Genuine Output.cv Output.refs := by
  have hrefs := refs_block hf h.start_mem he ho
  cases before with
  | none =>
    obtain ⟨-, rfl⟩ := h
    exact hrefs
  | some t =>
    obtain ⟨ht, hval, rfl⟩ := h
    refine ⟨?_, ht⟩
    rw [hrefs, if_pos rfl, hcv, hval]

theorem chunkCalls_genuine (counter : UInt64) {cv : Words 8} {start : UInt8}
    {before : Option (CallTree Output)} (h : Chained key cv start before) (bytes : List UInt8) :
    (chunkCalls flags counter cv start before bytes).Genuine Output.cv Output.refs := by
  induction hn : bytes.length using Nat.strong_induction_on
    generalizing cv start before bytes with
  | _ n ih =>
    rw [chunkCalls]
    by_cases hle : bytes.length ≤ 64
    · rw [if_pos hle, chunkFrom, if_pos hle]
      exact onto_genuine hf h rfl (by simp) rfl
    · rw [if_neg hle]
      -- a block more, without `CHUNK_END`
      have hblock := onto_genuine hf h (o := blockOutput flags counter cv start bytes) rfl
        (List.mem_cons_of_mem _ List.mem_cons_self) UInt8.or_zero.symm
      have hnext : Chained key
          (compressInPlacePortable cv (padBlock (bytes.take 64)) 64 counter (flags ||| start)) 0
          (some (.onto (blockOutput flags counter cv start bytes) before)) := by
        refine ⟨hblock, ?_, rfl⟩
        rw [CallTree.top_onto]
        rfl
      exact ih (bytes.drop 64).length (by simp; omega) hnext _ rfl

theorem subtreeCalls_genuine (i : ℕ) (bytes : List UInt8) :
    (subtreeCalls key flags i bytes).Genuine Output.cv Output.refs := by
  induction hn : bytes.length using Nat.strong_induction_on generalizing i bytes with
  | _ n ih =>
    rw [subtreeCalls]
    by_cases hle : bytes.length ≤ 1024
    · have hstart : Chained key key Flags.chunkStart none := ⟨rfl, rfl⟩
      rw [if_pos hle]
      exact chunkCalls_genuine hf _ hstart bytes
    · obtain ⟨⟨k, hk⟩, hlt, -⟩ := leftLen_spec (n := bytes.length) (by omega)
      have h2k := Nat.two_pow_pos k
      rw [if_neg hle]
      refine ⟨?_, ih _ ?_ _ _ rfl, ih _ ?_ _ _ rfl⟩
      -- the block of the parent is the two values below it
      · rw [subtreeOutput, if_neg hle, refs_parentOf key hf, top_subtreeCalls, top_subtreeCalls]
      · rw [List.length_take]
        omega
      · rw [List.length_drop]
        omega

theorem rootCalls_genuine (bytes : List UInt8) (k : ℕ) :
    (rootCalls key flags bytes k).Genuine Output.cv Output.refs :=
  (subtreeCalls_genuine hf 0 bytes).mapTop (Output.refs_asRoot k _)

end

/-! ### The message in its compressions -/

/-- The bytes of a block. -/
def Output.bytes (o : Output) : List UInt8 := o.block.toList.take o.blockLen.toNat

/-- The bytes of the blocks, from left to right. -/
def messageOf : CallTree Output → List UInt8
  | .leaf o => o.bytes
  | .link o before => messageOf before ++ o.bytes
  | .fork _ left right => messageOf left ++ messageOf right

/-- What the first block of a chunk, or a parent, starts from. -/
def keyOf : CallTree Output → Words 8
  | .leaf o => o.inputCv
  | .link _ before => keyOf before
  | .fork o _ _ => o.inputCv

theorem messageOf_asRoot (k : ℕ) (t : CallTree Output) :
    messageOf (t.mapTop (Output.asRoot k)) = messageOf t := by
  cases t with
  | leaf o => rfl
  | link o before => rfl
  | fork o left right => rfl

theorem keyOf_asRoot (k : ℕ) (t : CallTree Output) :
    keyOf (t.mapTop (Output.asRoot k)) = keyOf t := by
  cases t with
  | leaf o => rfl
  | link o before => rfl
  | fork o left right => rfl

theorem messageOf_onto (o : Output) (before : Option (CallTree Output)) :
    messageOf (.onto o before) = before.elim [] messageOf ++ o.bytes := by
  cases before with
  | none => rfl
  | some t => rfl

theorem keyOf_onto (o : Output) (before : Option (CallTree Output)) :
    keyOf (.onto o before) = before.elim o.inputCv keyOf := by
  cases before with
  | none => rfl
  | some t => rfl

section

variable {key : Words 8} {flags : UInt8}

theorem chunkFrom_bytes {counter : UInt64} {cv : Words 8} {start : UInt8} {bytes : List UInt8}
    (h : bytes.length ≤ 64) : (chunkFrom flags counter cv start bytes).bytes = bytes := by
  have hlen : bytes.length.toUInt8.toNat = bytes.length := by
    rw [Nat.toUInt8_eq, UInt8.toNat_ofNat', Nat.mod_eq_of_lt (by omega)]
  rw [chunkFrom_le h, Output.bytes, hlen, padBlock_toList h, List.take_left]

theorem blockOutput_bytes {counter : UInt64} {cv : Words 8} {start : UInt8}
    {bytes : List UInt8} (h : 64 < bytes.length) :
    (blockOutput flags counter cv start bytes).bytes = bytes.take 64 := by
  have hlen : (bytes.take 64).length = 64 := by
    rw [List.length_take]
    omega
  rw [Output.bytes, blockOutput, padBlock_toList hlen.le, hlen, Nat.sub_self,
    List.replicate_zero, List.append_nil]
  exact List.take_of_length_le hlen.le

theorem messageOf_chunkCalls (counter : UInt64) (cv : Words 8) (start : UInt8)
    (before : Option (CallTree Output)) (bytes : List UInt8) :
    messageOf (chunkCalls flags counter cv start before bytes) =
      before.elim [] messageOf ++ bytes := by
  induction hn : bytes.length using Nat.strong_induction_on generalizing cv start before bytes with
  | _ n ih =>
    rw [chunkCalls]
    by_cases h : bytes.length ≤ 64
    · rw [if_pos h, messageOf_onto, chunkFrom_bytes h]
    · rw [if_neg h, ih (bytes.drop 64).length (by simp; omega) _ _ _ _ rfl, Option.elim_some,
        messageOf_onto, blockOutput_bytes (by omega), List.append_assoc, List.take_append_drop]

theorem keyOf_chunkCalls (counter : UInt64) {cv : Words 8} {start : UInt8}
    (before : Option (CallTree Output)) (bytes : List UInt8) :
    keyOf (chunkCalls flags counter cv start before bytes) = before.elim cv keyOf := by
  induction hn : bytes.length using Nat.strong_induction_on generalizing cv start before bytes with
  | _ n ih =>
    rw [chunkCalls]
    by_cases h : bytes.length ≤ 64
    · rw [if_pos h, keyOf_onto, chunkFrom_le h]
    · rw [if_neg h, ih (bytes.drop 64).length (by simp; omega) _ _ rfl, Option.elim_some,
        keyOf_onto]
      rfl

theorem messageOf_subtreeCalls (i : ℕ) (bytes : List UInt8) :
    messageOf (subtreeCalls key flags i bytes) = bytes := by
  induction hn : bytes.length using Nat.strong_induction_on generalizing i bytes with
  | _ n ih =>
    rw [subtreeCalls]
    by_cases h : bytes.length ≤ 1024
    · rw [if_pos h, messageOf_chunkCalls]
      rfl
    · obtain ⟨⟨k, hk⟩, hlt, -⟩ := leftLen_spec (n := bytes.length) (by omega)
      have h2k := Nat.two_pow_pos k
      rw [if_neg h, messageOf, ih _ (by simp; omega) _ (bytes.take _) rfl,
        ih _ (by simp; omega) _ (bytes.drop _) rfl, List.take_append_drop]

theorem keyOf_subtreeCalls (i : ℕ) (bytes : List UInt8) :
    keyOf (subtreeCalls key flags i bytes) = key := by
  rw [subtreeCalls]
  by_cases h : bytes.length ≤ 1024
  · rw [if_pos h, keyOf_chunkCalls]
    rfl
  · rw [if_neg h, keyOf, subtreeOutput, if_neg h, parentOf]

theorem chunkFrom_mode (hf : flags ∈ Flags.modes) (counter : UInt64) (cv : Words 8)
    {start : UInt8} (hs : start ∈ [Flags.chunkStart, 0]) (bytes : List UInt8) :
    (chunkFrom flags counter cv start bytes).flags &&& Flags.mode = flags := by
  induction hn : bytes.length using Nat.strong_induction_on generalizing cv start bytes with
  | _ n ih =>
    by_cases h : bytes.length ≤ 64
    · rw [chunkFrom_le h]
      exact (flags_block flags hf start hs Flags.chunkEnd List.mem_cons_self).1
    · rw [chunkFrom, if_neg h]
      exact ih (bytes.drop 64).length (by simp; omega) _ (by simp) _ rfl

theorem subtreeOutput_mode (hf : flags ∈ Flags.modes) (i : ℕ) (bytes : List UInt8) :
    (subtreeOutput key flags i bytes).flags &&& Flags.mode = flags := by
  rw [subtreeOutput]
  by_cases h : bytes.length ≤ 1024
  · rw [if_pos h]
    exact chunkFrom_mode hf _ _ List.mem_cons_self _
  · rw [if_neg h]
    exact (flags_parent flags hf).1

end

/-- **Two roots of which one output block starts alike** have the same key, mode and message, and
the block has the same number, unless two of their compressions collide. -/
theorem same_root {key key' : Words 8} {flags flags' : UInt8} (hf : flags ∈ Flags.modes)
    (hf' : flags' ∈ Flags.modes) {m m' : List UInt8} {k k' : ℕ}
    (hc : ¬ CallTree.Collision Output.cv (rootCalls key flags m k).calls
      (rootCalls key' flags' m' k').calls)
    (h : ((subtreeOutput key flags 0 m).asRoot k).cv =
      ((subtreeOutput key' flags' 0 m').asRoot k').cv) :
    key = key' ∧ flags = flags' ∧ m = m' ∧ UInt64.ofNat k = UInt64.ofNat k' := by
  have htop : ∀ (key : Words 8) (flags : UInt8) m k, (rootCalls key flags m k).top =
      (subtreeOutput key flags 0 m).asRoot k := by
    intro key flags m k
    rw [rootCalls, CallTree.top_mapTop, top_subtreeCalls]
  have hmode : ∀ {key : Words 8} {flags : UInt8}, flags ∈ Flags.modes → ∀ m k,
      (rootCalls key flags m k).top.flags &&& Flags.mode = flags := by
    intro key flags hf m k
    have hroot := flags_root (subtreeOutput key flags 0 m).flags
      (show Flags.root &&& Flags.mode = 0 from rfl)
    rw [htop, Output.asRoot, hroot, subtreeOutput_mode hf]
  -- the two trees are one, and everything can be read off it
  have heq := (rootCalls_genuine hf m k).eq_of_value_eq (rootCalls_genuine hf' m' k') hc
    (by rwa [htop, htop])
  refine ⟨?_, ?_, ?_, ?_⟩
  · have hkey := congrArg keyOf heq
    rwa [rootCalls, rootCalls, keyOf_asRoot, keyOf_asRoot, keyOf_subtreeCalls,
      keyOf_subtreeCalls] at hkey
  · have hflags := congrArg (fun t => t.top.flags &&& Flags.mode) heq
    rwa [hmode hf, hmode hf'] at hflags
  · have hmessage := congrArg messageOf heq
    rwa [rootCalls, rootCalls, messageOf_asRoot, messageOf_asRoot, messageOf_subtreeCalls,
      messageOf_subtreeCalls] at hmessage
  · -- the counter of the root is the number of the block
    have hcounter := congrArg (fun t => t.top.counter) heq
    rwa [htop, htop] at hcounter

/-! ### The first bytes of an output block -/

theorem toList_take_eq {v : Bytes 64} {w : Bytes 32} (h : ∀ i (hi : i < 32), v[i] = w[i]) :
    v.toList.take 32 = w.toList := by
  refine List.ext_getElem (by simp) fun i h1 h2 => ?_
  rw [List.getElem_take, Vector.getElem_toList, Vector.getElem_toList]
  exact h i _

/-- Of sixteen words, the first eight are stored first. -/
theorem store32_append (a b : Words 8) {i : ℕ} (hi : i < 32) :
    store32 (n := 16) (a ++ b) ⟨i, by omega⟩ = store32 a ⟨i, hi⟩ := by
  have h : i / 4 < 8 := by omega
  rw [store32, store32, Vector.getElem_append_left h]

theorem compressXofPortable_take (cv : Words 8) (block : Bytes 64) (blockLen : UInt8)
    (counter : UInt64) (flags : UInt8) :
    (compressXofPortable cv block blockLen counter flags).toList.take 32 =
      (storeCvWords (compressInPlacePortable cv block blockLen counter flags)).toList := by
  refine toList_take_eq fun i hi => ?_
  rw [compressXofPortable, compressInPlacePortable, storeCvWords, Vector.getElem_ofFn,
    Vector.getElem_ofFn]
  exact store32_append _ _ hi

/-- An output that starts a block starts with the value of the block's compression. -/
theorem rootSlice_take_cv (o : Output) (k : ℕ) {n : ℕ} (hn : 32 ≤ n) :
    (rootSlice o (64 * k) n).take 32 = (o.asRoot k).cv.toList := by
  rw [rootSlice_take o _ hn, ← Nat.add_zero (64 * k), ← rootBlock_slice o k 0 32 (by omega),
    List.drop_zero]
  exact compressXofPortable_take _ _ _ _ _

/-! ### Runs of the functions of `blake3.h` -/

/-- Initialise a hasher, make the calls, and read `n` bytes of the output from `seek` on. -/
def apiOutput (p : Platform) (mode : Mode) (self : Hasher) (locals : DeriveKeyLocals)
    (ops : List ApiOp) (seek : UInt64) (n : ℕ) : Option (List UInt8) := do
  let self ← mode.init p self locals
  let (self, _) ← apiRun p self ops
  blake3HasherFinalizeSeek p self seek (List.replicate n 0) 0 n

/-- The bytes since the last reset, `m` before the calls. -/
def ApiOp.message (m : List UInt8) : List ApiOp → List UInt8
  | [] => m
  | .update input :: ops => message (m ++ input) ops
  | .finalize _ _ _ :: ops => message m ops
  | .finalizeSeek _ _ _ _ :: ops => message m ops
  | .reset :: ops => message [] ops

theorem apiRun_message {p : Platform} (hp : p.Agree) {key : Words 8} {flags : UInt8} {h : Hasher}
    {m : List UInt8} (hm : h.Absorbed key flags m) {ops : List ApiOp}
    (hops : ApiOp.Admitted m.length ops) :
    ∃ h' outs, apiRun p h ops = some (h', outs) ∧
      h'.Absorbed key flags (ApiOp.message m ops) := by
  induction ops generalizing h m with
  | nil => exact ⟨h, [], rfl, hm⟩
  | cons op ops ih =>
    obtain ⟨h₁, m₁, out, hstep, href, hm₁, hops₁⟩ := apiStep_absorbed hp hm hops
    obtain ⟨h₂, outs, hrun, hm₂⟩ := ih hm₁ hops₁
    have hmessage : ApiOp.message m (op :: ops) = ApiOp.message m₁ ops := by
      cases op with
      | update input =>
        obtain ⟨rfl, -⟩ := Prod.mk.inj (Option.some.inj href)
        rfl
      | finalize out pos outLen =>
        obtain ⟨_, -, href⟩ := Option.bind_eq_some_iff.mp href
        obtain ⟨rfl, -⟩ := Prod.mk.inj (Option.some.inj href)
        rfl
      | finalizeSeek seek out pos outLen =>
        obtain ⟨_, -, href⟩ := Option.bind_eq_some_iff.mp href
        obtain ⟨rfl, -⟩ := Prod.mk.inj (Option.some.inj href)
        rfl
      | reset =>
        obtain ⟨rfl, -⟩ := Prod.mk.inj (Option.some.inj href)
        rfl
    refine ⟨h₂, out.toList ++ outs, ?_, hmessage ▸ hm₂⟩
    rw [apiRun, hstep]
    simp only [Option.bind_eq_bind, Option.bind_some, hrun]

/-- The output of a run is that of the root over its message. -/
theorem apiOutput_eq {p : Platform} (hp : p.AgreeWhereRun) {mode : Mode} (hmode : mode.Valid)
    (self : Hasher) (locals : DeriveKeyLocals) {ops : List ApiOp}
    (hops : ApiOp.Admitted 0 ops) (seek : UInt64) (n : ℕ) :
    apiOutput p mode self locals ops seek n =
      some (rootSlice (mode.root (ApiOp.message [] ops)) seek.toNat n) := by
  obtain ⟨q, hq, hsame⟩ := hp.same
  obtain ⟨h, hinit, hm⟩ := Mode.init_absorbed hq mode hmode self locals
  obtain ⟨h', outs, hrun, hm'⟩ := apiRun_message hq hm hops
  rw [apiOutput, hsame.modeInit, hinit]
  simp only [Option.bind_eq_bind, Option.bind_some]
  rw [hsame.apiRun, hrun]
  simp only [Option.bind_some]
  rw [hsame.blake3HasherFinalizeSeek, blake3HasherFinalizeSeek_eq hq hm' seek (by simp),
    writeSlice_eq_some (by simp)]
  simp [Mode.root]

namespace Mode

/-- The mode, a context string as its bytes. -/
def canonical : Mode → Mode
  | deriveKey context => deriveKeyRaw (context.takeWhile (· != 0))
  | mode => mode

/-- The compressions that derive the key. -/
def calls : Mode → List Output
  | hash => []
  | keyed _ => []
  | deriveKeyRaw context => (rootCalls iv Flags.deriveKeyContext context 0).calls
  | deriveKey context =>
    (rootCalls iv Flags.deriveKeyContext (context.takeWhile (· != 0)) 0).calls

theorem flags_mem (mode : Mode) : mode.flags ∈ Flags.modes := by
  cases mode <;> simp [flags, Flags.modes]

end Mode

/-- The compressions of a run up to output block `k`: those of the key, and those of the
message. -/
def apiCalls (mode : Mode) (ops : List ApiOp) (k : ℕ) : List Output :=
  mode.calls ++ (rootCalls mode.keyWords mode.flags (ApiOp.message [] ops) k).calls

/-- Two context strings that derive one key. -/
theorem context_eq {c c' : List UInt8}
    (hc : ¬ CallTree.Collision Output.cv (rootCalls iv Flags.deriveKeyContext c 0).calls
      (rootCalls iv Flags.deriveKeyContext c' 0).calls)
    (h : loadKeyWords (contextKey c) = loadKeyWords (contextKey c')) : c = c' := by
  have hmem : Flags.deriveKeyContext ∈ Flags.modes := by simp [Flags.modes]
  have hbytes : contextKey c = contextKey c' := by
    rw [← storeCvWords_loadKeyWords (contextKey c), h, storeCvWords_loadKeyWords]
  have hdigest := congrArg Vector.toList hbytes
  have hcv : ∀ c, (contextKey c).toList =
      ((subtreeOutput iv Flags.deriveKeyContext 0 c).asRoot 0).cv.toList := by
    intro c
    rw [← rootSlice_take_cv _ 0 le_rfl]
    simp [contextKey, digest]
  rw [hcv, hcv] at hdigest
  exact (same_root hmem hmem hc (Vector.toList_inj.mp hdigest)).2.2.1

/-- Two modes with one key and one set of flags. -/
theorem Mode.canonical_eq {mode mode' : Mode}
    (hc : ¬ CallTree.Collision Output.cv mode.calls mode'.calls)
    (hkey : mode.keyWords = mode'.keyWords) (hflags : mode.flags = mode'.flags) :
    mode.canonical = mode'.canonical := by
  have h1 : (0 : UInt8) ≠ Flags.keyedHash := by decide
  have h2 : (0 : UInt8) ≠ Flags.deriveKeyMaterial := by decide
  have h3 : Flags.keyedHash ≠ Flags.deriveKeyMaterial := by decide
  cases mode with
  | hash =>
    cases mode' with
    | hash => rfl
    | keyed key' => exact absurd hflags h1
    | deriveKeyRaw context' => exact absurd hflags h2
    | deriveKey context' => exact absurd hflags h2
  | keyed key =>
    cases mode' with
    | hash => exact absurd hflags.symm h1
    | keyed key' =>
      have hload : loadKeyWords key = loadKeyWords key' := hkey
      rw [← storeCvWords_loadKeyWords key, hload, storeCvWords_loadKeyWords]
    | deriveKeyRaw context' => exact absurd hflags h3
    | deriveKey context' => exact absurd hflags h3
  | deriveKeyRaw context =>
    cases mode' with
    | hash => exact absurd hflags.symm h2
    | keyed key' => exact absurd hflags.symm h3
    | deriveKeyRaw context' => exact congrArg deriveKeyRaw (context_eq hc hkey)
    | deriveKey context' => exact congrArg deriveKeyRaw (context_eq hc hkey)
  | deriveKey context =>
    cases mode' with
    | hash => exact absurd hflags.symm h2
    | keyed key' => exact absurd hflags.symm h3
    | deriveKeyRaw context' => exact congrArg deriveKeyRaw (context_eq hc hkey)
    | deriveKey context' => exact congrArg deriveKeyRaw (context_eq hc hkey)

/-- **The interface adds no collisions.**  Take two runs of calls, each on a CPU of which the
kernels that it can run agree with the portable functions, and 32 bytes or more of the output of
each, from the start of a block on.  If the first 32 bytes are the same, so are the mode with its
key or context, the message and the number of the block, or two different compressions, one of
each run, have one value. -/
theorem same_output {p p' : Platform} (hp : p.AgreeWhereRun) (hp' : p'.AgreeWhereRun)
    {mode mode' : Mode} (hmode : mode.Valid) (hmode' : mode'.Valid) {self self' : Hasher}
    {locals locals' : DeriveKeyLocals} {ops ops' : List ApiOp} (hops : ApiOp.Admitted 0 ops)
    (hops' : ApiOp.Admitted 0 ops') {k k' n n' : ℕ} (hk : 64 * k < 2 ^ 64)
    (hk' : 64 * k' < 2 ^ 64) (hn : 32 ≤ n) (hn' : 32 ≤ n') {out out' : List UInt8}
    (hout : apiOutput p mode self locals ops (UInt64.ofNat (64 * k)) n = some out)
    (hout' : apiOutput p' mode' self' locals' ops' (UInt64.ofNat (64 * k')) n' = some out')
    (hsame : out.take 32 = out'.take 32) :
    (mode.canonical = mode'.canonical ∧ ApiOp.message [] ops = ApiOp.message [] ops' ∧ k = k') ∨
      CallTree.Collision Output.cv (apiCalls mode ops k) (apiCalls mode' ops' k') := by
  by_cases hc : CallTree.Collision Output.cv (apiCalls mode ops k) (apiCalls mode' ops' k')
  · exact .inr hc
  -- the compressions of the key, and those of the message, are some of them
  have hckey : ¬ CallTree.Collision Output.cv mode.calls mode'.calls := fun h =>
    hc (h.mono (List.subset_append_left _ _) (List.subset_append_left _ _))
  have hcroot : ¬ CallTree.Collision Output.cv
      (rootCalls mode.keyWords mode.flags (ApiOp.message [] ops) k).calls
      (rootCalls mode'.keyWords mode'.flags (ApiOp.message [] ops') k').calls := fun h =>
    hc (h.mono (List.subset_append_right _ _) (List.subset_append_right _ _))
  have hseek : ∀ {j : ℕ}, 64 * j < 2 ^ 64 → (UInt64.ofNat (64 * j)).toNat = 64 * j := fun hj =>
    UInt64.toNat_ofNat_of_lt' hj
  rw [apiOutput_eq hp hmode _ _ hops, hseek hk, Option.some.injEq] at hout
  rw [apiOutput_eq hp' hmode' _ _ hops', hseek hk', Option.some.injEq] at hout'
  rw [← hout, ← hout', rootSlice_take_cv _ _ hn, rootSlice_take_cv _ _ hn'] at hsame
  obtain ⟨hkey, hflags, hmessage, hcounter⟩ :=
    same_root mode.flags_mem mode'.flags_mem hcroot (Vector.toList_inj.mp hsame)
  refine .inl ⟨Mode.canonical_eq hckey hkey hflags, hmessage, ?_⟩
  have hnat := congrArg UInt64.toNat hcounter
  rwa [UInt64.toNat_ofNat_of_lt' (show k < 2 ^ 64 by omega),
    UInt64.toNat_ofNat_of_lt' (show k' < 2 ^ 64 by omega)] at hnat

/-- Three bytes at once, and in two pieces with another output in between. -/
theorem same_output_pieces :
    (Mode.hash.canonical = Mode.hash.canonical ∧
        ApiOp.message [] [.update [1, 2, 3]] =
          ApiOp.message [] [.update [1], .finalize [0] 0 1, .update [2, 3]] ∧ 2 = 2) ∨
      CallTree.Collision Output.cv (apiCalls .hash [.update [1, 2, 3]] 2)
        (apiCalls .hash [.update [1], .finalize [0] 0 1, .update [2, 3]] 2) := by
  have hp : Platform.AgreeWhereRun ⟨linuxPortable.target, linuxPortable.cpu, sseKernels⟩ :=
    ⟨portableKernels, portableKernels_agree, sseKernels_same⟩
  have hmode : Mode.Valid .hash := trivial
  have hops : ApiOp.Admitted 0 [.update [1, 2, 3]] := ⟨by decide, trivial⟩
  have hops' : ApiOp.Admitted 0 [.update [1], .finalize [0] 0 1, .update [2, 3]] :=
    ⟨by decide, by decide, by decide, trivial⟩
  have hout : ∀ n {ops}, ApiOp.Admitted 0 ops → _ := fun n ops h =>
    apiOutput_eq hp hmode zeroedHasher ⟨zeroedHasher, Vector.replicate 32 0⟩ h
      (UInt64.ofNat (64 * 2)) n
  refine same_output hp hp hmode hmode hops hops' (by decide) (by decide) le_rfl
    (show 32 ≤ 40 by decide) (hout 32 hops) (hout 40 hops') ?_
  rw [rootSlice_take _ _ (by decide), rootSlice_take _ _ (by decide)]
  rfl

end Blake3Kmp
