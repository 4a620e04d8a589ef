/-
Hashing whole subtrees (`compress_chunks_parallel`, `compress_parents_parallel`,
`blake3_compress_subtree_wide`, `compress_subtree_to_parent_node`).

The recursion returns a varying number of chaining values, by SIMD degree.  The
arrays it works in are modelled with their compiled sizes and cells that start
uninitialised, so that `some` says: every pointer array and every array of
chaining values is used inside its bounds, and nothing is read that was not
written.  In particular the right half's values are written `degree` cells from
the start while the parents are read from one contiguous run, which is only
right because the left half fills its `degree` cells exactly (`Wide.full`).

* `compressSubtreeWide_wide` — what the recursion returns, for any input
  longer than nothing: at least two values beyond one chunk, at most
  `MAX_SIMD_DEGREE_OR_2`, with the tree over them that of the chunks;
* `compressSubtreeToParentNode_eq` — condensing ends in exactly the two
  children of the subtree's root.
-/
import Blake3Kmp.Chunk

open CheckedMemory TreeHash

namespace Blake3Kmp

def leftSubtreeLen (inputLen : ℕ) : ℕ :=
  let fullChunks := (inputLen - 1) / 1024
  roundDownToPowerOf2 fullChunks * 1024

/-- The first loop of `compress_chunks_parallel`: pointers to the whole chunks of `input`
from `inputPosition` on, in an array of `maxSimdDegree` pointers. -/
def chunksArrayLoop (maxSimdDegree : ℕ) (input : List UInt8) (inputPosition : ℕ)
    (chunksArray : List (List UInt8)) : Option (List (List UInt8) × ℕ) :=
  if inputPosition > input.length then none
  else if input.length - inputPosition ≥ 1024 then do
    assertThat (chunksArray.length < maxSimdDegree)
    let chunk ← readSlice input inputPosition 1024
    chunksArrayLoop maxSimdDegree input (inputPosition + 1024) (chunksArray ++ [chunk])
  else some (chunksArray, inputPosition)
  termination_by input.length - inputPosition
  decreasing_by omega

/-- The chaining values written to `out`. -/
def compressChunksParallel (p : Platform) (input : List UInt8) (key : Words 8)
    (chunkCounter : UInt64) (flags : UInt8) : Option (List (Bytes 32)) := do
  let (chunksArray, inputPosition) ← chunksArrayLoop p.maxSimdDegree input 0 []
  let out ← blake3HashMany p chunksArray 16 key chunkCounter true flags Flags.chunkStart
    Flags.chunkEnd
  -- Hash the remaining partial chunk, if there is one.
  if input.length > inputPosition then do
    let counter := chunkCounter + UInt64.ofNat chunksArray.length
    let chunkState := { chunkStateInit key flags with chunkCounter := counter }
    let rest ← readSlice input inputPosition (input.length - inputPosition)
    let chunkState ← chunkStateUpdate p chunkState rest
    some (out ++ [outputChainingValue p (chunkStateOutput chunkState)])
  else some out

/-- The loop of `compress_parents_parallel`: pointers to pairs of children, in an array of
`maxSimdDegreeOr2` pointers. -/
def parentsArrayLoop (maxSimdDegreeOr2 : ℕ) (childChainingValues : List (Bytes 32))
    (parentsArray : List (List UInt8)) : Option (List (List UInt8)) :=
  if 2 * parentsArray.length > childChainingValues.length then none
  else if childChainingValues.length - 2 * parentsArray.length ≥ 2 then do
    assertThat (parentsArray.length < maxSimdDegreeOr2)
    let children ← readSlice childChainingValues (2 * parentsArray.length) 2
    parentsArrayLoop maxSimdDegreeOr2 childChainingValues
      (parentsArray ++ [children.flatMap Vector.toList])
  else some parentsArray
  termination_by childChainingValues.length - 2 * parentsArray.length
  decreasing_by
    rw [List.length_append, List.length_singleton]
    omega

/-- The chaining values written to `out`. -/
def compressParentsParallel (p : Platform) (childChainingValues : List (Bytes 32))
    (key : Words 8) (flags : UInt8) : Option (List (Bytes 32)) := do
  let parentsArray ← parentsArrayLoop p.maxSimdDegreeOr2 childChainingValues []
  let out ← blake3HashMany p parentsArray 1 key 0 false (flags ||| Flags.parent) 0 0
  -- If there's an odd child left over, it becomes an output.
  if childChainingValues.length > 2 * parentsArray.length then do
    let odd ← readSlice childChainingValues (2 * parentsArray.length) 1
    some (out ++ odd)
  else some out

/-! ### Chunks and parents in parallel -/

section

variable {p : Platform} {key : Words 8} {flags : UInt8} {i : ℕ}

theorem chunksArrayLoop_eq {maxSimdDegree : ℕ} {input : List UInt8} {pos : ℕ}
    (chunksArray : List (List UInt8)) (hpos : pos ≤ input.length)
    (hcap : chunksArray.length + (input.length - pos) / 1024 ≤ maxSimdDegree) :
    ∃ chunks rest, chunksArrayLoop maxSimdDegree input pos chunksArray =
        some (chunksArray ++ chunks, input.length - rest.length) ∧
      input.drop pos = chunks.flatten ++ rest ∧ (∀ c ∈ chunks, c.length = 1024) ∧
      rest.length < 1024 := by
  induction hn : input.length - pos using Nat.strong_induction_on generalizing pos chunksArray with
  | _ n ih =>
    rw [chunksArrayLoop, if_neg (by omega)]
    by_cases hge : input.length - pos ≥ 1024
    · have hchunk : ((input.drop pos).take 1024).length = 1024 := by
        rw [List.length_take, List.length_drop]
        omega
      obtain ⟨chunks, rest, heq, hsplit, hall, hrest⟩ := ih (input.length - (pos + 1024)) (by omega)
        (chunksArray ++ [(input.drop pos).take 1024]) (by omega)
        (by rw [List.length_append, List.length_singleton]; omega) rfl
      rw [if_pos hge, assertThat_eq_some (by simp; omega), readSlice_eq_some (by omega)]
      simp only [Option.bind_eq_bind, Option.bind_some]
      refine ⟨(input.drop pos).take 1024 :: chunks, rest, ?_, ?_, ?_, hrest⟩
      · rw [heq, List.append_assoc]
        rfl
      · rw [List.flatten_cons, List.append_assoc, ← hsplit, ← List.drop_drop, List.take_append_drop]
      · intro c hc
        rcases List.mem_cons.mp hc with rfl | hc
        · exact hchunk
        · exact hall c hc
    · rw [if_neg hge]
      refine ⟨[], input.drop pos, ?_, rfl, by simp, ?_⟩
      · rw [List.append_nil, List.length_drop, Nat.sub_sub_self hpos]
      · rw [List.length_drop]
        omega

/-- The values of up to `MAX_SIMD_DEGREE` chunks are the leaves. -/
theorem compressChunksParallel_eq (hp : p.Agree) {input : List UInt8} (hpos : 0 < input.length)
    (hle : input.length ≤ p.maxSimdDegree * 1024) :
    compressChunksParallel p input key (UInt64.ofNat i) flags = some (leafCvs key flags i input) := by
  obtain ⟨chunks, rest, heq, hsplit, hall, hrest⟩ := chunksArrayLoop_eq []
    (show 0 ≤ input.length by omega)
    (show 0 + (input.length - 0) / 1024 ≤ p.maxSimdDegree by omega)
  rw [List.drop_zero] at hsplit
  have hflat : chunks.flatten.length = 1024 * chunks.length := by
    rw [List.length_flatten, List.map_congr_left hall, List.map_const', List.sum_replicate_nat,
      Nat.mul_comm]
  have hlen := congrArg List.length hsplit
  rw [List.length_append] at hlen
  have hmany := hp.hashMany chunks 16 key (UInt64.ofNat i) true flags Flags.chunkStart
    Flags.chunkEnd (by omega) hall
  rw [compressChunksParallel, heq]
  simp only [Option.bind_eq_bind, Option.bind_some, List.nil_append]
  rw [hmany, hashManyPortable_eq hall]
  simp only [Option.bind_some]
  conv_rhs => rw [hsplit, leafCvs_append key flags hflat]
  by_cases h0 : rest.length = 0
  · rw [if_neg (by omega), List.length_eq_zero_iff.mp h0, leafCvs_nil, List.append_nil]
  · -- the partial chunk
    have hread : (input.drop (input.length - rest.length)).take
        (input.length - (input.length - rest.length)) = rest := by
      rw [show input.length - rest.length = chunks.flatten.length by omega, hsplit,
        List.drop_left, List.take_of_length_le (by rw [List.length_append]; omega)]
    rw [if_pos (by omega), readSlice_eq_some (by omega), hread, ← UInt64.ofNat_add]
    simp only [Option.bind_some]
    obtain ⟨cs, hupd, habs⟩ := chunkStateUpdate_absorbed hp
      (chunkStateInit_absorbed key flags (i + chunks.length))
      (show ([] : List UInt8).length + rest.length ≤ 1024 by simp; omega)
    rw [hupd, leafCvs_chunk key flags (show 0 < rest.length by omega) (by omega)]
    simp only [Option.bind_some]
    rw [outputChainingValue_eq hp, chunkStateOutput_eq habs, List.nil_append]

/-- The blocks of the parents of neighbouring children. -/
def childPairs : List (Bytes 32) → List (List UInt8)
  | a :: b :: children => (a.toList ++ b.toList) :: childPairs children
  | _ => []

theorem childPairs_length (children : List (Bytes 32)) :
    (childPairs children).length = children.length / 2 := by
  fun_induction childPairs children with
  | case1 a b children ih =>
    simp only [List.length_cons, ih]
    omega
  | case2 children h =>
    match children with
    | [] => simp
    | [_] => simp
    | a :: b :: children => exact absurd rfl (h a b children)

theorem parentsArrayLoop_eq {maxSimdDegreeOr2 : ℕ} {children : List (Bytes 32)}
    {parentsArray : List (List UInt8)} (hle : 2 * parentsArray.length ≤ children.length)
    (hcap : children.length / 2 ≤ maxSimdDegreeOr2) :
    parentsArrayLoop maxSimdDegreeOr2 children parentsArray =
      some (parentsArray ++ childPairs (children.drop (2 * parentsArray.length))) := by
  induction hn : children.length - 2 * parentsArray.length using Nat.strong_induction_on
    generalizing parentsArray with
  | _ n ih =>
    rw [parentsArrayLoop, if_neg (by omega)]
    by_cases hge : children.length - 2 * parentsArray.length ≥ 2
    · obtain ⟨a, b, more, hdrop⟩ : ∃ a b more,
          children.drop (2 * parentsArray.length) = a :: b :: more := by
        match hd : children.drop (2 * parentsArray.length) with
        | [] =>
          have := congrArg List.length hd
          rw [List.length_drop, List.length_nil] at this
          omega
        | [_] =>
          have := congrArg List.length hd
          rw [List.length_drop, List.length_singleton] at this
          omega
        | a :: b :: more => exact ⟨a, b, more, rfl⟩
      have hmore : children.drop (2 * parentsArray.length + 2) = more := by
        rw [← List.drop_drop, hdrop]
        rfl
      rw [if_pos hge, assertThat_eq_some (by simp; omega), readSlice_eq_some (by omega), hdrop]
      simp only [Option.bind_eq_bind, Option.bind_some]
      rw [ih _ (by rw [List.length_append, List.length_singleton]; omega)
        (by rw [List.length_append, List.length_singleton]; omega) rfl]
      rw [List.length_append, List.length_singleton, Nat.mul_add, hmore, childPairs,
        List.append_assoc]
      simp
    · rw [if_neg hge]
      have hshort : (childPairs (children.drop (2 * parentsArray.length))).length = 0 := by
        rw [childPairs_length, List.length_drop]
        omega
      rw [List.length_eq_zero_iff.mp hshort, List.append_nil]

/-- One parent block hashed by the portable kernel. -/
theorem hashOnePortable_parent (a b : Bytes 32) :
    hashOnePortable (a.toList ++ b.toList) 1 key 0 (flags ||| Flags.parent) 0 0 =
      some (parentCv key flags a b) := by
  have hblock : readBlock (a.toList ++ b.toList) = some (a ++ b) := by
    rw [readBlock, dif_pos (by simp), Option.some_inj]
    apply Vector.toList_inj.mp
    show (a.toList ++ b.toList).take 64 = (a ++ b).toList
    rw [List.take_of_length_le (by simp), Vector.toList_append]
  rw [hashOnePortable, hashOneLoop, hblock]
  simp only [Option.bind_eq_bind, Option.bind_some, zero_add, ↓reduceIte, hashOneLoop,
    UInt8.or_zero]
  rfl

theorem hashManyPortable_childPairs (children : List (Bytes 32)) :
    hashManyPortable (childPairs children) 1 key 0 false (flags ||| Flags.parent) 0 0 =
      some (pairUp (parentCv key flags) (children.take (2 * (children.length / 2)))) := by
  fun_induction childPairs children with
  | case1 a b children ih =>
    rw [hashManyPortable, hashOnePortable_parent]
    simp only [Option.bind_eq_bind, Option.bind_some, Bool.false_eq_true, ↓reduceIte]
    rw [ih, show 2 * ((a :: b :: children).length / 2) = 2 * (children.length / 2) + 2 by
      simp only [List.length_cons]
      omega]
    rfl
  | case2 children h =>
    rcases children with _ | ⟨a, _ | ⟨b, children⟩⟩
    · simp [hashManyPortable, pairUp]
    · simp [hashManyPortable, pairUp]
    · exact absurd rfl (h a b children)

/-- One layer of parents, up to `MAX_SIMD_DEGREE_OR_2` of them. -/
theorem compressParentsParallel_eq (hp : p.Agree) {children : List (Bytes 32)}
    (hle : children.length ≤ 2 * p.maxSimdDegreeOr2) :
    compressParentsParallel p children key flags =
      some (pairUp (parentCv key flags) children) := by
  set e := 2 * (children.length / 2) with he
  have hmany := hp.hashMany (childPairs children) 1 key 0 false (flags ||| Flags.parent) 0 0
    (by omega) (by
      intro input hin
      fun_induction childPairs children with
      | case1 a b children ih =>
        rcases List.mem_cons.mp hin with rfl | hin
        · simp
        · exact ih (by simp only [List.length_cons] at hle; omega) rfl hin
      | case2 children h => simp at hin)
  have hsplit : pairUp (parentCv key flags) children =
      pairUp (parentCv key flags) (children.take e) ++ children.drop e := by
    conv_lhs => rw [← List.take_append_drop e children,
      pairUp_append _ _ (by rw [List.length_take]; omega)]
    congr 1
    match hd : children.drop e with
    | [] => rfl
    | [_] => rfl
    | _ :: _ :: _ =>
      have := congrArg List.length hd
      rw [List.length_drop] at this
      simp only [List.length_cons] at this
      omega
  rw [compressParentsParallel, parentsArrayLoop_eq (by simp) (by omega)]
  simp only [Option.bind_eq_bind, Option.bind_some, List.length_nil, Nat.mul_zero, List.drop_zero,
    List.nil_append]
  rw [hmany, hashManyPortable_childPairs, childPairs_length, ← he, hsplit]
  simp only [Option.bind_some]
  by_cases hodd : children.length > e
  · rw [if_pos hodd, readSlice_eq_some (by omega)]
    simp only [Option.bind_some]
    rw [List.take_of_length_le (l := children.drop e) (by rw [List.length_drop]; omega)]
  · rw [if_neg hodd, List.drop_eq_nil_of_le (by omega), List.append_nil]

end

/-! ### Powers of two -/

theorem roundDownToPowerOf2_eq {x : ℕ} (h : 0 < x) : roundDownToPowerOf2 x = 2 ^ x.log2 := by
  have hor : x ||| 1 = 2 * (x / 2) + 1 := by
    apply Nat.eq_of_testBit_eq
    intro j
    rcases j with _ | j
    · simp
    · rw [Nat.testBit_or, Nat.testBit_succ, Nat.testBit_succ, Nat.testBit_succ]
      simp
      congr 1
      omega
  have h1 := Nat.log2_self_le (n := x) (by omega)
  have h2 := Nat.lt_log2_self (n := x)
  rw [pow_succ] at h2
  rw [roundDownToPowerOf2, highestOne, Nat.one_shiftLeft, hor]
  congr 1
  rw [Nat.log2_eq_iff (by omega), pow_succ]
  have heven : 2 ^ x.log2 = 1 ∨ 2 ^ x.log2 % 2 = 0 := by
    rcases x.log2 with _ | k
    · exact .inl rfl
    · exact .inr (by rw [pow_succ]; omega)
  omega

/-- The code's split is the reference tree's. -/
theorem leftSubtreeLen_eq {n : ℕ} (h : 1024 < n) : leftSubtreeLen n = leftLen n := by
  rw [leftSubtreeLen, roundDownToPowerOf2_eq (by omega), leftLen, Nat.mul_comm]

/-! ### The recursion -/

/-- `blake3_compress_subtree_wide`: the chaining values written to `out`. -/
def compressSubtreeWide (p : Platform) (input : List UInt8) (key : Words 8)
    (chunkCounter : UInt64) (flags : UInt8) : Option (List (Bytes 32)) :=
  if input.length ≤ blake3SimdDegree p * 1024 then
    compressChunksParallel p input key chunkCounter flags
  else if leftSubtreeLen input.length > input.length then none -- right_input_len
  else do
    let leftInputLen := leftSubtreeLen input.length
    let rightChunkCounter := chunkCounter + UInt64.ofNat (leftInputLen / 1024)
    -- The special case: we always use a degree of at least two, except at the chunk level.
    let degree := if leftInputLen > 1024 ∧ blake3SimdDegree p = 1 then 2 else blake3SimdDegree p
    let left ← compressSubtreeWide p (input.take leftInputLen) key chunkCounter flags
    let right ← compressSubtreeWide p (input.drop leftInputLen) key rightChunkCounter flags
    let cvArray : List (Option (Bytes 32)) := List.replicate (2 * p.maxSimdDegreeOr2) none
    let cvArray ← writeSlice cvArray 0 (left.map some)
    let cvArray ← writeSlice cvArray degree (right.map some)
    if left.length = 1 then readInit cvArray 0 2
    else do
      let children ← readInit cvArray 0 (left.length + right.length)
      compressParentsParallel p children key flags
  termination_by input.length
  decreasing_by
  · have hd := degree_pos p
    have := leftSubtreeLen_eq (n := input.length) (by omega)
    have := (leftLen_spec (n := input.length) (by omega)).2.1
    rw [List.length_take]
    omega
  · have hd := degree_pos p
    have := leftSubtreeLen_eq (n := input.length) (by omega)
    have := (leftLen_spec (n := input.length) (by omega)).2
    rw [List.length_drop]
    omega

/-- The loop of `compress_subtree_to_parent_node` over `cv_array`, of which the first
`numCvs` cells are in use.  A round that did not shrink their number would never end. -/
def condenseLoop (p : Platform) (key : Words 8) (flags : UInt8)
    (cvArray : List (Option (Bytes 32))) (numCvs : ℕ) : Option (List (Option (Bytes 32))) :=
  if numCvs > 2 then do
    let children ← readInit cvArray 0 numCvs
    let out ← compressParentsParallel p children key flags
    let _outArray ← writeSlice (List.replicate (p.maxSimdDegreeOr2 / 2) none) 0 (out.map some)
    let cvArray ← writeSlice cvArray 0 (out.map some)
    if out.length < numCvs then condenseLoop p key flags cvArray out.length else none
  else some cvArray
  termination_by numCvs

/-- The two chaining values written to `out`. -/
def compressSubtreeToParentNode (p : Platform) (input : List UInt8) (key : Words 8)
    (chunkCounter : UInt64) (flags : UInt8) : Option (List (Bytes 32)) := do
  let cvs ← compressSubtreeWide p input key chunkCounter flags
  let cvArray ← writeSlice (List.replicate p.maxSimdDegreeOr2 none) 0 (cvs.map some)
  assertThat (cvs.length ≤ p.maxSimdDegreeOr2)
  let cvArray ←
    (if p.maxSimdDegreeOr2 > 2 then condenseLoop p key flags cvArray cvs.length else some cvArray)
  readInit cvArray 0 2

/-! ### What the recursion returns -/

/-- The values `cvs` that the recursion returns for `input`, whose first chunk has number `i`. -/
structure Wide (p : Platform) (key : Words 8) (flags : UInt8) (i : ℕ) (input : List UInt8)
    (cvs : List (Bytes 32)) : Prop where
  pos : 0 < cvs.length
  le_leaves : cvs.length ≤ (leafCvs key flags i input).length
  le_degree : cvs.length ≤ max (blake3SimdDegree p) 2
  treeRoot_eq : treeRoot (parentCv key flags) cvs =
    treeRoot (parentCv key flags) (leafCvs key flags i input)
  two_le : 1024 < input.length → 2 ≤ cvs.length
  topPair_eq : 1024 < input.length → topPair (parentCv key flags) cvs =
    topPair (parentCv key flags) (leafCvs key flags i input)
  full : ∀ k, input.length = 1024 * 2 ^ k →
    cvs.length = min (2 ^ k) (max (blake3SimdDegree p) 2)

section

variable {p : Platform} {key : Words 8} {flags : UInt8}

theorem degree_le_maxOr2 (p : Platform) : max (blake3SimdDegree p) 2 ≤ p.maxSimdDegreeOr2 := by
  have := degree_le_max p
  rw [maxSimdDegreeOr2_eq]
  omega

/-- Up to `blake3_simd_degree()` chunks are returned as they are. -/
theorem wide_leaves {i : ℕ} {input : List UInt8} (hpos : 0 < input.length)
    (hle : input.length ≤ blake3SimdDegree p * 1024) :
    Wide p key flags i input (leafCvs key flags i input) := by
  have hlen := leafCvs_length key flags i input
  refine ⟨by omega, le_refl _, by omega, rfl, fun h => by omega, fun _ => rfl, fun k hk => ?_⟩
  have := Nat.two_pow_pos k
  omega

/-- The left side of a split has at least as many chunks as the degree. -/
theorem degree_le_of_split {k : ℕ} {n : ℕ} (hn : blake3SimdDegree p * 1024 < n)
    (hle : n ≤ 2 * (1024 * 2 ^ k)) : blake3SimdDegree p ≤ 2 ^ k := by
  obtain ⟨e, he⟩ := degree_eq_two_pow p
  rw [he] at hn ⊢
  have hlt : 2 ^ e < 2 ^ (k + 1) := by
    rw [pow_succ]
    omega
  have := (Nat.pow_lt_pow_iff_right (by omega)).mp hlt
  exact Nat.pow_le_pow_right (by omega) (by omega)

theorem two_pow_eq_double {j k : ℕ} (hlt : 2 ^ k < 2 ^ j) (hle : 2 ^ j ≤ 2 * 2 ^ k) :
    2 ^ j = 2 * 2 ^ k := by
  have h1 := (Nat.pow_lt_pow_iff_right (a := 2) (by omega)).mp hlt
  rw [← pow_succ'] at hle ⊢
  have h2 := (Nat.pow_le_pow_iff_right (a := 2) (by omega)).mp hle
  rw [show j = k + 1 by omega]

/-- **The recursion never leaves its arrays, and the tree over what it returns is the
tree over the chunks.** -/
theorem compressSubtreeWide_wide (hp : p.Agree) (key : Words 8) (flags : UInt8) (i : ℕ) {input : List UInt8}
    (hpos : 0 < input.length) :
    ∃ cvs, compressSubtreeWide p input key (UInt64.ofNat i) flags = some cvs ∧
      Wide p key flags i input cvs := by
  have hd := degree_pos p
  have hmax := degree_le_max p
  have hmax2 := degree_le_maxOr2 p
  induction hn : input.length using Nat.strong_induction_on generalizing i input with
  | _ n ih =>
    rw [compressSubtreeWide]
    by_cases hsmall : input.length ≤ blake3SimdDegree p * 1024
    · rw [if_pos hsmall, compressChunksParallel_eq hp hpos
        (hsmall.trans (Nat.mul_le_mul_right _ hmax))]
      exact ⟨_, rfl, wide_leaves hpos hsmall⟩
    · -- split, and recurse into both halves
      have hbig : 1024 < input.length := by omega
      obtain ⟨k, hk, hleaves, hL, hR0, hR⟩ := leafCvs_split key flags (i := i) hbig
      obtain ⟨-, hlt, hle⟩ := leftLen_spec hbig
      have hdk := degree_le_of_split (p := p) (k := k) (n := input.length) (by omega) (by omega)
      have h2k := Nat.two_pow_pos k
      have hlenL : (input.take (leftLen input.length)).length = 1024 * 2 ^ k := by
        rw [List.length_take]
        omega
      have hlenR : (input.drop (leftLen input.length)).length = input.length - 1024 * 2 ^ k := by
        rw [List.length_drop, hk]
      obtain ⟨l, hl, wl⟩ := ih _ (by omega) i (by omega) hlenL
      obtain ⟨r, hr, wr⟩ := ih _ (by omega) (i + leftLen input.length / 1024) (by omega) hlenR
      -- the left half fills its cells exactly
      have hfull : l.length =
          if leftLen input.length > 1024 ∧ blake3SimdDegree p = 1 then 2
          else blake3SimdDegree p := by
        rw [wl.full k hlenL]
        split_ifs <;> omega
      have hrl : r.length ≤ l.length := by
        have h1 := wr.le_degree
        have h2 := wr.le_leaves
        rw [hfull]
        split_ifs <;> omega
      obtain ⟨e, he⟩ : ∃ e, l.length = 2 ^ e := by
        obtain ⟨e, he⟩ := degree_eq_two_pow p
        rw [hfull]
        split_ifs
        · exact ⟨1, rfl⟩
        · exact ⟨e, he⟩
      have hrpos := wr.pos
      have hltop := wl.le_degree
      have htop : topPair (parentCv key flags) (l ++ r) =
          topPair (parentCv key flags) (leafCvs key flags i input) := by
        rw [topPair_append _ he hrpos (by omega), hleaves, topPair_append _ hL hR0 hR,
          wl.treeRoot_eq, wr.treeRoot_eq]
      have hll := wl.le_leaves
      have hrr := wr.le_leaves
      have hlen := congrArg List.length hleaves
      rw [List.length_append] at hlen
      -- the array of the two halves' values
      obtain ⟨ys, zs, hw1, hw2, hread⟩ := exists_writeInit_adjacent
        (List.replicate (2 * p.maxSimdDegreeOr2) none) (l := l) (r := r)
        (by rw [List.length_replicate]; omega)
      rw [if_neg hsmall, leftSubtreeLen_eq hbig, if_neg (by omega)]
      dsimp only
      rw [hl, ← UInt64.ofNat_add, hr, ← hfull]
      simp only [Option.bind_eq_bind, Option.bind_some]
      rw [hw1]
      simp only [Option.bind_some]
      rw [hw2]
      simp only [Option.bind_some]
      by_cases h1 : l.length = 1
      · -- the special case of degree 1: both values are returned
        have hr1 : r.length = 1 := by omega
        have h2 : (l ++ r).length = 2 := by
          rw [List.length_append]
          omega
        rw [if_pos h1]
        rw [h1, hr1] at hread
        refine ⟨l ++ r, hread, ?_⟩
        refine ⟨by omega, by omega, by omega, ?_, fun _ => by omega, fun _ => htop, fun j hj => ?_⟩
        · rw [treeRoot_eq_topPair _ (by omega), treeRoot_eq_topPair _ (by omega), htop]
        · have := two_pow_eq_double (j := j) (k := k) (by omega) (by omega)
          have := wl.full k hlenL
          split_ifs at hfull <;> omega
      · rw [if_neg h1, hread]
        simp only [Option.bind_some]
        rw [compressParentsParallel_eq hp (by rw [List.length_append]; omega)]
        have hplen := pairUp_length (parentCv key flags) (l ++ r)
        rw [List.length_append] at hplen
        have htop' := topPair_pairUp (parentCv key flags)
          (show 3 ≤ (l ++ r).length by rw [List.length_append]; omega)
        refine ⟨_, rfl, ⟨by omega, by omega, by omega, ?_, fun _ => by omega,
          fun _ => htop'.trans htop, fun j hj => ?_⟩⟩
        · rw [treeRoot_eq_topPair _ (by omega), treeRoot_eq_topPair _ (by omega), htop', htop]
        · have := two_pow_eq_double (j := j) (k := k) (by omega) (by omega)
          have := wr.full k (by omega)
          split_ifs at hfull <;> omega

/-- Condensing keeps the children of the root and stops at two values. -/
theorem condenseLoop_eq (hp : p.Agree) (key : Words 8) (flags : UInt8)
    {cvArray : List (Option (Bytes 32))} (cvs : List (Bytes 32))
    (rest : List (Option (Bytes 32))) (harr : cvArray = cvs.map some ++ rest) (hlen : cvArray.length = p.maxSimdDegreeOr2)
    (h2 : 2 ≤ cvs.length) :
    ∃ a b rest', condenseLoop p key flags cvArray cvs.length = some (some a :: some b :: rest') ∧
      (a, b) = topPair (parentCv key flags) cvs := by
  induction hn : cvs.length using Nat.strong_induction_on generalizing cvArray cvs rest with
  | _ n ih =>
    subst hn
    rw [condenseLoop]
    by_cases hgt : cvs.length > 2
    · have hcap : cvs.length ≤ p.maxSimdDegreeOr2 := by
        rw [← hlen, harr, List.length_append, List.length_map]
        omega
      have heven := maxSimdDegreeOr2_even p
      have hplen := pairUp_length (parentCv key flags) cvs
      rw [if_pos hgt, readInit_eq_some harr]
      simp only [Option.bind_eq_bind, Option.bind_some]
      rw [compressParentsParallel_eq hp (by omega)]
      simp only [Option.bind_some]
      rw [writeInit_eq_some _ (by rw [List.length_replicate]; omega)]
      simp only [Option.bind_some]
      rw [writeInit_eq_some cvArray (by omega)]
      simp only [Option.bind_some]
      rw [if_pos (by omega)]
      obtain ⟨a, b, rest', heq, hab⟩ := ih _ (by omega) (pairUp (parentCv key flags) cvs)
        (cvArray.drop (pairUp (parentCv key flags) cvs).length) rfl
        (by rw [List.length_append, List.length_map, List.length_drop]; omega) (by omega) rfl
      exact ⟨a, b, rest', heq, hab.trans (topPair_pairUp _ (by omega))⟩
    · rw [if_neg hgt]
      match cvs, h2, hgt with
      | [a, b], _, _ => exact ⟨a, b, rest, by rw [harr]; rfl, (topPair_pair _ a b).symm⟩
      | _ :: _ :: _ :: _, _, h => simp at h

/-- **Condensing a subtree ends in exactly the two children of its root.** -/
theorem compressSubtreeToParentNode_eq (hp : p.Agree) (key : Words 8) (flags : UInt8) (i : ℕ)
    {input : List UInt8}
    (h : 1024 < input.length) :
    compressSubtreeToParentNode p input key (UInt64.ofNat i) flags =
      some [(topPair (parentCv key flags) (leafCvs key flags i input)).1,
        (topPair (parentCv key flags) (leafCvs key flags i input)).2] := by
  obtain ⟨cvs, hcvs, w⟩ := compressSubtreeWide_wide hp key flags i
    (show 0 < input.length by omega)
  have h2 := w.two_le h
  have hcap := w.le_degree.trans (degree_le_maxOr2 p)
  have hread : ∀ (a b : Bytes 32) (rest : List (Option (Bytes 32))),
      readInit (some a :: some b :: rest) 0 2 = some [a, b] :=
    fun a b rest => readInit_eq_some (show some a :: some b :: rest = [a, b].map some ++ rest from rfl)
  rw [compressSubtreeToParentNode, hcvs]
  simp only [Option.bind_eq_bind, Option.bind_some]
  rw [writeInit_eq_some _ (by rw [List.length_replicate]; omega)]
  simp only [Option.bind_some]
  rw [assertThat_eq_some (by simpa using hcap)]
  simp only [Option.bind_some]
  rw [← w.topPair_eq h]
  by_cases hbig : p.maxSimdDegreeOr2 > 2
  · obtain ⟨a, b, rest, heq, hab⟩ := condenseLoop_eq hp key flags cvs
      ((List.replicate p.maxSimdDegreeOr2 none).drop cvs.length) rfl
      (by rw [List.length_append, List.length_map, List.length_drop, List.length_replicate]; omega)
      h2
    rw [if_pos hbig, heq, ← hab]
    exact hread a b rest
  · rw [if_neg hbig]
    match cvs, h2, hcap with
    | [a, b], _, _ =>
      rw [topPair_pair]
      exact hread a b _
    | _ :: _ :: _ :: _, _, hc =>
      simp only [List.length_cons] at hc
      omega

end

end Blake3Kmp
