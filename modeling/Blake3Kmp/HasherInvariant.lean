/-
What a hasher holds, and what `blake3_hasher_finalize_seek` makes of it.

`Hasher.Absorbed key flags h m`: the hasher `h`, keyed with `key` and `flags`,
has absorbed the message `m`.  Some whole chunks of `m` are in the stack, the
rest, at most one chunk, is in the chunk state.  The stack is merged lazily: it
has one entry a 1-bit of the chunk count, and perhaps one entry more when the
chunk state is empty, so that the root is never merged away before `finalize`
can set its flag.

* `hasherPushCv_holds` — pushing the value of an aligned subtree;
* `hasherUpdateStep_holds`, `hasherUpdateLoop_holds` — one round of the update
  loop, and all of them;
* `blake3HasherUpdate_absorbed` — updating with `input` after `m` is having
  absorbed `m ++ input`, however the message was cut before;
* `blake3HasherFinalizeSeek_eq` — finalizing writes the reference tree's root
  output.

Every statement has the form "the function returns `some …`": no index leaves
its array and no length wraps on the way.
-/
import Blake3Kmp.Hasher

open CheckedMemory TreeHash

namespace Blake3Kmp

/-- The stack of chaining values, top first. -/
def Hasher.stack (h : Hasher) : List (Bytes 32) := stackOf h.cvStack h.cvStackLen.toNat

/-- The stack of `h` stands for `leaves`. -/
structure Hasher.StackHolds (key : Words 8) (flags : UInt8) (h : Hasher) (es : List ℕ)
    (leaves : List (Bytes 32)) : Prop where
  key_eq : h.key = key
  flags_eq : h.chunk.flags = flags
  fits : h.cvStackLen.toNat ≤ 55
  covers : Covers (parentCv key flags) h.stack es leaves

/-- `h` has absorbed the `n` whole chunks `whole`, which the stack stands for, and `tail`. -/
structure Hasher.Holds (key : Words 8) (flags : UInt8) (h : Hasher) (whole tail : List UInt8)
    (n : ℕ) (es : List ℕ) : Prop where
  length : whole.length = 1024 * n
  chunk : h.chunk.Absorbed key flags n tail
  fits : tail.length ≤ 1024
  stack : h.StackHolds key flags es (leafCvs key flags 0 whole)
  pending : Pending es

/-- `h` has absorbed the message `m`. -/
def Hasher.Absorbed (key : Words 8) (flags : UInt8) (h : Hasher) (m : List UInt8) : Prop :=
  ∃ whole tail n es, m = whole ++ tail ∧ h.Holds key flags whole tail n es ∧
    (tail ≠ [] → Settled es) ∧ (tail = [] → n = 0 ∨ 2 ≤ es.length)

section

variable {key : Words 8} {flags : UInt8} {h : Hasher}

theorem Hasher.StackHolds.length_eq {es : List ℕ} {leaves : List (Bytes 32)}
    (hs : h.StackHolds key flags es leaves) : h.cvStackLen.toNat = es.length := by
  rw [← hs.covers.length_stack, Hasher.stack, stackOf_length hs.fits]

theorem Hasher.Holds.leaves_length {whole tail : List UInt8} {n : ℕ} {es : List ℕ}
    (hh : h.Holds key flags whole tail n es) : (leafCvs key flags 0 whole).length = n := by
  rw [leafCvs_length, hh.length]
  omega

/-! ### The hashers that have absorbed nothing -/

theorem hasherInitBase_absorbed (h : Hasher) (key : Words 8) (flags : UInt8) :
    (hasherInitBase h key flags).Absorbed key flags [] := by
  have hstack : (hasherInitBase h key flags).stack = [] := stackOf_zero h.cvStack
  refine ⟨[], [], 0, [], rfl, ⟨rfl, chunkStateInit_absorbed key flags 0, by simp,
    ⟨rfl, rfl, Nat.zero_le _, ?_⟩, Settled.pending List.Pairwise.nil⟩,
    fun _ => List.Pairwise.nil, fun _ => .inl rfl⟩
  rw [hstack, leafCvs_nil]
  exact .empty

theorem blake3HasherInit_absorbed (h : Hasher) : (blake3HasherInit h).Absorbed iv 0 [] :=
  hasherInitBase_absorbed h iv 0

theorem blake3HasherInitKeyed_absorbed (h : Hasher) (key : Bytes 32) :
    (blake3HasherInitKeyed h key).Absorbed (loadKeyWords key) Flags.keyedHash [] :=
  hasherInitBase_absorbed h (loadKeyWords key) Flags.keyedHash

/-- Resetting forgets the message, and keeps the key and the mode. -/
theorem blake3HasherReset_absorbed {m : List UInt8} (hm : h.Absorbed key flags m) :
    (blake3HasherReset h).Absorbed key flags [] := by
  obtain ⟨whole, tail, n, es, rfl, hh, -, -⟩ := hm
  have hstack : (blake3HasherReset h).stack = [] := stackOf_zero h.cvStack
  have hchunk : (chunkStateReset h.chunk h.key (UInt64.ofNat 0)).Absorbed key flags 0 [] := by
    rw [hh.stack.key_eq]
    exact chunkStateReset_absorbed hh.stack.flags_eq key 0
  refine ⟨[], [], 0, [], rfl, ⟨rfl, hchunk, by simp,
    ⟨hh.stack.key_eq, hh.stack.flags_eq, Nat.zero_le _, ?_⟩, Settled.pending List.Pairwise.nil⟩,
    fun _ => List.Pairwise.nil, fun _ => .inl rfl⟩
  rw [hstack, leafCvs_nil]
  exact .empty

end

/-! ### Merging and pushing -/

section

variable {p : Platform} (hp : p.Agree) {key : Words 8} {flags : UInt8}

/-- The output of a parent node, in the two orders of its arguments. -/
theorem parentOutput_eq (l r : Bytes 32) :
    parentOutput (l ++ r) key flags = parentOf key flags (l, r) := rfl

include hp

/-- The merge loop is `mergeStack` on the stack, and touches nothing else. -/
theorem hasherMergeLoop_eq {h : Hasher} (hfits : h.cvStackLen.toNat ≤ 55) {target : ℕ} (ht : 1 ≤ target ∨ h.cvStackLen.toNat = 0) :
    ∃ h', hasherMergeLoop p h target = some h' ∧
      h'.stack = mergeStack (parentCv h.key h.chunk.flags) target h.stack ∧
      h'.key = h.key ∧ h'.chunk = h.chunk ∧ h'.cvStackLen.toNat ≤ 55 := by
  induction hn : h.cvStackLen.toNat using Nat.strong_induction_on generalizing h with
  | _ n ih =>
    rw [hasherMergeLoop]
    by_cases hgt : h.cvStackLen.toNat > target
    · -- at least two entries: the top two become their parent
      obtain ⟨len, hlen⟩ : ∃ len, h.cvStackLen.toNat = len + 2 :=
        ⟨h.cvStackLen.toNat - 2, by omega⟩
      obtain ⟨b, hb, hstack⟩ := stackOf_succ h.cvStack (show len + 1 < 55 by omega)
      obtain ⟨a, ha, hrest⟩ := stackOf_succ h.cvStack (show len < 55 by omega)
      obtain ⟨cvStack, hstore, hpush⟩ := stackOf_store h.cvStack (show len < 55 by omega)
        (parentCv h.key h.chunk.flags a b)
      have hdec : (h.cvStackLen - 1).toNat = len + 1 := by
        have := h.cvStackLen.toNat_lt
        simp only [UInt8.toNat_sub, UInt8.toNat_one]
        omega
      rw [if_pos hgt, hlen, checkedSub_eq_some (by omega), Nat.add_sub_cancel]
      simp only [Option.bind_eq_bind, Option.bind_some]
      rw [ha, hb]
      simp only [Option.bind_some]
      rw [outputChainingValue_eq hp, parentOutput_eq,
        show (parentOf h.key h.chunk.flags (a, b)).cv = parentCv h.key h.chunk.flags a b from rfl,
        hstore]
      simp only [Option.bind_some]
      obtain ⟨h', heq, hst, hk, hc, hf⟩ := ih (len + 1) (by omega)
        (h := { h with cvStack, cvStackLen := h.cvStackLen - 1 })
        (by rw [hdec]; omega) (by rw [hdec]; omega) hdec
      refine ⟨h', heq, ?_, hk, hc, hf⟩
      rw [hst, Hasher.stack, Hasher.stack, hdec, hlen, hpush, hstack, hrest]
      conv_rhs => rw [mergeStack]
      rw [if_pos (by rw [stackOf_length (by omega)]; omega)]
    · rw [if_neg hgt]
      refine ⟨h, rfl, ?_, rfl, rfl, hfits⟩
      have hlen : h.stack.length = h.cvStackLen.toNat := stackOf_length hfits
      rcases hs : h.stack with _ | ⟨b, _ | ⟨a, stack⟩⟩
      · rw [mergeStack.eq_def]
      · rw [mergeStack.eq_def]
      · rw [hs] at hlen
        simp only [List.length_cons] at hlen
        rw [mergeStack, if_neg (by omega)]

/-- Merging with the leaf count as total settles the stack. -/
theorem hasherMergeCvStack_holds {h : Hasher} {es : List ℕ} {leaves : List (Bytes 32)}
    (hs : h.StackHolds key flags es leaves) (hpend : Pending es)
    (hlt : leaves.length < 2 ^ 64) :
    ∃ h' es', hasherMergeCvStack p h (UInt64.ofNat leaves.length) = some h' ∧
      h'.StackHolds key flags es' leaves ∧ Settled es' ∧ h'.chunk = h.chunk := by
  have hpop : popcnt (UInt64.ofNat leaves.length) = leaves.length.bitIndices.length := by
    rw [popcnt, UInt64.toNat_ofNat', Nat.mod_eq_of_lt hlt]
  have htarget : 1 ≤ leaves.length.bitIndices.length ∨ h.cvStackLen.toNat = 0 := by
    by_cases h0 : leaves.length = 0
    · right
      have hcount := hs.covers.length_leaves
      rw [hs.length_eq]
      cases es with
      | nil => rfl
      | cons e es =>
        have he := Nat.two_pow_pos e
        rw [leafCount_cons] at hcount
        omega
    · left
      refine List.length_pos_iff.mpr fun hnil => h0 ?_
      rw [← Nat.sum_map_two_pow_bitIndices leaves.length, hnil]
      rfl
  obtain ⟨h', heq, hst, hk, hc, hf⟩ := hasherMergeLoop_eq hp hs.fits htarget
  obtain ⟨es', hcov, hset⟩ := mergeStack_covers hs.covers hpend
  rw [hasherMergeCvStack, hpop]
  refine ⟨h', es', heq, ⟨hk.trans hs.key_eq, ?_, hf, ?_⟩, hset, hc⟩
  · rw [hc, hs.flags_eq]
  · rw [hst, hs.key_eq, hs.flags_eq]
    exact hcov

/-- **Pushing an aligned subtree**: the stack is settled first, and the new entry is no
larger than any other. -/
theorem hasherPushCv_holds {h : Hasher} {es : List ℕ} {leaves block : List (Bytes 32)} {e : ℕ}
    (hs : h.StackHolds key flags es leaves) (hpend : Pending es) (hlt : leaves.length < 2 ^ 54)
    (hb : block.length = 2 ^ e) (hdvd : 2 ^ e ∣ leaves.length) :
    ∃ h' es', hasherPushCv p h (treeRoot (parentCv key flags) block)
        (UInt64.ofNat leaves.length) = some h' ∧
      h'.StackHolds key flags (e :: es') (leaves ++ block) ∧ Pending (e :: es') ∧
      (leaves ≠ [] → es' ≠ []) ∧ h'.chunk = h.chunk := by
  obtain ⟨h1, es1, heq, hs1, hset, hc⟩ := hasherMergeCvStack_holds hp hs hpend (by omega)
  have hcount := hs1.covers.length_leaves
  have hlen : h1.cvStackLen.toNat ≤ 54 := by
    rw [hs1.length_eq]
    exact hset.length_le (by omega)
  obtain ⟨cvStack, hstore, hpush⟩ := stackOf_store h1.cvStack
    (show h1.cvStackLen.toNat < 55 by omega) (treeRoot (parentCv key flags) block)
  have hinc : (h1.cvStackLen + 1).toNat = h1.cvStackLen.toNat + 1 := by
    simp only [UInt8.toNat_add, UInt8.toNat_one]
    omega
  refine ⟨{ h1 with cvStack, cvStackLen := h1.cvStackLen + 1 }, es1, ?_, ?_, ?_, ?_, hc⟩
  · rw [hasherPushCv, heq]
    simp only [Option.bind_eq_bind, Option.bind_some]
    rw [hstore]
    rfl
  · refine ⟨hs1.key_eq, hs1.flags_eq, by rw [hinc]; omega, ?_⟩
    rw [Hasher.stack, hinc, hpush]
    exact .push hs1.covers hb
  · exact hset.push (hset.le_of_dvd (by rwa [← hcount]))
  · intro hne hnil
    rw [hnil, leafCount_nil] at hcount
    exact hne (List.length_eq_zero_iff.mp hcount)

/-! ### `blake3_hasher_update_base` -/

/-- Finishing a partial chunk: either the input is used up, or the chunk is complete and
its value pushed. -/
theorem hasherFinishChunk_holds {h : Hasher} {whole tail : List UInt8} {n : ℕ} {es : List ℕ}
    (hh : h.Holds key flags whole tail n es) (hset : tail ≠ [] → Settled es)
    {input : List UInt8} (hne : input ≠ [])
    (hlt : whole.length + tail.length + input.length < 2 ^ 64) :
    ∃ h' rest, hasherFinishChunk p h input = some (h', rest) ∧
      ((rest = [] ∧ tail ≠ [] ∧ h'.Holds key flags whole (tail ++ input) n es) ∨
        ∃ taken n' es', input = taken ++ rest ∧ rest ≠ [] ∧
          h'.Holds key flags (whole ++ tail ++ taken) [] n' es') := by
  have hfits := hh.fits
  have hcount := hh.leaves_length
  have hwhole := hh.length
  rw [hasherFinishChunk, hh.chunk.len]
  by_cases h0 : tail.length > 0
  · -- a partial chunk
    set take := if 1024 - tail.length > input.length then input.length else 1024 - tail.length
      with htake
    have hmin : take = min (1024 - tail.length) input.length := by
      rw [htake]
      split_ifs <;> omega
    have hfirst : (input.take take).length = take := by
      rw [List.length_take]
      omega
    obtain ⟨chunk, hupd, habs⟩ := chunkStateUpdate_absorbed hp hh.chunk
      (show tail.length + (input.take take).length ≤ 1024 by omega)
    have hflags := habs.flags_eq
    have hcounter := habs.counter
    have hstack : ({ h with chunk } : Hasher).StackHolds key flags es
        (leafCvs key flags 0 whole) :=
      ⟨hh.stack.key_eq, hflags, hh.stack.fits, hh.stack.covers⟩
    rw [if_pos h0, checkedSub_eq_some hfits]
    simp only [Option.bind_eq_bind, Option.bind_some, ← htake]
    rw [readSlice_eq_some (by omega), List.drop_zero]
    simp only [Option.bind_some]
    rw [hupd]
    simp only [Option.bind_some]
    by_cases hrest : (input.drop take).length > 0
    · -- the chunk is complete and more follows: its value is pushed
      rw [List.length_drop] at hrest
      have hfull : (tail ++ input.take take).length = 1024 := by
        rw [List.length_append]
        omega
      have hleaf : (chunkOutput key flags n (tail ++ input.take take)).cv =
          treeRoot (parentCv key flags) (leafCvs key flags n (tail ++ input.take take)) := by
        rw [leafCvs_chunk key flags (by omega) (by omega), treeRoot_singleton]
      have hleaves : (leafCvs key flags n (tail ++ input.take take)).length = 2 ^ 0 := by
        rw [leafCvs_length, hfull]
        rfl
      obtain ⟨h', es', hpush, hs', hpend', -, hc'⟩ := hasherPushCv_holds hp (e := 0) hstack
        hh.pending (by omega) hleaves (by simp)
      rw [if_pos (by rw [List.length_drop]; omega), outputChainingValue_eq hp,
        chunkStateOutput_eq habs, hcounter, hleaf]
      rw [hcount] at hpush
      simp only [hpush, Option.bind_some]
      refine ⟨_, input.drop take, rfl, .inr ⟨input.take take, n + 1, 0 :: es',
        (List.take_append_drop take input).symm, ?_, ?_, ?_, by simp, ?_, hpend'⟩⟩
      · exact List.ne_nil_of_length_pos (by rw [List.length_drop]; omega)
      · rw [List.append_assoc, List.length_append, hfull, hwhole]
        ring
      · have hreset := chunkStateReset_absorbed (show h'.chunk.flags = flags by rw [hc', hflags])
          key (n + 1)
        rw [UInt64.ofNat_add] at hreset
        rwa [hs'.key_eq, hc', hcounter, ← hc']
      · refine ⟨hs'.key_eq, hs'.flags_eq, hs'.fits, ?_⟩
        rw [List.append_assoc, leafCvs_append key flags hwhole, Nat.zero_add]
        exact hs'.covers
    · rw [if_neg hrest]
      have hnil : input.drop take = [] := List.length_eq_zero_iff.mp (by omega)
      have hall : input.take take = input := by
        conv_rhs => rw [← List.take_append_drop take input, hnil, List.append_nil]
      rw [hall] at habs hfirst
      refine ⟨_, _, rfl, .inl ⟨hnil, List.length_pos_iff.mp h0, hwhole, habs, ?_, hstack,
        hh.pending⟩⟩
      rw [List.length_append]
      omega
  · rw [if_neg h0]
    obtain rfl : tail = [] := List.length_eq_zero_iff.mp (by omega)
    refine ⟨h, input, rfl, .inr ⟨[], n, es, rfl, hne, ?_⟩⟩
    rwa [List.append_nil, List.append_nil]

omit hp in
/-- The mask test of the shrinking loop is divisibility. -/
theorem mask_eq_zero_iff {j n : ℕ} (hj : 1024 * 2 ^ j < 2 ^ 64) (hn : 1024 * n < 2 ^ 64) :
    UInt64.ofNat (1024 * 2 ^ j - 1) &&& UInt64.ofNat (1024 * n) = 0 ↔ 2 ^ j ∣ n := by
  have hpow : 1024 * 2 ^ j = 2 ^ (10 + j) := by
    rw [pow_add]
    rfl
  rw [← UInt64.toNat_inj, UInt64.toNat_and, UInt64.toNat_ofNat', UInt64.toNat_ofNat',
    Nat.mod_eq_of_lt (by omega), Nat.mod_eq_of_lt hn, hpow, Nat.and_comm,
    Nat.and_two_pow_sub_one_eq_mod, ← hpow, Nat.mul_mod_mul_left, Nat.dvd_iff_mod_eq_zero]
  show 1024 * (n % 2 ^ j) = 0 ↔ n % 2 ^ j = 0
  omega

omit hp in
/-- The shrinking loop ends with a power-of-two number of chunks that divides the count. -/
theorem shrinkSubtreeLen_eq {j n : ℕ} (hj : 1024 * 2 ^ j < 2 ^ 64) (hn : 1024 * n < 2 ^ 64) :
    ∃ k, k ≤ j ∧ 2 ^ k ∣ n ∧
      shrinkSubtreeLen (1024 * 2 ^ j) (UInt64.ofNat (1024 * n)) = some (1024 * 2 ^ k) := by
  induction j with
  | zero =>
    refine ⟨0, le_refl 0, by simp, ?_⟩
    rw [shrinkSubtreeLen, if_neg (by simp), if_neg]
    exact not_not.mpr ((mask_eq_zero_iff hj hn).mpr (by simp))
  | succ j ih =>
    have h2j := Nat.two_pow_pos j
    rw [shrinkSubtreeLen, if_neg (by rw [pow_succ]; omega)]
    by_cases hdvd : 2 ^ (j + 1) ∣ n
    · rw [if_neg (not_not.mpr ((mask_eq_zero_iff hj hn).mpr hdvd))]
      exact ⟨j + 1, le_refl _, hdvd, rfl⟩
    · rw [pow_succ] at hj
      obtain ⟨k, hk, hkdvd, heq⟩ := ih (by omega)
      rw [if_pos fun h0 => hdvd ((mask_eq_zero_iff (by rwa [pow_succ]) hn).mp h0),
        show 1024 * 2 ^ (j + 1) / 2 = 1024 * 2 ^ j by rw [pow_succ]; omega]
      exact ⟨k, by omega, hkdvd, heq⟩

omit hp in
/-- The same from the largest power of two in the input. -/
theorem shrinkSubtreeLen_roundDown {n len : ℕ} (h : 1024 < len)
    (hlt : 1024 * n + len < 2 ^ 64) :
    ∃ k, shrinkSubtreeLen (roundDownToPowerOf2 len) (UInt64.ofNat (1024 * n)) =
        some (1024 * 2 ^ k) ∧ 1024 * 2 ^ k ≤ len ∧ 2 ^ k ∣ n := by
  obtain ⟨j, hj⟩ : ∃ j, len.log2 = 10 + j := by
    have h10 : 10 ≤ len.log2 := (Nat.le_log2 (by omega)).mpr (by omega)
    exact ⟨len.log2 - 10, by omega⟩
  have hround : roundDownToPowerOf2 len = 1024 * 2 ^ j := by
    rw [roundDownToPowerOf2_eq (by omega), hj, pow_add]
    rfl
  have hle : 1024 * 2 ^ j ≤ len := by
    rw [← hround, roundDownToPowerOf2_eq (by omega)]
    exact Nat.log2_self_le (by omega)
  obtain ⟨k, hk, hdvd, hshrink⟩ := shrinkSubtreeLen_eq (j := j) (n := n) (by omega) (by omega)
  have hkj : 2 ^ k ≤ 2 ^ j := Nat.pow_le_pow_right (by omega) hk
  refine ⟨k, ?_, by omega, hdvd⟩
  rw [hround]
  exact hshrink

theorem hasherPushChunk_holds {h : Hasher} {whole : List UInt8} {n : ℕ} {es : List ℕ}
    (hh : h.Holds key flags whole [] n es) {subtree : List UInt8} (hlen : subtree.length = 1024)
    (hlt : n < 2 ^ 54) :
    ∃ h' es', hasherPushChunk p h subtree = some h' ∧
      h'.StackHolds key flags es' (leafCvs key flags 0 (whole ++ subtree)) ∧ Pending es' ∧
      h'.chunk = h.chunk := by
  have hcount := hh.leaves_length
  have hleaves : (leafCvs key flags n subtree).length = 2 ^ 0 := by
    rw [leafCvs_length, hlen]
    rfl
  obtain ⟨cs, hupd, habs⟩ := chunkStateUpdate_absorbed hp (chunkStateInit_absorbed key flags n)
    (show ([] : List UInt8).length + subtree.length ≤ 1024 by simp; omega)
  rw [List.nil_append] at habs
  have hleaf : (chunkOutput key flags n subtree).cv =
      treeRoot (parentCv key flags) (leafCvs key flags n subtree) := by
    rw [leafCvs_chunk key flags (by omega) (by omega), treeRoot_singleton]
  obtain ⟨h', es', hpush, hs', hpend', -, hc'⟩ := hasherPushCv_holds hp (e := 0) hh.stack
    hh.pending (by omega) hleaves (by simp)
  rw [hcount] at hpush
  refine ⟨h', 0 :: es', ?_, ?_, hpend', hc'⟩
  · rw [hasherPushChunk, hh.stack.key_eq, hh.stack.flags_eq, hh.chunk.counter, hupd]
    simp only [Option.bind_eq_bind, Option.bind_some]
    rw [outputChainingValue_eq hp, chunkStateOutput_eq habs, habs.counter, hleaf, hpush]
  · rw [leafCvs_append key flags hh.length, Nat.zero_add]
    exact hs'

theorem hasherPushSubtree_holds {h : Hasher} {whole : List UInt8} {n : ℕ} {es : List ℕ}
    (hh : h.Holds key flags whole [] n es) {subtree : List UInt8} {k : ℕ}
    (hlen : subtree.length = 1024 * 2 ^ (k + 1)) (hdvd : 2 ^ (k + 1) ∣ n)
    (hlt : n + 2 ^ (k + 1) < 2 ^ 54) :
    ∃ h' es', hasherPushSubtree p h subtree (2 ^ (k + 1)) = some h' ∧
      h'.StackHolds key flags es' (leafCvs key flags 0 (whole ++ subtree)) ∧ Pending es' ∧
      2 ≤ es'.length ∧ h'.chunk = h.chunk := by
  have h2k := Nat.two_pow_pos k
  have hpow : 2 ^ (k + 1) = 2 * 2 ^ k := by ring
  have hcount := hh.leaves_length
  -- the two halves of the subtree
  have hl : (subtree.take (1024 * 2 ^ k)).length = 1024 * 2 ^ k := by
    rw [List.length_take]
    omega
  have hsplit := leafCvs_append key flags (i := n) hl (subtree.drop (1024 * 2 ^ k))
  rw [List.take_append_drop] at hsplit
  set l := leafCvs key flags n (subtree.take (1024 * 2 ^ k)) with hldef
  set r := leafCvs key flags (n + 2 ^ k) (subtree.drop (1024 * 2 ^ k)) with hrdef
  have hll : l.length = 2 ^ k := by
    rw [hldef, leafCvs_length, hl]
    omega
  have hrl : r.length = 2 ^ k := by
    rw [hrdef, leafCvs_length, List.length_drop]
    omega
  have hpair := compressSubtreeToParentNode_eq hp key flags n
    (show 1024 < subtree.length by omega)
  rw [hsplit, topPair_append _ hll (by omega) (by omega)] at hpair
  -- push the left one, then the right one
  obtain ⟨h1, es1, hpush1, hs1, hpend1, -, hc1⟩ := hasherPushCv_holds hp hh.stack hh.pending
    (by omega) hll (by rw [hcount]; exact (pow_dvd_pow 2 (Nat.le_succ k)).trans hdvd)
  have hcount1 : (leafCvs key flags 0 whole ++ l).length = n + 2 ^ k := by
    rw [List.length_append, hcount, hll]
  obtain ⟨h2, es2, hpush2, hs2, hpend2, hne2, hc2⟩ := hasherPushCv_holds hp hs1 hpend1
    (by omega) hrl (by
      rw [hcount1]
      exact Nat.dvd_add ((pow_dvd_pow 2 (Nat.le_succ k)).trans hdvd) (dvd_refl _))
  rw [hcount] at hpush1
  rw [hcount1, UInt64.ofNat_add] at hpush2
  refine ⟨h2, k :: es2, ?_, ?_, hpend2, ?_, hc2.trans hc1⟩
  · rw [hasherPushSubtree, hh.stack.key_eq, hh.stack.flags_eq, hh.chunk.counter, hpair]
    simp only [Option.bind_eq_bind, Option.bind_some, List.getElem?_cons_zero,
      List.getElem?_cons_succ]
    rw [hpush1, show 2 ^ (k + 1) / 2 = 2 ^ k by omega]
    simp only [Option.bind_some]
    rw [hc1, hh.chunk.counter, hpush2]
  · rw [leafCvs_append key flags hh.length, Nat.zero_add, hsplit, ← List.append_assoc]
    exact hs2
  · have hpos : es2 ≠ [] := hne2 (List.ne_nil_of_length_pos (by omega))
    have := List.length_pos_iff.mpr hpos
    rw [List.length_cons]
    omega

/-- **One round of the update loop** absorbs an aligned power-of-two number of chunks. -/
theorem hasherUpdateStep_holds {h : Hasher} {whole : List UInt8} {n : ℕ} {es : List ℕ}
    (hh : h.Holds key flags whole [] n es) {input : List UInt8} (hbig : 1024 < input.length)
    (hlt : whole.length + input.length < 2 ^ 64) :
    ∃ h' k es', hasherUpdateStep p h input = some (h', 1024 * 2 ^ k) ∧
      1024 * 2 ^ k ≤ input.length ∧ 2 ^ k ∣ n ∧
      h'.Holds key flags (whole ++ input.take (1024 * 2 ^ k)) [] (n + 2 ^ k) es' ∧
      (input.length = 1024 * 2 ^ k → 2 ≤ es'.length) := by
  have hwhole := hh.length
  obtain ⟨k, hshrink, hle, hdvd⟩ := shrinkSubtreeLen_roundDown hbig
    (show 1024 * n + input.length < 2 ^ 64 by omega)
  have h2k := Nat.two_pow_pos k
  have hsub : (input.take (1024 * 2 ^ k)).length = 1024 * 2 ^ k := by
    rw [List.length_take]
    omega
  have hcount : h.chunk.chunkCounter * 1024 = UInt64.ofNat (1024 * n) := by
    rw [hh.chunk.counter, Nat.mul_comm, UInt64.ofNat_mul]
    rfl
  have hdiv : 1024 * 2 ^ k / 1024 = 2 ^ k := by omega
  -- what the state is after the pushes, whichever they were
  have hdone : ∀ {h1 : Hasher} {es1 : List ℕ},
      h1.StackHolds key flags es1 (leafCvs key flags 0 (whole ++ input.take (1024 * 2 ^ k))) →
      Pending es1 → h1.chunk = h.chunk →
      ({ h1 with chunk := { h1.chunk with
        chunkCounter := h1.chunk.chunkCounter + UInt64.ofNat (2 ^ k) } } : Hasher).Holds key flags
        (whole ++ input.take (1024 * 2 ^ k)) [] (n + 2 ^ k) es1 := by
    intro h1 es1 hs1 hpend1 hc1
    refine ⟨?_, ?_, by simp, ⟨hs1.key_eq, hs1.flags_eq, hs1.fits, hs1.covers⟩, hpend1⟩
    · rw [List.length_append, hsub, hwhole]
      ring
    · rw [hc1, hh.chunk.counter, ← UInt64.ofNat_add]
      exact hh.chunk.setCounter (n + 2 ^ k)
  rw [hasherUpdateStep, hcount, hshrink]
  simp only [Option.bind_eq_bind, Option.bind_some, hdiv]
  rw [readSlice_eq_some (by omega), List.drop_zero]
  simp only [Option.bind_some]
  cases k with
  | zero =>
    obtain ⟨h1, es1, hpush, hs1, hpend1, hc1⟩ := hasherPushChunk_holds hp hh hsub (by omega)
    rw [if_pos (by simp), hpush]
    refine ⟨_, 0, es1, rfl, by omega, hdvd, hdone hs1 hpend1 hc1, fun hlen => ?_⟩
    rw [pow_zero] at hlen
    omega
  | succ k =>
    have hpow : 2 ^ (k + 1) = 2 * 2 ^ k := by ring
    have h2k' := Nat.two_pow_pos k
    obtain ⟨h1, es1, hpush, hs1, hpend1, htwo, hc1⟩ := hasherPushSubtree_holds hp hh hsub hdvd
      (by omega)
    rw [if_neg (by omega), hpush]
    exact ⟨_, k + 1, es1, rfl, by omega, hdvd, hdone hs1 hpend1 hc1, fun _ => htwo⟩

/-- All rounds: what is left is at most one chunk, and if it is nothing, the stack was left
unmerged. -/
theorem hasherUpdateLoop_holds {h : Hasher} {whole : List UInt8} {n : ℕ} {es : List ℕ}
    (hh : h.Holds key flags whole [] n es) {input : List UInt8} (hne : input ≠ [])
    (hlt : whole.length + input.length < 2 ^ 64) :
    ∃ h' taken rest n' es', hasherUpdateLoop p h input = some (h', rest) ∧
      input = taken ++ rest ∧ rest.length ≤ 1024 ∧
      h'.Holds key flags (whole ++ taken) [] n' es' ∧ (rest = [] → 2 ≤ es'.length) := by
  induction hn : input.length using Nat.strong_induction_on generalizing h whole n es input with
  | _ len ih =>
    rw [hasherUpdateLoop]
    by_cases hbig : input.length > 1024
    · obtain ⟨h1, k, es1, hstep, hle, -, hh1, htwo⟩ := hasherUpdateStep_holds hp hh hbig hlt
      have h2k := Nat.two_pow_pos k
      have hsplit := List.take_append_drop (1024 * 2 ^ k) input
      rw [if_pos hbig, hstep]
      dsimp only
      rw [if_pos (by omega)]
      by_cases hrest : input.drop (1024 * 2 ^ k) = []
      · have hlen : input.length = 1024 * 2 ^ k := by
          have := congrArg List.length hrest
          rw [List.length_drop, List.length_nil] at this
          omega
        rw [hasherUpdateLoop, hrest, if_neg (by simp)]
        exact ⟨h1, input.take (1024 * 2 ^ k), [], _, es1, rfl, by rw [← hrest, hsplit], by simp,
          hh1, fun _ => htwo hlen⟩
      · have hlen : (whole ++ input.take (1024 * 2 ^ k)).length
            + (input.drop (1024 * 2 ^ k)).length < 2 ^ 64 := by
          rw [List.length_append, List.length_take, List.length_drop]
          omega
        obtain ⟨h2, taken, rest, n2, es2, hloop, htaken, hrest2, hh2, htwo2⟩ :=
          ih (input.drop (1024 * 2 ^ k)).length (by rw [List.length_drop]; omega) hh1 hrest hlen rfl
        refine ⟨h2, input.take (1024 * 2 ^ k) ++ taken, rest, n2, es2, hloop, ?_, hrest2, ?_, htwo2⟩
        · rw [List.append_assoc, ← htaken, hsplit]
        · rwa [← List.append_assoc]
    · rw [if_neg hbig]
      refine ⟨h, [], input, n, es, rfl, rfl, by omega, ?_, fun hnil => absurd hnil hne⟩
      rwa [List.append_nil]

/-- **Updating is absorbing**, however the message was cut, for less than `2 ^ 64` bytes. -/
theorem blake3HasherUpdate_absorbed {h : Hasher} {m : List UInt8} (hm : h.Absorbed key flags m)
    {input : List UInt8} (hlt : m.length + input.length < 2 ^ 64) :
    ∃ h', blake3HasherUpdate p h input = some h' ∧ h'.Absorbed key flags (m ++ input) := by
  obtain ⟨whole, tail, n, es, rfl, hh, hset, htwo⟩ := hm
  rw [List.length_append] at hlt
  rw [blake3HasherUpdate]
  by_cases h0 : input.length = 0
  · obtain rfl := List.length_eq_zero_iff.mp h0
    rw [if_pos h0, List.append_nil]
    exact ⟨h, rfl, whole, tail, n, es, rfl, hh, hset, htwo⟩
  have hne : input ≠ [] := fun hnil => h0 (List.length_eq_zero_iff.mpr hnil)
  obtain ⟨h1, rest, hfin, hor⟩ := hasherFinishChunk_holds hp hh hset hne hlt
  rw [if_neg h0, hfin]
  simp only [Option.bind_eq_bind, Option.bind_some]
  rcases hor with ⟨rfl, htail, hh1⟩ | ⟨taken, n1, es1, rfl, hrest, hh1⟩
  · -- everything went into the partial chunk
    rw [hasherUpdateLoop, if_neg (by simp)]
    simp only [Option.bind_some]
    rw [if_neg (by simp)]
    exact ⟨h1, rfl, whole, tail ++ input, n, es, List.append_assoc _ _ _, hh1, fun _ => hset htail,
      fun hnil => absurd (List.append_eq_nil_iff.mp hnil).1 htail⟩
  · rw [List.length_append] at hlt
    obtain ⟨h2, taken2, rest2, n2, es2, hloop, rfl, hle, hh2, htwo2⟩ := hasherUpdateLoop_holds hp
      hh1 hrest (by rw [List.length_append, List.length_append]; omega)
    rw [hloop]
    simp only [Option.bind_some]
    by_cases hrest2 : rest2.length > 0
    · -- the last part goes into the chunk state, and the stack is merged
      obtain ⟨chunk, hupd, habs⟩ := chunkStateUpdate_absorbed hp hh2.chunk
        (show ([] : List UInt8).length + rest2.length ≤ 1024 by simpa using hle)
      have hstack : ({ h2 with chunk } : Hasher).StackHolds key flags es2
          (leafCvs key flags 0 (whole ++ tail ++ taken ++ taken2)) :=
        ⟨hh2.stack.key_eq, habs.flags_eq, hh2.stack.fits, hh2.stack.covers⟩
      have hcount := hh2.leaves_length
      have hlen := hh2.length
      simp only [List.length_append] at hlen hlt
      obtain ⟨h3, es3, hmerge, hs3, hset3, hc3⟩ := hasherMergeCvStack_holds hp hstack hh2.pending
        (by omega)
      rw [hcount, ← habs.counter] at hmerge
      rw [if_pos hrest2, hupd]
      simp only [Option.bind_some]
      refine ⟨h3, hmerge, _, rest2, n2, es3, ?_, ⟨hh2.length, ?_, hle, hs3, hset3.pending⟩,
        fun _ => hset3, fun hnil => ?_⟩
      · simp only [List.append_assoc]
      · rw [hc3]
        exact habs
      · rw [hnil] at hrest2
        exact absurd hrest2 (by simp)
    · obtain rfl : rest2 = [] := List.length_eq_zero_iff.mp (by omega)
      rw [if_neg hrest2]
      refine ⟨h2, rfl, _, [], n2, es2, ?_, hh2, fun h => absurd rfl h, fun _ => .inr (htwo2 rfl)⟩
      simp only [List.append_nil, List.append_assoc]

/-! ### `blake3_hasher_finalize_seek` -/

/-- The roll-up loop is `rollPair` on the stack. -/
theorem finalizeLoop_parent {h : Hasher} (pair : Bytes 32 × Bytes 32) {j : ℕ} (hj : j ≤ 55) :
    finalizeLoop p h (parentOf h.key h.chunk.flags pair) j =
      some (parentOf h.key h.chunk.flags
        (rollPair (parentCv h.key h.chunk.flags) pair (stackOf h.cvStack j))) := by
  induction j generalizing pair with
  | zero => rw [finalizeLoop, stackOf_zero, rollPair]
  | succ j ih =>
    obtain ⟨left, hload, hstack⟩ := stackOf_succ h.cvStack (show j < 55 by omega)
    rw [finalizeLoop, hload, hstack, rollPair]
    simp only [Option.bind_eq_bind, Option.bind_some]
    rw [outputChainingValue_eq hp, parentOutput_eq, ih _ (by omega)]
    rfl

/-- The same from any output: the first round makes a parent of it. -/
theorem finalizeLoop_eq {h : Hasher} (o : Output) {j : ℕ} {left : Bytes 32}
    {stack : List (Bytes 32)} (hj : j ≤ 55) (hstack : stackOf h.cvStack j = left :: stack) :
    finalizeLoop p h o j =
      some (parentOf h.key h.chunk.flags
        (rollPair (parentCv h.key h.chunk.flags) (left, o.cv) stack)) := by
  cases j with
  | zero =>
    rw [stackOf_zero] at hstack
    exact absurd hstack (by simp)
  | succ j =>
    obtain ⟨left', hload, hcons⟩ := stackOf_succ h.cvStack (show j < 55 by omega)
    rw [hcons, List.cons.injEq] at hstack
    obtain ⟨rfl, rfl⟩ := hstack
    rw [finalizeLoop, hload]
    simp only [Option.bind_eq_bind, Option.bind_some]
    rw [outputChainingValue_eq hp, parentOutput_eq, finalizeLoop_parent hp _ (by omega)]

/-- A partial chunk rolled up over a settled stack. -/
theorem finalizeLoop_chunk {h : Hasher} {whole tail : List UInt8} {n : ℕ} {es : List ℕ}
    (hh : h.Holds key flags whole tail n es) (hset : Settled es) (hes : es ≠ [])
    (htail : tail ≠ []) :
    finalizeLoop p h (chunkOutput key flags n tail) h.cvStackLen.toNat =
      some (subtreeOutput key flags 0 (whole ++ tail)) := by
  have hpos := List.length_pos_iff.mpr htail
  have hcount := hh.leaves_length
  have hcov := hh.stack.covers
  have hfits := hh.fits
  generalize hst : h.stack = stack at hcov
  generalize hlv : leafCvs key flags 0 whole = leaves at hcov hcount
  cases hcov with
  | empty => exact absurd rfl hes
  | @push rest es leaves block e hcov hb =>
    have he := Nat.two_pow_pos e
    have hn : 0 < n := by
      rw [List.length_append, hb] at hcount
      omega
    have hleaf : (chunkOutput key flags n tail).cv =
        treeRoot (parentCv key flags) [(chunkOutput key flags n tail).cv] := by
      rw [treeRoot_singleton]
    rw [finalizeLoop_eq hp _ hh.stack.fits hst, hh.stack.key_eq, hh.stack.flags_eq, hleaf,
      rollPair_eq_topPair_append hcov hset hb (by simp)
        (by rw [List.length_singleton]; omega), subtreeOutput_eq]
    · rw [leafCvs_append key flags hh.length, hlv, Nat.zero_add, leafCvs_chunk key flags hpos hfits]
    · rw [List.length_append, hh.length]
      omega

/-- A stack that was left unmerged, rolled up from its top two entries. -/
theorem finalizeLoop_stack {h : Hasher} {whole : List UInt8} {n : ℕ} {es : List ℕ}
    (hh : h.Holds key flags whole [] n es) (htwo : 2 ≤ es.length) :
    ∃ len l r, h.cvStackLen.toNat = len + 2 ∧ load h.cvStack len = some l ∧
      load h.cvStack (len + 1) = some r ∧
      finalizeLoop p h (parentOf h.key h.chunk.flags (l, r)) len =
        some (subtreeOutput key flags 0 whole) := by
  have hlen := hh.stack.length_eq
  have hfits := hh.stack.fits
  obtain ⟨len, hlen2⟩ : ∃ len, h.cvStackLen.toNat = len + 2 :=
    ⟨h.cvStackLen.toNat - 2, by omega⟩
  obtain ⟨r, hr, hstack⟩ := stackOf_succ h.cvStack (show len + 1 < 55 by omega)
  obtain ⟨l, hl, hrest⟩ := stackOf_succ h.cvStack (show len < 55 by omega)
  refine ⟨len, l, r, hlen2, hl, hr, ?_⟩
  have hcov := hh.stack.covers
  have hpend := hh.pending
  rw [Hasher.stack, hlen2, hstack, hrest] at hcov
  generalize hlv : leafCvs key flags 0 whole = leaves at hcov
  rw [finalizeLoop_parent hp _ (by omega), hh.stack.key_eq, hh.stack.flags_eq]
  cases hcov with
  | push hcov hrb =>
    cases hcov with
    | @push _ es leaves lb e hcov hlb =>
      rename_i rb e'
      have he := Nat.two_pow_pos e
      have he' := Nat.two_pow_pos e'
      have hle : e' ≤ e := hpend.2 e' (by simp) e (by simp)
      have hpow : 2 ^ e' ≤ 2 ^ e := Nat.pow_le_pow_right (by omega) hle
      rw [rollPair_eq_topPair_append hcov hpend.1 hlb (by omega) (by omega), ← hlv,
        subtreeOutput_eq]
      have hcount := hh.leaves_length
      rw [hlv, List.length_append, List.length_append, hlb, hrb] at hcount
      rw [hh.length]
      omega

/-- **Finalizing writes the root output of the reference tree** over the bytes absorbed,
from the byte `seek` on, at the destination and nowhere else. -/
theorem blake3HasherFinalizeSeek_eq {h : Hasher} {m : List UInt8} (hm : h.Absorbed key flags m)
    (seek : UInt64) {out : List UInt8} {pos outLen : ℕ} (hlen : pos + outLen ≤ out.length) :
    blake3HasherFinalizeSeek p h seek out pos outLen =
      writeSlice out pos (rootSlice (subtreeOutput key flags 0 m) seek.toNat outLen) := by
  obtain ⟨whole, tail, n, es, rfl, hh, hset, htwo⟩ := hm
  have hes := hh.stack.length_eq
  rw [blake3HasherFinalizeSeek]
  by_cases h0 : outLen = 0
  · rw [if_pos h0, h0, rootSlice_zero, writeSlice_nil (by omega)]
  rw [if_neg h0]
  by_cases hstack : h.cvStackLen = 0
  · -- no whole chunk is in the stack: the chunk is the root
    have hnil : es = [] := by
      rw [hstack] at hes
      exact List.length_eq_zero_iff.mp hes.symm
    have hcount := hh.leaves_length
    rw [hh.stack.covers.length_leaves, hnil, leafCount_nil] at hcount
    obtain rfl : whole = [] := List.length_eq_zero_iff.mp (by rw [hh.length]; omega)
    rw [if_pos hstack, chunkStateOutput_eq hh.chunk, ← hcount, outputRootBytes_eq hp _ _ _ _ _ hlen,
      List.nil_append, subtreeOutput, if_pos hh.fits]
  · have hne : es ≠ [] := by
      rintro rfl
      exact hstack (UInt8.toNat_inj.mp hes)
    rw [if_neg hstack, finalizeStart, hh.chunk.len]
    by_cases htail : tail.length > 0
    · have htail' : tail ≠ [] := List.length_pos_iff.mp htail
      rw [if_pos htail, chunkStateOutput_eq hh.chunk]
      simp only [Option.bind_eq_bind, Option.bind_some]
      rw [finalizeLoop_chunk hp hh (hset htail') hne htail']
      exact outputRootBytes_eq hp _ _ _ _ _ hlen
    · obtain rfl : tail = [] := List.length_eq_zero_iff.mp (by omega)
      have htwo' : 2 ≤ es.length := by
        rcases htwo rfl with hn | htwo
        · -- an empty message leaves an empty stack
          have hcount := hh.leaves_length
          rw [hh.stack.covers.length_leaves, hn] at hcount
          cases es with
          | nil => exact absurd rfl hne
          | cons e es =>
            have he := Nat.two_pow_pos e
            rw [leafCount_cons] at hcount
            omega
        · exact htwo
      obtain ⟨len, l, r, hlen2, hl, hr, hroll⟩ := finalizeLoop_stack hp hh htwo'
      rw [if_neg htail, hlen2, checkedSub_eq_some (by omega), Nat.add_sub_cancel]
      simp only [Option.bind_eq_bind, Option.bind_some]
      rw [hl, hr]
      simp only [Option.bind_some]
      rw [parentOutput_eq, hroll, List.append_nil]
      exact outputRootBytes_eq hp _ _ _ _ _ hlen

theorem blake3HasherFinalize_eq {h : Hasher} {m : List UInt8} (hm : h.Absorbed key flags m)
    {out : List UInt8} {pos outLen : ℕ} (hlen : pos + outLen ≤ out.length) :
    blake3HasherFinalize p h out pos outLen =
      writeSlice out pos (digest key flags m outLen) :=
  blake3HasherFinalizeSeek_eq hp hm 0 hlen

end

end Blake3Kmp
