/-
Stale cells of the hasher's stack are never read.

`blake3_hasher_init` overwrites the key, the chunk state and the stack length
of the memory it is given, not the stack's cells.  Two hashers that differ only
in cells above their stack length (`Hasher.Same`) therefore come from different
memory, and no function of the hasher can tell them apart: every function
returns the same bytes from both, or is undefined on both, and leaves them the
same in this sense.

* `hasherInitBase_same` — whatever memory a hasher is made in;
* `blake3HasherUpdate_same`, `blake3HasherReset_same`,
  `blake3HasherFinalizeSeek_same` — the entry points.

No kernel needs to be right for this.
-/
import Blake3Kmp.Hasher

open CheckedMemory

namespace Blake3Kmp

/-- Equal up to the cells above the stack length. -/
structure Hasher.Same (h h' : Hasher) : Prop where
  key : h.key = h'.key
  chunk : h.chunk = h'.chunk
  cvStackLen : h.cvStackLen = h'.cvStackLen
  cells : ∀ i < h.cvStackLen.toNat, load h.cvStack i = load h'.cvStack i

theorem Hasher.Same.refl (h : Hasher) : h.Same h := ⟨rfl, rfl, rfl, fun _ _ => rfl⟩

theorem Hasher.Same.symm {h h' : Hasher} (hs : h.Same h') : h'.Same h :=
  ⟨hs.key.symm, hs.chunk.symm, hs.cvStackLen.symm, fun i hi =>
    (hs.cells i (by rwa [hs.cvStackLen])).symm⟩

theorem Hasher.Same.trans {h h' h'' : Hasher} (hs : h.Same h') (hs' : h'.Same h'') :
    h.Same h'' :=
  ⟨hs.key.trans hs'.key, hs.chunk.trans hs'.chunk, hs.cvStackLen.trans hs'.cvStackLen,
    fun i hi => (hs.cells i hi).trans (hs'.cells i (by rwa [← hs.cvStackLen]))⟩

/-- Another chunk state, the same one in both. -/
theorem Hasher.Same.withChunk {h h' : Hasher} (hs : h.Same h') (chunk : ChunkState) :
    ({ h with chunk } : Hasher).Same { h' with chunk } :=
  ⟨hs.key, rfl, hs.cvStackLen, hs.cells⟩

theorem hasherInitBase_same (h h' : Hasher) (key : Words 8) (flags : UInt8) :
    (hasherInitBase h key flags).Same (hasherInitBase h' key flags) :=
  ⟨rfl, rfl, rfl, fun i hi => absurd hi (Nat.not_lt_zero i)⟩

theorem blake3HasherReset_same {h h' : Hasher} (hs : h.Same h') :
    (blake3HasherReset h).Same (blake3HasherReset h') := by
  refine ⟨hs.key, ?_, rfl, fun i hi => absurd hi (Nat.not_lt_zero i)⟩
  show chunkStateReset h.chunk h.key 0 = chunkStateReset h'.chunk h'.key 0
  rw [hs.key, hs.chunk]

section

variable (p : Platform) {h h' : Hasher}

/-- The merge loop reads the two cells below the top, and writes the lower one. -/
theorem hasherMergeLoop_same (hs : h.Same h') (target : ℕ) :
    Option.Rel Hasher.Same (hasherMergeLoop p h target) (hasherMergeLoop p h' target) := by
  induction hn : h.cvStackLen.toNat using Nat.strong_induction_on generalizing h h' with
  | _ n ih =>
    rw [hasherMergeLoop, hasherMergeLoop, ← hs.cvStackLen]
    by_cases hgt : h.cvStackLen.toNat > target
    · rw [if_pos hgt, if_pos hgt]
      by_cases h2 : 2 ≤ h.cvStackLen.toNat
      · rw [checkedSub_eq_some h2]
        simp only [Option.bind_eq_bind, Option.bind_some]
        rw [← hs.cells _ (by omega), ← hs.cells _ (by omega), ← hs.key, ← hs.chunk]
        refine rel_bind (rel_refl _) fun left _ hl => ?_
        refine rel_bind (rel_refl _) fun right _ hr => ?_
        subst hl hr
        refine rel_bind (rel_store _ _ _ _) fun ys ys' hst => ?_
        have hdec : (h.cvStackLen - 1).toNat = h.cvStackLen.toNat - 1 := by
          have := h.cvStackLen.toNat_lt
          simp only [UInt8.toNat_sub, UInt8.toNat_one]
          omega
        refine ih _ (by omega) ⟨rfl, rfl, rfl, fun i hi => ?_⟩ hdec
        have hlt : i < h.cvStackLen.toNat := by
          simp only [hdec] at hi
          omega
        show load ys i = load ys' i
        rw [load_store hst.1, load_store hst.2, hs.cells i hlt]
      · have hsub : checkedSub h.cvStackLen.toNat 2 = none := if_neg h2
        rw [hsub]
        exact .none
    · rw [if_neg hgt, if_neg hgt]
      exact .some hs

theorem hasherPushCv_same (hs : h.Same h') (newCv : Bytes 32) (chunkCounter : UInt64) :
    Option.Rel Hasher.Same (hasherPushCv p h newCv chunkCounter)
      (hasherPushCv p h' newCv chunkCounter) := by
  refine rel_bind (hasherMergeLoop_same p hs _) fun h1 h1' hs1 => ?_
  rw [← hs1.cvStackLen]
  refine rel_bind (rel_store _ _ _ _) fun ys ys' hst => .some ⟨hs1.key, hs1.chunk, rfl, ?_⟩
  intro i hi
  show load ys i = load ys' i
  rw [load_store hst.1, load_store hst.2]
  by_cases htop : i = h1.cvStackLen.toNat
  · rw [if_pos htop, if_pos htop]
  · rw [if_neg htop, if_neg htop]
    refine hs1.cells i ?_
    have := h1.cvStackLen.toNat_lt
    simp only [UInt8.toNat_add, UInt8.toNat_one] at hi
    omega

/-- Two results that agree on what is not the hasher. -/
def SameWith {α : Type} (r r' : Hasher × α) : Prop := r.1.Same r'.1 ∧ r.2 = r'.2

theorem hasherFinishChunk_same (hs : h.Same h') (input : List UInt8) :
    Option.Rel SameWith (hasherFinishChunk p h input) (hasherFinishChunk p h' input) := by
  rw [hasherFinishChunk, hasherFinishChunk, ← hs.chunk]
  by_cases h0 : chunkStateLen h.chunk > 0
  · rw [if_pos h0, if_pos h0]
    refine rel_bind (rel_refl _) fun room _ hroom => ?_
    subst hroom
    generalize (if room > input.length then input.length else room) = take
    refine rel_bind (rel_refl _) fun first _ hfirst => ?_
    subst hfirst
    refine rel_bind (rel_refl _) fun chunk _ hchunk => ?_
    subst hchunk
    dsimp only
    split
    · refine rel_bind (hasherPushCv_same p (hs.withChunk chunk) _ _) fun h1 h1' hs1 => ?_
      rw [← hs1.key, ← hs1.chunk]
      exact .some ⟨⟨rfl, rfl, hs1.cvStackLen, hs1.cells⟩, rfl⟩
    · exact .some ⟨hs.withChunk chunk, rfl⟩
  · rw [if_neg h0, if_neg h0]
    exact .some ⟨hs, rfl⟩

theorem hasherPushChunk_same (hs : h.Same h') (subtree : List UInt8) :
    Option.Rel Hasher.Same (hasherPushChunk p h subtree) (hasherPushChunk p h' subtree) := by
  rw [hasherPushChunk, hasherPushChunk, ← hs.key, ← hs.chunk]
  refine rel_bind (rel_refl _) fun cs _ hcs => ?_
  subst hcs
  exact hasherPushCv_same p hs _ _

theorem hasherPushSubtree_same (hs : h.Same h') (subtree : List UInt8) (subtreeChunks : ℕ) :
    Option.Rel Hasher.Same (hasherPushSubtree p h subtree subtreeChunks)
      (hasherPushSubtree p h' subtree subtreeChunks) := by
  rw [hasherPushSubtree, hasherPushSubtree, ← hs.key, ← hs.chunk]
  refine rel_bind (rel_refl _) fun cvPair _ hpair => ?_
  subst hpair
  refine rel_bind (rel_refl _) fun left _ hleft => ?_
  subst hleft
  refine rel_bind (rel_refl _) fun right _ hright => ?_
  subst hright
  refine rel_bind (hasherPushCv_same p hs _ _) fun h1 h1' hs1 => ?_
  rw [← hs1.chunk]
  exact hasherPushCv_same p hs1 _ _

theorem hasherUpdateStep_same (hs : h.Same h') (input : List UInt8) :
    Option.Rel SameWith (hasherUpdateStep p h input) (hasherUpdateStep p h' input) := by
  rw [hasherUpdateStep, hasherUpdateStep, ← hs.chunk]
  refine rel_bind (rel_refl _) fun subtreeLen _ hlen => ?_
  subst hlen
  refine rel_bind (rel_refl _) fun subtree _ hsub => ?_
  subst hsub
  have hpush : Option.Rel Hasher.Same
      (if subtreeLen ≤ 1024 then hasherPushChunk p h subtree
        else hasherPushSubtree p h subtree (subtreeLen / 1024))
      (if subtreeLen ≤ 1024 then hasherPushChunk p h' subtree
        else hasherPushSubtree p h' subtree (subtreeLen / 1024)) := by
    split
    · exact hasherPushChunk_same p hs subtree
    · exact hasherPushSubtree_same p hs subtree _
  refine rel_bind hpush fun h1 h1' hs1 => ?_
  rw [← hs1.chunk]
  exact .some ⟨⟨hs1.key, rfl, hs1.cvStackLen, hs1.cells⟩, rfl⟩

theorem hasherUpdateLoop_same (hs : h.Same h') (input : List UInt8) :
    Option.Rel SameWith (hasherUpdateLoop p h input) (hasherUpdateLoop p h' input) := by
  induction hn : input.length using Nat.strong_induction_on generalizing h h' input with
  | _ n ih =>
    rw [hasherUpdateLoop, hasherUpdateLoop]
    by_cases hbig : input.length > 1024
    · rw [if_pos hbig, if_pos hbig]
      have hstep := hasherUpdateStep_same p hs input
      generalize hasherUpdateStep p h input = r, hasherUpdateStep p h' input = r' at hstep ⊢
      cases hstep with
      | none => exact .none
      | @some a b hab =>
        obtain ⟨h1, len⟩ := a
        obtain ⟨h1', len'⟩ := b
        obtain ⟨hs1, hlen⟩ := hab
        simp only at hs1 hlen ⊢
        subst hlen
        by_cases hpos : 0 < len
        · rw [if_pos hpos, if_pos hpos]
          exact ih _ (by rw [List.length_drop]; omega) hs1 (input.drop len) rfl
        · rw [if_neg hpos, if_neg hpos]
          exact .none
    · rw [if_neg hbig, if_neg hbig]
      exact .some ⟨hs, rfl⟩

/-- **Updating two hashers that differ in stale cells leaves them so.** -/
theorem blake3HasherUpdate_same (hs : h.Same h') (input : List UInt8) :
    Option.Rel Hasher.Same (blake3HasherUpdate p h input) (blake3HasherUpdate p h' input) := by
  rw [blake3HasherUpdate, blake3HasherUpdate]
  by_cases h0 : input.length = 0
  · rw [if_pos h0, if_pos h0]
    exact .some hs
  rw [if_neg h0, if_neg h0]
  refine rel_bind (hasherFinishChunk_same p hs input) ?_
  rintro ⟨h1, rest⟩ ⟨h1', _⟩ ⟨hs1, rfl⟩
  refine rel_bind (hasherUpdateLoop_same p hs1 rest) ?_
  rintro ⟨h2, rest2⟩ ⟨h2', _⟩ ⟨hs2, rfl⟩
  simp only at hs2 ⊢
  by_cases hrest : rest2.length > 0
  · rw [if_pos hrest, if_pos hrest, ← hs2.chunk]
    refine rel_bind (rel_refl _) fun chunk _ hchunk => ?_
    subst hchunk
    exact hasherMergeLoop_same p (hs2.withChunk chunk) _
  · rw [if_neg hrest, if_neg hrest]
    exact .some hs2

theorem finalizeLoop_same (hs : h.Same h') (o : Output) {j : ℕ} (hj : j ≤ h.cvStackLen.toNat) :
    finalizeLoop p h o j = finalizeLoop p h' o j := by
  induction j generalizing o with
  | zero => rfl
  | succ j ih =>
    rw [finalizeLoop, finalizeLoop, hs.cells j (by omega), ← hs.key, ← hs.chunk]
    congr 1
    funext left
    exact ih _ (by omega)

theorem finalizeStart_le {o : Output} {j : ℕ} (hst : finalizeStart h = some (o, j)) :
    j ≤ h.cvStackLen.toNat := by
  rw [finalizeStart] at hst
  by_cases hlen : chunkStateLen h.chunk > 0
  · rw [if_pos hlen, Option.some_inj, Prod.mk.injEq] at hst
    exact hst.2.ge
  · rw [if_neg hlen] at hst
    simp only [Option.bind_eq_bind, Option.bind_eq_some_iff, Option.some_inj, Prod.mk.injEq] at hst
    obtain ⟨c, hc, -, -, -, -, -, rfl⟩ := hst
    by_cases h2 : 2 ≤ h.cvStackLen.toNat
    · rw [checkedSub_eq_some h2, Option.some_inj] at hc
      omega
    · rw [checkedSub, if_neg h2] at hc
      exact absurd hc (by simp)

/-- **Finalizing cannot see stale cells.** -/
theorem blake3HasherFinalizeSeek_same (hs : h.Same h') (seek : UInt64) (out : List UInt8)
    (pos outLen : ℕ) :
    blake3HasherFinalizeSeek p h seek out pos outLen =
      blake3HasherFinalizeSeek p h' seek out pos outLen := by
  have hstart : finalizeStart h = finalizeStart h' := by
    rw [finalizeStart, finalizeStart, ← hs.chunk, ← hs.cvStackLen, ← hs.key]
    by_cases h2 : 2 ≤ h.cvStackLen.toNat
    · rw [checkedSub_eq_some h2]
      simp only [Option.bind_eq_bind, Option.bind_some]
      rw [hs.cells _ (by omega), hs.cells _ (by omega)]
    · rw [show checkedSub h.cvStackLen.toNat 2 = none from if_neg h2]
      rfl
  rw [blake3HasherFinalizeSeek, blake3HasherFinalizeSeek, ← hs.cvStackLen, ← hs.chunk, ← hstart]
  cases hst : finalizeStart h with
  | none => rfl
  | some oj =>
    obtain ⟨o, j⟩ := oj
    simp only [Option.bind_eq_bind, Option.bind_some]
    rw [finalizeLoop_same p hs o (finalizeStart_le hst)]

end

end Blake3Kmp
