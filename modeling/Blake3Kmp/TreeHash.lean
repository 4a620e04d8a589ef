/-
Left-full binary hash trees, and the stack that builds one lazily.

A list of leaf values `vs` has one left-full tree: a single leaf is its own
root, and more leaves split so that the left side is the largest power of two
that leaves at least one leaf on the right.  `treeRoot node vs` is the value of
its root, `topPair node vs` the values of the root's two children.

* `treeRoot_append`, `topPair_append` — the split is recognised by its lengths:
  a power of two on the left, at most as many leaves on the right;
* `treeRoot_pairUp`, `topPair_pairUp` — replacing neighbours by their parents,
  an odd leaf left over, changes neither the root nor its children;
* `Covers stack es leaves` — a stack of subtree roots (top first) that stands
  for `leaves`, one power of two of them an entry;
* `mergeStack_covers` — merging until the stack holds as many entries as the
  leaf count has 1-bits leaves the strictly decreasing stack (`Settled`), from
  any stack whose top entry is the only one that may still be merged
  (`Pending`);
* `rollPair_eq_topPair` — folding a settled stack from its top over the last
  block gives the children of the root of all leaves.

Nothing here knows what a leaf or a node is.
-/
import Mathlib.Data.Nat.BitIndices
import Mathlib.Data.Nat.Log
import Mathlib.Data.Finset.Card
import Mathlib.Tactic.Ring

namespace TreeHash

/-! ### The split of a left-full tree -/

/-- The number of leaves on the left of a tree with `n ≥ 2` leaves: the largest power
of two below `n`. -/
def split (n : ℕ) : ℕ := 2 ^ (n - 1).log2

theorem split_pos (n : ℕ) : 0 < split n := Nat.two_pow_pos _

theorem split_lt {n : ℕ} (h : 2 ≤ n) : split n < n := by
  have := Nat.log2_self_le (n := n - 1) (by omega)
  rw [split]
  omega

theorem le_two_mul_split (n : ℕ) : n ≤ 2 * split n := by
  have := Nat.lt_log2_self (n := n - 1)
  rw [pow_succ] at this
  rw [split]
  omega

theorem split_add {k r : ℕ} (hpos : 0 < r) (hle : r ≤ 2 ^ k) : split (2 ^ k + r) = 2 ^ k := by
  have hk := Nat.two_pow_pos k
  rw [split, (Nat.log2_eq_iff (by omega)).mpr]
  rw [pow_succ]
  omega

variable {V : Type} [Inhabited V] (node : V → V → V)

/-- The root value of the left-full tree over `vs`. -/
def treeRoot : List V → V
  | [] => default
  | [v] => v
  | v :: w :: vs =>
    node (treeRoot ((v :: w :: vs).take (split (vs.length + 2))))
      (treeRoot ((v :: w :: vs).drop (split (vs.length + 2))))
  termination_by vs => vs.length
  decreasing_by
  · have := split_lt (n := vs.length + 2) (by omega)
    simp only [List.length_take, List.length_cons]
    omega
  · have := split_pos (vs.length + 2)
    simp only [List.length_drop, List.length_cons]
    omega

/-- The values of the two children of the root, for two leaves or more. -/
def topPair (vs : List V) : V × V :=
  (treeRoot node (vs.take (split vs.length)), treeRoot node (vs.drop (split vs.length)))

@[simp] theorem treeRoot_nil : treeRoot node [] = default := by rw [treeRoot]

@[simp] theorem treeRoot_singleton (v : V) : treeRoot node [v] = v := by rw [treeRoot]

theorem treeRoot_eq_topPair {vs : List V} (h : 2 ≤ vs.length) :
    treeRoot node vs = node (topPair node vs).1 (topPair node vs).2 := by
  match vs, h with
  | v :: w :: vs, _ =>
    rw [treeRoot]
    simp [topPair]

theorem topPair_append {l r : List V} {k : ℕ} (hl : l.length = 2 ^ k) (hpos : 0 < r.length)
    (hle : r.length ≤ 2 ^ k) : topPair node (l ++ r) = (treeRoot node l, treeRoot node r) := by
  have hs : split (l ++ r).length = l.length := by
    rw [List.length_append, hl, split_add hpos hle]
  rw [topPair, hs, List.take_left, List.drop_left]

theorem treeRoot_append {l r : List V} {k : ℕ} (hl : l.length = 2 ^ k) (hpos : 0 < r.length)
    (hle : r.length ≤ 2 ^ k) :
    treeRoot node (l ++ r) = node (treeRoot node l) (treeRoot node r) := by
  have hk := Nat.two_pow_pos k
  rw [treeRoot_eq_topPair node (by rw [List.length_append]; omega),
    topPair_append node hl hpos hle]

@[simp] theorem topPair_pair (a b : V) : topPair node [a, b] = (a, b) := by
  have := topPair_append node (l := [a]) (r := [b]) (k := 0) rfl (by simp) (by simp)
  simpa using this

omit [Inhabited V] in
/-- Two leaves or more split into a left power of two and a right of at most as many. -/
theorem exists_split {vs : List V} (h : 2 ≤ vs.length) :
    ∃ (l r : List V) (k : ℕ), vs = l ++ r ∧ l.length = 2 ^ k ∧ 0 < r.length ∧ r.length ≤ 2 ^ k := by
  have h1 := split_lt h
  have h2 := le_two_mul_split vs.length
  refine ⟨vs.take (split vs.length), vs.drop (split vs.length), (vs.length - 1).log2,
    (List.take_append_drop _ _).symm, ?_, ?_, ?_⟩
  · rw [List.length_take, ← split]
    omega
  · rw [List.length_drop]
    omega
  · rw [List.length_drop, ← split]
    omega

/-! ### One layer of parents -/

/-- Replace neighbours by their parents; an odd value is left as it is. -/
def pairUp : List V → List V
  | a :: b :: vs => node a b :: pairUp vs
  | vs => vs

omit [Inhabited V] in
theorem pairUp_length (vs : List V) : (pairUp node vs).length = (vs.length + 1) / 2 := by
  fun_induction pairUp node vs with
  | case1 a b vs ih =>
    simp only [List.length_cons, ih]
    omega
  | case2 vs h =>
    match vs with
    | [] => simp
    | [_] => simp
    | a :: b :: vs => exact absurd rfl (h a b vs)

omit [Inhabited V] in
theorem pairUp_append {l : List V} (r : List V) (h : l.length % 2 = 0) :
    pairUp node (l ++ r) = pairUp node l ++ pairUp node r := by
  fun_induction pairUp node l with
  | case1 a b vs ih =>
    simp only [List.length_cons] at h
    simp only [List.cons_append, pairUp, ih (by omega)]
  | case2 vs hv =>
    match vs with
    | [] => simp
    | [_] => simp at h
    | a :: b :: vs => exact absurd rfl (hv a b vs)

omit [Inhabited V] in
/-- The layer above a split is the split of the layer above. -/
theorem exists_pairUp_split {vs : List V} (h : 3 ≤ vs.length) :
    ∃ (l r : List V) (k : ℕ), vs = l ++ r ∧ pairUp node vs = pairUp node l ++ pairUp node r ∧
      l.length = 2 ^ (k + 1) ∧ 0 < r.length ∧ r.length ≤ 2 ^ (k + 1) ∧
      (pairUp node l).length = 2 ^ k ∧ 0 < (pairUp node r).length ∧
      (pairUp node r).length ≤ 2 ^ k := by
  obtain ⟨l, r, k, rfl, hl, hpos, hle⟩ := exists_split (show 2 ≤ vs.length by omega)
  rw [List.length_append] at h
  obtain ⟨k, rfl⟩ : ∃ j, k = j + 1 := by
    rcases k with _ | k
    · rw [pow_zero] at hl hle
      omega
    · exact ⟨k, rfl⟩
  have hpow : 2 ^ (k + 1) = 2 * 2 ^ k := by ring
  refine ⟨l, r, k, rfl, pairUp_append node r (by omega), hl, hpos, hle, ?_, ?_, ?_⟩
  all_goals
    rw [pairUp_length]
    omega

/-- One layer of parents keeps the root. -/
theorem treeRoot_pairUp (vs : List V) : treeRoot node (pairUp node vs) = treeRoot node vs := by
  induction hn : vs.length using Nat.strong_induction_on generalizing vs with
  | _ n ih =>
    by_cases h : 3 ≤ vs.length
    · obtain ⟨l, r, k, rfl, hp, hl, hpos, hle, hl', hpos', hle'⟩ := exists_pairUp_split node h
      rw [List.length_append] at hn
      have hk := Nat.two_pow_pos (k + 1)
      rw [hp, treeRoot_append node hl' hpos' hle', treeRoot_append node hl hpos hle,
        ih l.length (by omega) l rfl, ih r.length (by omega) r rfl]
    · match vs with
      | [] => rfl
      | [v] => rfl
      | [a, b] => rw [treeRoot_eq_topPair node (show 2 ≤ [a, b].length by simp)]; simp [pairUp]
      | _ :: _ :: _ :: _ => simp at h

/-- One layer of parents keeps the root's children, while there are two of them. -/
theorem topPair_pairUp {vs : List V} (h : 3 ≤ vs.length) :
    topPair node (pairUp node vs) = topPair node vs := by
  obtain ⟨l, r, k, rfl, hp, hl, hpos, hle, hl', hpos', hle'⟩ := exists_pairUp_split node h
  rw [hp, topPair_append node hl' hpos' hle', topPair_append node hl hpos hle,
    treeRoot_pairUp, treeRoot_pairUp]

/-! ### The stack of subtree roots -/

/-- `Covers node stack es leaves`: the stack, top first, holds the roots of consecutive
blocks of `leaves`, the top one last, and the block of an entry with exponent `e` has
`2 ^ e` leaves. -/
inductive Covers : List V → List ℕ → List V → Prop
  | empty : Covers [] [] []
  | push {stack : List V} {es : List ℕ} {leaves block : List V} {e : ℕ} :
      Covers stack es leaves → block.length = 2 ^ e →
      Covers (treeRoot node block :: stack) (e :: es) (leaves ++ block)

/-- Every entry is smaller than the one below it: nothing is left to merge. -/
def Settled (es : List ℕ) : Prop := es.Pairwise (· < ·)

/-- Only the top entry may be as large as the one below it. -/
def Pending (es : List ℕ) : Prop := Settled es.tail ∧ ∀ e ∈ es.head?, ∀ e' ∈ es.tail, e ≤ e'

theorem Settled.pending {es : List ℕ} (h : Settled es) : Pending es := by
  rcases es with _ | ⟨e, es⟩
  · exact ⟨List.Pairwise.nil, by simp⟩
  · obtain ⟨h1, h2⟩ := List.pairwise_cons.mp h
    exact ⟨h2, fun x hx e' he' => by
      simp only [List.head?_cons, Option.mem_some_iff] at hx
      subst hx
      exact (h1 e' he').le⟩

/-- An entry no larger than any of a settled stack may be pushed on it. -/
theorem Settled.push {es : List ℕ} (h : Settled es) {e : ℕ} (hle : ∀ e' ∈ es, e ≤ e') :
    Pending (e :: es) :=
  ⟨h, fun x hx e' he' => by
    simp only [List.head?_cons, Option.mem_some_iff] at hx
    subst hx
    exact hle e' he'⟩

theorem Pending.settled_or {e e' : ℕ} {es : List ℕ} (h : Pending (e :: e' :: es)) :
    Settled (e :: e' :: es) ∨ e = e' := by
  obtain ⟨h1, h2⟩ := h
  simp only [List.tail_cons, List.head?_cons, Option.mem_some_iff, forall_eq'] at h1 h2
  have hle := h2 e' (by simp)
  rcases hle.lt_or_eq with hlt | heq
  · refine .inl (List.pairwise_cons.mpr ⟨fun x hx => ?_, h1⟩)
    rcases List.mem_cons.mp hx with rfl | hx
    · exact hlt
    · exact hlt.trans ((List.pairwise_cons.mp h1).1 x hx)
  · exact .inr heq

/-- The number of leaves of blocks with exponents `es`. -/
def leafCount (es : List ℕ) : ℕ := (es.map (2 ^ ·)).sum

@[simp] theorem leafCount_nil : leafCount [] = 0 := rfl

@[simp] theorem leafCount_cons (e : ℕ) (es : List ℕ) :
    leafCount (e :: es) = 2 ^ e + leafCount es := by simp [leafCount]

/-- A settled stack has one entry for each 1-bit of its leaf count. -/
theorem Settled.bitIndices_eq {es : List ℕ} (h : Settled es) :
    (leafCount es).bitIndices = es := by
  rw [leafCount, Nat.bitIndices_sum_map_two_pow (List.sortedLT_iff_pairwise.mpr h)]

theorem Settled.length_eq {es : List ℕ} (h : Settled es) :
    (leafCount es).bitIndices.length = es.length := by
  rw [h.bitIndices_eq]

/-- Merging two equal entries at the top keeps the stack pending. -/
theorem Pending.merge {e : ℕ} {es : List ℕ} (h : Pending (e :: e :: es)) :
    Pending ((e + 1) :: es) := by
  obtain ⟨h1, -⟩ := h
  obtain ⟨h2, h3⟩ := List.pairwise_cons.mp h1
  exact Settled.push h3 fun e' he' => h2 e' he'

theorem leafCount_merge (e : ℕ) (es : List ℕ) :
    leafCount ((e + 1) :: es) = leafCount (e :: e :: es) := by
  simp only [leafCount_cons]
  ring

theorem Pending.length_ge {es : List ℕ} (h : Pending es) :
    (leafCount es).bitIndices.length ≤ es.length := by
  induction hn : es.length using Nat.strong_induction_on generalizing es with
  | _ n ih =>
    match es with
    | [] => simp [← hn]
    | [e] => simp [← hn]
    | e :: e' :: es =>
      rcases h.settled_or with hs | rfl
      · exact (hs.length_eq.trans hn).le
      · have := ih ((e + 1) :: es).length (by simp [← hn]) h.merge rfl
        rw [leafCount_merge] at this
        simp only [List.length_cons] at this hn
        omega

theorem Pending.length_gt {e : ℕ} {es : List ℕ} (h : Pending (e :: e :: es)) :
    (leafCount (e :: e :: es)).bitIndices.length < es.length + 2 := by
  have := h.merge.length_ge
  rw [leafCount_merge] at this
  simp only [List.length_cons] at this
  omega

/-- A settled stack over fewer than `2 ^ k` leaves has at most `k` entries. -/
theorem Settled.length_le {es : List ℕ} (h : Settled es) {k : ℕ} (hlt : leafCount es < 2 ^ k) :
    es.length ≤ k := by
  have hnd : es.Nodup := h.imp fun hab => hab.ne
  have hsub : es.toFinset ⊆ Finset.range k := by
    intro e he
    rw [List.mem_toFinset] at he
    have hle : 2 ^ e ≤ leafCount es := List.le_sum_of_mem (List.mem_map_of_mem he)
    exact Finset.mem_range.mpr ((Nat.pow_lt_pow_iff_right (by omega)).mp (hle.trans_lt hlt))
  have := Finset.card_le_card hsub
  rwa [List.toFinset_card_of_nodup hnd, Finset.card_range] at this

/-- A power of two that divides the leaf count of a settled stack is no larger than any of
its blocks. -/
theorem Settled.le_of_dvd {es : List ℕ} (h : Settled es) {e : ℕ} (hdvd : 2 ^ e ∣ leafCount es) :
    ∀ e' ∈ es, e ≤ e' := by
  intro e' he'
  obtain ⟨q, hq⟩ := hdvd
  rw [← h.bitIndices_eq, Nat.mem_bitIndices, hq, Nat.testBit_two_pow_mul, Bool.and_eq_true] at he'
  exact of_decide_eq_true he'.1

variable {node}

theorem Covers.length_stack {stack : List V} {es : List ℕ} {leaves : List V}
    (h : Covers node stack es leaves) : stack.length = es.length := by
  induction h with
  | empty => rfl
  | push _ _ ih => simp [ih]

theorem Covers.length_leaves {stack : List V} {es : List ℕ} {leaves : List V}
    (h : Covers node stack es leaves) : leaves.length = leafCount es := by
  induction h with
  | empty => rfl
  | push _ hb ih => rw [List.length_append, ih, hb, leafCount_cons, Nat.add_comm]

/-- Two equal entries at the top may be replaced by their parent. -/
theorem Covers.merge {a b : V} {stack : List V} {e : ℕ} {es : List ℕ} {leaves : List V}
    (h : Covers node (b :: a :: stack) (e :: e :: es) leaves) :
    Covers node (node a b :: stack) ((e + 1) :: es) leaves := by
  obtain - | ⟨h1, hb⟩ := h
  obtain - | ⟨h2, ha⟩ := h1
  have hpos := Nat.two_pow_pos e
  rw [← treeRoot_append node ha (by omega) (by omega), List.append_assoc]
  exact .push h2 (by rw [List.length_append, ha, hb]; ring)

variable (node)

omit [Inhabited V] in
/-- While the stack holds more than `target` entries, replace the top two by their
parent, the lower one its left child. -/
def mergeStack (target : ℕ) : List V → List V
  | b :: a :: stack =>
    if target < stack.length + 2 then mergeStack target (node a b :: stack)
    else b :: a :: stack
  | stack => stack
  termination_by stack => stack.length

variable {node}

/-- Lazy merging: from a pending stack, merging to the number of 1-bits of the leaf
count settles it. -/
theorem mergeStack_covers {stack : List V} {es : List ℕ} {leaves : List V}
    (h : Covers node stack es leaves) (hp : Pending es) :
    ∃ es', Covers node (mergeStack node leaves.length.bitIndices.length stack) es' leaves ∧
      Settled es' := by
  induction hn : stack.length using Nat.strong_induction_on generalizing stack es with
  | _ n ih =>
    match es, stack, h with
    | [], [], h => exact ⟨[], by rw [mergeStack.eq_def]; exact h, List.Pairwise.nil⟩
    | [e], [a], h => exact ⟨[e], by rw [mergeStack.eq_def]; exact h, List.pairwise_singleton _ _⟩
    | e :: e' :: es, b :: a :: stack, h =>
      have hlen := h.length_leaves
      have hst := h.length_stack
      simp only [List.length_cons] at hst hn
      rw [mergeStack]
      rcases hp.settled_or with hs | rfl
      · -- nothing to merge: the target is reached already
        have := hs.length_eq
        simp only [List.length_cons] at this
        rw [if_neg (by rw [hlen]; omega)]
        exact ⟨_, h, hs⟩
      · have := hp.length_gt
        rw [if_pos (by rw [hlen]; omega)]
        exact ih _ (by simp only [List.length_cons]; omega) h.merge hp.merge rfl

/-! ### The right edge -/

variable (node)

omit [Inhabited V] in
/-- Fold a stack, from its top, over the children of the last subtree's root. -/
def rollPair (pair : V × V) : List V → V × V
  | [] => pair
  | s :: stack => rollPair (s, node pair.1 pair.2) stack

variable {node}

/-- Rolling a settled stack up over the last block, no larger than the block on top,
gives the children of the root of all leaves. -/
theorem rollPair_eq_topPair {stack : List V} {es : List ℕ} {leaves : List V}
    (h : Covers node stack es leaves) (hs : Settled es) {block : List V}
    (h2 : 2 ≤ block.length) (hle : ∀ e ∈ es.head?, block.length ≤ 2 ^ e) :
    rollPair node (topPair node block) stack = topPair node (leaves ++ block) := by
  induction h generalizing block with
  | empty => rfl
  | @push stack es leaves blk e hc hb ih =>
    obtain ⟨h3, h4⟩ := List.pairwise_cons.mp hs
    have hblk : block.length ≤ 2 ^ e := hle e (by simp)
    rw [rollPair, ← treeRoot_eq_topPair node h2, ← topPair_append node hb (by omega) hblk,
      List.append_assoc]
    refine ih h4 (by rw [List.length_append]; omega) fun e' he' => ?_
    have hlt : e + 1 ≤ e' := h3 e' (List.mem_of_mem_head? he')
    calc (blk ++ block).length ≤ 2 ^ e + 2 ^ e := by rw [List.length_append, hb]; omega
      _ = 2 ^ (e + 1) := by ring
      _ ≤ 2 ^ e' := Nat.pow_le_pow_right (by omega) hlt

/-- The same from the two sides of the last subtree, the left one the block on top. -/
theorem rollPair_eq_topPair_append {stack : List V} {e : ℕ} {es : List ℕ} {leaves : List V}
    (h : Covers node stack es leaves) (hs : Settled (e :: es)) {l r : List V}
    (hl : l.length = 2 ^ e) (hpos : 0 < r.length) (hle : r.length ≤ 2 ^ e) :
    rollPair node (treeRoot node l, treeRoot node r) stack = topPair node (leaves ++ l ++ r) := by
  obtain ⟨h1, h2⟩ := List.pairwise_cons.mp hs
  have he := Nat.two_pow_pos e
  rw [← topPair_append node hl hpos hle, List.append_assoc]
  refine rollPair_eq_topPair h h2 (by rw [List.length_append]; omega) fun e' he' => ?_
  have hlt : e + 1 ≤ e' := h1 e' (List.mem_of_mem_head? he')
  calc (l ++ r).length ≤ 2 ^ e + 2 ^ e := by rw [List.length_append, hl]; omega
    _ = 2 ^ (e + 1) := by ring
    _ ≤ 2 ^ e' := Nat.pow_le_pow_right (by omega) hlt

end TreeHash
