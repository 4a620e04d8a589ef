/-
The other branches of the bit helpers of `blake3_impl.h`.

`highest_one` and `popcnt` have one body for each compiler.  `Compression.lean`
has what they are for; this file has what they compute.

* `highestOneClz`, `highestOneHalves`, `highestOneCascade` — the bodies of
  `highest_one`: an exclusive or with 63, two 32-bit scans, and six masks;
* `popcntLoop` — the body of `popcnt` that clears one bit at a time;
* `bitHelpers_agree` — the bodies agree, on every 64-bit word;
* `load32_store32`, `store32_load32` — what is stored is what is loaded, and the
  other way round, so that a chaining value is the same as words and as bytes.
-/
import Blake3Kmp.Compression
import Mathlib.Data.Nat.BitIndices

open CheckedMemory

namespace Blake3Kmp

/-! ### `highest_one` -/

/-- GCC and Clang: `63 ^ __builtin_clzll(x)`. -/
def highestOneClz (x : UInt64) : ℕ := 63 ^^^ x.toBitVec.clz.toNat

/-- `_BitScanReverse`, the index of the highest bit set of 32. -/
def bitScanReverse (x : UInt32) : ℕ := x.toNat.log2

/-- MSVC on 32-bit x86. -/
def highestOneHalves (x : UInt64) : ℕ :=
  if x >>> 32 != 0 then 32 + bitScanReverse (x >>> 32).toUInt32
  else bitScanReverse x.toUInt32

/-- `if(x & mask) { x >>= k; c += k; }`. -/
def halve (mask : UInt64) (k : ℕ) (s : UInt64 × ℕ) : UInt64 × ℕ :=
  if s.1 &&& mask != 0 then (s.1 >>> UInt64.ofNat k, s.2 + k) else s

/-- Any other compiler. -/
def highestOneCascade (x : UInt64) : ℕ :=
  let s := (x, 0)
  let s := halve 0xffffffff00000000 32 s
  let s := halve 0x00000000ffff0000 16 s
  let s := halve 0x000000000000ff00 8 s
  let s := halve 0x00000000000000f0 4 s
  let s := halve 0x000000000000000c 2 s
  if s.1 &&& 0x0000000000000002 != 0 then s.2 + 1 else s.2

/-- An exclusive or with 63 subtracts from it. -/
theorem xor_sixtyThree : ∀ l < 64, 63 ^^^ l = 63 - l := by decide

theorem highestOneClz_eq {x : UInt64} (hx : x ≠ 0) : highestOneClz x = highestOne x.toNat := by
  have hx' : x.toBitVec ≠ 0#64 := fun h => hx (UInt64.toBitVec_inj.mp h)
  have hlt : x.toBitVec.clz.toNat < 64 := by
    have h := BitVec.clz_lt_iff_ne_zero.mpr hx'
    rw [BitVec.lt_def] at h
    exact h
  -- the highest bit is the one below the leading zeros
  have hlow := BitVec.two_pow_sub_clz_le_toNat_of_ne_zero (by omega) hx'
  have hhigh := BitVec.toNat_lt_two_pow_sub_clz (x := x.toBitVec)
  have hne : x.toNat ≠ 0 := fun h => hx (UInt64.toNat_inj.mp h)
  have hlog : x.toNat.log2 = 63 - x.toBitVec.clz.toNat := by
    refine (Nat.log2_eq_iff hne).mpr ⟨?_, ?_⟩
    · calc 2 ^ (63 - x.toBitVec.clz.toNat) = 2 ^ (64 - 1 - x.toBitVec.clz.toNat) := rfl
        _ ≤ x.toBitVec.toNat := hlow
    · calc x.toBitVec.toNat < 2 ^ (64 - x.toBitVec.clz.toNat) := hhigh
        _ = 2 ^ (63 - x.toBitVec.clz.toNat + 1) := by congr 1; omega
  rw [highestOneClz, highestOne, hlog, xor_sixtyThree _ hlt]

/-- The highest bit of a number, by its upper half. -/
theorem log2_of_upper {n k : ℕ} (h : 2 ^ k ≤ n) : (n / 2 ^ k).log2 + k = n.log2 := by
  have hne : n ≠ 0 := by
    have := Nat.two_pow_pos k
    omega
  have hupper : n / 2 ^ k ≠ 0 := (Nat.div_pos h (Nat.two_pow_pos k)).ne'
  refine ((Nat.log2_eq_iff hne).mpr ⟨?_, ?_⟩).symm
  · rw [Nat.pow_add]
    exact (Nat.mul_le_mul_right _ (Nat.log2_self_le hupper)).trans (Nat.div_mul_le_self ..)
  · have hlt : n / 2 ^ k < 2 ^ ((n / 2 ^ k).log2 + 1) := Nat.lt_log2_self
    rw [Nat.div_lt_iff_lt_mul (Nat.two_pow_pos k), ← Nat.pow_add] at hlt
    rwa [show (n / 2 ^ k).log2 + k + 1 = (n / 2 ^ k).log2 + 1 + k by omega]

/-- One bit of the mask at `k` and above is set in `n`. -/
theorem and_mask_eq {n k : ℕ} (h : n < 2 ^ (k + k)) :
    n &&& ((2 ^ k - 1) <<< k) = n / 2 ^ k * 2 ^ k := by
  have hdiv : n / 2 ^ k < 2 ^ k := by
    rw [Nat.div_lt_iff_lt_mul (Nat.two_pow_pos k), ← Nat.pow_add]
    exact h
  refine Nat.eq_of_testBit_eq fun i => ?_
  rw [Nat.testBit_and, Nat.testBit_shiftLeft, Nat.testBit_two_pow_sub_one, Nat.testBit_mul_two_pow,
    Nat.testBit_div_two_pow]
  by_cases hi : k ≤ i
  · rw [show i - k + k = i by omega]
    by_cases hk : i - k < k
    · simp [hi, hk]
    · have hout : n.testBit i = false :=
        Nat.testBit_lt_two_pow (h.trans_le (Nat.pow_le_pow_right (by omega) (by omega)))
      simp [hout]
  · simp [hi]

/-- What one step of the cascade keeps: the highest bit is that of the rest plus the count, and
the rest is narrower. -/
theorem halve_spec (mask : UInt64) {k : ℕ} {s : UInt64 × ℕ} (hk : k < 64)
    (hmask : mask.toNat = (2 ^ k - 1) <<< k) (hs : s.1.toNat < 2 ^ (k + k)) :
    (halve mask k s).1.toNat < 2 ^ k ∧
      (halve mask k s).1.toNat.log2 + (halve mask k s).2 = s.1.toNat.log2 + s.2 := by
  have hand : (s.1 &&& mask).toNat = s.1.toNat / 2 ^ k * 2 ^ k := by
    rw [UInt64.toNat_and, hmask, and_mask_eq hs]
  rw [halve]
  by_cases hup : 2 ^ k ≤ s.1.toNat
  · have hpos : 0 < s.1.toNat / 2 ^ k := Nat.div_pos hup (Nat.two_pow_pos k)
    have hne : s.1 &&& mask ≠ 0 := by
      intro h
      rw [h] at hand
      have := Nat.mul_pos hpos (Nat.two_pow_pos k)
      have hzero : (0 : UInt64).toNat = 0 := rfl
      omega
    have hshift : (s.1 >>> UInt64.ofNat k).toNat = s.1.toNat / 2 ^ k := by
      rw [UInt64.toNat_shiftRight, UInt64.toNat_ofNat', Nat.shiftRight_eq_div_pow,
        Nat.mod_eq_of_lt (show k < 2 ^ 64 by omega), Nat.mod_eq_of_lt hk]
    rw [if_pos (bne_iff_ne.mpr hne)]
    refine ⟨?_, ?_⟩
    · show (s.1 >>> UInt64.ofNat k).toNat < _
      rw [hshift, Nat.div_lt_iff_lt_mul (Nat.two_pow_pos k), ← Nat.pow_add]
      exact hs
    · show (s.1 >>> UInt64.ofNat k).toNat.log2 + (s.2 + k) = _
      rw [hshift, ← log2_of_upper hup]
      omega
  · have hzero : s.1 &&& mask = 0 := by
      refine UInt64.toNat_inj.mp ?_
      rw [hand, Nat.div_eq_of_lt (by omega), Nat.zero_mul]
      rfl
    rw [if_neg (by rw [hzero]; decide)]
    exact ⟨by omega, rfl⟩

theorem log2_of_lt_two {n : ℕ} (h : n < 2) : n.log2 = 0 := by
  rcases n with _ | _ | n
  · rfl
  · rfl
  · omega

/-- The last step of the source leaves the word alone. -/
theorem halve_snd (mask : UInt64) (k : ℕ) (s : UInt64 × ℕ) :
    (halve mask k s).2 = if s.1 &&& mask != 0 then s.2 + k else s.2 := by
  rw [halve]
  split
  · rfl
  · rfl

theorem highestOneCascade_eq (x : UInt64) : highestOneCascade x = highestOne x.toNat := by
  obtain ⟨h32, hl32⟩ := halve_spec 0xffffffff00000000 (k := 32) (s := (x, 0))
    (by omega) rfl x.toNat_lt
  obtain ⟨h16, hl16⟩ := halve_spec 0x00000000ffff0000 (k := 16) (by omega) rfl h32
  obtain ⟨h8, hl8⟩ := halve_spec 0x000000000000ff00 (k := 8) (by omega) rfl h16
  obtain ⟨h4, hl4⟩ := halve_spec 0x00000000000000f0 (k := 4) (by omega) rfl h8
  obtain ⟨h2, hl2⟩ := halve_spec 0x000000000000000c (k := 2) (by omega) rfl h4
  obtain ⟨h1, hl1⟩ := halve_spec 0x0000000000000002 (k := 1) (by omega) rfl h2
  rw [hl2, hl4, hl8, hl16, hl32, log2_of_lt_two h1, halve_snd] at hl1
  rw [highestOneCascade, highestOne]
  simpa using hl1

theorem highestOneHalves_eq (x : UInt64) : highestOneHalves x = highestOne x.toNat := by
  have hlt := x.toNat_lt
  have hshift : (x >>> 32).toNat = x.toNat / 2 ^ 32 := by
    rw [UInt64.toNat_shiftRight, Nat.shiftRight_eq_div_pow]
    rfl
  rw [highestOneHalves, highestOne]
  by_cases hup : 2 ^ 32 ≤ x.toNat
  · have hne : x >>> 32 ≠ 0 := by
      intro h
      rw [h] at hshift
      have hzero : (0 : UInt64).toNat = 0 := rfl
      omega
    rw [if_pos (bne_iff_ne.mpr hne), bitScanReverse, UInt64.toNat_toUInt32, hshift,
      Nat.mod_eq_of_lt (by omega), ← log2_of_upper hup, Nat.add_comm]
  · have hzero : x >>> 32 = 0 := by
      refine UInt64.toNat_inj.mp ?_
      rw [hshift, Nat.div_eq_of_lt (by omega)]
      rfl
    rw [if_neg (by rw [hzero]; decide), bitScanReverse, UInt64.toNat_toUInt32,
      Nat.mod_eq_of_lt (by omega)]

/-! ### `popcnt` -/

theorem toNat_pred {x : UInt64} (hx : x ≠ 0) : (x - 1).toNat = x.toNat - 1 := by
  have hne : x.toNat ≠ 0 := fun h => hx (UInt64.toNat_inj.mp h)
  have hle : (1 : UInt64) ≤ x := by
    rw [UInt64.le_iff_toNat_le]
    show 1 ≤ x.toNat
    omega
  rw [UInt64.toNat_sub_of_le _ _ hle]
  rfl

/-- `x &= x - 1` makes `x` smaller. -/
theorem and_pred_lt {x : UInt64} (hx : x ≠ 0) : (x &&& (x - 1)).toNat < x.toNat := by
  have hne : x.toNat ≠ 0 := fun h => hx (UInt64.toNat_inj.mp h)
  have hle := Nat.and_le_right (n := x.toNat) (m := (x - 1).toNat)
  rw [UInt64.toNat_and]
  rw [toNat_pred hx] at hle ⊢
  omega

/-- `while (x != 0) { count += 1; x &= x - 1; }`. -/
def popcntLoop (count : ℕ) (x : UInt64) : ℕ :=
  if hx : x = 0 then count else popcntLoop (count + 1) (x &&& (x - 1))
termination_by x.toNat
decreasing_by exact and_pred_lt hx

/-- `x & (x - 1)` is `x` without its lowest bit. -/
theorem bitIndices_and_pred {n : ℕ} (hn : n ≠ 0) :
    (n &&& (n - 1)).bitIndices = n.bitIndices.tail := by
  induction n using Nat.strong_induction_on with
  | _ n ih =>
    obtain ⟨m, rfl | rfl⟩ := Nat.even_or_odd' n
    · -- the lowest bit is further up
      have hm : m ≠ 0 := by omega
      have hand : 2 * m &&& (2 * m - 1) = 2 * (m &&& (m - 1)) := by
        refine Nat.eq_of_testBit_eq fun i => ?_
        cases i with
        | zero => simp
        | succ i =>
          rw [Nat.testBit_and, Nat.testBit_succ, Nat.testBit_succ, Nat.testBit_succ,
            show 2 * m / 2 = m by omega, show (2 * m - 1) / 2 = m - 1 by omega,
            show 2 * (m &&& (m - 1)) / 2 = m &&& (m - 1) by omega, Nat.testBit_and]
      rw [hand, Nat.bitIndices_two_mul, Nat.bitIndices_two_mul, ih m (by omega) hm, List.map_tail]
    · have hand : (2 * m + 1) &&& (2 * m + 1 - 1) = 2 * m := by
        refine Nat.eq_of_testBit_eq fun i => ?_
        cases i with
        | zero => simp
        | succ i =>
          rw [Nat.testBit_and, Nat.testBit_succ, Nat.testBit_succ, Nat.testBit_succ,
            show (2 * m + 1) / 2 = m by omega, show (2 * m + 1 - 1) / 2 = m by omega,
            show 2 * m / 2 = m by omega, Bool.and_self]
      rw [hand, Nat.bitIndices_two_mul, Nat.bitIndices_two_mul_add_one]
      rfl

/-- The loop has run once for each bit set. -/
theorem popcntLoop_eq (count : ℕ) (x : UInt64) : popcntLoop count x = count + popcnt x := by
  induction count, x using popcntLoop.induct with
  | case1 count =>
    rw [popcntLoop, dif_pos rfl]
    rfl
  | case2 count x hx ih =>
    have hne : x.toNat ≠ 0 := fun h => hx (UInt64.toNat_inj.mp h)
    have hand : (x &&& (x - 1)).toNat = x.toNat &&& (x.toNat - 1) := by
      rw [UInt64.toNat_and, toNat_pred hx]
    have hbits : x.toNat.bitIndices ≠ [] := by
      intro h
      refine hne ?_
      rw [← Nat.sum_map_two_pow_bitIndices x.toNat, h]
      rfl
    have hlen := List.length_pos_of_ne_nil hbits
    rw [popcntLoop, dif_neg hx, ih, popcnt, popcnt, hand, bitIndices_and_pred hne,
      List.length_tail]
    omega

/-- **Every body of a helper computes the same**, on every word. -/
theorem bitHelpers_agree (x : UInt64) :
    (x ≠ 0 → highestOneClz x = highestOne x.toNat) ∧ highestOneHalves x = highestOne x.toNat ∧
      highestOneCascade x = highestOne x.toNat ∧ popcntLoop 0 x = popcnt x := by
  refine ⟨highestOneClz_eq, highestOneHalves_eq x, highestOneCascade_eq x, ?_⟩
  rw [popcntLoop_eq, Nat.zero_add]

theorem bitHelpers_agree_forty :
    highestOneClz 40 = highestOne (40 : UInt64).toNat ∧ popcntLoop 0 40 = popcnt 40 := by
  have h : (40 : UInt64) ≠ 0 := by decide
  obtain ⟨hclz, -, -, hpopcnt⟩ := bitHelpers_agree 40
  exact ⟨hclz h, hpopcnt⟩

/-! ### Loads and stores -/

/-- A byte at its place in a word: the place `k` holds its bits, and no other place does. -/
theorem testBit_shifted (b : UInt8) {s : UInt32} {k j t : ℕ} (hs : s.toNat = 8 * k) (hk : k < 4)
    (hj : j < 4) (ht : t < 8) :
    (b.toUInt32 <<< s).toNat.testBit (8 * j + t) = (decide (k = j) && b.toNat.testBit t) := by
  rw [UInt32.toNat_shiftLeft, Nat.mod_eq_of_lt (show s.toNat < 32 by omega), UInt8.toNat_toUInt32,
    Nat.testBit_mod_two_pow, Nat.testBit_shiftLeft, hs]
  rcases Nat.lt_trichotomy k j with hlt | rfl | hlt
  · -- above the byte
    have hout : b.toNat.testBit (8 * j + t - 8 * k) = false :=
      Nat.testBit_lt_two_pow (b.toNat_lt.trans_le (Nat.pow_le_pow_right (by omega) (by omega)))
    simp [hout, hlt.ne]
  · simp [show 8 * k + t < 32 by omega]
  · simp [show ¬ 8 * k ≤ 8 * j + t by omega, hlt.ne']

/-- The bits of a word that is loaded. -/
theorem load32_testBit {n : ℕ} (src : Bytes (4 * n)) (i : Fin n) {j t : ℕ} (hj : j < 4)
    (ht : t < 8) :
    (load32 src i).toNat.testBit (8 * j + t) =
      (src[(⟨4 * i.val + j, by omega⟩ : Fin (4 * n))]).toNat.testBit t := by
  have h0 : src[4 * i.val].toUInt32 = src[4 * i.val].toUInt32 <<< 0 := by simp
  rw [load32, h0]
  simp only [UInt32.toNat_or, Nat.testBit_or]
  rw [testBit_shifted (k := 0) _ rfl (by omega) hj ht,
    testBit_shifted (k := 1) _ rfl (by omega) hj ht,
    testBit_shifted (k := 2) _ rfl (by omega) hj ht,
    testBit_shifted (k := 3) _ rfl (by omega) hj ht]
  -- one of the four places is `j`
  rcases j with _ | _ | _ | _ | j
  · simp
  · simp
  · simp
  · simp
  · omega

/-- The bits of a byte that is stored. -/
theorem store32_testBit {n : ℕ} (ws : Words n) (i : Fin n) {j t : ℕ} (hj : j < 4) (ht : t < 8) :
    (store32 ws ⟨4 * i.val + j, by omega⟩).toNat.testBit t = ws[i].toNat.testBit (8 * j + t) := by
  have hdiv : (4 * i.val + j) / 4 = i.val := by omega
  have hmod : (4 * i.val + j) % 4 = j := by omega
  have hshift : (8 * j).toUInt32.toNat = 8 * j := by
    rw [Nat.toUInt32_eq, UInt32.toNat_ofNat', Nat.mod_eq_of_lt (by omega)]
  rw [store32]
  simp only [hdiv, hmod]
  rw [UInt32.toNat_toUInt8, Nat.testBit_mod_two_pow, UInt32.toNat_shiftRight, hshift,
    Nat.mod_eq_of_lt (show 8 * j < 32 by omega), Nat.testBit_shiftRight]
  simp [ht]

/-- **What is stored is loaded.** -/
theorem load32_store32 {n : ℕ} (ws : Words n) (i : Fin n) :
    load32 (Vector.ofFn fun j => store32 ws j) i = ws[i] := by
  refine UInt32.toNat_inj.mp (Nat.eq_of_testBit_eq fun t => ?_)
  by_cases ht : t < 32
  · have hsplit : t = 8 * (t / 8) + t % 8 := by omega
    rw [hsplit, load32_testBit _ i (by omega) (by omega)]
    simp only [Fin.getElem_fin, Vector.getElem_ofFn]
    rw [store32_testBit ws i (by omega) (by omega)]
    rfl
  · have hle : 2 ^ 32 ≤ 2 ^ t := Nat.pow_le_pow_right (by omega) (by omega)
    rw [Nat.testBit_lt_two_pow ((UInt32.toNat_lt _).trans_le hle),
      Nat.testBit_lt_two_pow ((UInt32.toNat_lt _).trans_le hle)]

/-- **What is loaded is what is stored.** -/
theorem store32_load32 {n : ℕ} (src : Bytes (4 * n)) (i : Fin (4 * n)) :
    store32 (Vector.ofFn fun j => load32 src j) i = src[i] := by
  have hi := i.isLt
  obtain ⟨q, hq⟩ : ∃ q : Fin n, q.val = i.val / 4 := ⟨⟨i.val / 4, by omega⟩, rfl⟩
  have hsplit : i = ⟨4 * q.val + i.val % 4, by omega⟩ := Fin.ext (by
    show i.val = 4 * q.val + i.val % 4
    omega)
  refine UInt8.toNat_inj.mp (Nat.eq_of_testBit_eq fun t => ?_)
  by_cases ht : t < 8
  · rw [hsplit, store32_testBit _ q (by omega) ht]
    simp only [Fin.getElem_fin, Vector.getElem_ofFn]
    rw [load32_testBit src _ (by omega) ht]
    rfl
  · have hle : 2 ^ 8 ≤ 2 ^ t := Nat.pow_le_pow_right (by omega) (by omega)
    rw [Nat.testBit_lt_two_pow ((UInt8.toNat_lt _).trans_le hle),
      Nat.testBit_lt_two_pow ((UInt8.toNat_lt _).trans_le hle)]

theorem loadKeyWords_storeCvWords (cvWords : Words 8) :
    loadKeyWords (storeCvWords cvWords) = cvWords := by
  refine Vector.ext fun i hi => ?_
  rw [loadKeyWords, Vector.getElem_ofFn]
  exact load32_store32 cvWords ⟨i, hi⟩

theorem storeCvWords_loadKeyWords (key : Bytes 32) : storeCvWords (loadKeyWords key) = key := by
  refine Vector.ext fun i hi => ?_
  rw [storeCvWords, Vector.getElem_ofFn]
  exact store32_load32 (n := 8) key ⟨i, hi⟩

/-- The block of a parent holds the words of its children. -/
theorem loadBlockWords_append (left right : Words 8) :
    loadBlockWords (storeCvWords left ++ storeCvWords right) = left ++ right := by
  have hstore : storeCvWords left ++ storeCvWords right =
      Vector.ofFn fun j : Fin 64 => store32 (n := 16) (left ++ right) j := by
    refine Vector.ext fun j hj => ?_
    rw [Vector.getElem_ofFn, store32]
    by_cases hlt : j < 32
    · rw [Vector.getElem_append_left hlt, storeCvWords, Vector.getElem_ofFn, store32,
        Vector.getElem_append_left (show j / 4 < 8 by omega)]
    · have hsub : (j - 32) / 4 = j / 4 - 8 := by omega
      have hmod : (j - 32) % 4 = j % 4 := by omega
      rw [Vector.getElem_append_right hj (by omega), storeCvWords, Vector.getElem_ofFn, store32,
        Vector.getElem_append_right (show j / 4 < 8 + 8 by omega) (by omega)]
      simp only [hsub, hmod]
  rw [hstore]
  refine Vector.ext fun i hi => ?_
  rw [loadBlockWords, Vector.getElem_ofFn]
  exact load32_store32 (n := 16) (left ++ right) ⟨i, hi⟩

/-- **Words and bytes carry the same**: a chaining value survives its way into a parent block or
a key and back, as does a key. -/
theorem words_bytes_roundTrip (left right : Words 8) (key : Bytes 32) :
    loadKeyWords (storeCvWords left) = left ∧ storeCvWords (loadKeyWords key) = key ∧
      loadBlockWords (storeCvWords left ++ storeCvWords right) = left ++ right :=
  ⟨loadKeyWords_storeCvWords left, storeCvWords_loadKeyWords key,
    loadBlockWords_append left right⟩

end Blake3Kmp
