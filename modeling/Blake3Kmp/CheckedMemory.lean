/-
Checked access to sizes and fixed-size arrays.

A C function is modelled as a partial function: `none` stands for every step
that the language leaves undefined or that a caller must never see — an index
outside its array, a read of a cell that nothing has written, a size that
would wrap below zero, a failed assertion.

* `checkedSub` — subtraction of sizes;
* `readSlice`, `writeSlice` — the cells `off, …, off + n - 1` of an array;
* `load`, `store`, `memcpy` — the same on arrays of a fixed length;
* `readInit` — a read that also needs every cell it touches to be initialised;
* `stackOf` — the first cells of an array, used as a stack;
* `rel_bind` — two computations that stay related, or both fail.

Each operation has one equation for the inputs on which it is defined
(`_eq_some`); the proofs over this library use these and never unfold the
operations.
-/
import Mathlib.Data.Nat.Notation
import Mathlib.Tactic.Common
import Mathlib.Tactic.Ring

namespace CheckedMemory

variable {α : Type}

/-- `a - b` on sizes; undefined where it would wrap. -/
def checkedSub (a b : ℕ) : Option ℕ :=
  if b ≤ a then some (a - b) else none

theorem checkedSub_eq_some {a b : ℕ} (h : b ≤ a) : checkedSub a b = some (a - b) :=
  if_pos h

/-- `some ()` when the assertion holds. -/
def assertThat (b : Bool) : Option Unit :=
  if b then some () else none

theorem assertThat_eq_some {b : Bool} (h : b = true) : assertThat b = some () :=
  if_pos h

/-- The `n` cells of `xs` from `off` on. -/
def readSlice (xs : List α) (off n : ℕ) : Option (List α) :=
  if off + n ≤ xs.length then some ((xs.drop off).take n) else none

theorem readSlice_eq_some {xs : List α} {off n : ℕ} (h : off + n ≤ xs.length) :
    readSlice xs off n = some ((xs.drop off).take n) := if_pos h

/-- `xs` with the cells from `off` on overwritten by `src`. -/
def writeSlice (xs : List α) (off : ℕ) (src : List α) : Option (List α) :=
  if off + src.length ≤ xs.length then
    some (xs.take off ++ src ++ xs.drop (off + src.length))
  else none

theorem writeSlice_eq_some {xs : List α} {off : ℕ} {src : List α}
    (h : off + src.length ≤ xs.length) :
    writeSlice xs off src = some (xs.take off ++ src ++ xs.drop (off + src.length)) :=
  if_pos h

theorem exists_writeSlice {xs : List α} {off : ℕ} (src : List α)
    (h : off + src.length ≤ xs.length) : ∃ ys, writeSlice xs off src = some ys :=
  ⟨_, writeSlice_eq_some h⟩

theorem writeSlice_isSome {xs ys : List α} {off : ℕ} {src : List α}
    (h : writeSlice xs off src = some ys) : off + src.length ≤ xs.length := by
  by_contra hlt
  rw [writeSlice, if_neg hlt] at h
  exact absurd h (by simp)

theorem writeSlice_length {xs ys : List α} {off : ℕ} {src : List α}
    (h : writeSlice xs off src = some ys) : ys.length = xs.length := by
  have hle := writeSlice_isSome h
  rw [writeSlice_eq_some hle, Option.some_inj] at h
  subst h
  simp only [List.length_append, List.length_take, List.length_drop]
  omega

/-- Writing nothing changes nothing. -/
theorem writeSlice_nil {xs : List α} {off : ℕ} (h : off ≤ xs.length) :
    writeSlice xs off [] = some xs := by
  rw [writeSlice_eq_some (by simpa using h)]
  simp

/-- Two adjacent writes are one write. -/
theorem writeSlice_append {xs ys : List α} {off : ℕ} {a b : List α}
    (h : writeSlice xs off a = some ys) (hb : off + a.length + b.length ≤ xs.length) :
    writeSlice ys (off + a.length) b = writeSlice xs off (a ++ b) := by
  have hle := writeSlice_isSome h
  have hlen := writeSlice_length h
  rw [writeSlice_eq_some (by omega), writeSlice_eq_some (by simp; omega)]
  rw [writeSlice_eq_some hle, Option.some_inj] at h
  subst h
  have htake : (xs.take off).length = off := by simp; omega
  have h1 : (xs.take off ++ a ++ xs.drop (off + a.length)).take (off + a.length)
      = xs.take off ++ a := by
    rw [List.take_append_of_le_length (by simp; omega)]
    exact List.take_of_length_le (by simp only [List.length_append, htake]; omega)
  have h2 : (xs.take off ++ a ++ xs.drop (off + a.length)).drop (off + a.length + b.length)
      = xs.drop (off + a.length + b.length) := by
    rw [List.drop_append, List.drop_eq_nil_of_le (by simp; omega), List.nil_append,
      List.drop_drop]
    congr 1
    simp only [List.length_append, htake]
    omega
  rw [h1, h2]
  simp only [List.append_assoc, List.length_append]
  rw [Nat.add_assoc]

/-! ### Arrays of a fixed length -/

variable {n : ℕ}

/-- The cell `i` of an array. -/
def load (xs : Vector α n) (i : ℕ) : Option α := xs.toList[i]?

/-- An array with its cell `i` replaced. -/
def store (xs : Vector α n) (i : ℕ) (x : α) : Option (Vector α n) :=
  if h : i < n then some (xs.set i x h) else none

/-- An array with the cells from `off` on overwritten by `src`. -/
def memcpy (dst : Vector α n) (off : ℕ) (src : List α) : Option (Vector α n) :=
  if h : off + src.length ≤ n then
    some ⟨(dst.toList.take off ++ src ++ dst.toList.drop (off + src.length)).toArray, by
      simp; omega⟩
  else none

theorem memcpy_eq_some (dst : Vector α n) {off : ℕ} {src : List α} (h : off + src.length ≤ n) :
    ∃ dst', memcpy dst off src = some dst' ∧
      dst'.toList = dst.toList.take off ++ src ++ dst.toList.drop (off + src.length) := by
  refine ⟨_, dif_pos h, ?_⟩
  simp [Vector.toList]

theorem store_eq_some (xs : Vector α n) {i : ℕ} (x : α) (h : i < n) :
    ∃ ys, store xs i x = some ys ∧ ys.toList = xs.toList.set i x := by
  refine ⟨_, dif_pos h, ?_⟩
  simp [Vector.toList]

theorem load_store {xs ys : Vector α n} {i : ℕ} {x : α} (h : store xs i x = some ys) (j : ℕ) :
    load ys j = if j = i then some x else load xs j := by
  by_cases hi : i < n
  · obtain ⟨zs, hzs, hlist⟩ := store_eq_some xs x hi
    obtain rfl : zs = ys := Option.some_inj.mp (hzs.symm.trans h)
    have hlen : i < xs.toList.length := by rwa [Vector.length_toList]
    rw [load, hlist, load]
    by_cases hj : j = i
    · rw [if_pos hj, hj, List.getElem?_set_self hlen]
    · rw [if_neg hj, List.getElem?_set_ne (Ne.symm hj)]
  · rw [store, dif_neg hi] at h
    exact absurd h (by simp)

/-! ### Related computations -/

theorem rel_bind {β γ δ : Type} {R : α → β → Prop} {S : γ → δ → Prop} {x : Option α}
    {y : Option β} {f : α → Option γ} {g : β → Option δ} (h : Option.Rel R x y)
    (hfg : ∀ a b, R a b → Option.Rel S (f a) (g b)) : Option.Rel S (x.bind f) (y.bind g) := by
  cases h with
  | none => exact .none
  | some hab => exact hfg _ _ hab

theorem rel_refl (x : Option α) : Option.Rel (· = ·) x x := by
  cases x with
  | none => exact .none
  | some a => exact .some rfl

/-- The same store into two arrays. -/
theorem rel_store (xs xs' : Vector α n) (i : ℕ) (x : α) :
    Option.Rel (fun ys ys' => store xs i x = some ys ∧ store xs' i x = some ys')
      (store xs i x) (store xs' i x) := by
  by_cases hi : i < n
  · obtain ⟨ys, hys, -⟩ := store_eq_some xs x hi
    obtain ⟨ys', hys', -⟩ := store_eq_some xs' x hi
    rw [hys, hys']
    exact .some ⟨rfl, rfl⟩
  · rw [store, store, dif_neg hi, dif_neg hi]
    exact .none

/-! ### An array used as a stack -/

/-- The first `len` cells of an array, the last of them first. -/
def stackOf (xs : Vector α n) (len : ℕ) : List α := (xs.toList.take len).reverse

@[simp] theorem stackOf_zero (xs : Vector α n) : stackOf xs 0 = [] := by simp [stackOf]

theorem stackOf_length {xs : Vector α n} {len : ℕ} (h : len ≤ n) :
    (stackOf xs len).length = len := by
  rw [stackOf, List.length_reverse, List.length_take, Vector.length_toList]
  omega

/-- The cell below the top. -/
theorem stackOf_succ (xs : Vector α n) {len : ℕ} (h : len < n) :
    ∃ a, load xs len = some a ∧ stackOf xs (len + 1) = a :: stackOf xs len := by
  have hlt : len < xs.toList.length := by rwa [Vector.length_toList]
  refine ⟨xs.toList[len], List.getElem?_eq_getElem hlt, ?_⟩
  rw [stackOf, List.take_succ_eq_append_getElem hlt, List.reverse_append]
  rfl

/-- Writing the cell above the top is a push. -/
theorem stackOf_store (xs : Vector α n) {len : ℕ} (h : len < n) (a : α) :
    ∃ ys, store xs len a = some ys ∧ stackOf ys (len + 1) = a :: stackOf xs len := by
  obtain ⟨ys, hys, hlist⟩ := store_eq_some xs a h
  have hlt : len < (xs.toList.set len a).length := by
    rwa [List.length_set, Vector.length_toList]
  refine ⟨ys, hys, ?_⟩
  rw [stackOf, hlist, List.take_succ_eq_append_getElem hlt, List.getElem_set_self,
    List.take_set_of_le (le_refl len), List.reverse_append]
  rfl

/-! ### Cells that start uninitialised -/

/-- Read `n` cells of an array of which every one read has been written. -/
def readInit (xs : List (Option α)) (off n : ℕ) : Option (List α) := do
  let cells ← readSlice xs off n
  cells.mapM id

theorem mapM_id_map_some (xs : List α) : (xs.map some).mapM id = some xs := by
  induction xs with
  | nil => rfl
  | cons x xs ih => simp [List.mapM_cons, ih]

/-- The cells that a write has just initialised can be read back. -/
theorem readInit_eq_some {xs : List (Option α)} {ys : List α} {rest : List (Option α)}
    (h : xs = ys.map some ++ rest) : readInit xs 0 ys.length = some ys := by
  subst h
  rw [readInit, readSlice_eq_some (by simp), List.drop_zero, List.take_left' (by simp)]
  exact mapM_id_map_some ys

theorem writeInit_eq_some (xs : List (Option α)) {ys : List α} (h : ys.length ≤ xs.length) :
    writeSlice xs 0 (ys.map some) = some (ys.map some ++ xs.drop ys.length) := by
  rw [writeSlice_eq_some (by simpa using h)]
  simp

/-- Two runs of values written side by side read back as one. -/
theorem exists_writeInit_adjacent (xs : List (Option α)) {l r : List α}
    (h : l.length + r.length ≤ xs.length) :
    ∃ ys zs, writeSlice xs 0 (l.map some) = some ys ∧
      writeSlice ys l.length (r.map some) = some zs ∧
      readInit zs 0 (l.length + r.length) = some (l ++ r) := by
  have h1 := writeInit_eq_some xs (show l.length ≤ xs.length by omega)
  have h2 := writeSlice_append h1 (b := r.map some) (by simp; omega)
  rw [List.length_map, Nat.zero_add, ← List.map_append,
    writeInit_eq_some xs (by rw [List.length_append]; omega)] at h2
  refine ⟨_, _, h1, h2, ?_⟩
  rw [← List.length_append]
  exact readInit_eq_some rfl

end CheckedMemory
