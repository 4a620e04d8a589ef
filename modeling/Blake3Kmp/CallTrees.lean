/-
Trees of calls, and what a collision-free function says about them.

A hash that works in a tree calls one function `f` over and over, and the input
of a call may hold the results of earlier calls: none, one (a chain of blocks)
or two (a parent).  `refs` reads those results off an input, so the input alone
says how many calls are below it.

* `CallTree` — the calls of one hash, a call above those that its input refers
  to; `Genuine` — the results held in an input are those of the calls below;
* `Genuine.eq_of_value_eq` — the result of the last call determines the whole
  tree, unless two different inputs of the calls have one result.

Nothing here knows what is hashed, or what a call is given besides.
-/
import Mathlib.Tactic.ByContra

/-- The calls of one hash. -/
inductive CallTree (I : Type)
  | leaf (i : I)
  | link (i : I) (below : CallTree I)
  | fork (i : I) (left right : CallTree I)

namespace CallTree

variable {I D : Type}

/-- The input of the last call. -/
def top : CallTree I → I
  | leaf i => i
  | link i _ => i
  | fork i _ _ => i

/-- The inputs of all calls, the last one first. -/
def calls : CallTree I → List I
  | leaf i => [i]
  | link i below => i :: below.calls
  | fork i left right => i :: (left.calls ++ right.calls)

@[simp] theorem top_mem_calls (t : CallTree I) : t.top ∈ t.calls := by
  cases t with
  | leaf i => exact List.mem_cons_self
  | link i below => exact List.mem_cons_self
  | fork i left right => exact List.mem_cons_self

/-- One more call at the end of a chain, which may be the first. -/
def onto (i : I) : Option (CallTree I) → CallTree I
  | none => leaf i
  | some before => link i before

@[simp] theorem top_onto (i : I) (before : Option (CallTree I)) : (onto i before).top = i := by
  cases before with
  | none => rfl
  | some before => rfl

/-- Change the last call. -/
def mapTop (g : I → I) : CallTree I → CallTree I
  | leaf i => leaf (g i)
  | link i below => link (g i) below
  | fork i left right => fork (g i) left right

@[simp] theorem top_mapTop (g : I → I) (t : CallTree I) : (t.mapTop g).top = g t.top := by
  cases t with
  | leaf i => rfl
  | link i below => rfl
  | fork i left right => rfl

variable (f : I → D) (refs : I → List D)

/-- The inputs hold the results of the calls below them. -/
def Genuine : CallTree I → Prop
  | leaf i => refs i = []
  | link i below => refs i = [f below.top] ∧ below.Genuine
  | fork i left right => refs i = [f left.top, f right.top] ∧ left.Genuine ∧ right.Genuine

variable {f refs} in
theorem Genuine.mapTop {t : CallTree I} (ht : t.Genuine f refs) {g : I → I}
    (hg : refs (g t.top) = refs t.top) : (t.mapTop g).Genuine f refs := by
  cases t with
  | leaf i => exact hg.trans ht
  | link i below => exact ⟨hg.trans ht.1, ht.2⟩
  | fork i left right => exact ⟨hg.trans ht.1, ht.2⟩

/-- Two different inputs, one of each list, with one result. -/
def Collision (is js : List I) : Prop := ∃ i ∈ is, ∃ j ∈ js, i ≠ j ∧ f i = f j

variable {f}

theorem Collision.mono {is is' js js' : List I} (h : Collision f is js) (his : is ⊆ is')
    (hjs : js ⊆ js') : Collision f is' js' := by
  obtain ⟨i, hi, j, hj, hne, heq⟩ := h
  exact ⟨i, his hi, j, hjs hj, hne, heq⟩

variable {refs}

theorem top_eq_of_not_collision {t t' : CallTree I} (hc : ¬ Collision f t.calls t'.calls)
    (hval : f t.top = f t'.top) : t.top = t'.top := by
  by_contra hne
  exact hc ⟨t.top, t.top_mem_calls, t'.top, t'.top_mem_calls, hne, hval⟩

/-- **The result of the last call determines the tree**, unless two calls collide. -/
theorem Genuine.eq_of_value_eq {t t' : CallTree I} (ht : t.Genuine f refs)
    (ht' : t'.Genuine f refs) (hc : ¬ Collision f t.calls t'.calls)
    (hval : f t.top = f t'.top) : t = t' := by
  induction t generalizing t' with
  | leaf i =>
    have htop : i = t'.top := top_eq_of_not_collision hc hval
    subst htop
    cases t' with
    | leaf i' => rfl
    | link i' below' => exact absurd (ht.symm.trans ht'.1) (by simp)
    | fork i' left' right' => exact absurd (ht.symm.trans ht'.1) (by simp)
  | link i below ih =>
    have htop : i = t'.top := top_eq_of_not_collision hc hval
    subst htop
    cases t' with
    | leaf i' => exact absurd (ht.1.symm.trans ht') (by simp)
    | link i' below' =>
      have hrefs : f below.top = f below'.top := List.singleton_inj.mp (ht.1.symm.trans ht'.1)
      -- the calls below are some of the calls
      have hc' : ¬ Collision f below.calls below'.calls := fun h =>
        hc (h.mono (List.subset_cons_self _ _) (List.subset_cons_self _ _))
      rw [ih ht.2 ht'.2 hc' hrefs]
      rfl
    | fork i' left' right' => exact absurd (ht.1.symm.trans ht'.1) (by simp)
  | fork i left right ihl ihr =>
    have htop : i = t'.top := top_eq_of_not_collision hc hval
    subst htop
    cases t' with
    | leaf i' => exact absurd (ht.1.symm.trans ht') (by simp)
    | link i' below' => exact absurd (ht.1.symm.trans ht'.1) (by simp)
    | fork i' left' right' =>
      obtain ⟨hrefs, hl, hr⟩ := ht
      obtain ⟨hrefs', hl', hr'⟩ := ht'
      have hpair := List.cons_eq_cons.mp (hrefs.symm.trans hrefs')
      have hcl : ¬ Collision f left.calls left'.calls := fun h =>
        hc (h.mono (fun _ hj => List.mem_cons_of_mem _ (List.mem_append_left _ hj))
          fun _ hj => List.mem_cons_of_mem _ (List.mem_append_left _ hj))
      have hcr : ¬ Collision f right.calls right'.calls := fun h =>
        hc (h.mono (fun _ hj => List.mem_cons_of_mem _ (List.mem_append_right _ hj))
          fun _ hj => List.mem_cons_of_mem _ (List.mem_append_right _ hj))
      rw [ihl hl hl' hcl hpair.1, ihr hr hr' hcr (List.singleton_inj.mp hpair.2)]
      rfl

end CallTree
