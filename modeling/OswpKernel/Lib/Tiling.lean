import Mathlib.Data.List.Basic
import Mathlib.Data.List.Pairwise
import Mathlib.Tactic.Common
import Mathlib.Algebra.BigOperators.Group.List.Basic
import Mathlib.Algebra.Order.Ring.Nat

/-!
# Tiling — disjoint blocks of a line of cells

A block is a pair of its first cell and its length.  `Tiled n I` says that the blocks of `I` are
non-empty, lie in the first `n` cells and do not overlap.  An allocator splits blocks, merges
neighbours and forgets blocks; the rules say that each of these keeps a tiling, and what becomes of
the number of cells covered.
-/

namespace Tiling

/-- One of the two blocks ends where the other starts, or before. -/
def Apart (x y : Nat × Nat) : Prop := x.1 + x.2 ≤ y.1 ∨ y.1 + y.2 ≤ x.1

instance (x y : Nat × Nat) : Decidable (Apart x y) := inferInstanceAs (Decidable (_ ∨ _))

instance : Std.Symm Apart := ⟨fun _ _ h => Or.symm h⟩

structure Tiled (n : Nat) (I : List (Nat × Nat)) : Prop where
  apart : I.Pairwise Apart
  positive : ∀ x ∈ I, 0 < x.2
  inside : ∀ x ∈ I, x.1 + x.2 ≤ n

/-- The number of cells covered. -/
def total (I : List (Nat × Nat)) : Nat := (I.map Prod.snd).sum

variable {n a s t : Nat} {I J : List (Nat × Nat)} {x y : Nat × Nat}

theorem Apart.symm (h : Apart x y) : Apart y x := Or.symm h

theorem Tiled.perm (h : Tiled n I) (hperm : I.Perm J) : Tiled n J where
  apart := (hperm.pairwise_iff Apart.symm).1 h.apart
  positive x hx := h.positive x (hperm.mem_iff.2 hx)
  inside x hx := h.inside x (hperm.mem_iff.2 hx)

theorem Tiled.sublist (h : Tiled n I) (hsub : J.Sublist I) : Tiled n J where
  apart := h.apart.sublist hsub
  positive x hx := h.positive x (hsub.subset hx)
  inside x hx := h.inside x (hsub.subset hx)

/-- No other block starts inside a block. -/
theorem Tiled.start_outside (h : Tiled n ((a, s) :: I)) (hx : x ∈ I) :
    x.1 + x.2 ≤ a ∨ a + s ≤ x.1 :=
  (List.rel_of_pairwise_cons h.apart hx).symm

/-- Blocks are told apart by where they start. -/
theorem Tiled.start_inj (h : Tiled n I) (hx : x ∈ I) (hy : y ∈ I) (hstart : x.1 = y.1) : x = y := by
  by_contra hne
  have hxpos := h.positive x hx
  have hypos := h.positive y hy
  rcases h.apart.forall hx hy hne with hleft | hright
  · omega
  · omega

theorem Tiled.nodup (h : Tiled n I) : I.Nodup := by
  refine h.apart.imp_of_mem fun {x y} hx hy hapart heq => ?_
  have hpos := h.positive x hx
  subst heq
  rcases hapart with hleft | hright
  · omega
  · omega

theorem Tiled.split (h : Tiled n ((a, s + t) :: I)) (hs : 0 < s) (ht : 0 < t) :
    Tiled n ((a, s) :: (a + s, t) :: I) := by
  have hinside : a + (s + t) ≤ n := h.inside _ List.mem_cons_self
  have hothers := List.pairwise_cons.1 h.apart
  refine ⟨List.pairwise_cons.2 ⟨?_, List.pairwise_cons.2 ⟨?_, hothers.2⟩⟩, ?_, ?_⟩
  · rintro y (- | ⟨-, hy⟩)
    · exact .inl (Nat.le_refl _)
    · rcases hothers.1 y hy with hleft | hright
      · exact .inl (by simp only at hleft ⊢; omega)
      · exact .inr hright
  · intro y hy
    rcases hothers.1 y hy with hleft | hright
    · exact .inl (by simp only at hleft ⊢; omega)
    · exact .inr (by simp only at hright ⊢; omega)
  · rintro y (- | ⟨-, - | ⟨-, hy⟩⟩)
    · exact hs
    · exact ht
    · exact h.positive y (List.mem_cons_of_mem _ hy)
  · rintro y (- | ⟨-, - | ⟨-, hy⟩⟩)
    · simp only
      omega
    · simp only
      omega
    · exact h.inside y (List.mem_cons_of_mem _ hy)

theorem Tiled.merge (h : Tiled n ((a, s) :: (a + s, t) :: I)) : Tiled n ((a, s + t) :: I) := by
  have hfirst : 0 < s := h.positive (a, s) List.mem_cons_self
  have hend : a + s + t ≤ n := h.inside (a + s, t) (List.mem_cons_of_mem _ List.mem_cons_self)
  have hothers := List.pairwise_cons.1 h.apart
  have hrest := List.pairwise_cons.1 hothers.2
  refine ⟨List.pairwise_cons.2 ⟨?_, hrest.2⟩, ?_, ?_⟩
  · intro y hy
    have hpositive : 0 < y.2 :=
      h.positive y (List.mem_cons_of_mem _ (List.mem_cons_of_mem _ hy))
    rcases hothers.1 y (List.mem_cons_of_mem _ hy) with hleft | hright
    · rcases hrest.1 y hy with hleft' | hright'
      · exact .inl (by simp only at hleft' ⊢; omega)
      · simp only at hleft hright'
        omega
    · exact .inr hright
  · rintro y (- | ⟨-, hy⟩)
    · exact Nat.add_pos_left hfirst t
    · exact h.positive y (List.mem_cons_of_mem _ (List.mem_cons_of_mem _ hy))
  · rintro y (- | ⟨-, hy⟩)
    · simp only
      omega
    · exact h.inside y (List.mem_cons_of_mem _ (List.mem_cons_of_mem _ hy))

@[simp] theorem total_nil : total [] = 0 := rfl

@[simp] theorem total_cons (x : Nat × Nat) (I : List (Nat × Nat)) :
    total (x :: I) = x.2 + total I := by
  simp [total]

theorem total_append (I J : List (Nat × Nat)) : total (I ++ J) = total I + total J := by
  simp [total]

theorem total_perm (hperm : I.Perm J) : total I = total J := (hperm.map _).sum_eq

/-! ## Blocks end to end -/

/-- Blocks of the given lengths from `a` on, each starting where the one before it ends. -/
def layout : Nat → List Nat → List (Nat × Nat)
  | _, [] => []
  | a, n :: ns => (a, n) :: layout (a + n) ns

theorem layout_append (a : Nat) (ns ms : List Nat) :
    layout a (ns ++ ms) = layout a ns ++ layout (a + ns.sum) ms := by
  induction ns generalizing a with
  | nil => simp [layout]
  | cons n ns ih => simp [layout, ih, Nat.add_assoc]

theorem mem_layout {ns : List Nat} (h : x ∈ layout a ns) :
    a ≤ x.1 ∧ x.1 + x.2 ≤ a + ns.sum := by
  induction ns generalizing a with
  | nil => cases h
  | cons n ns ih =>
      rw [List.sum_cons]
      rcases List.mem_cons.1 h with rfl | hx
      · exact ⟨Nat.le_refl _, by simp only; omega⟩
      · have hrest := ih hx
        omega

theorem layout_apart (a : Nat) (ns : List Nat) : (layout a ns).Pairwise Apart := by
  induction ns generalizing a with
  | nil => exact List.Pairwise.nil
  | cons n ns ih => exact List.pairwise_cons.2 ⟨fun y hy => Or.inl (mem_layout hy).1, ih _⟩

/-! ## Blocks in order -/

/-- Each block is non-empty and ends where a later one starts, or before. -/
structure InOrder (I : List (Nat × Nat)) : Prop where
  before : I.Pairwise fun x y => x.1 + x.2 ≤ y.1
  positive : ∀ x ∈ I, 0 < x.2

/-- The cell `u` lies in one of the blocks. -/
def Covers (I : List (Nat × Nat)) (u : Nat) : Prop := ∃ x ∈ I, x.1 ≤ u ∧ u < x.1 + x.2

variable {u : Nat}

@[simp] theorem covers_nil : ¬ Covers [] u := by simp [Covers]

@[simp] theorem covers_cons : Covers (x :: I) u ↔ (x.1 ≤ u ∧ u < x.1 + x.2) ∨ Covers I u := by
  simp [Covers]

@[simp] theorem covers_append : Covers (I ++ J) u ↔ Covers I u ∨ Covers J u := by
  simp only [Covers, List.mem_append, or_and_right, exists_or]

theorem InOrder.sublist (h : InOrder I) (hsub : J.Sublist I) : InOrder J where
  before := h.before.sublist hsub
  positive x hx := h.positive x (hsub.subset hx)

theorem inOrder_append : InOrder (I ++ J) ↔
    InOrder I ∧ InOrder J ∧ ∀ x ∈ I, ∀ y ∈ J, x.1 + x.2 ≤ y.1 := by
  constructor
  · intro h
    obtain ⟨-, -, hcross⟩ := List.pairwise_append.1 h.before
    exact ⟨h.sublist (List.sublist_append_left I J), h.sublist (List.sublist_append_right I J),
      hcross⟩
  · rintro ⟨hI, hJ, hcross⟩
    refine ⟨List.pairwise_append.2 ⟨hI.before, hJ.before, hcross⟩, fun x hx => ?_⟩
    rcases List.mem_append.1 hx with hx | hx
    · exact hI.positive x hx
    · exact hJ.positive x hx

theorem inOrder_cons : InOrder (x :: I) ↔ 0 < x.2 ∧ InOrder I ∧ ∀ y ∈ I, x.1 + x.2 ≤ y.1 := by
  constructor
  · intro h
    exact ⟨h.positive x List.mem_cons_self, h.sublist (List.sublist_cons_self x I),
      (List.pairwise_cons.1 h.before).1⟩
  · rintro ⟨hx, hI, hafter⟩
    refine ⟨List.pairwise_cons.2 ⟨hafter, hI.before⟩, fun y hy => ?_⟩
    rcases List.mem_cons.1 hy with rfl | hy
    · exact hx
    · exact hI.positive y hy

/-- A block put in between the blocks below it and those above it. -/
theorem InOrder.insert (h : InOrder (I ++ J)) (hs : 0 < s) (hI : ∀ x ∈ I, x.1 + x.2 ≤ a)
    (hJ : ∀ y ∈ J, a + s ≤ y.1) : InOrder (I ++ (a, s) :: J) := by
  obtain ⟨hleft, hright, hcross⟩ := inOrder_append.1 h
  refine inOrder_append.2 ⟨hleft, inOrder_cons.2 ⟨hs, hright, hJ⟩, fun x hx y hy => ?_⟩
  rcases List.mem_cons.1 hy with rfl | hy
  · exact hI x hx
  · exact hcross x hx y hy

/-- Two neighbours as one block. -/
theorem InOrder.merge (h : InOrder (I ++ (a, s) :: (a + s, t) :: J)) :
    InOrder (I ++ (a, s + t) :: J) := by
  obtain ⟨hleft, hright, hcross⟩ := inOrder_append.1 h
  obtain ⟨hs, hright, -⟩ := inOrder_cons.1 hright
  obtain ⟨-, hJ, hafter⟩ := inOrder_cons.1 hright
  refine inOrder_append.2 ⟨hleft, inOrder_cons.2 ⟨Nat.add_pos_left hs t, hJ, fun y hy => ?_⟩,
    fun x hx y hy => ?_⟩
  · have hend := hafter y hy
    simp only at hend ⊢
    omega
  · rcases List.mem_cons.1 hy with rfl | hy
    · exact hcross x hx (a, s) List.mem_cons_self
    · exact hcross x hx y (List.mem_cons_of_mem _ (List.mem_cons_of_mem _ hy))

/-- One block as two neighbours. -/
theorem InOrder.split (h : InOrder (I ++ (a, s + t) :: J)) (hs : 0 < s) (ht : 0 < t) :
    InOrder (I ++ (a, s) :: (a + s, t) :: J) := by
  obtain ⟨hleft, hright, hcross⟩ := inOrder_append.1 h
  obtain ⟨-, hJ, hafter⟩ := inOrder_cons.1 hright
  have hpart : InOrder ((a + s, t) :: J) := by
    refine inOrder_cons.2 ⟨ht, hJ, fun y hy => ?_⟩
    have hend := hafter y hy
    simp only at hend ⊢
    omega
  refine inOrder_append.2 ⟨hleft, inOrder_cons.2 ⟨hs, hpart, fun y hy => ?_⟩, fun x hx y hy => ?_⟩
  · rcases List.mem_cons.1 hy with rfl | hy
    · exact Nat.le_refl _
    · have hend := hafter y hy
      simp only at hend ⊢
      omega
  · have hstart := hcross x hx (a, s + t) List.mem_cons_self
    rcases List.mem_cons.1 hy with rfl | hy
    · exact hstart
    · rcases List.mem_cons.1 hy with rfl | hy
      · simp only at hstart ⊢
        omega
      · exact hcross x hx y (List.mem_cons_of_mem _ hy)

theorem covers_merge :
    Covers (I ++ (a, s + t) :: J) u ↔ Covers (I ++ (a, s) :: (a + s, t) :: J) u := by
  simp only [covers_append, covers_cons, ← or_assoc, ← Nat.add_assoc]
  refine or_congr_left ?_
  rw [or_assoc]
  refine or_congr_right ?_
  omega

/-- A cell of one block is in no other. -/
theorem InOrder.not_covers (h : InOrder (I ++ x :: J)) (hu : x.1 ≤ u ∧ u < x.1 + x.2) :
    ¬ Covers (I ++ J) u := by
  obtain ⟨-, hright, hcross⟩ := inOrder_append.1 h
  obtain ⟨-, -, hafter⟩ := inOrder_cons.1 hright
  rintro ⟨y, hy, hyu⟩
  rcases List.mem_append.1 hy with hy | hy
  · have hbefore := hcross y hy x List.mem_cons_self
    omega
  · have hbehind := hafter y hy
    omega

end Tiling
