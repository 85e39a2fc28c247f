import Mathlib.Algebra.BigOperators.Group.Finset.Basic
import Mathlib.Algebra.Order.BigOperators.Group.Finset

/-!
# Budget — shares of a bounded resource

A finite set of holders, each with a share of a resource that is not negative and all of them
together with at most `cap` of it.  A holder may leave, split its share with a newcomer, or leave
and pass its share on.
-/

namespace OswpKernel

variable {ι M : Type*}

/-- The holders have no negative share, and at most `cap` together. -/
structure Budget [AddCommMonoid M] [LE M] (holders : Finset ι) (share : ι → M) (cap : M) :
    Prop where
  nonneg : ∀ x ∈ holders, 0 ≤ share x
  total : ∑ x ∈ holders, share x ≤ cap

namespace Budget

variable [AddCommMonoid M] [PartialOrder M]
  {holders holders' : Finset ι} {share share' : ι → M} {cap : M} {x giver : ι}

theorem empty (hcap : 0 ≤ cap) : Budget (∅ : Finset ι) share cap :=
  ⟨fun _ hx => absurd hx (Finset.notMem_empty _), by rwa [Finset.sum_empty]⟩

theorem singleton (hnonneg : 0 ≤ share x) (hle : share x ≤ cap) : Budget {x} share cap where
  nonneg := by
    intro y hy
    rwa [Finset.mem_singleton.1 hy]
  total := by rwa [Finset.sum_singleton]

variable [IsOrderedAddMonoid M]

theorem share_le (h : Budget holders share cap) (hx : x ∈ holders) : share x ≤ cap :=
  (Finset.single_le_sum h.nonneg hx).trans h.total

/-- Holders may leave; those that stay keep their shares. -/
theorem mono (h : Budget holders share cap) (hsub : holders' ⊆ holders)
    (hsame : ∀ x ∈ holders', share' x = share x) : Budget holders' share' cap where
  nonneg := by
    intro x hx
    rw [hsame x hx]
    exact h.nonneg x (hsub hx)
  total :=
    calc
      ∑ x ∈ holders', share' x = ∑ x ∈ holders', share x := Finset.sum_congr rfl hsame
      _ ≤ ∑ x ∈ holders, share x :=
        Finset.sum_le_sum_of_subset_of_nonneg hsub fun x hx _ => h.nonneg x hx
      _ ≤ cap := h.total

variable [DecidableEq ι]

/-- A holder splits its share with a newcomer. -/
theorem split (h : Budget holders share cap) {new : ι} (hgiver : giver ∈ holders)
    (hnew : new ∉ holders) (hkept : 0 ≤ share' giver) (hgiven : 0 ≤ share' new)
    (hsplit : share' new + share' giver ≤ share giver)
    (hsame : ∀ x ∈ holders, x ≠ giver → share' x = share x) :
    Budget (insert new holders) share' cap where
  nonneg := by
    intro x hx
    rcases Finset.mem_insert.1 hx with rfl | hx
    · exact hgiven
    · by_cases hne : x = giver
      · rw [hne]
        exact hkept
      · rw [hsame x hx hne]
        exact h.nonneg x hx
  total := by
    have hothers : ∑ x ∈ holders.erase giver, share' x = ∑ x ∈ holders.erase giver, share x :=
      Finset.sum_congr rfl fun x hx =>
        hsame x (Finset.mem_of_mem_erase hx) (Finset.ne_of_mem_erase hx)
    calc
      ∑ x ∈ insert new holders, share' x = share' new + ∑ x ∈ holders, share' x :=
        Finset.sum_insert hnew
      _ = share' new + (share' giver + ∑ x ∈ holders.erase giver, share x) := by
        rw [← Finset.add_sum_erase holders share' hgiver, hothers]
      _ ≤ share giver + ∑ x ∈ holders.erase giver, share x := by
        rw [← add_assoc]
        exact add_le_add hsplit le_rfl
      _ = ∑ x ∈ holders, share x := Finset.add_sum_erase holders share hgiver
      _ ≤ cap := h.total

/-- A holder leaves and passes its share on to one other, if that one is a holder. -/
theorem bequeath (h : Budget holders share cap) (heir : ι) (hgiver : giver ∈ holders)
    (hsub : holders' ⊆ holders.erase giver)
    (hheir : heir ∈ holders' → share' heir = share heir + share giver)
    (hsame : ∀ x ∈ holders', x ≠ heir → share' x = share x) : Budget holders' share' cap := by
  have hkeep : ∀ x ∈ holders', x ∈ holders := fun x hx => Finset.mem_of_mem_erase (hsub hx)
  have hpos := h.nonneg giver hgiver
  by_cases hmem : heir ∈ holders'
  · refine ⟨fun x hx => ?_, ?_⟩
    · by_cases hx' : x = heir
      · rw [hx', hheir hmem]
        exact add_nonneg (h.nonneg heir (hkeep heir hmem)) hpos
      · rw [hsame x hx hx']
        exact h.nonneg x (hkeep x hx)
    · have hothers : ∑ x ∈ holders'.erase heir, share' x = ∑ x ∈ holders'.erase heir, share x :=
        Finset.sum_congr rfl fun x hx =>
          hsame x (Finset.mem_of_mem_erase hx) (Finset.ne_of_mem_erase hx)
      calc
        ∑ x ∈ holders', share' x =
            share heir + share giver + ∑ x ∈ holders'.erase heir, share x := by
          rw [← Finset.add_sum_erase holders' share' hmem, hheir hmem, hothers]
        _ = share giver + ∑ x ∈ holders', share x := by
          rw [← Finset.add_sum_erase holders' share hmem, ← add_assoc, add_comm (share giver)]
        _ ≤ share giver + ∑ x ∈ holders.erase giver, share x :=
          add_le_add le_rfl (Finset.sum_le_sum_of_subset_of_nonneg hsub fun x hx _ =>
            h.nonneg x (Finset.mem_of_mem_erase hx))
        _ = ∑ x ∈ holders, share x := Finset.add_sum_erase holders share hgiver
        _ ≤ cap := h.total
  · exact h.mono hkeep fun x hx => hsame x hx fun heq => hmem (heq ▸ hx)

end Budget

end OswpKernel
