import Mathlib.Tactic.ByContra
import Mathlib.Tactic.TypeStar

/-!
# Sharing — owners that see cells in common until they write

Owners see cells under keys, and a cell holds a value.  An owner may write under some keys only: the
cells there are seen by nobody else, and under no other key (`Exclusive`).  Then a write changes
what one owner sees under one key.  To get there an owner lets go of a cell it shares and takes a
copy (`Exclusive.copy`); a new owner that takes over all cells of another leaves neither of them a
cell to write (`Exclusive.share`).
-/

namespace Sharing

variable {ω κ γ ν : Type*} {cell cell' : ω → κ → Option γ} {own own' : ω → κ → Prop}
  {val val' : γ → ν} {a b : ω} {k : κ} {c c' : γ} {v : ν}

/-- The value an owner sees under a key. -/
def seen (cell : ω → κ → Option γ) (val : γ → ν) (a : ω) (k : κ) : Option ν := (cell a k).map val

/-- A cell that may be written is seen once. -/
def Exclusive (cell : ω → κ → Option γ) (own : ω → κ → Prop) : Prop :=
  ∀ a k b l c, own a k → cell a k = some c → cell b l = some c → b = a ∧ l = k

theorem seen_of_cell (h : cell a k = some c) : seen cell val a k = some (val c) := by
  rw [seen, h]
  rfl

theorem seen_congr {l : κ} (hcell : cell' b l = cell a k)
    (hval : ∀ d, cell a k = some d → val' d = val d) : seen cell' val' b l = seen cell val a k := by
  rw [seen, seen, hcell]
  cases hc : cell a k with
  | none => rfl
  | some d => exact congrArg some (hval d hc)

/-! ## A write -/

theorem seen_write_self (hc : cell a k = some c) (hval : val' c = v) :
    seen cell val' a k = some v := by
  rw [seen_of_cell hc, hval]

theorem Exclusive.seen_write_other (h : Exclusive cell own) (hown : own a k)
    (hc : cell a k = some c) (hval : ∀ d, d ≠ c → val' d = val d) {l : κ}
    (hne : ¬ (b = a ∧ l = k)) :
    seen cell val' b l = seen cell val b l := by
  refine seen_congr rfl fun d hd => hval d ?_
  rintro rfl
  exact hne (h a k b l d hown hc hd)

/-! ## A copy -/

/-- The owner `a` sees a fresh cell under `k`. -/
theorem Exclusive.copy (h : Exclusive cell own) (hnew : cell' a k = some c')
    (hold : ∀ b l, ¬ (b = a ∧ l = k) → cell' b l = cell b l) (hfresh : ∀ b l, cell b l ≠ some c')
    (hown : ∀ b l, own' b l → (b = a ∧ l = k) ∨ own b l) : Exclusive cell' own' := by
  intro x i y j d hx hi hj
  by_cases hxa : x = a ∧ i = k
  · rcases hxa with ⟨rfl, rfl⟩
    by_contra hne
    rw [hnew] at hi
    rw [hold y j hne, ← hi] at hj
    exact hfresh y j hj
  · rw [hold x i hxa] at hi
    by_cases hya : y = a ∧ j = k
    · rcases hya with ⟨rfl, rfl⟩
      rw [hnew] at hj
      rw [← hj] at hi
      exact absurd hi (hfresh x i)
    · rw [hold y j hya] at hj
      exact h x i y j d ((hown x i hx).resolve_left hxa) hi hj

theorem seen_copy (hnew : cell' a k = some c')
    (hold : ∀ b l, ¬ (b = a ∧ l = k) → cell' b l = cell b l) (hc : cell a k = some c)
    (hval : val' c' = val c)
    (hkeep : ∀ b l d, cell b l = some d → val' d = val d) (b : ω) (l : κ) :
    seen cell' val' b l = seen cell val b l := by
  by_cases hat : b = a ∧ l = k
  · rcases hat with ⟨rfl, rfl⟩
    rw [seen_of_cell hnew, seen_of_cell hc, hval]
  · exact seen_congr (hold b l hat) (hkeep b l)

/-! ## A new owner -/

/-- The owner `b` takes over the cells of `a`; from then on neither may write them. -/
theorem Exclusive.share (h : Exclusive cell own) (hnew : ∀ l, cell' b l = cell a l)
    (hold : ∀ x, x ≠ b → ∀ l, cell' x l = cell x l)
    (hown : ∀ x l, own' x l → (cell' x l).isSome → x ≠ a ∧ x ≠ b ∧ own x l) :
    Exclusive cell' own' := by
  intro x i y j d hx hi hj
  rcases hown x i hx (by rw [hi]; rfl) with ⟨hxa, hxb, hx'⟩
  rw [hold x hxb] at hi
  by_cases hyb : y = b
  · subst hyb
    rw [hnew] at hj
    exact absurd (h x i a j d hx' hi hj).1.symm hxa
  · rw [hold y hyb] at hj
    exact h x i y j d hx' hi hj

end Sharing
