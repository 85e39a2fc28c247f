import OswpKernel.Paging.KernelMap

/-!
# Table pages — what a `bump` takes from the free list

`bump` maps what it hands out, and `map_address` may need page tables for that, each of which is a
page of the free list as well.  `KernelMap.bump_takes_iff` says when a request takes just the pages
that were asked for: when the pages up to the next free one end in the page table of the first.
-/

namespace OswpKernel

namespace Paging

open Machine

variable {alloc : Machine → Option (Word × Machine)} {root : Frame} {flags : MapFlags}
  {m m' : Machine} {c c' : Cursor} {n K : Nat} {D T : Nat → Nat} {v size : Word}

/-- A request never adds a page to the list, and one that is served takes one. -/
def Takes (alloc : Machine → Option (Word × Machine)) : Prop :=
  ∀ m v m', alloc m = some (v, m') →
    m'.ring.free ≤ m.ring.free ∧ (v ≠ 0 → m'.ring.free < m.ring.free)

theorem takes_of_page (h : ∀ {m v m'}, alloc m = some (v, m') → m'.ring.free ≤ m.ring.free ∧
    (v ≠ 0 → m'.ring.free + Allocator.numOfPages 4096 ≤ m.ring.free)) : Takes alloc := by
  intro m v m' hcall
  have hone : Allocator.numOfPages 4096 = 1 := by decide
  rcases h hcall with ⟨hle, htaken⟩
  rw [hone] at htaken
  exact ⟨hle, htaken⟩

theorem ne_zero_of_pointerFrame {next : Frame} (h : pointerFrame v = some next) : v ≠ 0 := by
  rintro rfl
  have hnull : pointerFrame 0 = none := by decide
  rw [hnull] at h
  cases h

/-! ## The routines of `map_address` -/

theorem descend_free (halloc : Takes alloc) {flag : Word} {t next : Frame} {i : Slot}
    (h : descend alloc flag t i m = some (next, m')) : m'.ring.free ≤ m.ring.free := by
  rcases descend_cases h with ⟨-, -, rfl⟩ | ⟨-, v, m₁, hcall, -, rfl⟩
  · exact le_rfl
  · exact (halloc m v m₁ hcall).1

/-- A part of a turn leaves things as they are, or takes a page for a table. -/
def TakesTable (s s' : Cursor × Machine) : Prop := s' = s ∨ s'.2.ring.free < s.2.ring.free

variable {s s₁ s' : Cursor × Machine}

theorem TakesTable.free_le (h : TakesTable s s') : s'.2.ring.free ≤ s.2.ring.free := by
  rcases h with rfl | hlt
  · exact le_rfl
  · exact hlt.le

theorem TakesTable.trans (h : TakesTable s s₁) (h' : TakesTable s₁ s') : TakesTable s s' := by
  rcases h with rfl | hlt
  · exact h'
  · exact Or.inr (h'.free_le.trans_lt hlt)

/-- A fresh table that is entered. -/
theorem freshTable_free (halloc : Takes alloc) {m₁ m₂ : Machine} {t next : Frame} {i : Nat}
    {e : Word} (hfresh : freshTable alloc m = some (v, next, m₁))
    (hstore : m₁.store t i e = some m₂) : m₂.ring.free < m.ring.free := by
  rcases freshTable_eq_some hfresh with ⟨m₀, hcall, hpointer, rfl⟩
  rcases store_eq_some _ hstore with ⟨hi, rfl⟩
  exact (halloc m v m₀ hcall).2 (ne_zero_of_pointerFrame hpointer)

theorem nextPdpt_free (halloc : Takes alloc) (h : nextPdpt alloc root flags (c, m) = some s') :
    TakesTable (c, m) s' := by
  rw [nextPdpt] at h
  split_ifs at h
  · rcases Option.bind_eq_some_iff.1 h with ⟨⟨v, next, m₁⟩, hfresh, h⟩
    rcases Option.bind_eq_some_iff.1 h with ⟨m₂, hstore, hret⟩
    cases hret
    exact Or.inr (freshTable_free halloc hfresh hstore)
  · exact Or.inl (Option.some_inj.1 h).symm

theorem nextPdt_free (halloc : Takes alloc) (h : nextPdt alloc flags s = some s') :
    TakesTable s s' := by
  rw [nextPdt] at h
  split_ifs at h
  · rcases Option.bind_eq_some_iff.1 h with ⟨⟨v, next, m₁⟩, hfresh, h⟩
    rcases Option.bind_eq_some_iff.1 h with ⟨m₂, hstore, hret⟩
    cases hret
    exact Or.inr (freshTable_free halloc hfresh hstore)
  · exact Or.inl (Option.some_inj.1 h).symm

theorem nextPt_free (halloc : Takes alloc) (h : nextPt alloc flags s = some s') :
    TakesTable s s' ∧ (s' = s → s.1.pti ≠ 512) := by
  rw [nextPt] at h
  split_ifs at h with hpti
  · rcases Option.bind_eq_some_iff.1 h with ⟨⟨v, next, m₁⟩, hfresh, h⟩
    rcases Option.bind_eq_some_iff.1 h with ⟨m₂, hstore, hret⟩
    cases hret
    have hlt := freshTable_free halloc hfresh hstore
    refine ⟨Or.inr hlt, fun heq => ?_⟩
    rw [← heq] at hlt
    exact absurd hlt (lt_irrefl _)
  · exact ⟨Or.inl (Option.some_inj.1 h).symm, fun _ => hpti⟩

/-- One turn goes on to the next entry of its page table, or takes a page. -/
theorem mapStep_free (halloc : Takes alloc)
    (h : mapStep alloc root flags (c, m) = some (c', m')) :
    (c.pti ≠ 512 ∧ c'.pti = c.pti + 1 ∧ m'.ring.free = m.ring.free) ∨
      m'.ring.free < m.ring.free := by
  rcases Option.bind_eq_some_iff.1 h with ⟨s₁, h₁, h⟩
  rcases Option.bind_eq_some_iff.1 h with ⟨s₂, h₂, h⟩
  rcases Option.bind_eq_some_iff.1 h with ⟨⟨c₃, m₃⟩, h₃, h₄⟩
  have henter : m'.ring.free = m₃.ring.free ∧ c'.pti = c₃.pti + 1 := by
    rcases enterPage_cases h₄ with ⟨hi, ⟨-, rfl, rfl⟩ | ⟨-, rfl, rfl⟩⟩
    · exact ⟨rfl, rfl⟩
    · exact ⟨rfl, rfl⟩
  have hfirst : TakesTable (c, m) s₂ :=
    (nextPdpt_free halloc h₁).trans (nextPdt_free halloc h₂)
  rcases nextPt_free halloc h₃ with ⟨hlast, hpti⟩
  rcases hfirst with rfl | hlt
  · rcases hlast with heq | hlt
    · cases heq
      exact Or.inl ⟨hpti rfl, henter.2, henter.1⟩
    · exact Or.inr (henter.1.trans_lt hlt)
  · exact Or.inr (henter.1.trans_lt (hlast.free_le.trans_lt hlt))

/-- The loop takes nothing as long as it is in its page table, and a page when it leaves it. -/
theorem times_mapStep_free (halloc : Takes alloc)
    (h : Loop.times (mapStep alloc root flags) n (c, m) = some (c', m')) :
    m'.ring.free ≤ m.ring.free ∧
      (c.pti ≤ 512 → 512 < c.pti + n → m'.ring.free < m.ring.free) := by
  induction n generalizing c m with
  | zero =>
      cases h
      exact ⟨le_rfl, fun hle hlt => absurd hlt (not_lt.2 hle)⟩
  | succ n ih =>
      rcases Option.bind_eq_some_iff.1 h with ⟨⟨c₁, m₁⟩, hturn, hrest⟩
      rcases ih hrest with ⟨hle, hlt⟩
      rcases mapStep_free halloc hturn with ⟨hpti, hnext, hfree⟩ | htaken
      · rw [← hfree]
        refine ⟨hle, fun hin hout => hlt ?_ ?_⟩
        · omega
        · omega
      · have htaken' := hle.trans_lt htaken
        exact ⟨htaken'.le, fun _ _ => htaken'⟩

theorem takes_bumpInitial : Takes fun m => bumpInitial m 4096 := by
  refine takes_of_page fun {m v m'} hcall => ?_
  rcases bumpFrom_cases hcall with ⟨-, rfl, rfl⟩ | ⟨hfit, ret, -, -, rfl⟩
  · exact ⟨le_rfl, fun hv => absurd rfl hv⟩
  · rw [takePages_ring, SlotRing.take_free]
    exact ⟨Nat.sub_le _ _, fun _ => (Nat.sub_add_cancel hfit).le⟩

theorem mapAddress_free (halloc : Takes alloc) {address phys : Word}
    (h : mapAddress alloc address phys m = some m') : m'.ring.free ≤ m.ring.free := by
  rcases Option.bind_eq_some_iff.1 h with ⟨⟨pdpt, m₁⟩, h₁, h⟩
  rcases Option.bind_eq_some_iff.1 h with ⟨⟨pdt, m₂⟩, h₂, h⟩
  rcases Option.bind_eq_some_iff.1 h with ⟨⟨pt, m₃⟩, h₃, h⟩
  rcases Option.bind_eq_some_iff.1 h with ⟨abc, -, h⟩
  rcases Option.bind_eq_some_iff.1 h with ⟨⟨c', m'⟩, hrun, hret⟩
  cases hret
  calc m'.ring.free
      ≤ m₃.ring.free := (times_mapStep_free halloc hrun).1
    _ ≤ m₂.ring.free := descend_free takes_bumpInitial h₃
    _ ≤ m₁.ring.free := descend_free takes_bumpInitial h₂
    _ ≤ m.ring.free := descend_free takes_bumpInitial h₁

/-! ## `bump` -/

theorem bumpFuel_free {fuel : Nat} (h : bumpFuel fuel size m = some (v, m')) :
    m'.ring.free ≤ m.ring.free ∧
      (v ≠ 0 → m'.ring.free + Allocator.numOfPages size ≤ m.ring.free) := by
  induction fuel generalizing size m v m' with
  | zero => cases h
  | succ fuel ih =>
      rcases bumpWith_cases h with ⟨-, rfl, rfl⟩ | ⟨hfit, ret, -, -, hmap⟩
      · exact ⟨le_rfl, fun hv => absurd rfl hv⟩
      · have hfree := mapAddress_free (takes_of_page fun hcall => ih hcall) hmap
        rw [takePages_ring, SlotRing.take_free] at hfree
        exact ⟨by omega, fun _ => by omega⟩

theorem bump_free (h : bump size m = some (v, m')) : m'.ring.free ≤ m.ring.free ∧
    (v ≠ 0 → m'.ring.free + Allocator.numOfPages size ≤ m.ring.free) :=
  bumpFuel_free h

/-- With a table for every part of the kernel window, a `bump` that is served takes the pages that
were asked for and no others just when the pages that it maps end in one page table. -/
theorem KernelMap.bump_takes_iff (h : KernelMap m K D T) (hbump : Paging.bump size m = some (v, m'))
    (hv : v ≠ 0) :
    m'.ring.free + Allocator.numOfPages size = m.ring.free ↔
      ∀ ret ∈ m.ring.slots.head?,
        ∀ abc ∈ (m.ring.slots.rotate (Allocator.numOfPages size)).head?, EndsInTable ret abc := by
  have hfit := fits_of_bump hbump hv
  constructor
  · intro hfree ret hret abc habc
    rcases h.bump_loop hbump hfit with
      ⟨ret', abc', -, -, hret', habc', -, c, c', -, -, hpti, -, -, hrun⟩
    cases hret.symm.trans hret'
    cases habc.symm.trans habc'
    by_contra hout
    -- the loop runs over the end of the table, and takes a page for the next one
    rw [EndsInTable, not_le, ← hpti] at hout
    have halloc : Takes (bumpFuel (m.ring.free + 1) 4096) :=
      takes_of_page fun hcall => bumpFuel_free hcall
    have hlt := (times_mapStep_free halloc hrun).2 (by omega) hout
    rw [takePages_ring, SlotRing.take_free] at hlt
    omega
  · intro hends
    rcases h.bump_filled hbump hfit hends with ⟨ret, abc, -, -, -, -, -, -, hfilled⟩
    rw [hfilled.ring, takePages_ring, SlotRing.take_free]
    exact Nat.sub_add_cancel hfit

end Paging

end OswpKernel
