import OswpKernel.Paging.Fault
import OswpKernel.Paging.TablePages

/-!
# Free pages — what no call of the fault handler changes

Pages are taken off the free list from the front, and `copy_page` puts back the one it has taken:
the list stays one of pages in the first 2 GiB, and the process stays the current one.  Nothing is
asked of the page tables here, and a fault may come from any address.
-/

namespace OswpKernel

namespace Paging

open Machine

variable {alloc : Machine → Option (Word × Machine)} {root t next : Frame} {flags : MapFlags}
  {m m' m₁ : Machine} {c c' : Cursor} {s s' : Cursor × Machine} {i : Slot} {v size flag : Word}

/-- The free list stays one of low pages, and the process the current one. -/
structure KeepsList (m m' : Machine) : Prop where
  current : m'.current = m.current
  low : (∀ p ∈ m.ring.contents, LowPage p) → ∀ p ∈ m'.ring.contents, LowPage p

theorem KeepsList.refl (m : Machine) : KeepsList m m := ⟨rfl, fun h => h⟩

theorem KeepsList.trans (h : KeepsList m m₁) (h' : KeepsList m₁ m') : KeepsList m m' :=
  ⟨h'.current.trans h.current, fun hlow => h'.low (h.low hlow)⟩

/-- A store leaves the list alone. -/
theorem KeepsList.of_stores (hcurrent : m'.current = m.current) (hring : m'.ring = m.ring) :
    KeepsList m m' :=
  ⟨hcurrent, fun hlow => by rwa [hring]⟩

theorem KeepsList.takePages (m : Machine) (who : Owner) {n : Nat} (hn : n ≤ m.ring.free) :
    KeepsList m (m.takePages who n) := by
  refine ⟨rfl, fun hlow p hp => hlow p ?_⟩
  rw [takePages_ring, SlotRing.contents_take _ hn] at hp
  exact List.mem_of_mem_drop hp

/-- An allocator that keeps both. -/
def KeepsAlloc (alloc : Machine → Option (Word × Machine)) : Prop :=
  ∀ m v m', alloc m = some (v, m') → KeepsList m m'

/-! ## The routines of the mapping calls -/

theorem descend_keeps (halloc : KeepsAlloc alloc) (h : descend alloc flag t i m = some (next, m')) :
    KeepsList m m' := by
  rcases descend_cases h with ⟨-, -, rfl⟩ | ⟨-, v, m₁, hcall, -, rfl⟩
  · exact KeepsList.refl m'
  · exact (halloc m v m₁ hcall).trans (.of_stores rfl rfl)

theorem freshTable_keeps (halloc : KeepsAlloc alloc)
    (h : freshTable alloc m = some (v, next, m')) : KeepsList m m' := by
  rcases freshTable_eq_some h with ⟨m₁, hcall, -, rfl⟩
  exact (halloc m v m₁ hcall).trans (.of_stores rfl rfl)

/-- A fresh table that is entered. -/
theorem freshTable_store_keeps (halloc : KeepsAlloc alloc) {j : Nat} {e : Word}
    (hfresh : freshTable alloc m = some (v, next, m₁)) (hstore : m₁.store t j e = some m') :
    KeepsList m m' := by
  rcases store_eq_some _ hstore with ⟨hj, rfl⟩
  exact (freshTable_keeps halloc hfresh).trans (.of_stores rfl rfl)

theorem nextPdpt_keeps (halloc : KeepsAlloc alloc) (h : nextPdpt alloc root flags s = some s') :
    KeepsList s.2 s'.2 := by
  rw [nextPdpt] at h
  split_ifs at h
  · rcases Option.bind_eq_some_iff.1 h with ⟨⟨v, next, m₁⟩, hfresh, h⟩
    rcases Option.bind_eq_some_iff.1 h with ⟨m₂, hstore, hret⟩
    cases hret
    exact freshTable_store_keeps halloc hfresh hstore
  · cases h
    exact KeepsList.refl _

theorem nextPdt_keeps (halloc : KeepsAlloc alloc) (h : nextPdt alloc flags s = some s') :
    KeepsList s.2 s'.2 := by
  rw [nextPdt] at h
  split_ifs at h
  · rcases Option.bind_eq_some_iff.1 h with ⟨⟨v, next, m₁⟩, hfresh, h⟩
    rcases Option.bind_eq_some_iff.1 h with ⟨m₂, hstore, hret⟩
    cases hret
    exact freshTable_store_keeps halloc hfresh hstore
  · cases h
    exact KeepsList.refl _

theorem nextPt_keeps (halloc : KeepsAlloc alloc) (h : nextPt alloc flags s = some s') :
    KeepsList s.2 s'.2 := by
  rw [nextPt] at h
  split_ifs at h
  · rcases Option.bind_eq_some_iff.1 h with ⟨⟨v, next, m₁⟩, hfresh, h⟩
    rcases Option.bind_eq_some_iff.1 h with ⟨m₂, hstore, hret⟩
    cases hret
    exact freshTable_store_keeps halloc hfresh hstore
  · cases h
    exact KeepsList.refl _

theorem enterPage_keeps (h : enterPage flags s = some s') : KeepsList s.2 s'.2 := by
  rcases enterPage_cases h with ⟨hi, ⟨-, hsame, -⟩ | ⟨-, hwrite, -⟩⟩
  · rw [hsame]
    exact KeepsList.refl _
  · rw [hwrite]
    exact .of_stores rfl rfl

/-- One turn of the mapping loop. -/
theorem mapStep_keeps (halloc : KeepsAlloc alloc) (h : mapStep alloc root flags s = some s') :
    KeepsList s.2 s'.2 := by
  rcases Option.bind_eq_some_iff.1 h with ⟨s₁, h₁, h⟩
  rcases Option.bind_eq_some_iff.1 h with ⟨s₂, h₂, h⟩
  rcases Option.bind_eq_some_iff.1 h with ⟨s₃, h₃, h₄⟩
  have hpdpt := nextPdpt_keeps halloc h₁
  have hpdt := nextPdt_keeps halloc h₂
  have hpt := nextPt_keeps halloc h₃
  exact ((hpdpt.trans hpdt).trans hpt).trans (enterPage_keeps h₄)

theorem times_mapStep_keeps (halloc : KeepsAlloc alloc) {n : Nat}
    (h : Loop.times (mapStep alloc root flags) n (c, m) = some (c', m')) : KeepsList m m' :=
  Loop.times_invariant (I := fun s => KeepsList m s.2)
    (fun hkeep hturn => hkeep.trans (mapStep_keeps halloc hturn)) h (KeepsList.refl m)

/-! ## The allocator -/

theorem bumpFrom_keeps {base : Word} {who : Owner} (h : m.bumpFrom base who size = some (v, m')) :
    KeepsList m m' := by
  rcases bumpFrom_cases h with ⟨-, -, rfl⟩ | ⟨hfit, ret, -, -, rfl⟩
  · exact KeepsList.refl m'
  · exact KeepsList.takePages m who hfit

theorem mapAddress_keeps (halloc : KeepsAlloc alloc) {address phys : Word}
    (h : mapAddress alloc address phys m = some m') : KeepsList m m' := by
  have hinitial : KeepsAlloc fun m => bumpInitial m 4096 := fun _ _ _ => bumpFrom_keeps
  rcases Option.bind_eq_some_iff.1 h with ⟨⟨pdpt, m₁⟩, h₁, h⟩
  rcases Option.bind_eq_some_iff.1 h with ⟨⟨pdt, m₂⟩, h₂, h⟩
  rcases Option.bind_eq_some_iff.1 h with ⟨⟨pt, m₃⟩, h₃, h⟩
  rcases Option.bind_eq_some_iff.1 h with ⟨abc, -, h⟩
  rcases Option.bind_eq_some_iff.1 h with ⟨⟨c', m'⟩, hrun, hret⟩
  cases hret
  have hwalk := ((descend_keeps hinitial h₁).trans (descend_keeps hinitial h₂)).trans
    (descend_keeps hinitial h₃)
  exact hwalk.trans (times_mapStep_keeps halloc hrun)

theorem bumpFuel_keeps {fuel : Nat} (h : bumpFuel fuel size m = some (v, m')) :
    KeepsList m m' := by
  induction fuel generalizing size m v m' with
  | zero => cases h
  | succ fuel ih =>
      rcases bumpWith_cases h with ⟨-, -, rfl⟩ | ⟨hfit, ret, -, -, hmap⟩
      · exact KeepsList.refl m'
      · exact (KeepsList.takePages m .kernel hfit).trans
          (mapAddress_keeps (fun _ _ _ hcall => ih hcall) hmap)

theorem bump_keeps (h : bump size m = some (v, m')) : KeepsList m m' := bumpFuel_keeps h

theorem keepsAlloc_bump (size : Word) : KeepsAlloc (bump size) := fun _ _ _ => bump_keeps

theorem allocate_keeps (h : allocate size m = some m') : KeepsList m m' := by
  rcases Option.bind_eq_some_iff.1 h with ⟨⟨v, m₁⟩, hbump, h⟩
  rcases Option.bind_eq_some_iff.1 h with ⟨f, -, hret⟩
  cases hret
  exact bump_keeps hbump

/-! ## The fault handler -/

theorem mapUserAddress_keeps {address phys : Word} {n : Int} {table : Frame} {mapped : List Frame}
    (h : mapUserAddress address phys n table flag m = some (mapped, m')) : KeepsList m m' := by
  have halloc := keepsAlloc_bump 4096
  rcases Option.bind_eq_some_iff.1 h with ⟨⟨pdpt, m₁⟩, h₁, h⟩
  rcases Option.bind_eq_some_iff.1 h with ⟨⟨pdt, m₂⟩, h₂, h⟩
  rcases Option.bind_eq_some_iff.1 h with ⟨⟨pt, m₃⟩, h₃, h⟩
  rcases Option.bind_eq_some_iff.1 h with ⟨⟨c', m'⟩, hrun, hret⟩
  cases hret
  have hwalk := ((descend_keeps halloc h₁).trans (descend_keeps halloc h₂)).trans
    (descend_keeps halloc h₃)
  exact hwalk.trans (times_mapStep_keeps halloc hrun)

theorem copyDescend_keeps {below : Frame → Machine → Machine}
    (hbelow : ∀ t m, KeepsList m (below t m))
    (h : copyDescend t i below m = some (next, m')) : KeepsList m m' := by
  rw [copyDescend] at h
  split_ifs at h
  · rcases Option.bind_eq_some_iff.1 h with ⟨f, -, hret⟩
    cases hret
    exact hbelow _ m
  · rcases Option.bind_eq_some_iff.1 h with ⟨⟨v, f, m₁⟩, hfresh, hret⟩
    cases hret
    exact (freshTable_keeps (keepsAlloc_bump 4096) hfresh).trans (.of_stores rfl rfl)

theorem raise_keeps (t : Frame) (i : Slot) (m : Machine) : KeepsList m (m.raise t i) :=
  .of_stores rfl rfl

theorem kfree_current (h : m.kfree v = some m') : m'.current = m.current := by
  rcases Option.bind_eq_some_iff.1 h with ⟨m₁, hunmap, h⟩
  rcases Option.bind_eq_some_iff.1 hunmap with ⟨pt, -, hret⟩
  cases hret
  split_ifs at h
  cases h
  rfl

theorem kfree_contents (h : m.kfree v = some m') :
    m'.ring.contents = m.ring.contents ++ [Allocator.physAddress v] := by
  rcases Option.bind_eq_some_iff.1 h with ⟨m₁, hunmap, h⟩
  rcases Option.bind_eq_some_iff.1 hunmap with ⟨pt, -, hret⟩
  cases hret
  split_ifs at h with hroom
  cases h
  exact SlotRing.contents_put _ _ hroom.2

/-- What `bump` returned is put back. -/
theorem kfree_keeps {m₂ : Machine} (hbump : bump 4096 m = some (v, m₁)) (hv : v ≠ 0)
    (hkeep : KeepsList m₁ m₂) (h : m₂.kfree v = some m') : KeepsList m m' := by
  have hfrom := (bump_keeps hbump).trans hkeep
  refine ⟨(kfree_current h).trans hfrom.current, fun hlow p hp => ?_⟩
  rw [kfree_contents h] at hp
  rcases List.mem_append.1 hp with hp | hp
  · exact hfrom.low hlow p hp
  · rcases bump_ret (by decide) hbump with hzero | ⟨page, hpage, rfl⟩
    · exact absurd hzero hv
    · have hlowpage := hlow page hpage
      rw [List.mem_singleton.1 hp, Allocator.physAddress_KERNBASE hlowpage.low]
      exact hlowpage

theorem copyPage_keeps {table : Frame} {page : Word} (h : copyPage table page m = some m') :
    KeepsList m m' := by
  rcases Option.bind_eq_some_iff.1 h with ⟨⟨pdpt, m₁⟩, h₁, h⟩
  rcases Option.bind_eq_some_iff.1 h with ⟨⟨pdt, m₂⟩, h₂, h⟩
  rcases Option.bind_eq_some_iff.1 h with ⟨⟨pt, m₃⟩, h₃, h⟩
  rcases Option.bind_eq_some_iff.1 h with ⟨⟨phys, m₄⟩, h₄, h⟩
  have hwalk : KeepsList m m₃ :=
    (((raise_keeps table (pml4Index page) m).trans
      (copyDescend_keeps (fun t => raise_keeps t (pdptIndex page)) h₁)).trans
      (copyDescend_keeps (fun t => raise_keeps t (pdtIndex page)) h₂)).trans
      (copyDescend_keeps (fun _ => KeepsList.refl) h₃)
  have htaken := hwalk.trans (bumpFrom_keeps h₄)
  dsimp only at h
  split_ifs at h
  · rcases Option.bind_eq_some_iff.1 h with ⟨⟨v, m₅⟩, hbump, h⟩
    rcases Option.bind_eq_some_iff.1 h with ⟨copy, hcopy, h⟩
    rcases Option.bind_eq_some_iff.1 h with ⟨source, -, h⟩
    rcases Option.bind_eq_some_iff.1 h with ⟨dest, -, hfree⟩
    rcases Option.bind_eq_some_iff.1 hcopy with ⟨f, hpointer, -⟩
    have hstores : KeepsList m₅ (((m₅.setPage copy (m₅.mem source)).write pt (ptIndex page)
        (phys ||| 7)).setPage dest (((m₅.setPage copy (m₅.mem source)).write pt (ptIndex page)
        (phys ||| 7)).mem copy)) := .of_stores rfl rfl
    exact htaken.trans (kfree_keeps hbump (ne_zero_of_pointerFrame hpointer) hstores hfree)
  · cases h
    exact htaken.trans (.of_stores rfl rfl)

theorem interrupt4_keeps {arg1 : Word} {mapped : List Frame} {s s' : System}
    (h : interrupt4 arg1 s = some (mapped, s')) : KeepsList s.machine s'.machine := by
  rw [interrupt4] at h
  split_ifs at h
  · rcases Option.bind_eq_some_iff.1 h with ⟨m₁, hcopy, hret⟩
    cases hret
    exact copyPage_keeps hcopy
  · cases h
    exact KeepsList.refl _
  · rcases Option.bind_eq_some_iff.1 h with ⟨⟨mapped', m₁⟩, hmap, hret⟩
    cases hret
    exact mapUserAddress_keeps hmap

/-! ## A new process -/

theorem mapSegment_keeps {table : Frame} {phdr : ProgramHeader}
    (h : mapSegment table phdr m = some m') : KeepsList m m' := by
  rw [mapSegment] at h
  rcases Option.bind_eq_some_iff.1 h with ⟨m₁, h₁, h⟩
  rcases Option.bind_eq_some_iff.1 h with ⟨m₂, h₂, h⟩
  rcases Option.bind_eq_some_iff.1 h with ⟨⟨phy, m₃⟩, h₃, h⟩
  rcases Option.bind_eq_some_iff.1 h with ⟨⟨mapped, m₄⟩, h₄, hret⟩
  cases hret
  have hfile : KeepsList m₁ m₂ := by
    rw [allocateFile] at h₂
    split_ifs at h₂
    · exact allocate_keeps h₂
    · cases h₂
      exact KeepsList.refl _
  exact (((allocate_keeps h₁).trans hfile).trans (bumpFrom_keeps h₃)).trans
    (mapUserAddress_keeps h₄)

/-- An area of a page for the process: it starts at a low page, in the window of `USERBASE`. -/
theorem area_keeps {who : Owner} {m₂ : Machine}
    (hpages : m.bumpFrom USERBASE who 4096 = some (v, m₁)) (halloc : allocate 48 m₁ = some m₂) :
    KeepsList m m₂ ∧ ∃ p ∈ m.ring.contents, v = p + USERBASE := by
  refine ⟨(bumpFrom_keeps hpages).trans (allocate_keeps halloc), ?_⟩
  rcases bumpFrom_cases hpages with ⟨hfull, -, rfl⟩ | ⟨hfit, ret, hhead, rfl, -⟩
  · -- without a free page there is no record of the area either
    rw [allocate] at halloc
    rcases Option.bind_eq_some_iff.1 halloc with ⟨⟨w, m₃⟩, hbump, h⟩
    rcases Option.bind_eq_some_iff.1 h with ⟨f, hpointer, -⟩
    have hfit := fits_of_bump hbump (ne_zero_of_pointerFrame hpointer)
    have hone : Allocator.numOfPages 4096 = Allocator.numOfPages 48 := by decide
    omega
  · refine ⟨ret, ?_, rfl⟩
    have hone : Allocator.numOfPages 4096 = 1 := by decide
    rw [hone] at hfit
    obtain ⟨rest, hslots⟩ := List.head?_eq_some_iff.1 hhead
    rw [SlotRing.contents, hslots]
    exact List.mem_take_iff_getElem.2 ⟨0, by simpa using Nat.lt_of_succ_le hfit, rfl⟩

end Paging

end OswpKernel
