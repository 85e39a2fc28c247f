import OswpKernel.Paging.Roles

/-!
# Bump reads — which pages `bump` looks at

`bump` walks and fills tables of the kernel, and clears pages that were free.  What the tables of
the processes hold makes no difference to it: on machines that differ in those only, it hands out
the same page and leaves machines that differ in those only (`bump_reads`).
-/

namespace OswpKernel

namespace Paging

open Machine

variable {U : Frame → Prop} {alloc : Machine → Option (Word × Machine)} {m m' n : Machine}
  {role : Frame → Role} {c c' : Cursor} {t next root : Frame} {i : Slot} {v e size : Word} {k : Nat}

/-! ## Machines that differ in some pages -/

/-- The two machines differ at most in the pages of `U`. -/
structure SameBut (U : Frame → Prop) (m n : Machine) : Prop where
  mem : ∀ t, ¬ U t → n.mem t = m.mem t
  ring : n.ring = m.ring
  owner : n.owner = m.owner
  pml4t : n.pml4t = m.pml4t
  current : n.current = m.current

theorem SameBut.symm (h : SameBut U m n) : SameBut U n m :=
  ⟨fun t ht => (h.mem t ht).symm, h.ring.symm, h.owner.symm, h.pml4t.symm, h.current.symm⟩

theorem SameBut.setPage (h : SameBut U m n) (f : Frame) (page : Slot → Word) :
    SameBut U (m.setPage f page) (n.setPage f page) := by
  refine ⟨fun t ht => ?_, h.ring, h.owner, h.pml4t, h.current⟩
  by_cases hf : t = f
  · rw [hf, setPage_mem_self, setPage_mem_self]
  · rw [setPage_mem_of_ne _ _ hf, setPage_mem_of_ne _ _ hf, h.mem t ht]

theorem SameBut.write (h : SameBut U m n) (ht : ¬ U t) (i : Slot) (e : Word) :
    SameBut U (m.write t i e) (n.write t i e) := by
  rw [Machine.write, Machine.write, h.mem t ht]
  exact h.setPage t _

theorem SameBut.takePages (h : SameBut U m n) (who : Owner) (k : Nat) :
    SameBut U (m.takePages who k) (n.takePages who k) := by
  refine ⟨h.mem, ?_, ?_, h.pml4t, h.current⟩
  · rw [takePages_ring, takePages_ring, h.ring]
  · simp only [Machine.takePages, h.ring, h.owner]

theorem SameBut.child (h : SameBut U m n) (ht : ¬ U t) (i : Slot) : n.child t i = m.child t i :=
  child_congr (congrFun (h.mem t ht) i)

/-- All pages of `U` are tables of processes. -/
def UserTables (U : Frame → Prop) (role : Frame → Role) : Prop :=
  ∀ t, U t → ∃ r path, role t = .table r path

theorem UserTables.notKernel (hU : UserTables U role) {level : Nat} (ht : role t = .kernel level) :
    ¬ U t := by
  intro hmem
  rcases hU t hmem with ⟨r, path, htable⟩
  rw [ht] at htable
  cases htable

/-- What the kernel allocates for itself leaves the tables of the processes what they are. -/
theorem UserTables.grown {role' : Frame → Role} (hU : UserTables U role)
    (hgrown : Grown m role m' role') : UserTables U role' := by
  intro t ht
  rcases hU t ht with ⟨r, path, htable⟩
  exact ⟨r, path, (hgrown.keep t (by rw [htable]; exact Role.noConfusion)).trans htable⟩

/-! ## The routines of `map_address` -/

/-- What is asked of the `alloc` of a mapping routine. -/
def AllocReads (U : Frame → Prop) (alloc : Machine → Option (Word × Machine)) : Prop :=
  ∀ {m n role v m'}, Roles m role → UserTables U role → SameBut U m n → alloc m = some (v, m') →
    ∃ n', alloc n = some (v, n') ∧ SameBut U m' n'

theorem bumpInitial_reads (hsame : SameBut U m n) (hbump : bumpInitial m size = some (v, m')) :
    ∃ n', bumpInitial n size = some (v, n') ∧ SameBut U m' n' := by
  rw [bumpInitial, Machine.bumpFrom, hsame.ring]
  rcases bumpFrom_cases hbump with ⟨hfull, rfl, rfl⟩ | ⟨hfit, ret, hhead, rfl, rfl⟩
  · exact ⟨n, if_pos hfull, hsame⟩
  · rw [if_neg (not_lt.2 hfit), hhead]
    exact ⟨_, rfl, hsame.takePages _ _⟩

theorem descend_reads (hU : UserTables U role) (hsame : SameBut U m n) {level : Nat}
    (ht : role t = .kernel level)
    (hdescend : descend (fun m => bumpInitial m 4096) 3 t i m = some (next, m')) :
    ∃ n', descend (fun m => bumpInitial m 4096) 3 t i n = some (next, n') ∧ SameBut U m' n' := by
  have hentry : n.mem t i = m.mem t i := congrFun (hsame.mem t (hU.notKernel ht)) i
  rw [descend, hentry]
  rcases descend_cases hdescend with ⟨hpresent, htable, rfl⟩ | ⟨habsent, v, m₁, halloc, hnext, rfl⟩
  · rw [if_pos hpresent, htable]
    exact ⟨n, rfl, hsame⟩
  · rcases bumpInitial_reads hsame halloc with ⟨n₁, halloc', hsame₁⟩
    rw [if_neg habsent, halloc', Option.bind_eq_bind, Option.bind_some]
    dsimp only
    rw [hnext]
    exact ⟨_, rfl, (hsame₁.write (hU.notKernel ht) i _).setPage next _⟩

theorem enterPage_reads {flags : MapFlags} (hsame : SameBut U m n) (hpt : ¬ U c.pt)
    (henter : enterPage flags (c, m) = some (c', m')) :
    ∃ n', enterPage flags (c, n) = some (c', n') ∧ SameBut U m' n' := by
  rcases enterPage_cases henter with ⟨hi, hcases⟩
  have hentry : n.mem c.pt ⟨c.pti, hi⟩ = m.mem c.pt ⟨c.pti, hi⟩ := congrFun (hsame.mem _ hpt) _
  rw [enterPage, load_of_lt n hi, hentry, Option.bind_eq_bind, Option.bind_some]
  rcases hcases with ⟨hpresent, rfl, rfl⟩ | ⟨habsent, rfl, rfl⟩
  · rw [if_pos hpresent]
    exact ⟨n, rfl, hsame⟩
  · rw [if_neg habsent, store_of_lt n hi]
    exact ⟨_, rfl, hsame.write hpt _ _⟩

/-- The loop of `map_address`. -/
theorem times_mapStep_reads (hspec : AllocSpec alloc) (hreads : AllocReads U alloc)
    (h : Roles m role) (hU : UserTables U role) (hc : KernelCursor c role) (hsame : SameBut U m n)
    (hrun : Loop.times (mapStep alloc root ⟨3, 3, 3⟩) k (c, m) = some (c', m')) :
    ∃ n', Loop.times (mapStep alloc root ⟨3, 3, 3⟩) k (c, n) = some (c', n') ∧
      SameBut U m' n' := by
  induction k generalizing c m n role with
  | zero =>
      cases hrun
      exact ⟨n, rfl, hsame⟩
  | succ k ih =>
      rcases Option.bind_eq_some_iff.1 hrun with ⟨⟨c₁, m₁⟩, hturn, hrest⟩
      rcases mapStep_kernel hspec h hc hturn with ⟨role₁, ⟨h₁, hc₁⟩, hgrown⟩
      have hstep : ∃ n₁, mapStep alloc root ⟨3, 3, 3⟩ (c, n) = some (c₁, n₁) ∧ SameBut U m₁ n₁ := by
        rcases mapStep_cases hc.pdpti hc.pdti hturn with
          ⟨hin, henter⟩ | ⟨hroll, v, next, m₂, hi, halloc, hnext, henter⟩
        · rw [mapStep_inside hc.pdpti hc.pdti hin]
          exact enterPage_reads hsame (hU.notKernel hc.pt) henter
        · rcases hreads h hU hsame halloc with ⟨n₂, halloc', hsame₂⟩
          rw [mapStep_roll hc.pdpti hc.pdti hroll halloc' hnext hi]
          have hentered := (hsame₂.setPage next fun _ => 0).write (hU.notKernel hc.pdt)
            ⟨c.pdti + 1, hi⟩ (linkTo v 3)
          -- the new page table was free
          have hnew : ¬ U next := by
            rcases hspec h halloc with ⟨rfl, -⟩ | ⟨role₂, f, rfl, hhanded⟩
            · rw [pointerFrame_null] at hnext
              cases hnext
            · rw [hhanded.pointerFrame] at hnext
              rcases Option.some_inj.1 hnext with rfl
              intro hmem
              rcases hU _ hmem with ⟨r, path, htable⟩
              rw [hhanded.wasPlain h] at htable
              cases htable
          exact enterPage_reads hentered hnew henter
      rcases hstep with ⟨n₁, hturn', hsame₁⟩
      rcases ih h₁ (hU.grown hgrown) hc₁ hsame₁ hrest with ⟨n', hrest', hsame'⟩
      exact ⟨n', Option.bind_eq_some_iff.2 ⟨_, hturn', hrest'⟩, hsame'⟩

theorem mapAddress_reads (hspec : AllocSpec alloc) (hreads : AllocReads U alloc) (h : Roles m role)
    (hU : UserTables U role) (hsame : SameBut U m n) {f : Nat} (hf : f < 2 ^ 19) {phys : Word}
    (hmap : mapAddress alloc (pageWord f + KERNBASE) phys m = some m') :
    ∃ n', mapAddress alloc (pageWord f + KERNBASE) phys n = some n' ∧ SameBut U m' n' := by
  have htop : pml4Index (pageWord f + KERNBASE) = 511 := by
    have hpath := pathOf_kernelWord hf
    rw [pathOf, List.cons.injEq] at hpath
    exact hpath.1
  rcases Option.bind_eq_some_iff.1 hmap with ⟨⟨pdpt, m₁⟩, hdown₁, hmap⟩
  rcases Option.bind_eq_some_iff.1 hmap with ⟨⟨pdt, m₂⟩, hdown₂, hmap⟩
  rcases Option.bind_eq_some_iff.1 hmap with ⟨⟨pt, m₃⟩, hdown₃, hmap⟩
  rcases Option.bind_eq_some_iff.1 hmap with ⟨abc, habc, hmap⟩
  rcases Option.bind_eq_some_iff.1 hmap with ⟨⟨c', m'⟩, hloop, hret⟩
  cases hret
  rcases descend_kernel h h.top (by decide) (fun _ => htop) hdown₁ with ⟨role₁, h₁, hg₁, hr₁, -⟩
  rcases descend_kernel h₁ hr₁ (by decide) (fun h => absurd h (by decide)) hdown₂ with
    ⟨role₂, h₂, hg₂, hr₂, -⟩
  rcases descend_kernel h₂ hr₂ (by decide) (fun h => absurd h (by decide)) hdown₃ with
    ⟨role₃, h₃, hg₃, hr₃, -⟩
  have hU₁ := hU.grown hg₁
  have hU₂ := hU₁.grown hg₂
  rcases descend_reads hU hsame h.top hdown₁ with ⟨n₁, hdown₁', hsame₁⟩
  rcases descend_reads hU₁ hsame₁ hr₁ hdown₂ with ⟨n₂, hdown₂', hsame₂⟩
  rcases descend_reads hU₂ hsame₂ hr₂ hdown₃ with ⟨n₃, hdown₃', hsame₃⟩
  have hpdt : role₃ pdt = .kernel 2 :=
    (hg₃.keep _ (by rw [hr₂]; exact Role.noConfusion)).trans hr₂
  have hc : KernelCursor (cursorAt (pageWord f + KERNBASE) phys pdpt pdt pt) role₃ := by
    refine ⟨?_, ?_, hpdt, hr₃⟩
    · exact (pdptIndex (pageWord f + KERNBASE)).isLt.ne
    · exact (pdtIndex (pageWord f + KERNBASE)).isLt.ne
  rcases times_mapStep_reads hspec hreads h₃ (hU₂.grown hg₃) hc hsame₃ hloop with
    ⟨n', hloop', hsame'⟩
  rw [← hsame.pml4t] at hdown₁'
  rw [← hsame₃.pml4t] at hloop'
  have habc' : n₃.getUnallocated = some abc := by
    rw [getUnallocated, hsame₃.ring]
    exact habc
  refine ⟨n', ?_, hsame'⟩
  refine Option.bind_eq_some_iff.2 ⟨_, hdown₁', ?_⟩
  refine Option.bind_eq_some_iff.2 ⟨_, hdown₂', ?_⟩
  refine Option.bind_eq_some_iff.2 ⟨_, hdown₃', ?_⟩
  refine Option.bind_eq_some_iff.2 ⟨_, habc', ?_⟩
  exact Option.bind_eq_some_iff.2 ⟨_, hloop', rfl⟩

/-! ## `bump` -/

theorem bumpFuel_reads {fuel : Nat} (h : Roles m role) (hU : UserTables U role)
    (hsame : SameBut U m n) (hpos : 0 < Allocator.numOfPages size)
    (hbump : bumpFuel fuel size m = some (v, m')) :
    ∃ n', bumpFuel fuel size n = some (v, n') ∧ SameBut U m' n' := by
  induction fuel generalizing m n role m' size v with
  | zero => cases hbump
  | succ fuel ih =>
      have hreads : AllocReads U (bumpFuel fuel 4096) := fun h hU hsame hbump =>
        ih h hU hsame (by decide) hbump
      rw [bumpFuel, bumpWith, hsame.ring]
      rcases bumpWith_cases hbump with ⟨hfull, rfl, rfl⟩ | ⟨hfit, ret, hhead, rfl, hmap⟩
      · exact ⟨n, if_pos hfull, hsame⟩
      · rw [if_neg (not_lt.2 hfit), hhead]
        rcases h.handed .kernel hhead hpos hfit with ⟨f, rfl, hhanded⟩
        rcases mapAddress_reads (bumpFuel_allocSpec fuel) hreads hhanded.roles
          (hU.grown hhanded.grown) (hsame.takePages .kernel _) hhanded.low hmap with
          ⟨n', hmap', hsame'⟩
        refine ⟨n', ?_, hsame'⟩
        rw [Option.bind_eq_bind, Option.bind_some]
        exact Option.bind_eq_some_iff.2 ⟨_, hmap', rfl⟩

theorem bump_reads (h : Roles m role) (hU : UserTables U role) (hsame : SameBut U m n)
    (hpos : 0 < Allocator.numOfPages size) (hbump : bump size m = some (v, m')) :
    ∃ n', bump size n = some (v, n') ∧ SameBut U m' n' := by
  rw [bump, hsame.ring]
  exact bumpFuel_reads h hU hsame hpos hbump

end Paging

end OswpKernel
