import OswpKernel.Paging.Mapping
import OswpKernel.Lib.Execution

/-!
# Kernel map — memory returned by `bump` is mapped

`map_pagetables` leaves one page table for every 2 MiB of the kernel window.  `KernelMap` says that
these tables are where the top table leads to and map every page to itself.  `bump` fills one of
them as long as the distance that `map_address` measures, from the page handed out to the next free
page, stays inside it and covers the request.
-/

namespace OswpKernel

namespace Paging

open Machine Execution

variable {m m' m₀ : Machine} {K : Nat} {D T : Nat → Nat} {v : Word} {size : Word}

/-- The address of a page frame in the kernel window. -/
abbrev kernelWord (f : Nat) : Word := pageWord f + KERNBASE

/-- The tables behind the kernel window: `K` behind the last entry of the top table, `D` behind the
last two entries of `K`, and a page table `T g` for the `g`-th 2 MiB. -/
structure KernelTables (m : Machine) (K : Nat) (D T : Nat → Nat) : Prop where
  pdpt : m.child m.pml4t 511 = some K
  current : m.mem m.current 511 = m.mem m.pml4t 511
  pdt : ∀ h < 2, m.child K (Fin.ofNat 512 (510 + h)) = some (D h)
  pt : ∀ g < 1024, m.child (D (g / 512)) (Fin.ofNat 512 g) = some (T g)
  low : K < 2 ^ 19 ∧ (∀ h, D h < 2 ^ 19) ∧ ∀ g, T g < 2 ^ 19
  distinct : ∀ g < 1024, ∀ g' < 1024, T g = T g' → g = g'
  apart : ∀ g < 1024, T g ≠ m.pml4t ∧ T g ≠ m.current ∧ T g ≠ K ∧ T g ≠ D 0 ∧ T g ≠ D 1

/-- The kernel window maps every page that is present in it to itself. -/
structure KernelMap (m : Machine) (K : Nat) (D T : Nat → Nat) : Prop
    extends KernelTables m K D T where
  identity : ∀ f < 2 ^ 19, ∀ f' : Nat, m.child (T (f / 512)) (Fin.ofNat 512 f) = some f' → f' = f
  pages : ∀ p ∈ m.ring.slots, LowPage p

/-- `va` is mapped to its address minus `KERNBASE`. -/
def Mapped (m : Machine) (va : Word) : Prop :=
  m.translate m.pml4t va = some (frameOf (va - KERNBASE))

instance (m : Machine) (va : Word) : Decidable (Mapped m va) :=
  inferInstanceAs (Decidable (_ = _))

/-- A table of the walk to an address of the kernel window, or the current top table. -/
def KernelTable (m : Machine) (t : Frame) : Prop :=
  t = m.current ∨ ∃ f < 2 ^ 19, ∃ k ≤ 3, m.walk m.pml4t ((pathOf (kernelWord f)).take k) = some t

/-! ## Runs of the allocator -/

inductive AllocEvent
  | bump (size : Word)
  | bumpUser (table : Frame) (size : Word)
  | bumpPhysical (table : Frame) (size : Word)
  | kfree (freed : Word)

def allocStep (m : Machine) : AllocEvent → Option Machine
  | .bump size => (bump size m).map Prod.snd
  | .bumpUser table size => (m.bumpUser table size).map Prod.snd
  | .bumpPhysical table size => (m.bumpPhysical table size).map Prod.snd
  | .kfree freed => m.kfree freed

/-- The state of the free list in which a request for `size` bytes is mapped: with `ret` the page it
gets and `abc` the page at the head once it is served, `abc` lies no further than the end of the
2 MiB around `ret` (and not almost 2 GiB below it), and the requested pages from `abc` on are
already mapped. -/
def CoveredBy (m : Machine) (size : Word) (ret abc : Word) : Prop :=
  frameOf abc ≤ (frameOf ret / 512 + 1) * 512 ∧ frameOf ret ≤ frameOf abc + (2 ^ 19 - 2 ^ 10) ∧
    ∀ i < Allocator.numOfPages size, frameOf abc ≤ frameOf ret + i →
      frameOf ret + i < 2 ^ 19 ∧ Mapped m (kernelWord (frameOf ret + i))

def Covered (m : Machine) (size : Word) : Prop :=
  Allocator.numOfPages size ≤ m.ring.free →
    ∀ ret ∈ m.ring.slots.head?,
    ∀ abc ∈ (m.ring.slots.rotate (Allocator.numOfPages size)).head?, CoveredBy m size ret abc

/-- What a step of a run may do: a `bump` is covered; the pointer passed to `kfree` names a page of
the window, and where it is not a kernel pointer, the entry `unmap_page` clears for it is not in a
table of the kernel. -/
def AllocAllowed (m : Machine) : AllocEvent → Prop
  | .bump size => Covered m size
  | .bumpUser _ _ => True
  | .bumpPhysical _ _ => True
  | .kfree freed => LowPage (Allocator.physAddress freed) ∧
      (freed = Allocator.physAddress freed + KERNBASE ∨
        ∀ pt, m.unmapTable freed = some pt → ¬ KernelTable m pt)

/-- A request for one page is covered when the next free page follows it in the same 2 MiB. -/
theorem covered_of_next {ret abc : Word} {rest : List Word} (hone : Allocator.numOfPages size = 1)
    (hslots : m.ring.slots = ret :: abc :: rest) (hnext : frameOf abc = frameOf ret + 1) :
    Covered m size := by
  intro _ ret' hret abc' habc
  rw [hone, hslots, List.rotate_cons_succ, List.rotate_zero] at habc
  rw [hslots] at hret
  cases hret
  cases habc
  refine ⟨by omega, by omega, fun i hi habove => ?_⟩
  omega

/-! ## Walks through the kernel window -/

theorem KernelTables.walk_take (h : KernelTables m K D T) {f : Nat} (hf : f < 2 ^ 19) :
    (∀ is, m.walk m.pml4t (511 :: is) = m.walk K is) ∧
    (∀ is, m.walk K (Fin.ofNat 512 (510 + f / 512 / 512) :: is) = m.walk (D (f / 512 / 512)) is) ∧
    (∀ is, m.walk (D (f / 512 / 512)) (Fin.ofNat 512 (f / 512) :: is) =
      m.walk (T (f / 512)) is) :=
  ⟨fun _ => walk_cons h.pdpt, fun _ => walk_cons (h.pdt _ (by omega)),
    fun _ => walk_cons (h.pt _ (by omega))⟩

theorem KernelTables.translate_eq (h : KernelTables m K D T) {f : Nat} (hf : f < 2 ^ 19) :
    m.translate m.pml4t (kernelWord f) = m.child (T (f / 512)) (Fin.ofNat 512 f) := by
  rcases h.walk_take hf with ⟨h₁, h₂, h₃⟩
  rw [Machine.translate, pathOf_kernelWord hf, h₁, h₂, h₃, walk]
  exact Option.bind_fun_some _

theorem frameOf_kernelWord {f : Nat} (hf : f < 2 ^ 19) : frameOf (kernelWord f - KERNBASE) = f := by
  rw [kernelWord, BitVec.add_sub_cancel, frameOf_pageWord (by omega)]

theorem KernelTables.mapped_iff (h : KernelTables m K D T) {f : Nat} (hf : f < 2 ^ 19) :
    Mapped m (kernelWord f) ↔ m.child (T (f / 512)) (Fin.ofNat 512 f) = some f := by
  rw [Mapped, h.translate_eq hf, frameOf_kernelWord hf]

/-- The kernel's tables are the ones `KernelTables` names. -/
theorem KernelTables.kernelTable (h : KernelTables m K D T) :
    KernelTable m m.current ∧ KernelTable m m.pml4t ∧ KernelTable m K ∧
      (∀ i < 2, KernelTable m (D i)) ∧ ∀ g < 1024, KernelTable m (T g) := by
  refine ⟨Or.inl rfl, ?_, ?_, ?_, ?_⟩
  · exact Or.inr ⟨0, by omega, 0, by omega, rfl⟩
  · rcases h.walk_take (f := 0) (by omega) with ⟨h₁, -, -⟩
    refine Or.inr ⟨0, by omega, 1, by omega, ?_⟩
    rw [pathOf_kernelWord (by omega)]
    exact h₁ []
  · intro i hi
    have hf : 262144 * i < 2 ^ 19 := by omega
    rcases h.walk_take hf with ⟨h₁, h₂, -⟩
    refine Or.inr ⟨262144 * i, hf, 2, by omega, ?_⟩
    rw [pathOf_kernelWord hf]
    refine (h₁ _).trans ((h₂ []).trans ?_)
    rw [walk, show 262144 * i / 512 / 512 = i by omega]
  · intro g hg
    have hf : 512 * g < 2 ^ 19 := by omega
    rcases h.walk_take hf with ⟨h₁, h₂, h₃⟩
    refine Or.inr ⟨512 * g, hf, 3, by omega, ?_⟩
    rw [pathOf_kernelWord hf]
    refine (h₁ _).trans ((h₂ _).trans ((h₃ []).trans ?_))
    rw [walk, show 512 * g / 512 = g by omega]

/-! ## One step -/

/-- Entries that were present are as they were. -/
def KeepsPresent (m m' : Machine) : Prop :=
  ∀ t i, Present (m.mem t i) → m'.mem t i = m.mem t i

theorem KeepsPresent.child (h : KeepsPresent m m') {t f : Frame} {i : Slot}
    (hchild : m.child t i = some f) : m'.child t i = some f := by
  rw [child_congr (h t i (child_eq_some.1 hchild).1), hchild]

theorem KeepsPresent.walk (h : KeepsPresent m m') {path : List Slot} {t f : Frame}
    (hwalk : m.walk t path = some f) : m'.walk t path = some f := by
  induction path generalizing t with
  | nil => exact hwalk
  | cons i is ih =>
      rcases Option.bind_eq_some_iff.1 hwalk with ⟨next, hchild, hrest⟩
      rw [walk_cons (h.child hchild)]
      exact ih hrest

theorem Filled.keepsPresent {pt : Frame} {i k : Nat} {phys flag : Word}
    (h : Filled m m' pt i k phys flag) : KeepsPresent m m' :=
  fun t j hpresent => h.kept t j (Or.inr (Or.inr (Or.inr hpresent)))

/-- The tables stay where they are when their entries are kept. -/
theorem KernelTables.keep (h : KernelTables m K D T) (hkeep : KeepsPresent m m')
    (hpml4t : m'.pml4t = m.pml4t) (hcurrent : m'.current = m.current) : KernelTables m' K D T := by
  have htop : Present (m.mem m.pml4t 511) := (child_eq_some.1 h.pdpt).1
  refine ⟨?_, ?_, fun i hi => hkeep.child (h.pdt i hi), fun g hg => hkeep.child (h.pt g hg), h.low,
    h.distinct, ?_⟩
  · rw [hpml4t]
    exact hkeep.child h.pdpt
  · rw [hpml4t, hcurrent, hkeep _ _ htop, hkeep _ _ (h.current ▸ htop), h.current]
  · rw [hpml4t, hcurrent]
    exact h.apart

/-- Filling a page table of the window with the pages that belong there. -/
theorem KernelMap.filled (h : KernelMap m K D T) {f k : Nat} (hf : f < 2 ^ 19)
    (hslots : ∀ p ∈ m'.ring.slots, LowPage p)
    (hfilled : Filled m m' (T (f / 512)) (f % 512) k (pageWord f) 3) : KernelMap m' K D T := by
  refine ⟨h.toKernelTables.keep hfilled.keepsPresent hfilled.pml4t hfilled.current, ?_, hslots⟩
  intro f' hf' f'' hchild
  rcases hfilled.kept_or_filled (T (f' / 512)) (Fin.ofNat 512 f') with hkept |
    ⟨d, hd, ht, hj, hentry⟩
  · rw [child_congr hkept] at hchild
    exact h.identity f' hf' f'' hchild
  · have hregion : f' / 512 = f / 512 := h.distinct _ (by omega) _ (by omega) ht
    have hindex : f' % 512 = f % 512 + d := hj
    have hpage : f' = f + d := by omega
    rw [← (child_eq_some.1 hchild).2, hentry, pageWord_add, frameOf_or _ (by decide),
      frameOf_pageWord (by omega), hpage]

/-- The entries the loop has gone over are present. -/
theorem Filled.present {pt : Frame} {i k d : Nat} {phys : Word} (h : Filled m m' pt i k phys 3)
    (hd : d < k) (hlt : i + d < 512) : Present (m'.mem pt ⟨i + d, hlt⟩) := by
  by_cases hpresent : Present (m.mem pt ⟨i + d, hlt⟩)
  · rw [h.keepsPresent _ _ hpresent]
    exact hpresent
  · rw [h.filled d hlt hd hpresent]
    exact has_of_or_left (by decide) _

theorem turns_eq {a r : Nat} (hr : r < 2 ^ 19) (hup : a ≤ (r / 512 + 1) * 512)
    (hdown : r ≤ a + (2 ^ 19 - 2 ^ 10)) :
    turnsPositive (mapSize (pageWord a) (pageWord r)) = a - r := by
  rcases Nat.lt_or_ge r a with hlt | hge
  · rw [mapSize_up hlt (by omega), turnsPositive_pages]
  · rw [turnsPositive_nonpos (mapSize_down hge (by omega) hr)]
    omega

theorem descend_child {alloc : Machine → Option (Word × Machine)} {flag : Word} {t next : Nat}
    {i : Slot} (h : m.child t i = some next) (hlow : next < 2 ^ 19) :
    descend alloc flag t i m = some (next, m) := by
  refine descend_present h ?_
  rw [(child_eq_some.1 h).2]
  exact hlow

/-- `map_address` for a page of the window whose three tables are there goes straight to its
loop. -/
theorem mapAddress_eq (alloc : Machine → Option (Word × Machine)) {f K D T : Nat} {abc : Word}
    (hf : f < 2 ^ 19) (hpdpt : m.child m.pml4t 511 = some K)
    (hpdt : m.child K (Fin.ofNat 512 (510 + f / 512 / 512)) = some D)
    (hpt : m.child D (Fin.ofNat 512 (f / 512)) = some T)
    (hlow : K < 2 ^ 19 ∧ D < 2 ^ 19 ∧ T < 2 ^ 19) (hhead : m.ring.slots.head? = some abc) :
    ∃ c : Cursor, c.pdpti ≠ 512 ∧ c.pdti ≠ 512 ∧ c.pti = f % 512 ∧ c.pt = T ∧
      c.phys = pageWord f ∧ mapAddress alloc (kernelWord f) (pageWord f) m =
        (Loop.times (mapStep alloc m.pml4t ⟨3, 3, 3⟩) (turnsPositive (mapSize abc (pageWord f)))
          (c, m)).map Prod.snd := by
  rcases hlow with ⟨hK, hD, hT⟩
  have hpath := pathOf_kernelWord hf
  simp only [pathOf, List.cons.injEq] at hpath
  rcases hpath with ⟨hi₄, hi₃, hi₂, hi₁, -⟩
  have hpdt' : f / 512 % 512 ≠ 512 := by omega
  have hpdpt' : (510 + f / 512 / 512) % 512 ≠ 512 := by omega
  refine ⟨cursorAt (kernelWord f) (pageWord f) K D T, ?_, ?_, ?_, rfl,
    (lowPage_pageWord hf).physMask, ?_⟩
  · simp only [cursorAt, kernelWord, hi₃]
    exact hpdpt'
  · simp only [cursorAt, kernelWord, hi₂]
    exact hpdt'
  · simp only [cursorAt, kernelWord, hi₁]
    rfl
  · rw [← hi₃] at hpdt
    rw [← hi₂] at hpt
    rw [← hi₄] at hpdpt
    have h₄ : descend (fun m => bumpInitial m 4096) 3 m.pml4t (pml4Index (kernelWord f)) m =
        some (K, m) := descend_child hpdpt hK
    have h₃ : descend (fun m => bumpInitial m 4096) 3 K (pdptIndex (kernelWord f)) m =
        some (D, m) := descend_child hpdt hD
    have h₂ : descend (fun m => bumpInitial m 4096) 3 D (pdtIndex (kernelWord f)) m =
        some (T, m) := descend_child hpt hT
    have habc : m.getUnallocated = some abc := hhead
    rw [Paging.mapAddress, h₄, Option.bind_eq_bind, Option.bind_some]
    dsimp only
    rw [h₃, Option.bind_eq_bind, Option.bind_some]
    dsimp only
    rw [h₂, Option.bind_eq_bind, Option.bind_some]
    dsimp only
    rw [habc, Option.bind_some, Option.map_eq_bind]
    rfl

/-- `map_address` where the page table has room up to the next free page. -/
theorem mapAddress_inside {alloc : Machine → Option (Word × Machine)} {f a K D T : Nat}
    (hf : f < 2 ^ 19) (hpdpt : m.child m.pml4t 511 = some K)
    (hpdt : m.child K (Fin.ofNat 512 (510 + f / 512 / 512)) = some D)
    (hpt : m.child D (Fin.ofNat 512 (f / 512)) = some T)
    (hlow : K < 2 ^ 19 ∧ D < 2 ^ 19 ∧ T < 2 ^ 19)
    (hhead : m.ring.slots.head? = some (pageWord a)) (hup : a ≤ (f / 512 + 1) * 512)
    (hdown : f ≤ a + (2 ^ 19 - 2 ^ 10)) :
    ∃ m', mapAddress alloc (kernelWord f) (pageWord f) m = some m' ∧
      Filled m m' T (f % 512) (a - f) (pageWord f) 3 := by
  rcases mapAddress_eq alloc hf hpdpt hpdt hpt hlow hhead with
    ⟨c, hpdpti, hpdti, hpti, rfl, hphys, heq⟩
  -- the run stays inside one page table, so the loop fills it and steps nowhere else
  rcases times_mapStep_inside alloc m.pml4t ⟨3, 3, 3⟩ m
    (k := a - f) hpdpti hpdti (by omega) with ⟨c', m', hrun, hfilled⟩
  rw [hpti, hphys] at hfilled
  refine ⟨m', ?_, hfilled⟩
  rw [heq, turns_eq hf hup hdown, hrun]
  rfl

theorem KernelMap.takePages (h : KernelMap m K D T) (who : Owner) (n : Nat) :
    KernelMap (m.takePages who n) K D T where
  toKernelTables := h.toKernelTables.keep (fun _ _ _ => rfl) rfl rfl
  identity := h.identity
  pages := by
    intro p hp
    exact h.pages p (List.mem_rotate.1 hp)

/-- With `ret` the page that `bump` hands out and `abc` the next free one: the pages that
`map_address` goes over from `ret` on end in the page table of `ret`. -/
def EndsInTable (ret abc : Word) : Prop :=
  frameOf ret % 512 + turnsPositive (mapSize abc ret) ≤ 512

instance (ret abc : Word) : Decidable (EndsInTable ret abc) := inferInstanceAs (Decidable (_ ≤ _))

theorem endsInTable_of_near {ret abc : Word} (hret : LowPage ret) (habc : LowPage abc)
    (hup : frameOf abc ≤ (frameOf ret / 512 + 1) * 512)
    (hdown : frameOf ret ≤ frameOf abc + (2 ^ 19 - 2 ^ 10)) :
    EndsInTable ret abc ∧ turnsPositive (mapSize abc ret) = frameOf abc - frameOf ret := by
  have hturns := turns_eq hret.frame_lt hup hdown
  rw [← hret.eq_pageWord, ← habc.eq_pageWord] at hturns
  refine ⟨?_, hturns⟩
  rw [EndsInTable, hturns]
  omega

/-- What `bump` hands out, and the loop of its `map_address`. -/
theorem KernelMap.bump_loop (h : KernelMap m K D T) (hbump : bump size m = some (v, m'))
    (hfit : Allocator.numOfPages size ≤ m.ring.free) :
    ∃ ret abc, LowPage ret ∧ LowPage abc ∧ m.ring.slots.head? = some ret ∧
      (m.ring.slots.rotate (Allocator.numOfPages size)).head? = some abc ∧
      v = kernelWord (frameOf ret) ∧ ∃ c c' : Cursor, c.pdpti ≠ 512 ∧ c.pdti ≠ 512 ∧
        c.pti = frameOf ret % 512 ∧ c.pt = T (frameOf ret / 512) ∧
        c.phys = pageWord (frameOf ret) ∧
        Loop.times (mapStep (bumpFuel (m.ring.free + 1) 4096) m.pml4t ⟨3, 3, 3⟩)
          (turnsPositive (mapSize abc ret))
          (c, m.takePages .kernel (Allocator.numOfPages size)) = some (c', m') := by
  rcases bumpWith_cases hbump with ⟨hfew, -⟩ | ⟨-, ret, hhead, rfl, hmap⟩
  · exact absurd hfew (not_lt.2 hfit)
  · have hret : LowPage ret := h.pages ret (List.mem_of_mem_head? hhead)
    have hnonempty : m.ring.slots.rotate (Allocator.numOfPages size) ≠ [] := by
      intro hnil
      rw [List.rotate_eq_nil_iff.1 hnil] at hhead
      cases hhead
    rcases List.exists_cons_of_ne_nil hnonempty with ⟨abc, rest, hrotate⟩
    have habc : LowPage abc := by
      have hmem : abc ∈ m.ring.slots.rotate (Allocator.numOfPages size) := by
        rw [hrotate]
        exact List.mem_cons_self
      exact h.pages abc (List.mem_rotate.1 hmem)
    have hhead' : (m.ring.slots.rotate (Allocator.numOfPages size)).head? = some abc := by
      rw [hrotate]
      rfl
    have hf := hret.frame_lt
    have h₁ := h.takePages .kernel (Allocator.numOfPages size)
    rcases h₁.low with ⟨hK, hD, hT⟩
    rcases mapAddress_eq (bumpFuel (m.ring.free + 1) 4096) hf h₁.pdpt
      (h₁.pdt (frameOf ret / 512 / 512) (by omega)) (h₁.pt (frameOf ret / 512) (by omega))
      ⟨hK, hD _, hT _⟩ hhead' with ⟨c, hpdpti, hpdti, hpti, hpt, hphys, heq⟩
    rw [kernelWord, ← hret.eq_pageWord, hmap] at heq
    rcases Option.map_eq_some_iff.1 heq.symm with ⟨⟨c', m₂⟩, hrun, rfl⟩
    refine ⟨ret, abc, hret, habc, hhead, hhead', ?_, c, c', hpdpti, hpdti, hpti, hpt, hphys,
      hrun⟩
    rw [kernelWord, ← hret.eq_pageWord]

/-- Where the pages end in one table, that table is filled and no other one is made. -/
theorem KernelMap.bump_filled (h : KernelMap m K D T) (hbump : bump size m = some (v, m'))
    (hfit : Allocator.numOfPages size ≤ m.ring.free) (hends : ∀ ret ∈ m.ring.slots.head?,
      ∀ abc ∈ (m.ring.slots.rotate (Allocator.numOfPages size)).head?, EndsInTable ret abc) :
    ∃ ret abc, LowPage ret ∧ LowPage abc ∧ m.ring.slots.head? = some ret ∧
      (m.ring.slots.rotate (Allocator.numOfPages size)).head? = some abc ∧
      v = kernelWord (frameOf ret) ∧ KernelMap m' K D T ∧
      Filled (m.takePages .kernel (Allocator.numOfPages size)) m' (T (frameOf ret / 512))
        (frameOf ret % 512) (turnsPositive (mapSize abc ret)) (pageWord (frameOf ret)) 3 := by
  rcases h.bump_loop hbump hfit with ⟨ret, abc, hret, habc, hhead, hhead', hv, c, c', hpdpti,
    hpdti, hpti, hpt, hphys, hrun⟩
  have hroom : c.pti + turnsPositive (mapSize abc ret) ≤ 512 := by
    rw [hpti]
    exact hends ret hhead abc hhead'
  rcases times_mapStep_inside (bumpFuel (m.ring.free + 1) 4096) m.pml4t ⟨3, 3, 3⟩
    (m.takePages .kernel (Allocator.numOfPages size)) hpdpti hpdti hroom
    with ⟨c₂, m₂, hrun₂, hfilled⟩
  rw [hrun] at hrun₂
  cases hrun₂
  rw [hpti, hpt, hphys] at hfilled
  have h₁ := h.takePages .kernel (Allocator.numOfPages size)
  refine ⟨ret, abc, hret, habc, hhead, hhead', hv, ?_, hfilled⟩
  refine h₁.filled hret.frame_lt ?_ hfilled
  rw [hfilled.ring]
  exact h₁.pages

/-- A covered `bump` maps its pages and keeps every translation. -/
theorem KernelMap.bump (h : KernelMap m K D T) (hcovered : Covered m size)
    (hbump : bump size m = some (v, m')) :
    KernelMap m' K D T ∧ KeepsPresent m m' ∧ m'.pml4t = m.pml4t ∧
      (v ≠ 0 → ∃ f, v = kernelWord f ∧
        ∀ i < Allocator.numOfPages size, f + i < 2 ^ 19 ∧ Mapped m' (kernelWord (f + i))) := by
  rcases bumpWith_cases hbump with ⟨-, rfl, rfl⟩ | ⟨hfit, -⟩
  · exact ⟨h, fun _ _ _ => rfl, rfl, fun hv => absurd rfl hv⟩
  -- `map_address` maps up to the page that is next in the list, whatever was asked for
  have hnear : ∀ ret ∈ m.ring.slots.head?,
      ∀ abc ∈ (m.ring.slots.rotate (Allocator.numOfPages size)).head?,
      EndsInTable ret abc ∧ turnsPositive (mapSize abc ret) = frameOf abc - frameOf ret := by
    intro ret hret abc habc
    rcases hcovered hfit ret hret abc habc with ⟨hup, hdown, -⟩
    exact endsInTable_of_near (h.pages ret (List.mem_of_mem_head? hret))
      (h.pages abc (List.mem_rotate.1 (List.mem_of_mem_head? habc))) hup hdown
  rcases h.bump_filled hbump hfit fun ret hret abc habc => (hnear ret hret abc habc).1 with
    ⟨ret, abc, hret, habc, hhead, hhead', hv, h', hfilled⟩
  rw [(hnear ret hhead abc hhead').2] at hfilled
  rcases hcovered hfit ret hhead abc hhead' with ⟨hup, -, hrest⟩
  refine ⟨h', hfilled.keepsPresent, hfilled.pml4t, fun _ => ⟨frameOf ret, hv, fun i hi => ?_⟩⟩
  -- pages below the next free one were mapped by this call, those from it on before it
  by_cases hbelow : frameOf ret + i < frameOf abc
  · have hlow : frameOf ret + i < 2 ^ 19 := hbelow.trans habc.frame_lt
    have hlt : frameOf ret % 512 + i < 512 := by omega
    have hpresent := hfilled.present (d := i) (by omega) hlt
    have hregion : (frameOf ret + i) / 512 = frameOf ret / 512 := by omega
    have hindex : Fin.ofNat 512 (frameOf ret + i) = ⟨frameOf ret % 512 + i, hlt⟩ :=
      Fin.ext (by simp only [Fin.val_ofNat]; omega)
    have hchild : m'.child (T ((frameOf ret + i) / 512)) (Fin.ofNat 512 (frameOf ret + i)) =
        some (frameOf (m'.mem (T (frameOf ret / 512)) ⟨frameOf ret % 512 + i, hlt⟩)) := by
      rw [hregion, hindex]
      exact child_eq_some.2 ⟨hpresent, rfl⟩
    have hid := h'.identity _ hlow _ hchild
    refine ⟨hlow, (h'.mapped_iff hlow).2 ?_⟩
    rw [hchild, hid]
  · rcases hrest i hi (not_lt.1 hbelow) with ⟨hlow, hmapped⟩
    refine ⟨hlow, (h'.mapped_iff hlow).2 ?_⟩
    exact hfilled.keepsPresent.child ((h.mapped_iff hlow).1 hmapped)

theorem KernelMap.clearEntry (h : KernelMap m K D T) {t : Frame} (i : Slot)
    (ht : t ≠ m.pml4t ∧ t ≠ m.current ∧ t ≠ K ∧ t ≠ D 0 ∧ t ≠ D 1) :
    KernelMap (m.write t i 0) K D T := by
  rcases ht with ⟨hpml4t, hcurrent, hK, hD₀, hD₁⟩
  have hother : ∀ {t' : Frame} (j : Slot), t' ≠ t → (m.write t i 0).mem t' j = m.mem t' j :=
    fun j hne => write_mem_of_ne m 0 (Or.inl hne)
  have hD : ∀ g < 2, D g ≠ t := by
    intro g hg
    rcases (by omega : g = 0 ∨ g = 1) with rfl | rfl
    · exact hD₀.symm
    · exact hD₁.symm
  refine ⟨⟨?_, ?_, ?_, ?_, h.low, h.distinct, h.apart⟩, ?_, h.pages⟩
  · exact (child_congr (hother _ hpml4t.symm)).trans h.pdpt
  · exact (hother _ hcurrent.symm).trans (h.current.trans (hother _ hpml4t.symm).symm)
  · intro g hg
    exact (child_congr (hother _ hK.symm)).trans (h.pdt g hg)
  · intro g hg
    exact (child_congr (hother _ (hD _ (by omega)))).trans (h.pt g hg)
  · intro f hf f' hchild
    by_cases hat : T (f / 512) = t ∧ Fin.ofNat 512 f = i
    · rcases hat with ⟨rfl, rfl⟩
      rcases child_eq_some.1 hchild with ⟨hpresent, -⟩
      rw [write_mem_self] at hpresent
      exact absurd rfl hpresent.ne_zero
    · have hne : T (f / 512) ≠ t ∨ Fin.ofNat 512 f ≠ i := by tauto
      exact h.identity f hf f' ((child_congr (write_mem_of_ne m 0 hne)).symm.trans hchild)

/-- `unmap_page` reaches the page table of a kernel pointer. -/
theorem KernelTables.unmapTable_eq (h : KernelTables m K D T) {f : Nat}
    (hf : f < 2 ^ 19) {pt : Frame}
    (hpt : m.unmapTable (kernelWord f) = some pt) : pt = T (f / 512) := by
  have hpath := pathOf_kernelWord hf
  simp only [pathOf, List.cons.injEq] at hpath
  rcases hpath with ⟨hi₄, hi₃, hi₂, -, -⟩
  rcases Option.bind_eq_some_iff.1 hpt with ⟨pdpt, hpdpt, hpt⟩
  rcases Option.bind_eq_some_iff.1 hpt with ⟨pdt, hpdt, hpt⟩
  have h₄ : pdpt = K := by
    rw [frameOf_of_tableAt hpdpt, kernelWord, hi₄, h.current, (child_eq_some.1 h.pdpt).2]
  have h₃ : pdt = D (f / 512 / 512) := by
    rw [frameOf_of_tableAt hpdt, kernelWord, hi₃, h₄, (child_eq_some.1 (h.pdt _ (by omega))).2]
  rw [frameOf_of_tableAt hpt, kernelWord, hi₂, h₃, (child_eq_some.1 (h.pt _ (by omega))).2]

theorem KernelMap.kfree (h : KernelMap m K D T) {freed : Word}
    (hallowed : AllocAllowed m (.kfree freed)) (hkfree : m.kfree freed = some m') :
    KernelMap m' K D T := by
  rcases hallowed with ⟨hpage, hpointer⟩
  rcases Option.bind_eq_some_iff.1 hkfree with ⟨m₁, hunmap, hput⟩
  rcases Option.bind_eq_some_iff.1 hunmap with ⟨pt, hpt, hret⟩
  cases hret
  split_ifs at hput with hroom
  cases hput
  have hapart : pt ≠ m.pml4t ∧ pt ≠ m.current ∧ pt ≠ K ∧ pt ≠ D 0 ∧ pt ≠ D 1 := by
    rcases hpointer with hfreed | hother
    · have hword : freed = kernelWord (frameOf (Allocator.physAddress freed)) := by
        rw [kernelWord, ← hpage.eq_pageWord]
        exact hfreed
      have hf := hpage.frame_lt
      rw [hword] at hpt
      rw [h.unmapTable_eq hf hpt]
      exact h.apart _ (by omega)
    · have hnot := hother pt hpt
      rcases h.kernelTable with ⟨hcurrent, hpml4t, hK, hD, -⟩
      refine ⟨?_, ?_, ?_, ?_, ?_⟩ <;> rintro rfl
      · exact hnot hpml4t
      · exact hnot hcurrent
      · exact hnot hK
      · exact hnot (hD 0 (by omega))
      · exact hnot (hD 1 (by omega))
  have hcleared := h.clearEntry (ptIndex freed) hapart
  refine ⟨hcleared.toKernelTables.keep (fun _ _ _ => rfl) rfl rfl, hcleared.identity, ?_⟩
  intro p hp
  rcases List.mem_or_eq_of_mem_set hp with hp' | rfl
  · exact h.pages p hp'
  · exact hpage

theorem KernelMap.bumpFrom (h : KernelMap m K D T) {base : Word} {who : Owner}
    (hbump : m.bumpFrom base who size = some (v, m')) : KernelMap m' K D T := by
  rcases bumpFrom_cases hbump with ⟨-, -, rfl⟩ | ⟨-, ret, -, -, rfl⟩
  · exact h
  · exact h.takePages who _

theorem KernelMap.step (h : KernelMap m K D T) {e : AllocEvent} (hallowed : AllocAllowed m e)
    (hstep : allocStep m e = some m') : KernelMap m' K D T := by
  cases e with
  | bump size =>
      rcases Option.map_eq_some_iff.1 hstep with ⟨⟨v, m₁⟩, hbump, rfl⟩
      exact (h.bump hallowed hbump).1
  | bumpUser table size =>
      rcases Option.map_eq_some_iff.1 hstep with ⟨⟨v, m₁⟩, hbump, rfl⟩
      exact h.bumpFrom hbump
  | bumpPhysical table size =>
      rcases Option.map_eq_some_iff.1 hstep with ⟨⟨v, m₁⟩, hbump, rfl⟩
      exact h.bumpFrom hbump
  | kfree freed => exact h.kfree hallowed hstep

/-! ## Every run -/

/-- The state `init_paging` and `map_pagetables` leave behind. -/
def AfterBoot (m : Machine) : Prop := ∃ K D T, KernelMap m K D T

/-- The pages of `[v, v + size)` are mapped. -/
def RangeMapped (m : Machine) (v size : Word) : Prop :=
  ∀ i < Allocator.numOfPages size, Mapped m (v + pageWord i)

/-- What was mapped in the kernel's part of the address space leads to the same frames. -/
def KeepsKernelTranslations (m m' : Machine) : Prop :=
  ∀ va f, pml4Index va = 511 → m.translate m.pml4t va = some f → m'.translate m'.pml4t va = some f

/-- In every run of covered requests and harmless frees, `bump` maps the memory it returns. -/
theorem bump_maps_memory {es : List AllocEvent} (hboot : AfterBoot m₀)
    (hrun : Run allocStep AllocAllowed m₀ es m) (hcovered : Covered m size)
    (hbump : bump size m = some (v, m')) :
    (v ≠ 0 → RangeMapped m' v size) ∧ KeepsKernelTranslations m m' := by
  rcases hboot with ⟨K, D, T, hmap⟩
  have h : KernelMap m K D T :=
    hrun.invariant (fun m => KernelMap m K D T) hmap
      fun _ _ _ hs hallowed hstep => hs.step hallowed hstep
  rcases h.bump hcovered hbump with ⟨-, hkeep, hpml4t, hmapped⟩
  refine ⟨fun hv i hi => ?_, fun va f _ htranslate => ?_⟩
  · rcases hmapped hv with ⟨f, rfl, hpages⟩
    have hword : kernelWord f + pageWord i = kernelWord (f + i) := by
      rw [kernelWord, kernelWord, ← pageWord_add, BitVec.add_assoc, BitVec.add_assoc,
        BitVec.add_comm KERNBASE]
    rw [hword]
    exact (hpages i hi).2
  · rw [hpml4t]
    exact hkeep.walk htranslate

/-! ## A machine after boot -/

/-- The top table in frame 1, the second-level table in frame 2, its two directories in frames 3
and 4 and the 1024 page tables behind them; the pages below frame 300 are mapped. -/
def bootTables (t : Nat) (i : Slot) : Word :=
  if t = 1 then (if i = 511 then pageWord 2 ||| 3 else 0)
  else if t = 2 then (if 510 ≤ (i : Nat) then pageWord (3 + (i - 510)) ||| 3 else 0)
  else if t = 3 ∨ t = 4 then pageWord (5 + 512 * (t - 3) + i) ||| 3
  else if t = 5 ∧ (i : Nat) < 300 then pageWord i ||| 3
  else 0

/-- Three pages are free. -/
def booted : Machine where
  mem := bootTables
  ring := ⟨[pageWord 300, pageWord 301, pageWord 302], 3, by decide⟩
  owner := fun _ => none
  pml4t := 1
  current := 1

theorem child_of_entry {t f : Nat} {i : Slot} (hf : f < 2 ^ 52)
    (h : m.mem t i = pageWord f ||| 3) : m.child t i = some f := by
  refine child_eq_some.2 ⟨?_, ?_⟩ <;> rw [h]
  · exact has_of_or_left (by decide) _
  · rw [frameOf_or _ (by decide), frameOf_pageWord hf]

theorem booted_afterBoot : AfterBoot booted := by
  refine ⟨2, fun h => 3 + h % 2, fun g => 5 + g % 1024,
    ⟨by decide, rfl, by decide, ?pt, ?low, ?distinct, ?apart⟩, ?identity, ?pages⟩
  case pt =>
    intro g hg
    have hdir : 3 + g / 512 % 2 = 3 ∨ 3 + g / 512 % 2 = 4 := by omega
    refine child_of_entry (by omega) ?_
    change bootTables (3 + g / 512 % 2) (Fin.ofNat 512 g) = _
    rw [bootTables, if_neg (by omega), if_neg (by omega), if_pos hdir, Fin.val_ofNat]
    congr 2
    omega
  case low => exact ⟨by decide, fun h => by omega, fun g => by omega⟩
  case distinct =>
    intro g hg g' hg' heq
    omega
  case apart =>
    intro g _
    simp only [booted]
    omega
  case identity =>
    intro f hf f' hchild
    rcases child_eq_some.1 hchild with ⟨hpresent, hframe⟩
    change Present (bootTables (5 + f / 512 % 1024) (Fin.ofNat 512 f)) at hpresent
    change frameOf (bootTables (5 + f / 512 % 1024) (Fin.ofNat 512 f)) = f' at hframe
    rw [bootTables, if_neg (by omega), if_neg (by omega), if_neg (by omega), Fin.val_ofNat]
      at hpresent hframe
    split_ifs at hpresent hframe with hlow
    · rw [frameOf_or _ (by decide), frameOf_pageWord (by omega)] at hframe
      have hregion : f / 512 % 1024 = 0 := by simpa using hlow.1
      omega
    · exact absurd rfl hpresent.ne_zero
  case pages =>
    intro p hp
    simp only [booted, List.mem_cons, List.not_mem_nil, or_false] at hp
    rcases hp with rfl | rfl | rfl <;> exact lowPage_pageWord (by decide)

/-- Two requests use up the pages in address order; the first is freed and comes after the third
in the list, which is then handed out and not mapped. -/
theorem not_bump_maps_memory :
    ¬ ∀ es m size v m', Run allocStep (fun _ _ => True) booted es m → bump size m = some (v, m') →
      v ≠ 0 → RangeMapped m' v size := by
  intro h
  have hrun : ((replay allocStep (fun _ _ => True)
      [.bump 4096, .bump 4096, .kfree (kernelWord 300)] booted).bind fun m =>
        (bump 4096 m).map fun r => decide (r.1 ≠ 0 ∧ ¬ Mapped r.2 (r.1 + pageWord 0))) =
      some true := by
    decide +kernel
  rcases Option.bind_eq_some_iff.1 hrun with ⟨m, hreplay, hbump⟩
  rcases Option.map_eq_some_iff.1 hbump with ⟨⟨v, m'⟩, hbump, hcheck⟩
  rcases of_decide_eq_true hcheck with ⟨hv, hunmapped⟩
  exact hunmapped (h _ m 4096 v m' (run_of_replay hreplay) hbump hv 0 (by decide))

/-- With a higher page behind it, the second page is mapped, also after the first has been freed. -/
theorem bump_maps_memory_booted : ∃ m m' v,
    Run allocStep AllocAllowed booted [.bump 4096, .kfree (kernelWord 300)] m ∧
      bump 4096 m = some (v, m') ∧ v ≠ 0 ∧ RangeMapped m' v 4096 := by
  have hrun : ((allocStep booted (.bump 4096)).bind fun m₁ =>
      (allocStep m₁ (.kfree (kernelWord 300))).bind fun m₂ => (bump 4096 m₂).map fun r =>
        decide (m₂.ring.slots = [pageWord 301, pageWord 302, pageWord 300] ∧ r.1 ≠ 0)) =
      some true := by
    decide +kernel
  rcases Option.bind_eq_some_iff.1 hrun with ⟨m₁, hfirst, hrun⟩
  rcases Option.bind_eq_some_iff.1 hrun with ⟨m₂, hsecond, hrun⟩
  rcases Option.map_eq_some_iff.1 hrun with ⟨⟨v, m'⟩, hbump, hcheck⟩
  rcases of_decide_eq_true hcheck with ⟨hslots, hv⟩
  have hcovered : Covered booted 4096 := covered_of_next (by decide) rfl (by decide)
  have hcovered₂ : Covered m₂ 4096 := covered_of_next (by decide) hslots (by decide)
  have hphys : Allocator.physAddress (kernelWord 300) = pageWord 300 := by decide
  have hfree : AllocAllowed m₁ (.kfree (kernelWord 300)) :=
    ⟨hphys ▸ lowPage_pageWord (by decide), Or.inl (by rw [hphys])⟩
  have hsteps : Run allocStep AllocAllowed booted [.bump 4096, .kfree (kernelWord 300)] m₂ :=
    Run.cons hcovered hfirst (Run.cons hfree hsecond Run.nil)
  exact ⟨m₂, m', v, hsteps, hbump, hv,
    (bump_maps_memory booted_afterBoot hsteps hcovered₂ hbump).1 hv⟩

end Paging

end OswpKernel
