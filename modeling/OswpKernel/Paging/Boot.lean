import OswpKernel.Allocator.Boot
import OswpKernel.Paging.KernelMap

/-!
# Paging boot — the kernel's own page tables (`map_address_initial` and `init_paging`)

While `start` runs, the boot loader's page tables are active: they show physical memory through the
kernel window, as the tables under construction will, and the free list is the one `initbump` left
behind.  `map_address_initial` takes the first free page after its three tables for the end of the
used memory and lets its loop run one page further for every page table it expects to need.
-/

namespace OswpKernel

namespace Paging

open Machine Allocator

/-- The machine before the switch; the list has not become the ring of `machine` yet. -/
structure Boot where
  machine : Machine
  list : Allocator

namespace Boot

def bumpInitial (size : Word) (b : Boot) : Option (Word × Boot) := do
  let (v, list) ← b.list.bumpInitial size
  return (v, { b with list })

/-- One level of the walk at the head of `map_address_initial`: a missing table is allocated, zeroed
and entered. -/
def descend (t : Frame) (i : Slot) (b : Boot) : Option (Frame × Boot) :=
  if Present (b.machine.mem t i) then do
    let next ← tableAt (b.machine.mem t i)
    return (next, b)
  else do
    let (v, b) ← b.bumpInitial 4096
    let next ← pointerFrame v
    return (next, { b with machine := (b.machine.clear next).write t i (linkTo v 3) })

/-- The branch `pdpt_index == 512`, inside the next one. -/
def nextPdpt : Cursor × Boot → Option (Cursor × Boot)
  | (c, b) =>
      if c.pdpti = 512 then do
        let (v, b) ← b.bumpInitial 4096
        let next ← pointerFrame v
        let c := { c with pdpti := 0, pml4i := c.pml4i + 1, pdpt := next }
        if c.pml4i = 512 then
          -- "No More memory" is printed and the loop goes on
          return (c, b)
        else do
          let m ← b.machine.store b.machine.pml4t c.pml4i (linkTo v 3)
          return (c, { b with machine := m.clear next })
      else some (c, b)

/-- The branch `pdt_index == 512`, inside the next one. -/
def nextPdt : Cursor × Boot → Option (Cursor × Boot)
  | (c, b) =>
      if c.pdti = 512 then do
        let (v, b) ← b.bumpInitial 4096
        let (c, b) ← nextPdpt ({ c with pdti := 0, pdpti := c.pdpti + 1 }, b)
        let next ← pointerFrame v
        let m ← b.machine.store c.pdpt c.pdpti (linkTo v 3)
        return ({ c with pdt := next }, { b with machine := m.clear next })
      else some (c, b)

/-- The branch `pt_index == 512`. -/
def nextPt : Cursor × Boot → Option (Cursor × Boot)
  | (c, b) =>
      if c.pti = 512 then do
        let (v, b) ← b.bumpInitial 4096
        let (c, b) ← nextPdt ({ c with pti := 0, pdti := c.pdti + 1 }, b)
        let next ← pointerFrame v
        let m ← b.machine.store c.pdt c.pdti (linkTo v 3)
        return ({ c with pt := next }, { b with machine := m.clear next })
      else some (c, b)

/-- One turn of the mapping loop. -/
def turn (s : Cursor × Boot) : Option (Cursor × Boot) := do
  let (c, b) ← nextPt s
  let (c, m) ← enterPage ⟨3, 3, 3⟩ (c, b.machine)
  return (c, { b with machine := m })

def mapAddressInitial (address phys : Word) (b : Boot) : Option Boot := do
  let (pdpt, b) ← descend b.machine.pml4t (pml4Index address) b
  let (pdt, b) ← descend pdpt (pdptIndex address) b
  let (pt, b) ← descend pdt (pdtIndex address) b
  let abc ← b.list.getUnallocated
  let (_, b) ← Loop.times turn (turnsNonneg (mapSize abc phys))
    (cursorAt address phys pdpt pdt pt, b)
  return b

/-- Slot 510 of `pml4t_t` gets the entry for `pml4t_t`. -/
def linkSelf (b : Boot) : Boot :=
  let m := b.machine
  { b with machine := m.write m.pml4t 510 (linkTo (pageWord m.pml4t + KERNBASE) 3) }

def initPaging (b : Boot) : Option Boot := do
  let b ← mapAddressInitial KERNBASE 0 b
  return b.linkSelf

/-- `start` up to the switch of `cr3`, with the memory of `machine`, and `heap` where the list nodes
will be. -/
def start (machine : Machine) (heap : NodeRef → FreeNode) (physfree physend : Word) :
    Option Boot := do
  let list ← initbump heap physfree physend
  let (v, list) ← list.bumpInitial 4096
  let t ← pointerFrame v
  initPaging { machine := { machine with pml4t := t }.clear t, list }

/-! ## One table -/

variable {b : Boot} {nodes : List NodeRef} {first : Nat}

theorem pageWord_succ (f : Nat) : pageWord f + 4096 = pageWord (f + 1) := pageWord_add f 1

/-- Where no page is left, the source goes on with NULL. -/
theorem pointerFrame_zero : pointerFrame 0 = none := by decide

theorem bumpInitial_cons {x : NodeRef} {f : Nat} (h : BootList b.list (pageWord f) (x :: nodes)) :
    ∃ list, bumpInitial 4096 b = some (pageWord f + KERNBASE, { b with list }) ∧
      BootList list (pageWord (f + 1)) nodes := by
  have hone : numOfPages 4096 = 1 := by decide
  rcases h.bumpInitial_cons hone with ⟨list, hbump, hlist⟩
  refine ⟨list, ?_, pageWord_succ f ▸ hlist⟩
  rw [bumpInitial, hbump]
  rfl

theorem bumpInitial_nil {page : Word} (h : BootList b.list page []) :
    bumpInitial 4096 b = some (0, b) := by
  rw [bumpInitial, h.bumpInitial_nil (by decide)]
  rfl

/-- A missing table on the way down. -/
theorem descend_absent {x : NodeRef} {t f : Nat} {i : Slot} (habsent : b.machine.mem t i = 0)
    (hf : f < 2 ^ 19) (h : BootList b.list (pageWord f) (x :: nodes)) :
    ∃ list, descend t i b =
        some (f, ⟨(b.machine.clear f).write t i (pageWord f ||| 3), list⟩) ∧
      BootList list (pageWord (f + 1)) nodes := by
  have hpage := lowPage_pageWord hf
  rcases bumpInitial_cons h with ⟨list, hbump, hlist⟩
  refine ⟨list, ?_, hlist⟩
  have hnot : ¬ Present (b.machine.mem t i) := by
    rw [habsent]
    decide
  have hpointer : pointerFrame (pageWord f + KERNBASE) = some f := by
    rw [hpage.pointerFrame, frameOf_pageWord (by omega)]
  rw [descend, if_neg hnot]
  refine Option.bind_eq_some_iff.2 ⟨_, hbump, Option.bind_eq_some_iff.2 ⟨f, hpointer, ?_⟩⟩
  rw [hpage.linkTo]
  rfl

theorem descend_absent_nil {page : Word} {t : Nat} {i : Slot} (habsent : b.machine.mem t i = 0)
    (h : BootList b.list page []) : descend t i b = none := by
  have hnot : ¬ Present (b.machine.mem t i) := by
    rw [habsent]
    decide
  rw [descend, if_neg hnot, bumpInitial_nil h]
  rfl

/-! ## The loop -/

/-- The tables after `j` pages, `r + 1` page tables in use: the top table is in the frame `first`
and the tables below it in the frames that follow it, in the order they were allocated.  `spare`
pages were left when the loop began. -/
structure Laid (first spare r j : Nat) (c : Cursor) (b : Boot) : Prop where
  list : ∃ nodes, BootList b.list (pageWord (first + 4 + r)) nodes ∧ nodes.length + r = spare
  pml4t : b.machine.pml4t = first
  pti : c.pti + 512 * r = j
  within : c.pti ≤ 512
  pdti : c.pdti = r
  inPdt : c.pdt = first + 2
  inPt : c.pt = first + 3 + r
  phys : c.phys = pageWord j
  top : b.machine.mem first 511 = pageWord (first + 1) ||| 3
  pdpt : b.machine.mem (first + 1) 510 = pageWord (first + 2) ||| 3
  pdt : ∀ q ≤ r, b.machine.mem (first + 2) (Fin.ofNat 512 q) = pageWord (first + 3 + q) ||| 3
  pages : ∀ p < j, b.machine.mem (first + 3 + p / 512) (Fin.ofNat 512 p) = pageWord p ||| 3
  absent : ∀ i : Slot, c.pti ≤ i → b.machine.mem c.pt i = 0

variable {spare r j : Nat} {c : Cursor}

/-- A turn inside a page table. -/
theorem Laid.enterPage (h : Laid first spare r j c b) (hpti : c.pti < 512) :
    ∃ c' m', Machine.enterPage ⟨3, 3, 3⟩ (c, b.machine) = some (c', m') ∧
      Laid first spare r (j + 1) c' { b with machine := m' } := by
  have hpt : c.pt = first + 3 + r := h.inPt
  have hindex : c.pti + 512 * r = j := h.pti
  have hzero : b.machine.mem c.pt ⟨c.pti, hpti⟩ = 0 := h.absent _ le_rfl
  have hnot : ¬ Present (b.machine.mem c.pt ⟨c.pti, hpti⟩) := by
    rw [hzero]
    decide
  let m' := b.machine.write c.pt ⟨c.pti, hpti⟩ (c.phys ||| 3)
  have hother : ∀ (t : Nat) (i : Slot), (t ≠ c.pt ∨ i ≠ ⟨c.pti, hpti⟩) →
      m'.mem t i = b.machine.mem t i := fun t i hne => write_mem_of_ne b.machine _ hne
  -- the write goes to the page table the loop has come to, which lies above the three upper tables
  have htable : ∀ t : Nat, t < first + 3 → ∀ i, m'.mem t i = b.machine.mem t i := by
    intro t ht i
    refine hother t i (Or.inl ?_)
    rw [hpt]
    exact Nat.ne_of_lt (by omega)
  refine ⟨{ c.advance with mapped := c.mapped ++ [frameOf c.phys] }, m', ?_, ?_⟩
  · simp [Machine.enterPage, load_of_lt _ hpti, store_of_lt _ hpti, hnot, m']
  · refine ⟨h.list, h.pml4t, ?_, Nat.succ_le_of_lt hpti, h.pdti, h.inPdt, h.inPt, ?_, ?_, ?_, ?_,
      ?_, ?_⟩
    · simp only [Cursor.advance]
      omega
    · simp only [Cursor.advance, h.phys]
      exact pageWord_succ j
    · exact (htable first (by omega) _).trans h.top
    · exact (htable (first + 1) (by omega) _).trans h.pdpt
    · intro q hq
      exact (htable (first + 2) (by omega) _).trans (h.pdt q hq)
    · intro p hp
      by_cases hlast : p = j
      · -- the page just entered
        have hat : first + 3 + p / 512 = c.pt := by
          rw [hpt]
          omega
        have hslot : Fin.ofNat 512 p = ⟨c.pti, hpti⟩ :=
          Fin.ext (by simp only [Fin.val_ofNat]; omega)
        rw [hat, hslot, hlast, ← h.phys]
        exact write_mem_self _ _ _ _
      -- an earlier page is in another table or at another index
      · refine (hother _ _ ?_).trans (h.pages p (by omega))
        by_cases hregion : p / 512 = r
        · refine Or.inr fun heq => hlast ?_
          have hmod : p % 512 = c.pti := congrArg Fin.val heq
          omega
        · refine Or.inl ?_
          rw [hpt]
          omega
    · intro i hi
      refine (hother c.pt i (Or.inr ?_)).trans (h.absent i ?_)
      · rintro rfl
        exact absurd hi (by simp [Cursor.advance])
      · exact (Nat.le_succ _).trans hi

/-- The roll-over into the next page table. -/
theorem Laid.nextPt (h : Laid first spare r j c b) (hpti : c.pti = 512) (hr : r + 1 < 512)
    (hlow : first + 4 + r < 2 ^ 19) :
    (∃ c' b', nextPt (c, b) = some (c', b') ∧ c'.pti = 0 ∧ Laid first spare (r + 1) j c' b') ∨
    (spare = r ∧ nextPt (c, b) = none) := by
  rcases h.list with ⟨nodes, hlist, hspare⟩
  have hpdti : c.pdti + 1 ≠ 512 := by
    rw [h.pdti]
    omega
  have hskip : ∀ b', nextPdt ({ c with pti := 0, pdti := c.pdti + 1 }, b') =
      some ({ c with pti := 0, pdti := c.pdti + 1 }, b') := fun b' => if_neg hpdti
  cases nodes with
  -- no page is left: the allocator returns NULL, and the table is written through it
  | nil =>
      refine Or.inr ⟨by simpa using hspare.symm, ?_⟩
      rw [Boot.nextPt, if_pos hpti, bumpInitial_nil hlist]
      change ((nextPdt _).bind fun s => (pointerFrame 0).bind fun next => _) = none
      rw [hskip]
      rfl
  | cons x rest =>
      let f := first + 4 + r
      have hpage : LowPage (pageWord f) := lowPage_pageWord hlow
      rcases bumpInitial_cons hlist with ⟨list, hbump, hlist'⟩
      have hi : c.pdti + 1 < 512 := by
        rw [h.pdti]
        exact hr
      let m' := (b.machine.write c.pdt ⟨c.pdti + 1, hi⟩ (pageWord f ||| 3)).clear f
      refine Or.inl ⟨{ c with pti := 0, pdti := c.pdti + 1, pt := f }, ⟨m', list⟩, ?_, rfl, ?_⟩
      · have hpointer : pointerFrame (pageWord f + KERNBASE) = some f := by
          rw [hpage.pointerFrame, frameOf_pageWord (by omega)]
        have hstore : b.machine.store c.pdt (c.pdti + 1) (linkTo (pageWord f + KERNBASE) 3) =
            some (b.machine.write c.pdt ⟨c.pdti + 1, hi⟩ (pageWord f ||| 3)) := by
          rw [hpage.linkTo, store_of_lt _ hi]
        rw [Boot.nextPt, if_pos hpti]
        refine Option.bind_eq_some_iff.2 ⟨_, hbump, ?_⟩
        refine Option.bind_eq_some_iff.2 ⟨_, hskip _, ?_⟩
        exact Option.bind_eq_some_iff.2 ⟨f, hpointer,
          Option.bind_eq_some_iff.2 ⟨_, hstore, rfl⟩⟩
      · -- the new table is in a frame of its own
        have hclear : ∀ t : Nat, t ≠ f → ∀ i, m'.mem t i =
            (b.machine.write c.pdt ⟨c.pdti + 1, hi⟩ (pageWord f ||| 3)).mem t i :=
          fun t ht i => congrFun (clear_mem_of_ne _ ht) i
        have hpdt : c.pdt = first + 2 := h.inPdt
        have hother : ∀ t : Nat, t ≠ f → t ≠ first + 2 → ∀ i, m'.mem t i = b.machine.mem t i := by
          intro t ht hne i
          exact (hclear t ht i).trans (write_mem_of_ne _ _ (Or.inl (hpdt ▸ hne)))
        refine ⟨⟨rest, ?_, ?_⟩, h.pml4t, ?_, Nat.zero_le _, ?_, h.inPdt, ?_, h.phys, ?_, ?_, ?_,
          ?_, ?_⟩
        · exact hlist'
        · rw [List.length_cons] at hspare
          omega
        · have := h.pti
          simp only
          omega
        · simp only [h.pdti]
        · exact Nat.add_right_comm (first + 3) 1 r
        · exact (hother first (by omega) (by omega) _).trans h.top
        · exact (hother (first + 1) (by omega) (by omega) _).trans h.pdpt
        · intro q hq
          rw [hclear (first + 2) (by omega), hpdt]
          rcases Nat.eq_or_lt_of_le hq with rfl | hlt
          · have hslot : Fin.ofNat 512 (r + 1) = ⟨c.pdti + 1, hi⟩ :=
              Fin.ext (by simp only [Fin.val_ofNat, h.pdti]; omega)
            have hframe : first + 3 + (r + 1) = f := (Nat.add_right_comm (first + 3) 1 r).symm
            rw [hslot, write_mem_self, hframe]
          · rw [write_mem_of_ne _ _ (Or.inr ?_)]
            · exact h.pdt q (by omega)
            · intro heq
              have hmod : q % 512 = c.pdti + 1 := congrArg Fin.val heq
              rw [h.pdti] at hmod
              omega
        · intro p hp
          have hindex := h.pti
          exact (hother _ (by omega) (by omega) _).trans (h.pages p hp)
        · intro i _
          exact clear_mem_self _ f i

theorem turn_eq_none (h : nextPt (c, b) = none) : turn (c, b) = none := by
  rw [turn, h]
  rfl

theorem turn_of_enterPage {c' c₁ : Cursor} {m' : Machine} {b₁ : Boot}
    (hnext : nextPt (c, b) = some (c₁, b₁))
    (henter : Machine.enterPage ⟨3, 3, 3⟩ (c₁, b₁.machine) = some (c', m')) :
    turn (c, b) = some (c', { b₁ with machine := m' }) := by
  exact Option.bind_eq_some_iff.2 ⟨_, hnext, Option.bind_eq_some_iff.2 ⟨_, henter, rfl⟩⟩

/-- One turn lays one more page; the run stops where a new page table is due and no page is left. -/
theorem Laid.turn (h : Laid first spare r j c b) (hj : j < 2 ^ 18) (hfirst : first < 2 ^ 18) :
    (∃ c' b' r', turn (c, b) = some (c', b') ∧ Laid first spare r' (j + 1) c' b' ∧
      512 * r' < j + 1) ∨
    (turn (c, b) = none ∧ 512 * (spare + 1) ≤ j) := by
  have hindex := h.pti
  rcases Nat.lt_or_eq_of_le h.within with hpti | hpti
  · rcases h.enterPage hpti with ⟨c', m', henter, h'⟩
    have hnext : Boot.nextPt (c, b) = some (c, b) := if_neg hpti.ne
    exact Or.inl ⟨c', _, r, turn_of_enterPage hnext henter, h', by omega⟩
  · rcases h.nextPt hpti (by omega) (by omega) with ⟨c₁, b₁, hnext, hzero, h₁⟩ | ⟨hspare, hnone⟩
    · rcases h₁.enterPage (by omega) with ⟨c', m', henter, h'⟩
      exact Or.inl ⟨c', _, r + 1, turn_of_enterPage hnext henter, h', by omega⟩
    · exact Or.inr ⟨turn_eq_none hnone, by omega⟩

/-- The whole loop, once it has something to do. -/
theorem Laid.times {k : Nat} (h : Laid first spare r j c b) (hbegun : k ≠ 0 ∨ 512 * r < j)
    (hj : j + k ≤ 2 ^ 18) (hfirst : first < 2 ^ 18) :
    (∃ c' b' r', Loop.times Boot.turn k (c, b) = some (c', b') ∧
      Laid first spare r' (j + k) c' b' ∧ 512 * r' < j + k) ∨
    (Loop.times Boot.turn k (c, b) = none ∧ 512 * (spare + 1) < j + k) := by
  induction k generalizing r j c b with
  | zero => exact Or.inl ⟨c, b, r, rfl, h, hbegun.resolve_left fun hk => hk rfl⟩
  | succ k ih =>
      rcases h.turn (by omega) hfirst with ⟨c₁, b₁, r₁, hturn, h₁, hbegun₁⟩ | ⟨hturn, hspare⟩
      · have hrun : Loop.times Boot.turn (k + 1) (c, b) = Loop.times Boot.turn k (c₁, b₁) := by
          rw [Loop.times, hturn]
          rfl
        have hcount : j + 1 + k = j + (k + 1) := by omega
        have hlater := ih h₁ (Or.inr hbegun₁) (by omega)
        rw [hcount] at hlater
        rw [hrun]
        exact hlater
      · refine Or.inr ⟨?_, by omega⟩
        rw [Loop.times, hturn]
        rfl

/-- Once the list is empty, the loop does not change it. -/
theorem turn_empty {page : Word} {s s' : Cursor × Boot} (h : BootList s.2.list page [])
    (hturn : Boot.turn s = some s') : BootList s'.2.list page [] := by
  rcases s with ⟨c, b⟩
  rcases Option.bind_eq_some_iff.1 hturn with ⟨⟨c₁, b₁⟩, hnext, hturn⟩
  rcases Option.bind_eq_some_iff.1 hturn with ⟨⟨c₂, m₂⟩, -, hret⟩
  cases hret
  rw [Boot.nextPt] at hnext
  split_ifs at hnext with hpti
  · -- a new page table would be behind NULL
    rw [bumpInitial_nil h] at hnext
    rcases Option.bind_eq_some_iff.1 hnext with ⟨⟨v, b₃⟩, hbump, hnext⟩
    cases hbump
    rcases Option.bind_eq_some_iff.1 hnext with ⟨_, -, hnext⟩
    rcases Option.bind_eq_some_iff.1 hnext with ⟨_, hpointer, -⟩
    rw [pointerFrame_zero] at hpointer
    cases hpointer
  · cases hnext
    exact h

/-! ## The number of turns -/

theorem structsFor_pages (a : Nat) : structsFor a = ((a + 511) / 512 : Nat) := by
  rw [structsFor, Int.tdiv_eq_ediv_of_nonneg (by omega), Int.tmod_eq_emod_of_nonneg (by omega)]
  split_ifs <;> omega

/-- The turns for the pages below `a`: all of them, and one more for every 512 of them. -/
def turnsBelow (a : Nat) : Nat := a + (a + 511) / 512

theorem turnsNonneg_mapSize {a : Nat} (ha : a < 2 ^ 18) :
    turnsNonneg (mapSize (pageWord a) 0) = turnsBelow a := by
  have hdiff : pageWord a - 0 = pageWord a := BitVec.sub_zero _
  have htoNat : (pageWord a).toNat = 4096 * a := pageWord_toNat (by omega)
  have hentries : toInt32 (pageWord a / 4096) = (a : Nat) := by
    refine toInt32_of_toNat ?_ (by omega) (by omega)
    rw [BitVec.toNat_udiv, htoNat, show (4096 : Word).toNat = 4096 by decide]
    omega
  have hrest : ¬ pageWord a % 512 > 0 := by
    have hword : (512 : Word).toNat = 512 := by decide
    rw [gt_iff_lt, BitVec.lt_def, BitVec.toNat_umod, htoNat, hword]
    simp
    omega
  have hsize : mapSize (pageWord a) 0 = 4096 * (a + ((a + 511) / 512 : Nat) - 1) := by
    simp only [mapSize, hdiff, hentries, if_neg hrest, add_zero, structsFor_pages]
    refine toInt32_of_toNat ?_ (by omega) (by omega)
    rw [BitVec.toNat_add, htoNat, BitVec.toNat_ofInt]
    omega
  rw [hsize, turnsNonneg, turnsBelow]
  omega

/-! ## `start` -/

/-- An address is mapped to a frame, present and writable at every level. -/
def MapsWritably (m : Machine) (va : Word) (f : Frame) : Prop :=
  m.translate m.pml4t va = some f ∧ ∀ e ∈ m.entries m.pml4t (pathOf va), Has e writeBit

/-- What the kernel relies on after the switch: everything below the head of the free list is mapped
at its place in the kernel window, and slot 510 leads back to the top table. -/
structure Survives (b : Boot) : Prop where
  mapped : ∃ head, b.list.getUnallocated = some head ∧
    ∀ p < frameOf head, MapsWritably b.machine (pageWord p + KERNBASE) p
  recursive : b.machine.child b.machine.pml4t 510 = some b.machine.pml4t

/-- The free pages that are gone when `map_address_initial` returns, with `first` the first one. -/
def pagesTaken (first : Nat) : Nat := 4 + (turnsBelow (first + 4) - 1) / 512

/-- A link in a walk. -/
theorem walk_link {m : Machine} {t f : Nat} {i : Slot} (hf : f < 2 ^ 52)
    (h : m.mem t i = pageWord f ||| 3) (is : List Slot) :
    m.walk t (i :: is) = m.walk f is ∧
      m.entries t (i :: is) = (pageWord f ||| 3) :: m.entries f is := by
  have hframe : frameOf (m.mem t i) = f := by
    rw [h, frameOf_or _ (by decide), frameOf_pageWord hf]
  have hpresent : Present (m.mem t i) := by
    rw [h]
    exact has_of_or_left (by decide) _
  have hchild : m.child t i = some f := child_eq_some.2 ⟨hpresent, hframe⟩
  refine ⟨walk_cons hchild, ?_⟩
  rw [entries, hchild, h]

/-- The pages that have been laid are mapped. -/
theorem Laid.mapsWritably (h : Laid first spare r j c b) {p : Nat} (hp : p < j) (hj : j ≤ 2 ^ 18)
    (hfirst : first < 2 ^ 18) : MapsWritably b.machine (pageWord p + KERNBASE) p := by
  have hindex := h.pti
  have hwithin := h.within
  have hwindow : 510 + p / 512 / 512 = 510 := by omega
  have hpath : pathOf (pageWord p + KERNBASE) =
      [511, 510, Fin.ofNat 512 (p / 512), Fin.ofNat 512 p] := by
    rw [pathOf_kernelWord (by omega), hwindow]
    rfl
  have hregion : p / 512 ≤ r := by omega
  rcases walk_link (by omega) h.top [510, Fin.ofNat 512 (p / 512), Fin.ofNat 512 p] with ⟨hw₁, he₁⟩
  rcases walk_link (by omega) h.pdpt [Fin.ofNat 512 (p / 512), Fin.ofNat 512 p] with ⟨hw₂, he₂⟩
  rcases walk_link (by omega) (h.pdt _ hregion) [Fin.ofNat 512 p] with ⟨hw₃, he₃⟩
  rcases walk_link (by omega) (h.pages p hp) [] with ⟨hw₄, he₄⟩
  constructor
  · rw [Machine.translate, hpath, h.pml4t, hw₁, hw₂, hw₃, hw₄, walk]
  · rw [hpath, h.pml4t, he₁, he₂, he₃, he₄]
    intro e he
    simp only [entries, List.mem_cons, List.not_mem_nil, or_false] at he
    rcases he with rfl | rfl | rfl | rfl <;> exact has_of_or_left (by decide) _

/-- One level of `map_address_initial`, whether a page is left or not. -/
theorem descend_zero {t f : Nat} {i : Slot} (habsent : b.machine.mem t i = 0) (hf : f < 2 ^ 19)
    (h : BootList b.list (pageWord f) nodes) :
    (∃ x rest list, nodes = x :: rest ∧ BootList list (pageWord (f + 1)) rest ∧
      descend t i b = some (f, ⟨(b.machine.clear f).write t i (pageWord f ||| 3), list⟩)) ∨
    (nodes = [] ∧ descend t i b = none) := by
  cases nodes with
  | nil => exact Or.inr ⟨rfl, descend_absent_nil habsent h⟩
  | cons x rest =>
      rcases descend_absent habsent hf h with ⟨list, hdescend, hlist⟩
      exact Or.inl ⟨x, rest, list, rfl, hlist, hdescend⟩

/-- The three levels of the walk to `KERNBASE`. -/
def levels (b : Boot) : Option (Cursor × Boot) :=
  (descend b.machine.pml4t (pml4Index KERNBASE) b).bind fun s₁ =>
    (descend s₁.1 (pdptIndex KERNBASE) s₁.2).bind fun s₂ =>
      (descend s₂.1 (pdtIndex KERNBASE) s₂.2).bind fun s₃ =>
        some (cursorAt KERNBASE 0 s₁.1 s₂.1 s₃.1, s₃.2)

theorem mapAddressInitial_eq (b : Boot) : mapAddressInitial KERNBASE 0 b =
    (levels b).bind fun s => s.2.list.getUnallocated.bind fun abc =>
      (Loop.times turn (turnsNonneg (mapSize abc 0)) s).bind fun s' => some s'.2 := by
  simp only [mapAddressInitial, levels, Option.bind_eq_bind, Option.bind_assoc]
  rfl

/-- The three tables are in the three frames behind the top table. -/
theorem levels_spec (hpml4t : b.machine.pml4t = first) (hzero : ∀ i, b.machine.mem first i = 0)
    (hfirst : first < 2 ^ 18) (hlist : BootList b.list (pageWord (first + 1)) nodes) :
    (3 ≤ nodes.length ∧ ∃ c b', levels b = some (c, b') ∧
      Laid first (nodes.length - 3) 0 0 c b') ∨
    (nodes.length < 3 ∧ levels b = none) := by
  have hi₄ : pml4Index KERNBASE = 511 := by decide
  have hi₃ : pdptIndex KERNBASE = 510 := by decide
  have hi₂ : pdtIndex KERNBASE = 0 := by decide
  -- a table that has just been zeroed is not the one its entry is put into
  have hfresh : ∀ (m : Machine) (f t : Nat) (j : Slot) (e : Word), f ≠ t →
      ∀ i, ((m.clear f).write t j e).mem f i = 0 := fun m f t j e hne i =>
    (write_mem_of_ne _ _ (Or.inl hne)).trans (clear_mem_self m f i)
  rcases descend_zero (t := first) (f := first + 1) (hzero 511) (by omega) hlist with
    ⟨x₁, rest₁, list₁, rfl, hlist₁, hdown₁⟩ | ⟨rfl, hnone⟩
  case inr => exact Or.inr ⟨by simp, by simp [levels, hpml4t, hi₄, hnone]⟩
  have hzero₁ := hfresh b.machine (first + 1) first 511 (pageWord (first + 1) ||| 3) (by omega)
  generalize hm₁ : (b.machine.clear (first + 1)).write first 511 (pageWord (first + 1) ||| 3) = m₁
    at hdown₁ hzero₁
  rcases descend_zero (b := ⟨m₁, list₁⟩) (t := first + 1) (f := first + 2) (hzero₁ 510) (by omega)
    hlist₁ with ⟨x₂, rest₂, list₂, rfl, hlist₂, hdown₂⟩ | ⟨rfl, hnone⟩
  case inr => exact Or.inr ⟨by simp, by simp [levels, hpml4t, hi₄, hi₃, hdown₁, hnone]⟩
  have hzero₂ := hfresh m₁ (first + 2) (first + 1) 510 (pageWord (first + 2) ||| 3) (by omega)
  generalize hm₂ : (m₁.clear (first + 2)).write (first + 1) 510 (pageWord (first + 2) ||| 3) = m₂
    at hdown₂ hzero₂
  rcases descend_zero (b := ⟨m₂, list₂⟩) (t := first + 2) (f := first + 3) (hzero₂ 0) (by omega)
    hlist₂ with ⟨x₃, rest₃, list₃, rfl, hlist₃, hdown₃⟩ | ⟨rfl, hnone⟩
  case inr => exact Or.inr ⟨by simp, by simp [levels, hpml4t, hi₄, hi₃, hi₂, hdown₁, hdown₂, hnone]⟩
  have hzero₃ := hfresh m₂ (first + 3) (first + 2) 0 (pageWord (first + 3) ||| 3) (by omega)
  generalize hm₃ : (m₂.clear (first + 3)).write (first + 2) 0 (pageWord (first + 3) ||| 3) = m₃
    at hdown₃ hzero₃
  -- what a level leaves alone
  have hkeep : ∀ (m m' : Machine) (f t : Nat) (i : Slot) (e : Word),
      (m.clear f).write t i e = m' → m'.pml4t = m.pml4t ∧
        ∀ (t' : Nat) (j : Slot), t' ≠ f → t' ≠ t → m'.mem t' j = m.mem t' j := by
    rintro m m' f t i e rfl
    refine ⟨rfl, fun t' j hf ht => ?_⟩
    exact (write_mem_of_ne _ _ (Or.inl ht)).trans (congrFun (clear_mem_of_ne _ hf) j)
  have hk₁ := hkeep _ _ _ _ _ _ hm₁
  have hk₂ := hkeep _ _ _ _ _ _ hm₂
  have hk₃ := hkeep _ _ _ _ _ _ hm₃
  have htop : m₁.mem first 511 = pageWord (first + 1) ||| 3 := hm₁ ▸ write_mem_self _ _ _ _
  have hpdpt : m₂.mem (first + 1) 510 = pageWord (first + 2) ||| 3 := hm₂ ▸ write_mem_self _ _ _ _
  have hpdt : m₃.mem (first + 2) 0 = pageWord (first + 3) ||| 3 := hm₃ ▸ write_mem_self _ _ _ _
  let c := cursorAt KERNBASE 0 (first + 1) (first + 2) (first + 3)
  refine Or.inl ⟨by simp, c, ⟨m₃, list₃⟩, ?_, ?_⟩
  · simp [c, levels, hpml4t, hi₄, hi₃, hi₂, hdown₁, hdown₂, hdown₃]
  · have hpti : ((ptIndex KERNBASE : Slot) : Nat) + 512 * 0 = 0 := by decide
    have hwithin : ((ptIndex KERNBASE : Slot) : Nat) ≤ 512 := by decide
    have hpdti : ((pdtIndex KERNBASE : Slot) : Nat) = 0 := by decide
    have hphys : (0 : Word) &&& physMask = pageWord 0 := by decide
    refine ⟨⟨rest₃, hlist₃, by simp⟩, ?_, hpti, hwithin, hpdti, rfl, rfl, hphys, ?_,
      ?_, ?_, fun p hp => absurd hp (Nat.not_lt_zero p), fun i _ => hzero₃ i⟩
    · exact (hk₃.1.trans hk₂.1).trans (hk₁.1.trans hpml4t)
    · exact (hk₃.2 _ _ (by omega) (by omega)).trans ((hk₂.2 _ _ (by omega) (by omega)).trans htop)
    · exact (hk₃.2 _ _ (by omega) (by omega)).trans hpdpt
    · intro q hq
      rw [Nat.le_zero.1 hq]
      exact hpdt

/-- `map_address_initial` from an empty top table. -/
theorem mapAddressInitial_spec (hpml4t : b.machine.pml4t = first)
    (hzero : ∀ i, b.machine.mem first i = 0) (hfirst : first < 2 ^ 18 - 2 ^ 10)
    (hlist : BootList b.list (pageWord (first + 1)) nodes) :
    (pagesTaken first ≤ nodes.length →
      ∃ b', mapAddressInitial KERNBASE 0 b = some b' ∧ 0 < b'.list.numberOfFreePages) ∧
    ∀ b', mapAddressInitial KERNBASE 0 b = some b' → 0 < b'.list.numberOfFreePages →
      ∃ spare r j c, Laid first spare r j c b' ∧ first + 4 + r ≤ j ∧ j ≤ 2 ^ 18 := by
  have htaken : pagesTaken first = 4 + (turnsBelow (first + 4) - 1) / 512 := rfl
  have hturns : turnsBelow (first + 4) = first + 4 + (first + 4 + 511) / 512 := rfl
  rw [mapAddressInitial_eq]
  rcases levels_spec hpml4t hzero (by omega) hlist with ⟨hthree, c, b₃, hlevels, h₃⟩ | ⟨hfew, hnone⟩
  case inr =>
    rw [hnone]
    exact ⟨fun hmany => absurd hmany (by omega), fun b' hrun => nomatch hrun⟩
  rw [hlevels, Option.bind_some]
  rcases h₃.list with ⟨rest, hrest, hlength⟩
  cases rest with
  | nil =>
      -- the last page has become the page table: whatever the loop does, the list stays empty
      rw [List.length_nil] at hlength
      refine ⟨fun hmany => absurd hmany (by omega), fun b' hrun hfree => ?_⟩
      rcases Option.bind_eq_some_iff.1 hrun with ⟨abc, -, hrun⟩
      rcases Option.bind_eq_some_iff.1 hrun with ⟨s', hloop, hret⟩
      cases hret
      have hempty : BootList s'.2.list (pageWord (first + 4 + 0)) [] :=
        Loop.times_invariant (I := fun s => BootList s.2.list (pageWord (first + 4 + 0)) [])
          turn_empty hloop hrest
      rw [hempty.count] at hfree
      exact absurd hfree (lt_irrefl 0)
  | cons x rest =>
      rw [hrest.getUnallocated_cons, Option.bind_some, Nat.add_zero, turnsNonneg_mapSize (by omega)]
      rcases h₃.times (k := turnsBelow (first + 4)) (Or.inl (by omega)) (by omega) (by omega) with
        ⟨c', b', r, hloop, h', hr⟩ | ⟨hloop, hspare⟩
      · rw [hloop]
        refine ⟨fun hmany => ⟨b', rfl, ?_⟩, fun b'' hret _ => ?_⟩
        · rcases h'.list with ⟨rest', hrest', hlength'⟩
          rw [hrest'.count]
          omega
        · cases hret
          exact ⟨_, r, _, c', h', by omega, by omega⟩
      · rw [hloop]
        exact ⟨fun hmany => absurd hmany (by omega), fun b'' hret => nomatch hret⟩

theorem Laid.survives (h : Laid first spare r j c b) (hbelow : first + 4 + r ≤ j)
    (hj : j ≤ 2 ^ 18) (hfirst : first < 2 ^ 18) (hfree : 0 < b.list.numberOfFreePages) :
    Survives b.linkSelf := by
  let m' := b.linkSelf.machine
  have hm' : m' = b.machine.write first 510 (linkTo (pageWord first + KERNBASE) 3) := by
    simp only [m', linkSelf, h.pml4t]
  have hpage : LowPage (pageWord first) := lowPage_pageWord (by omega)
  have hother : ∀ (t : Nat) (i : Slot), t ≠ first ∨ i ≠ 510 → m'.mem t i = b.machine.mem t i := by
    intro t i hne
    rw [hm']
    exact write_mem_of_ne _ _ hne
  -- the self entry is the only word that changes, and no part of the map is there
  have h' : Laid first spare r j c b.linkSelf := by
    refine ⟨h.list, h.pml4t, h.pti, h.within, h.pdti, h.inPdt, h.inPt, h.phys, ?_, ?_, ?_, ?_,
      ?_⟩
    · exact (hother _ _ (Or.inr (by decide))).trans h.top
    · exact (hother _ _ (Or.inl (by omega))).trans h.pdpt
    · exact fun q hq => (hother _ _ (Or.inl (by omega))).trans (h.pdt q hq)
    · exact fun p hp => (hother _ _ (Or.inl (by omega))).trans (h.pages p hp)
    · intro i hi
      refine (hother _ _ (Or.inl ?_)).trans (h.absent i hi)
      rw [h.inPt]
      omega
  rcases h.list with ⟨nodes, hlist, -⟩
  constructor
  · cases nodes with
    | nil =>
        rw [hlist.count] at hfree
        exact absurd hfree (lt_irrefl 0)
    | cons x rest =>
        refine ⟨_, hlist.getUnallocated_cons, fun p hp => ?_⟩
        rw [frameOf_pageWord (by omega)] at hp
        exact h'.mapsWritably (by omega) hj hfirst
  · change m'.child m'.pml4t 510 = some m'.pml4t
    rw [hm', write_pml4t, h.pml4t]
    refine child_eq_some.2 ?_
    rw [write_mem_self, hpage.linkTo, frameOf_or _ (by decide), frameOf_pageWord (by omega)]
    exact ⟨has_of_or_left (by decide) _, rfl⟩

/-- A free list in address order starts with a whole page. -/
theorem initbump_page {physfree physend : Word} {heap : NodeRef → FreeNode} {list : Allocator}
    (haligned : physfree.toNat % 4096 = 0) (h : initbump heap physfree physend = some list) :
    ∃ first nodes, BootList list (pageWord first) nodes ∧ first < 2 ^ 52 := by
  rcases initbump_bootList h with ⟨nodes, hlist⟩
  let l := nodePages (pagesBetween physfree physend)
  have hpage : physfree + BitVec.ofNat 64 (4096 * l) =
      pageWord ((physfree.toNat + 4096 * l) % 2 ^ 64 / 4096) := by
    apply BitVec.eq_of_toNat_eq
    rw [pageWord_toNat (by omega), BitVec.toNat_add, BitVec.toNat_ofNat]
    omega
  exact ⟨_, nodes, hpage ▸ hlist, by omega⟩

/-- `start`, step by step. -/
theorem start_cases {machine : Machine} {heap : NodeRef → FreeNode} {physfree physend : Word}
    {list : Allocator} (hinit : initbump heap physfree physend = some list)
    (h : start machine heap physfree physend = some b) :
    ∃ v list' t, list.bumpInitial 4096 = some (v, list') ∧ pointerFrame v = some t ∧
      ∃ b', mapAddressInitial KERNBASE 0 ⟨{ machine with pml4t := t }.clear t, list'⟩ = some b' ∧
        b = b'.linkSelf := by
  rcases Option.bind_eq_some_iff.1 h with ⟨list₁, hinit₁, h⟩
  rw [hinit] at hinit₁
  cases hinit₁
  rcases Option.bind_eq_some_iff.1 h with ⟨⟨v, list'⟩, hbump, h⟩
  rcases Option.bind_eq_some_iff.1 h with ⟨t, hpointer, h⟩
  rcases Option.bind_eq_some_iff.1 h with ⟨b', hmap, hret⟩
  cases hret
  exact ⟨v, list', t, hbump, hpointer, b', hmap, rfl⟩

/-- The pages below the first free page after `start` are mapped, present and writable, when the
machine has pages left. -/
theorem start_survives (machine : Machine) {heap : NodeRef → FreeNode}
    {physfree physend head : Word} {list : Allocator} (haligned : physfree.toNat % 4096 = 0)
    (hinit : initbump heap physfree physend = some list)
    (hhead : list.getUnallocated = some head) (hlow : head.toNat < 2 ^ 30 - 2 ^ 22) :
    (pagesTaken (frameOf head) < list.numberOfFreePages →
      ∃ b, start machine heap physfree physend = some b ∧ 0 < b.list.numberOfFreePages) ∧
    ∀ b, start machine heap physfree physend = some b → 0 < b.list.numberOfFreePages →
      Survives b := by
  rcases initbump_page haligned hinit with ⟨first, nodes, hlist, hfit⟩
  cases nodes with
  | nil =>
      have hbump : list.bumpInitial 4096 = some (0, list) := hlist.bumpInitial_nil (by decide)
      rw [hlist.count]
      refine ⟨fun hmany => absurd hmany (Nat.not_lt_zero _), fun b hrun _ => ?_⟩
      -- the top table itself would be behind NULL
      rcases start_cases hinit hrun with ⟨v, list', t, hbump', hpointer, -⟩
      rw [hbump] at hbump'
      cases hbump'
      rw [pointerFrame_zero] at hpointer
      cases hpointer
  | cons x rest =>
      have hfirst : first < 2 ^ 18 - 2 ^ 10 := by
        have heq : pageWord first = head :=
          Option.some_inj.1 (hlist.getUnallocated_cons.symm.trans hhead)
        rw [← heq, pageWord_toNat hfit] at hlow
        omega
      have hframe : frameOf head = first := by
        rw [← Option.some_inj.1 (hlist.getUnallocated_cons.symm.trans hhead), frameOf_pageWord hfit]
      have hpage : LowPage (pageWord first) := lowPage_pageWord (by omega)
      have hone : numOfPages 4096 = 1 := by decide
      rcases hlist.bumpInitial_cons hone with ⟨list', hbump, hlist'⟩
      rw [pageWord_succ] at hlist'
      have hpointer : pointerFrame (pageWord first + KERNBASE) = some first := by
        rw [hpage.pointerFrame, frameOf_pageWord hfit]
      let b₀ : Boot := ⟨{ machine with pml4t := first }.clear first, list'⟩
      rcases mapAddressInitial_spec (b := b₀) rfl (fun i => clear_mem_self _ first i) hfirst hlist'
        with ⟨hsome, hall⟩
      rw [hlist.count, hframe]
      constructor
      · intro hmany
        rcases hsome (Nat.lt_succ_iff.1 hmany) with ⟨b', hmap, hfree⟩
        refine ⟨b'.linkSelf, ?_, hfree⟩
        refine Option.bind_eq_some_iff.2 ⟨list, hinit, ?_⟩
        refine Option.bind_eq_some_iff.2 ⟨_, hbump, ?_⟩
        refine Option.bind_eq_some_iff.2 ⟨first, hpointer, ?_⟩
        exact Option.bind_eq_some_iff.2 ⟨b', hmap, rfl⟩
      · intro b hrun hfree
        rcases start_cases hinit hrun with ⟨v, list'', t, hbump', hpointer', b', hmap, rfl⟩
        rw [hbump] at hbump'
        rcases Prod.mk.inj (Option.some_inj.1 hbump') with ⟨rfl, rfl⟩
        rw [hpointer] at hpointer'
        cases hpointer'
        rcases hall b' hmap hfree with ⟨spare, r, j, c, hlaid, hbelow, hj⟩
        exact hlaid.survives hbelow hj (hfirst.trans (by decide)) hfree

/-- Nine free pages behind the list nodes at 1 MiB. -/
theorem start_survives_nine : ∃ b,
    start booted (fun _ => ⟨0, none⟩) 0x100000 0x10a000 = some b ∧ Survives b := by
  have hrun : (initbump (fun _ => ⟨0, none⟩) 0x100000 0x10a000).map
      (fun list => (list.getUnallocated, list.numberOfFreePages)) = some (some 0x101000, 9) := by
    decide +kernel
  rcases Option.map_eq_some_iff.1 hrun with ⟨list, hinit, hlist⟩
  rcases Prod.mk.inj hlist with ⟨hhead, hcount⟩
  rcases start_survives booted (by decide) hinit hhead (by decide) with ⟨hsome, hall⟩
  rcases hsome (by rw [hcount]; decide) with ⟨b, hstart, hfree⟩
  exact ⟨b, hstart, hall b hstart hfree⟩

end Boot

end Paging

end OswpKernel
