import OswpKernel.Allocator.AfterPaging
import OswpKernel.Paging.PageTables

/-!
# Started — the kernel's tables when `start` has built them

`start` runs on the boot loader's page tables, builds its own from the boot list, switches to them,
relocates the list into the kernel window and adds the page tables that are missing.  `Fresh` is the
part of the state that `Laid` does not speak of: the entries that no turn has reached are zero, and
the list is closed.  From both follows what `map_pagetables` starts from.
-/

namespace OswpKernel

namespace Paging

namespace Boot

open Chain Machine Allocator

/-- The loop over the attribute bytes of the text screen. -/
def attributes (m : Machine) : Machine :=
  m.setPage 0xb8 fun i =>
    -- 4000 bytes; the attribute is the odd one of each pair
    if (i : Nat) < 500 then (m.mem 0xb8 i &&& 0x00ff00ff00ff00ff) ||| 0x0700070007000700
    else m.mem 0xb8 i

/-- The machine once `list` has been relocated.  `mainthread`, made behind `map_pagetables`, has
`pml4t_t` for its table. -/
def running (b : Boot) (list : Allocator) : Machine :=
  attributes { b.machine with ring := fullRing list.freePages, current := b.machine.pml4t }

/-- `start` up to `map_pagetables`. -/
def startKernel (machine : Machine) (heap : NodeRef → FreeNode) (physfree physend : Word) :
    Option (Allocator × Machine) := do
  let b ← start machine heap physfree physend
  let list ← b.list.initAfterPaging b.list.numberOfFreePages
  let m ← mapPagetables (running b list)
  return (list, m)

variable {b b' : Boot} {c c' : Cursor} {nodes : List NodeRef} {list list' : Allocator}
  {first spare r j k : Nat} {v page : Word}

/-! ## The list -/

/-- The boot list is closed, and its nodes are where the window will show them. -/
def Pending (list : Allocator) : Prop :=
  ∃ page nodes, BootList list page nodes ∧ Seg list.next list.headFree nodes none ∧
    ∀ x ∈ nodes, x < directMapLimit

theorem Pending.bumpInitial (h : Pending list)
    (hbump : list.bumpInitial 4096 = some (v, list')) : Pending list' := by
  rcases h with ⟨page, nodes, hlist, hclosed, hlow⟩
  have hone : numOfPages 4096 = 1 := by decide
  cases nodes with
  | nil =>
      rw [hlist.bumpInitial_nil hone] at hbump
      cases hbump
      exact ⟨page, [], hlist, hclosed, hlow⟩
  | cons x rest =>
      rcases hlist.moveHead with ⟨s', hmove, hlist', hclosed'⟩
      rw [hlist.bumpInitial_moveHead hone hmove] at hbump
      rcases Prod.mk.inj (Option.some_inj.1 hbump) with ⟨-, rfl⟩
      exact ⟨_, rest, hlist', hclosed' hclosed, fun y hy => hlow y (List.mem_cons_of_mem x hy)⟩

theorem Pending.bump (h : Pending b.list) (hbump : Boot.bumpInitial 4096 b = some (v, b')) :
    Pending b'.list := by
  rw [Boot.bumpInitial] at hbump
  rcases Option.bind_eq_some_iff.1 hbump with ⟨⟨_, list⟩, hlist, hret⟩
  cases hret
  exact h.bumpInitial hlist

/-- The nodes of a list do not depend on how they are found. -/
theorem Pending.closed (h : Pending list) (hlist : BootList list page nodes) :
    Seg list.next list.headFree nodes none ∧ ∀ x ∈ nodes, x < directMapLimit := by
  rcases h with ⟨page', nodes', hlist', hclosed, hlow⟩
  rcases hlist.linked with ⟨stop, hlinked⟩
  have hsame : nodes = nodes' :=
    hlinked.eq_of_length hclosed (hlist.count.symm.trans hlist'.count)
  exact hsame ▸ ⟨hclosed, hlow⟩

theorem Pending.descend {t next : Frame} {i : Slot} (h : Pending b.list)
    (hdescend : descend t i b = some (next, b')) : Pending b'.list := by
  rw [Boot.descend] at hdescend
  split_ifs at hdescend with hpresent
  · rcases Option.bind_eq_some_iff.1 hdescend with ⟨_, -, hret⟩
    cases hret
    exact h
  · rcases Option.bind_eq_some_iff.1 hdescend with ⟨⟨v, b₁⟩, hbump, hdescend⟩
    rcases Option.bind_eq_some_iff.1 hdescend with ⟨_, -, hret⟩
    cases hret
    have hbumped : Pending b₁.list := h.bump hbump
    exact hbumped

theorem Pending.levels (h : Pending b.list) (hlevels : levels b = some (c, b')) :
    Pending b'.list := by
  rcases Option.bind_eq_some_iff.1 hlevels with ⟨s₁, h₁, hlevels⟩
  rcases Option.bind_eq_some_iff.1 hlevels with ⟨s₂, h₂, hlevels⟩
  rcases Option.bind_eq_some_iff.1 hlevels with ⟨s₃, h₃, hret⟩
  cases hret
  exact ((h.descend h₁).descend h₂).descend h₃

/-! ## The entries no turn has reached -/

structure Fresh (first : Nat) (c : Cursor) (b : Boot) : Prop where
  pending : Pending b.list
  second : b.machine.mem (first + 1) 511 = 0
  pdt : ∀ q : Slot, c.pdti < q → b.machine.mem (first + 2) q = 0
  pt : first + 2 < c.pt

theorem Fresh.enterPage {m' : Machine} (h : Fresh first c b)
    (henter : Machine.enterPage ⟨3, 3, 3⟩ (c, b.machine) = some (c', m')) :
    Fresh first c' { b with machine := m' } := by
  have hpt := h.pt
  rcases enterPage_cases henter with ⟨hi, ⟨-, rfl, rfl⟩ | ⟨-, rfl, rfl⟩⟩
  · exact ⟨h.pending, h.second, h.pdt, h.pt⟩
  · have hother : ∀ t : Nat, t < c.pt → ∀ q, (b.machine.write c.pt ⟨c.pti, hi⟩
        (c.phys ||| 3)).mem t q = b.machine.mem t q :=
      fun t ht q => write_mem_of_ne _ _ (Or.inl ht.ne)
    exact ⟨h.pending, (hother _ (by omega) _).trans h.second,
      fun q hq => (hother _ hpt q).trans (h.pdt q hq), h.pt⟩

theorem Fresh.nextPt (hfresh : Fresh first c b) (h : Laid first spare r j c b) (hr : r + 1 < 512)
    (hlow : first + 4 + r < 2 ^ 19) (hnext : Boot.nextPt (c, b) = some (c', b')) :
    Fresh first c' b' := by
  rw [Boot.nextPt] at hnext
  split_ifs at hnext with hpti
  · have hpdti : c.pdti = r := h.pdti
    rcases Option.bind_eq_some_iff.1 hnext with ⟨⟨v, b₁⟩, hbump, hnext⟩
    rcases Option.bind_eq_some_iff.1 hnext with ⟨s₂, hskip, hnext⟩
    rcases Option.bind_eq_some_iff.1 hnext with ⟨next, hpointer, hnext⟩
    rcases Option.bind_eq_some_iff.1 hnext with ⟨m', hstore, hret⟩
    rw [nextPdt, if_neg (by simp only [hpdti]; omega)] at hskip
    cases hskip
    cases hret
    rcases h.list with ⟨nodes, hlist, -⟩
    cases nodes with
    | nil =>
        rw [bumpInitial_nil hlist] at hbump
        cases hbump
        rw [pointerFrame_zero] at hpointer
        cases hpointer
    | cons x rest =>
        have hpending := hfresh.pending.bump hbump
        rcases bumpInitial_cons hlist with ⟨list, hbump', -⟩
        rw [hbump'] at hbump
        rcases Prod.mk.inj (Option.some_inj.1 hbump) with ⟨rfl, rfl⟩
        rw [(lowPage_pageWord hlow).pointerFrame, frameOf_pageWord (by omega)] at hpointer
        cases hpointer
        rcases Machine.store_eq_some _ hstore with ⟨hi, rfl⟩
        have hpdt : c.pdt = first + 2 := h.inPdt
        have hother : ∀ (t : Nat) (q : Slot) (e : Word), t < first + 3 →
            t ≠ first + 2 ∨ q ≠ ⟨c.pdti + 1, hi⟩ →
            ((b.machine.write c.pdt ⟨c.pdti + 1, hi⟩ e).clear (first + 4 + r)).mem t q =
              b.machine.mem t q := by
          intro t q e ht hne
          have hbelow : t < first + 4 + r := by omega
          rw [congrFun (clear_mem_of_ne _ hbelow.ne) q]
          exact write_mem_of_ne _ _ (hpdt ▸ hne)
        refine ⟨hpending, ?_, fun q hq => ?_, ?_⟩
        · exact (hother _ _ _ (by omega) (Or.inl (by omega))).trans hfresh.second
        · -- the entry that has been written is the one the index has moved to
          have hne : q ≠ ⟨c.pdti + 1, hi⟩ := by
            rintro rfl
            exact absurd hq (lt_irrefl _)
          exact (hother _ q _ (by omega) (Or.inr hne)).trans
            (hfresh.pdt q (lt_trans (Nat.lt_succ_self _) hq))
        · change first + 2 < first + 4 + r
          omega
  · cases hnext
    exact hfresh

theorem Fresh.turn (hfresh : Fresh first c b) (h : Laid first spare r j c b) (hj : j < 2 ^ 18)
    (hfirst : first < 2 ^ 18) (hturn : Boot.turn (c, b) = some (c', b')) :
    Fresh first c' b' := by
  rcases Option.bind_eq_some_iff.1 hturn with ⟨⟨c₁, b₁⟩, hnext, hturn⟩
  rcases Option.bind_eq_some_iff.1 hturn with ⟨⟨c₂, m₂⟩, henter, hret⟩
  cases hret
  have hindex := h.pti
  rcases Nat.lt_or_eq_of_le h.within with hpti | hpti
  · rw [Boot.nextPt, if_neg hpti.ne] at hnext
    cases hnext
    exact hfresh.enterPage henter
  · exact (hfresh.nextPt h (by omega) (by omega) hnext).enterPage henter

theorem Fresh.times (hfresh : Fresh first c b) (h : Laid first spare r j c b)
    (hj : j + k ≤ 2 ^ 18) (hfirst : first < 2 ^ 18)
    (hrun : Loop.times Boot.turn k (c, b) = some (c', b')) : Fresh first c' b' := by
  induction k generalizing r j c b with
  | zero =>
      cases hrun
      exact hfresh
  | succ k ih =>
      rcases Option.bind_eq_some_iff.1 hrun with ⟨⟨c₁, b₁⟩, hturn, hrest⟩
      have hfresh₁ := hfresh.turn h (by omega) hfirst hturn
      rcases h.turn (by omega) hfirst with ⟨c₂, b₂, r₁, hturn', h₁, -⟩ | ⟨hturn', -⟩
      · rw [hturn] at hturn'
        cases hturn'
        exact ih hfresh₁ h₁ (by omega) hrest
      · rw [hturn] at hturn'
        cases hturn'

/-- The three tables of the walk to `KERNBASE`, with nothing below the first page table. -/
theorem Fresh.levels (hpending : Pending b.list) (hpml4t : b.machine.pml4t = first)
    (hzero : ∀ i, b.machine.mem first i = 0) (hfirst : first < 2 ^ 18)
    (hlist : BootList b.list (pageWord (first + 1)) nodes) (hlevels : levels b = some (c, b')) :
    Fresh first c b' := by
  have hpending' := hpending.levels hlevels
  have hi₄ : pml4Index KERNBASE = 511 := by decide
  have hi₃ : pdptIndex KERNBASE = 510 := by decide
  have hi₂ : pdtIndex KERNBASE = 0 := by decide
  rcases Option.bind_eq_some_iff.1 hlevels with ⟨⟨t₁, b₁⟩, h₁, hlevels⟩
  rcases Option.bind_eq_some_iff.1 hlevels with ⟨⟨t₂, b₂⟩, h₂, hlevels⟩
  rcases Option.bind_eq_some_iff.1 hlevels with ⟨⟨t₃, b₃⟩, h₃, hret⟩
  cases hret
  rw [hpml4t, hi₄] at h₁
  rcases descend_zero (t := first) (f := first + 1) (hzero 511) (by omega) hlist with
    ⟨x₁, rest₁, list₁, rfl, hlist₁, hdown⟩ | ⟨rfl, hnone⟩
  case inr => rw [hnone] at h₁; cases h₁
  rw [hdown] at h₁
  cases h₁
  -- the new table stays empty but for the entry that each level writes
  have hzero₁ : ∀ i, ((b.machine.clear (first + 1)).write first 511
      (pageWord (first + 1) ||| 3)).mem (first + 1) i = 0 := fun i =>
    (write_mem_of_ne _ _ (Or.inl (Nat.succ_ne_self _))).trans (clear_mem_self _ _ i)
  generalize (b.machine.clear (first + 1)).write first 511 (pageWord (first + 1) ||| 3) = m₁
    at h₂ h₃ hzero₁
  simp only [hi₃] at h₂
  rcases descend_zero (b := ⟨m₁, list₁⟩) (t := first + 1) (f := first + 2) (hzero₁ 510) (by omega)
    hlist₁ with ⟨x₂, rest₂, list₂, rfl, hlist₂, hdown⟩ | ⟨rfl, hnone⟩
  case inr => rw [hnone] at h₂; cases h₂
  rw [hdown] at h₂
  cases h₂
  have hzero₂ : ∀ i, ((m₁.clear (first + 2)).write (first + 1) 510
      (pageWord (first + 2) ||| 3)).mem (first + 2) i = 0 := fun i =>
    (write_mem_of_ne _ _ (Or.inl (Nat.succ_ne_self _))).trans (clear_mem_self _ _ i)
  have hsecond : ((m₁.clear (first + 2)).write (first + 1) 510
      (pageWord (first + 2) ||| 3)).mem (first + 1) 511 = 0 :=
    (write_mem_of_ne _ _ (Or.inr (by decide))).trans
      ((congrFun (clear_mem_of_ne _ (Nat.ne_of_lt (by omega))) _).trans (hzero₁ 511))
  generalize (m₁.clear (first + 2)).write (first + 1) 510 (pageWord (first + 2) ||| 3) = m₂
    at h₃ hzero₂ hsecond
  simp only [hi₂] at h₃
  rcases descend_zero (b := ⟨m₂, list₂⟩) (t := first + 2) (f := first + 3) (hzero₂ 0) (by omega)
    hlist₂ with ⟨x₃, rest₃, list₃, rfl, hlist₃, hdown⟩ | ⟨rfl, hnone⟩
  case inr => rw [hnone] at h₃; cases h₃
  rw [hdown] at h₃
  cases h₃
  refine ⟨hpending', ?_, fun q hq => ?_, Nat.lt_succ_self _⟩
  · exact (write_mem_of_ne _ _ (Or.inl (Nat.ne_of_lt (Nat.lt_succ_self _)))).trans
      ((congrFun (clear_mem_of_ne _ (Nat.ne_of_lt (by omega))) _).trans hsecond)
  · have hne : q ≠ 0 := by
      rintro rfl
      exact absurd hq (Nat.not_lt_zero _)
    exact (write_mem_of_ne _ _ (Or.inr hne)).trans
      ((congrFun (clear_mem_of_ne _ (Nat.ne_of_lt (by omega))) _).trans (hzero₂ q))

/-- `map_address_initial` where the pages suffice. -/
theorem mapAddressInitial_laid (hpml4t : b.machine.pml4t = first)
    (hzero : ∀ i, b.machine.mem first i = 0) (hfirst : first < 2 ^ 18 - 2 ^ 10)
    (hlist : BootList b.list (pageWord (first + 1)) nodes) (hpending : Pending b.list)
    (hmany : pagesTaken first < nodes.length) :
    ∃ b' r c, mapAddressInitial KERNBASE 0 b = some b' ∧
      Laid first (nodes.length - 3) r (turnsBelow (first + 4)) c b' ∧
      512 * r < turnsBelow (first + 4) ∧ Fresh first c b' := by
  have htaken : pagesTaken first = 4 + (turnsBelow (first + 4) - 1) / 512 := rfl
  have hturns : turnsBelow (first + 4) = first + 4 + (first + 4 + 511) / 512 := rfl
  rw [mapAddressInitial_eq]
  rcases levels_spec hpml4t hzero (by omega) hlist with ⟨-, c, b₃, hlevels, h₃⟩ | ⟨hfew, -⟩
  case inr => exact absurd hmany (by omega)
  have hfresh := Fresh.levels hpending hpml4t hzero (by omega) hlist hlevels
  rcases h₃.list with ⟨rest, hrest, hlength⟩
  cases rest with
  | nil =>
      rw [List.length_nil] at hlength
      exact absurd hmany (by omega)
  | cons x rest =>
      rcases h₃.times (k := turnsBelow (first + 4)) (Or.inl (by omega)) (by omega) (by omega) with
        ⟨c', b', r, hloop, h', hr⟩ | ⟨hloop, hspare⟩
      · rw [Nat.zero_add] at h' hr
        refine ⟨b', r, c', ?_, h', hr, hfresh.times h₃ (by omega) (by omega) hloop⟩
        rw [hlevels, Option.bind_some, hrest.getUnallocated_cons, Option.bind_some, Nat.add_zero,
          turnsNonneg_mapSize (by omega), hloop]
        rfl
      · exact absurd hmany (by omega)

/-! ## What `map_pagetables` starts from -/

/-- Neither the self entry nor the screen is in a table that `init_paging` has filled. -/
theorem running_mem (hpml4t : b.machine.pml4t = first) {t : Nat} (ht : 0xb8 < t) (i : Slot)
    (hne : t ≠ first ∨ i ≠ 510) :
    (running b.linkSelf list).mem t i = b.machine.mem t i := by
  have hself : b.linkSelf.machine.mem t i = b.machine.mem t i :=
    write_mem_of_ne _ _ (hpml4t ▸ hne)
  have hscreen : t ≠ (0xb8 : Nat) := ht.ne'
  rw [running, attributes, setPage_mem_of_ne _ _ hscreen]
  exact hself

theorem Laid.entered (h : Laid first spare r j c b) (hfresh : Fresh first c b)
    (hbegun : 512 * r < j) (hr : r < 512) (hvideo : 0xb8 < first) (hlow : first + 1027 < 2 ^ 18) :
    TablesLinked first 1 (r + 1) (running b.linkSelf list) := by
  have hpdti : c.pdti = r := h.pdti
  have hindex := h.pti
  have hmem : ∀ t : Nat, first < t → ∀ i, (running b.linkSelf list).mem t i = b.machine.mem t i :=
    fun t ht i => running_mem h.pml4t (by omega) i (Or.inl ht.ne')
  refine ⟨h.pml4t, h.pml4t, ?_, fun k hk => ?_, fun g hg => ?_, fun g hg i hpresent => ?_, by omega⟩
  · exact (running_mem h.pml4t hvideo _ (Or.inr (by decide))).trans h.top
  · rw [hmem _ (Nat.lt_succ_self _)]
    rcases (by omega : k = 0 ∨ k = 1) with rfl | rfl
    · exact h.pdpt
    · exact hfresh.second
  · have hdir : dirFrame first (g / 512) = first + 2 := by
      simp only [dirFrame]
      omega
    rw [hmem _ (by omega), hdir]
    split_ifs with hgr
    · rw [h.pdt g (by omega)]
      congr 2
      simp only [tableFrame]
      omega
    · -- the loop has not come to this entry
      refine hfresh.pdt _ ?_
      rw [hpdti, Fin.val_ofNat]
      omega
  · have hframe : tableFrame first g = first + 3 + g := by
      simp only [tableFrame]
      omega
    rw [hframe, hmem _ (by omega)] at hpresent ⊢
    by_cases hlaid : 512 * g + i < j
    · have hpage := h.pages (512 * g + i) hlaid
      have hslot : Fin.ofNat 512 (512 * g + i) = i := by
        refine Fin.ext ?_
        rw [Fin.val_ofNat]
        omega
      rw [hslot, show (512 * g + (i : Nat)) / 512 = g by omega] at hpage
      rw [hpage, frameOf_or _ (by decide), frameOf_pageWord (by omega)]
    · -- the last page table is empty from the last page on
      have hlastTable : g = r := by omega
      have hpt : c.pt = first + 3 + g := by rw [h.inPt, hlastTable]
      rw [← hpt, h.absent i (by omega)] at hpresent
      exact absurd rfl hpresent.ne_zero

/-- The invariant of `map_pagetables` holds when it begins; `n` pages are left. -/
theorem Laid.supplied {n : Nat} (h : Laid first spare r (turnsBelow (first + 4)) c b)
    (hfresh : Fresh first c b) (hbegun : 512 * r < turnsBelow (first + 4)) (hvideo : 0xb8 < first)
    (hlow : first + 1027 < 2 ^ 18) (hmany : 1025 ≤ r + n) (hlast : first + 4 + r + n ≤ 2 ^ 19)
    (hfree : list.freePages = (List.range n).map fun i => pageWord (first + 4 + r + i)) :
    Supplied first (r + 2 + n) 1 (r + 1) (running b.linkSelf list) := by
  have hturns : turnsBelow (first + 4) = first + 4 + (first + 4 + 511) / 512 := rfl
  have hindex := h.pti
  have hwithin := h.within
  have hring : (running b.linkSelf list).ring = fullRing list.freePages := rfl
  have hcount : (fullRing list.freePages).free = n := by
    change list.freePages.length = n
    rw [hfree, List.length_map, List.length_range]
  have hnext : first + 2 + 1 + (r + 1) = first + 4 + r := by omega
  refine ⟨h.entered hfresh hbegun (by omega) hvideo hlow, ⟨?_, fun p hp => ?_⟩, fun p hp => ?_,
    by omega, ?_, by omega⟩
  · rw [hring, hcount, hnext, ← hfree]
    exact List.take_length
  · rw [hring, fullRing, hfree] at hp
    rcases List.mem_map.1 hp with ⟨i, hi, rfl⟩
    exact lowPage_pageWord (by have := List.mem_range.1 hi; omega)
  · have hframe : tableFrame first (p / 512) = first + 3 + p / 512 := by
      simp only [tableFrame]
      omega
    rw [hframe, running_mem h.pml4t (by omega) _ (Or.inl (by omega)), h.pages p (by omega)]
    exact has_of_or_left (by decide) _
  · rw [hring, hcount]

/-! ## `start` -/

theorem pagesUpTo_pageWord (f n : Nat) :
    pagesUpTo (4096 * f) (4096 * (f + n)) = (List.range n).map fun i => pageWord (f + i) := by
  rw [pagesUpTo_eq (n := n) (by omega)]
  exact List.map_congr_left fun i _ => pageWord_add f i

theorem pageWord_inj {f f' : Nat} (hf : f < 2 ^ 52) (hf' : f' < 2 ^ 52)
    (h : pageWord f = pageWord f') : f = f' := by
  rw [← frameOf_pageWord hf, h, frameOf_pageWord hf']

/-- A relocated list of pages below 2 GiB is what the allocator's runs start from. -/
theorem afterInit {f n : Nat}
    (h : FreeList list nodes ((List.range n).map fun i => pageWord (f + i)))
    (hn : 0 < n) (hlow : f + n ≤ 2 ^ 19) :
    AfterInit nodes ((List.range n).map fun i => pageWord (f + i)) list where
  linked := h.linked
  nodup := h.linked.nodup
  nonempty := by
    rintro rfl
    have hlength := congrArg List.length h.carry
    rw [List.map_nil, List.length_nil, List.length_map, List.length_range] at hlength
    omega
  carry := h.carry
  distinct := by
    refine List.nodup_range.map_on fun i hi i' hi' heq => ?_
    have hi := List.mem_range.1 hi
    have hi' := List.mem_range.1 hi'
    have hsame := pageWord_inj (by omega) (by omega) heq
    omega
  low := by
    intro p hp
    rcases List.mem_map.1 hp with ⟨i, hi, rfl⟩
    have hi := List.mem_range.1 hi
    rw [pageWord_toNat (by omega), directMapLimit]
    omega
  last := h.last
  unalloc := h.unalloc
  count := h.count

/-- `start` from the top of the free memory to `map_pagetables`, on a boot list of `n` pages from
the frame `first` on. -/
theorem startKernel_spec (machine : Machine) {heap : NodeRef → FreeNode} {physfree physend : Word}
    {n : Nat} (hinit : initbump heap physfree physend = some list)
    (hlist : BootList list (pageWord first) nodes) (hpending : Pending list)
    (hlength : nodes.length = n) (hvideo : 0xb8 < first) (hroom : 1028 < n)
    (hlow : first + n ≤ 2 ^ 19) (hwindow : first + 1028 ≤ 2 ^ 18) :
    ∃ list' nodes' m, startKernel machine heap physfree physend = some (list', m) ∧
      AfterInit nodes' ((List.range (n - pagesTaken first)).map
        fun i => pageWord (first + pagesTaken first + i)) list' ∧
      Supplied first (n - 2) 2 1024 m := by
  have htaken : pagesTaken first = 4 + (turnsBelow (first + 4) - 1) / 512 := rfl
  have hturns : turnsBelow (first + 4) = first + 4 + (first + 4 + 511) / 512 := rfl
  have hone : numOfPages 4096 = 1 := by decide
  cases nodes with
  | nil => exact absurd hlength.symm (by simp; omega)
  | cons x rest =>
      rw [List.length_cons] at hlength
      rcases hlist.bumpInitial_cons hone with ⟨list₁, hbump, hlist₁⟩
      rw [pageWord_succ] at hlist₁
      have hpointer : pointerFrame (pageWord first + KERNBASE) = some first := by
        rw [(lowPage_pageWord (by omega)).pointerFrame, frameOf_pageWord (by omega)]
      let b₀ : Boot := ⟨{ machine with pml4t := first }.clear first, list₁⟩
      rcases mapAddressInitial_laid (show b₀.machine.pml4t = first from rfl)
        (fun i => clear_mem_self _ first i) (by omega) hlist₁ (hpending.bumpInitial hbump)
        (by omega) with ⟨b', r, c, hmap, hlaid, hbegun, hfresh⟩
      have hr : pagesTaken first = 4 + r := by
        have hindex := hlaid.pti
        have hwithin := hlaid.within
        omega
      have hstart : start machine heap physfree physend = some b'.linkSelf := by
        refine Option.bind_eq_some_iff.2 ⟨list, hinit, ?_⟩
        refine Option.bind_eq_some_iff.2 ⟨_, hbump, ?_⟩
        refine Option.bind_eq_some_iff.2 ⟨first, hpointer, ?_⟩
        exact Option.bind_eq_some_iff.2 ⟨b', hmap, rfl⟩
      -- what is left of the list becomes the list of the running kernel
      rcases hlaid.list with ⟨nodes', hlist', hspare⟩
      rcases hfresh.pending.closed hlist' with ⟨hclosed, hnodes⟩
      have hleft : nodes'.length = n - pagesTaken first := by omega
      rcases hlist'.initAfterPaging hclosed (List.ne_nil_of_length_pos (by omega)) hnodes with
        ⟨list', hafter, hfreeList⟩
      have hframe : first + 4 + r = first + pagesTaken first := by omega
      have hpages : ((List.range nodes'.length).map fun i =>
            pageWord (first + 4 + r) + BitVec.ofNat 64 (4096 * i)) =
          (List.range (n - pagesTaken first)).map
            fun i => pageWord (first + pagesTaken first + i) := by
        rw [hleft, hframe]
        exact List.map_congr_left fun i _ => pageWord_add _ i
      rw [hpages] at hfreeList
      have hinit' := afterInit hfreeList (by omega) (by omega)
      have hfree : list'.freePages = (List.range (n - pagesTaken first)).map
          fun i => pageWord (first + 4 + r + i) := by
        rw [hinit'.represents.freePages_eq, hframe]
        exact List.take_length
      have hsupplied := Laid.supplied hlaid hfresh hbegun hvideo (by omega) (by omega) (by omega)
        hfree
      rcases hsupplied.mapPagetables (by omega) with ⟨m, hmapped, hsupplied'⟩
      have htotal : r + 2 + (n - pagesTaken first) = n - 2 := by omega
      refine ⟨list', _, m, ?_, hinit', htotal ▸ hsupplied'⟩
      refine Option.bind_eq_some_iff.2 ⟨_, hstart, ?_⟩
      refine Option.bind_eq_some_iff.2 ⟨list', hafter _ le_rfl, ?_⟩
      exact Option.bind_eq_some_iff.2 ⟨m, hmapped, rfl⟩

/-- From whole pages below 2 GiB that leave room for the tables of the window, `start` builds the
map the kernel runs on: the list is the one its requests start from, every page in use is mapped to
itself, and every page behind the last table is still free. -/
theorem startKernel_establishes (machine : Machine) (heap : NodeRef → FreeNode)
    {physfree physend : Word} (hfree : physfree.toNat % 4096 = 0) (hend : physend.toNat % 4096 = 0)
    (hvideo : 0xb9000 ≤ physfree.toNat) (hlow : physend.toNat ≤ directMapLimit)
    (hroom : firstPage physfree physend + 4096 * 1028 < physend.toNat)
    (hwindow : firstPage physfree physend + 4096 * 1028 ≤ 2 ^ 30) :
    ∃ list nodes m, startKernel machine heap physfree physend = some (list, m) ∧
      AfterInit nodes (pagesUpTo (firstPage physfree physend +
        4096 * pagesTaken (firstPage physfree physend / 4096)) physend.toNat) list ∧
      AfterBoot m ∧
      m.ring.contents =
        pagesUpTo (firstPage physfree physend + 4096 * 1028) physend.toNat ∧
      ∀ p < firstPage physfree physend / 4096 + 1028, Mapped m (kernelWord p) := by
  let k := pagesBetween physfree physend
  let l := nodePages k
  have hk : k = (physend.toNat - physfree.toNat) / 4096 := rfl
  have hfirst : firstPage physfree physend = physfree.toNat + 4096 * l := rfl
  have hlk : l ≤ k := nodePages_le k
  have hfit : 16 * k ≤ 4096 * l := nodes_fit k
  have hlimit : physend.toNat ≤ 2 ^ 31 := hlow
  obtain ⟨first, hpage⟩ : ∃ first, firstPage physfree physend = 4096 * first :=
    ⟨firstPage physfree physend / 4096, by omega⟩
  rw [hpage] at hroom hwindow ⊢
  rw [Nat.mul_div_cancel_left _ (by decide)]
  rcases initbump_list heap physfree physend with ⟨s₀, hinit, hlist, hclosed⟩
  have hhead : physfree + BitVec.ofNat 64 (4096 * l) = pageWord first := by
    refine BitVec.eq_of_toNat_eq ?_
    rw [pageWord_toNat (by omega), BitVec.toNat_add, BitVec.toNat_ofNat]
    omega
  have hlength : (bootNodes physfree physend).length = k - l := by
    rw [bootNodes, List.length_drop, List.length_range']
  have hpending : Pending s₀ := by
    refine ⟨_, _, hlist, hclosed (by omega) (by omega), fun x hx => ?_⟩
    rcases List.mem_range'.1 (List.mem_of_mem_drop hx) with ⟨i, hi, rfl⟩
    have hnode : i < k := hi
    have haddress : physfree.toNat + 16 * i < 2 ^ 31 := by omega
    exact haddress
  change BootList s₀ (physfree + BitVec.ofNat 64 (4096 * l)) _ at hlist
  rw [hhead] at hlist
  rcases startKernel_spec machine hinit hlist hpending hlength (by omega) (by omega) (by omega)
    (by omega) with ⟨list, nodes, m, hrun, hafter, hsupplied⟩
  have hlast : physend.toNat = 4096 * (first + (k - l)) := by omega
  have htaken : pagesTaken first = 4 + (turnsBelow (first + 4) - 1) / 512 := rfl
  have hturns : turnsBelow (first + 4) = first + 4 + (first + 4 + 511) / 512 := rfl
  refine ⟨list, nodes, m, hrun, ?_, ⟨_, _, _, hsupplied.kernelMap (by omega)⟩, ?_,
    fun p hp => hsupplied.mapped_kernelWord (by omega) hp⟩
  · have hsplit : first + (k - l) = first + pagesTaken first + (k - l - pagesTaken first) := by
      omega
    rw [hlast, hsplit, ← Nat.mul_add, pagesUpTo_pageWord]
    exact hafter
  · have hcount := hsupplied.count
    have hsplit : first + (k - l) = first + 1028 + m.ring.free := by omega
    rw [hsupplied.pages.contents, hlast, hsplit, ← Nat.mul_add, pagesUpTo_pageWord]

/-- 128 MiB, the kernel below 2 MiB: the list begins behind five tables, and 1023 more are added. -/
theorem startKernel_establishes_128MiB : ∃ list nodes m,
    startKernel booted (fun _ => ⟨0, none⟩) 0x200000 0x8000000 = some (list, m) ∧
      AfterInit nodes (pagesUpTo 0x283000 0x8000000) list ∧ AfterBoot m ∧
      m.ring.contents = pagesUpTo 0x682000 0x8000000 ∧ ∀ p < 0x682, Mapped m (kernelWord p) := by
  have hfirst : firstPage 0x200000 0x8000000 = 0x27e000 := by decide
  have hlist : firstPage 0x200000 0x8000000 +
      4096 * pagesTaken (firstPage 0x200000 0x8000000 / 4096) = 0x283000 := by decide
  have hfree : firstPage 0x200000 0x8000000 + 4096 * 1028 = 0x682000 := by decide
  have hend : (0x8000000 : Word).toNat = 0x8000000 := by decide
  have h := @startKernel_establishes booted (fun _ => ⟨0, none⟩) 0x200000 0x8000000
    (by decide) (by decide) (by decide) (by decide) (by decide) (by decide)
  rw [hlist, hfree, hend, hfirst] at h
  exact h

end Boot

end Paging

end OswpKernel
