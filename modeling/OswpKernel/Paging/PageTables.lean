import OswpKernel.Allocator.Runs
import OswpKernel.Paging.Boot

/-!
# Page tables of the kernel window (`map_pagetables`)

`init_paging` builds as many page tables as the memory in use needs.  `map_pagetables` adds the
rest: one for every 2 MiB that the last two entries of the kernel's second-level table cover.  Each
new table takes the next free page, which has to be mapped before it can be zeroed; its own page
table is there because the tables are entered in address order.  Behind `start` no kernel address
needs a new table any more, which is what `KernelMap` assumes.
-/

namespace OswpKernel

namespace Paging

open Machine Allocator

/-! ## `map_pagetables` -/

/-- A page from `bump_physical`, mapped by `map_address` and zeroed. -/
def zeroedPage (m : Machine) : Option (Word × Frame × Machine) := do
  let (v, m) ← m.bumpFrom 0 .kernel 4096
  let m ← mapAddress (bump 4096) (v + KERNBASE) v m
  let next ← pointerFrame (v + KERNBASE)
  return (v, next, m.clear next)

/-- One turn of the loops over a page directory. -/
def enterTable (pdt : Frame) (i : Slot) (m : Machine) : Option Machine :=
  -- `pt == 0x0` looks at the whole entry, not at its present bit
  if m.mem pdt i = 0 then do
    let (v, _, m) ← zeroedPage m
    return m.write pdt i ((v &&& frameMask) ||| 3)
  else some m

def mapPagetables (m : Machine) : Option Machine := do
  let pdpt ← tableAt (m.mem m.pml4t 511)
  let pdt ← tableAt (m.mem pdpt 510)
  let m ← Loop.forEach (enterTable pdt) (List.finRange 512) m
  if m.mem pdpt 511 = 0 then do
    let (v, pdt, m) ← zeroedPage m
    let m := m.write pdpt 511 ((v &&& frameMask) ||| 3)
    Loop.forEach (enterTable pdt) (List.finRange 512) m
  else return m

variable {r : SlotRing Word} {m m' : Machine} {first total d n next : Nat}

/-! ## The free pages -/

/-- The free pages are the frames from `next` on. -/
structure Ascending (r : SlotRing Word) (next : Nat) : Prop where
  contents : r.contents = (List.range r.free).map fun i => pageWord (next + i)
  low : ∀ p ∈ r.slots, LowPage p

theorem Ascending.head (h : Ascending r next) (hfree : 0 < r.free) :
    r.slots.head? = some (pageWord next) := by
  rcases Nat.exists_eq_succ_of_ne_zero hfree.ne' with ⟨k, hk⟩
  have hhead : r.contents.head? = some (pageWord next) := by
    rw [h.contents, hk, Nat.succ_eq_add_one, List.range_succ_eq_map]
    rfl
  rwa [SlotRing.contents, List.head?_take, if_neg hfree.ne'] at hhead

theorem Ascending.take (h : Ascending r next) (hfree : 0 < r.free) :
    Ascending (r.take 1) (next + 1) where
  contents := by
    rw [r.contents_take hfree, h.contents, SlotRing.take_free, ← List.map_drop]
    rcases Nat.exists_eq_succ_of_ne_zero hfree.ne' with ⟨k, hk⟩
    rw [hk, Nat.succ_eq_add_one, List.range_succ_eq_map, List.drop_one, List.tail_cons,
      List.map_map]
    refine List.map_congr_left fun i _ => ?_
    rw [Function.comp_apply, Nat.succ_eq_add_one, Nat.add_assoc, Nat.add_comm 1]
  low := fun p hp => h.low p (List.mem_rotate.1 hp)

/-! ## The tables -/

/-- The frame of the directory behind the entry `510 + h`. -/
def dirFrame (first h : Nat) : Nat := first + 2 + 513 * h

/-- The frame of the page table for the `g`-th 2 MiB. -/
def tableFrame (first g : Nat) : Nat := first + 3 + g + g / 512

theorem tableFrame_inj {g g' : Nat} (h : tableFrame first g = tableFrame first g') : g = g' := by
  simp only [tableFrame] at h
  omega

/-- The top table is in the frame `first`, the second-level table behind it; `d` directories and `n`
page tables are entered, in the frames that follow, and the other entries are zero.  Each page
table maps the pages of its 2 MiB to themselves, as far as it maps them. -/
structure TablesLinked (first d n : Nat) (m : Machine) : Prop where
  pml4t : m.pml4t = first
  current : m.current = first
  top : m.mem first 511 = pageWord (first + 1) ||| 3
  dirs : ∀ h < 2, m.mem (first + 1) (Fin.ofNat 512 (510 + h)) =
    if h < d then pageWord (dirFrame first h) ||| 3 else 0
  tables : ∀ g < 512 * d, m.mem (dirFrame first (g / 512)) (Fin.ofNat 512 g) =
    if g < n then pageWord (tableFrame first g) ||| 3 else 0
  identity : ∀ g < n, ∀ i : Slot, Present (m.mem (tableFrame first g) i) →
    frameOf (m.mem (tableFrame first g) i) = 512 * g + i
  within : 512 * d ≤ n + 512 ∧ n ≤ 512 * d ∧ d ≤ 2

/-- A table the next page is mapped through is in place. -/
theorem TablesLinked.child (h : TablesLinked first d n m) (hlow : first + 1027 < 2 ^ 18)
    (hd : 0 < d) :
    m.child m.pml4t 511 = some (first + 1) ∧
      (∀ k < d, m.child (first + 1) (Fin.ofNat 512 (510 + k)) = some (dirFrame first k)) ∧
      ∀ g < n, m.child (dirFrame first (g / 512)) (Fin.ofNat 512 g) =
        some (tableFrame first g) := by
  have hwithin := h.within
  refine ⟨?_, fun k hk => ?_, fun g hg => ?_⟩
  · rw [h.pml4t]
    exact child_of_entry (by omega) h.top
  · have hentry := h.dirs k (by omega)
    rw [if_pos hk] at hentry
    refine child_of_entry ?_ hentry
    simp only [dirFrame]
    omega
  · have hentry := h.tables g (by omega)
    rw [if_pos hg] at hentry
    refine child_of_entry ?_ hentry
    simp only [tableFrame]
    omega

/-- What `zeroedPage` leaves: the page `next` is zero and mapped to itself, if it was not mapped
before, and nothing else has changed. -/
structure Zeroed (m m' : Machine) (pt next : Frame) : Prop where
  pml4t : m'.pml4t = m.pml4t
  current : m'.current = m.current
  ring : m'.ring = m.ring.take 1
  zero : ∀ i, m'.mem next i = 0
  mapped : Present (m'.mem pt (Fin.ofNat 512 next))
  other : ∀ t i, t ≠ next → m'.mem t i = m.mem t i ∨
    t = pt ∧ (i : Nat) = next % 512 ∧ m'.mem t i = pageWord next ||| 3

theorem TablesLinked.zeroedPage (h : TablesLinked first d n m) (hlow : first + 1027 < 2 ^ 18)
    (hd : 0 < d) (hpages : Ascending m.ring next) (hfree : 2 ≤ m.ring.free) (hnext : next < 512 * n)
    (hfresh : next = first + 2 + d + n) (hbelow : next < 2 ^ 18) :
    ∃ m', Paging.zeroedPage m = some (pageWord next, next, m') ∧
      Zeroed m m' (tableFrame first (next / 512)) next := by
  have hwithin := h.within
  let m₁ := m.takePages .kernel 1
  have hone : numOfPages 4096 = 1 := by decide
  have hhead := hpages.head (by omega)
  have hsum : pageWord next + 0 = pageWord next := BitVec.add_zero _
  have hbump : m.bumpFrom 0 .kernel 4096 = some (pageWord next, m₁) := by
    rw [Machine.bumpFrom, hone, if_neg (by omega), hhead, Option.bind_eq_bind, Option.bind_some,
      hsum]
    rfl
  have hhead₁ : m₁.ring.slots.head? = some (pageWord (next + 1)) :=
    (hpages.take (by omega)).head (by rw [SlotRing.take_free]; omega)
  -- the new page is mapped through the first directory, by a table that is already there
  rcases h.child hlow hd with ⟨hpdpt, hdirs, htables⟩
  have hwindow : 510 + next / 512 / 512 = 510 + 0 := by omega
  have hpdt := hdirs 0 hd
  have hpt := htables (next / 512) (by omega)
  rw [show next / 512 / 512 = 0 by omega] at hpt
  rw [← hwindow] at hpdt
  have hbounds : first + 1 < 2 ^ 19 ∧ dirFrame first 0 < 2 ^ 19 ∧
      tableFrame first (next / 512) < 2 ^ 19 := by
    refine ⟨by omega, ?_, ?_⟩
    · simp only [dirFrame]
      omega
    · simp only [tableFrame]
      omega
  obtain ⟨m₂, hmap, hfilled⟩ : ∃ m₂,
      mapAddress (bump 4096) (kernelWord next) (pageWord next) m₁ = some m₂ ∧
      Filled m₁ m₂ (tableFrame first (next / 512)) (next % 512) (next + 1 - next)
        (pageWord next) 3 :=
    mapAddress_inside (by omega) hpdpt hpdt hpt hbounds hhead₁ (by omega) (by omega)
  have hpointer : pointerFrame (pageWord next + KERNBASE) = some next := by
    rw [(lowPage_pageWord (by omega)).pointerFrame, frameOf_pageWord (by omega)]
  have hindex : next % 512 < 512 := by omega
  have hpresent := hfilled.present (d := 0) (by omega) hindex
  have hne : tableFrame first (next / 512) ≠ next := by
    simp only [tableFrame]
    omega
  refine ⟨m₂.clear next, ?_, hfilled.pml4t, hfilled.current, hfilled.ring,
    fun i => clear_mem_self m₂ next i, ?_, ?_⟩
  · rw [Paging.zeroedPage, hbump, Option.bind_eq_bind, Option.bind_some]
    refine Option.bind_eq_some_iff.2 ⟨m₂, hmap, ?_⟩
    exact Option.bind_eq_some_iff.2 ⟨next, hpointer, rfl⟩
  · rw [clear_mem_of_ne m₂ hne]
    exact hpresent
  · intro t i ht
    rw [congrFun (clear_mem_of_ne m₂ ht) i]
    rcases hfilled.kept_or_filled t i with hkept | ⟨k, hk, rfl, hi, hentry⟩
    · exact Or.inl hkept
    · have hk0 : k = 0 := by omega
      subst hk0
      refine Or.inr ⟨rfl, hi, ?_⟩
      rw [hentry, pageWord_add, Nat.add_zero]

/-- The tables stay as they are, and a page table that maps the new page maps it to itself. -/
theorem TablesLinked.zeroed (h : TablesLinked first d n m) (hfresh : next = first + 2 + d + n)
    (hbelow : next < 2 ^ 18) (hzeroed : Zeroed m m' (tableFrame first (next / 512)) next) :
    TablesLinked first d n m' := by
  have hwithin := h.within
  have hkeep : ∀ t i, t ≠ next → t ≠ tableFrame first (next / 512) → m'.mem t i = m.mem t i := by
    intro t i ht hpt
    rcases hzeroed.other t i ht with hsame | ⟨heq, -⟩
    · exact hsame
    · exact absurd heq hpt
  refine ⟨hzeroed.pml4t.trans h.pml4t, hzeroed.current.trans h.current, ?_, ?_, ?_, ?_, h.within⟩
  · rw [hkeep _ _ (by omega) (by simp only [tableFrame]; omega), h.top]
  · intro k hk
    rw [hkeep _ _ (by omega) (by simp only [tableFrame]; omega), h.dirs k hk]
  · intro g hg
    rw [hkeep _ _ (by simp only [dirFrame]; omega) (by simp only [dirFrame, tableFrame]; omega),
      h.tables g hg]
  · intro g hg i hpresent
    have hne : tableFrame first g ≠ next := by
      simp only [tableFrame]
      omega
    rcases hzeroed.other _ i hne with hsame | ⟨heq, hi, hentry⟩
    · rw [hsame] at hpresent ⊢
      exact h.identity g hg i hpresent
    · have hg' : g = next / 512 := tableFrame_inj heq
      rw [hentry, frameOf_or _ (by decide), frameOf_pageWord (by omega), hi, hg']
      omega

/-- The pages below `a` are mapped by the page tables of their 2 MiB. -/
def MappedBelow (first a : Nat) (m : Machine) : Prop :=
  ∀ p < a, Present (m.mem (tableFrame first (p / 512)) (Fin.ofNat 512 p))

theorem MappedBelow.zeroed (h : MappedBelow first next m) (hbelow : next < 2 ^ 18)
    (htables : ∀ g ≤ next / 512, tableFrame first g ≠ next)
    (hzeroed : Zeroed m m' (tableFrame first (next / 512)) next) :
    MappedBelow first (next + 1) m' := by
  intro p hp
  rcases Nat.lt_succ_iff_lt_or_eq.1 hp with hlt | rfl
  · have hne := htables (p / 512) (by omega)
    rcases hzeroed.other _ (Fin.ofNat 512 p) hne with hsame | ⟨-, -, hentry⟩
    · rw [hsame]
      exact h p hlt
    · rw [hentry]
      exact has_of_or_left (by decide) _
  · exact hzeroed.mapped

theorem MappedBelow.write {a t : Nat} {i : Slot} {e : Word} (h : MappedBelow first a m)
    (htables : ∀ p < a, tableFrame first (p / 512) ≠ t) : MappedBelow first a (m.write t i e) := by
  intro p hp
  rw [write_mem_of_ne m e (Or.inl (htables p hp))]
  exact h p hp

/-- What a new entry of a table is. -/
theorem entry_eq (hbelow : next < 2 ^ 18) :
    (pageWord next &&& frameMask) ||| 3 = pageWord next ||| 3 := by
  rw [(lowPage_pageWord (by omega)).aligned]

theorem pageWord_or_ne_zero (f : Nat) : pageWord f ||| 3 ≠ 0 :=
  Present.ne_zero (has_of_or_left (by decide) _)

/-- A further page table. -/
theorem TablesLinked.write_table (h : TablesLinked first d n m) (hn : n < 512 * d)
    (hnext : next = first + 2 + d + n) (hzero : ∀ i, m.mem next i = 0) :
    TablesLinked first d (n + 1) (m.write (dirFrame first (n / 512)) (Fin.ofNat 512 n)
      (pageWord next ||| 3)) := by
  have hwithin := h.within
  have hframe : tableFrame first n = next := by
    simp only [tableFrame]
    omega
  have hother : ∀ (t : Nat) (i : Slot), t ≠ dirFrame first (n / 512) ∨ i ≠ Fin.ofNat 512 n →
      (m.write (dirFrame first (n / 512)) (Fin.ofNat 512 n) (pageWord next ||| 3)).mem t i =
        m.mem t i := fun t i hne => write_mem_of_ne m _ hne
  refine ⟨h.pml4t, h.current, ?_, ?_, ?_, ?_, by omega⟩
  · rw [hother _ _ (Or.inl (by simp only [dirFrame]; omega)), h.top]
  · intro k hk
    rw [hother _ _ (Or.inl (by simp only [dirFrame]; omega)), h.dirs k hk]
  · intro g hg
    by_cases hgn : g = n
    · rw [hgn, if_pos (Nat.lt_succ_self n), write_mem_self, hframe]
    · have hne : dirFrame first (g / 512) ≠ dirFrame first (n / 512) ∨
          Fin.ofNat 512 g ≠ Fin.ofNat 512 n := by
        by_cases hdir : g / 512 = n / 512
        · refine Or.inr fun heq => hgn ?_
          have hmod : g % 512 = n % 512 := congrArg Fin.val heq
          omega
        · exact Or.inl (by simp only [dirFrame]; omega)
      rw [hother _ _ hne, h.tables g hg]
      exact if_congr (by omega) rfl rfl
  · intro g hg i hpresent
    have hdir : tableFrame first g ≠ dirFrame first (n / 512) := by
      simp only [tableFrame, dirFrame]
      omega
    rw [hother _ i (Or.inl hdir)] at hpresent ⊢
    by_cases hgn : g = n
    · -- the new table is empty
      rw [hgn, hframe, hzero i] at hpresent
      exact absurd rfl hpresent.ne_zero
    · exact h.identity g (by omega) i hpresent

/-- The second directory. -/
theorem TablesLinked.write_dir (h : TablesLinked first 1 512 m) (hnext : next = first + 515)
    (hzero : ∀ i, m.mem next i = 0) :
    TablesLinked first 2 512 (m.write (first + 1) 511 (pageWord next ||| 3)) := by
  have hframe : dirFrame first 1 = next := by
    simp only [dirFrame]
    omega
  have hother : ∀ (t : Nat) (i : Slot), t ≠ first + 1 ∨ i ≠ 511 →
      (m.write (first + 1) 511 (pageWord next ||| 3)).mem t i = m.mem t i :=
    fun t i hne => write_mem_of_ne m _ hne
  refine ⟨h.pml4t, h.current, ?_, ?_, ?_, ?_, by omega⟩
  · rw [hother _ _ (Or.inl (by omega)), h.top]
  · intro k hk
    rcases (by omega : k = 0 ∨ k = 1) with rfl | rfl
    · exact (hother _ _ (Or.inr (by decide))).trans (h.dirs 0 (by omega))
    · rw [if_pos (by omega), hframe]
      exact write_mem_self m _ _ _
  · intro g hg
    rw [hother _ _ (Or.inl (by simp only [dirFrame]; omega))]
    by_cases hlow : g < 512
    · exact h.tables g (by omega)
    · -- the entries of the new directory
      rw [if_neg hlow, show g / 512 = 1 by omega, hframe, hzero]
  · intro g hg i hpresent
    rw [hother _ i (Or.inl (by simp only [tableFrame]; omega))] at hpresent ⊢
    exact h.identity g hg i hpresent

/-! ## The loops -/

/-- What the loops keep: `n` tables are entered, and the free pages follow them; every page taken
has become a table. -/
structure Supplied (first total d n : Nat) (m : Machine) : Prop where
  entered : TablesLinked first d n m
  pages : Ascending m.ring (first + 2 + d + n)
  mapped : MappedBelow first (first + 2 + d + n) m
  covered : first + 2 + d + n < 512 * n
  count : n + d + m.ring.free = total
  enough : 1027 ≤ total

/-- A new page, as both kinds of tables use it. -/
theorem Supplied.zeroedPage (h : Supplied first total d n m) (hlow : first + 1027 < 2 ^ 18)
    (hd : 0 < d) (hn : n + d ≤ 1025) :
    ∃ m', Paging.zeroedPage m =
        some (pageWord (first + 2 + d + n), first + 2 + d + n, m') ∧ TablesLinked first d n m' ∧
      Ascending m'.ring (first + 2 + d + n + 1) ∧
      MappedBelow first (first + 2 + d + n + 1) m' ∧ m'.ring.free = m.ring.free - 1 ∧
      ∀ i, m'.mem (first + 2 + d + n) i = 0 := by
  have henough := h.enough
  have hcount := h.count
  have hcovered := h.covered
  have hwithin := h.entered.within
  rcases h.entered.zeroedPage hlow hd h.pages (by omega) h.covered rfl (by omega) with
    ⟨m', hcall, hzeroed⟩
  refine ⟨m', hcall, h.entered.zeroed rfl (by omega) hzeroed, ?_, ?_, ?_, hzeroed.zero⟩
  · rw [hzeroed.ring]
    exact h.pages.take (by omega)
  · refine h.mapped.zeroed (by omega) (fun g hg => ?_) hzeroed
    simp only [tableFrame]
    omega
  · rw [hzeroed.ring, SlotRing.take_free]

/-- A turn for an entry that is zero. -/
theorem Supplied.enterTable (h : Supplied first total d n m) (hlow : first + 1027 < 2 ^ 18)
    (hd : 0 < d) (hn : n < 512 * d) :
    ∃ m', enterTable (dirFrame first (n / 512)) (Fin.ofNat 512 n) m = some m' ∧
      Supplied first total d (n + 1) m' := by
  have hwithin := h.entered.within
  have henough := h.enough
  have hcount := h.count
  have hcovered := h.covered
  rcases h.zeroedPage hlow hd (by omega) with ⟨m₁, hcall, hentered, hpages, hmapped, hfree, hzero⟩
  have hentry : m.mem (dirFrame first (n / 512)) (Fin.ofNat 512 n) = 0 := by
    rw [h.entered.tables n hn, if_neg (lt_irrefl n)]
  refine ⟨_, ?_, hentered.write_table hn rfl hzero, hpages, hmapped.write fun p hp => ?_, by omega,
    ?_, henough⟩
  · rw [Paging.enterTable, if_pos hentry, hcall, Option.bind_eq_bind, Option.bind_some,
      ← entry_eq (show first + 2 + d + n < 2 ^ 18 by omega)]
    rfl
  · simp only [tableFrame, dirFrame]
    omega
  · rw [write_ring, hfree]
    omega

/-- A turn of the loop over the directory `d`, which passes over the entries that are there. -/
theorem Supplied.turn (h : Supplied first total d n m) (hlow : first + 1027 < 2 ^ 18) (hd : 0 < d)
    {i : Slot} (hi : 512 * (d - 1) + i ≤ n) :
    ∃ m', Paging.enterTable (dirFrame first (d - 1)) i m = some m' ∧
      ∃ n', Supplied first total d n' m' ∧ 512 * (d - 1) + i + 1 ≤ n' := by
  have hwithin := h.entered.within
  have hindex : Fin.ofNat 512 (512 * (d - 1) + i) = i := by
    refine Fin.ext ?_
    rw [Fin.val_ofNat]
    omega
  rcases Nat.eq_or_lt_of_le hi with heq | hlt
  · rcases h.enterTable hlow hd (by omega) with ⟨m', hturn, h'⟩
    rw [← heq, hindex, show (512 * (d - 1) + (i : Nat)) / 512 = d - 1 by omega] at hturn
    exact ⟨m', hturn, _, h', by omega⟩
  · have hentry := h.entered.tables (512 * (d - 1) + i) (by omega)
    rw [hindex, if_pos hlt, show (512 * (d - 1) + (i : Nat)) / 512 = d - 1 by omega] at hentry
    refine ⟨m, ?_, n, h, hlt⟩
    rw [Paging.enterTable, if_neg]
    rw [hentry]
    exact pageWord_or_ne_zero _

/-- The loop over a directory leaves all its tables entered. -/
theorem Supplied.loop (h : Supplied first total d n m) (hlow : first + 1027 < 2 ^ 18) (hd : 0 < d) :
    ∃ m',
      Loop.forEach (Paging.enterTable (dirFrame first (d - 1))) (List.finRange 512) m = some m' ∧
      Supplied first total d (512 * d) m' := by
  have hwithin := h.entered.within
  have hloop : ∃ m',
      Loop.forEach (Paging.enterTable (dirFrame first (d - 1))) (List.finRange 512) m = some m' ∧
      ∃ n', Supplied first total d n' m' ∧ 512 * (d - 1) + (List.finRange 512).length ≤ n' :=
    Loop.forEach_progress_total
      (I := fun done m => ∃ n', Supplied first total d n' m ∧ 512 * (d - 1) + done.length ≤ n')
      (fun {done i rest s} hxs ⟨n', hn', hdone⟩ => ?_) ⟨n, h, by simp; omega⟩
  · rcases hloop with ⟨m', hrun, n', h', hall⟩
    rw [List.length_finRange] at hall
    have hwithin' := h'.entered.within
    rw [show n' = 512 * d by omega] at h'
    exact ⟨m', hrun, h'⟩
  · -- the entry a turn is for is the number of the turns before it
    have hi : (i : Nat) = done.length := by
      have hget : (List.finRange 512)[done.length]? = some i := by
        rw [hxs, List.getElem?_append_right le_rfl, Nat.sub_self]
        rfl
      rcases List.getElem?_eq_some_iff.1 hget with ⟨hlt, heq⟩
      rw [← heq, List.getElem_finRange]
      rfl
    rw [← hi] at hdone
    rcases hn'.turn hlow hd hdone with ⟨s', hturn, n'', h'', hle⟩
    refine ⟨s', hturn, n'', h'', ?_⟩
    rw [List.length_append, List.length_singleton, ← hi]
    omega

/-- `map_pagetables` from the tables of `init_paging`. -/
theorem Supplied.mapPagetables (h : Supplied first total 1 n m) (hlow : first + 1027 < 2 ^ 18) :
    ∃ m', Paging.mapPagetables m = some m' ∧ Supplied first total 2 1024 m' := by
  have hpdpt : tableAt (m.mem m.pml4t 511) = some (first + 1) := by
    rw [h.entered.pml4t, h.entered.top, tableAt_of_low] <;> rw [frameOf_or _ (by decide),
      frameOf_pageWord (by omega)]
    omega
  have hpdt : tableAt (m.mem (first + 1) 510) = some (dirFrame first 0) := by
    have hdir : m.mem (first + 1) 510 = pageWord (dirFrame first 0) ||| 3 :=
      h.entered.dirs 0 (by omega)
    have hbound : dirFrame first 0 < 2 ^ 19 := by
      simp only [dirFrame]
      omega
    rw [hdir, tableAt_of_low] <;> rw [frameOf_or _ (by decide), frameOf_pageWord (by omega)]
    exact hbound
  rcases h.loop hlow (by omega) with ⟨m₁, hfirst, h₁⟩
  -- the entry for the second directory is still zero
  have hempty : m₁.mem (first + 1) 511 = 0 := h₁.entered.dirs 1 (by omega)
  rcases h₁.zeroedPage hlow (by omega) (by omega) with
    ⟨m₂, hpage, hentered, hpages, hmapped, hfree, hzero⟩
  have hnext : first + 2 + 1 + 512 * 1 = first + 515 := by omega
  rw [hnext] at hpage hpages hmapped hzero
  have h₂ : Supplied first total 2 512
      (m₂.write (first + 1) 511 (pageWord (first + 515) ||| 3)) := by
    have hcount := h₁.count
    have henough := h₁.enough
    refine ⟨hentered.write_dir rfl hzero, hpages, hmapped.write fun p hp => ?_, by omega, ?_,
      henough⟩
    · simp only [tableFrame]
      omega
    · rw [write_ring, hfree]
      omega
  rcases h₂.loop hlow (by omega) with ⟨m', hsecond, h'⟩
  refine ⟨m', ?_, h'⟩
  refine Option.bind_eq_some_iff.2 ⟨first + 1, hpdpt, ?_⟩
  refine Option.bind_eq_some_iff.2 ⟨_, hpdt, Option.bind_eq_some_iff.2 ⟨m₁, hfirst, ?_⟩⟩
  rw [if_pos hempty]
  refine Option.bind_eq_some_iff.2 ⟨_, hpage, ?_⟩
  rw [← entry_eq (by omega)] at hsecond
  exact hsecond

/-- With all tables entered, every address of the window has its page table. -/
theorem Supplied.kernelMap (h : Supplied first total 2 1024 m) (hlow : first + 1027 < 2 ^ 18) :
    KernelMap m (first + 1) (fun k => dirFrame first (k % 2))
      fun g => tableFrame first (g % 1024) := by
  rcases h.entered.child hlow (by omega) with ⟨hpdpt, hdirs, htables⟩
  have hmod : ∀ g < 1024, g % 1024 = g := fun g hg => Nat.mod_eq_of_lt hg
  refine ⟨⟨hpdpt, ?_, fun k hk => ?_, fun g hg => ?_, ⟨by omega, fun k => ?_, fun g => ?_⟩,
    fun g hg g' hg' heq => ?_, fun g hg => ?_⟩, fun f hf f' hchild => ?_, h.pages.low⟩
  · rw [h.entered.pml4t, h.entered.current]
  · rw [Nat.mod_eq_of_lt hk]
    exact hdirs k hk
  · rw [hmod g hg, show g / 512 % 2 = g / 512 by omega]
    exact htables g hg
  · simp only [dirFrame]
    omega
  · simp only [tableFrame]
    omega
  · rw [hmod g hg, hmod g' hg'] at heq
    exact tableFrame_inj heq
  · simp only [hmod g hg, h.entered.pml4t, h.entered.current, tableFrame, dirFrame]
    omega
  · rw [hmod _ (by omega)] at hchild
    rcases child_eq_some.1 hchild with ⟨hpresent, hframe⟩
    rw [← hframe, h.entered.identity _ (by omega) _ hpresent, Fin.val_ofNat]
    omega

/-- Every page handed out so far is mapped. -/
theorem Supplied.mapped_kernelWord (h : Supplied first total 2 1024 m)
    (hlow : first + 1027 < 2 ^ 18) {p : Nat} (hp : p < first + 1028) :
    Mapped m (kernelWord p) := by
  rw [(h.kernelMap hlow).mapped_iff (by omega), Nat.mod_eq_of_lt (by omega)]
  have hpresent := h.mapped p (by omega)
  have hindex : 512 * (p / 512) + ((Fin.ofNat 512 p : Slot) : Nat) = p := by
    rw [Fin.val_ofNat]
    omega
  exact child_eq_some.2 ⟨hpresent,
    (h.entered.identity _ (by omega) _ hpresent).trans hindex⟩

end Paging

end OswpKernel
