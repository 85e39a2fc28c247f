import OswpKernel.Allocator.Refinement
import OswpKernel.Lib.Execution

/-!
# Allocator runs — the invariant of the free list over whole runs

A run starts after `init_after_paging` and interleaves requests and `kfree` calls in any order.
Next to the allocator a run keeps the list `taken` of the pages that are currently handed out; it
is bookkeeping, nothing the allocator reads.

* `freeList_invariant`: the shape of the list in every state reached while a page stays free.
* `kfree_after_exhaustion`: once the last page is gone, `kfree` dereferences NULL.
-/

namespace OswpKernel

namespace Allocator

open Chain Execution

/-! ## Events -/

/-- The routines that hand pages out. -/
inductive Routine
  | bump
  | bumpInitial
  | bumpUser
  | bumpPhysical
  deriving DecidableEq, Repr

namespace Routine

/-- The window a routine returns its address in. -/
def base : Routine → Word
  | bump => KERNBASE
  | bumpInitial => KERNBASE
  | bumpUser => USERBASE
  | bumpPhysical => 0

/-- The pages a routine takes off the list.  The page tables that `map_address` takes behind
those of `bump` are requests of their own in a run. -/
def run : Routine → Word → Allocator → Option (Word × Allocator)
  | bump, size, s => s.bumpList size
  | bumpInitial, size, s => s.bumpInitial size
  | bumpUser, size, s => s.bumpUser size
  | bumpPhysical, size, s => s.bumpPhysical size

theorem run_eq_bumpFrom (k : Routine) (size : Word) (s : Allocator) :
    k.run size s = s.bumpFrom k.base size := by
  cases k <;> rfl

end Routine

inductive Event
  | request (routine : Routine) (size : Word)
  | kfree (freed : Word)
  deriving DecidableEq, Repr

/-- An allocator together with the pages that are handed out at the moment. -/
structure Tracked where
  alloc : Allocator
  taken : List Word

/-- The pages carried by the first `n` nodes of the list. -/
def frontPages (n : Nat) (s : Allocator) : List Word :=
  (follow s.next n s.headFree).map fun x => (s.node x).current

/-- The pages that are free: those carried by the first `number_of_free_pages` nodes. -/
def freePages (s : Allocator) : List Word := frontPages s.numberOfFreePages s

/-- The pages a request removes from the list: none if it does not fit. -/
def removedPages (size : Word) (s : Allocator) : List Word :=
  if numOfPages size ≤ s.numberOfFreePages then frontPages (numOfPages size) s else []

def Tracked.exec (t : Tracked) : Event → Option Tracked
  | .request k size => do
      let (_, s) ← k.run size t.alloc
      return { alloc := s, taken := t.taken ++ removedPages size t.alloc }
  | .kfree freed => do
      let s ← t.alloc.kfree freed
      return { alloc := s, taken := t.taken.erase (physAddress freed) }

/-- A page is given back under its physical, kernel or user address. -/
def AddressOf (page freed : Word) : Prop :=
  freed = page ∨ freed = page + KERNBASE ∨ freed = page + USERBASE

/-- Requests ask for at least one page; `kfree` is given a page that is handed out. -/
def Sane (t : Tracked) : Event → Prop
  | .request _ size => 0 < numOfPages size
  | .kfree freed => ∃ page ∈ t.taken, AddressOf page freed

/-- A sane event that does not hand out the last free page. -/
def LeavesOne (t : Tracked) (e : Event) : Prop :=
  Sane t e ∧
    match e with
    | .request _ size => numOfPages size ≠ t.alloc.numberOfFreePages
    | .kfree _ => True

instance (page freed : Word) : Decidable (AddressOf page freed) :=
  inferInstanceAs (Decidable (_ ∨ _))

instance (t : Tracked) (e : Event) : Decidable (Sane t e) :=
  match e with
  | .request _ size => inferInstanceAs (Decidable (0 < numOfPages size))
  | .kfree freed => List.decidableBEx (fun page => AddressOf page freed) t.taken

instance (t : Tracked) (e : Event) : Decidable (LeavesOne t e) :=
  match e with
  | .request _ size =>
      inferInstanceAs (Decidable (_ ∧ numOfPages size ≠ t.alloc.numberOfFreePages))
  | .kfree _ => inferInstanceAs (Decidable (_ ∧ True))

/-- The state after `init_after_paging`: the nodes `nodes` carry the pages `pages`, all of them
free, and both tail pointers stand on the last node. -/
structure AfterInit (nodes : List NodeRef) (pages : List Word) (s : Allocator) : Prop where
  linked : Seg s.next s.headFree nodes none
  nodup : nodes.Nodup
  nonempty : nodes ≠ []
  carry : nodes.map (fun x => (s.node x).current) = pages
  distinct : pages.Nodup
  low : ∀ p ∈ pages, p.toNat < directMapLimit
  last : s.headEnd = nodes.getLast?
  unalloc : s.headUnalloc = nodes.getLast?
  count : s.numberOfFreePages = nodes.length

/-! ## The invariant -/

theorem physAddress_of_addressOf {page freed : Word} (hlow : page.toNat < directMapLimit)
    (h : AddressOf page freed) : physAddress freed = page := by
  rcases h with rfl | rfl | rfl
  · exact physAddress_low hlow
  · exact physAddress_KERNBASE hlow
  · exact physAddress_USERBASE hlow

theorem Represents.frontPages_eq {s : Allocator} {chain : List NodeRef} {r : SlotRing Word}
    (h : Represents s chain r) (n : Nat) : frontPages n s = r.slots.take n := by
  rw [frontPages, h.linked.follow_take, List.map_take, h.slots]

theorem Represents.freePages_eq {s : Allocator} {chain : List NodeRef} {r : SlotRing Word}
    (h : Represents s chain r) : s.freePages = r.contents := by
  rw [freePages, h.frontPages_eq, h.count]
  rfl

theorem Represents.removedPages_eq {s : Allocator} {chain : List NodeRef} {r : SlotRing Word}
    {size : Word} (h : Represents s chain r) (hfit : numOfPages size ≤ r.free) :
    removedPages size s = r.contents.take (numOfPages size) := by
  rw [removedPages, h.count, if_pos hfit, h.frontPages_eq, SlotRing.contents, List.take_take,
    Nat.min_eq_left hfit]

theorem Represents.removedPages_eq_nil {s : Allocator} {chain : List NodeRef} {r : SlotRing Word}
    {size : Word} (h : Represents s chain r) (hfull : r.free < numOfPages size) :
    removedPages size s = [] := by
  rw [removedPages, h.count, if_neg (by omega)]

/-- The ring of a state right after initialisation. -/
def fullRing (pages : List Word) : SlotRing Word where
  slots := pages
  free := pages.length
  free_le := le_rfl

theorem AfterInit.length_eq {nodes : List NodeRef} {pages : List Word} {s : Allocator}
    (h : AfterInit nodes pages s) : nodes.length = pages.length := by
  rw [← h.carry, List.length_map]

theorem AfterInit.represents {nodes : List NodeRef} {pages : List Word} {s : Allocator}
    (h : AfterInit nodes pages s) : Represents s nodes (fullRing pages) where
  linked := h.linked
  nodup := h.nodup
  slots := h.carry
  count := by rw [h.count, h.length_eq]; rfl
  last := h.last
  unalloc := by
    have hpos : nodes.length ≠ 0 := by simpa using h.nonempty
    change s.headUnalloc = unallocPosition nodes pages.length
    rw [h.unalloc, ← h.length_eq, unallocPosition, if_neg hpos, List.getLast?_eq_getElem?]

/-- The state of a run: the list carries a ring over the `nodes`, and the free and the taken pages
together are exactly the `pages`. -/
structure Invariant (nodes : List NodeRef) (pages : List Word) (t : Tracked)
    (chain : List NodeRef) (r : SlotRing Word) : Prop where
  represents : Represents t.alloc chain r
  permNodes : chain.Perm nodes
  permPages : (r.contents ++ t.taken).Perm pages
  size : nodes.length = pages.length

theorem AfterInit.invariant {nodes : List NodeRef} {pages : List Word} {s : Allocator}
    (h : AfterInit nodes pages s) : Invariant nodes pages ⟨s, []⟩ nodes (fullRing pages) where
  represents := h.represents
  permNodes := List.Perm.refl _
  permPages := by simp [SlotRing.contents, fullRing]
  size := h.length_eq

section Step

variable {nodes : List NodeRef} {pages : List Word} {t t' : Tracked} {chain : List NodeRef}
  {r : SlotRing Word} {e : Event}

theorem Invariant.slots_length (h : Invariant nodes pages t chain r) :
    r.slots.length = pages.length := by
  rw [← h.represents.length_eq, h.permNodes.length_eq, h.size]

/-- A request that fits moves the front pages over to the taken ones. -/
theorem Invariant.request_fits (h : Invariant nodes pages t chain r) (k : Routine) (size : Word)
    (hlen : 2 ≤ chain.length)
    (hfit : numOfPages size ≤ r.free) :
    ∃ t' chain', t.exec (.request k size) = some t' ∧
      Invariant nodes pages t' chain' (r.take (numOfPages size)) := by
  rcases h.represents.bumpFrom_fits k.base size hlen hfit with ⟨ret, s', -, hs', h'⟩
  refine ⟨⟨s', t.taken ++ removedPages size t.alloc⟩, _, ?_,
    ⟨h', (List.rotate_perm _ _).trans h.permNodes, ?_, h.size⟩⟩
  · simp [Tracked.exec, Routine.run_eq_bumpFrom, hs']
  · have hsplit := r.contents_eq_take_append hfit
    calc
      ((r.take (numOfPages size)).contents ++ (t.taken ++ removedPages size t.alloc)).Perm
          (removedPages size t.alloc ++ ((r.take (numOfPages size)).contents ++ t.taken)) := by
            rw [← List.append_assoc]
            exact List.perm_append_comm
      _ = r.contents ++ t.taken := by
            rw [h.represents.removedPages_eq hfit, ← List.append_assoc, ← hsplit]
      List.Perm _ pages := h.permPages

/-- A request that does not fit changes nothing. -/
theorem Invariant.request_fails {k : Routine} {size : Word}
    (h : Invariant nodes pages t chain r) (hfull : r.free < numOfPages size) :
    t.exec (.request k size) = some t := by
  simp [Tracked.exec, Routine.run_eq_bumpFrom, h.represents.bumpFrom_fails k.base hfull,
    h.represents.removedPages_eq_nil hfull]

/-- While a page is free, `kfree` takes back any page that is handed out. -/
theorem Invariant.kfree {page freed : Word} (hlow : ∀ p ∈ pages, p.toNat < directMapLimit)
    (h : Invariant nodes pages t chain r) (hfree : 0 < r.free) (hpage : page ∈ t.taken)
    (haddr : AddressOf page freed) :
    ∃ t' r', t.exec (.kfree freed) = some t' ∧ Invariant nodes pages t' chain r' ∧
      0 < r'.free := by
  have hmem : page ∈ pages := (h.permPages.mem_iff).1 (by simp [hpage])
  have hphys : physAddress freed = page := physAddress_of_addressOf (hlow page hmem) haddr
  have hroom : r.free < r.slots.length := by
    have hcount : r.free + t.taken.length = pages.length := by
      simpa using h.permPages.length_eq
    have hsome := List.length_pos_of_mem hpage
    have := h.slots_length
    omega
  rcases h.represents.kfree freed hfree hroom with ⟨s', hs', h'⟩
  refine ⟨⟨s', t.taken.erase (physAddress freed)⟩, _, by simp [Tracked.exec, hs'],
    ⟨h', h.permNodes, ?_, h.size⟩, by simp⟩
  rw [SlotRing.contents_put, hphys, List.append_assoc]
  exact ((List.perm_cons_erase hpage).symm.append_left _).trans h.permPages

/-- What one sane event does to the invariant.  A `kfree` needs a free page. -/
theorem Invariant.exec (hlow : ∀ p ∈ pages, p.toNat < directMapLimit)
    (h : Invariant nodes pages t chain r) (hsane : Sane t e)
    (hlen : 2 ≤ chain.length ∨ LeavesOne t e) (hok : 0 < r.free ∨ ∃ k size, e = .request k size) :
    ∃ t' chain' r', t.exec e = some t' ∧ Invariant nodes pages t' chain' r' := by
  cases e with
  | request k size =>
      by_cases hfit : numOfPages size ≤ r.free
      · have hlen' : 2 ≤ chain.length := by
          rcases hlen with hlen | hlen
          · exact hlen
          · -- a request that fits and leaves a page needs at least two nodes
            have hne : numOfPages size ≠ t.alloc.numberOfFreePages := hlen.2
            rw [h.represents.count] at hne
            have hone : 0 < numOfPages size := hsane
            have := h.represents.free_le
            omega
        rcases h.request_fits k size hlen' hfit with ⟨t', chain', ht', h'⟩
        exact ⟨t', chain', _, ht', h'⟩
      · exact ⟨t, chain, r, h.request_fails (by omega), h⟩
  | kfree freed =>
      rcases hsane with ⟨page, hpage, haddr⟩
      have hfree : 0 < r.free := by
        rcases hok with hfree | ⟨k, size, heq⟩
        · exact hfree
        · cases heq
      rcases h.kfree hlow hfree hpage haddr with ⟨t', r', ht', h', -⟩
      exact ⟨t', chain, r', ht', h'⟩

/-- An event that was carried out keeps the invariant. -/
theorem Invariant.step (hlow : ∀ p ∈ pages, p.toNat < directMapLimit)
    (h : Invariant nodes pages t chain r) (hsane : Sane t e)
    (hlen : 2 ≤ chain.length ∨ LeavesOne t e) (hstep : t.exec e = some t') :
    ∃ chain' r', Invariant nodes pages t' chain' r' := by
  have hok : 0 < r.free ∨ ∃ k size, e = .request k size := by
    cases e with
    | request k size => exact Or.inr ⟨k, size, rfl⟩
    | kfree freed =>
        rcases Nat.eq_zero_or_pos r.free with hzero | hpos
        · simp [Tracked.exec, h.represents.kfree_exhausted freed hzero] at hstep
        · exact Or.inl hpos
  rcases h.exec hlow hsane hlen hok with ⟨t'', chain', r', ht'', h'⟩
  rw [hstep] at ht''
  cases ht''
  exact ⟨chain', r', h'⟩

end Step

/-! ## While a page stays free -/

/-- The free list of a run's state, spelled out on the pointers. -/
structure FreeListShape (nodes : List NodeRef) (pages : List Word) (t : Tracked)
    (chain : List NodeRef) : Prop where
  /-- The chain from `head_free` is NULL-terminated and ends at `head_end`. -/
  linked : Seg t.alloc.next t.alloc.headFree chain none
  headEnd : t.alloc.headEnd = chain.getLast?
  /-- It contains each of the nodes exactly once. -/
  nodup : chain.Nodup
  nodes : chain.Perm nodes
  /-- At least one page is free, and `head_unalloc` is node number `number_of_free_pages`. -/
  free_pos : 0 < t.alloc.numberOfFreePages
  free_le : t.alloc.numberOfFreePages ≤ chain.length
  headUnalloc : t.alloc.headUnalloc = chain[t.alloc.numberOfFreePages - 1]?
  /-- The first nodes carry exactly the pages not currently taken, each once. -/
  carried : t.alloc.freePages =
    (chain.take t.alloc.numberOfFreePages).map fun x => (t.alloc.node x).current
  free_nodup : t.alloc.freePages.Nodup
  free_iff : ∀ p, p ∈ t.alloc.freePages ↔ p ∈ pages ∧ p ∉ t.taken
  /-- No page is lost and none is handed out twice. -/
  taken_nodup : t.taken.Nodup
  taken_sub : ∀ p ∈ t.taken, p ∈ pages
  fresh : ∀ size, ∀ p ∈ removedPages size t.alloc, p ∈ pages ∧ p ∉ t.taken
  /-- A request that does not fit returns 0 and leaves the list unchanged. -/
  refused : ∀ (k : Routine) (size : Word), t.alloc.numberOfFreePages < numOfPages size →
    k.run size t.alloc = some (0, t.alloc)
  /-- No routine is stuck: every allowed call returns. -/
  progress : ∀ e, LeavesOne t e → (t.exec e).isSome

theorem Invariant.shape {nodes : List NodeRef} {pages : List Word} {t : Tracked}
    {chain : List NodeRef} {r : SlotRing Word} (hlow : ∀ p ∈ pages, p.toNat < directMapLimit)
    (hdistinct : pages.Nodup) (h : Invariant nodes pages t chain r) (hfree : 0 < r.free) :
    FreeListShape nodes pages t chain := by
  have hrep := h.represents
  -- the free pages and those handed out are together the pages of the start, each once
  have hsplit : (r.contents ++ t.taken).Nodup := h.permPages.nodup_iff.2 hdistinct
  have hmem : ∀ p, p ∈ r.contents ∨ p ∈ t.taken ↔ p ∈ pages := by
    intro p
    rw [← List.mem_append]
    exact h.permPages.mem_iff
  have hfresh : ∀ p ∈ r.contents, p ∈ pages ∧ p ∉ t.taken := by
    intro p hp
    exact ⟨(hmem p).1 (Or.inl hp), fun hp' => (List.nodup_append.1 hsplit).2.2 p hp p hp' rfl⟩
  refine
    { linked := hrep.linked
      headEnd := hrep.last
      nodup := hrep.nodup
      nodes := h.permNodes
      free_pos := by rwa [hrep.count]
      free_le := by rw [hrep.count]; exact hrep.free_le
      headUnalloc := ?_
      carried := ?_
      free_nodup := ?_
      free_iff := ?_
      taken_nodup := (List.nodup_append.1 hsplit).2.1
      taken_sub := fun p hp => (hmem p).1 (Or.inr hp)
      fresh := ?_
      refused := ?_
      progress := ?_ }
  · rw [hrep.unalloc, hrep.count, unallocPosition, if_neg (by omega)]
  · rw [hrep.freePages_eq, SlotRing.contents, ← hrep.slots, ← List.map_take, hrep.count]
  · rw [hrep.freePages_eq]
    exact (List.nodup_append.1 hsplit).1
  · intro p
    rw [hrep.freePages_eq]
    constructor
    · exact hfresh p
    · rintro ⟨hp, hnot⟩
      exact ((hmem p).2 hp).resolve_right hnot
  · intro size p hp
    by_cases hfit : numOfPages size ≤ r.free
    · rw [hrep.removedPages_eq hfit] at hp
      exact hfresh p (List.mem_of_mem_take hp)
    · rw [hrep.removedPages_eq_nil (by omega)] at hp
      cases hp
  · intro k size hfull
    rw [k.run_eq_bumpFrom]
    exact hrep.bumpFrom_fails k.base (hrep.count ▸ hfull)
  · intro e he
    rcases h.exec hlow he.1 (Or.inr he) (Or.inl hfree) with ⟨t', -, -, ht', -⟩
    simp [ht']

section Runs

variable {nodes : List NodeRef} {pages : List Word} {s₀ : Allocator} {es : List Event}
  {t : Tracked}

/-- Along a run that always leaves a page the invariant holds and a page is free. -/
theorem run_leavesOne_invariant (hinit : AfterInit nodes pages s₀)
    (hrun : Run Tracked.exec LeavesOne ⟨s₀, []⟩ es t) :
    ∃ chain r, Invariant nodes pages t chain r ∧ 0 < r.free := by
  induction hrun with
  | nil =>
      refine ⟨nodes, fullRing pages, hinit.invariant, ?_⟩
      change 0 < pages.length
      rw [← hinit.length_eq]
      exact List.length_pos_of_ne_nil hinit.nonempty
  | @snoc es t t' e _ hallowed hstep ih =>
      rcases ih with ⟨chain, r, h, hfree⟩
      cases e with
      | request k size =>
          -- the guard leaves a page, so a request that fits is for fewer pages than are free
          have hne : numOfPages size ≠ r.free := by
            have := hallowed.2
            rwa [h.represents.count] at this
          by_cases hfit : numOfPages size ≤ r.free
          · have hlen : 2 ≤ chain.length := by
              have hone : 0 < numOfPages size := hallowed.1
              have := h.represents.free_le
              omega
            rcases h.request_fits k size hlen hfit with ⟨t'', chain', ht'', h'⟩
            rw [hstep] at ht''
            cases ht''
            exact ⟨chain', _, h', by simp; omega⟩
          · rw [h.request_fails (by omega)] at hstep
            cases hstep
            exact ⟨chain, r, h, hfree⟩
      | kfree freed =>
          rcases hallowed.1 with ⟨page, hpage, haddr⟩
          rcases h.kfree hinit.low hfree hpage haddr with ⟨t'', r', ht'', h', hfree'⟩
          rw [hstep] at ht''
          cases ht''
          exact ⟨chain, r', h', hfree'⟩

/-- The free list in every state reached by a run that always leaves a page free. -/
theorem freeList_invariant (hinit : AfterInit nodes pages s₀)
    (hrun : Run Tracked.exec LeavesOne ⟨s₀, []⟩ es t) :
    ∃ chain, FreeListShape nodes pages t chain := by
  rcases run_leavesOne_invariant hinit hrun with ⟨chain, r, h, hfree⟩
  exact ⟨chain, h.shape hinit.low hinit.distinct hfree⟩

end Runs

/-! ## After the last page is gone -/

/-- What a recovery from exhaustion would be: `kfree` completes, the first usable node carries the
page, and the next one-page request returns it. -/
def Recovers (s : Allocator) (page freed : Word) : Prop :=
  ∃ s', s.kfree freed = some s' ∧ s'.getUnallocated = some page ∧
    ∃ s'', s'.bumpPhysical 4096 = some (page, s'')

section Exhaustion

variable {nodes : List NodeRef} {pages : List Word} {s₀ : Allocator} {es : List Event}
  {t : Tracked}

theorem run_sane_invariant (hinit : AfterInit nodes pages s₀) (htwo : 2 ≤ nodes.length)
    (hrun : Run Tracked.exec Sane ⟨s₀, []⟩ es t) :
    ∃ chain r, Invariant nodes pages t chain r := by
  induction hrun with
  | nil => exact ⟨nodes, fullRing pages, hinit.invariant⟩
  | snoc _ hallowed hstep ih =>
      rcases ih with ⟨chain, r, h⟩
      exact h.step hinit.low hallowed (Or.inl (by rw [h.permNodes.length_eq]; exact htwo)) hstep

/-- In every state in which a run has taken the last page, `kfree` dereferences NULL. -/
theorem kfree_after_exhaustion (hinit : AfterInit nodes pages s₀) (htwo : 2 ≤ nodes.length)
    (hrun : Run Tracked.exec Sane ⟨s₀, []⟩ es t) (hnone : t.alloc.numberOfFreePages = 0)
    (page freed : Word) :
    t.alloc.kfree freed = none ∧ ¬ Recovers t.alloc page freed := by
  rcases run_sane_invariant hinit htwo hrun with ⟨chain, r, h⟩
  have hzero : r.free = 0 := h.represents.count ▸ hnone
  have hfails := h.represents.kfree_exhausted freed hzero
  refine ⟨hfails, ?_⟩
  rintro ⟨s', hs', -⟩
  rw [hfails] at hs'
  cases hs'

end Exhaustion

/-! ## A list of three pages -/

/-- Three nodes at 16, 32 and 48 that carry the pages from 4096 on, right after
`init_after_paging`. -/
def threePages : Allocator where
  node := fun x =>
    if x = 16 then ⟨0x1000, some 32⟩
    else if x = 32 then ⟨0x2000, some 48⟩
    else ⟨0x3000, none⟩
  headFree := some 16
  headEnd := some 48
  headUnalloc := some 48
  numberOfFreePages := 3

theorem threePages_afterInit :
    AfterInit [16, 32, 48] [0x1000, 0x2000, 0x3000] threePages where
  linked := by simp [threePages, next]
  nodup := by decide
  nonempty := by decide
  carry := by simp [threePages]
  distinct := by decide
  low := by simp [directMapLimit]
  last := rfl
  unalloc := rfl
  count := rfl

/-- The invariant on a run that takes a page, gives it back under its user address and takes two
pages at once. -/
theorem freeList_invariant_threePages :
    ∃ t chain, Run Tracked.exec LeavesOne ⟨threePages, []⟩
        [.request .bumpUser 4096, .kfree (0x1000 + USERBASE), .request .bumpPhysical 8192] t ∧
      FreeListShape [16, 32, 48] [0x1000, 0x2000, 0x3000] t chain := by
  have hsome : (replay Tracked.exec LeavesOne
      [.request .bumpUser 4096, .kfree (0x1000 + USERBASE), .request .bumpPhysical 8192]
      ⟨threePages, []⟩).isSome := by decide +kernel
  rcases Option.isSome_iff_exists.1 hsome with ⟨t, ht⟩
  have hrun := run_of_replay ht
  rcases freeList_invariant threePages_afterInit hrun with ⟨chain, hshape⟩
  exact ⟨t, chain, hrun, hshape⟩

/-- A run that takes all three pages at once. -/
theorem threePages_exhausted :
    ∃ t, Run Tracked.exec Sane ⟨threePages, []⟩ [.request .bumpPhysical 12288] t ∧
      t.alloc.numberOfFreePages = 0 ∧ 0x1000 ∈ t.taken := by
  have hinv := threePages_afterInit.invariant
  rcases hinv.request_fits .bumpPhysical 12288 (by decide) (by decide) with
    ⟨t, chain, hstep, h⟩
  have hfree : ((fullRing [0x1000, 0x2000, 0x3000]).take (numOfPages 12288)).free = 0 := by
    decide
  refine ⟨t, Run.cons (by decide) hstep Run.nil, by rw [h.represents.count, hfree], ?_⟩
  -- nothing is free any more, so every page is among the taken ones
  have hmem : (0x1000 : Word) ∈ _ ++ t.taken := (h.permPages.mem_iff).2 (by decide)
  rcases List.mem_append.1 hmem with hfront | htaken
  · have hnone := List.length_pos_of_mem hfront
    rw [SlotRing.length_contents, hfree] at hnone
    exact absurd hnone (Nat.lt_irrefl 0)
  · exact htaken

/-- The allocator does not recover: the run that takes the three pages at once leaves a state in
which giving the first of them back fails. -/
theorem not_recovers_threePages :
    ¬ ∀ (nodes : List NodeRef) (pages : List Word) (s₀ : Allocator) (es : List Event)
        (t : Tracked) (page freed : Word), AfterInit nodes pages s₀ → 2 ≤ nodes.length →
        Run Tracked.exec Sane ⟨s₀, []⟩ es t → t.alloc.numberOfFreePages = 0 →
        page ∈ t.taken → AddressOf page freed → Recovers t.alloc page freed := by
  intro hclaim
  rcases threePages_exhausted with ⟨t, hrun, hnone, htaken⟩
  have hrec : Recovers t.alloc 0x1000 0x1000 :=
    hclaim _ _ threePages _ t 0x1000 0x1000 threePages_afterInit (by decide) hrun hnone htaken
      (Or.inl rfl)
  rcases run_sane_invariant threePages_afterInit (by decide) hrun with ⟨chain, r, h⟩
  rcases hrec with ⟨s', hs', -⟩
  rw [h.represents.kfree_exhausted 0x1000 (h.represents.count ▸ hnone)] at hs'
  cases hs'

/-- The NULL dereference on the run that takes the three pages at once. -/
theorem kfree_after_exhaustion_threePages :
    ∃ t : Tracked, 0x1000 ∈ t.taken ∧ t.alloc.kfree 0x1000 = none ∧
      ¬ Recovers t.alloc 0x1000 0x1000 := by
  rcases threePages_exhausted with ⟨t, hrun, hnone, htaken⟩
  exact ⟨t, htaken,
    kfree_after_exhaustion threePages_afterInit (by decide) hrun hnone 0x1000 0x1000⟩

end Allocator

end OswpKernel
