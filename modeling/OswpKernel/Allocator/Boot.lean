import OswpKernel.Allocator.Refinement
import Mathlib.Tactic.Linarith
import Mathlib.Tactic.Ring

/-!
# Allocator boot — the free list before `init_after_paging` (`sys/allocator.c`)

`initbump` builds the list nodes at `physfree`, 16 bytes for each page from there on, and takes the
pages that hold the nodes off the list.  Until `init_after_paging` closes the list, `head_end` is
still 0: the first request writes through it and links its node behind the memory at address 0,
which the boot loader maps, and the nodes taken after that follow.  So a request takes the head off
the list and nothing comes back to its end (`BootList`).
-/

namespace OswpKernel

namespace Allocator

open Chain

/-! ## `initbump` -/

/-- The loop over the pages `i` and the nodes `j`; only the node of the page `lastPage` gets a null
link. -/
def initNodes (lastPage : Word) :
    Nat → Word → NodeRef → (NodeRef → FreeNode) → NodeRef → FreeNode
  | 0, _, _, node => node
  | k + 1, i, j, node =>
      let link := if i ≠ lastPage then some (j + 16) else none
      initNodes lastPage k (i + 4096) (j + 16)
        (Function.update node j { current := i, next := link })

/-- `k`: the turns of `for (i = physfree; i <= physend - 4096; i += 4096)`. -/
def pagesBetween (physfree physend : Word) : Nat := (physend.toNat - physfree.toNat) / 4096

/-- `l`: the pages that `k` nodes take up. -/
def nodePages (k : Nat) : Nat :=
  let l := k * 16 / 4096
  if l * 4096 < k * 16 then l + 1 else l

/-- The loop `while (l != 0)`. -/
def skipNodes : Nat → Allocator → Option Allocator
  | 0, s => some s
  | l + 1, s => do
      let head ← s.headFree
      skipNodes l { s with headFree := s.next head }

/-- `initbump`, with `heap` in memory before it. -/
def initbump (heap : NodeRef → FreeNode) (physfree physend : Word) : Option Allocator :=
  let k := pagesBetween physfree physend
  let l := nodePages k
  skipNodes l
    { node := initNodes (physend - 4096) k physfree physfree.toNat heap
      headFree := some physfree.toNat
      -- not set before `init_after_paging`
      headEnd := some 0
      headUnalloc := some 0
      numberOfFreePages := k - l }

/-! ## The list it builds -/

/-- The nodes carry the pages from `page` on, in address order. -/
def Carries (node : NodeRef → FreeNode) : Word → List NodeRef → Prop
  | _, [] => True
  | page, x :: xs => (node x).current = page ∧ Carries node (page + 4096) xs

/-- The list from `head_free` on visits `nodes`, which carry the pages from `page` on; the nodes
already taken are linked elsewhere. -/
structure BootList (s : Allocator) (page : Word) (nodes : List NodeRef) : Prop where
  linked : ∃ stop, Seg s.next s.headFree nodes stop
  nodup : nodes.Nodup
  carry : Carries s.node page nodes
  count : s.numberOfFreePages = nodes.length
  apart : ∃ last, s.headEnd = some last ∧ last ∉ nodes

variable {s : Allocator} {page : Word} {nodes : List NodeRef} {heap : NodeRef → FreeNode}

theorem Carries.congr {node node' : NodeRef → FreeNode} (h : Carries node page nodes)
    (hagree : ∀ x ∈ nodes, (node' x).current = (node x).current) : Carries node' page nodes := by
  induction nodes generalizing page with
  | nil => trivial
  | cons x xs ih =>
      rcases h with ⟨hx, hxs⟩
      refine ⟨(hagree x List.mem_cons_self).trans hx, ?_⟩
      exact ih hxs fun y hy => hagree y (List.mem_cons_of_mem x hy)

theorem initNodes_of_lt {lastPage i : Word} {k j x : Nat} (hx : x < j) :
    initNodes lastPage k i j heap x = heap x := by
  induction k generalizing i j heap with
  | zero => rfl
  | succ k ih =>
      rw [initNodes, ih (Nat.lt_add_right 16 hx)]
      exact Function.update_of_ne hx.ne _ _

theorem toNat_add_page {i : Word} (h : i.toNat + 4096 < 2 ^ 64) :
    (i + 4096).toNat = i.toNat + 4096 := by
  have hpage : (4096 : Word).toNat = 4096 := by decide
  rw [BitVec.toNat_add, hpage]
  exact Nat.mod_eq_of_lt h

theorem initNodes_head (heap : NodeRef → FreeNode) (lastPage i : Word) (k j : Nat) :
    initNodes lastPage (k + 1) i j heap j =
      { current := i, next := if i ≠ lastPage then some (j + 16) else none } := by
  rw [initNodes, initNodes_of_lt (by omega)]
  exact Function.update_self _ _ _

/-- The nodes behind `j` are linked and carry their pages, as long as the last page comes last; the
list is closed when they reach up to that page. -/
theorem initNodes_spec {lastPage i : Word} {k j : Nat} (heap : NodeRef → FreeNode)
    (hlast : i.toNat + 4096 * k ≤ lastPage.toNat + 4096) :
    (∃ stop, Seg (fun x => (initNodes lastPage k i j heap x).next) (some j) (List.range' j k 16)
      stop ∧ (0 < k → i.toNat + 4096 * k = lastPage.toNat + 4096 → stop = none)) ∧
      Carries (initNodes lastPage k i j heap) i (List.range' j k 16) := by
  induction k generalizing i j heap with
  | zero => exact ⟨⟨_, rfl, fun h => absurd h (Nat.lt_irrefl 0)⟩, trivial⟩
  | succ k ih =>
      have hnode := initNodes_head heap lastPage i k j
      rw [List.range'_succ]
      cases k with
      | zero =>
          refine ⟨⟨_, ⟨rfl, rfl⟩, fun _ heq => ?_⟩, ?_, trivial⟩
          · have hi : i = lastPage := BitVec.eq_of_toNat_eq (by omega)
            change (initNodes lastPage 1 i j heap j).next = none
            rw [hnode, if_neg (not_not.2 hi)]
          · rw [hnode]
      | succ k =>
          have hstep : i.toNat + 4096 + 4096 * (k + 1) = i.toNat + 4096 * (k + 1 + 1) := by ring
          -- before the last page `i` has not reached `lastPage`, so the node gets a successor
          have hlt : i.toNat < lastPage.toNat := by linarith
          have hi : (i + 4096).toNat = i.toNat + 4096 := by
            refine toNat_add_page ?_
            have hfit := lastPage.isLt
            linarith
          have hne : i ≠ lastPage := fun heq => hlt.ne (congrArg BitVec.toNat heq)
          have hlast' : (i + 4096).toNat + 4096 * (k + 1) ≤ lastPage.toNat + 4096 := by
            rw [hi, hstep]
            exact hlast
          rcases ih (j := j + 16) (Function.update heap j _) hlast' with
            ⟨⟨stop, hseg, hclosed⟩, hcarry⟩
          refine ⟨⟨stop, ⟨rfl, ?_⟩, fun _ heq => hclosed (Nat.succ_pos k) ?_⟩, ?_, hcarry⟩
          · change Seg _ (initNodes lastPage (k + 2) i j heap j).next _ stop
            rw [hnode, if_pos hne]
            exact hseg
          · rw [hi, hstep]
            exact heq
          · rw [hnode]

theorem nodePages_le (k : Nat) : nodePages k ≤ k := by
  simp only [nodePages]
  split_ifs <;> omega

/-- Skipping `l` nodes of a list. -/
theorem skipNodes_spec {l : Nat} {stop : Option NodeRef}
    (hlinked : Seg s.next s.headFree nodes stop) (hl : l ≤ nodes.length)
    (hcarry : Carries s.node page nodes) :
    ∃ head page', skipNodes l s = some { s with headFree := head } ∧
      Seg s.next head (nodes.drop l) stop ∧ Carries s.node page' (nodes.drop l) ∧
      page' = page + BitVec.ofNat 64 (4096 * l) := by
  induction l generalizing s page nodes with
  | zero => exact ⟨s.headFree, page, rfl, hlinked, hcarry, by simp⟩
  | succ l ih =>
      cases nodes with
      | nil => simp at hl
      | cons x xs =>
          rcases hlinked with ⟨hhead, hxs⟩
          have hrest : Seg (next { s with headFree := s.next x }) (s.next x) xs stop := hxs
          rcases ih hrest (by simpa using hl) hcarry.2 with ⟨head, page', hskip, hseg, hcar, hpage⟩
          refine ⟨head, page', ?_, hseg, hcar, ?_⟩
          · rw [skipNodes, hhead]
            exact hskip
          · rw [hpage, BitVec.add_assoc, show (4096 : Word) = BitVec.ofNat 64 4096 from rfl,
              ← BitVec.ofNat_add, Nat.mul_succ, Nat.add_comm]

/-- The nodes that `initbump` builds, the ones that hold nodes apart. -/
def bootNodes (physfree physend : Word) : List NodeRef :=
  (List.range' physfree.toNat (pagesBetween physfree physend) 16).drop
    (nodePages (pagesBetween physfree physend))

/-- `initbump` leaves a list in address order; it is closed when the memory ends at a page. -/
theorem initbump_list (heap : NodeRef → FreeNode) (physfree physend : Word) :
    ∃ s, initbump heap physfree physend = some s ∧
      BootList s (physfree + BitVec.ofNat 64 (4096 * nodePages (pagesBetween physfree physend)))
        (bootNodes physfree physend) ∧
      (0 < pagesBetween physfree physend → (physend.toNat - physfree.toNat) % 4096 = 0 →
        Seg s.next s.headFree (bootNodes physfree physend) none) := by
  let k := pagesBetween physfree physend
  let l := nodePages k
  have hle : l ≤ k := nodePages_le k
  let s₀ : Allocator :=
    { node := initNodes (physend - 4096) k physfree physfree.toNat heap
      headFree := some physfree.toNat
      headEnd := some 0
      headUnalloc := some 0
      numberOfFreePages := k - l }
  have hstart : initbump heap physfree physend = skipNodes l s₀ := rfl
  rcases Nat.eq_zero_or_pos k with hk | hpos
  · -- no page: the list is empty
    have hl : l = 0 := by omega
    have hnodes : bootNodes physfree physend = [] := by
      change (List.range' physfree.toNat k 16).drop l = []
      rw [hk, List.range'_zero, List.drop_nil]
    rw [hstart, hl, hnodes]
    refine ⟨s₀, rfl, ⟨⟨_, rfl⟩, List.nodup_nil, trivial, ?_, 0, rfl, List.not_mem_nil⟩, ?_⟩
    · change k - l = 0
      omega
    · exact fun hlt => absurd hk (Nat.ne_of_gt hlt)
  · have hbetween : k = (physend.toNat - physfree.toNat) / 4096 := rfl
    have hlast : (physend - 4096).toNat = physend.toNat - 4096 := by
      -- the last node describes the page that ends at `physend`, so the addresses do not wrap
      have hfit := physend.isLt
      rw [BitVec.toNat_sub, show (4096 : Word).toNat = 4096 by decide]
      omega
    have hfit : physfree.toNat + 4096 * k ≤ (physend - 4096).toNat + 4096 := by omega
    rcases initNodes_spec (j := physfree.toNat) heap hfit with ⟨⟨stop, hseg, hclosed⟩, hcarry⟩
    have hseg₀ : Seg s₀.next s₀.headFree (List.range' physfree.toNat k 16) stop := hseg
    rcases skipNodes_spec hseg₀ (by simpa using hle) hcarry with
      ⟨head, page, hskip, hdrop, hcar, hpage⟩
    rw [hstart, hskip]
    refine ⟨_, rfl, ⟨⟨stop, hdrop⟩, ?_, ?_, ?_, 0, rfl, ?_⟩, fun _ hend => ?_⟩
    · exact (List.drop_sublist _ _).nodup (List.nodup_range' 16 (by decide))
    · rw [← hpage]
      exact hcar
    · rw [bootNodes, List.length_drop, List.length_range']
    · -- the nodes at `physfree` itself hold the list and are skipped
      have hskipped : 0 < l := by
        simp only [l, nodePages]
        split_ifs <;> omega
      intro hmem
      rw [bootNodes, List.drop_range'] at hmem
      rcases List.mem_range'.1 hmem with ⟨i, -, hi⟩
      have hl : nodePages (pagesBetween physfree physend) = l := rfl
      omega
    · rw [← hclosed hpos (by omega)]
      exact hdrop

theorem initbump_bootList {physfree physend : Word} (h : initbump heap physfree physend = some s) :
    ∃ nodes, BootList s
      (physfree + BitVec.ofNat 64 (4096 * nodePages (pagesBetween physfree physend))) nodes := by
  rcases initbump_list heap physfree physend with ⟨s', hs', hlist, -⟩
  rcases Option.some_inj.1 (h.symm.trans hs') with rfl
  exact ⟨_, hlist⟩

/-! ## Requests -/

/-- Taking the head node off; a closed list stays closed. -/
theorem BootList.moveHead {x : NodeRef} {rest : List NodeRef} (h : BootList s page (x :: rest)) :
    ∃ s', s.moveHead = some s' ∧ BootList s' (page + 4096) rest ∧
      (Seg s.next s.headFree (x :: rest) none → Seg s'.next s'.headFree rest none) := by
  rcases h with ⟨⟨stop, hhead, hseg⟩, hnodup, ⟨-, hcarry⟩, hcount, last, hend, hlast⟩
  rcases List.nodup_cons.1 hnodup with ⟨hx, hrest⟩
  -- both stores go to nodes outside the rest of the list
  have hkept : ∀ {stop}, Seg s.next (s.next x) rest stop →
      Seg (s.moved x last).next (s.next x) rest stop := by
    intro stop hseg
    refine hseg.congr fun y hy => moved_next_of_ne ?_ ?_
    · exact fun hyx => hx (hyx ▸ hy)
    · exact fun hylast => hlast (List.mem_cons_of_mem x (hylast ▸ hy))
  refine ⟨s.moved x last, moveHead_eq_moved hhead hend,
    ⟨⟨stop, hkept hseg⟩, hrest, ?_, ?_, x, rfl, hx⟩, fun hclosed => hkept hclosed.2⟩
  · exact hcarry.congr fun y _ => moved_current x last y
  · change s.numberOfFreePages - 1 = rest.length
    rw [hcount]
    rfl

/-- A request for one page gets the next page in address order. -/
theorem BootList.bumpInitial_moveHead {x : NodeRef} {rest : List NodeRef} {size : Word}
    {s' : Allocator} (h : BootList s page (x :: rest)) (hone : numOfPages size = 1)
    (hmove : s.moveHead = some s') : s.bumpInitial size = some (page + KERNBASE, s') := by
  rcases h.linked with ⟨stop, hhead, -⟩
  have hfit : ¬ 1 > s.numberOfFreePages := by
    rw [h.count]
    simp
  have htake : takePages 1 s = some s' := by
    rw [takePages, hmove]
    rfl
  rw [bumpInitial, bumpFrom, hone, if_neg hfit, hhead, ← h.carry.1]
  exact Option.bind_eq_some_iff.2 ⟨x, rfl, Option.bind_eq_some_iff.2 ⟨s', htake, rfl⟩⟩

theorem BootList.bumpInitial_cons {x : NodeRef} {rest : List NodeRef} {size : Word}
    (h : BootList s page (x :: rest)) (hone : numOfPages size = 1) :
    ∃ s', s.bumpInitial size = some (page + KERNBASE, s') ∧ BootList s' (page + 4096) rest := by
  rcases h.moveHead with ⟨s', hmove, h', -⟩
  exact ⟨s', h.bumpInitial_moveHead hone hmove, h'⟩

/-- With no page left a request gets 0. -/
theorem BootList.bumpInitial_nil {size : Word} (h : BootList s page [])
    (hone : numOfPages size = 1) : s.bumpInitial size = some (0, s) := by
  have hfull : 1 > s.numberOfFreePages := by
    rw [h.count]
    decide
  rw [bumpInitial, bumpFrom, hone, if_pos hfull]

theorem BootList.getUnallocated_cons {x : NodeRef} {rest : List NodeRef}
    (h : BootList s page (x :: rest)) : s.getUnallocated = some page := by
  rcases h.linked with ⟨stop, hhead, -⟩
  rw [getUnallocated, hhead, ← h.carry.1]
  rfl

end Allocator

end OswpKernel
