import OswpKernel.Allocator.Basic
import OswpKernel.Lib.SlotRing

/-!
# Allocator refinement — the free list is a ring of slots

`Represents s chain r` ties the pointer structure to a `SlotRing` of page addresses: the chain from
`headFree` visits `chain`, its nodes carry the slots of `r`, and the three global pointers stand
where the ring says.  Requests are `take`s, `kfree` is a `put`, and the one state the ring cannot
leave by a `put` is the exhausted one: there `headUnalloc` sits on the last node of the chain.
-/

namespace OswpKernel

namespace Allocator

open Chain

variable {s s' : Allocator} {chain : List NodeRef} {r : SlotRing Word}

/-- Where `head_unalloc` stands: on the last filled node, and on the last node of the chain when no
filled node is left. -/
def unallocPosition (chain : List NodeRef) (free : Nat) : Option NodeRef :=
  if free = 0 then chain.getLast? else chain[free - 1]?

/-- The chain `chain` of the allocator state `s` carries the ring `r`. -/
structure Represents (s : Allocator) (chain : List NodeRef) (r : SlotRing Word) : Prop where
  linked : Seg s.next s.headFree chain none
  nodup : chain.Nodup
  slots : chain.map (fun x => (s.node x).current) = r.slots
  count : s.numberOfFreePages = r.free
  last : s.headEnd = chain.getLast?
  unalloc : s.headUnalloc = unallocPosition chain r.free

theorem Represents.length_eq (h : Represents s chain r) : chain.length = r.slots.length := by
  rw [← h.slots, List.length_map]

theorem Represents.free_le (h : Represents s chain r) : r.free ≤ chain.length :=
  h.length_eq ▸ r.free_le

/-- Moving the head of a chain to its tail does not move the node `headUnalloc` stands on. -/
theorem unallocPosition_rotate {free : Nat} (hpos : 0 < free) (hle : free ≤ chain.length) :
    unallocPosition (chain.rotate 1) (free - 1) = unallocPosition chain free := by
  cases chain with
  | nil => simp at hle; omega
  | cons x xs =>
      obtain ⟨k, rfl⟩ : ∃ k, free = k + 1 := ⟨free - 1, by omega⟩
      cases k with
      | zero => simp [unallocPosition]
      | succ k =>
          have hk : k < xs.length := by
            simp only [List.length_cons] at hle
            omega
          simp [unallocPosition, List.getElem?_append_left hk]

/-! ## Requests -/

/-- The state after one turn of the loop, with head node `x` and last node `e`. -/
def moved (s : Allocator) (x e : NodeRef) : Allocator :=
  { (({ s with headFree := s.next x }.setNext e (some x)).setNext x none) with
    headEnd := some x
    numberOfFreePages := s.numberOfFreePages - 1 }

theorem moveHead_eq_moved {x e : NodeRef} (hx : s.headFree = some x) (he : s.headEnd = some e) :
    s.moveHead = some (s.moved x e) := by
  simp [Allocator.moveHead, hx, he, moved, setNext, next]

theorem moved_next_head (x e : NodeRef) : (s.moved x e).next x = none :=
  setNext_next_self _ x none

theorem moved_next_last {x e : NodeRef} (hxe : e ≠ x) : (s.moved x e).next e = some x :=
  (setNext_next_of_ne _ none hxe).trans (setNext_next_self _ e (some x))

theorem moved_next_of_ne {x e y : NodeRef} (hyx : y ≠ x) (hye : y ≠ e) :
    (s.moved x e).next y = s.next y :=
  (setNext_next_of_ne _ none hyx).trans (setNext_next_of_ne _ (some x) hye)

theorem moved_current (x e y : NodeRef) :
    ((s.moved x e).node y).current = (s.node y).current :=
  (setNext_current _ x y none).trans (setNext_current _ e y (some x))

/-- One turn of the loop moves the head node to the tail: the ring gives out its first slot. -/
theorem Represents.moveHead (h : Represents s chain r) (hlen : 2 ≤ chain.length)
    (hfree : 0 < r.free) :
    ∃ s', s.moveHead = some s' ∧ Represents s' (chain.rotate 1) (r.take 1) := by
  obtain ⟨x, xs, e, rfl⟩ : ∃ x xs e, chain = x :: (xs ++ [e]) := by
    cases chain with
    | nil => simp at hlen
    | cons x tail =>
        rcases List.eq_nil_or_concat tail with rfl | ⟨xs, e, rfl⟩
        · simp at hlen
        · exact ⟨x, xs, e, by simp⟩
  -- the head `x` becomes the last node, behind `e`
  obtain ⟨hhead, htail⟩ := h.linked
  have hlast : s.headEnd = some e := by
    rw [h.last, ← List.cons_append, List.getLast?_concat]
  obtain ⟨hx, hnd⟩ := List.nodup_cons.1 h.nodup
  have hxe : e ≠ x := fun hex => hx (by simp [hex])
  refine ⟨s.moved x e, moveHead_eq_moved hhead hlast,
    ⟨?linked, List.nodup_rotate.2 h.nodup, ?slots, ?count, ?last, ?unalloc⟩⟩
  case linked =>
    have hwalk : Seg (s.moved x e).next (s.next x) (xs ++ [e]) (some x) := by
      refine htail.redirect (moved_next_last hxe) fun y hy => moved_next_of_ne ?_ ?_
      · exact fun hyx => hx (by simp [← hyx, hy])
      · exact fun hye => (List.nodup_append.1 hnd).2.2 y hy e (by simp) hye
    change Seg (s.moved x e).next (s.next x) _ none
    simpa using seg_snoc.2 ⟨hwalk, moved_next_head x e⟩
  case slots =>
    rw [SlotRing.take_slots, ← h.slots, ← List.map_rotate]
    exact List.map_congr_left fun y _ => moved_current x e y
  case count =>
    change s.numberOfFreePages - 1 = r.free - 1
    rw [h.count]
  case last => simp [moved]
  case unalloc =>
    change s.headUnalloc = _
    rw [h.unalloc, SlotRing.take_free, unallocPosition_rotate hfree h.free_le]

/-- The loop over `n` pages gives out the first `n` slots of the ring. -/
theorem Represents.takePages {n : Nat} (h : Represents s chain r) (hlen : 2 ≤ chain.length)
    (hn : n ≤ r.free) :
    ∃ s', takePages n s = some s' ∧ Represents s' (chain.rotate n) (r.take n) := by
  induction n generalizing s chain r with
  | zero => exact ⟨s, rfl, by simpa [SlotRing.take_zero] using h⟩
  | succ n ih =>
      obtain ⟨s₁, hs₁, h₁⟩ := h.moveHead hlen (by omega)
      obtain ⟨s₂, hs₂, h₂⟩ := ih h₁ (by simpa using hlen) (by simp; omega)
      refine ⟨s₂, by simp [Allocator.takePages, hs₁, hs₂], ?_⟩
      rwa [List.rotate_rotate, SlotRing.take_take, Nat.add_comm] at h₂

/-- A request that fits returns the first page of the ring and takes its pages out. -/
theorem Represents.bumpFrom_fits (h : Represents s chain r) (base size : Word)
    (hlen : 2 ≤ chain.length) (hfit : numOfPages size ≤ r.free) :
    ∃ ret s', r.slots.head? = some ret ∧ s.bumpFrom base size = some (ret + base, s') ∧
      Represents s' (chain.rotate (numOfPages size)) (r.take (numOfPages size)) := by
  obtain ⟨s', hs', h'⟩ := h.takePages hlen hfit
  obtain ⟨x, xs, rfl⟩ := List.exists_cons_of_length_pos (show 0 < chain.length by omega)
  refine ⟨(s.node x).current, s', by simp [← h.slots], ?_, h'⟩
  have hcount : ¬ numOfPages size > s.numberOfFreePages := by rw [h.count]; omega
  simp [bumpFrom, hcount, h.linked.1, hs']

/-- A request that does not fit returns 0 and leaves the list as it is. -/
theorem Represents.bumpFrom_fails (h : Represents s chain r) (base : Word) {size : Word}
    (hfull : r.free < numOfPages size) : s.bumpFrom base size = some (0, s) := by
  have hcount : numOfPages size > s.numberOfFreePages := by rw [h.count]; omega
  simp [bumpFrom, hcount]

/-! ## `kfree` -/

/-- With at least one filled and one empty slot, `kfree` fills the first empty slot. -/
theorem Represents.kfree (h : Represents s chain r) (freed : Word) (hfree : 0 < r.free)
    (hroom : r.free < r.slots.length) :
    ∃ s', s.kfree freed = some s' ∧ Represents s' chain (r.put (physAddress freed) hroom) := by
  have hroom' : r.free < chain.length := h.length_eq ▸ hroom
  have hlast : s.headUnalloc = some chain[r.free - 1] := by
    rw [h.unalloc, unallocPosition, if_neg (by omega), List.getElem?_eq_getElem]
  -- `head_unalloc` is the last node with a page; the one behind it takes the new page
  have hslot : s.next chain[r.free - 1] = some chain[r.free] := by
    rw [h.linked.next_getElem, ← List.getElem?_eq_getElem]
    congr 1
    omega
  let t : Allocator :=
    { ({ s with headUnalloc := some chain[r.free] }.setCurrent chain[r.free]
        (physAddress freed)) with numberOfFreePages := s.numberOfFreePages + 1 }
  have hnext : ∀ y, t.next y = s.next y := fun y => setCurrent_next _ _ y _
  refine ⟨t, by simp [Allocator.kfree, hlast, hslot, t, setCurrent],
    ⟨h.linked.congr fun y _ => hnext y, h.nodup, ?slots, ?count, h.last, ?unalloc⟩⟩
  case slots =>
    apply List.ext_getElem
    · simp [h.length_eq]
    · intro i hi hi'
      have hi : i < chain.length := by simpa using hi
      have hir : i < r.slots.length := h.length_eq ▸ hi
      have hold : (s.node chain[i]).current = r.slots[i] := by simp [← h.slots]
      simp only [List.getElem_map, SlotRing.put_slots, List.getElem_set]
      by_cases heq : r.free = i
      · subst heq
        simpa [t] using setCurrent_current _ chain[r.free] chain[r.free] (physAddress freed)
      · have hne : chain[i] ≠ chain[r.free] := by
          intro hnode
          exact heq ((h.nodup.getElem_inj_iff).1 hnode).symm
        rw [if_neg heq, ← hold]
        exact (setCurrent_current _ chain[r.free] chain[i] (physAddress freed)).trans
          (if_neg hne)
  case count =>
    change s.numberOfFreePages + 1 = r.free + 1
    rw [h.count]
  case unalloc =>
    change some chain[r.free] = unallocPosition chain (r.free + 1)
    rw [unallocPosition, if_neg (Nat.succ_ne_zero _), Nat.add_sub_cancel,
      List.getElem?_eq_getElem hroom']

/-- From an exhausted list `kfree` runs into the null link of the last node. -/
theorem Represents.kfree_exhausted (h : Represents s chain r) (freed : Word)
    (hfree : r.free = 0) : s.kfree freed = none := by
  have hpos : s.headUnalloc = chain.getLast? := by
    rw [h.unalloc, unallocPosition, if_pos hfree]
  cases hlast : chain.getLast? with
  | none => simp [Allocator.kfree, hpos, hlast]
  | some e => simp [Allocator.kfree, hpos, hlast, h.linked.next_getLast hlast]

/-- With every slot filled, too, there is no node left to put a page into. -/
theorem Represents.kfree_full (h : Represents s chain r) (freed : Word)
    (hfull : r.free = r.slots.length) : s.kfree freed = none := by
  by_cases hfree : r.free = 0
  · exact h.kfree_exhausted freed hfree
  · have hlt : r.free - 1 < chain.length := by have := h.free_le; omega
    have hlast : s.headUnalloc = some chain[r.free - 1] := by
      rw [h.unalloc, unallocPosition, if_neg hfree, List.getElem?_eq_getElem hlt]
    have hslot : s.next chain[r.free - 1] = none := by
      rw [h.linked.next_getElem hlt, List.getElem?_eq_none]
      have := h.length_eq
      omega
    simp [Allocator.kfree, hlast, hslot]

end Allocator

end OswpKernel
