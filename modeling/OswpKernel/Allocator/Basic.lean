import OswpKernel.Base
import OswpKernel.Lib.Chain
import Mathlib.Logic.Function.Basic

/-!
# Allocator — the physical page allocator (`sys/allocator.c`)

The list nodes live in a heap `node`; a node is named by its address.  One chain, starting at
`headFree`, carries first the nodes of the free pages and then the recycled, empty nodes;
`headUnalloc` is the last node that carries a free page, `headEnd` the last node of the chain.

A routine returns `none` where the source dereferences NULL.  `unmap_page`, which `kfree` also
calls, and `map_address`, which `bump` also calls, work on page tables and are left to `Paging`.
-/

namespace OswpKernel

/-- The address of a `struct free_list`. -/
abbrev NodeRef := Nat

/-- `struct free_list`. -/
structure FreeNode where
  current : Word
  next : Option NodeRef
  deriving DecidableEq, Repr

structure Allocator where
  node : NodeRef → FreeNode
  headFree : Option NodeRef
  headEnd : Option NodeRef
  headUnalloc : Option NodeRef
  numberOfFreePages : Nat

namespace Allocator

variable (s : Allocator)

/-- The link map of the node heap. -/
def next (x : NodeRef) : Option NodeRef := (s.node x).next

def setNext (x : NodeRef) (link : Option NodeRef) : Allocator :=
  { s with node := Function.update s.node x { s.node x with next := link } }

def setCurrent (x : NodeRef) (page : Word) : Allocator :=
  { s with node := Function.update s.node x { s.node x with current := page } }

/-- `num_of_pages`: `size / 4096`, rounded up. -/
def numOfPages (size : Word) : Nat :=
  let n := size.toNat / 4096
  if n * 4096 < size.toNat then n + 1 else n

/-- One turn of the `while (num_of_pages != 0)` loop: the head node moves to the tail. -/
def moveHead : Option Allocator := do
  let temp ← s.headFree
  let s := { s with headFree := s.next temp }
  let last ← s.headEnd
  let s := s.setNext last (some temp)
  let s := { s with headEnd := s.next last }
  let last ← s.headEnd
  let s := s.setNext last none
  return { s with numberOfFreePages := s.numberOfFreePages - 1 }

/-- The loop, for `n` pages. -/
def takePages : Nat → Allocator → Option Allocator
  | 0, s => some s
  | n + 1, s => do
      let s ← s.moveHead
      takePages n s

/-- The body shared by `bump`, `bump_initial`, `bump_user` and `bump_physical`; `base` is the
window the returned address is given in.  A request that does not fit returns 0. -/
def bumpFrom (base : Word) (size : Word) : Option (Word × Allocator) :=
  if numOfPages size > s.numberOfFreePages then
    some (0, s)
  else do
    let head ← s.headFree
    let ret := (s.node head).current
    let s ← takePages (numOfPages size) s
    return (ret + base, s)

def bumpInitial (size : Word) : Option (Word × Allocator) := s.bumpFrom KERNBASE size

def bumpUser (size : Word) : Option (Word × Allocator) := s.bumpFrom USERBASE size

def bumpPhysical (size : Word) : Option (Word × Allocator) := s.bumpFrom 0 size

/-- The list half of `bump`; its `map_address` call follows in `Paging`. -/
def bumpList (size : Word) : Option (Word × Allocator) := s.bumpFrom KERNBASE size

/-- The address `kfree` puts back: it undoes whichever window the pointer was given in. -/
def physAddress (freed : Word) : Word :=
  if freed &&& KERNBASE = KERNBASE then freed - KERNBASE
  else if freed &&& USERBASE = USERBASE then freed - USERBASE
  else freed

/-- The list half of `kfree`. -/
def kfree (freed : Word) : Option Allocator := do
  let last ← s.headUnalloc
  let slot ← s.next last
  let s := { s with headUnalloc := some slot }
  let s := s.setCurrent slot (physAddress freed)
  return { s with numberOfFreePages := s.numberOfFreePages + 1 }

/-- `get_unallocated`. -/
def getUnallocated : Option Word := do
  let head ← s.headFree
  return (s.node head).current

@[simp] theorem setNext_next_self (x : NodeRef) (link : Option NodeRef) :
    (s.setNext x link).next x = link := by
  simp [setNext, next]

theorem setNext_next_of_ne {x y : NodeRef} (link : Option NodeRef) (h : y ≠ x) :
    (s.setNext x link).next y = s.next y := by
  simp [setNext, next, h]

@[simp] theorem setNext_current (x y : NodeRef) (link : Option NodeRef) :
    ((s.setNext x link).node y).current = (s.node y).current := by
  by_cases h : y = x
  · subst h; simp [setNext]
  · simp [setNext, h]

@[simp] theorem setCurrent_next (x y : NodeRef) (page : Word) :
    (s.setCurrent x page).next y = s.next y := by
  by_cases h : y = x
  · subst h; simp [setCurrent, next]
  · simp [setCurrent, next, h]

theorem setCurrent_current (x y : NodeRef) (page : Word) :
    ((s.setCurrent x page).node y).current = if y = x then page else (s.node y).current := by
  by_cases h : y = x
  · subst h; simp [setCurrent]
  · simp [setCurrent, h]

/-! ## `kfree` undoes the three windows -/

section Windows

variable {p : Word}

theorem physAddress_low (hp : p.toNat < directMapLimit) : physAddress p = p := by
  have hk : p &&& KERNBASE ≠ KERNBASE := by rw [low_and_KERNBASE hp]; decide
  have hu : p &&& USERBASE ≠ USERBASE := by rw [low_and_USERBASE hp]; decide
  simp [physAddress, hk, hu]

theorem physAddress_KERNBASE (hp : p.toNat < directMapLimit) : physAddress (p + KERNBASE) = p := by
  have hk : (KERNBASE + p) &&& KERNBASE = KERNBASE := by
    rw [add_and_of_low (low_and_KERNBASE hp) (low_and_KERNBASE hp), BitVec.and_self]
  rw [BitVec.add_comm]
  simp [physAddress, hk]

theorem physAddress_USERBASE (hp : p.toNat < directMapLimit) : physAddress (p + USERBASE) = p := by
  have hk : (USERBASE + p) &&& KERNBASE ≠ KERNBASE := by
    rw [add_and_of_low (low_and_USERBASE hp) (low_and_KERNBASE hp)]; decide
  have hu : (USERBASE + p) &&& USERBASE = USERBASE := by
    rw [add_and_of_low (low_and_USERBASE hp) (low_and_USERBASE hp), BitVec.and_self]
  rw [BitVec.add_comm]
  simp [physAddress, hk, hu]

end Windows

end Allocator

end OswpKernel
