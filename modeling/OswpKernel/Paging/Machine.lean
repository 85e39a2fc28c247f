import OswpKernel.Allocator.Refinement
import OswpKernel.Paging.Entry
import OswpKernel.Lib.Loop

/-!
# Paging machine — memory, page tables and the mapping routines (`sys/virtualmem.c`)

Memory is a map from frames to 512 words; a page table is a frame.  The free list is the ring the
allocator's list was shown to carry.  Kernel pointers go through the window at `KERNBASE`, which
shows the lowest 2 GiB; a routine returns `none` where the source uses a pointer outside the window
(NULL among them) or an index outside a table.

`owner` is not part of the source: it records for whom a frame was handed out, and no routine
reads it.
-/

namespace OswpKernel

namespace Paging

inductive Owner
  | kernel
  | process (table : Frame)
  deriving DecidableEq, Repr

structure Machine where
  mem : Frame → Slot → Word
  ring : SlotRing Word
  owner : Frame → Option Owner
  /-- The frame of `pml4t_t`, the kernel's own top table. -/
  pml4t : Frame
  /-- The frame of `currentthread->page_table`. -/
  current : Frame

namespace Machine

variable (m : Machine)

/-! ## Memory -/

def setPage (f : Frame) (page : Slot → Word) : Machine :=
  { m with mem := fun g => if g = f then page else m.mem g }

def write (f : Frame) (i : Slot) (e : Word) : Machine :=
  m.setPage f fun j => if j = i then e else m.mem f j

/-- The `for` loops that zero a table. -/
def clear (f : Frame) : Machine := m.setPage f fun _ => 0

/-- A store through an index that may have left its table. -/
def store (f : Frame) (i : Nat) (e : Word) : Option Machine :=
  if h : i < 512 then some (m.write f ⟨i, h⟩ e) else none

def load (f : Frame) (i : Nat) : Option Word :=
  if h : i < 512 then some (m.mem f ⟨i, h⟩) else none

@[simp] theorem setPage_mem_self (f : Frame) (page : Slot → Word) :
    (m.setPage f page).mem f = page := by
  simp [setPage]

theorem setPage_mem_of_ne {f g : Frame} (page : Slot → Word) (h : g ≠ f) :
    (m.setPage f page).mem g = m.mem g := by
  simp [setPage, h]

@[simp] theorem write_mem_self (f : Frame) (i : Slot) (e : Word) : (m.write f i e).mem f i = e := by
  simp [write]

theorem write_mem_of_ne {f g : Frame} {i j : Slot} (e : Word) (h : g ≠ f ∨ j ≠ i) :
    (m.write f i e).mem g j = m.mem g j := by
  rcases h with h | h
  · rw [write, setPage_mem_of_ne _ _ h]
  · by_cases hg : g = f
    · subst hg
      simp [write, h]
    · rw [write, setPage_mem_of_ne _ _ hg]

@[simp] theorem clear_mem_self (f : Frame) (i : Slot) : (m.clear f).mem f i = 0 := by
  simp [clear]

theorem clear_mem_of_ne {f g : Frame} (h : g ≠ f) : (m.clear f).mem g = m.mem g :=
  setPage_mem_of_ne _ _ h

@[simp] theorem setPage_ring (f : Frame) (page : Slot → Word) : (m.setPage f page).ring = m.ring :=
  rfl

@[simp] theorem setPage_owner (f : Frame) (page : Slot → Word) :
    (m.setPage f page).owner = m.owner := rfl

@[simp] theorem setPage_pml4t (f : Frame) (page : Slot → Word) :
    (m.setPage f page).pml4t = m.pml4t := rfl

@[simp] theorem setPage_current (f : Frame) (page : Slot → Word) :
    (m.setPage f page).current = m.current := rfl

@[simp] theorem write_ring (f : Frame) (i : Slot) (e : Word) : (m.write f i e).ring = m.ring := rfl

@[simp] theorem write_owner (f : Frame) (i : Slot) (e : Word) : (m.write f i e).owner = m.owner :=
  rfl

@[simp] theorem write_pml4t (f : Frame) (i : Slot) (e : Word) : (m.write f i e).pml4t = m.pml4t :=
  rfl

@[simp] theorem write_current (f : Frame) (i : Slot) (e : Word) :
    (m.write f i e).current = m.current := rfl

@[simp] theorem clear_ring (f : Frame) : (m.clear f).ring = m.ring := rfl

@[simp] theorem clear_owner (f : Frame) : (m.clear f).owner = m.owner := rfl

@[simp] theorem clear_pml4t (f : Frame) : (m.clear f).pml4t = m.pml4t := rfl

@[simp] theorem clear_current (f : Frame) : (m.clear f).current = m.current := rfl

theorem store_eq_some {m' : Machine} {f : Frame} {i : Nat} {e : Word}
    (h : m.store f i e = some m') : ∃ hi : i < 512, m' = m.write f ⟨i, hi⟩ e := by
  rw [store] at h
  split_ifs at h with hi
  exact ⟨hi, (Option.some_inj.1 h).symm⟩

theorem store_of_lt {f : Frame} {i : Nat} {e : Word} (hi : i < 512) :
    m.store f i e = some (m.write f ⟨i, hi⟩ e) := by
  rw [store, dif_pos hi]

theorem load_eq_some {f : Frame} {i : Nat} {e : Word} (h : m.load f i = some e) :
    ∃ hi : i < 512, m.mem f ⟨i, hi⟩ = e := by
  rw [load] at h
  split_ifs at h with hi
  exact ⟨hi, Option.some_inj.1 h⟩

theorem load_of_lt {f : Frame} {i : Nat} (hi : i < 512) :
    m.load f i = some (m.mem f ⟨i, hi⟩) := by
  rw [load, dif_pos hi]

/-! ## The allocator (`sys/allocator.c`), on the ring -/

def takePages (who : Owner) (n : Nat) : Machine :=
  let taken := (m.ring.contents.take n).map frameOf
  { m with
    ring := m.ring.take n
    owner := fun f => if f ∈ taken then some who else m.owner f }

@[simp] theorem takePages_mem (who : Owner) (n : Nat) : (m.takePages who n).mem = m.mem := rfl

@[simp] theorem takePages_ring (who : Owner) (n : Nat) :
    (m.takePages who n).ring = m.ring.take n := rfl

@[simp] theorem takePages_pml4t (who : Owner) (n : Nat) : (m.takePages who n).pml4t = m.pml4t :=
  rfl

@[simp] theorem takePages_current (who : Owner) (n : Nat) :
    (m.takePages who n).current = m.current := rfl

/-- The list half of the four `bump` routines. -/
def bumpFrom (base : Word) (who : Owner) (size : Word) : Option (Word × Machine) :=
  if Allocator.numOfPages size > m.ring.free then
    -- NULL, with the list as it was
    some (0, m)
  else do
    let ret ← m.ring.slots.head?
    -- the address is that of the first page; nothing checks that the others follow it
    return (ret + base, m.takePages who (Allocator.numOfPages size))

def bumpInitial (size : Word) : Option (Word × Machine) := m.bumpFrom KERNBASE .kernel size

def bumpUser (table : Frame) (size : Word) : Option (Word × Machine) :=
  m.bumpFrom USERBASE (.process table) size

def bumpPhysical (table : Frame) (size : Word) : Option (Word × Machine) :=
  m.bumpFrom 0 (.process table) size

/-- `get_unallocated`. -/
def getUnallocated : Option Word := m.ring.slots.head?

/-- The page table `unmap_page` ends in; it walks the current table without looking at the present
bits. -/
def unmapTable (va : Word) : Option Frame := do
  let pdpt ← tableAt (m.mem m.current (pml4Index va))
  let pdt ← tableAt (m.mem pdpt (pdptIndex va))
  tableAt (m.mem pdt (pdtIndex va))

def unmapPage (va : Word) : Option Machine := do
  let pt ← m.unmapTable va
  return m.write pt (ptIndex va) 0

def kfree (freed : Word) : Option Machine := do
  -- the mapping goes first, in the current table
  let m ← m.unmapPage freed
  let page := Allocator.physAddress freed
  -- the source's search for a node runs through NULL when no page is free, and around the ring when
  -- all are
  if h : 0 < m.ring.free ∧ m.ring.free < m.ring.slots.length then
    return { m with
      ring := m.ring.put page h.2
      owner := fun f => if f = frameOf page then none else m.owner f }
  else none

/-! ## What the hardware sees -/

/-- The frame a present entry leads to. -/
def child (t : Frame) (i : Slot) : Option Frame :=
  if Present (m.mem t i) then some (frameOf (m.mem t i)) else none

def walk : Frame → List Slot → Option Frame
  | t, [] => some t
  | t, i :: is => (m.child t i).bind fun next => walk next is

/-- The entries a walk goes through, up to the first that is not present. -/
def entries : Frame → List Slot → List Word
  | _, [] => []
  | t, i :: is =>
      m.mem t i :: match m.child t i with
        | some next => entries next is
        | none => []

/-- The frame an address translates to under the top table `root`. -/
def translate (root : Frame) (va : Word) : Option Frame := m.walk root (pathOf va)

/-! ## `map_address` and `map_user_address` -/

/-- One level of the walk at the head of the mapping routines: a missing table is allocated,
entered and zeroed. -/
def descend (alloc : Machine → Option (Word × Machine)) (flags : Word) (t : Frame) (i : Slot)
    (m : Machine) : Option (Frame × Machine) :=
  if Present (m.mem t i) then do
    let next ← tableAt (m.mem t i)
    return (next, m)
  else do
    let (v, m) ← alloc m
    let m := m.write t i (linkTo v flags)
    let next ← pointerFrame v
    -- the entry is in before the table is zeroed
    return (next, m.clear next)

/-- Where the mapping loop stands; the indices may have reached 512.  `mapped` lists the frames it
has entered into page tables so far. -/
structure Cursor where
  pml4i : Nat
  pdpti : Nat
  pdti : Nat
  pti : Nat
  pdpt : Frame
  pdt : Frame
  pt : Frame
  phys : Word
  mapped : List Frame

/-- The increments of the loop, `map_phy_address += 4096` and `pt_index++`. -/
def Cursor.advance (c : Cursor) : Cursor := { c with phys := c.phys + 4096, pti := c.pti + 1 }

/-- The flags a mapping routine puts into the entries of its loop. -/
structure MapFlags where
  pml4 : Word
  table : Word
  page : Word

/-- `bump(sizeof(struct ..))`, with the table zeroed. -/
def freshTable (alloc : Machine → Option (Word × Machine)) (m : Machine) :
    Option (Word × Frame × Machine) := do
  let (v, m) ← alloc m
  let next ← pointerFrame v
  return (v, next, m.clear next)

section Loop

variable (alloc : Machine → Option (Word × Machine)) (root : Frame) (flags : MapFlags)

/-- The branch `pdpt_index == 512`. -/
def nextPdpt : Cursor × Machine → Option (Cursor × Machine)
  | (c, m) =>
      if c.pdpti = 512 then do
        let (v, next, m) ← freshTable alloc m
        let m ← m.store root (c.pml4i + 1) (linkTo v flags.pml4)
        -- `pdt_index = 512` makes the next branch allocate as well
        return ({ c with pdpti := 0, pml4i := c.pml4i + 1, pdpt := next, pdti := 512 }, m)
      else some (c, m)

/-- The branch `pdt_index == 512`. -/
def nextPdt : Cursor × Machine → Option (Cursor × Machine)
  | (c, m) =>
      if c.pdti = 512 then do
        let (v, next, m) ← freshTable alloc m
        -- the index is raised only after the store, so the entry behind the current one is used
        let m ← m.store c.pdpt (c.pdpti + 1) (linkTo v flags.table)
        return ({ c with pdti := 0, pdpti := c.pdpti + 1, pdt := next, pti := 512 }, m)
      else some (c, m)

/-- The branch `pt_index == 512`. -/
def nextPt : Cursor × Machine → Option (Cursor × Machine)
  | (c, m) =>
      if c.pti = 512 then do
        let (v, next, m) ← freshTable alloc m
        let m ← m.store c.pdt (c.pdti + 1) (linkTo v flags.table)
        return ({ c with pti := 0, pdti := c.pdti + 1, pt := next }, m)
      else some (c, m)

/-- The end of the loop body: a page that is not present is mapped. -/
def enterPage : Cursor × Machine → Option (Cursor × Machine)
  | (c, m) => do
      let e ← m.load c.pt c.pti
      -- a page that is mapped is passed over, and keeps its frame
      if Present e then
        return (c.advance, m)
      else do
        let m ← m.store c.pt c.pti (c.phys ||| flags.page)
        return ({ c.advance with mapped := c.mapped ++ [frameOf c.phys] }, m)

/-- One turn of the mapping loop. -/
def mapStep (s : Cursor × Machine) : Option (Cursor × Machine) := do
  let s ← nextPdpt alloc root flags s
  let s ← nextPdt alloc flags s
  let s ← nextPt alloc flags s
  enterPage flags s

end Loop

/-- The cursor at the start of the mapping loop. -/
def cursorAt (address phys : Word) (pdpt pdt pt : Frame) : Cursor where
  pml4i := pml4Index address
  pdpti := pdptIndex address
  pdti := pdtIndex address
  pti := ptIndex address
  pdpt := pdpt
  pdt := pdt
  pt := pt
  phys := phys &&& physMask
  mapped := []

end Machine

open Machine

/-! ## How many pages a mapping call maps -/

/-- The cast of a `uint64_t` to `int`. -/
def toInt32 (w : Word) : Int := Int.bmod w.toNat (2 ^ 32)

/-- `num_of_structs`. -/
def structsFor (entries : Int) : Int :=
  entries.tdiv 512 + if entries.tmod 512 > 0 then 1 else 0

/-- `size` in `map_address`, from the next free page and the page that was handed out. -/
def mapSize (abc phys : Word) : Int :=
  let diff := abc - phys
  -- the remainder is taken by 512, not by 4096
  let entries := toInt32 (diff / 4096) + if diff % 512 > 0 then 1 else 0
  toInt32 (diff + BitVec.ofInt 64 ((structsFor entries - 1) * 4096))

/-- `size` in `map_user_address`. -/
def userMapSize (sizeToMap : Int) : Int :=
  let entries := sizeToMap.tdiv 4096 + if sizeToMap.tmod 512 > 0 then 1 else 0
  sizeToMap + (structsFor entries - 1) * 4096

/-- The turns of `for (; size > 0; size -= 4096)`. -/
def turnsPositive (size : Int) : Nat := ((size + 4095) / 4096).toNat

/-- The turns of `for (; size >= 0; size -= 4096)`. -/
def turnsNonneg (size : Int) : Nat := ((size + 4096) / 4096).toNat

/-- `map_address`; its loop allocates through `alloc`, its walk through `bump_initial`. -/
def mapAddress (alloc : Machine → Option (Word × Machine)) (address phys : Word) (m : Machine) :
    Option Machine := do
  let initial := fun m => bumpInitial m 4096
  let (pdpt, m) ← descend initial 3 m.pml4t (pml4Index address) m
  let (pdt, m) ← descend initial 3 pdpt (pdptIndex address) m
  let (pt, m) ← descend initial 3 pdt (pdtIndex address) m
  -- everything up to the next free page is mapped, not only `size` bytes
  let abc ← m.getUnallocated
  let (_, m) ← Loop.times (mapStep alloc m.pml4t ⟨3, 3, 3⟩) (turnsPositive (mapSize abc phys))
    (cursorAt address phys pdpt pdt pt, m)
  return m

/-- `bump`, where `map` stands for its `map_address` call. -/
def bumpWith (map : Word → Word → Machine → Option Machine) (size : Word) (m : Machine) :
    Option (Word × Machine) :=
  if Allocator.numOfPages size > m.ring.free then
    -- too little memory: NULL
    some (0, m)
  else do
    let ret ← m.ring.slots.head?
    let m ← map (ret + KERNBASE) ret (m.takePages .kernel (Allocator.numOfPages size))
    return (ret + KERNBASE, m)

/-- `bump` and `map_address` call each other; every call but one for no page takes a page. -/
def bumpFuel : Nat → Word → Machine → Option (Word × Machine)
  | 0, _, _ => none
  | fuel + 1, size, m => bumpWith (mapAddress (bumpFuel fuel 4096)) size m

def bump (size : Word) (m : Machine) : Option (Word × Machine) :=
  bumpFuel (m.ring.free + 2) size m

/-- `map_user_address`, with the frames it has newly entered into page tables. -/
def mapUserAddress (address phys : Word) (sizeToMap : Int) (table : Frame) (flags : Word)
    (m : Machine) : Option (List Frame × Machine) := do
  let (pdpt, m) ← descend (bump 4096) flags table (pml4Index address) m
  let (pdt, m) ← descend (bump 4096) flags pdpt (pdptIndex address) m
  let (pt, m) ← descend (bump 4096) flags pdt (pdtIndex address) m
  let (c, m) ← Loop.times (mapStep (bump 4096) table ⟨flags, 7, 7⟩)
    -- `size >= 0`: a size of 0 still makes one turn
    (turnsNonneg (userMapSize sizeToMap)) (cursorAt address phys pdpt pdt pt, m)
  return (c.mapped, m)

end Paging

end OswpKernel
