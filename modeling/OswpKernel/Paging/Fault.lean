import OswpKernel.Paging.Process

/-!
# Paging fault — the page-fault handler, and what sets a process up (`sys/idt.c`, `sys/tarfs.c`)

`interrupt4` gives a page to the address in `cr2`: by `copy_page` where the top entry is
copy-on-write, else by `map_user_address`, with a physical address that it computes from the address
and the memory areas of the process.  `loadelf` and `createheap` hand out the pages of a segment, of
the heap and of the stack.
-/

namespace OswpKernel

namespace Paging

open Machine

inductive VmaType
  | stack
  | heap
  | other
  deriving DecidableEq, Repr

/-- `struct vm_area_struct`; the list is the one its `next` fields make. -/
structure Vma where
  vmaStart : Word
  vmaEnd : Word
  vmaType : VmaType
  deriving DecidableEq, Repr

/-- `struct Elf64_Phdr`, with what `loadelf` uses of it. -/
structure ProgramHeader where
  pType : BitVec 32
  pFlags : BitVec 32
  pOffset : Word
  pVaddr : Word
  pFilesz : Word
  pMemsz : Word
  deriving DecidableEq, Repr

/-- The machine, the top tables of the processes and their memory areas. -/
structure System where
  machine : Machine
  tables : List Frame
  vmas : Frame → List Vma

/-! ## `interrupt4` -/

/-- `is_cow_enabled`. -/
def IsCowEnabled (m : Machine) (pml4tIndex : Slot) : Prop :=
  Has (m.mem m.current pml4tIndex) cowBit ∧ Present (m.mem m.current pml4tIndex)

instance (m : Machine) (i : Slot) : Decidable (IsCowEnabled m i) :=
  inferInstanceAs (Decidable (_ ∧ _))

/-- `0x1000000000`, taken off an address on the stack. -/
def stackOffset : Word := 0x1000000000

/-- The address is in the area. -/
def Vma.Holds (vma : Vma) (arg1 : Word) : Prop := vma.vmaStart ≤ arg1 ∧ arg1 ≤ vma.vmaEnd

instance (vma : Vma) (arg1 : Word) : Decidable (vma.Holds arg1) :=
  inferInstanceAs (Decidable (_ ∧ _))

def vmaStack (vmas : List Vma) : Option Vma := vmas.find? fun vma => vma.vmaType = .stack

def vmaHeap (vmas : List Vma) (arg1 : Word) : Option Vma :=
  vmas.find? fun vma => vma.vmaType = .heap ∧ vma.Holds arg1

/-- The four branches: the physical address, and whether the stack grows by a page. -/
def faultTarget (vmas : List Vma) (arg1 : Word) : Word × Bool :=
  -- the address is on the stack
  if ∃ vma ∈ vmaStack vmas, vma.Holds arg1 then (arg1 - USERBASE - stackOffset, false)
  -- in a heap area
  else if ∃ vma ∈ vmaHeap vmas arg1, vma.Holds arg1 then (arg1 - USERBASE, false)
  -- below the stack: it grows by one page, wherever below the address is
  else if ∃ vma ∈ vmaStack vmas, arg1 < vma.vmaStart then (arg1 - USERBASE - stackOffset, true)
  else (arg1 - USERBASE, false)

/-- `vma_stack->vma_start = vma_stack->vma_start - 4096`, in the first area of that type. -/
def growStack : List Vma → List Vma
  | [] => []
  | vma :: vmas =>
      if vma.vmaType = .stack then { vma with vmaStart := vma.vmaStart - 4096 } :: vmas
      else vma :: growStack vmas

/-- `interrupt4`, with the frames that `map_user_address` has newly entered.  For slot 511 the
process is closed; its tables stay. -/
def interrupt4 (arg1 : Word) (s : System) : Option (List Frame × System) :=
  let table := s.machine.current
  if IsCowEnabled s.machine (pml4Index arg1) then do
    let m ← copyPage table arg1 s.machine
    return ([], { s with machine := m })
  -- an access to the kernel's half closes the process
  else if pml4Index arg1 = 511 then some ([], s)
  else do
    let (phys, grows) := faultTarget (s.vmas table) arg1
    -- nothing checks that the physical page was handed out to the process
    let (mapped, m) ← mapUserAddress arg1 phys 4096 table 7 s.machine
    let vmas := if grows then growStack (s.vmas table) else s.vmas table
    return (mapped, { s with machine := m, vmas := Function.update s.vmas table vmas })

/-! ## `loadelf` and `createheap` -/

/-- `bump` for a structure that is used through its pointer. -/
def allocate (size : Word) (m : Machine) : Option Machine := do
  let (v, m) ← bump size m
  let _ ← pointerFrame v
  return m

/-- The `struct file` of a segment with the flags `PF_R + PF_X` or `PF_R + PF_W`. -/
def allocateFile (pFlags : BitVec 32) (m : Machine) : Option Machine :=
  if pFlags = 5 ∨ pFlags = 6 then allocate 32 m else some m

/-- The pages of a segment: its area, its memory, and the mapping. -/
def mapSegment (table : Frame) (phdr : ProgramHeader) (m : Machine) : Option Machine := do
  let m ← allocate 48 m
  let m ← allocateFile phdr.pFlags m
  let (phy, m) ← bumpPhysical m table phdr.pMemsz
  -- the size is cast to an int
  let (_, m) ← mapUserAddress phdr.pVaddr phy (toInt32 phdr.pMemsz) table 7 m
  return m

def segmentVma (phdr : ProgramHeader) : Vma := ⟨phdr.pVaddr, phdr.pVaddr + phdr.pMemsz, .other⟩

/-- `createheap`. -/
def createheap (size : Word) (table : Frame) (m : Machine) : Option (Vma × Machine) := do
  let (heap, m) ← bumpUser m table size
  let m ← allocate 48 m
  return (⟨heap, heap + size - 1, .heap⟩, m)

/-- The stack at the end of `loadelf`; the offset is added to a `uint64_t *`. -/
def createStack (table : Frame) (m : Machine) : Option (Vma × Machine) := do
  let (stack, m) ← bumpUser m table 4096
  let stack := stack + 8 * stackOffset
  let m ← allocate 48 m
  return (⟨stack, stack + 4095, .stack⟩, m)

/-! ## Processes -/

/-- What happens to the page tables of processes.  The parts of `exec` are events of their own. -/
inductive SystemEvent
  /-- `map_user_pml4`, and the new table is loaded -/
  | create
  /-- the scheduler makes another process current -/
  | switch (table : Frame)
  /-- `bump`, for the kernel -/
  | bump (size : Word)
  /-- `sys_fork`; `copy_process` leaves the type of a copied segment's area as it finds it -/
  | fork (vmas : List Vma)
  | clearUptentries
  /-- a segment in `loadelf`; only the area of the first one is linked -/
  | segment (first : Bool) (phdr : ProgramHeader)
  | heap
  | stack
  | fault (arg1 : Word)

def System.setVmas (s : System) (m : Machine) (vmas : List Vma) : System :=
  { s with machine := m, vmas := Function.update s.vmas s.machine.current vmas }

def systemStep (s : System) : SystemEvent → Option System
  | .create => do
      -- CR3 is loaded with the new table before the segments are
      let (new, m) ← s.machine.mapUserPml4
      return { s with machine := { m with current := new }, tables := s.tables ++ [new] }
  | .switch table => some { s with machine := { s.machine with current := table } }
  | .bump size => do
      let (_, m) ← Paging.bump size s.machine
      return { s with machine := m }
  | .fork vmas => do
      let (new, m) ← duplicatePageTable s.machine.current s.machine
      return { machine := m, tables := s.tables ++ [new], vmas := Function.update s.vmas new vmas }
  | .clearUptentries => do
      let m ← s.machine.clearUptentries
      return { s with machine := m }
  | .segment first phdr => do
      let m ← mapSegment s.machine.current phdr s.machine
      -- the area of a later segment is linked only backwards
      return if first then s.setVmas m [segmentVma phdr] else { s with machine := m }
  | .heap => do
      let (vma, m) ← createheap 4096 s.machine.current s.machine
      return s.setVmas m (s.vmas s.machine.current ++ [vma])
  | .stack => do
      let (vma, m) ← createStack s.machine.current s.machine
      return s.setVmas m (s.vmas s.machine.current ++ [vma])
  | .fault arg1 => do
      let (_, s) ← interrupt4 arg1 s
      return s

end Paging

end OswpKernel
