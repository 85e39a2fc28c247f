import OswpKernel.Paging.Process
import OswpKernel.Scheduler.Basic

/-!
# Areas — the memory areas of a process (`process.c`)

`mm_struct`, `vm_area_struct` and `struct file` each fill a page that `bump` has handed out; they
are named by the kernel's pointer to them, and a NULL pointer is `none`.  `bump` clears no page: a
new structure holds whatever its page held.  `none` as a result is an access through NULL, or a walk
that does not come to the end of its list.
-/

namespace OswpKernel

namespace Exec

open Paging Chain

def STACK : BitVec 32 := 1

def HEAP : BitVec 32 := 2

def OTHER : BitVec 32 := 3

/-- `struct file`. -/
structure FileRegion where
  fileStart : Word
  vmPgoff : Word
  vmSz : Word
  bssSize : Word
  deriving DecidableEq

/-- `struct vm_area_struct`. -/
structure Area where
  vmaStart : Word
  vmaEnd : Word
  vmaFlags : BitVec 32
  vmaType : BitVec 32
  next : Option Word
  prev : Option Word
  vmaFile : Option Word
  deriving DecidableEq

/-- `struct mm_struct`. -/
structure MM where
  listOfVmas : Option Word
  numOfVmas : Int
  freelist : Word
  deriving DecidableEq

/-- The fields of `struct PCB` that say what the process's memory is. -/
structure Task where
  mm : Word
  heapPtr : Word
  ursp : Word
  gotoaddr : Word
  name : List UInt8
  deriving DecidableEq

/-- The structures, the PCBs that point to them, and the machine whose pages they are on. -/
structure Tasks where
  machine : Machine
  area : Word → Area
  file : Word → FileRegion
  mm : Word → MM
  task : PcbRef → Task
  currentthread : PcbRef

/-- Areas are pages of the lowest 2 GiB, so no list of them is longer than this. -/
def maxAreas : ℕ := 2 ^ 19

namespace Tasks

variable (s : Tasks)

def setArea (p : Word) (f : Area → Area) : Tasks :=
  { s with area := Function.update s.area p (f (s.area p)) }

def setFile (p : Word) (file : FileRegion) : Tasks :=
  { s with file := Function.update s.file p file }

def setMM (p : Word) (f : MM → MM) : Tasks :=
  { s with mm := Function.update s.mm p (f (s.mm p)) }

def setTask (x : PcbRef) (f : Task → Task) : Tasks :=
  { s with task := Function.update s.task x (f (s.task x)) }

/-- The link map of the areas. -/
def nextArea (p : Word) : Option Word := (s.area p).next

/-- The structure `process->mm` points to. -/
def mmOf (x : PcbRef) : MM := s.mm (s.task x).mm

/-- `bump`, for a structure that is written to at once. -/
def alloc (size : Word) : Option (Word × Tasks) := do
  let (p, machine) ← bump size s.machine
  if p = 0 then none else return (p, { s with machine := machine })

def kfree (freed : Option Word) : Option Tasks := do
  let machine ← s.machine.kfree (freed.getD 0)
  return { s with machine := machine }

/-! ## `clear_vmas` -/

/-- The file description goes first, if the area has one. -/
def freeFile (tempvma : Word) : Option Tasks :=
  if (s.area tempvma).vmaType = OTHER then s.kfree (s.area tempvma).vmaFile else some s

/-- The loop over the areas, from `tempvma` on. -/
def freeAreas : ℕ → Option Word → Tasks → Option Tasks
  | 0, _, _ => none
  | _ + 1, none, s => some s
  | fuel + 1, some tempvma, s => do
      let s ← s.freeFile tempvma
      let next := s.nextArea tempvma
      let s ← s.kfree (some tempvma)
      freeAreas fuel next s

def clearVmas : Option Tasks := do
  let mm := (s.task s.currentthread).mm
  let s ← freeAreas maxAreas (s.mm mm).listOfVmas s
  -- the head of the list was the first area the loop has freed
  let s ← s.kfree (s.mm mm).listOfVmas
  s.kfree (some mm)

/-! ## The areas in `copy_process` -/

/-- `while (tempvma->next != NULL) tempvma = tempvma->next`. -/
def lastArea : ℕ → Word → Option Word
  | 0, _ => none
  | fuel + 1, tempvma =>
      match s.nextArea tempvma with
      | none => some tempvma
      | some next => lastArea fuel next

/-- How the branches for `HEAP` and `STACK` append; the last area is what `tempvma` is left at. -/
def appendArea (new : PcbRef) (vma : Word) : Option (Word × Tasks) := do
  let first ← (s.mmOf new).listOfVmas
  let tempvma ← s.lastArea maxAreas first
  let s := s.setArea vma fun a => { a with prev := some tempvma }
  let s := s.setArea tempvma fun a => { a with next := some vma }
  let s := s.setArea vma fun a => { a with next := none }
  return (tempvma, s)

/-- `new_process->mm->num_of_vmas++`. -/
def countArea (new : PcbRef) : Tasks :=
  s.setMM (s.task new).mm fun mm => { mm with numOfVmas := mm.numOfVmas + 1 }

def copyHeap (current new : PcbRef) (source : Word) : Option (Option Word × Tasks) := do
  let (vma, s) ← s.alloc 48
  let s := s.setArea vma fun a =>
    { a with
      vmaType := HEAP
      vmaFile := none
      vmaStart := (s.area source).vmaStart
      vmaEnd := (s.area source).vmaEnd }
  let (tempvma, s) ← s.appendArea new vma
  let s := s.countArea new
  let s := s.setTask new fun t => { t with heapPtr := (s.task current).heapPtr }
  let s := s.setMM (s.task new).mm fun mm => { mm with freelist := (s.mmOf current).freelist }
  return (some tempvma, s)

/-- The stack is not counted. -/
def copyStack (new : PcbRef) (source : Word) : Option (Option Word × Tasks) := do
  let (vma, s) ← s.alloc 48
  let s := s.setArea vma fun a =>
    { a with
      vmaFile := none
      vmaType := STACK
      vmaStart := (s.area source).vmaStart
      vmaEnd := (s.area source).vmaEnd }
  let (tempvma, s) ← s.appendArea new vma
  let s := s.setTask new fun t => { t with ursp := (s.task s.currentthread).ursp }
  return (some tempvma, s)

/-- The copy of the file description; `file_start` becomes the size of the bss. -/
def copyFile (vma source : Word) : Option Tasks :=
  match (s.area source).vmaFile with
  | none => some s
  | some file => do
      let (copy, s) ← s.alloc 32
      let s := s.setArea vma fun a => { a with vmaFile := some copy }
      return s.setFile copy
        { fileStart := (s.file file).bssSize
          vmPgoff := (s.file file).vmPgoff
          vmSz := (s.file file).vmSz
          bssSize := (s.file file).bssSize }

/-- Another area: neither its type nor the `next` of the area before it is set. -/
def copyOther (new : PcbRef) (source : Word) (tempvma : Option Word) :
    Option (Option Word × Tasks) := do
  let (vma, s) ← s.alloc 48
  let s := s.setArea vma fun a =>
    { a with
      vmaStart := (s.area source).vmaStart
      vmaEnd := (s.area source).vmaEnd
      vmaFlags := (s.area source).vmaFlags }
  let s ← s.copyFile vma source
  let s := s.setArea vma fun a => { a with next := none }
  let s :=
    match tempvma with
    | none => (s.setMM (s.task new).mm fun mm => { mm with listOfVmas := some vma }).setArea vma
        fun a => { a with prev := none }
    | some last => s.setArea vma fun a => { a with prev := some last }
  return (some vma, s.countArea new)

def copyArea (current new : PcbRef) (source : Word) (tempvma : Option Word) :
    Option (Option Word × Tasks) :=
  if (s.area source).vmaType = HEAP then s.copyHeap current new source
  else if (s.area source).vmaType = STACK then s.copyStack new source
  else s.copyOther new source tempvma

/-- The loop over the parent's areas. -/
def copyAreas (current new : PcbRef) : ℕ → Option Word → Option Word → Tasks → Option Tasks
  | 0, _, _, _ => none
  | _ + 1, none, _, s => some s
  | fuel + 1, some source, tempvma, s => do
      let (tempvma, s) ← s.copyArea current new source tempvma
      copyAreas current new fuel (s.nextArea source) tempvma s

/-- `copy_process`, its memory part. -/
def copyProcess (current new : PcbRef) : Option Tasks := do
  let (mm, s) ← s.alloc 24
  let s := s.setTask new fun t => { t with mm := mm }
  let s := s.setMM mm fun m => { m with numOfVmas := (s.mmOf current).numOfVmas }
  let (list, s) ← s.alloc 48
  let s := s.setMM mm fun m => { m with listOfVmas := some list }
  copyAreas current new maxAreas (s.mmOf current).listOfVmas none s

end Tasks

end Exec

end OswpKernel
