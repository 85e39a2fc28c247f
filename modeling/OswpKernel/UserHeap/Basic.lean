import OswpKernel.Base
import OswpKernel.Lib.Chain
import OswpKernel.Lib.Execution
import OswpKernel.Lib.Tiling
import Mathlib.Logic.Function.Basic

/-!
# User heap — `do_malloc` and `do_free`

The heap of a process is one page of 256 units of 16 bytes (`createheap`, `process.c`).  A block
starts with a unit that holds its header; memory is seen here through what every unit holds when it
is read as a header.  A pointer to a header is the number of the unit, a pointer that `malloc`
returns is the number of the unit behind the header.

Between the calls the process writes what it wants to the payload of its live blocks, so what a unit
there holds is arbitrary.
-/

namespace OswpKernel

open Chain

namespace UserHeap

/-- `malloc_header`. -/
structure Header where
  next : Option Nat
  size : Nat
  deriving DecidableEq

/-- The units of the heap page. -/
def pageUnits : Nat := 256

/-- `mm->freelist` is never NULL once `createheap` has run. -/
structure Arena where
  header : Nat → Header
  freelist : Nat

namespace Arena

variable (m : Arena)

def setHeader (i : Nat) (x : Header) : Arena :=
  { m with header := Function.update m.header i x }

def setNext (i : Nat) (next : Option Nat) : Arena :=
  m.setHeader i { m.header i with next := next }

def setSize (i size : Nat) : Arena := m.setHeader i { m.header i with size := size }

def next (i : Nat) : Option Nat := (m.header i).next

def size (i : Nat) : Nat := (m.header i).size

/-- The heap `createheap` sets up: one block, of all units but the last. -/
def createheap (header : Nat → Header) : Arena :=
  { header := Function.update header 0 { next := none, size := (4096 + 16 - 1) / 16 - 1 }
    freelist := 0 }

/-- The blocks a loop along `next` visits.  A list with more blocks than the page has units goes in
a circle. -/
def blocks : List Nat := follow m.next pageUnits (some m.freelist)

/-! ## `do_malloc` -/

/-- `num_of_structs`, in `uint64_t`. -/
def numOfStructs (size : Word) : Nat := ((size + 16 - 1) / 16 + 1).toNat

/-- The loop of `do_malloc`: the first block that is large enough, with the block before it.  At the
head that is the block itself. -/
def firstFit (n prev : Nat) : List Nat → Option (Nat × Nat)
  | [] => none
  | current :: rest =>
      if n ≤ m.size current then some (prev, current) else firstFit n current rest

/-- An exact fit is unlinked, a larger block gives its end. -/
def takeFrom (n prev current : Nat) : Nat × Arena :=
  if m.size current = n then (current, { m.setNext prev (m.next current) with freelist := prev })
  else
    let m := m.setSize current (m.size current - n)
    let block := current + m.size current
    (block, { m.setSize block n with freelist := prev })

/-- `do_malloc`: the pointer is behind the header.  Without a fit the loop dereferences NULL. -/
def doMalloc (size : Word) : Option (Nat × Arena) :=
  (m.firstFit (numOfStructs size) m.freelist m.blocks).map fun found =>
    let taken := m.takeFrom (numOfStructs size) found.1 found.2
    (taken.1 + 1, taken.2)

/-! ## `do_free` -/

/-- What the loop of `do_free` does at one block of the list, if it stops there. -/
def freeAt (block current : Nat) : Option Arena :=
  match m.next current with
  | none =>
      if current < block then
        if current + m.size current = block then
          some (m.setSize current (m.size current + m.size block))
        else some ((m.setNext current (some block)).setNext block none)
      else if block < current then
        if block + m.size block = current then
          some ((m.setSize block (m.size block + m.size current)).setNext block none)
        else some (m.setNext block (some current))
      else none
  | some next =>
      if current < block ∧ block < next then
        let m :=
          if block + m.size block = next then
            (m.setSize block (m.size block + m.size next)).setNext block (m.next next)
          else m.setNext block (some next)
        if current + m.size current = block then
          some (m.setSize current (m.size current + m.size block))
        else some (m.setNext current (some block))
      else none

/-- `do_free`. -/
def doFree (ptr : Nat) : Option Arena :=
  match m.blocks.findSome? (m.freeAt (ptr - 1)) with
  | some m' => some m'
  | none => if m.blocks.length < pageUnits then some m else none

end Arena

/-! ## Runs -/

/-- The heap with its live blocks: the unit of the header, and the units that header and payload
need. -/
structure Process where
  arena : Arena
  live : List (Nat × Nat)

inductive Event
  | malloc (size : Word)
  | free (ptr : Nat)
  | store (i : Nat) (x : Header)
  deriving DecidableEq

/-- Header and payload of a request, in units. -/
def needed (size : Word) : Nat := (size.toNat + 15) / 16 + 1

namespace Process

def exec (p : Process) : Event → Option Process
  | .malloc size =>
      (p.arena.doMalloc size).map fun result =>
        { arena := result.2, live := (result.1 - 1, needed size) :: p.live }
  | .free ptr =>
      (p.arena.doFree ptr).map fun arena =>
        { arena := arena, live := p.live.filter fun l => l.1 + 1 ≠ ptr }
  | .store i x => some { p with arena := p.arena.setHeader i x }

/-- Live pointers are freed, and only the payload of live blocks is written. -/
def Possible (p : Process) : Event → Prop
  | .malloc _ => True
  | .free ptr => ∃ l ∈ p.live, ptr = l.1 + 1
  | .store i _ => ∃ l ∈ p.live, l.1 < i ∧ i < l.1 + l.2

instance (p : Process) (e : Event) : Decidable (p.Possible e) :=
  match e with
  | .malloc _ => inferInstanceAs (Decidable True)
  | .free _ => inferInstanceAs (Decidable (∃ _ ∈ _, _))
  | .store _ _ => inferInstanceAs (Decidable (∃ _ ∈ _, _))

/-- After `createheap`, on a page of any contents. -/
def start (header : Nat → Header) : Process :=
  { arena := Arena.createheap header, live := [] }

end Process

end UserHeap

end OswpKernel
