import OswpKernel.Lib.Chain
import Mathlib.Data.BitVec
import Mathlib.Logic.Function.Basic

/-!
# Scheduler — process control blocks and the two lists (`sys/contextswitch.c`, `sys/syscall.c`)

`threadlist` and `blockedlist` are singly linked lists through the one `next` field of the PCBs.
The operations below are the source's, restricted to the fields that decide who runs: registers,
kernel stacks, page tables and the `/proc` entries are left to other parts of the model.

An operation returns `none` where the source dereferences NULL.  A PCB that is allocated is given
by the page it is put in.  `bump` clears nothing: what is not written holds what the page held.
-/

namespace OswpKernel

/-- `uint32_t`, as used for process ids. -/
abbrev Pid := BitVec 32

/-- The address of a PCB, by the number of the physical page it fills. -/
abbrev PcbRef := Nat

/-- `enum { RUNNING, SLEEPING, ZOMBIE, BLOCKED } state`. -/
inductive ProcState
  | running
  | sleeping
  | zombie
  | blocked
  deriving DecidableEq, Repr

/-- `struct PCB`, the fields the scheduler reads or writes.  `is_wait` is compared with 1 only. -/
structure PCB where
  pid : Pid
  ppid : Pid
  isWait : Bool
  state : ProcState
  childProcess : Option PcbRef
  next : Option PcbRef
  totalslice : BitVec 32
  deriving DecidableEq, Repr

/-- A zero-filled page read as a PCB. -/
def PCB.zero : PCB where
  pid := 0
  ppid := 0
  isWait := false
  state := .running
  childProcess := none
  next := none
  totalslice := 0

/-- The ids and the mark are 0: `create_thread` leaves them as they are. -/
def PCB.Blank (p : PCB) : Prop := p.pid = 0 ∧ p.ppid = 0 ∧ p.isWait = false

instance (p : PCB) : Decidable p.Blank := inferInstanceAs (Decidable (_ ∧ _))

/-- The globals of the scheduler and the PCBs.  After boot `mainthread` and `currentthread` are
never NULL. -/
structure Sched where
  /-- The PCB a page holds, or what it holds where one would be. -/
  pcb : PcbRef → PCB
  mainthread : PcbRef
  threadlist : Option PcbRef
  currentthread : PcbRef
  blockedlist : Option PcbRef
  processcount : Pid

namespace Sched

/-- PCBs are pages of the lowest 2 GiB, so no list of them is longer than this. -/
def maxPcbs : Nat := 2 ^ 19

def MAXSLICE : BitVec 32 := 8

variable (s : Sched)

/-- The link map of the PCBs. -/
def next (x : PcbRef) : Option PcbRef := (s.pcb x).next

def modify (x : PcbRef) (f : PCB → PCB) : Sched :=
  { s with pcb := Function.update s.pcb x (f (s.pcb x)) }

def setNext (x : PcbRef) (link : Option PcbRef) : Sched :=
  s.modify x fun p => { p with next := link }

def setState (x : PcbRef) (state : ProcState) : Sched :=
  s.modify x fun p => { p with state := state }

/-- The PCBs a loop `while (temp != NULL) { ...; temp = temp->next; }` visits. -/
def walk (temp : Option PcbRef) : List PcbRef := Chain.follow s.next maxPcbs temp

/-- The first entry a test accepts, with the entry before it: what the loops that carry `prev`
along compute. -/
def findPrev {α : Type} (test : α → Bool) : Option α → List α → Option (Option α × α)
  | _, [] => none
  | prev, x :: xs => if test x then some (prev, x) else findPrev test (some x) xs

/-! ## `schedule` -/

/-- The first entry from `temp` on whose state is 1. -/
def firstReady (temp : Option PcbRef) : Option PcbRef :=
  (s.walk temp).find? fun x => (s.pcb x).state = .sleeping

def schedule : Sched :=
  let me := s.currentthread
  let next :=
    if (s.pcb me).next ≠ none ∧ (s.pcb me).state ≠ .blocked then
      (s.firstReady (s.pcb me).next).or (s.firstReady s.threadlist)
    else s.firstReady s.threadlist
  let s :=
    if me = s.mainthread then s.setState me .zombie
    else if (s.pcb me).state ≠ .zombie then s.setState me .sleeping
    else s
  let next := next.getD s.mainthread
  { s.setState next .running with currentthread := next }

/-! ## `create_thread` and `user_process` -/

/-- The new thread goes to the tail of `threadlist`. -/
def createThread (page : PcbRef) : Option Sched := do
  let s := s.modify page fun p => { p with next := none, totalslice := 1, state := .sleeping }
  let temp ← s.threadlist
  let last ← (s.walk (some temp)).getLast?
  return s.setNext last (some page)

/-- The process ids `user_process` assigns when the first program is loaded. -/
def userProcess : Sched :=
  let s := { s with processcount := 0 }
  match (s.walk s.threadlist).find? fun x => (s.pcb x).state = .running with
  | none => s
  | some process =>
      let s := { s with processcount := s.processcount + 1 }
      s.modify process fun p =>
        { p with pid := s.processcount, ppid := 0, totalslice := MAXSLICE }

/-! ## `sys_fork` -/

/-- The scheduling fields `copy_process` fills in. -/
def copyProcess (page : PcbRef) : Sched :=
  let current := s.currentthread
  let half := (s.pcb current).totalslice.sdiv 2
  let s := s.modify page fun p => { p with state := .sleeping, totalslice := half }
  let s := s.modify current fun p => { p with totalslice := half }
  let s := { s with processcount := s.processcount + 1 }
  s.modify page fun p => { p with pid := s.processcount, ppid := (s.pcb current).pid }

/-- The child is linked in right behind its parent. -/
def sysFork (page : PcbRef) : Pid × Sched :=
  let s := s.copyProcess page
  let temp := s.next s.currentthread
  let s := s.setNext s.currentthread (some page)
  let s := s.setNext page temp
  let s :=
    if (s.pcb s.currentthread).childProcess = none then
      s.modify s.currentthread fun p => { p with childProcess := some page }
    else s
  ((s.pcb page).pid, s)

/-! ## `sys_waitpid` -/

/-- The first loop: the children with this pid are marked; the flag says whether one was found. -/
def markWaited (parentId pid : Pid) : Sched × Bool :=
  (s.walk s.threadlist).foldl
    (fun (s, setwait) x =>
      if (s.pcb x).ppid = parentId ∧ parentId ≠ 0 ∧ (s.pcb x).pid = pid then
        (s.modify x fun p => { p with isWait := true }, true)
      else (s, setwait))
    (s, false)

/-- The second loop: the first entry with this pid is unlinked.  At the head of the list the
source only moves a local variable on. -/
def unlinkThread (pid : Pid) : Sched :=
  match findPrev (fun x => (s.pcb x).pid = pid) none (s.walk s.threadlist) with
  | some (some prev, x) => s.setNext prev (s.next x)
  | _ => s

/-- `sys_waitpid` up to the point where the caller gives the processor up: if a child was marked,
the caller goes over to `blockedlist`. -/
def enterWait (pid : Pid) : Sched :=
  let parentId := (s.pcb s.currentthread).pid
  let s := s.setState s.currentthread .sleeping
  let marked := s.markWaited parentId pid
  let s := marked.1
  if marked.2 then
    let s := s.unlinkThread parentId
    let s := s.setNext s.currentthread s.blockedlist
    { s with blockedlist := some s.currentthread }
  else s

def sysWaitpid (pid : Pid) : Pid × Sched :=
  let s := s.enterWait pid
  let s := s.setState s.currentthread .blocked
  (pid, s.schedule)

/-! ## `thread_on_completion` -/

/-- The first loop: the first RUNNING entry, and what `next` holds when it is found.  `next` is set
behind an entry that was passed, so the loop dereferences NULL at the end of the list. -/
def findRunning : Nat → Option PcbRef → Option PcbRef → Option (Option PcbRef × Option PcbRef)
  | 0, _, _ => none
  | _ + 1, none, next => some (none, next)
  | fuel + 1, some temp, next =>
      if (s.pcb temp).state = .running then some (some temp, next)
      else do
        let temp ← s.next temp
        findRunning fuel (some temp) (s.next temp)

/-- The slice of the current process goes to the entries that have its parent's pid. -/
def addSlices (temp : Option PcbRef) : Sched :=
  (s.walk temp).foldl
    (fun s x =>
      if (s.pcb s.currentthread).ppid = (s.pcb x).pid then
        s.modify x fun p =>
          { p with totalslice := p.totalslice + (s.pcb s.currentthread).totalslice }
      else s)
    s

/-- `another_child`: the first other child of the same parent that has not exited. -/
def anotherChild (temp : PcbRef) : Option PcbRef :=
  (s.walk s.threadlist).find? fun x =>
    (s.pcb x).state ≠ .zombie ∧ temp ≠ x ∧ (s.pcb temp).ppid = (s.pcb x).ppid

/-- Both wake-up loops: the parent of `child` is linked in behind it, in front of `next`, and
`blockedlist` continues behind the parent. -/
def wakeParent (child : PcbRef) (next : Option PcbRef) : Sched :=
  match (s.walk s.blockedlist).find? fun x => (s.pcb x).pid = (s.pcb child).ppid with
  | none => s
  | some parent =>
      let s := { s with blockedlist := s.next parent }
      let s := s.setNext child (some parent)
      s.setNext parent next

def threadOnCompletion : Option Sched := do
  let (temp, next) ← s.findRunning maxPcbs s.threadlist none
  match temp with
  | none => return (s.addSlices s.threadlist).addSlices s.blockedlist
  | some temp =>
      let s := s.setState temp .zombie
      let s := s.addSlices s.threadlist
      let s := s.addSlices s.blockedlist
      if 0 < (s.pcb temp).ppid ∧ (s.pcb temp).isWait = true then
        match s.anotherChild temp with
        | none => return s.wakeParent temp next
        | some child =>
            if (s.pcb child).isWait = true then return s
            else return s.wakeParent child (s.next child)
      else return s

/-! ## `sys_kill` -/

/-- The list part of `sys_kill` for another process: it is looked for in `threadlist` first. -/
def unlinkKilled (pid : Pid) : Sched :=
  match findPrev (fun x => (s.pcb x).pid = pid) none (s.walk s.threadlist) with
  | some (some prev, x) => s.setNext prev (s.next x)
  | some (none, _) => s
  | none =>
      match findPrev (fun x => (s.pcb x).pid = pid) none (s.walk s.blockedlist) with
      | some (some prev, x) => s.setNext prev (s.next x)
      | some (none, x) => { s with blockedlist := s.next x }
      | none => s

/-- `sys_kill`; `answer` is the key typed at the prompt for pid 2. -/
def sysKill (pid : Pid) (sig : Int) (answer : Char) : Option (Int × Sched) :=
  if sig = 9 then
    if pid = 2 ∧ ¬ (answer = 'Y' ∨ answer = 'y') then some (-1, s)
    else if pid = (s.pcb s.currentthread).pid then do
      let s ← s.threadOnCompletion
      return (0, s)
    else some (0, s.unlinkKilled pid)
  else some (0, s)

/-- The state `start` leaves: only the main thread, RUNNING, in a zero-filled page.  `memory` is
what the other pages hold when they are taken. -/
def boot (memory : PcbRef → PCB) (page : PcbRef) : Sched where
  pcb := Function.update memory page { PCB.zero with totalslice := 1 }
  mainthread := page
  threadlist := some page
  currentthread := page
  blockedlist := none
  processcount := 0

end Sched

end OswpKernel
