import OswpKernel.Scheduler.Basic
import Mathlib.Data.List.Nodup

/-!
# Scheduler table — the two lists as lists

What the scheduler is for, without the pointers: a list of the processes that take turns, a list
of those that wait, and for each process its ids, the flag that its parent waits for it, and its
state.  `Refinement` shows that the operations on the linked PCBs compute these.
-/

namespace OswpKernel

open Chain

/-- Distinct PCBs are distinct pages of the lowest 2 GiB. -/
theorem Sched.length_le_maxPcbs {xs : List PcbRef} (hnd : xs.Nodup)
    (hlow : ∀ x ∈ xs, x < Sched.maxPcbs) : xs.length ≤ Sched.maxPcbs := by
  have hsub : xs ⊆ List.range Sched.maxPcbs := fun x hx => List.mem_range.2 (hlow x hx)
  calc
    xs.length ≤ (List.range Sched.maxPcbs).length := (hnd.subperm hsub).length_le
    _ = Sched.maxPcbs := List.length_range

/-- What the table knows of a PCB. -/
structure Proc where
  pid : Pid
  ppid : Pid
  isWait : Bool
  state : ProcState
  deriving DecidableEq, Repr

def PCB.proc (p : PCB) : Proc := ⟨p.pid, p.ppid, p.isWait, p.state⟩

@[ext]
structure Table where
  proc : PcbRef → Proc
  main : PcbRef
  threads : List PcbRef
  blocked : List PcbRef
  current : PcbRef
  count : Pid

namespace Table

variable (T : Table)

def modify (x : PcbRef) (f : Proc → Proc) : Table :=
  { T with proc := Function.update T.proc x (f (T.proc x)) }

def setState (x : PcbRef) (state : ProcState) : Table :=
  T.modify x fun p => { p with state := state }

/-! ## Taking turns -/

def Ready (x : PcbRef) : Prop := (T.proc x).state = .sleeping

instance (x : PcbRef) : Decidable (T.Ready x) := inferInstanceAs (Decidable (_ = _))

/-- The entries `schedule` looks at before it starts over at the head. -/
def ahead : List PcbRef :=
  if (T.proc T.current).state = .blocked then [] else behind T.current T.threads

def pick : PcbRef :=
  ((T.ahead.find? T.Ready).or (T.threads.find? T.Ready)).getD T.main

/-- The state `schedule` leaves the process in that is switched away from. -/
def restState : ProcState :=
  if T.current = T.main then .zombie
  else if (T.proc T.current).state ≠ .zombie then .sleeping
  else .zombie

def schedule : Table :=
  { (T.setState T.current T.restState).setState T.pick .running with current := T.pick }

/-! ## New entries -/

def createThread (page : PcbRef) : Table :=
  { T.modify page fun _ => ⟨0, 0, false, .sleeping⟩ with threads := T.threads ++ [page] }

def userProcess : Table :=
  { T.modify T.current fun p => { p with pid := 1, ppid := 0 } with count := 1 }

/-- The mark of the new process is the one its page held. -/
def fork (page : PcbRef) : Table :=
  { T.modify page fun p => ⟨T.count + 1, (T.proc T.current).pid, p.isWait, .sleeping⟩ with
    threads := insertAfter T.current page T.threads
    count := T.count + 1 }

/-! ## Waiting -/

/-- `x` is an entry of `threads` that a `waitpid` of the current process on `pid` marks. -/
def WaitTarget (pid : Pid) (x : PcbRef) : Prop :=
  x ∈ T.threads ∧ (T.proc x).ppid = (T.proc T.current).pid ∧ (T.proc T.current).pid ≠ 0 ∧
    (T.proc x).pid = pid

instance (pid : Pid) (x : PcbRef) : Decidable (T.WaitTarget pid x) :=
  inferInstanceAs (Decidable (_ ∧ _))

def marked (pid : Pid) : Table :=
  { T with
    proc := fun x => if T.WaitTarget pid x then { T.proc x with isWait := true } else T.proc x }

/-- The current process moves over to `blocked` if it has such a child there. -/
def enterWait (pid : Pid) : Table :=
  if ∃ x ∈ T.threads, T.WaitTarget pid x then
    { T.marked pid with
      threads := T.threads.erase T.current
      blocked := T.current :: T.blocked }
  else T

def waitpid (pid : Pid) : Table := ((T.enterWait pid).setState T.current .blocked).schedule

/-- The parent of `child` goes back to `threads`, right behind `child`; the entries of `blocked` in
front of it are dropped. -/
def wake (child : PcbRef) : Table :=
  match T.blocked.dropWhile fun x => (T.proc x).pid ≠ (T.proc child).ppid with
  | [] => T
  | parent :: rest => { T with threads := insertAfter child parent T.threads, blocked := rest }

/-- The first other child of the same parent in `threads` that has not exited. -/
def sibling (x : PcbRef) : Option PcbRef :=
  T.threads.find? fun y => (T.proc y).state ≠ .zombie ∧ x ≠ y ∧ (T.proc x).ppid = (T.proc y).ppid

/-- What the exit of a process that is waited for does to the waiting parent. -/
def notify (x : PcbRef) : Table :=
  match T.sibling x with
  | none => T.wake x
  | some y => if (T.proc y).isWait = true then T else T.wake y

def exit : Table :=
  let T' := T.setState T.current .zombie
  if 0 < (T.proc T.current).ppid ∧ (T.proc T.current).isWait = true then T'.notify T.current
  else T'

/-! ## Killing another process -/

def HasPid (pid : Pid) (x : PcbRef) : Prop := (T.proc x).pid = pid

instance (pid : Pid) (x : PcbRef) : Decidable (T.HasPid pid x) :=
    inferInstanceAs (Decidable (_ = _))

def killOther (pid : Pid) : Table :=
  match T.threads.find? (T.HasPid pid) with
  | some x => if x = T.main then T else { T with threads := T.threads.erase x }
  | none =>
      match T.blocked.find? (T.HasPid pid) with
      | some x => { T with blocked := T.blocked.erase x }
      | none => T

def kill (pid : Pid) (sig : Int) (answer : Char) : Table :=
  if sig = 9 then
    if pid = 2 ∧ ¬ (answer = 'Y' ∨ answer = 'y') then T
    else if pid = (T.proc T.current).pid then T.exit
    else T.killOther pid
  else T

/-! ## What the operations leave alone -/

theorem setState_proc (x y : PcbRef) (state : ProcState) :
    (T.setState x state).proc y =
      if y = x then { T.proc x with state := state } else T.proc y := by
  by_cases h : y = x
  · subst h
    simp [setState, modify]
  · simp [setState, modify, h]

@[simp] theorem setState_pid (x y : PcbRef) (state : ProcState) :
    ((T.setState x state).proc y).pid = (T.proc y).pid := by
  rw [setState_proc]
  split_ifs with h
  · rw [h]
  · rfl

@[simp] theorem setState_ppid (x y : PcbRef) (state : ProcState) :
    ((T.setState x state).proc y).ppid = (T.proc y).ppid := by
  rw [setState_proc]
  split_ifs with h
  · rw [h]
  · rfl

@[simp] theorem setState_isWait (x y : PcbRef) (state : ProcState) :
    ((T.setState x state).proc y).isWait = (T.proc y).isWait := by
  rw [setState_proc]
  split_ifs with h
  · rw [h]
  · rfl

theorem setState_state (x y : PcbRef) (state : ProcState) :
    ((T.setState x state).proc y).state = if y = x then state else (T.proc y).state := by
  rw [setState_proc]
  split_ifs <;> rfl

@[simp] theorem setState_threads (x : PcbRef) (state : ProcState) :
    (T.setState x state).threads = T.threads := rfl

@[simp] theorem setState_blocked (x : PcbRef) (state : ProcState) :
    (T.setState x state).blocked = T.blocked := rfl

@[simp] theorem setState_current (x : PcbRef) (state : ProcState) :
    (T.setState x state).current = T.current := rfl

@[simp] theorem setState_main (x : PcbRef) (state : ProcState) :
    (T.setState x state).main = T.main := rfl

@[simp] theorem setState_count (x : PcbRef) (state : ProcState) :
    (T.setState x state).count = T.count := rfl

@[simp] theorem schedule_pid (x : PcbRef) : (T.schedule.proc x).pid = (T.proc x).pid := by
  simp [schedule]

@[simp] theorem schedule_ppid (x : PcbRef) : (T.schedule.proc x).ppid = (T.proc x).ppid := by
  simp [schedule]

@[simp] theorem schedule_isWait (x : PcbRef) : (T.schedule.proc x).isWait = (T.proc x).isWait := by
  simp [schedule]

@[simp] theorem schedule_threads : T.schedule.threads = T.threads := rfl

@[simp] theorem schedule_blocked : T.schedule.blocked = T.blocked := rfl

@[simp] theorem schedule_main : T.schedule.main = T.main := rfl

@[simp] theorem schedule_count : T.schedule.count = T.count := rfl

@[simp] theorem schedule_current : T.schedule.current = T.pick := rfl

theorem schedule_state (x : PcbRef) :
    (T.schedule.proc x).state =
      if x = T.pick then .running else if x = T.current then T.restState
      else (T.proc x).state := by
  change (((T.setState T.current T.restState).setState T.pick .running).proc x).state = _
  rw [setState_state, setState_state]

theorem waitTarget_setState (pid : Pid) (x : PcbRef) {y : PcbRef} {state : ProcState} :
    (T.setState y state).WaitTarget pid x ↔ T.WaitTarget pid x := by
  simp [WaitTarget]

@[simp] theorem marked_pid (pid : Pid) (x : PcbRef) :
    ((T.marked pid).proc x).pid = (T.proc x).pid := by
  simp only [marked]
  split_ifs <;> rfl

@[simp] theorem marked_ppid (pid : Pid) (x : PcbRef) :
    ((T.marked pid).proc x).ppid = (T.proc x).ppid := by
  simp only [marked]
  split_ifs <;> rfl

@[simp] theorem marked_state (pid : Pid) (x : PcbRef) :
    ((T.marked pid).proc x).state = (T.proc x).state := by
  simp only [marked]
  split_ifs <;> rfl

@[simp] theorem enterWait_pid (pid : Pid) (x : PcbRef) :
    ((T.enterWait pid).proc x).pid = (T.proc x).pid := by
  rw [enterWait]
  split_ifs
  · exact T.marked_pid pid x
  · rfl

@[simp] theorem enterWait_ppid (pid : Pid) (x : PcbRef) :
    ((T.enterWait pid).proc x).ppid = (T.proc x).ppid := by
  rw [enterWait]
  split_ifs
  · exact T.marked_ppid pid x
  · rfl

@[simp] theorem enterWait_state (pid : Pid) (x : PcbRef) :
    ((T.enterWait pid).proc x).state = (T.proc x).state := by
  rw [enterWait]
  split_ifs
  · exact T.marked_state pid x
  · rfl

@[simp] theorem enterWait_current (pid : Pid) : (T.enterWait pid).current = T.current := by
  rw [enterWait]
  split_ifs <;> rfl

@[simp] theorem enterWait_main (pid : Pid) : (T.enterWait pid).main = T.main := by
  rw [enterWait]
  split_ifs <;> rfl

@[simp] theorem waitpid_pid (pid : Pid) (x : PcbRef) :
    ((T.waitpid pid).proc x).pid = (T.proc x).pid := by
  simp [waitpid]

@[simp] theorem waitpid_ppid (pid : Pid) (x : PcbRef) :
    ((T.waitpid pid).proc x).ppid = (T.proc x).ppid := by
  simp [waitpid]

@[simp] theorem wake_proc (x : PcbRef) : (T.wake x).proc = T.proc := by
  rw [wake]
  split <;> rfl

@[simp] theorem wake_main (x : PcbRef) : (T.wake x).main = T.main := by
  rw [wake]
  split <;> rfl

@[simp] theorem wake_current (x : PcbRef) : (T.wake x).current = T.current := by
  rw [wake]
  split <;> rfl

@[simp] theorem wake_count (x : PcbRef) : (T.wake x).count = T.count := by
  rw [wake]
  split <;> rfl

/-- An entry with another one in front of it is not the main thread. -/
theorem ne_main_of_split {T : Table} (hnd : (T.threads ++ T.blocked).Nodup)
    (hhead : T.threads.head? = some T.main) {ys zs : List PcbRef} {prev x : PcbRef}
    (hsplit : T.threads = ys ++ prev :: x :: zs) : x ≠ T.main := by
  rintro rfl
  have hndthreads := (List.nodup_append.1 hnd).1
  rw [hsplit, List.append_cons] at hndthreads hhead
  have hfront : T.main ∈ ys ++ [prev] := by
    cases ys with
    | nil => simpa using hhead.symm
    | cons y ys => simpa using Or.inl hhead.symm
  exact (List.nodup_append.1 hndthreads).2.2 _ hfront _ (by simp) rfl

/-! ## The invariant -/

/-- What holds of the lists and the ids throughout.  `pages` are the PCB pages allocated so far. -/
structure Core (T : Table) (pages : List PcbRef) : Prop where
  nodup : (T.threads ++ T.blocked).Nodup
  head : T.threads.head? = some T.main
  listed : ∀ x ∈ T.threads ++ T.blocked, x ∈ pages
  main_pid : (T.proc T.main).pid = 0
  main_ppid : (T.proc T.main).ppid = 0
  pid_le : ∀ x ∈ pages, (T.proc x).pid ≤ T.count
  ppid_le : ∀ x ∈ pages, (T.proc x).ppid ≤ T.count
  pid_inj : ∀ x ∈ pages, ∀ y ∈ pages, (T.proc x).pid = (T.proc y).pid →
    (T.proc x).pid ≠ 0 → x = y
  main_unmarked : (T.proc T.main).isWait = false
  rootless : ∀ x ∈ pages, (T.proc x).pid = 0 → (T.proc x).ppid = 0
  count_le : T.count.toNat ≤ pages.length
  pages_nodup : pages.Nodup
  pages_low : ∀ x ∈ pages, x < Sched.maxPcbs

/-- At most the current process is RUNNING. -/
def OneRunning (T : Table) : Prop :=
  ∀ x ∈ T.threads ++ T.blocked, (T.proc x).state = .running → x = T.current

/-- What holds in every state between two operations.  `spinning` says that the current process
has exited and idles until the next `schedule`. -/
structure Valid (T : Table) (pages : List PcbRef) (spinning : Bool) : Prop
    extends Core T pages where
  current : T.current ∈ T.threads
  running : T.OneRunning
  turn : (T.proc T.current).state = if spinning then .zombie else .running

namespace Core

variable {T} {pages : List PcbRef} {x : PcbRef}

theorem length_pages_le (h : T.Core pages) : pages.length ≤ Sched.maxPcbs :=
  Sched.length_le_maxPcbs h.pages_nodup h.pages_low

theorem length_le (h : T.Core pages) :
    (T.threads ++ T.blocked).length ≤ Sched.maxPcbs :=
  (h.nodup.subperm h.listed).length_le.trans h.length_pages_le

/-- One more process id still fits. -/
theorem toNat_count_succ (h : T.Core pages) :
    (T.count + 1).toNat = T.count.toNat + 1 := by
  have hpages := h.length_pages_le
  have hcount := h.count_le
  have hmax : Sched.maxPcbs = 524288 := by decide
  rw [BitVec.toNat_add]
  change (T.count.toNat + 1) % 2 ^ 32 = T.count.toNat + 1
  omega

theorem count_succ_ne_zero (h : T.Core pages) : T.count + 1 ≠ 0 := by
  intro hzero
  have hsucc := h.toNat_count_succ
  rw [hzero] at hsucc
  exact Nat.succ_ne_zero _ hsucc.symm

theorem main_mem (h : T.Core pages) : T.main ∈ T.threads :=
  List.mem_of_mem_head? (by rw [h.head]; rfl)

theorem notMem_threads (h : T.Core pages) (hx : x ∈ T.blocked) : x ∉ T.threads :=
  fun hx' => (List.nodup_append.1 h.nodup).2.2 x hx' x hx rfl

end Core

end Table

end OswpKernel
