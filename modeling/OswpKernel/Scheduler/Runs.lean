import OswpKernel.Scheduler.Refinement
import OswpKernel.Scheduler.Validity
import OswpKernel.Lib.Execution

/-!
# Scheduler runs — the two lists in every reachable state

A run starts with the main thread alone and interleaves `schedule` (the timer may call it at any
moment), `create_thread`, the start of the first user process, `sys_fork`, `sys_waitpid`, process
exit and `sys_kill` in any order.  A process that has exited idles in `while(1)` until the next
`schedule`; the flag `spinning` keeps track of that, and `pages` of the PCB pages in use.

* `scheduler_invariant`: both lists are well formed, and only the current process is RUNNING.
-/

namespace OswpKernel

open Chain Execution

namespace Sched

inductive Event
  | schedule
  | createThread (page : PcbRef)
  | userProcess
  | fork (page : PcbRef)
  | waitpid (pid : Pid)
  | exit
  | kill (pid : Pid) (sig : Int) (answer : Char)
  deriving DecidableEq, Repr

/-- The scheduler with the PCB pages allocated so far. -/
structure System where
  sched : Sched
  pages : List PcbRef
  spinning : Bool

/-- The call ends in `thread_on_completion`: the caller kills itself. -/
def KillsSelf (self pid : Pid) (sig : Int) (answer : Char) : Prop :=
  sig = 9 ∧ ¬ (pid = 2 ∧ ¬ (answer = 'Y' ∨ answer = 'y')) ∧ pid = self

instance (self pid : Pid) (sig : Int) (answer : Char) : Decidable (KillsSelf self pid sig answer) :=
  inferInstanceAs (Decidable (_ ∧ _))

/-- The process id of the current process. -/
def currentPid (s : Sched) : Pid := (s.pcb s.currentthread).pid

def System.exec (σ : System) : Event → Option System
  | .schedule => some { σ with sched := σ.sched.schedule, spinning := false }
  | .createThread page => do
      let s ← σ.sched.createThread page
      return { σ with sched := s, pages := page :: σ.pages }
  | .userProcess => some { σ with sched := σ.sched.userProcess }
  | .fork page => some { σ with sched := (σ.sched.sysFork page).2, pages := page :: σ.pages }
  | .waitpid pid => some { σ with sched := (σ.sched.sysWaitpid pid).2 }
  | .exit => do
      let s ← σ.sched.threadOnCompletion
      return { σ with sched := s, spinning := true }
  | .kill pid sig answer => do
      let (_, s) ← σ.sched.sysKill pid sig answer
      return { σ with sched := s, spinning := KillsSelf σ.sched.currentPid pid sig answer }

/-- A page a PCB can be put in, whatever it holds. -/
def Fresh (σ : System) (page : PcbRef) : Prop := page < maxPcbs ∧ page ∉ σ.pages

/-- A process that spins only loses the processor.  `user_process` runs in a thread of its own,
before any process forks.  The pages of the kernel's threads hold no ids and no mark. -/
def Enabled (σ : System) : Event → Prop
  | .schedule => True
  | .createThread page => σ.spinning = false ∧ Fresh σ page ∧ (σ.sched.pcb page).Blank
  | .userProcess => σ.spinning = false ∧ σ.sched.processcount = 0 ∧
      σ.sched.currentthread ≠ σ.sched.mainthread
  | .fork page => σ.spinning = false ∧ Fresh σ page
  | .waitpid _ => σ.spinning = false
  | .exit => σ.spinning = false
  | .kill _ _ _ => σ.spinning = false

instance (σ : System) (page : PcbRef) : Decidable (Fresh σ page) :=
  inferInstanceAs (Decidable (_ ∧ _))

instance (σ : System) (e : Event) : Decidable (Enabled σ e) :=
  match e with
  | .schedule => inferInstanceAs (Decidable True)
  | .createThread _ => inferInstanceAs (Decidable (_ ∧ _ ∧ _))
  | .userProcess => inferInstanceAs (Decidable (_ ∧ _))
  | .fork _ => inferInstanceAs (Decidable (_ ∧ _))
  | .waitpid _ => inferInstanceAs (Decidable (_ = _))
  | .exit => inferInstanceAs (Decidable (_ = _))
  | .kill _ _ _ => inferInstanceAs (Decidable (_ = _))

/-- The state `start` leaves, with the main thread's PCB at `page`. -/
def System.boot (memory : PcbRef → PCB) (page : PcbRef) : System :=
  ⟨Sched.boot memory page, [page], false⟩

/-! ## The table along a run -/

/-- Pages that hold zeros. -/
def zeroFilled : PcbRef → PCB := fun _ => PCB.zero

/-- What an event does to the table. -/
def tableStep (T : Table) : Event → Table
  | .schedule => T.schedule
  | .createThread page => T.createThread page
  | .userProcess => T.userProcess
  | .fork page => T.fork page
  | .waitpid pid => T.waitpid pid
  | .exit => T.exit
  | .kill pid sig answer => T.kill pid sig answer

/-- The table of the initial state. -/
def bootTable (memory : PcbRef → PCB) (page : PcbRef) : Table where
  proc := fun x => if x = page then PCB.zero.proc else (memory x).proc
  main := page
  threads := [page]
  blocked := []
  current := page
  count := 0

theorem bootTable_proc (memory : PcbRef → PCB) {page x : PcbRef} (hx : x ∈ [page]) :
    (bootTable memory page).proc x = PCB.zero.proc :=
  if_pos (List.mem_singleton.1 hx)

/-- The PCBs carry the table `T`, and the table is valid. -/
structure Tracks (σ : System) (T : Table) : Prop where
  represents : Represents σ.sched T
  valid : T.Valid σ.pages σ.spinning

theorem boot_tracks (memory : PcbRef → PCB) {page : PcbRef} (hpage : page < maxPcbs) :
    Tracks (System.boot memory page) (bootTable memory page) where
  represents :=
    { proc := by
        intro x
        by_cases hx : x = page
        · subst hx
          simp [System.boot, Sched.boot, bootTable, PCB.proc, PCB.zero]
        · simp [System.boot, Sched.boot, bootTable, hx]
      main := rfl
      threads := by simp [System.boot, Sched.boot, bootTable, next, PCB.zero]
      blocked := rfl
      current := rfl
      count := rfl }
  valid :=
    { nodup := by simp [bootTable]
      head := rfl
      listed := by simp [bootTable, System.boot]
      main_pid := congrArg Proc.pid (bootTable_proc memory (List.mem_singleton_self page))
      main_ppid := congrArg Proc.ppid (bootTable_proc memory (List.mem_singleton_self page))
      pid_le := fun x hx => by
        rw [bootTable_proc memory hx]
        exact BitVec.le_refl _
      ppid_le := fun x hx => by
        rw [bootTable_proc memory hx]
        exact BitVec.le_refl _
      pid_inj := fun x hx y _ _ hne =>
        absurd (congrArg Proc.pid (bootTable_proc memory hx)) hne
      main_unmarked :=
        congrArg Proc.isWait (bootTable_proc memory (List.mem_singleton_self page))
      rootless := fun x hx _ => congrArg Proc.ppid (bootTable_proc memory hx)
      count_le := Nat.zero_le _
      pages_nodup := by simp [System.boot]
      pages_low := by simpa [System.boot] using hpage
      current := by simp [bootTable]
      running := by simp [Table.OneRunning, bootTable]
      turn := congrArg Proc.state (bootTable_proc memory (List.mem_singleton_self page)) }

/-- Every event that is enabled completes, and does to the table what `tableStep` says. -/
theorem Tracks.exec {σ : System} {T : Table} (h : Tracks σ T) {e : Event} (he : Enabled σ e) :
    ∃ σ', σ.exec e = some σ' ∧ Tracks σ' (tableStep T e) := by
  have hv := h.valid
  have hT : Bounded T := hv.length_le
  cases e with
  | schedule =>
      exact ⟨_, rfl, h.represents.schedule hT (Or.inl hv.current),
        Table.schedule_valid hv.toCore hv.running⟩
  | createThread page =>
      rcases he with ⟨hspin, ⟨hlow, hpage⟩, hblank⟩
      rw [hspin] at hv
      rcases h.represents.createThread hT hv.nodup (List.ne_nil_of_mem hv.current)
        (hv.fresh hpage) hblank with ⟨s', hs', h'⟩
      refine ⟨⟨s', page :: σ.pages, σ.spinning⟩, by simp [System.exec, hs'], h', ?_⟩
      rw [hspin]
      exact Table.createThread_valid hv hpage hlow
  | userProcess =>
      rcases he with ⟨hspin, hcount, hmain⟩
      rw [hspin] at hv
      refine ⟨_, rfl, h.represents.userProcess hv, ?_⟩
      change T.userProcess.Valid σ.pages σ.spinning
      rw [hspin]
      rw [h.represents.count] at hcount
      rw [h.represents.current, h.represents.main] at hmain
      exact Table.userProcess_valid hv hcount hmain
  | fork page =>
      rcases he with ⟨hspin, hlow, hpage⟩
      rw [hspin] at hv
      refine ⟨_, rfl, (h.represents.sysFork hv.nodup (hv.fresh hpage) hv.current).1, ?_⟩
      change (T.fork page).Valid (page :: σ.pages) σ.spinning
      rw [hspin]
      exact Table.fork_valid hv hpage hlow
  | waitpid pid =>
      refine ⟨_, rfl, h.represents.sysWaitpid hv pid, ?_⟩
      change (T.waitpid pid).Valid σ.pages σ.spinning
      rw [show σ.spinning = false from he]
      exact Table.waitpid_valid hv pid
  | exit =>
      rw [show σ.spinning = false from he] at hv
      rcases h.represents.threadOnCompletion hv with ⟨s', hs', h'⟩
      exact ⟨⟨s', σ.pages, true⟩, by simp [System.exec, hs'], h', Table.exit_valid hv⟩
  | kill pid sig answer =>
      rw [show σ.spinning = false from he] at hv
      rcases h.represents.sysKill hv pid sig answer with ⟨r, s', hs', h'⟩
      refine ⟨⟨s', σ.pages, KillsSelf σ.sched.currentPid pid sig answer⟩,
        by simp [System.exec, hs'], h', ?_⟩
      -- whether the process kills itself is decided by the pid the table has for it
      have hself : σ.sched.currentPid = (T.proc T.current).pid := by
        rw [currentPid, h.represents.current, h.represents.pid]
      change (T.kill pid sig answer).Valid σ.pages
        (KillsSelf σ.sched.currentPid pid sig answer)
      rw [hself, Table.kill]
      -- signal, refusal and own pid: only the process itself exits, and spins
      split_ifs with hsig hrefused hpid
      · have hno : ¬ KillsSelf (T.proc T.current).pid pid sig answer := fun hk => hk.2.1 hrefused
        simpa [hno] using hv
      · have hyes : KillsSelf (T.proc T.current).pid pid sig answer := ⟨hsig, hrefused, hpid⟩
        simpa [hyes] using Table.exit_valid hv
      · have hno : ¬ KillsSelf (T.proc T.current).pid pid sig answer := fun hk => hpid hk.2.2
        simpa [hno] using Table.killOther_valid hv hpid
      · have hno : ¬ KillsSelf (T.proc T.current).pid pid sig answer := fun hk => hsig hk.1
        simpa [hno] using hv

section Runs

variable {memory : PcbRef → PCB} {page : PcbRef} {es : List Event} {σ : System}

theorem run_tracks (hpage : page < maxPcbs)
    (hrun : Run System.exec Enabled (System.boot memory page) es σ) :
    ∃ T, Tracks σ T := by
  refine hrun.invariant (fun σ => ∃ T, Tracks σ T) ⟨_, boot_tracks memory hpage⟩ ?_
  rintro σ e σ' ⟨T, h⟩ he hstep
  rcases h.exec he with ⟨σ'', hσ'', h'⟩
  rw [hstep] at hσ''
  cases hσ''
  exact ⟨_, h'⟩

/-- The scheduler's structure in a state, spelled out on the PCBs. -/
structure SchedulerShape (σ : System) (ts bs : List PcbRef) : Prop where
  /-- Both lists are NULL-terminated. -/
  threads : Seg σ.sched.next σ.sched.threadlist ts none
  blocked : Seg σ.sched.next σ.sched.blockedlist bs none
  /-- They contain no PCB twice and share none. -/
  threads_nodup : ts.Nodup
  blocked_nodup : bs.Nodup
  disjoint : ∀ x ∈ ts, x ∉ bs
  /-- The main thread heads `threadlist`, and the current process is on it. -/
  main : σ.sched.threadlist = some σ.sched.mainthread
  current : σ.sched.currentthread ∈ ts
  /-- At most one entry is RUNNING, and it can only be the current process. -/
  running : ∀ x ∈ ts, (σ.sched.pcb x).state = .running → x = σ.sched.currentthread
  /-- Right after `schedule`, called by the timer or by `sys_waitpid`, it is RUNNING. -/
  afterSchedule : (σ.sched.schedule.pcb σ.sched.schedule.currentthread).state = .running
  afterWaitpid : ∀ pid, ((σ.sched.sysWaitpid pid).2.pcb
    (σ.sched.sysWaitpid pid).2.currentthread).state = .running
  /-- Every event that is enabled completes. -/
  progress : ∀ e, Enabled σ e → (σ.exec e).isSome

/-- A valid table whose current process does not spin has it RUNNING. -/
theorem Represents.current_running {s : Sched} {T : Table} {pages : List PcbRef}
    (h : Represents s T) (hv : T.Valid pages false) :
    (s.pcb s.currentthread).state = .running := by
  rw [h.current, h.state]
  exact hv.turn

theorem Tracks.shape {T : Table} (h : Tracks σ T) : SchedulerShape σ T.threads T.blocked := by
  have hv := h.valid
  have hnd := List.nodup_append.1 hv.nodup
  have hschedule := h.represents.schedule hv.length_le (Or.inl hv.current)
  refine
    { threads := h.represents.threads
      blocked := h.represents.blocked
      threads_nodup := hnd.1
      blocked_nodup := hnd.2.1
      disjoint := fun x hx hx' => hnd.2.2 x hx x hx' rfl
      main := ?_
      current := ?_
      running := ?_
      afterSchedule := hschedule.current_running (Table.schedule_valid hv.toCore hv.running)
      afterWaitpid := fun pid =>
        (h.represents.sysWaitpid hv pid).current_running (Table.waitpid_valid hv pid)
      progress := ?_ }
  · have hseg := h.represents.threads
    have hhead := hv.head
    cases hthreads : T.threads with
    | nil => simp [hthreads] at hhead
    | cons x xs =>
        rw [hthreads] at hseg hhead
        rw [hseg.start_of_cons, h.represents.main, Option.some.inj hhead]
  · rw [h.represents.current]
    exact hv.current
  · intro x hx hstate
    rw [h.represents.state] at hstate
    rw [h.represents.current]
    exact hv.running x (List.mem_append_left _ hx) hstate
  · intro e he
    rcases h.exec he with ⟨σ', hσ', -⟩
    simp [hσ']

/-- The structure of the two lists in every reachable state. -/
theorem scheduler_invariant (hpage : page < maxPcbs)
    (hrun : Run System.exec Enabled (System.boot memory page) es σ) :
    ∃ ts bs, SchedulerShape σ ts bs := by
  rcases run_tracks hpage hrun with ⟨T, h⟩
  exact ⟨_, _, h.shape⟩

end Runs

/-- The invariant on a run in which the first process forks, waits for its child, and is woken when
the child exits. -/
theorem scheduler_invariant_forkWait :
    ∃ σ ts bs, Run System.exec Enabled (System.boot zeroFilled 0)
      [.createThread 1, .schedule, .userProcess, .fork 2, .waitpid 2, .exit, .schedule] σ ∧
      SchedulerShape σ ts bs := by
  have hsome : (replay System.exec Enabled
      [.createThread 1, .schedule, .userProcess, .fork 2, .waitpid 2, .exit, .schedule]
      (System.boot zeroFilled 0)).isSome := by decide +kernel
  rcases Option.isSome_iff_exists.1 hsome with ⟨σ, hσ⟩
  have hrun := run_of_replay hσ
  rcases scheduler_invariant (by decide) hrun with ⟨ts, bs, hshape⟩
  exact ⟨σ, ts, bs, hrun, hshape⟩

end Sched

end OswpKernel
