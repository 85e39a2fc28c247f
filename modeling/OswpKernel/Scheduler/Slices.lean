import OswpKernel.Scheduler.Steps
import OswpKernel.Lib.Budget
import Mathlib.Algebra.Order.Ring.Int

/-!
# Scheduler slices — the time of the user processes (`sys/contextswitch.c`, `sys/idt.c`)

`user_process` gives the first program `MAXSLICE` ticks.  `sys_fork` splits the slice of the caller
with its child, and an exit passes the slice on to the parent.  The timer interrupt counts the ticks
of the current process in `elapsed` and calls `schedule` when its slice is used up.

* `time_slices_bounded`: the slices of the user processes that have not exited are a `Budget` of
  `MAXSLICE`, and the timer takes the processor from a user process within `MAXSLICE` ticks.
-/

namespace OswpKernel

open Chain Execution

/-! ## User processes -/

namespace Table

variable {T : Table} {x : PcbRef}

/-- A user process that has not exited.  The threads of the kernel have pid 0. -/
def Live (T : Table) (x : PcbRef) : Prop := (T.proc x).pid ≠ 0 ∧ (T.proc x).state ≠ .zombie

instance (T : Table) (x : PcbRef) : Decidable (T.Live x) := inferInstanceAs (Decidable (_ ∧ _))

def users (T : Table) : Finset PcbRef := ((T.threads ++ T.blocked).filter T.Live).toFinset

theorem mem_users : x ∈ T.users ↔ x ∈ T.threads ++ T.blocked ∧ T.Live x := by
  rw [users, List.mem_toFinset, List.mem_filter, decide_eq_true_iff]

end Table

namespace Sched

variable {s s' : Sched} {T : Table} {pages : List PcbRef} {spinning : Bool} {x y : PcbRef}
  {e : Event}

/-! ## What each operation does to the slices -/

/-- The slices of all PCBs. -/
def slices (s : Sched) (x : PcbRef) : BitVec 32 := (s.pcb x).totalslice

theorem slices_modify (s : Sched) (x : PcbRef) {f : PCB → PCB}
    (hf : ∀ p, (f p).totalslice = p.totalslice) : (s.modify x f).slices = s.slices := by
  funext y
  rw [slices, modify_pcb]
  split_ifs with hy
  · rw [hf, hy, slices]
  · rfl

@[simp] theorem slices_setNext (s : Sched) (x : PcbRef) (link : Option PcbRef) :
    (s.setNext x link).slices = s.slices :=
  s.slices_modify x fun _ => rfl

@[simp] theorem slices_setState (s : Sched) (x : PcbRef) (state : ProcState) :
    (s.setState x state).slices = s.slices :=
  s.slices_modify x fun _ => rfl

theorem slices_schedule (s : Sched) : s.schedule.slices = s.slices := by
  have hrest : ∀ next : PcbRef,
      ((if s.currentthread = s.mainthread then s.setState s.currentthread .zombie
        else if (s.pcb s.currentthread).state ≠ .zombie then s.setState s.currentthread .sleeping
        else s).setState next .running).slices = s.slices := by
    intro next
    rw [slices_setState]
    split_ifs
    · exact slices_setState _ _ _
    · exact slices_setState _ _ _
    · rfl
  exact hrest _

theorem slices_markLoop (parentId pid : Pid) (xs : List PcbRef) (start : Sched × Bool) :
    (markLoop parentId pid xs start).1.slices = start.1.slices := by
  induction xs generalizing start with
  | nil => rfl
  | cons x xs ih =>
      by_cases hx : start.1.Marks parentId pid x
      · rw [markLoop_cons_pos hx, ih]
        exact start.1.slices_modify x (f := fun p => { p with isWait := true }) fun _ => rfl
      · rw [markLoop_cons_neg hx, ih]

theorem slices_unlinkThread (s : Sched) (pid : Pid) : (s.unlinkThread pid).slices = s.slices := by
  rw [unlinkThread]
  split
  · exact slices_setNext _ _ _
  · rfl

theorem slices_sysWaitpid (s : Sched) (pid : Pid) : (s.sysWaitpid pid).2.slices = s.slices := by
  have hmarked : ((s.setState s.currentthread .sleeping).markWaited
      (s.pcb s.currentthread).pid pid).1.slices = s.slices :=
    (slices_markLoop _ _ _ _).trans (slices_setState _ _ _)
  change (((s.enterWait pid).setState _ .blocked).schedule).slices = _
  rw [slices_schedule, slices_setState, enterWait]
  dsimp only
  split_ifs
  · change ((Sched.unlinkThread _ _).setNext _ _).slices = _
    rw [slices_setNext, slices_unlinkThread, hmarked]
  · exact hmarked

theorem slices_unlinkKilled (s : Sched) (pid : Pid) : (s.unlinkKilled pid).slices = s.slices := by
  rw [unlinkKilled]
  split
  · exact slices_setNext _ _ _
  · rfl
  · split
    · exact slices_setNext _ _ _
    · rfl
    · rfl

theorem slices_wakeParent (s : Sched) (child : PcbRef) (next : Option PcbRef) :
    (s.wakeParent child next).slices = s.slices := by
  rw [wakeParent]
  split
  · rfl
  · rw [slices_setNext, slices_setNext]
    rfl

theorem slices_createThread {page : PcbRef} (hstep : s.createThread page = some s')
    (hx : x ≠ page) : s'.slices x = s.slices x := by
  rcases Option.bind_eq_some_iff.1 hstep with ⟨temp, -, hstep⟩
  rcases Option.bind_eq_some_iff.1 hstep with ⟨last, -, hstep⟩
  rw [← Option.some.inj hstep, slices_setNext]
  simp [slices, modify_pcb, hx]

/-- The parent and its child both get half of the slice, rounded towards 0. -/
theorem slices_sysFork (s : Sched) {page : PcbRef} (hne : s.currentthread ≠ page) (x : PcbRef) :
    (s.sysFork page).2.slices x =
      if x = page ∨ x = s.currentthread then (s.slices s.currentthread).sdiv 2
      else s.slices x := by
  let s₁ : Sched := s.copyProcess page
  have hlast : (s.sysFork page).2.slices = s₁.slices := by
    change (if _ then _ else _ : Sched).slices = _
    split_ifs
    · refine (slices_modify _ _ ?_).trans ?_
      · exact fun _ => rfl
      · rw [slices_setNext, slices_setNext]
    · rw [slices_setNext, slices_setNext]
  rw [hlast]
  by_cases hx : x = page
  · simp [s₁, slices, copyProcess, modify, hx, hne, Ne.symm hne]
  · by_cases hcurrent : x = s.currentthread
    · simp [s₁, slices, copyProcess, modify, hcurrent, hne]
    · simp [s₁, slices, copyProcess, modify, hx, hcurrent]

/-! ## The exit -/

/-- What `addSlices` does to the slices: those of the heirs among `xs` grow by the giver's. -/
def donate (heir : PcbRef → Bool) (giver : PcbRef) (slice : PcbRef → BitVec 32)
    (xs : List PcbRef) : PcbRef → BitVec 32 :=
  xs.foldl (fun f x => if heir x then Function.update f x (f x + f giver) else f) slice

section Donate

variable {heir : PcbRef → Bool} {giver : PcbRef} {slice : PcbRef → BitVec 32} {xs : List PcbRef}

theorem donate_cons (y : PcbRef) (ys : List PcbRef) :
    donate heir giver slice (y :: ys) = donate heir giver
      (if heir y then Function.update slice y (slice y + slice giver) else slice) ys := rfl

theorem donate_append (xs ys : List PcbRef) :
    donate heir giver slice (xs ++ ys) = donate heir giver (donate heir giver slice xs) ys :=
  List.foldl_append

theorem donate_of_not_heir (hx : heir x = false) : donate heir giver slice xs x = slice x := by
  induction xs generalizing slice with
  | nil => rfl
  | cons y ys ih =>
      rw [donate_cons, ih]
      split_ifs with hy
      · refine Function.update_of_ne ?_ _ _
        rintro rfl
        rw [hx] at hy
        cases hy
      · rfl

/-- The giver is not among its heirs, so each gets the slice the giver had. -/
theorem donate_apply (hgiver : heir giver = false) (hnd : xs.Nodup) :
    donate heir giver slice xs x =
      if x ∈ xs ∧ heir x = true then slice x + slice giver else slice x := by
  induction xs generalizing slice with
  | nil => simp [donate]
  | cons y ys ih =>
      rcases List.nodup_cons.1 hnd with ⟨hy, hnd⟩
      rw [donate_cons, ih hnd]
      by_cases hheir : heir y = true
      · have hne : giver ≠ y := by
          rintro rfl
          rw [hgiver] at hheir
          cases hheir
        rw [if_pos hheir, Function.update_of_ne hne]
        by_cases hxy : x = y
        · subst hxy
          simp [hy, hheir]
        · simp [hxy]
      · rw [if_neg hheir]
        by_cases hxy : x = y
        · subst hxy
          simp [hheir]
        · simp [hxy]

end Donate

/-- The test of `addSlices`: the entry has the pid of the current process's parent. -/
def isParent (s : Sched) (x : PcbRef) : Bool := (s.pcb s.currentthread).ppid = (s.pcb x).pid

@[simp] theorem isParent_setState (s : Sched) (x : PcbRef) (state : ProcState) :
    (s.setState x state).isParent = s.isParent := by
  have hids : ∀ y, ((s.setState x state).pcb y).pid = (s.pcb y).pid ∧
      ((s.setState x state).pcb y).ppid = (s.pcb y).ppid := by
    intro y
    rw [setState, modify_pcb]
    split_ifs with hy
    · rw [hy]
      exact ⟨rfl, rfl⟩
    · exact ⟨rfl, rfl⟩
  funext y
  rw [isParent, isParent, (hids _).1, (hids _).2]
  rfl

theorem SameTable.isParent (h : SameTable s s') : s'.isParent = s.isParent := by
  funext x
  have hppid := congrArg Proc.ppid (h.proc s.currentthread)
  have hpid := congrArg Proc.pid (h.proc x)
  simp only [PCB.proc] at hppid hpid
  rw [Sched.isParent, Sched.isParent, h.current, hppid, hpid]

theorem slices_addSlices (s : Sched) (temp : Option PcbRef) :
    (s.addSlices temp).slices = donate s.isParent s.currentthread s.slices (s.walk temp) := by
  rw [addSlices]
  generalize s.walk temp = xs
  induction xs generalizing s with
  | nil => rfl
  | cons x xs ih =>
      rw [List.foldl_cons, ih, donate_cons]
      by_cases hx : (s.pcb s.currentthread).ppid = (s.pcb x).pid
      · have hsame := sameTable_modify s x
          (f := fun p => { p with totalslice := p.totalslice + s.slices s.currentthread })
          (fun _ => rfl) fun _ => rfl
        have hupdate : (s.modify x fun p =>
            { p with totalslice := p.totalslice + s.slices s.currentthread }).slices =
            Function.update s.slices x (s.slices x + s.slices s.currentthread) := by
          funext y
          rw [slices, modify_pcb, Function.update_apply]
          split_ifs <;> rfl
        rw [if_pos hx, if_pos (by simpa [isParent] using hx), ← hupdate, ← hsame.isParent]
        rfl
      · rw [if_neg hx, if_neg (by simpa [isParent] using hx)]

theorem slices_addSlices_both (s : Sched) :
    ((s.addSlices s.threadlist).addSlices s.blockedlist).slices =
      donate s.isParent s.currentthread s.slices
        (s.walk s.threadlist ++ s.walk s.blockedlist) := by
  have hsame := sameTable_addSlices s s.threadlist
  have hwalk : (s.addSlices s.threadlist).walk s.blockedlist = s.walk s.blockedlist := by
    rw [walk, hsame.next, walk]
  rw [slices_addSlices, slices_addSlices, hsame.isParent, hsame.current, hwalk, donate_append]

/-- The exit passes the slice of the current process on to its parent, wherever that is. -/
theorem slices_threadOnCompletion (hstep : s.threadOnCompletion = some s') :
    s'.slices = donate s.isParent s.currentthread s.slices
      (s.walk s.threadlist ++ s.walk s.blockedlist) := by
  rcases Option.bind_eq_some_iff.1 hstep with ⟨⟨temp, next⟩, -, hstep⟩
  cases temp with
  | none =>
      rw [← Option.some.inj hstep]
      exact slices_addSlices_both s
  | some temp =>
      let s₁ : Sched := s.setState temp .zombie
      have hzombie : ((s₁.addSlices s₁.threadlist).addSlices
          (s₁.addSlices s₁.threadlist).blockedlist).slices =
            donate s.isParent s.currentthread s.slices
              (s.walk s.threadlist ++ s.walk s.blockedlist) := by
        rw [(sameTable_addSlices s₁ s₁.threadlist).blocked, slices_addSlices_both,
          isParent_setState, slices_setState, walk, walk, setState_next]
        rfl
      -- the wake-up changes links only
      change (if _ then _ else _) = some s' at hstep
      rw [← hzombie]
      split_ifs at hstep
      · split at hstep
        · rw [← Option.some.inj hstep, slices_wakeParent]
        · split_ifs at hstep
          · rw [← Option.some.inj hstep]
          · rw [← Option.some.inj hstep, slices_wakeParent]
      · rw [← Option.some.inj hstep]

/-! ## Who has a slice -/

/-- Only a fork and the start of the first program bring a new user process. -/
theorem mem_users_of_step (h : T.Valid pages spinning) (he : TableEnabled T pages spinning e)
    (hx : x ∈ (tableStep T e).users) :
    x ∈ T.users ∨ e = .fork x ∨ (e = .userProcess ∧ x = T.current) := by
  rcases Table.mem_users.1 hx with ⟨hlisted, hpid, hstate⟩
  rcases mem_of_mem_tableStep h he hlisted with hmem | hfork | rfl
  · by_cases hfirst : e = .userProcess ∧ x = T.current
    · exact Or.inr (Or.inr hfirst)
    · have hpages := h.listed x hmem
      have hpid' : (T.proc x).pid ≠ 0 := by
        rwa [← (tableStep_ids_of_ne he hpages fun heq heq' => hfirst ⟨heq, heq'⟩).1]
      refine Or.inl (Table.mem_users.2 ⟨hmem, hpid', fun hzombie => hstate ?_⟩)
      exact tableStep_zombie h he hpages (h.ne_main_of_pid hpid') hzombie
  · exact Or.inr (Or.inl hfork)
  · -- a new thread of the kernel has pid 0
    exact absurd (by simp [tableStep, Table.createThread, Table.modify]) hpid

/-! ## The budget -/

/-- The slices along a run: the user processes keep to `MAXSLICE`, a process that has exited has
kept to it, and every process is younger than its parent. -/
structure Shares (T : Table) (pages : List PcbRef) (spinning : Bool)
    (slice : PcbRef → BitVec 32) : Prop where
  budget : Budget T.users (fun x => (slice x).toInt) MAXSLICE.toInt
  younger : ∀ x ∈ pages, (T.proc x).pid ≠ 0 → (T.proc x).ppid < (T.proc x).pid
  exited : spinning = true → (T.proc T.current).pid ≠ 0 →
    0 ≤ (slice T.current).toInt ∧ (slice T.current).toInt ≤ MAXSLICE.toInt

theorem current_mem_users (h : T.Valid pages false) (hpid : (T.proc T.current).pid ≠ 0) :
    T.current ∈ T.users := by
  refine Table.mem_users.2 ⟨List.mem_append_left _ h.current, hpid, ?_⟩
  rw [current_running h rfl]
  decide

/-- The current process, running or spinning, has at most `MAXSLICE`. -/
theorem Shares.current {slice : PcbRef → BitVec 32} (hs : Shares T pages spinning slice)
    (h : T.Valid pages spinning) (hpid : (T.proc T.current).pid ≠ 0) :
    0 ≤ (slice T.current).toInt ∧ (slice T.current).toInt ≤ MAXSLICE.toInt := by
  cases spinning with
  | true => exact hs.exited rfl hpid
  | false =>
      have hmem := current_mem_users h hpid
      exact ⟨hs.budget.nonneg _ hmem, hs.budget.share_le hmem⟩

theorem younger_step (h : T.Valid pages spinning) (he : TableEnabled T pages spinning e)
    (hcaller : ∀ page, e = .fork page → (T.proc T.current).pid ≠ 0)
    (hyounger : ∀ x ∈ pages, (T.proc x).pid ≠ 0 → (T.proc x).ppid < (T.proc x).pid)
    {pages' : List PcbRef}
    (hpages : ∀ x ∈ pages', x ∈ pages ∨ e = .fork x ∨ e = .createThread x) :
    ∀ x ∈ pages', ((tableStep T e).proc x).pid ≠ 0 →
      ((tableStep T e).proc x).ppid < ((tableStep T e).proc x).pid := by
  intro x hx hpid
  by_cases hfirst : e = .userProcess ∧ x = T.current
  · rcases hfirst with ⟨rfl, rfl⟩
    simp [tableStep, Table.userProcess, Table.modify]
  rcases hpages x hx with hmem | rfl | rfl
  · have hids := tableStep_ids_of_ne he hmem fun heq heq' => hfirst ⟨heq, heq'⟩
    rw [hids.1] at hpid
    rw [hids.1, hids.2]
    exact hyounger x hmem hpid
  · -- a child gets an id above all ids in use
    rcases he with ⟨rfl, -, -⟩
    have hle := h.pid_le T.current (h.listed _ (List.mem_append_left _ h.current))
    have hsucc := h.toNat_count_succ
    rw [BitVec.le_def] at hle
    have hlt : (T.proc T.current).pid < T.count + 1 := by
      rw [BitVec.lt_def, hsucc]
      omega
    simpa [tableStep, Table.fork, Table.modify] using hlt
  · exact absurd (by simp [tableStep, Table.createThread, Table.modify]) hpid

section Step

variable {slice slice' : PcbRef → BitVec 32} {page : PcbRef}

/-- An event that changes no slice of a user process. -/
theorem budget_keep (h : T.Valid pages spinning) (he : TableEnabled T pages spinning e)
    (hs : Shares T pages spinning slice) (hfork : ∀ x, e ≠ .fork x) (hfirst : e ≠ .userProcess)
    (hsame : ∀ x ∈ T.users, slice' x = slice x) :
    Budget (tableStep T e).users (fun x => (slice' x).toInt) MAXSLICE.toInt := by
  have hsub : ∀ x ∈ (tableStep T e).users, x ∈ T.users := by
    intro x hx
    rcases mem_users_of_step h he hx with hx | heq | ⟨heq, -⟩
    · exact hx
    · exact absurd heq (hfork x)
    · exact absurd heq hfirst
  exact hs.budget.mono hsub fun x hx => congrArg BitVec.toInt (hsame x (hsub x hx))

theorem toInt_half {b : BitVec 32} (hb : 0 ≤ b.toInt) :
    0 ≤ (b.sdiv 2).toInt ∧ (b.sdiv 2).toInt + (b.sdiv 2).toInt ≤ b.toInt := by
  rw [BitVec.toInt_sdiv_of_ne_or_ne b 2 (Or.inr (by decide))]
  have htwo : (2 : BitVec 32).toInt = 2 := by decide
  rw [htwo, Int.tdiv_eq_ediv_of_nonneg hb]
  omega

theorem budget_fork (h : T.Valid pages false) (hs : Shares T pages false slice)
    (hcaller : (T.proc T.current).pid ≠ 0) (hlow : page < maxPcbs) (hpage : page ∉ pages)
    (hslice : ∀ x, slice' x =
      if x = page ∨ x = T.current then (slice T.current).sdiv 2 else slice x) :
    Budget (T.fork page).users (fun x => (slice' x).toInt) MAXSLICE.toInt := by
  have hcurrent := current_mem_users h hcaller
  have hnew : page ∉ T.users := fun hmem => h.fresh hpage (Table.mem_users.1 hmem).1
  have hhalf := toInt_half (hs.budget.nonneg _ hcurrent)
  have hkept : slice' T.current = (slice T.current).sdiv 2 := by rw [hslice, if_pos (Or.inr rfl)]
  have hgiven : slice' page = (slice T.current).sdiv 2 := by rw [hslice, if_pos (Or.inl rfl)]
  have hsplit : Budget (insert page T.users) (fun x => (slice' x).toInt) MAXSLICE.toInt := by
    refine hs.budget.split hcurrent hnew ?_ ?_ ?_ ?_
    · rw [hkept]
      exact hhalf.1
    · rw [hgiven]
      exact hhalf.1
    · rw [hkept, hgiven]
      exact hhalf.2
    · intro x hx hne
      have hother : ¬ (x = page ∨ x = T.current) :=
        fun heq => heq.elim (fun heq => hnew (heq ▸ hx)) hne
      rw [hslice, if_neg hother]
  refine hsplit.mono (fun x hx => ?_) fun _ _ => rfl
  rcases mem_users_of_step h (e := .fork page) ⟨rfl, hlow, hpage⟩ hx with hx | heq | ⟨heq, -⟩
  · exact Finset.mem_insert_of_mem hx
  · cases heq
    exact Finset.mem_insert_self _ _
  · cases heq

/-- The first program finds no other user process. -/
theorem budget_userProcess (h : T.Valid pages false) (hcount : T.count = 0)
    (hmain : T.current ≠ T.main) (hslice : slice' T.current = MAXSLICE) :
    Budget T.userProcess.users (fun x => (slice' x).toInt) MAXSLICE.toInt := by
  have hone : Budget {T.current} (fun x => (slice' x).toInt) MAXSLICE.toInt := by
    refine Budget.singleton ?_ ?_
    · rw [hslice]
      decide
    · rw [hslice]
  refine hone.mono (fun x hx => Finset.mem_singleton.2 ?_) fun _ _ => rfl
  rcases mem_users_of_step h (e := .userProcess) ⟨rfl, hcount, hmain⟩ hx with hx | heq | ⟨-, heq⟩
  · rcases Table.mem_users.1 hx with ⟨hmem, hpid, -⟩
    have hle := h.pid_le x (h.listed x hmem)
    rw [hcount] at hle
    exact absurd (BitVec.le_zero_iff.1 hle) hpid
  · cases heq
  · exact heq

theorem toInt_add_of_le {a b : BitVec 32} (ha : 0 ≤ a.toInt) (ha' : a.toInt ≤ MAXSLICE.toInt)
    (hb : 0 ≤ b.toInt) (hb' : b.toInt ≤ MAXSLICE.toInt) :
    (a + b).toInt = a.toInt + b.toInt := by
  have hmax : MAXSLICE.toInt = 8 := by decide
  rw [BitVec.toInt_add]
  apply Int.bmod_eq_of_le
  · omega
  · omega

/-- The exit of a user process passes its slice to the one process with its parent's pid. -/
theorem budget_exit (h : T.Valid pages false) (hs : Shares T pages false slice)
    (hslice : slice' = donate (fun x => (T.proc T.current).ppid = (T.proc x).pid) T.current slice
      (T.threads ++ T.blocked)) :
    Budget T.exit.users (fun x => (slice' x).toInt) MAXSLICE.toInt ∧
      ((T.proc T.current).pid ≠ 0 → slice' T.current = slice T.current) := by
  have hpages := h.listed T.current (List.mem_append_left _ h.current)
  by_cases hpid : (T.proc T.current).pid = 0
  · -- a thread of the kernel has the kernel's threads as heirs
    refine ⟨?_, fun hne => absurd hpid hne⟩
    refine budget_keep h (e := .exit) rfl hs (fun _ heq => by cases heq)
      (fun heq => by cases heq) ?_
    intro x hx
    rw [hslice]
    apply donate_of_not_heir
    rw [h.rootless _ hpages hpid]
    simpa using Ne.symm (Table.mem_users.1 hx).2.1
  · have hcurrent := current_mem_users h hpid
    have hgiver : decide ((T.proc T.current).ppid = (T.proc T.current).pid) = false := by
      have hlt := hs.younger _ hpages hpid
      simpa using fun heq : (T.proc T.current).ppid = (T.proc T.current).pid =>
        absurd (heq ▸ hlt) (BitVec.lt_irrefl _)
    have hdonate : ∀ x, slice' x =
        if x ∈ T.threads ++ T.blocked ∧ (T.proc T.current).ppid = (T.proc x).pid then
          slice x + slice T.current else slice x := by
      intro x
      rw [hslice, donate_apply hgiver h.nodup]
      simp only [decide_eq_true_eq]
    have hleft : ∀ x ∈ T.exit.users, x ∈ T.users.erase T.current := by
      intro x hx
      refine Finset.mem_erase.2 ⟨?_, ?_⟩
      · rintro rfl
        exact (Table.mem_users.1 hx).2.2 (by rw [exit_state, if_pos rfl])
      · rcases mem_users_of_step h (e := .exit) rfl hx with hx | heq | ⟨heq, -⟩
        · exact hx
        · cases heq
        · cases heq
    refine ⟨?_, fun _ => ?_⟩
    · by_cases hparent : ∃ p ∈ T.users, (T.proc T.current).ppid = (T.proc p).pid
      · rcases hparent with ⟨p, hp, hpp⟩
        rcases Table.mem_users.1 hp with ⟨hlisted, hppid, -⟩
        refine hs.budget.bequeath p hcurrent hleft ?_ ?_
        · intro _
          rw [hdonate, if_pos ⟨hlisted, hpp⟩]
          exact toInt_add_of_le (hs.budget.nonneg p hp) (hs.budget.share_le hp)
            (hs.budget.nonneg _ hcurrent) (hs.budget.share_le hcurrent)
        · intro x hx hne
          rw [hdonate, if_neg]
          rintro ⟨hmem, heq⟩
          exact hne (h.pid_inj x (h.listed x hmem) p (h.listed p hlisted) (heq.symm.trans hpp)
            (by rwa [← heq, hpp]))
      · refine hs.budget.mono (fun x hx => Finset.mem_of_mem_erase (hleft x hx)) fun x hx => ?_
        rw [hdonate, if_neg]
        exact fun hheir => hparent ⟨x, Finset.mem_of_mem_erase (hleft x hx), hheir.2⟩
    · rw [hdonate, if_neg]
      exact fun hheir => by simp [hheir.2] at hgiver

end Step

/-- The exit on the PCBs: the new slices are those of `donate` on the table. -/
theorem Represents.slices_exit (h : Represents s T) (hT : Bounded T)
    (hstep : s.threadOnCompletion = some s') :
    s'.slices = donate (fun x => (T.proc T.current).ppid = (T.proc x).pid) T.current s.slices
      (T.threads ++ T.blocked) := by
  have hparent : s.isParent = fun x => decide ((T.proc T.current).ppid = (T.proc x).pid) := by
    funext x
    rw [isParent, h.current, h.ppid, h.pid]
  rw [slices_threadOnCompletion hstep, hparent, h.current, h.walk_threads hT, h.walk_blocked hT]

/-- The exit of the process itself, also through `sys_kill`. -/
theorem shares_exit (hv : T.Valid pages false) (h : Represents s T)
    (hs : Shares T pages false s.slices) (hstep : s.threadOnCompletion = some s')
    (spins : Bool) : Shares T.exit pages spins s'.slices := by
  have hexit := budget_exit hv hs (h.slices_exit hv.length_le hstep)
  have hcurrent : T.exit.current = T.current := by
    rcases Table.exit_cases T with ⟨heq, -⟩ | ⟨-, -, y, -, -, heq⟩ <;> simp [heq]
  refine ⟨hexit.1, ?_, ?_⟩
  · intro x hx hpid
    rw [exit_pid] at hpid
    rw [exit_pid, exit_ppid]
    exact hs.younger x hx hpid
  · intro _ hpid
    rw [hcurrent, exit_pid] at hpid
    rw [hcurrent, hexit.2 hpid]
    exact hs.current hv hpid

/-- `user_process` finds the thread it runs in. -/
theorem Represents.slices_userProcess (h : Represents s T) (hv : T.Valid pages false) :
    s.userProcess.slices T.current = MAXSLICE := by
  let s₀ : Sched := { s with processcount := 0 }
  have h₀ : Represents s₀ { T with count := 0 } :=
    ⟨h.proc, h.main, h.threads, h.blocked, h.current, rfl⟩
  have hfind : (s₀.walk s₀.threadlist).find? (fun x => (s₀.pcb x).state = .running) =
      some T.current := by
    rw [h₀.walk_threads hv.length_le, ← find_running hv]
    congr 1
    funext x
    exact decide_eq_decide.2 (by rw [h₀.state])
  rw [Sched.userProcess]
  dsimp only
  rw [hfind]
  simp [slices, modify_pcb]

theorem shares_kill {σ σ' : System} (h : Tracks σ T) (hv : T.Valid σ.pages false)
    (hs : Shares T σ.pages false σ.sched.slices) {pid : Pid} {sig : Int} {answer : Char}
    (hstep : σ.exec (.kill pid sig answer) = some σ') :
    Shares (T.kill pid sig answer) σ'.pages σ'.spinning σ'.sched.slices := by
  rcases Option.bind_eq_some_iff.1 hstep with ⟨⟨r, s'⟩, hs', hstep⟩
  cases hstep
  have hself : σ.sched.currentPid = (T.proc T.current).pid := by
    rw [currentPid, h.represents.current, h.represents.pid]
  have hunit : (σ.sched.pcb σ.sched.currentthread).pid = (T.proc T.current).pid := hself
  rw [sysKill, hunit] at hs'
  change Shares (T.kill pid sig answer) σ.pages
    (KillsSelf σ.sched.currentPid pid sig answer) s'.slices
  rw [hself, Table.kill]
  split_ifs at hs' ⊢ with hsig hrefused hpid
  · cases hs'
    have hno : ¬ KillsSelf (T.proc T.current).pid pid sig answer := fun hk => hk.2.1 hrefused
    simpa [hno] using hs
  · rcases Option.bind_eq_some_iff.1 hs' with ⟨s₁, hs₁, heq⟩
    cases heq
    exact shares_exit hv h.represents hs hs₁ _
  · cases hs'
    have hno : ¬ KillsSelf (T.proc T.current).pid pid sig answer := fun hk => hpid hk.2.2
    have hkill : T.killOther pid = T.kill pid 9 'Y' := by
      rw [Table.kill, if_pos rfl, if_neg (by simp), if_neg hpid]
    rw [slices_unlinkKilled, hkill]
    refine ⟨budget_keep hv (e := .kill pid 9 'Y') rfl hs (fun _ heq => by cases heq)
      (fun heq => by cases heq) fun _ _ => rfl, ?_, fun heq => by simp [hno] at heq⟩
    rw [← hkill, killOther_proc]
    exact hs.younger
  · cases hs'
    have hno : ¬ KillsSelf (T.proc T.current).pid pid sig answer := fun hk => hsig hk.1
    simpa [hno] using hs

/-- Every event of a program keeps to the budget. -/
theorem Tracks.shares_step {σ σ' : System} (h : Tracks σ T)
    (hs : Shares T σ.pages σ.spinning σ.sched.slices) (he : Enabled σ e)
    (hcaller : ∀ page, e = .fork page → σ.sched.currentPid ≠ 0) (hstep : σ.exec e = some σ') :
    Shares (tableStep T e) σ'.pages σ'.spinning σ'.sched.slices := by
  have hv := h.valid
  have hT : Bounded T := hv.length_le
  have hte := h.enabled he
  have hpid : σ.sched.currentPid = (T.proc T.current).pid := by
    rw [currentPid, h.represents.current, h.represents.pid]
  have hyounger := fun pages' hpages => younger_step hv hte
    (fun page heq => hpid ▸ hcaller page heq) hs.younger (show ∀ x ∈ pages', _ from hpages)
  cases e with
  | schedule =>
      cases hstep
      exact ⟨budget_keep hv hte hs (fun _ heq => by cases heq) (fun heq => by cases heq)
        fun x _ => congrFun (slices_schedule _) x, hyounger _ fun x hx => Or.inl hx,
        fun heq => by cases heq⟩
  | createThread page =>
      rcases Option.bind_eq_some_iff.1 hstep with ⟨s', hs', hstep⟩
      cases hstep
      refine ⟨budget_keep hv hte hs (fun _ heq => by cases heq) (fun heq => by cases heq) ?_,
        hyounger _ ?_, fun heq => ?_⟩
      · intro x hx
        refine slices_createThread hs' ?_
        rintro rfl
        exact he.2.1.2 (hv.listed x (Table.mem_users.1 hx).1)
      · intro x hx
        rcases List.mem_cons.1 hx with rfl | hx
        · exact Or.inr (Or.inr rfl)
        · exact Or.inl hx
      · rw [he.1] at heq
        cases heq
  | userProcess =>
      cases hstep
      rw [hte.1] at hv hs
      refine ⟨budget_userProcess hv hte.2.1 hte.2.2 (h.represents.slices_userProcess hv),
        hyounger _ fun x hx => Or.inl hx, fun heq => ?_⟩
      rw [hte.1] at heq
      cases heq
  | fork page =>
      cases hstep
      rw [hte.1] at hv hs
      refine ⟨budget_fork hv hs (hpid ▸ hcaller page rfl) hte.2.1 hte.2.2 ?_, hyounger _ ?_,
        fun heq => ?_⟩
      · intro x
        have hne : σ.sched.currentthread ≠ page := by
          rw [h.represents.current]
          rintro rfl
          exact hte.2.2 (hv.listed _ (List.mem_append_left _ hv.current))
        rw [slices_sysFork _ hne, h.represents.current]
      · intro x hx
        rcases List.mem_cons.1 hx with rfl | hx
        · exact Or.inr (Or.inl rfl)
        · exact Or.inl hx
      · rw [hte.1] at heq
        cases heq
  | waitpid pid =>
      cases hstep
      refine ⟨budget_keep hv hte hs (fun _ heq => by cases heq) (fun heq => by cases heq)
        fun x _ => congrFun (slices_sysWaitpid _ pid) x, hyounger _ fun x hx => Or.inl hx,
        fun heq => ?_⟩
      rw [show σ.spinning = false from he] at heq
      cases heq
  | exit =>
      rcases Option.bind_eq_some_iff.1 hstep with ⟨s', hs', hstep⟩
      cases hstep
      rw [show σ.spinning = false from he] at hv hs
      exact shares_exit hv h.represents hs hs' true
  | kill pid sig answer =>
      rw [show σ.spinning = false from he] at hv hs
      exact shares_kill h hv hs hstep

/-! ## The timer -/

/-- The scheduler with the `elapsed` of the PCBs, which only `interrupt0` writes: it starts at what
the page of the PCB holds. -/
structure Clocked where
  system : System
  elapsed : PcbRef → BitVec 32

inductive Moment
  | interrupt0
  | event (e : Event)
  deriving DecidableEq, Repr

/-- The part of `interrupt0` for the current process: `schedule` is called if its slice is used
up, a comparison of `int`s. -/
def Clocked.interrupt0 (c : Clocked) : Option Clocked :=
  let currentthread := c.system.sched.currentthread
  let elapsed := c.elapsed currentthread + 1
  if (c.system.sched.slices currentthread).sle elapsed then do
    let system ← c.system.exec .schedule
    return ⟨system, Function.update c.elapsed currentthread 0⟩
  else some { c with elapsed := Function.update c.elapsed currentthread elapsed }

def Clocked.exec (c : Clocked) : Moment → Option Clocked
  | .interrupt0 => c.interrupt0
  | .event e => do
      let system ← c.system.exec e
      return { c with system := system }

/-- Only a user program makes the system call `fork`. -/
def CalledByUser (s : Sched) : Event → Prop
  | .fork _ => s.currentPid ≠ 0
  | _ => True

instance (s : Sched) (e : Event) : Decidable (CalledByUser s e) :=
  match e with
  | .fork _ => inferInstanceAs (Decidable (_ ≠ _))
  | .schedule => inferInstanceAs (Decidable True)
  | .createThread _ => inferInstanceAs (Decidable True)
  | .userProcess => inferInstanceAs (Decidable True)
  | .waitpid _ => inferInstanceAs (Decidable True)
  | .exit => inferInstanceAs (Decidable True)
  | .kill _ _ _ => inferInstanceAs (Decidable True)

def Clocked.Enabled (c : Clocked) : Moment → Prop
  | .interrupt0 => True
  | .event e => Sched.Enabled c.system e ∧ CalledByUser c.system.sched e

instance (c : Clocked) (m : Moment) : Decidable (c.Enabled m) :=
  match m with
  | .interrupt0 => inferInstanceAs (Decidable True)
  | .event _ => inferInstanceAs (Decidable (_ ∧ _))

def Clocked.boot (memory : PcbRef → PCB) (elapsed : PcbRef → BitVec 32) (page : PcbRef) : Clocked :=
  ⟨System.boot memory page, elapsed⟩

/-- A number of ticks: an `int` that is not negative and can be counted on. -/
def Ticks (b : BitVec 32) : Prop := 0 ≤ b.toInt ∧ b.toInt < 2 ^ 31 - 1

instance (b : BitVec 32) : Decidable (Ticks b) := inferInstanceAs (Decidable (_ ∧ _))

/-- The state of the slices and of the ticks, over a table that the PCBs carry. -/
structure Clocked.Kept (c : Clocked) (T : Table) : Prop where
  tracks : Tracks c.system T
  shares : Shares T c.system.pages c.system.spinning c.system.sched.slices
  elapsed : ∀ x, Ticks (c.elapsed x)

theorem Clocked.boot_kept (memory : PcbRef → PCB) {elapsed : PcbRef → BitVec 32} {page : PcbRef}
    (hpage : page < maxPcbs) (helapsed : ∀ x, Ticks (elapsed x)) :
    (Clocked.boot memory elapsed page).Kept (bootTable memory page) where
  tracks := boot_tracks memory hpage
  shares :=
    { budget := by
        have hnone : (bootTable memory page).users = ∅ := by
          refine Finset.eq_empty_of_forall_notMem fun x hx => ?_
          rcases Table.mem_users.1 hx with ⟨hmem, hpid, -⟩
          exact hpid (congrArg Proc.pid (bootTable_proc memory hmem))
        rw [hnone]
        exact Budget.empty (by decide)
      younger := fun x hx hpid =>
        absurd (congrArg Proc.pid (bootTable_proc memory hx)) hpid
      exited := fun heq => by cases heq }
  elapsed := helapsed

theorem Clocked.Kept.event {c c' : Clocked} (h : c.Kept T) (he : c.Enabled (.event e))
    (hstep : c.exec (.event e) = some c') : c'.Kept (tableStep T e) := by
  rcases Option.bind_eq_some_iff.1 hstep with ⟨σ, hσ, hstep⟩
  cases hstep
  rcases h.tracks.exec he.1 with ⟨σ', hσ', htracks⟩
  rw [hσ] at hσ'
  cases hσ'
  have hcaller : ∀ page, e = .fork page → c.system.sched.currentPid ≠ 0 := by
    rintro page rfl
    exact he.2
  exact ⟨htracks, h.tracks.shares_step h.shares he.1 hcaller hσ, h.elapsed⟩

theorem Ticks.toInt_add {b : BitVec 32} (hb : Ticks b) : (b + 1).toInt = b.toInt + 1 := by
  rcases hb with ⟨hpos, hlt⟩
  have hone : (1 : BitVec 32).toInt = 1 := by decide
  rw [BitVec.toInt_add, hone]
  apply Int.bmod_eq_of_le
  · omega
  · omega

theorem Clocked.Kept.tick {c : Clocked} (h : c.Kept T) :
    (c.elapsed c.system.sched.currentthread + 1).toInt =
      (c.elapsed c.system.sched.currentthread).toInt + 1 :=
  (h.elapsed _).toInt_add

theorem Clocked.Kept.interrupt0 {c c' : Clocked} (h : c.Kept T)
    (hstep : c.interrupt0 = some c') : ∃ T', c'.Kept T' := by
  have htick := h.tick
  rw [Clocked.interrupt0] at hstep
  split_ifs at hstep with hdue
  · rcases h.tracks.exec (e := .schedule) trivial with ⟨σ, hσ, htracks⟩
    have hshares := h.tracks.shares_step h.shares (e := .schedule) trivial
      (fun _ heq => by cases heq) hσ
    rw [hσ] at hstep
    cases hstep
    refine ⟨_, htracks, hshares, fun x => ?_⟩
    dsimp only
    rw [Function.update_apply]
    split_ifs
    · decide
    · exact h.elapsed x
  · cases hstep
    refine ⟨T, h.tracks, h.shares, fun x => ?_⟩
    dsimp only
    rw [Function.update_apply]
    split_ifs
    · rw [BitVec.sle_iff_toInt_le, htick] at hdue
      have hbefore := h.elapsed c.system.sched.currentthread
      have hslice := BitVec.toInt_lt (x := c.system.sched.slices c.system.sched.currentthread)
      rw [Ticks] at hbefore ⊢
      rw [htick]
      omega
    · exact h.elapsed x

/-- The next timer interrupt calls `schedule`. -/
def Clocked.Switches (c : Clocked) : Prop :=
  ∃ elapsed, c.exec .interrupt0 =
    some ⟨{ c.system with sched := c.system.sched.schedule, spinning := false }, elapsed⟩

theorem Clocked.Kept.switches {c : Clocked} (h : c.Kept T)
    (hdue : (c.system.sched.slices c.system.sched.currentthread).toInt ≤
      (c.elapsed c.system.sched.currentthread).toInt + 1 + (0 : ℕ)) : c.Switches := by
  have hsle : (c.system.sched.slices c.system.sched.currentthread).sle
      (c.elapsed c.system.sched.currentthread + 1) = true := by
    rw [BitVec.sle_iff_toInt_le, h.tick]
    omega
  refine ⟨Function.update c.elapsed c.system.sched.currentthread 0, ?_⟩
  change c.interrupt0 = _
  rw [Clocked.interrupt0]
  exact if_pos hsle

/-- A slice that is used up in `k` more ticks is used up at the latest then. -/
theorem Clocked.Kept.exists_switches {c : Clocked} (h : c.Kept T) {k : ℕ}
    (hslice : (c.system.sched.slices c.system.sched.currentthread).toInt ≤
      (c.elapsed c.system.sched.currentthread).toInt + 1 + k) :
    ∃ n ≤ k, ∃ elapsed,
      Run Clocked.exec Clocked.Enabled c (List.replicate n .interrupt0) ⟨c.system, elapsed⟩ ∧
        Clocked.Switches ⟨c.system, elapsed⟩ := by
  induction k generalizing c T with
  | zero =>
      exact ⟨0, le_rfl, c.elapsed, Run.nil, h.switches hslice⟩
  | succ k ih =>
      by_cases hdue : (c.system.sched.slices c.system.sched.currentthread).toInt ≤
          (c.elapsed c.system.sched.currentthread).toInt + 1
      · exact ⟨0, Nat.zero_le _, c.elapsed, Run.nil, h.switches (by omega)⟩
      · have htick := h.tick
        have hstep : c.exec .interrupt0 = some ⟨c.system, Function.update c.elapsed
            c.system.sched.currentthread (c.elapsed c.system.sched.currentthread + 1)⟩ :=
          if_neg (by rw [BitVec.sle_iff_toInt_le, htick]; exact hdue)
        rcases h.interrupt0 hstep with ⟨T', h'⟩
        have hless : (c.system.sched.slices c.system.sched.currentthread).toInt ≤
            (Function.update c.elapsed c.system.sched.currentthread
              (c.elapsed c.system.sched.currentthread + 1)
              c.system.sched.currentthread).toInt + 1 + k := by
          rw [Function.update_self, htick]
          omega
        rcases ih h' hless with ⟨n, hn, elapsed, hrun, hswitch⟩
        refine ⟨n + 1, Nat.succ_le_succ hn, elapsed, ?_, hswitch⟩
        rw [List.replicate_succ]
        exact Run.cons trivial hstep hrun

section Runs

variable {memory : PcbRef → PCB} {elapsed : PcbRef → BitVec 32} {page : PcbRef}
  {ms : List Moment} {c : Clocked}

theorem run_kept (hpage : page < maxPcbs) (helapsed : ∀ x, Ticks (elapsed x))
    (hrun : Run Clocked.exec Clocked.Enabled (Clocked.boot memory elapsed page) ms c) :
    ∃ T, c.Kept T := by
  refine hrun.invariant (fun c => ∃ T, c.Kept T)
    ⟨_, Clocked.boot_kept memory hpage helapsed⟩ ?_
  rintro c m c' ⟨T, h⟩ hm hstep
  cases m with
  | interrupt0 => exact h.interrupt0 hstep
  | event e => exact ⟨_, h.event hm hstep⟩

/-- In every reachable state the user processes that have not exited share `MAXSLICE`, and at most
`MAXSLICE` interrupts pass before one takes the processor from a user process. -/
theorem time_slices_bounded (hpage : page < maxPcbs) (helapsed : ∀ x, Ticks (elapsed x))
    (hrun : Run Clocked.exec Clocked.Enabled (Clocked.boot memory elapsed page) ms c) :
    Budget c.system.sched.table.users (fun x => (c.system.sched.slices x).toInt) MAXSLICE.toInt ∧
      (c.system.sched.currentPid ≠ 0 → ∃ n < MAXSLICE.toNat, ∃ elapsed,
        Run Clocked.exec Clocked.Enabled c (List.replicate n .interrupt0) ⟨c.system, elapsed⟩ ∧
          Clocked.Switches ⟨c.system, elapsed⟩) := by
  rcases run_kept hpage helapsed hrun with ⟨T, h⟩
  have hv := h.tracks.valid
  rw [h.tracks.represents.table_eq hv.length_le]
  refine ⟨h.shares.budget, fun hpid => ?_⟩
  rw [currentPid, h.tracks.represents.current, h.tracks.represents.pid] at hpid
  have hle := (h.shares.current hv hpid).2
  have hmax : MAXSLICE.toInt = 8 := by decide
  have hpos := (h.elapsed c.system.sched.currentthread).1
  rcases h.exists_switches (k := 7) (by rw [h.tracks.represents.current] at hpos ⊢; omega) with
    ⟨n, hn, hrest⟩
  exact ⟨n, Nat.lt_succ_of_le hn, hrest⟩

end Runs

/-- The first program forks twice, one child exits, and the parent is left with half of the time.
The pages hold old tick counts. -/
theorem time_slices_bounded_forks :
    ∃ c, Run Clocked.exec Clocked.Enabled (Clocked.boot zeroFilled (fun _ => 5) 0)
      [.event (.createThread 1), .event .schedule, .event .userProcess, .event (.fork 2),
        .event (.fork 3), .interrupt0, .interrupt0, .event .exit, .interrupt0] c ∧
      (Budget c.system.sched.table.users (fun x => (c.system.sched.slices x).toInt)
          MAXSLICE.toInt ∧
        (c.system.sched.currentPid ≠ 0 → ∃ n < MAXSLICE.toNat, ∃ elapsed,
          Run Clocked.exec Clocked.Enabled c (List.replicate n .interrupt0) ⟨c.system, elapsed⟩ ∧
            Clocked.Switches ⟨c.system, elapsed⟩)) ∧
      c.system.sched.currentPid ≠ 0 := by
  have hsome : ((replay Clocked.exec Clocked.Enabled
      [.event (.createThread 1), .event .schedule, .event .userProcess, .event (.fork 2),
        .event (.fork 3), .interrupt0, .interrupt0, .event .exit, .interrupt0]
      (Clocked.boot zeroFilled (fun _ => 5) 0)).map
        fun c => decide (c.system.sched.currentPid ≠ 0)) = some true := by
    decide +kernel
  rcases Option.map_eq_some_iff.1 hsome with ⟨c, hc, hpid⟩
  have hrun := run_of_replay hc
  have hticks : Ticks 5 := by decide
  exact ⟨c, hrun, time_slices_bounded (by decide) (fun _ => hticks) hrun, of_decide_eq_true hpid⟩

end Sched

end OswpKernel
