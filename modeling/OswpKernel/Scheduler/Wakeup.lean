import OswpKernel.Scheduler.Wait

/-!
# Scheduler wake-ups — which steps lose one

A process in `blockedlist` is woken by the exit of a marked child.  `KeepsWaker` lists the steps
that leave every such process a marked child: a `waitpid` must not find a child that has already
exited, a kill must not hit the child somebody waits for, and the wake-up at an exit, which drops
the entries in front of the woken parent, must not drop such a child.  `no_lost_wakeup` shows that
nothing else can go wrong, `not_no_lost_wakeup` that the first of the three does.
-/

namespace OswpKernel

open Chain Execution

namespace Sched

variable {T : Table} {pages : List PcbRef} {spinning : Bool} {x c : PcbRef} {e : Event}

/-- Every waiting process has a marked child that can still exit. -/
def NoLostWakeup (T : Table) : Prop :=
  ∀ p ∈ T.blocked, ∃ c ∈ T.threads ++ T.blocked, (T.proc c).ppid = (T.proc p).pid ∧
    (T.proc c).isWait = true ∧ (T.proc c).state ≠ .zombie

/-- The child `x` is what the waiting process `p` waits for. -/
def Awaits (T : Table) (p x : PcbRef) : Prop :=
  (T.proc x).isWait = true ∧ (T.proc x).state ≠ .zombie ∧ (T.proc x).ppid = (T.proc p).pid

instance (T : Table) (p x : PcbRef) : Decidable (Awaits T p x) :=
  inferInstanceAs (Decidable (_ ∧ _))

/-- If the exit of the current process wakes its parent, no entry of `blocked` in front of the
parent is a child that an entry behind the parent waits for. -/
def ExitKeeps (T : Table) : Prop :=
  (T.proc T.current).isWait = true →
    ∀ f ∈ T.blocked.takeWhile fun y => (T.proc y).pid ≠ (T.proc T.current).ppid,
      ∀ p ∈ (T.blocked.dropWhile fun y => (T.proc y).pid ≠ (T.proc T.current).ppid).tail,
        ¬ Awaits T p f

/-- Nobody waits for the process that is killed. -/
def KillKeeps (T : Table) (pid : Pid) : Prop :=
  ∀ x ∈ T.threads ++ T.blocked, (T.proc x).pid = pid → ∀ p ∈ T.blocked, ¬ Awaits T p x

/-- `KillKeeps`, where the call kills another process, and `ExitKeeps`, where it kills
the caller. -/
def KillAllowed (T : Table) (pid : Pid) (sig : Int) (answer : Char) : Prop :=
  if sig = 9 then
    if pid = 2 ∧ ¬ (answer = 'Y' ∨ answer = 'y') then True
    else if pid = (T.proc T.current).pid then ExitKeeps T
    else KillKeeps T pid
  else True

/-- The event leaves every waiting process a child to wait for. -/
def KeepsWaker (T : Table) : Event → Prop
  | .waitpid pid => ∀ x ∈ T.threads, T.WaitTarget pid x → (T.proc x).state ≠ .zombie
  | .exit => ExitKeeps T
  | .kill pid sig answer => KillAllowed T pid sig answer
  | _ => True

instance (T : Table) : Decidable (ExitKeeps T) :=
  inferInstanceAs (Decidable ((T.proc T.current).isWait = true →
    ∀ f ∈ T.blocked.takeWhile fun y => (T.proc y).pid ≠ (T.proc T.current).ppid,
      ∀ p ∈ (T.blocked.dropWhile fun y => (T.proc y).pid ≠ (T.proc T.current).ppid).tail,
        ¬ Awaits T p f))

instance (T : Table) (pid : Pid) : Decidable (KillKeeps T pid) :=
  inferInstanceAs (Decidable (∀ x ∈ T.threads ++ T.blocked, (T.proc x).pid = pid →
    ∀ p ∈ T.blocked, ¬ Awaits T p x))

instance (T : Table) (pid : Pid) (sig : Int) (answer : Char) :
    Decidable (KillAllowed T pid sig answer) :=
  inferInstanceAs (Decidable (if sig = 9 then
    if pid = 2 ∧ ¬ (answer = 'Y' ∨ answer = 'y') then True
    else if pid = (T.proc T.current).pid then ExitKeeps T
    else KillKeeps T pid
  else True))

instance (T : Table) (e : Event) : Decidable (KeepsWaker T e) :=
  match e with
  | .waitpid pid => inferInstanceAs (Decidable (∀ x ∈ T.threads,
      T.WaitTarget pid x → (T.proc x).state ≠ .zombie))
  | .exit => inferInstanceAs (Decidable (ExitKeeps T))
  | .kill pid sig answer => inferInstanceAs (Decidable (KillAllowed T pid sig answer))
  | .schedule => inferInstanceAs (Decidable True)
  | .createThread _ => inferInstanceAs (Decidable True)
  | .userProcess => inferInstanceAs (Decidable True)
  | .fork _ => inferInstanceAs (Decidable True)

theorem noLostWakeup_iff : NoLostWakeup T ↔
    ∀ p ∈ T.blocked, ∃ c, Waited T c ∧ (T.proc c).ppid = (T.proc p).pid := by
  constructor
  · intro h p hp
    rcases h p hp with ⟨c, hc, hppid, hwait, hstate⟩
    exact ⟨c, ⟨hc, hwait, hstate⟩, hppid⟩
  · intro h p hp
    rcases h p hp with ⟨c, ⟨hc, hwait, hstate⟩, hppid⟩
    exact ⟨c, hc, hppid, hwait, hstate⟩

/-! ## Marked children that stay -/

theorem waited_keep_schedule (h : T.Core pages) (hx : Waited T x) : Waited T.schedule x := by
  have hmain : x ≠ T.main := Core.waited_ne_main h hx.2.1
  refine ⟨hx.1, ?_, fun hzombie => hx.2.2 ((schedule_zombie_iff hmain).1 hzombie)⟩
  rw [Table.schedule_isWait]
  exact hx.2.1

theorem waited_keep_waitpid (h : T.Valid pages false) {pid : Pid}
    (hx : Waited T x ∨ T.WaitTarget pid x ∧ (T.proc x).state ≠ .zombie) :
    Waited (T.waitpid pid) x := by
  have hcore := Table.setState_core (Table.enterWait_core h.toCore h.current pid) T.current
    .blocked
  apply waited_keep_schedule hcore
  have hstate : (T.proc x).state ≠ .zombie := by
    rcases hx with hx | hx
    · exact hx.2.2
    · exact hx.2
  refine ⟨?_, ?_, ?_⟩
  · rw [Table.setState_threads, Table.setState_blocked, Table.mem_enterWait h.current]
    rcases hx with hx | hx
    · exact hx.1
    · exact List.mem_append_left _ hx.1.1
  · rw [Table.setState_isWait, Table.enterWait]
    by_cases htarget : T.WaitTarget pid x
    · rw [if_pos ⟨x, htarget.1, htarget⟩]
      simp [Table.marked, htarget]
    · have hwait : (T.proc x).isWait = true := by
        rcases hx with hx | hx
        · exact hx.2.1
        · exact absurd hx.1 htarget
      split_ifs
      · simpa [Table.marked, htarget] using hwait
      · exact hwait
  · rw [Table.setState_state, Table.enterWait_state]
    split_ifs
    · decide
    · exact hstate

theorem waited_keep_zombie (hx : Waited T x) (hcurrent : x ≠ T.current) :
    Waited (T.setState T.current .zombie) x := by
  refine ⟨hx.1, ?_, ?_⟩
  · rw [Table.setState_isWait]
    exact hx.2.1
  · rw [Table.setState_state, if_neg hcurrent]
    exact hx.2.2

/-! ## The steps -/

theorem noLostWakeup_waitpid (h : T.Valid pages false) {pid : Pid} (hwake : NoLostWakeup T)
    (hkeep : KeepsWaker T (.waitpid pid)) : NoLostWakeup (T.waitpid pid) := by
  rw [noLostWakeup_iff] at hwake ⊢
  intro p hp
  have hp' : p ∈ (T.enterWait pid).blocked := hp
  have hold : ∀ q ∈ T.blocked, ∃ c, Waited (T.waitpid pid) c ∧
      ((T.waitpid pid).proc c).ppid = ((T.waitpid pid).proc q).pid := by
    intro q hq
    rcases hwake q hq with ⟨c, hc, hppid⟩
    exact ⟨c, waited_keep_waitpid h (Or.inl hc), by simpa using hppid⟩
  rw [Table.enterWait] at hp'
  split_ifs at hp' with htarget
  · rcases List.mem_cons.1 hp' with rfl | hp'
    · rcases htarget with ⟨c, hc, hmark⟩
      exact ⟨c, waited_keep_waitpid h (Or.inr ⟨hmark, hkeep c hc hmark⟩), by simpa using hmark.2.1⟩
    · exact hold p hp'
  · exact hold p hp'

/-- A process that is waited for wakes its parent, or has no parent in `blocked`. -/
theorem noLostWakeup_exit (h : T.Valid pages false) (hinv : WaitInvariant T)
    (hwake : NoLostWakeup T) (hkeep : ExitKeeps T) : NoLostWakeup T.exit := by
  rw [noLostWakeup_iff] at hwake ⊢
  have hcurrent : T.current ∈ pages := h.listed _ (List.mem_append_left _ h.current)
  have halive : (T.proc T.current).state ≠ .zombie := by
    rw [current_running h rfl]
    decide
  rcases Table.exit_cases T with ⟨heq, hnone⟩ | ⟨-, hwait, x, hx, hppid, heq⟩
  · -- nobody is woken: the current process is not the one a parent waits for
    rw [heq]
    intro p hp
    rcases hwake p hp with ⟨c, hc, hcp⟩
    have hne : c ≠ T.current := by
      rintro rfl
      rcases hnone with hnone | ⟨y, hy, hmark⟩
      · exact hnone ⟨(BitVec.pos_iff_ne_zero _).2 (hinv.parent _ hc), hc.2.1⟩
      · have htest := List.find?_some hy
        simp only [Table.setState_ppid, ne_eq, decide_eq_true_eq] at htest
        rw [Table.setState_state, if_neg (Ne.symm htest.2.1)] at htest
        have hmem : y ∈ T.threads := List.mem_of_find?_eq_some hy
        have hwaited : Waited T y := ⟨List.mem_append_left _ hmem, hmark, htest.1⟩
        exact htest.2.1 (hinv.unique T.current y hc hwaited htest.2.2)
    exact ⟨c, waited_keep_zombie hc hne, by simpa using hcp⟩
  · have hexits : Waited T T.current := ⟨List.mem_append_left _ h.current, hwait, halive⟩
    have hx' : x ∈ T.threads := by
      rcases hx with rfl | hx
      · exact h.current
      · exact hx
    rw [heq]
    rcases Table.wake_cases (T.setState T.current .zombie) x with
      ⟨hsame, hnone⟩ | ⟨front, parent, rest, hsplit, hfront, hparent, hwoken⟩
    · rw [hsame]
      intro p hp
      rcases hwake p hp with ⟨c, hc, hcp⟩
      have hne : c ≠ T.current := by
        rintro rfl
        refine hnone p hp ?_
        rw [Table.setState_pid, Table.setState_ppid, hppid, hcp]
      exact ⟨c, waited_keep_zombie hc hne, by simpa using hcp⟩
    · rw [Table.setState_pid, Table.setState_ppid, hppid] at hparent
      simp only [Table.setState_pid, Table.setState_ppid, hppid] at hfront
      have hblocked : T.blocked = front ++ parent :: rest := hsplit
      rw [hwoken]
      intro p hp
      have hp' : p ∈ T.blocked := by
        rw [hblocked]
        simp [show p ∈ rest from hp]
      rcases hwake p hp' with ⟨c, hc, hcp⟩
      have hne : c ≠ T.current := by
        -- the parent of the current process has just left `blocked`
        rintro rfl
        have hsame : p = parent := by
          have hmem : parent ∈ T.blocked := by simp [hblocked]
          refine h.pid_inj p (h.listed p (List.mem_append_right _ hp')) parent
            (h.listed parent (List.mem_append_right _ hmem)) (by rw [← hcp, hparent]) ?_
          rw [← hcp]
          exact hinv.parent _ hc
        have hnd := (List.nodup_append.1 h.nodup).2.1
        rw [hblocked] at hnd
        exact (List.nodup_cons.1 (List.nodup_append.1 hnd).2.1).1 (hsame ▸ hp)
      have hzombie := waited_keep_zombie hc hne
      have hmem : c ∈ insertAfter x parent T.threads ++ rest := by
        have hfrontkeep : c ∉ front := by
          intro hcf
          have hpass : ∀ y ∈ front,
              decide ((T.proc y).pid ≠ (T.proc T.current).ppid) = true := by
            simpa using hfront
          have hkeep' := hkeep hwait
          rw [hblocked, List.takeWhile_append_of_pos hpass, List.dropWhile_append_of_pos hpass]
            at hkeep'
          refine hkeep' c (List.mem_append_left _ hcf) p ?_ ⟨hc.2.1, hc.2.2, hcp⟩
          simpa [hparent] using hp
        have hcmem := hc.1
        rw [hblocked] at hcmem
        simp only [List.mem_append, List.mem_cons, mem_insertAfter hx'] at hcmem ⊢
        tauto
      exact ⟨c, ⟨hmem, hzombie.2.1, hzombie.2.2⟩, by simpa using hcp⟩

theorem noLostWakeup_killOther {pid : Pid} (hwake : NoLostWakeup T) (hkeep : KillKeeps T pid) :
    NoLostWakeup (T.killOther pid) := by
  intro p hp
  have hp' : p ∈ T.blocked := (Table.killOther_sublist T pid).2.mem hp
  rcases hwake p hp' with ⟨c, hc, hppid, hwait, hstate⟩
  rw [killOther_proc]
  refine ⟨c, ?_, hppid, hwait, hstate⟩
  have hne : ∀ y, (T.proc y).pid = pid → y ∈ T.threads ++ T.blocked → c ≠ y := by
    rintro y hy hmem rfl
    exact hkeep c hmem hy p hp' ⟨hwait, hstate, hppid⟩
  rcases Table.killOther_cases T pid with heq | ⟨y, hy, hypid, -, heq⟩ | ⟨y, hy, hypid, heq⟩
  · rwa [heq]
  · rw [heq]
    have hcy := hne y hypid (List.mem_append_left _ hy)
    simpa [List.mem_erase_of_ne hcy] using hc
  · rw [heq]
    have hcy := hne y hypid (List.mem_append_right _ hy)
    simpa [List.mem_erase_of_ne hcy] using hc

theorem noLostWakeup_extends {T' : Table} {page : PcbRef} {p : Proc}
    (he : Table.Extends T T' page p) (h : T.Core pages) (hpage : page ∉ pages)
    (hwake : NoLostWakeup T) : NoLostWakeup T' := by
  intro q hq
  rw [he.blocked] at hq
  rcases hwake q hq with ⟨c, hc, hrest⟩
  have hc' := he.proc_old hpage (h.listed c hc)
  have hq' := he.proc_old hpage (h.listed q (List.mem_append_right _ hq))
  exact ⟨c, he.mem_iff.2 (Or.inr hc), by rw [hc', hq']; exact hrest⟩

theorem noLostWakeup_step (h : T.Valid pages spinning) (he : TableEnabled T pages spinning e)
    (hinv : WaitInvariant T) (hwake : NoLostWakeup T) (hkeep : KeepsWaker T e) :
    NoLostWakeup (tableStep T e) := by
  cases e with
  | schedule =>
      rw [noLostWakeup_iff] at hwake ⊢
      intro p hp
      rcases hwake p hp with ⟨c, hc, hppid⟩
      exact ⟨c, waited_keep_schedule h.toCore hc, by simpa [tableStep] using hppid⟩
  | createThread page =>
      exact noLostWakeup_extends (Table.createThread_extends h.toCore) h.toCore he.2.2 hwake
  | userProcess =>
      -- before the first fork no process waits
      intro p hp
      rcases hwake p hp with ⟨c, hc, -, hwait, hstate⟩
      have hle := h.ppid_le c (h.listed c hc)
      rw [he.2.1] at hle
      exact absurd (BitVec.le_zero_iff.1 hle) (hinv.parent c ⟨hc, hwait, hstate⟩)
  | fork page =>
      rcases he with ⟨rfl, -, hpage⟩
      exact noLostWakeup_extends (Table.fork_extends h) h.toCore hpage hwake
  | waitpid pid =>
      have hspin : spinning = false := he
      rw [hspin] at h
      exact noLostWakeup_waitpid h hwake hkeep
  | exit =>
      have hspin : spinning = false := he
      rw [hspin] at h
      exact noLostWakeup_exit h hinv hwake hkeep
  | kill pid sig answer =>
      have hspin : spinning = false := he
      rw [hspin] at h
      change NoLostWakeup (T.kill pid sig answer)
      have hkeep' : KillAllowed T pid sig answer := hkeep
      rw [Table.kill]
      rw [KillAllowed] at hkeep'
      by_cases hsig : sig = 9
      · rw [if_pos hsig] at hkeep' ⊢
        by_cases hrefused : pid = 2 ∧ ¬ (answer = 'Y' ∨ answer = 'y')
        · rw [if_pos hrefused]
          exact hwake
        · rw [if_neg hrefused] at hkeep' ⊢
          by_cases hself : pid = (T.proc T.current).pid
          · rw [if_pos hself] at hkeep' ⊢
            exact noLostWakeup_exit h hinv hwake hkeep'
          · rw [if_neg hself] at hkeep' ⊢
            exact noLostWakeup_killOther hwake hkeep'
      · rw [if_neg hsig]
        exact hwake

section Runs

variable {memory : PcbRef → PCB} {page : PcbRef} {es : List Event} {σ : System}

/-- The event is enabled and loses no wake-up; no page of a new process holds a mark. -/
def Careful (σ : System) (e : Event) : Prop := Unmarked σ e ∧ KeepsWaker σ.sched.table e

instance (σ : System) (e : Event) : Decidable (Careful σ e) :=
  inferInstanceAs (Decidable (_ ∧ _))

/-- Along a run whose steps all keep a waker, every waiting process can still be woken. -/
theorem no_lost_wakeup (hpage : page < maxPcbs)
    (hrun : Run System.exec Careful (System.boot memory page) es σ) :
    NoLostWakeup σ.sched.table := by
  have hinv : ∃ T, Reached σ T ∧ NoLostWakeup T := by
    refine hrun.invariant (fun σ => ∃ T, Reached σ T ∧ NoLostWakeup T)
      ⟨_, ⟨boot_tracks memory hpage, bootTable_waitInvariant memory page⟩,
        fun p hp => by cases hp⟩ ?_
    rintro σ e σ' ⟨T, h, hwake⟩ ⟨he, hkeep⟩ hstep
    rw [h.represents.table_eq h.valid.length_le] at hkeep
    exact ⟨_, h.step he hstep,
      noLostWakeup_step h.valid (h.enabled he.1) h.marks hwake hkeep⟩
  rcases hinv with ⟨T, h, hwake⟩
  rwa [h.represents.table_eq h.valid.length_le]

end Runs

/-- Process 2 waits for process 3, which then has the processor. -/
theorem no_lost_wakeup_grandchild :
    ∃ σ, Run System.exec Careful (System.boot zeroFilled 0)
        (grandchild ++ [.waitpid 3, .schedule]) σ ∧
      NoLostWakeup σ.sched.table := by
  have hsome : (replay System.exec Careful (grandchild ++ [.waitpid 3, .schedule])
      (System.boot zeroFilled 0)).isSome := by decide +kernel
  rcases Option.isSome_iff_exists.1 hsome with ⟨σ, hσ⟩
  have hrun := run_of_replay hσ
  exact ⟨σ, hrun, no_lost_wakeup (by decide) hrun⟩

/-- The child exits first; the parent that waits for it afterwards is never woken. -/
theorem not_no_lost_wakeup :
    ¬ ∀ (page : PcbRef) (es : List Event) (σ : System), page < maxPcbs →
        Run System.exec Enabled (System.boot zeroFilled page) es σ →
        NoLostWakeup σ.sched.table := by
  intro hclaim
  let es : List Event :=
    [.createThread 1, .schedule, .userProcess, .fork 2, .schedule, .exit, .schedule, .waitpid 2]
  have hsome : (replay System.exec Enabled es (System.boot zeroFilled 0)).map (fun σ =>
      decide (1 ∈ σ.sched.table.blocked ∧ ¬ ∃ c ∈ σ.sched.table.threads ++ σ.sched.table.blocked,
        (σ.sched.table.proc c).ppid = (σ.sched.table.proc 1).pid ∧
          (σ.sched.table.proc c).isWait = true ∧ (σ.sched.table.proc c).state ≠ .zombie)) =
      some true := by decide +kernel
  rcases Option.map_eq_some_iff.1 hsome with ⟨σ, hσ, hcheck⟩
  rcases of_decide_eq_true hcheck with ⟨hblocked, hnone⟩
  exact hnone (hclaim 0 es σ (by decide) (run_of_replay hσ) 1 hblocked)

end Sched

end OswpKernel
