import OswpKernel.Scheduler.Runs

/-!
# Scheduler waiting — does `waitpid` wait?

`sys_waitpid` looks for the child in `threadlist` only.  If it finds it there, the caller goes to
`blockedlist` and `waitpid_waits` shows that it does not run again before that child is a ZOMBIE,
whatever the other processes do, as long as no process starts with a mark that its page held.  If
the child is itself waiting, it is in `blockedlist`: it is not found, and the caller stays ready
(`not_waitpid_waits`).

The argument is an invariant on the marks `is_wait`: a process in `threadlist` has no marked child
that is still to exit, and no process ever has two.
-/

namespace OswpKernel

open Chain Execution

namespace Sched

variable {T T' : Table} {pages : List PcbRef} {spinning : Bool} {x parent child : PcbRef}
  {e : Event}

/-! ## Events on the table -/

/-- What `Enabled` says about the table. -/
def TableEnabled (T : Table) (pages : List PcbRef) (spinning : Bool) : Event → Prop
  | .schedule => True
  | .createThread page => spinning = false ∧ page < maxPcbs ∧ page ∉ pages
  | .userProcess => spinning = false ∧ T.count = 0 ∧ T.current ≠ T.main
  | .fork page => spinning = false ∧ page < maxPcbs ∧ page ∉ pages
  | .waitpid _ => spinning = false
  | .exit => spinning = false
  | .kill _ _ _ => spinning = false

theorem Tracks.enabled {σ : System} (h : Tracks σ T) (he : Enabled σ e) :
    TableEnabled T σ.pages σ.spinning e := by
  cases e with
  | createThread page => exact ⟨he.1, he.2.1⟩
  | userProcess =>
      rcases he with ⟨hspin, hcount, hmain⟩
      rw [h.represents.count] at hcount
      rw [h.represents.current, h.represents.main] at hmain
      exact ⟨hspin, hcount, hmain⟩
  | _ => exact he

/-- A process that does not spin is RUNNING, so it has not exited. -/
theorem current_running (h : T.Valid pages spinning) (hspin : spinning = false) :
    (T.proc T.current).state = .running := by
  have hturn := h.turn
  rwa [hspin] at hturn

/-! ## Ids and exits are final -/

theorem kill_cases (T : Table) (pid : Pid) (sig : Int) (answer : Char) :
    T.kill pid sig answer = T ∨ T.kill pid sig answer = T.exit ∨
      (T.kill pid sig answer = T.killOther pid ∧ pid ≠ (T.proc T.current).pid) := by
  rw [Table.kill]
  split_ifs with hsig hrefused hself
  · exact Or.inl rfl
  · exact Or.inr (Or.inl rfl)
  · exact Or.inr (Or.inr ⟨rfl, hself⟩)
  · exact Or.inl rfl

theorem exit_pid (T : Table) (x : PcbRef) : (T.exit.proc x).pid = (T.proc x).pid := by
  rcases Table.exit_cases T with ⟨heq, -⟩ | ⟨-, -, y, -, -, heq⟩ <;> simp [heq]

theorem exit_ppid (T : Table) (x : PcbRef) : (T.exit.proc x).ppid = (T.proc x).ppid := by
  rcases Table.exit_cases T with ⟨heq, -⟩ | ⟨-, -, y, -, -, heq⟩ <;> simp [heq]

theorem exit_state (T : Table) (x : PcbRef) :
    (T.exit.proc x).state = if x = T.current then .zombie else (T.proc x).state := by
  rcases Table.exit_cases T with ⟨heq, -⟩ | ⟨-, -, y, -, -, heq⟩ <;>
    simp [heq, Table.setState_state]

theorem killOther_proc (T : Table) (pid : Pid) : (T.killOther pid).proc = T.proc := by
  rcases Table.killOther_cases T pid with heq | ⟨y, -, -, -, heq⟩ | ⟨y, -, -, heq⟩ <;> rw [heq]

/-- Once a process id has been handed out, no event changes an id. -/
theorem tableStep_ids (he : TableEnabled T pages spinning e) (hx : x ∈ pages)
    (hcount : T.count ≠ 0) :
    ((tableStep T e).proc x).pid = (T.proc x).pid ∧
      ((tableStep T e).proc x).ppid = (T.proc x).ppid := by
  cases e with
  | schedule => exact ⟨T.schedule_pid x, T.schedule_ppid x⟩
  | createThread page =>
      have hne : x ≠ page := fun heq => he.2.2 (heq ▸ hx)
      simp [tableStep, Table.createThread, Table.modify, hne]
  | userProcess => exact absurd he.2.1 hcount
  | fork page =>
      have hne : x ≠ page := fun heq => he.2.2 (heq ▸ hx)
      simp [tableStep, Table.fork, Table.modify, hne]
  | waitpid pid => simp [tableStep, Table.waitpid]
  | exit => exact ⟨exit_pid T x, exit_ppid T x⟩
  | kill pid sig answer =>
      change ((T.kill pid sig answer).proc x).pid = _ ∧ ((T.kill pid sig answer).proc x).ppid = _
      rcases kill_cases T pid sig answer with heq | heq | ⟨heq, -⟩
      · simp [heq]
      · rw [heq]
        exact ⟨exit_pid T x, exit_ppid T x⟩
      · simp [heq, killOther_proc]

/-- `schedule` picks a ready entry, or else the main thread. -/
theorem pick_ready (T : Table) : T.Ready T.pick ∨ T.pick = T.main := by
  rw [Table.pick]
  cases hahead : T.ahead.find? T.Ready with
  | some y =>
      have htest := List.find?_some hahead
      exact Or.inl (of_decide_eq_true htest)
  | none =>
      cases hthreads : T.threads.find? T.Ready with
      | some y =>
          have htest := List.find?_some hthreads
          exact Or.inl (of_decide_eq_true htest)
      | none => exact Or.inr rfl

/-- `schedule` leaves a ZOMBIE alone, and makes no other process one, the main thread apart. -/
theorem schedule_zombie_iff (hmain : x ≠ T.main) :
    (T.schedule.proc x).state = .zombie ↔ (T.proc x).state = .zombie := by
  rw [Table.schedule_state]
  split_ifs with hpick hcurrent
  · -- the process that is picked was ready
    have hready : (T.proc x).state = .sleeping := by
      rcases pick_ready T with hready | hpickmain
      · rw [hpick]
        exact hready
      · exact absurd (hpick.trans hpickmain) hmain
    simp [hready]
  · rw [Table.restState, ← hcurrent, if_neg hmain]
    split_ifs with hzombie
    · simpa using hzombie
    · simpa using hzombie
  · rfl

/-- A process that has exited stays a ZOMBIE. -/
theorem tableStep_zombie (h : T.Valid pages spinning) (he : TableEnabled T pages spinning e)
    (hx : x ∈ pages) (hmain : x ≠ T.main) (hzombie : (T.proc x).state = .zombie) :
    ((tableStep T e).proc x).state = .zombie := by
  have hcurrent : spinning = false → x ≠ T.current := by
    rintro hspin rfl
    rw [current_running h hspin] at hzombie
    cases hzombie
  cases e with
  | schedule => exact (schedule_zombie_iff hmain).2 hzombie
  | createThread page =>
      have hne : x ≠ page := fun heq => he.2.2 (heq ▸ hx)
      simpa [tableStep, Table.createThread, Table.modify, hne] using hzombie
  | userProcess =>
      simpa [tableStep, Table.userProcess, Table.modify, hcurrent he.1] using hzombie
  | fork page =>
      have hne : x ≠ page := fun heq => he.2.2 (heq ▸ hx)
      simpa [tableStep, Table.fork, Table.modify, hne] using hzombie
  | waitpid pid =>
      have hmain' : x ≠ ((T.enterWait pid).setState T.current .blocked).main := by
        simpa using hmain
      refine (schedule_zombie_iff hmain').2 ?_
      rw [Table.setState_state, if_neg (hcurrent he), Table.enterWait_state]
      exact hzombie
  | exit =>
      change (T.exit.proc x).state = .zombie
      rw [exit_state, if_neg (hcurrent he), hzombie]
  | kill pid sig answer =>
      change ((T.kill pid sig answer).proc x).state = .zombie
      rcases kill_cases T pid sig answer with heq | heq | ⟨heq, -⟩
      · rw [heq, hzombie]
      · rw [heq, exit_state, if_neg (hcurrent he), hzombie]
      · rw [heq, killOther_proc, hzombie]

/-! ## Marked children -/

/-- `x` is marked and can still exit: the exit of `x` may wake its parent. -/
def Waited (T : Table) (x : PcbRef) : Prop :=
  x ∈ T.threads ++ T.blocked ∧ (T.proc x).isWait = true ∧ (T.proc x).state ≠ .zombie

/-- What an event does to the marks and to `threads`: nothing new but fresh entries; the caller of
`waitpid` leaves after marking a child; or the current process exits and one parent comes back. -/
inductive MarkStep (T T' : Table) (pages : List PcbRef) : Prop
  | quiet (waited : ∀ x, Waited T' x → Waited T x)
      (threads : ∀ p ∈ T'.threads, p ∈ T.threads ∨ p ∉ pages ∧
        ((T'.proc p).pid = 0 ∨ T.count < (T'.proc p).pid))
  | wait (pid : Pid) (waited : ∀ x, Waited T' x → Waited T x ∨ T.WaitTarget pid x)
      (threads : ∀ p ∈ T'.threads, p ∈ T.threads ∧ p ≠ T.current)
  | wake (parent : PcbRef) (blocked : parent ∈ T.blocked)
      (pid : (T.proc parent).pid = (T.proc T.current).ppid) (exits : Waited T T.current)
      (zombie : (T'.proc T.current).state = .zombie)
      (waited : ∀ x, Waited T' x → Waited T x ∧ x ≠ T.current)
      (threads : ∀ p ∈ T'.threads, p = parent ∨ p ∈ T.threads)

theorem Core.waited_ne_main (h : T.Core pages) (hwait : (T.proc x).isWait = true) :
    x ≠ T.main := by
  rintro rfl
  rw [h.main_unmarked] at hwait
  cases hwait

theorem waited_schedule (h : T.Core pages) (hx : Waited T.schedule x) : Waited T x := by
  rcases hx with ⟨hmem, hwait, hstate⟩
  rw [Table.schedule_isWait] at hwait
  have hmain : x ≠ T.main := Core.waited_ne_main h hwait
  exact ⟨hmem, hwait, fun hzombie => hstate ((schedule_zombie_iff hmain).2 hzombie)⟩

/-- The children marked after `waitpid`. -/
theorem waited_waitpid (h : T.Valid pages false) {pid : Pid} (hx : Waited (T.waitpid pid) x) :
    Waited T x ∨ T.WaitTarget pid x := by
  have hcore := Table.setState_core (Table.enterWait_core h.toCore h.current pid) T.current
    .blocked
  rcases waited_schedule hcore hx with ⟨hmem, hwait, hstate⟩
  rw [Table.setState_threads, Table.setState_blocked, Table.mem_enterWait h.current] at hmem
  have hzombie : (T.proc x).state ≠ .zombie := by
    rw [Table.setState_state, Table.enterWait_state] at hstate
    split_ifs at hstate with hcurrent
    · rw [hcurrent, current_running h rfl]
      decide
    · exact hstate
  by_cases htarget : T.WaitTarget pid x
  · exact Or.inr htarget
  · refine Or.inl ⟨hmem, ?_, hzombie⟩
    rw [Table.setState_isWait, Table.enterWait] at hwait
    split_ifs at hwait
    · simpa [Table.marked, htarget] using hwait
    · exact hwait

theorem waited_zombie (hx : Waited (T.setState T.current .zombie) x) :
    Waited T x ∧ x ≠ T.current := by
  rcases hx with ⟨hmem, hwait, hstate⟩
  rw [Table.setState_isWait] at hwait
  rw [Table.setState_state] at hstate
  split_ifs at hstate with hcurrent
  · exact absurd rfl hstate
  · exact ⟨⟨hmem, hwait, hstate⟩, hcurrent⟩

theorem markStep_extends {page : PcbRef} {p : Proc} (he : Table.Extends T T' page p)
    (h : T.Core pages) (hpage : page ∉ pages) (hunmarked : p.isWait = false)
    (hpid : p.pid = 0 ∨ T.count < p.pid) : MarkStep T T' pages := by
  refine .quiet ?_ ?_
  · rintro x ⟨hmem, hwait, hstate⟩
    rcases he.mem_iff.1 hmem with rfl | hmem
    · rw [he.proc_new, hunmarked] at hwait
      cases hwait
    · rw [he.proc_old hpage (h.listed x hmem)] at hwait hstate
      exact ⟨hmem, hwait, hstate⟩
  · intro q hq
    rw [he.threads.mem_iff] at hq
    rcases List.mem_cons.1 hq with rfl | hq
    · rw [he.proc_new]
      exact Or.inr ⟨hpage, hpid⟩
    · exact Or.inl hq

theorem markStep_exit (h : T.Valid pages false) : MarkStep T T.exit pages := by
  rcases Table.exit_cases T with ⟨heq, -⟩ | ⟨-, hwait, x, hx, hppid, heq⟩
  · rw [heq]
    exact .quiet (fun x hx => (waited_zombie hx).1) fun p hp => Or.inl hp
  · have hx' : x ∈ T.threads := by
      rcases hx with rfl | hx
      · exact h.current
      · exact hx
    have hback : ∀ y, Waited ((T.setState T.current .zombie).wake x) y →
        Waited (T.setState T.current .zombie) y := by
      rintro y ⟨hmem, hwait, hstate⟩
      rw [Table.wake_proc] at hwait hstate
      exact ⟨Table.mem_of_mem_wake (T := T.setState T.current .zombie) hx' hmem, hwait, hstate⟩
    rw [heq]
    rcases Table.wake_cases (T.setState T.current .zombie) x with
      ⟨hsame, -⟩ | ⟨front, parent, rest, hsplit, -, hparent, hwoken⟩
    · rw [hsame]
      exact .quiet (fun y hy => (waited_zombie hy).1) fun p hp => Or.inl hp
    · refine .wake parent ?_ ?_ ?_ (by simp [Table.setState_state])
        (fun y hy => waited_zombie (hback y hy)) ?_
      · have hmem : parent ∈ front ++ parent :: rest := by simp
        exact hsplit ▸ hmem
      · rw [Table.setState_pid, Table.setState_ppid] at hparent
        rw [hparent, hppid]
      · refine ⟨List.mem_append_left _ h.current, hwait, ?_⟩
        rw [current_running h rfl]
        decide
      · intro p hp
        rw [hwoken] at hp
        exact (mem_insertAfter hx').1 hp

/-- The page of a new process holds no mark. -/
def TableUnmarked (T : Table) : Event → Prop
  | .fork page => (T.proc page).isWait = false
  | _ => True

theorem markStep (h : T.Valid pages spinning) (he : TableEnabled T pages spinning e)
    (hclean : TableUnmarked T e) : MarkStep T (tableStep T e) pages := by
  cases e with
  | schedule => exact .quiet (fun x hx => waited_schedule h.toCore hx) fun p hp => Or.inl hp
  | createThread page =>
      exact markStep_extends (Table.createThread_extends h.toCore) h.toCore he.2.2 rfl
        (Or.inl rfl)
  | userProcess =>
      -- the ids change, the marks and states do not
      refine .quiet ?_ fun p hp => Or.inl hp
      rintro x ⟨hmem, hwait, hstate⟩
      by_cases hcurrent : x = T.current
      · subst hcurrent
        simp only [tableStep, Table.userProcess, Table.modify, Function.update_self]
          at hwait hstate
        exact ⟨hmem, hwait, hstate⟩
      · simp only [tableStep, Table.userProcess, Table.modify, Function.update_of_ne hcurrent]
          at hwait hstate
        exact ⟨hmem, hwait, hstate⟩
  | fork page =>
      rcases he with ⟨rfl, -, hpage⟩
      refine markStep_extends (Table.fork_extends h) h.toCore hpage hclean (Or.inr ?_)
      rw [BitVec.lt_def, h.toNat_count_succ]
      exact Nat.lt_succ_self _
  | waitpid pid =>
      have hspin : spinning = false := he
      rw [hspin] at h
      change MarkStep T (T.waitpid pid) pages
      by_cases htarget : ∃ x ∈ T.threads, T.WaitTarget pid x
      · refine .wait pid (fun x hx => waited_waitpid h hx) ?_
        intro p hp
        have hp' : p ∈ (T.enterWait pid).threads := hp
        rw [Table.enterWait, if_pos htarget] at hp'
        exact ⟨List.mem_of_mem_erase hp',
          ((List.nodup_append.1 h.nodup).1.mem_erase_iff.1 hp').1⟩
      · refine .quiet (fun x hx => ?_) fun p hp => Or.inl ?_
        · exact (waited_waitpid h hx).resolve_right fun hmark => htarget ⟨x, hmark.1, hmark⟩
        · have hp' : p ∈ (T.enterWait pid).threads := hp
          rwa [Table.enterWait, if_neg htarget] at hp'
  | exit =>
      have hspin : spinning = false := he
      rw [hspin] at h
      exact markStep_exit h
  | kill pid sig answer =>
      have hspin : spinning = false := he
      rw [hspin] at h
      change MarkStep T (T.kill pid sig answer) pages
      rcases kill_cases T pid sig answer with heq | heq | ⟨heq, -⟩
      · rw [heq]
        exact .quiet (fun x hx => hx) fun p hp => Or.inl hp
      · rw [heq]
        exact markStep_exit h
      · rw [heq]
        have hsub := Table.killOther_sublist T pid
        refine .quiet ?_ fun p hp => Or.inl (hsub.1.mem hp)
        rintro x ⟨hmem, hwait, hstate⟩
        rw [killOther_proc] at hwait hstate
        exact ⟨(hsub.1.append hsub.2).mem hmem, hwait, hstate⟩

/-- A marked process has a parent.  A process in `threads` has no marked child, and no process has
two. -/
structure WaitInvariant (T : Table) : Prop where
  parent : ∀ x, Waited T x → (T.proc x).ppid ≠ 0
  threads : ∀ x, Waited T x → ∀ p ∈ T.threads, (T.proc p).pid ≠ (T.proc x).ppid
  unique : ∀ x y, Waited T x → Waited T y → (T.proc x).ppid = (T.proc y).ppid → x = y

theorem Waited.mem_pages (h : T.Core pages) (hx : Waited T x) : x ∈ pages := h.listed x hx.1

theorem count_ne_zero_of_ppid (h : T.Core pages) (hx : x ∈ pages) (hppid : (T.proc x).ppid ≠ 0) :
    T.count ≠ 0 := by
  intro hcount
  have hle := h.ppid_le x hx
  rw [hcount] at hle
  exact hppid (BitVec.le_zero_iff.1 hle)

/-- A marked process, or one that a `waitpid` marks, has a parent. -/
theorem ppid_ne_zero_of_marked (h : T.Core pages) (hinv : WaitInvariant T) {k : Pid}
    (hx : Waited T x ∨ T.WaitTarget k x) : x ∈ pages ∧ (T.proc x).ppid ≠ 0 := by
  rcases hx with hx | hx
  · exact ⟨hx.mem_pages h, hinv.parent x hx⟩
  · refine ⟨h.listed x (List.mem_append_left _ hx.1), ?_⟩
    rw [hx.2.1]
    exact hx.2.2.1

theorem waitInvariant_step (h : T.Valid pages spinning) (he : TableEnabled T pages spinning e)
    (hclean : TableUnmarked T e) (hinv : WaitInvariant T) : WaitInvariant (tableStep T e) := by
  have hcore := h.toCore
  -- with a marked process around, ids do not change
  have hids : ∀ {x y}, x ∈ pages ∧ (T.proc x).ppid ≠ 0 → y ∈ pages →
      ((tableStep T e).proc y).pid = (T.proc y).pid ∧
        ((tableStep T e).proc y).ppid = (T.proc y).ppid := fun hx hy =>
    tableStep_ids he hy (count_ne_zero_of_ppid hcore hx.1 hx.2)
  have hlisted : ∀ p ∈ T.threads, p ∈ pages := fun p hp =>
    h.listed p (List.mem_append_left _ hp)
  rcases markStep h he hclean with ⟨hwaited, hthreads⟩ | ⟨pid, hwaited, hthreads⟩ |
    ⟨parent, hblocked, hpid, hexits, -, hwaited, hthreads⟩
  · refine ⟨fun x hx => ?_, fun x hx p hp => ?_, fun x y hx hy heq => ?_⟩
    · have hx' := ppid_ne_zero_of_marked (k := 0) hcore hinv (Or.inl (hwaited x hx))
      rw [(hids hx' hx'.1).2]
      exact hx'.2
    · have hx' := ppid_ne_zero_of_marked (k := 0) hcore hinv (Or.inl (hwaited x hx))
      rw [(hids hx' hx'.1).2]
      rcases hthreads p hp with hp' | ⟨-, hnew⟩
      · rw [(hids hx' (hlisted p hp')).1]
        exact hinv.threads x (hwaited x hx) p hp'
      · -- a fresh id is not the id of anybody's parent
        intro heq
        rw [heq] at hnew
        rcases hnew with hzero | hlt
        · exact hx'.2 hzero
        · exact BitVec.not_lt.2 (h.ppid_le x hx'.1) hlt
    · have hx' := ppid_ne_zero_of_marked (k := 0) hcore hinv (Or.inl (hwaited x hx))
      rw [(hids hx' hx'.1).2, (hids hx' ((hwaited y hy).mem_pages hcore)).2] at heq
      exact hinv.unique x y (hwaited x hx) (hwaited y hy) heq
  · -- the caller had no marked child, and now it is off `threads`
    have hcaller : ∀ y, Waited T y → (T.proc y).ppid ≠ (T.proc T.current).pid := fun y hy heq =>
      hinv.threads y hy T.current h.current heq.symm
    refine ⟨fun x hx => ?_, fun x hx p hp => ?_, fun x y hx hy heq => ?_⟩
    · have hx' := ppid_ne_zero_of_marked hcore hinv (hwaited x hx)
      rw [(hids hx' hx'.1).2]
      exact hx'.2
    · have hx' := ppid_ne_zero_of_marked hcore hinv (hwaited x hx)
      have hp' := hthreads p hp
      rw [(hids hx' hx'.1).2, (hids hx' (hlisted p hp'.1)).1]
      rcases hwaited x hx with hold | htarget
      · exact hinv.threads x hold p hp'.1
      · intro heq
        rw [htarget.2.1] at heq
        exact hp'.2 (h.pid_inj p (hlisted p hp'.1) T.current (hlisted _ h.current) heq
          (by rw [heq]; exact htarget.2.2.1))
    · have hx' := ppid_ne_zero_of_marked hcore hinv (hwaited x hx)
      have hy' := ppid_ne_zero_of_marked hcore hinv (hwaited y hy)
      rw [(hids hx' hx'.1).2, (hids hx' hy'.1).2] at heq
      rcases hwaited x hx with hx'' | hx'' <;> rcases hwaited y hy with hy'' | hy''
      · exact hinv.unique x y hx'' hy'' heq
      · exact absurd (heq.trans hy''.2.1) (hcaller x hx'')
      · exact absurd (heq.symm.trans hx''.2.1) (hcaller y hy'')
      · refine h.pid_inj x hx'.1 y hy'.1 (hx''.2.2.2.trans hy''.2.2.2.symm) fun hzero => ?_
        exact hx'.2 (h.rootless x hx'.1 hzero)
  · refine ⟨fun x hx => ?_, fun x hx p hp => ?_, fun x y hx hy heq => ?_⟩
    · have hx' := ppid_ne_zero_of_marked (k := 0) hcore hinv (Or.inl (hwaited x hx).1)
      rw [(hids hx' hx'.1).2]
      exact hx'.2
    · have hx' := ppid_ne_zero_of_marked (k := 0) hcore hinv (Or.inl (hwaited x hx).1)
      rw [(hids hx' hx'.1).2]
      rcases hthreads p hp with rfl | hp'
      · -- the marked child of the parent that comes back was the one that exits
        rw [(hids hx' (h.listed p (List.mem_append_right _ hblocked))).1, hpid]
        intro heq
        exact (hwaited x hx).2 (hinv.unique x T.current (hwaited x hx).1 hexits heq.symm)
      · rw [(hids hx' (hlisted p hp')).1]
        exact hinv.threads x (hwaited x hx).1 p hp'
    · have hx' := ppid_ne_zero_of_marked (k := 0) hcore hinv (Or.inl (hwaited x hx).1)
      rw [(hids hx' hx'.1).2, (hids hx' ((hwaited y hy).1.mem_pages hcore)).2] at heq
      exact hinv.unique x y (hwaited x hx).1 (hwaited y hy).1 heq

/-! ## A waiting process stays where it is -/

/-- `parent` waits for `child`: it is off `threads`, and no other child of it is marked. -/
structure Held (T : Table) (parent child : PcbRef) : Prop where
  out : parent ∉ T.threads
  resting : (T.proc parent).state ≠ .running
  only : ∀ x, Waited T x → (T.proc x).ppid = (T.proc parent).pid → x = child

/-- The only states an event changes to RUNNING or BLOCKED are those of entries of `threads`. -/
theorem tableStep_resting (h : T.Valid pages spinning) (he : TableEnabled T pages spinning e)
    (hx : x ∈ pages) (hout : x ∉ T.threads) (hresting : (T.proc x).state ≠ .running) :
    ((tableStep T e).proc x).state ≠ .running := by
  have hcurrent : x ≠ T.current := by
    rintro rfl
    exact hout h.current
  -- `schedule` picks an entry of `threads`, and `x` is not one
  have hschedule : ∀ {T' : Table}, T'.Core pages → x ∉ T'.threads → x ≠ T'.current →
      (T'.proc x).state ≠ .running → (T'.schedule.proc x).state ≠ .running := by
    intro T' hcore hout' hcurrent' hresting'
    have hpick : x ≠ T'.pick := fun heq => hout' (heq ▸ Table.pick_mem hcore)
    rw [Table.schedule_state, if_neg hpick, if_neg hcurrent']
    exact hresting'
  cases e with
  | schedule => exact hschedule h.toCore hout hcurrent hresting
  | createThread page =>
      have hne : x ≠ page := fun heq => he.2.2 (heq ▸ hx)
      simpa [tableStep, Table.createThread, Table.modify, hne] using hresting
  | userProcess => simpa [tableStep, Table.userProcess, Table.modify, hcurrent] using hresting
  | fork page =>
      have hne : x ≠ page := fun heq => he.2.2 (heq ▸ hx)
      simpa [tableStep, Table.fork, Table.modify, hne] using hresting
  | waitpid pid =>
      refine hschedule (Table.setState_core (Table.enterWait_core h.toCore h.current pid) _ _)
        ?_ (by simpa using hcurrent) ?_
      · intro hmem
        rw [Table.setState_threads, Table.enterWait] at hmem
        split_ifs at hmem
        · exact hout (List.mem_of_mem_erase hmem)
        · exact hout hmem
      · rw [Table.setState_state, if_neg hcurrent, Table.enterWait_state]
        exact hresting
  | exit =>
      change (T.exit.proc x).state ≠ .running
      rw [exit_state, if_neg hcurrent]
      exact hresting
  | kill pid sig answer =>
      change ((T.kill pid sig answer).proc x).state ≠ .running
      rcases kill_cases T pid sig answer with heq | heq | ⟨heq, -⟩
      · rwa [heq]
      · rw [heq, exit_state, if_neg hcurrent]
        exact hresting
      · rwa [heq, killOther_proc]

/-- One event: the parent goes on waiting unless the child exits. -/
theorem held_step (h : T.Valid pages spinning) (he : TableEnabled T pages spinning e)
    (hclean : TableUnmarked T e) (hparent : parent ∈ pages) (hpid : (T.proc parent).pid ≠ 0)
    (hheld : Held T parent child) :
    Held (tableStep T e) parent child ∨ ((tableStep T e).proc child).state = .zombie := by
  have hcore := h.toCore
  have hcount : T.count ≠ 0 := by
    intro hzero
    have hle := h.pid_le parent hparent
    rw [hzero] at hle
    exact hpid (BitVec.le_zero_iff.1 hle)
  have hids : ∀ {y}, y ∈ pages → ((tableStep T e).proc y).pid = (T.proc y).pid ∧
      ((tableStep T e).proc y).ppid = (T.proc y).ppid := fun hy => tableStep_ids he hy hcount
  have hresting := tableStep_resting h he hparent hheld.out hheld.resting
  -- ids do not change, so what is waited for by that parent is still the child only
  have honly : ∀ x, Waited T x → ((tableStep T e).proc x).ppid =
      ((tableStep T e).proc parent).pid → x = child := by
    intro x hx heq
    rw [(hids (hx.mem_pages hcore)).2, (hids hparent).1] at heq
    exact hheld.only x hx heq
  rcases markStep h he hclean with ⟨hwaited, hthreads⟩ | ⟨pid, hwaited, hthreads⟩ |
    ⟨woken, hblocked, hwoken, hexits, hzombie, hwaited, hthreads⟩
  -- no mark was set, and the parent comes to `threads` in no way but a new page
  · refine Or.inl ⟨fun hmem => ?_, hresting, fun x hx => honly x (hwaited x hx)⟩
    rcases hthreads parent hmem with hmem' | ⟨hfresh, -⟩
    · exact hheld.out hmem'
    · exact hfresh hparent
  · refine Or.inl ⟨fun hmem => hheld.out (hthreads parent hmem).1, hresting, fun x hx heq => ?_⟩
    rcases hwaited x hx with hx' | htarget
    · exact honly x hx' heq
    · -- another process marks a child of its own
      have hx' : x ∈ pages := h.listed x (List.mem_append_left _ htarget.1)
      have hcurrent : T.current ∈ pages := h.listed _ (List.mem_append_left _ h.current)
      rw [(hids hx').2, (hids hparent).1, htarget.2.1] at heq
      have hself := h.pid_inj T.current hcurrent parent hparent heq htarget.2.2.1
      exact absurd (hself ▸ h.current) hheld.out
  · by_cases hself : woken = parent
    · -- the parent comes back: the process that exits is the child it waits for
      rw [hself] at hwoken
      have hchild := hheld.only T.current hexits hwoken.symm
      exact Or.inr (hchild ▸ hzombie)
    · refine Or.inl ⟨fun hmem => ?_, hresting, fun x hx => honly x (hwaited x hx).1⟩
      rcases hthreads parent hmem with heq | hmem'
      · exact hself heq.symm
      · exact hheld.out hmem'

/-- The call itself: a caller that finds the child in `threads` is held. -/
theorem held_waitpid (h : T.Valid pages false) (hinv : WaitInvariant T) {pid : Pid}
    (htarget : T.WaitTarget pid child) : Held (T.waitpid pid) T.current child := by
  have hcaller : T.current ∈ pages := h.listed _ (List.mem_append_left _ h.current)
  have hcore := Table.enterWait_core h.toCore h.current pid
  have hthreads : (T.waitpid pid).threads = T.threads.erase T.current := by
    change (T.enterWait pid).threads = _
    rw [Table.enterWait, if_pos ⟨child, htarget.1, htarget⟩]
  have hout : T.current ∉ (T.waitpid pid).threads := by
    rw [hthreads]
    exact (List.nodup_append.1 h.nodup).1.not_mem_erase
  refine ⟨hout, ?_, fun x hx heq => ?_⟩
  · have hvalid := Table.waitpid_valid h pid
    intro hstate
    have hmem : T.current ∈ (T.waitpid pid).threads ++ (T.waitpid pid).blocked := by
      change T.current ∈ (T.enterWait pid).threads ++ (T.enterWait pid).blocked
      rw [Table.mem_enterWait h.current]
      exact List.mem_append_left _ h.current
    exact hout (hvalid.running _ hmem hstate ▸ hvalid.current)
  · rw [Table.waitpid_ppid, Table.waitpid_pid] at heq
    rcases waited_waitpid h hx with hx' | hx'
    · exact absurd heq.symm (hinv.threads x hx' T.current h.current)
    · have hmemx : x ∈ pages := h.listed x (List.mem_append_left _ hx'.1)
      have hmemc : child ∈ pages := h.listed child (List.mem_append_left _ htarget.1)
      refine h.pid_inj x hmemx child hmemc (hx'.2.2.2.trans htarget.2.2.2.symm) fun hzero => ?_
      exact htarget.2.2.1 (heq ▸ h.rootless x hmemx hzero)

section Runs

variable {memory : PcbRef → PCB} {page : PcbRef} {es es' : List Event} {σ σ₁ σ₂ : System}

theorem bootTable_waitInvariant (memory : PcbRef → PCB) (page : PcbRef) :
    WaitInvariant (bootTable memory page) := by
  have hnone : ∀ x, ¬ Waited (bootTable memory page) x := by
    rintro x ⟨hmem, hwait, -⟩
    rw [bootTable_proc memory hmem] at hwait
    cases hwait
  exact ⟨fun x hx => absurd hx (hnone x), fun x hx => absurd hx (hnone x),
    fun x _ hx => absurd hx (hnone x)⟩

/-- The page of a process that is forked does not hold a mark. -/
def PageUnmarked (σ : System) : Event → Prop
  | .fork page => (σ.sched.pcb page).isWait = false
  | _ => True

instance (σ : System) (e : Event) : Decidable (PageUnmarked σ e) :=
  match e with
  | .fork _ => inferInstanceAs (Decidable (_ = _))
  | .schedule => inferInstanceAs (Decidable True)
  | .createThread _ => inferInstanceAs (Decidable True)
  | .userProcess => inferInstanceAs (Decidable True)
  | .waitpid _ => inferInstanceAs (Decidable True)
  | .exit => inferInstanceAs (Decidable True)
  | .kill _ _ _ => inferInstanceAs (Decidable True)

/-- The events of a run in which no process is marked but by `sys_waitpid`. -/
def Unmarked (σ : System) (e : Event) : Prop := Enabled σ e ∧ PageUnmarked σ e

instance (σ : System) (e : Event) : Decidable (Unmarked σ e) :=
  inferInstanceAs (Decidable (_ ∧ _))

theorem Tracks.unmarked (h : Tracks σ T) (he : PageUnmarked σ e) : TableUnmarked T e := by
  cases e with
  | fork page => exact (h.represents.isWait page).symm.trans he
  | _ => trivial

/-- A state that a run can reach, seen as a table. -/
structure Reached (σ : System) (T : Table) : Prop extends Tracks σ T where
  marks : WaitInvariant T

theorem Tracks.step (h : Tracks σ T) (he : Enabled σ e) (hstep : σ.exec e = some σ₁) :
    Tracks σ₁ (tableStep T e) := by
  rcases h.exec he with ⟨σ', hσ', h'⟩
  rw [hstep] at hσ'
  cases hσ'
  exact h'

theorem Reached.step (h : Reached σ T) (he : Unmarked σ e) (hstep : σ.exec e = some σ₁) :
    Reached σ₁ (tableStep T e) :=
  ⟨h.toTracks.step he.1 hstep,
    waitInvariant_step h.valid (h.enabled he.1) (h.unmarked he.2) h.marks⟩

theorem run_reached (hpage : page < maxPcbs)
    (hrun : Run System.exec Unmarked (System.boot memory page) es σ) : ∃ T, Reached σ T := by
  refine hrun.invariant (fun σ => ∃ T, Reached σ T)
    ⟨_, boot_tracks memory hpage, bootTable_waitInvariant memory page⟩ ?_
  rintro σ e σ' ⟨T, h⟩ he hstep
  exact ⟨_, h.step he hstep⟩

/-- `child` is a process that the caller forked, and `pid` is its id. -/
def OwnChild (s : Sched) (pid : Pid) (child : PcbRef) : Prop :=
  s.currentPid ≠ 0 ∧ (s.pcb child).ppid = s.currentPid ∧ (s.pcb child).pid = pid

instance (s : Sched) (pid : Pid) (child : PcbRef) : Decidable (OwnChild s pid child) :=
  inferInstanceAs (Decidable (_ ∧ _))

/-- The process `caller` is not running. -/
def Rests (s : Sched) (caller : PcbRef) : Prop :=
  caller ≠ s.currentthread ∧ (s.pcb caller).state ≠ .running

instance (s : Sched) (caller : PcbRef) : Decidable (Rests s caller) :=
  inferInstanceAs (Decidable (_ ∧ _))

theorem pages_of_exec (hstep : σ.exec e = some σ₁) (hx : x ∈ σ.pages) : x ∈ σ₁.pages := by
  cases e with
  | schedule =>
      cases hstep
      exact hx
  | createThread page =>
      rcases Option.bind_eq_some_iff.1 hstep with ⟨s', -, hs'⟩
      cases hs'
      exact List.mem_cons_of_mem _ hx
  | userProcess =>
      cases hstep
      exact hx
  | fork page =>
      cases hstep
      exact List.mem_cons_of_mem _ hx
  | waitpid pid =>
      cases hstep
      exact hx
  | exit =>
      rcases Option.bind_eq_some_iff.1 hstep with ⟨s', -, hs'⟩
      cases hs'
      exact hx
  | kill pid sig answer =>
      rcases Option.bind_eq_some_iff.1 hstep with ⟨⟨r, s'⟩, -, hs'⟩
      cases hs'
      exact hx

/-- From the call on: the caller is held, or the child has exited. -/
structure Waiting (σ : System) (T : Table) (parent child : PcbRef) : Prop
    extends Reached σ T where
  parent_mem : parent ∈ σ.pages
  child_mem : child ∈ σ.pages
  parent_pid : (T.proc parent).pid ≠ 0
  child_ppid : (T.proc child).ppid ≠ 0
  held : Held T parent child ∨ (T.proc child).state = .zombie

theorem Waiting.step (h : Waiting σ T parent child) (he : Unmarked σ e)
    (hstep : σ.exec e = some σ₁) : Waiting σ₁ (tableStep T e) parent child := by
  have hreached := h.toReached.step he hstep
  have he' := h.enabled he.1
  have hcount : T.count ≠ 0 :=
    count_ne_zero_of_ppid h.valid.toCore h.child_mem h.child_ppid
  have hparent := tableStep_ids he' h.parent_mem hcount
  have hchild := tableStep_ids he' h.child_mem hcount
  refine ⟨hreached, pages_of_exec hstep h.parent_mem, pages_of_exec hstep h.child_mem,
    hparent.1 ▸ h.parent_pid, hchild.2 ▸ h.child_ppid, ?_⟩
  rcases h.held with hheld | hzombie
  · exact held_step h.valid he' (h.unmarked he.2) h.parent_mem h.parent_pid hheld
  · have hmain : child ≠ T.main := by
      rintro rfl
      exact h.child_ppid h.valid.main_ppid
    exact Or.inr (tableStep_zombie h.valid he' h.child_mem hmain hzombie)

/-- A caller that finds its child in `threadlist` does not run again before the child is
a ZOMBIE. -/
theorem waitpid_waits (hpage : page < maxPcbs)
    (hrun : Run System.exec Unmarked (System.boot memory page) es σ) {pid : Pid} {child : PcbRef}
    (hcall : Enabled σ (.waitpid pid)) (hown : OwnChild σ.sched pid child)
    (hfound : child ∈ σ.sched.walk σ.sched.threadlist)
    (hstep : σ.exec (.waitpid pid) = some σ₁) (hrest : Run System.exec Unmarked σ₁ es' σ₂) :
    (σ₂.sched.pcb child).state = .zombie ∨ Rests σ₂.sched σ.sched.currentthread := by
  rcases run_reached hpage hrun with ⟨T, h⟩
  have hv : T.Valid σ.pages false := by
    have hspin : σ.spinning = false := hcall
    exact hspin ▸ h.valid
  have hrep := h.represents
  rw [hrep.walk_threads hv.length_le] at hfound
  have htarget : T.WaitTarget pid child := by
    rcases hown with ⟨hne, hppid, hpid⟩
    rw [currentPid, hrep.current, hrep.pid] at hne
    rw [currentPid, hrep.current, hrep.pid, hrep.ppid] at hppid
    rw [hrep.pid] at hpid
    exact ⟨hfound, hppid, hne, hpid⟩
  have hstart : Waiting σ₁ (T.waitpid pid) T.current child :=
    { toReached := h.step ⟨hcall, trivial⟩ hstep
      parent_mem := pages_of_exec hstep (hv.listed _ (List.mem_append_left _ hv.current))
      child_mem := pages_of_exec hstep (hv.listed _ (List.mem_append_left _ hfound))
      parent_pid := by
        rw [Table.waitpid_pid]
        exact htarget.2.2.1
      child_ppid := by
        rw [Table.waitpid_ppid, htarget.2.1]
        exact htarget.2.2.1
      held := Or.inl (held_waitpid hv h.marks htarget) }
  rcases hrest.invariant (fun σ' => ∃ T', Waiting σ' T' T.current child) ⟨_, hstart⟩
    (fun σ' e σ'' hwaiting he hstep' => hwaiting.elim fun T' h' => ⟨_, h'.step he hstep'⟩) with
    ⟨T', h'⟩
  rcases h'.held with hheld | hzombie
  · refine Or.inr ⟨?_, ?_⟩
    · rw [hrep.current, h'.represents.current]
      exact fun heq => hheld.out (heq ▸ h'.valid.current)
    · rw [hrep.current, h'.represents.state]
      exact hheld.resting
  · refine Or.inl ?_
    rw [h'.represents.state]
    exact hzombie

end Runs

/-- The first process forks a child and the child forks another one. -/
def grandchild : List Event :=
  [.createThread 1, .schedule, .userProcess, .fork 2, .schedule, .fork 3]

/-- Process 2 waits for process 3, and is still at rest after two more calls of `schedule`. -/
theorem waitpid_waits_grandchild :
    ∃ σ σ₁ σ₂, Run System.exec Unmarked (System.boot zeroFilled 0) grandchild σ ∧
      σ.exec (.waitpid 3) = some σ₁ ∧
      Run System.exec Unmarked σ₁ [.schedule, .schedule] σ₂ ∧
      ((σ₂.sched.pcb 3).state = .zombie ∨ Rests σ₂.sched σ.sched.currentthread) := by
  have hsome : ((replay System.exec Unmarked grandchild (System.boot zeroFilled 0)).bind fun σ =>
      (σ.exec (.waitpid 3)).bind fun σ₁ =>
        (replay System.exec Unmarked [.schedule, .schedule] σ₁).map fun _ =>
          decide (Enabled σ (.waitpid 3) ∧ OwnChild σ.sched 3 3 ∧
            3 ∈ σ.sched.walk σ.sched.threadlist)) = some true := by decide +kernel
  rcases Option.bind_eq_some_iff.1 hsome with ⟨σ, hσ, hsome⟩
  rcases Option.bind_eq_some_iff.1 hsome with ⟨σ₁, hσ₁, hsome⟩
  rcases Option.map_eq_some_iff.1 hsome with ⟨σ₂, hσ₂, hcheck⟩
  rcases of_decide_eq_true hcheck with ⟨hcall, hown, hfound⟩
  have hrun := run_of_replay hσ
  have hrest := run_of_replay hσ₂
  exact ⟨σ, σ₁, σ₂, hrun, hσ₁, hrest,
    waitpid_waits (by decide) hrun hcall hown hfound hσ₁ hrest⟩

/-- Process 2 waits for process 3; then process 1 waits for process 2, does not find it in
`threadlist`, and runs again although process 2 has not exited. -/
theorem not_waitpid_waits :
    ¬ ∀ (page : PcbRef) (es es' : List Event) (σ σ₁ σ₂ : System) (pid : Pid) (child : PcbRef),
        page < maxPcbs → Run System.exec Enabled (System.boot zeroFilled page) es σ →
        Enabled σ (.waitpid pid) → OwnChild σ.sched pid child → child ∈ σ.pages →
        (σ.sched.pcb child).state ≠ .zombie →
        (∀ sig answer, Event.kill pid sig answer ∉ es ++ es') →
        σ.exec (.waitpid pid) = some σ₁ → Run System.exec Enabled σ₁ es' σ₂ →
        (σ₂.sched.pcb child).state = .zombie ∨ Rests σ₂.sched σ.sched.currentthread := by
  intro hclaim
  have hsome : ((replay System.exec Enabled (grandchild ++ [.waitpid 3])
      (System.boot zeroFilled 0)).bind fun σ => (σ.exec (.waitpid 2)).bind fun σ₁ =>
        (replay System.exec Enabled [.schedule] σ₁).map fun σ₂ =>
          decide ((Enabled σ (.waitpid 2) ∧ OwnChild σ.sched 2 2 ∧ 2 ∈ σ.pages ∧
            (σ.sched.pcb 2).state ≠ .zombie) ∧
            ¬ ((σ₂.sched.pcb 2).state = .zombie ∨ Rests σ₂.sched σ.sched.currentthread))) =
      some true := by decide +kernel
  rcases Option.bind_eq_some_iff.1 hsome with ⟨σ, hσ, hsome⟩
  rcases Option.bind_eq_some_iff.1 hsome with ⟨σ₁, hσ₁, hsome⟩
  rcases Option.map_eq_some_iff.1 hsome with ⟨σ₂, hσ₂, hcheck⟩
  rcases of_decide_eq_true hcheck with ⟨⟨hcall, hown, hmem, halive⟩, hruns⟩
  refine hruns (hclaim 0 (grandchild ++ [.waitpid 3]) [.schedule] σ σ₁ σ₂ 2 2 (by decide)
    (run_of_replay hσ) hcall hown hmem halive ?_ hσ₁ (run_of_replay hσ₂))
  intro sig answer hkill
  simp [grandchild] at hkill

end Sched

end OswpKernel
