import OswpKernel.Scheduler.Steps
import OswpKernel.Scheduler.Fairness

/-!
# Scheduler foreground — `waitpid` returns

A shell that runs a command in the foreground forks, waits for the child and goes on when the child
has exited.  `Waiting` keeps it off the processor until then.  `waitpid_returns` is the other half:
the exit of the child links the shell in again as a ready process, and it has the processor back
after at most as many calls of `schedule` as there are ready processes, after the first call if it
has no other child.
-/

namespace OswpKernel

open Chain Execution

namespace Sched

variable {T : Table} {pages : List PcbRef} {spinning : Bool} {x parent child : PcbRef}
  {σ σ₁ σ₂ σ₃ : System} {e : Event}

/-! ## Taking turns in every reachable state -/

/-- A reachable state in which a process other than the main thread runs begins a round. -/
theorem Tracks.inRound (h : Tracks σ T) (hs : Settled T) (hspin : σ.spinning = false)
    (hmain : T.current ≠ T.main) : σ.sched.InRound T.threads := by
  have hv := h.valid
  rw [hspin] at hv
  have hrep := h.represents
  refine ⟨hrep.threads, fun x hx => hv.pages_low x (hv.listed x (List.mem_append_left _ hx)),
    ?_, ?_, ?_, ?_, ?_⟩
  · rw [hrep.current]
    exact hv.current
  · exact hrep.current_running hv
  · rw [hrep.current, hrep.main]
    exact hmain
  · rw [hrep.main, hrep.state]
    exact hs.main.resolve_left (Ne.symm hmain)
  · intro x hx hne
    rw [hrep.current] at hne
    rw [hrep.state]
    have hlisted := List.mem_append_left T.blocked hx
    have hblocked := hs.states x hlisted
    have hrunning := fun hstate => hne (hv.running x hlisted hstate)
    cases hstate : (T.proc x).state with
    | running => exact absurd hstate hrunning
    | sleeping => exact Or.inl rfl
    | zombie => exact Or.inr rfl
    | blocked => exact absurd hstate hblocked

/-- In a round every process that takes turns has the processor after at most as many calls as
there are ready ones. -/
theorem InRound.exists_turn {s : Sched} {xs : List PcbRef} (h : s.InRound xs)
    (hx : x ∈ s.turns xs) :
    ∃ k ≤ s.readyCount xs, (schedule^[k] s).currentthread = x := by
  have hlen := h.length_turns
  let j : ℕ := (s.turns xs).idxOf s.currentthread
  let i : ℕ := (s.turns xs).idxOf x
  have hjlt : j < (s.turns xs).length := List.idxOf_lt_length_of_mem h.current_mem_turns
  have hilt : i < (s.turns xs).length := List.idxOf_lt_length_of_mem hx
  rcases Nat.eq_zero_or_pos (s.readyCount xs) with hzero | hready
  · -- nobody else takes turns
    have hsame : i = j := by omega
    refine ⟨0, Nat.zero_le _, ?_⟩
    exact (List.idxOf_inj h.current_mem_turns).1 hsame.symm
  · have hj : (s.turns xs)[j]? = some s.currentthread := by
      rw [List.getElem?_eq_getElem hjlt, List.getElem_idxOf hjlt]
    have hi : (s.turns xs)[i]? = some x := by
      rw [List.getElem?_eq_getElem hilt, List.getElem_idxOf hilt]
    have hplace : (j + (i + (s.turns xs).length - j) % (s.turns xs).length) %
        (s.turns xs).length = i := by
      rw [Nat.add_mod_mod,
        show j + (i + (s.turns xs).length - j) = i + (s.turns xs).length by omega,
        Nat.add_mod_right, Nat.mod_eq_of_lt hilt]
    refine ⟨(i + (s.turns xs).length - j) % (s.turns xs).length, ?_, ?_⟩
    · have hlt := Nat.mod_lt (i + (s.turns xs).length - j) (by omega : 0 < (s.turns xs).length)
      omega
    · have hturn := h.iterate_schedule hready hj _
        ((congrArg (fun n => (s.turns xs)[n]?) hplace).trans hi)
      rw [h.giveTurn_current] at hturn
      rw [hturn]
      rfl

theorem pick_ready_of_mem (hx : x ∈ T.threads) (hready : T.Ready x) : T.Ready T.pick := by
  rw [Table.pick]
  cases hahead : T.ahead.find? T.Ready with
  | some y =>
      have htest := List.find?_some hahead
      exact of_decide_eq_true htest
  | none =>
      cases hthreads : T.threads.find? T.Ready with
      | some y =>
          have htest := List.find?_some hthreads
          exact of_decide_eq_true htest
      | none => exact absurd (decide_eq_true hready) (List.find?_eq_none.1 hthreads x hx)

/-- The first call of `schedule` after an exit takes the turn from the process that has exited: the
ready processes of before are those that take turns from then on. -/
theorem Tracks.schedule_exited (h : Tracks σ T) (hs : Settled T) (hspin : σ.spinning = true)
    (hmain : T.current ≠ T.main) (hx : x ∈ T.threads) (hready : T.Ready x) :
    σ.sched.schedule.InRound T.threads ∧
      (∀ y, y ∈ σ.sched.schedule.turns T.threads ↔ y ∈ T.threads ∧ T.Ready y) ∧
      σ.sched.schedule.readyCount T.threads < σ.sched.readyCount T.threads := by
  have hv := h.valid
  rcases h.exec (e := .schedule) trivial with ⟨σ', hσ', h'⟩
  cases hσ'
  have hzombie : (T.proc T.current).state = .zombie := by
    have hturn := hv.turn
    rwa [hspin] at hturn
  have hpick := pick_ready_of_mem hx hready
  have hpickMain : T.pick ≠ T.main := by
    intro heq
    have hstate : (T.proc T.main).state = .sleeping := heq ▸ hpick
    rw [hs.main.resolve_left (Ne.symm hmain)] at hstate
    cases hstate
  have hround : σ.sched.schedule.InRound T.threads :=
    h'.inRound (settled_schedule (fun y hy _ => hs.states y hy) hs.main) rfl hpickMain
  have hturns : ∀ y, y ∈ σ.sched.schedule.turns T.threads ↔ y ∈ T.threads ∧ T.Ready y := by
    intro y
    have hrest : T.restState = .zombie := by
      rw [Table.restState, if_neg hmain, if_neg (by simp [hzombie])]
    rw [hround.mem_turns, h'.represents.current, h'.represents.state]
    change y = T.pick ∨ y ∈ T.threads ∧ (T.schedule.proc y).state = .sleeping ↔ _
    rw [Table.schedule_state, hrest]
    constructor
    · rintro (rfl | ⟨hy, hstate⟩)
      · exact ⟨Table.pick_mem hv.toCore, hpick⟩
      · split_ifs at hstate
        exact ⟨hy, hstate⟩
    · rintro ⟨hy, hstate⟩
      by_cases hyp : y = T.pick
      · exact Or.inl hyp
      · have hyc : y ≠ T.current := by
          rintro rfl
          rw [Table.Ready, hzombie] at hstate
          cases hstate
        rw [if_neg hyp, if_neg hyc]
        exact Or.inr ⟨hy, hstate⟩
  refine ⟨hround, hturns, ?_⟩
  have hsub : σ.sched.schedule.turns T.threads ⊆
      T.threads.filter fun y => (σ.sched.pcb y).state = .sleeping := by
    intro y hy
    rcases (hturns y).1 hy with ⟨hmem, hstate⟩
    refine List.mem_filter.2 ⟨hmem, decide_eq_true ?_⟩
    rw [h.represents.state]
    exact hstate
  have hlen := (hround.turns_nodup.subperm hsub).length_le
  rwa [hround.length_turns, ← List.countP_eq_length_filter] at hlen

/-! ## The exit of the child -/

/-- Waking the parent of an entry, when it is `blocked`. -/
theorem wake_threads (h : T.Core pages) (hblocked : parent ∈ T.blocked)
    (hpid : (T.proc parent).pid ≠ 0) (hppid : (T.proc x).ppid = (T.proc parent).pid) :
    (T.wake x).threads = insertAfter x parent T.threads := by
  have hmem := h.listed parent (List.mem_append_right _ hblocked)
  rcases Table.wake_cases T x with ⟨-, hnone⟩ | ⟨front, woken, rest, hsplit, -, hwoken, heq⟩
  · exact absurd hppid.symm (hnone parent hblocked)
  · have hwokenMem := h.listed woken (List.mem_append_right _ (by simp [hsplit]))
    have hsame : woken = parent := h.pid_inj woken hwokenMem parent hmem (hwoken.trans hppid)
      (by rwa [hwoken, hppid])
    rw [heq, hsame]

/-- The exit of the child links the parent in, right behind it if the parent has no other child. -/
theorem exit_hands_over (h : T.Valid pages false) (hheld : Held T parent T.current)
    (hmark : (T.proc T.current).isWait = true)
    (hppid : (T.proc T.current).ppid = (T.proc parent).pid) (hpid : (T.proc parent).pid ≠ 0)
    (hblocked : parent ∈ T.blocked) :
    ∃ x ∈ T.threads, T.exit.threads = insertAfter x parent T.threads ∧
      ((∀ y ∈ T.threads, y ≠ T.current → (T.proc y).ppid = (T.proc parent).pid →
        (T.proc y).state = .zombie) → x = T.current) := by
  have hcore := Table.setState_core h.toCore T.current .zombie
  have hpos : 0 < (T.proc T.current).ppid := by
    rw [hppid]
    exact (BitVec.pos_iff_ne_zero _).2 hpid
  have hwake : ∀ x, (T.proc x).ppid = (T.proc parent).pid →
      ((T.setState T.current .zombie).wake x).threads = insertAfter x parent T.threads :=
    fun x hx => wake_threads hcore hblocked (by simpa using hpid) (by simpa using hx)
  rw [Table.exit, if_pos ⟨hpos, hmark⟩, Table.notify]
  cases hsibling : (T.setState T.current .zombie).sibling T.current with
  | none => exact ⟨T.current, h.current, hwake _ hppid, fun _ => rfl⟩
  | some y =>
      have hy := List.find?_some hsibling
      have hmem : y ∈ T.threads := List.mem_of_find?_eq_some hsibling
      simp only [Table.setState_ppid, Table.setState_state, ne_eq, decide_eq_true_eq] at hy
      rcases hy with ⟨hstate, hne, hyppid⟩
      rw [if_neg (Ne.symm hne)] at hstate
      have hparent : (T.proc y).ppid = (T.proc parent).pid := hyppid.symm.trans hppid
      -- the parent waits for one child only, and that is the one that exits
      have hunmarked : ¬ (T.proc y).isWait = true := fun hwait =>
        hne (hheld.only y ⟨List.mem_append_left _ hmem, hwait, hstate⟩ hparent).symm
      refine ⟨y, hmem, ?_, fun hall => absurd (hall y hmem (Ne.symm hne) hparent) hstate⟩
      simp only [Table.setState_isWait]
      rw [if_neg hunmarked]
      exact hwake y hparent

/-- With the parent right behind the process that has exited, `schedule` finds it first. -/
theorem pick_of_behind (hcurrent : T.current ∈ T.threads)
    (hexit : T.exit.threads = insertAfter T.current parent T.threads)
    (hready : T.exit.Ready parent) : T.exit.pick = parent := by
  have hstate : (T.exit.proc T.exit.current).state ≠ .blocked := by
    rw [exit_current, exit_state, if_pos rfl]
    decide
  have hfind : (T.exit.ahead.find? T.exit.Ready) = some parent := by
    rw [Table.ahead, if_neg hstate, exit_current, hexit, behind_insertAfter hcurrent]
    exact List.find?_cons_of_pos (decide_eq_true hready)
  rw [Table.pick, hfind]
  rfl

/-! ## From the call to the return -/

/-- From the call on, as long as the child has not exited. -/
structure Foreground (σ : System) (T : Table) (parent child : PcbRef) : Prop
    extends Waiting σ T parent child where
  settled : Settled T
  mark : (T.proc child).isWait = true
  ppid : (T.proc child).ppid = (T.proc parent).pid
  sleeping : (T.proc child).state ≠ .zombie → (T.proc parent).state = .sleeping

theorem Foreground.step (h : Foreground σ T parent child) (he : Unmarked σ e)
    (hstep : σ.exec e = some σ₁) : Foreground σ₁ (tableStep T e) parent child := by
  have hv := h.valid
  have he' := h.enabled he.1
  have hcount := count_ne_zero_of_ppid hv.toCore h.child_mem h.child_ppid
  have hmain : child ≠ T.main := by
    rintro rfl
    exact h.child_ppid hv.main_ppid
  refine ⟨h.toWaiting.step he hstep, settled_step hv he' h.settled,
    tableStep_isWait he' h.child_mem h.mark, ?_, fun halive => ?_⟩
  · rw [(tableStep_ids he' h.child_mem hcount).2, (tableStep_ids he' h.parent_mem hcount).1]
    exact h.ppid
  · have halive' : (T.proc child).state ≠ .zombie := fun hzombie =>
      halive (tableStep_zombie hv he' h.child_mem hmain hzombie)
    have hheld := h.held.resolve_right halive'
    rw [tableStep_state hv he' h.parent_mem hheld.out]
    exact h.sleeping halive'

/-- The call of `waitpid`, when it finds the child. -/
theorem foreground_waitpid (h : Reached σ T) (hs : Settled T) {pid : Pid}
    (hcall : Enabled σ (.waitpid pid)) (htarget : T.WaitTarget pid child)
    (hstep : σ.exec (.waitpid pid) = some σ₁) :
    Foreground σ₁ (T.waitpid pid) T.current child := by
  have hv : T.Valid σ.pages false := by
    have hspin : σ.spinning = false := hcall
    exact hspin ▸ h.valid
  have hheld := held_waitpid hv h.marks htarget
  have hmain : T.current ≠ T.main := hv.ne_main_of_pid htarget.2.2.1
  refine
    { toReached := h.step ⟨hcall, trivial⟩ hstep
      parent_mem := pages_of_exec hstep (hv.listed _ (List.mem_append_left _ hv.current))
      child_mem := pages_of_exec hstep (hv.listed _ (List.mem_append_left _ htarget.1))
      parent_pid := ?_
      child_ppid := ?_
      held := Or.inl hheld
      settled := settled_step h.valid (h.enabled hcall) hs
      mark := ?_
      ppid := ?_
      sleeping := fun _ => ?_ }
  · rw [Table.waitpid_pid]
    exact htarget.2.2.1
  · rw [Table.waitpid_ppid, htarget.2.1]
    exact htarget.2.2.1
  · change (((T.enterWait pid).setState T.current .blocked).schedule.proc child).isWait = true
    rw [Table.schedule_isWait, Table.setState_isWait, Table.enterWait,
      if_pos ⟨child, htarget.1, htarget⟩]
    simp [Table.marked, htarget]
  · rw [Table.waitpid_ppid, Table.waitpid_pid, htarget.2.1]
  · -- `schedule` turns BLOCKED into SLEEPING
    have hpick : T.current ≠ ((T.enterWait pid).setState T.current .blocked).pick := by
      intro heq
      have hmem := Table.pick_mem
        (Table.setState_core (Table.enterWait_core hv.toCore hv.current pid) T.current .blocked)
      exact hheld.out (heq ▸ hmem)
    change (((T.enterWait pid).setState T.current .blocked).schedule.proc T.current).state = _
    rw [Table.schedule_state, if_neg hpick, if_pos (by simp), Table.restState, Table.setState_main,
      Table.setState_current, Table.enterWait_current, Table.enterWait_main, if_neg hmain,
      Table.setState_state, if_pos rfl]
    rfl

section Runs

variable {memory : PcbRef → PCB} {page : PcbRef} {es es' : List Event} {pid : Pid}

theorem run_settled (hpage : page < maxPcbs)
    (hrun : Run System.exec Unmarked (System.boot memory page) es σ) :
    ∃ T, Reached σ T ∧ Settled T := by
  refine hrun.invariant (fun σ => ∃ T, Reached σ T ∧ Settled T)
    ⟨_, ⟨boot_tracks memory hpage, bootTable_waitInvariant memory page⟩,
      bootTable_settled memory page⟩ ?_
  rintro σ e σ' ⟨T, h, hs⟩ he hstep
  exact ⟨_, h.step he hstep, settled_step h.valid (h.enabled he.1) hs⟩

/-- The exit of the child a process waits for, seen as a table. -/
theorem Foreground.exit (h : Foreground σ T parent T.current) (hspin : σ.spinning = false)
    (hblocked : parent ∈ T.blocked) (hexit : σ.exec .exit = some σ₁) :
    ∃ k, 1 ≤ k ∧ k ≤ σ₁.sched.readyCount T.exit.threads ∧
      (schedule^[k] σ₁.sched).currentthread = parent ∧
      ((∀ y ∈ T.threads, y ≠ T.current → (T.proc y).ppid = (T.proc parent).pid →
        (T.proc y).state = .zombie) → k = 1) := by
  have hv := h.valid
  rw [hspin] at hv
  have halive : (T.proc T.current).state ≠ .zombie := by
    rw [current_running hv rfl]
    decide
  have hheld := h.held.resolve_right halive
  have hmain : T.current ≠ T.main := by
    intro heq
    exact h.child_ppid (heq ▸ hv.main_ppid)
  rcases exit_hands_over hv hheld h.mark h.ppid h.parent_pid hblocked with
    ⟨x, hx, hthreads, hsole⟩
  -- after the exit the parent is a ready entry of `threads`
  have h' := h.toTracks.exec (e := .exit) hspin
  rcases h' with ⟨σ', hσ', htracks⟩
  have hspins : σ'.spinning = true := by
    rcases Option.bind_eq_some_iff.1 hσ' with ⟨s', -, hs'⟩
    cases hs'
    rfl
  rw [hexit] at hσ'
  cases hσ'
  have hne : parent ≠ T.current := fun heq => hheld.out (heq ▸ hv.current)
  have hready : T.exit.Ready parent := by
    rw [Table.Ready, exit_state, if_neg hne]
    exact h.sleeping halive
  have hmem : parent ∈ T.exit.threads := by
    rw [hthreads]
    exact (mem_insertAfter hx).2 (Or.inl rfl)
  have hmain' : T.exit.current ≠ T.exit.main := by
    rwa [exit_current, exit_main]
  rcases htracks.schedule_exited (settled_exit hv h.settled) hspins hmain' hmem hready with
    ⟨hround, hturns, hcount⟩
  by_cases hpick : T.exit.pick = parent
  · refine ⟨1, le_rfl, ?_, ?_, fun _ => rfl⟩
    · exact Nat.succ_le_of_lt (Nat.zero_lt_of_lt hcount)
    · rcases htracks.exec (e := .schedule) trivial with ⟨σ'', hσ'', h''⟩
      cases hσ''
      exact h''.represents.current.trans hpick
  · rcases hround.exists_turn ((hturns parent).2 ⟨hmem, hready⟩) with ⟨k, hk, hturn⟩
    refine ⟨k + 1, Nat.le_add_left 1 k, ?_, ?_, fun hall => ?_⟩
    · exact Nat.succ_le_of_lt (lt_of_le_of_lt hk hcount)
    · rw [Function.iterate_succ_apply]
      exact hturn
    · rw [hsole hall] at hthreads
      exact absurd (pick_of_behind hv.current hthreads hready) hpick

/-- The exit of a child that `waitpid` has found gives its caller, if that still waits, the
processor back: after at most as many calls of `schedule` as there are ready processes, and after
one if no other child of the caller is alive in `threadlist`. -/
theorem waitpid_returns (hpage : page < maxPcbs)
    (hrun : Run System.exec Unmarked (System.boot memory page) es σ)
    (hcall : Enabled σ (.waitpid pid)) (hown : OwnChild σ.sched pid child)
    (hfound : child ∈ σ.sched.walk σ.sched.threadlist)
    (hstep : σ.exec (.waitpid pid) = some σ₁) (hrest : Run System.exec Unmarked σ₁ es' σ₂)
    (hexits : σ₂.sched.currentthread = child) (hspin : σ₂.spinning = false)
    (hwaits : σ.sched.currentthread ∈ σ₂.sched.walk σ₂.sched.blockedlist)
    (hexit : σ₂.exec .exit = some σ₃) :
    ∃ k, 1 ≤ k ∧ k ≤ σ₃.sched.readyCount (σ₃.sched.walk σ₃.sched.threadlist) ∧
      (schedule^[k] σ₃.sched).currentthread = σ.sched.currentthread ∧
      ((∀ y ∈ σ₂.sched.walk σ₂.sched.threadlist, y ≠ child →
        (σ₂.sched.pcb y).ppid = (σ₂.sched.pcb σ.sched.currentthread).pid →
        (σ₂.sched.pcb y).state = .zombie) → k = 1) := by
  rcases run_settled hpage hrun with ⟨T, h, hs⟩
  have hrep := h.represents
  have hv := h.valid
  rw [hrep.walk_threads hv.length_le] at hfound
  have htarget : T.WaitTarget pid child := by
    rcases hown with ⟨hne, hppid, hpid⟩
    rw [currentPid, hrep.current, hrep.pid] at hne
    rw [currentPid, hrep.current, hrep.pid, hrep.ppid] at hppid
    rw [hrep.pid] at hpid
    exact ⟨hfound, hppid, hne, hpid⟩
  have hstart := foreground_waitpid h hs hcall htarget hstep
  rcases hrest.invariant (fun σ' => ∃ T', Foreground σ' T' T.current child) ⟨_, hstart⟩
    (fun σ' e σ'' hforeground he hstep' => hforeground.elim fun T' h' => ⟨_, h'.step he hstep'⟩)
    with ⟨T', h'⟩
  have hrep' := h'.represents
  have hv' := h'.valid
  rw [hrep.current] at hwaits ⊢
  rw [hrep'.current] at hexits
  subst hexits
  rw [hrep'.walk_blocked hv'.length_le] at hwaits
  rw [hrep'.walk_threads hv'.length_le]
  rcases h'.toTracks.exec (e := .exit) hspin with ⟨σ', hσ', h''⟩
  rw [hexit] at hσ'
  cases hσ'
  rw [h''.represents.walk_threads h''.valid.length_le]
  rcases h'.exit hspin hwaits hexit with ⟨k, hpos, hle, hturn, hsole⟩
  refine ⟨k, hpos, hle, hturn, fun hall => hsole fun y hy hne hppid => ?_⟩
  rw [← hrep'.state]
  exact hall y hy hne (by rw [hrep'.ppid, hrep'.pid, hppid])

end Runs

/-- The first process waits for a command that forks a process of its own, is interrupted by it,
and exits. -/
theorem waitpid_returns_command :
    ∃ σ σ₁ σ₂ σ₃, Run System.exec Unmarked (System.boot zeroFilled 0)
        [.createThread 1, .schedule, .userProcess, .fork 2] σ ∧
      σ.exec (.waitpid 2) = some σ₁ ∧
      Run System.exec Unmarked σ₁ [.fork 3, .schedule, .schedule] σ₂ ∧
      σ₂.exec .exit = some σ₃ ∧
      ∃ k, 1 ≤ k ∧ k ≤ σ₃.sched.readyCount (σ₃.sched.walk σ₃.sched.threadlist) ∧
        (schedule^[k] σ₃.sched).currentthread = σ.sched.currentthread := by
  have hsome : ((replay System.exec Unmarked [.createThread 1, .schedule, .userProcess, .fork 2]
      (System.boot zeroFilled 0)).bind fun σ => (σ.exec (.waitpid 2)).bind fun σ₁ =>
        (replay System.exec Unmarked [.fork 3, .schedule, .schedule] σ₁).bind fun σ₂ =>
          (σ₂.exec .exit).map fun _ => decide ((Enabled σ (.waitpid 2) ∧ OwnChild σ.sched 2 2 ∧
            2 ∈ σ.sched.walk σ.sched.threadlist) ∧ σ₂.sched.currentthread = 2 ∧
            σ₂.spinning = false ∧
            σ.sched.currentthread ∈ σ₂.sched.walk σ₂.sched.blockedlist)) = some true := by
    decide +kernel
  rcases Option.bind_eq_some_iff.1 hsome with ⟨σ, hσ, hsome⟩
  rcases Option.bind_eq_some_iff.1 hsome with ⟨σ₁, hσ₁, hsome⟩
  rcases Option.bind_eq_some_iff.1 hsome with ⟨σ₂, hσ₂, hsome⟩
  rcases Option.map_eq_some_iff.1 hsome with ⟨σ₃, hσ₃, hcheck⟩
  rcases of_decide_eq_true hcheck with ⟨⟨hcall, hown, hfound⟩, hexits, hspin, hwaits⟩
  have hrun := run_of_replay hσ
  have hrest := run_of_replay hσ₂
  rcases waitpid_returns (by decide) hrun hcall hown hfound hσ₁ hrest hexits hspin hwaits hσ₃ with
    ⟨k, hpos, hle, hturn, -⟩
  exact ⟨σ, σ₁, σ₂, σ₃, hrun, hσ₁, hrest, hσ₃, k, hpos, hle, hturn⟩

end Sched

end OswpKernel
