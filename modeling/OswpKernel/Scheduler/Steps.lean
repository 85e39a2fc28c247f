import OswpKernel.Scheduler.Wait

/-!
# Scheduler steps — what no event of the scheduler does

Frame facts that hold of every event: the lists gain nothing but a new page, ids and marks stay, and
a process that is off `threads` keeps its state.  `Settled` is what every event leaves behind, so
that `InRound`, from which a round starts, holds of every state in which a process runs.
-/

namespace OswpKernel

open Chain Execution

namespace Sched

variable {T : Table} {pages : List PcbRef} {spinning : Bool} {x page : PcbRef} {e : Event}

/-! ## Frames -/

theorem mem_of_mem_exit (h : T.Valid pages spinning)
    (hx : x ∈ T.exit.threads ++ T.exit.blocked) : x ∈ T.threads ++ T.blocked := by
  rcases Table.exit_cases T with ⟨heq, -⟩ | ⟨-, -, y, hy, -, heq⟩
  · rwa [heq] at hx
  · rw [heq] at hx
    have hmem : y ∈ T.threads := by
      rcases hy with rfl | hy
      · exact h.current
      · exact hy
    exact Table.mem_of_mem_wake (T := T.setState T.current .zombie) hmem hx

/-- An event brings at most the new page onto the lists. -/
theorem mem_of_mem_tableStep (h : T.Valid pages spinning) (he : TableEnabled T pages spinning e)
    (hx : x ∈ (tableStep T e).threads ++ (tableStep T e).blocked) :
    x ∈ T.threads ++ T.blocked ∨ e = .fork x ∨ e = .createThread x := by
  cases e with
  | schedule => exact Or.inl hx
  | createThread page =>
      rcases (Table.createThread_extends h.toCore).mem_iff.1 hx with rfl | hx
      · exact Or.inr (Or.inr rfl)
      · exact Or.inl hx
  | userProcess => exact Or.inl hx
  | fork page =>
      rcases he with ⟨rfl, -, -⟩
      rcases (Table.fork_extends h).mem_iff.1 hx with rfl | hx
      · exact Or.inr (Or.inl rfl)
      · exact Or.inl hx
  | waitpid pid => exact Or.inl ((Table.mem_enterWait h.current pid).1 hx)
  | exit => exact Or.inl (mem_of_mem_exit h hx)
  | kill pid sig answer =>
      refine Or.inl ?_
      have hx' : x ∈ (T.kill pid sig answer).threads ++ (T.kill pid sig answer).blocked := hx
      rcases kill_cases T pid sig answer with heq | heq | ⟨heq, -⟩
      · rwa [heq] at hx'
      · rw [heq] at hx'
        exact mem_of_mem_exit h hx'
      · rw [heq] at hx'
        have hsub := Table.killOther_sublist T pid
        exact (hsub.1.append hsub.2).mem hx'

/-- Whatever the counter says, only `user_process` changes ids, and those of its own process. -/
theorem tableStep_ids_of_ne (he : TableEnabled T pages spinning e) (hx : x ∈ pages)
    (hfirst : e = .userProcess → x ≠ T.current) :
    ((tableStep T e).proc x).pid = (T.proc x).pid ∧
      ((tableStep T e).proc x).ppid = (T.proc x).ppid := by
  cases e with
  | schedule => exact ⟨T.schedule_pid x, T.schedule_ppid x⟩
  | createThread page =>
      have hne : x ≠ page := fun heq => he.2.2 (heq ▸ hx)
      simp [tableStep, Table.createThread, Table.modify, hne]
  | userProcess => simp [tableStep, Table.userProcess, Table.modify, hfirst rfl]
  | fork page =>
      have hne : x ≠ page := fun heq => he.2.2 (heq ▸ hx)
      simp [tableStep, Table.fork, Table.modify, hne]
  | waitpid pid => exact ⟨T.waitpid_pid pid x, T.waitpid_ppid pid x⟩
  | exit => exact ⟨exit_pid T x, exit_ppid T x⟩
  | kill pid sig answer =>
      change ((T.kill pid sig answer).proc x).pid = _ ∧ ((T.kill pid sig answer).proc x).ppid = _
      rcases kill_cases T pid sig answer with heq | heq | ⟨heq, -⟩
      · simp [heq]
      · rw [heq]
        exact ⟨exit_pid T x, exit_ppid T x⟩
      · simp [heq, killOther_proc]

/-- A process that waits keeps its state. -/
theorem tableStep_state (h : T.Valid pages spinning) (he : TableEnabled T pages spinning e)
    (hx : x ∈ pages) (hout : x ∉ T.threads) :
    ((tableStep T e).proc x).state = (T.proc x).state := by
  have hcurrent : x ≠ T.current := by
    rintro rfl
    exact hout h.current
  cases e with
  | schedule =>
      have hpick : x ≠ T.pick := fun heq => hout (heq ▸ Table.pick_mem h.toCore)
      change (T.schedule.proc x).state = _
      rw [Table.schedule_state, if_neg hpick, if_neg hcurrent]
  | createThread page =>
      have hne : x ≠ page := fun heq => he.2.2 (heq ▸ hx)
      simp [tableStep, Table.createThread, Table.modify, hne]
  | userProcess => simp [tableStep, Table.userProcess, Table.modify, hcurrent]
  | fork page =>
      have hne : x ≠ page := fun heq => he.2.2 (heq ▸ hx)
      simp [tableStep, Table.fork, Table.modify, hne]
  | waitpid pid =>
      have hcore := Table.setState_core (Table.enterWait_core h.toCore h.current pid) T.current
        .blocked
      have hout' : x ∉ ((T.enterWait pid).setState T.current .blocked).threads := by
        rw [Table.setState_threads, Table.enterWait]
        split_ifs
        · exact fun hmem => hout (List.mem_of_mem_erase hmem)
        · exact hout
      have hpick : x ≠ ((T.enterWait pid).setState T.current .blocked).pick := fun heq =>
        hout' (heq ▸ Table.pick_mem hcore)
      change (((T.enterWait pid).setState T.current .blocked).schedule.proc x).state = _
      rw [Table.schedule_state, if_neg hpick, if_neg (by simpa using hcurrent),
        Table.setState_state, if_neg hcurrent, Table.enterWait_state]
  | exit =>
      change (T.exit.proc x).state = _
      rw [exit_state, if_neg hcurrent]
  | kill pid sig answer =>
      change ((T.kill pid sig answer).proc x).state = _
      rcases kill_cases T pid sig answer with heq | heq | ⟨heq, -⟩
      · rw [heq]
      · rw [heq, exit_state, if_neg hcurrent]
      · rw [heq, killOther_proc]

theorem exit_isWait (T : Table) (x : PcbRef) : (T.exit.proc x).isWait = (T.proc x).isWait := by
  rcases Table.exit_cases T with ⟨heq, -⟩ | ⟨-, -, y, -, -, heq⟩ <;> simp [heq]

/-- A mark is never taken back. -/
theorem tableStep_isWait (he : TableEnabled T pages spinning e) (hx : x ∈ pages)
    (hmark : (T.proc x).isWait = true) : ((tableStep T e).proc x).isWait = true := by
  cases e with
  | schedule => exact (T.schedule_isWait x).trans hmark
  | createThread page =>
      have hne : x ≠ page := fun heq => he.2.2 (heq ▸ hx)
      simpa [tableStep, Table.createThread, Table.modify, hne] using hmark
  | userProcess =>
      change (T.userProcess.proc x).isWait = true
      by_cases hcurrent : x = T.current
      · subst hcurrent
        simpa [Table.userProcess, Table.modify] using hmark
      · simpa [Table.userProcess, Table.modify, hcurrent] using hmark
  | fork page =>
      have hne : x ≠ page := fun heq => he.2.2 (heq ▸ hx)
      simpa [tableStep, Table.fork, Table.modify, hne] using hmark
  | waitpid pid =>
      change (((T.enterWait pid).setState T.current .blocked).schedule.proc x).isWait = true
      rw [Table.schedule_isWait, Table.setState_isWait, Table.enterWait]
      split_ifs
      · by_cases htarget : T.WaitTarget pid x
        · simp [Table.marked, htarget]
        · simpa [Table.marked, htarget] using hmark
      · exact hmark
  | exit => exact (exit_isWait T x).trans hmark
  | kill pid sig answer =>
      change ((T.kill pid sig answer).proc x).isWait = true
      rcases kill_cases T pid sig answer with heq | heq | ⟨heq, -⟩
      · rwa [heq]
      · rw [heq]
        exact (exit_isWait T x).trans hmark
      · rwa [heq, killOther_proc]

/-! ## Between two events -/

/-- No process is left in the state that `sys_waitpid` sets before it calls `schedule`, and the main
thread is a ZOMBIE unless it runs. -/
structure Settled (T : Table) : Prop where
  states : ∀ x ∈ T.threads ++ T.blocked, (T.proc x).state ≠ .blocked
  main : T.main = T.current ∨ (T.proc T.main).state = .zombie

theorem settled_schedule
    (hstates : ∀ x ∈ T.threads ++ T.blocked, x ≠ T.current → (T.proc x).state ≠ .blocked)
    (hmain : T.main = T.current ∨ (T.proc T.main).state = .zombie) : Settled T.schedule where
  states := by
    intro x hx
    rw [Table.schedule_state, Table.restState]
    split_ifs with hpick hcurrent
    · decide
    · decide
    · decide
    · decide
    · exact hstates x hx hcurrent
  main := by
    by_cases hpick : T.main = T.pick
    · exact Or.inl hpick
    · refine Or.inr ?_
      rw [Table.schedule_main, Table.schedule_state, if_neg hpick]
      split_ifs with hcurrent
      · rw [Table.restState, if_pos hcurrent.symm]
      · exact hmain.resolve_left hcurrent

theorem exit_main (T : Table) : T.exit.main = T.main := by
  rcases Table.exit_cases T with ⟨heq, -⟩ | ⟨-, -, y, -, -, heq⟩ <;> simp [heq]

theorem exit_current (T : Table) : T.exit.current = T.current := by
  rcases Table.exit_cases T with ⟨heq, -⟩ | ⟨-, -, y, -, -, heq⟩ <;> simp [heq]

theorem settled_exit (h : T.Valid pages spinning) (hs : Settled T) : Settled T.exit where
  states := by
    intro x hx
    rw [exit_state]
    split_ifs
    · decide
    · exact hs.states x (mem_of_mem_exit h hx)
  main := by
    rw [exit_main, exit_current, exit_state]
    split_ifs with hcurrent
    · exact Or.inl hcurrent
    · exact hs.main

/-- A new entry is SLEEPING and takes the place of no other. -/
theorem settled_extends {T' : Table} {p : Proc} (he : Table.Extends T T' page p)
    (h : T.Core pages) (hpage : page ∉ pages) (hs : Settled T) : Settled T' where
  states := by
    intro x hx
    rcases he.mem_iff.1 hx with rfl | hx
    · rw [he.proc_new, he.ready]
      decide
    · rw [he.proc_old hpage (h.listed x hx)]
      exact hs.states x hx
  main := by
    have hmem := h.listed _ (List.mem_append_left _ h.main_mem)
    rw [he.main, he.current, he.proc_old hpage hmem]
    exact hs.main

theorem settled_step (h : T.Valid pages spinning) (he : TableEnabled T pages spinning e)
    (hs : Settled T) : Settled (tableStep T e) := by
  cases e with
  | schedule => exact settled_schedule (fun x hx _ => hs.states x hx) hs.main
  | createThread page =>
      exact settled_extends (Table.createThread_extends h.toCore) h.toCore he.2.2 hs
  | userProcess =>
      have hstate : ∀ x, (T.userProcess.proc x).state = (T.proc x).state := by
        intro x
        by_cases hx : x = T.current
        · simp [Table.userProcess, Table.modify, hx]
        · simp [Table.userProcess, Table.modify, hx]
      refine ⟨fun x hx => ?_, ?_⟩
      · change (T.userProcess.proc x).state ≠ .blocked
        rw [hstate]
        exact hs.states x hx
      · change T.main = T.current ∨ (T.userProcess.proc T.main).state = .zombie
        rw [hstate]
        exact hs.main
  | fork page =>
      rcases he with ⟨rfl, -, hpage⟩
      exact settled_extends (Table.fork_extends h) h.toCore hpage hs
  | waitpid pid =>
      refine settled_schedule (T := (T.enterWait pid).setState T.current .blocked) ?_ ?_
      · intro x hx hcurrent
        have hne : x ≠ T.current := by simpa using hcurrent
        rw [Table.setState_state, if_neg hne, Table.enterWait_state]
        exact hs.states x ((Table.mem_enterWait h.current pid).1 hx)
      · rw [Table.setState_main, Table.enterWait_main, Table.setState_current,
          Table.enterWait_current, Table.setState_state, Table.enterWait_state]
        by_cases hcurrent : T.main = T.current
        · exact Or.inl hcurrent
        · rw [if_neg hcurrent]
          exact Or.inr (hs.main.resolve_left hcurrent)
  | exit => exact settled_exit h hs
  | kill pid sig answer =>
      change Settled (T.kill pid sig answer)
      rcases kill_cases T pid sig answer with heq | heq | ⟨heq, -⟩
      · rwa [heq]
      · rw [heq]
        exact settled_exit h hs
      · have hsub := Table.killOther_sublist T pid
        have hmain : (T.killOther pid).main = T.main ∧ (T.killOther pid).current = T.current := by
          rcases Table.killOther_cases T pid with heq | ⟨y, -, -, -, heq⟩ | ⟨y, -, -, heq⟩ <;>
            simp [heq]
        rw [heq]
        refine ⟨fun x hx => ?_, ?_⟩
        · rw [killOther_proc]
          exact hs.states x ((hsub.1.append hsub.2).mem hx)
        · rw [hmain.1, hmain.2, killOther_proc]
          exact hs.main

theorem bootTable_settled (memory : PcbRef → PCB) (page : PcbRef) :
    Settled (bootTable memory page) where
  states := fun x hx => by
    rw [bootTable_proc memory hx]
    exact ProcState.noConfusion
  main := Or.inl rfl

end Sched

end OswpKernel
