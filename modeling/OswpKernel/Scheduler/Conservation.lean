import OswpKernel.Scheduler.Wait

/-!
# Scheduler conservation — is a process ever lost?

Without kills a process leaves both lists in one way only: the wake-up in `thread_on_completion`
lets `blockedlist` continue behind the woken parent, so the entries in front of it are dropped.  As
long as every parent that is woken heads `blockedlist`, `no_process_lost` keeps every forked process
on exactly one list; `not_no_process_lost` wakes a parent from the second place.
-/

namespace OswpKernel

open Chain Execution

namespace Sched

variable {T : Table} {pages : List PcbRef} {spinning : Bool} {x : PcbRef} {e : Event}

/-- The exit of the current process looks for its parent in `blocked`. -/
def Wakes (T : Table) : Prop :=
  0 < (T.proc T.current).ppid ∧ (T.proc T.current).isWait = true ∧
    ∀ y ∈ (T.setState T.current .zombie).sibling T.current, (T.proc y).isWait = false

/-- If the exit finds the parent in `blocked`, it finds it at the head. -/
def WakesHead (T : Table) : Prop :=
  Wakes T → ∀ p ∈ T.blocked, (T.proc p).pid = (T.proc T.current).ppid →
    T.blocked.head? = some p

instance (T : Table) : Decidable (Wakes T) := inferInstanceAs (Decidable (_ ∧ _ ∧ _))

instance (T : Table) : Decidable (WakesHead T) := inferInstanceAs (Decidable (_ → _))

/-- Nothing is killed, and an exit wakes no one but the head of `blocked`. -/
def KeepsAll (T : Table) : Event → Prop
  | .exit => WakesHead T
  | .kill _ _ _ => False
  | _ => True

instance (T : Table) (e : Event) : Decidable (KeepsAll T e) :=
  match e with
  | .exit => inferInstanceAs (Decidable (WakesHead T))
  | .kill _ _ _ => inferInstanceAs (Decidable False)
  | .waitpid _ => inferInstanceAs (Decidable True)
  | .schedule => inferInstanceAs (Decidable True)
  | .createThread _ => inferInstanceAs (Decidable True)
  | .userProcess => inferInstanceAs (Decidable True)
  | .fork _ => inferInstanceAs (Decidable True)

/-! ## One step -/

/-- Every process allocated so far is on one of the lists. -/
def AllListed (T : Table) (pages : List PcbRef) : Prop :=
  ∀ x ∈ pages, x ∈ T.threads ++ T.blocked

/-- An exit that is not kept from it wakes the parent behind some entry with the same parent. -/
theorem exit_wakes (hwakes : Wakes T) :
    ∃ x, (x = T.current ∨ x ∈ T.threads) ∧ (T.proc x).ppid = (T.proc T.current).ppid ∧
      T.exit = (T.setState T.current .zombie).wake x := by
  rcases Table.exit_cases T with ⟨-, hquiet | ⟨y, hy, hmark⟩⟩ | ⟨-, -, hwake⟩
  · exact absurd ⟨hwakes.1, hwakes.2.1⟩ hquiet
  · have hunmarked := hwakes.2.2 y hy
    rw [hmark] at hunmarked
    cases hunmarked
  · exact hwake

theorem exit_of_not_wakes (hwakes : ¬ Wakes T) : T.exit = T.setState T.current .zombie := by
  rw [Table.exit]
  split_ifs with hwait
  · rw [Table.notify]
    cases hsibling : (T.setState T.current .zombie).sibling T.current with
    | none => exact absurd ⟨hwait.1, hwait.2, by simp [hsibling]⟩ hwakes
    | some y =>
        by_cases hmark : (T.proc y).isWait = true
        · simp [hmark]
        · refine absurd ⟨hwait.1, hwait.2, ?_⟩ hwakes
          simpa [hsibling] using hmark
  · rfl

/-- What an exit does to the two lists when only the head can be woken. -/
theorem exit_lists (h : T.Valid pages false) (hhead : WakesHead T) :
    (T.exit.threads = T.threads ∧ T.exit.blocked = T.blocked) ∨
    ∃ parent, (T.proc parent).pid = (T.proc T.current).ppid ∧
      T.blocked = parent :: T.exit.blocked ∧ T.exit.threads.Perm (parent :: T.threads) := by
  by_cases hwakes : Wakes T
  · rcases exit_wakes hwakes with ⟨x, hx, hppid, hexit⟩
    have hmem : x ∈ T.threads := by
      rcases hx with rfl | hx
      · exact h.current
      · exact hx
    rw [hexit]
    rcases Table.wake_cases (T.setState T.current .zombie) x with
      ⟨heq, -⟩ | ⟨front, parent, rest, hsplit, hfront, hpid, heq⟩
    · rw [heq]
      exact Or.inl ⟨rfl, rfl⟩
    · simp only [Table.setState_pid, Table.setState_ppid, hppid, Table.setState_blocked]
        at hsplit hfront hpid
      have hparent : parent ∈ T.blocked := by simp [hsplit]
      have hfirst := hhead hwakes parent hparent hpid
      cases front with
      | nil =>
          rw [heq]
          exact Or.inr ⟨parent, hpid, hsplit, insertAfter_perm hmem⟩
      | cons y ys =>
          -- an entry in front of the parent would be the head, and so the parent itself
          rw [hsplit] at hfirst
          have hy : y = parent := by simpa using hfirst
          exact absurd (hy ▸ hpid) (hfront y List.mem_cons_self)
  · rw [exit_of_not_wakes hwakes]
    exact Or.inl ⟨rfl, rfl⟩

/-- The pages in use after an event. -/
def pagesAfter (pages : List PcbRef) : Event → List PcbRef
  | .createThread page => page :: pages
  | .fork page => page :: pages
  | _ => pages

theorem Extends.allListed {T' : Table} {page : PcbRef} {p : Proc}
    (he : Table.Extends T T' page p) (hall : AllListed T pages) : AllListed T' (page :: pages) := by
  intro x hx
  rw [he.mem_iff]
  rcases List.mem_cons.1 hx with rfl | hx'
  · exact Or.inl rfl
  · exact Or.inr (hall x hx')

theorem allListed_step (h : T.Valid pages spinning) (he : TableEnabled T pages spinning e)
    (hkeep : KeepsAll T e) (hall : AllListed T pages) :
    AllListed (tableStep T e) (pagesAfter pages e) := by
  cases e with
  | schedule => exact hall
  | createThread page => exact Extends.allListed (Table.createThread_extends h.toCore) hall
  | userProcess => exact hall
  | fork page =>
      rcases he with ⟨rfl, -, -⟩
      exact Extends.allListed (Table.fork_extends h) hall
  | waitpid pid =>
      intro x hx
      exact (Table.mem_enterWait h.current pid).2 (hall x hx)
  | exit =>
      rw [show spinning = false from he] at h
      intro x hx
      change x ∈ T.exit.threads ++ T.exit.blocked
      rcases exit_lists h hkeep with ⟨hthreads, hblocked⟩ | ⟨parent, -, hblocked, hthreads⟩
      · rw [hthreads, hblocked]
        exact hall x hx
      · have hmem := hall x hx
        rw [hblocked, List.mem_append, List.mem_cons] at hmem
        rw [List.mem_append, hthreads.mem_iff, List.mem_cons]
        tauto
  | kill pid sig answer => exact absurd hkeep id

/-! ## Every run -/

section Runs

variable {memory : PcbRef → PCB} {page p : PcbRef} {es : List Event} {σ σ' : System}

/-- The event is enabled and loses no process. -/
def Conserving (σ : System) (e : Event) : Prop := Enabled σ e ∧ KeepsAll σ.sched.table e

instance (σ : System) (e : Event) : Decidable (Conserving σ e) :=
  inferInstanceAs (Decidable (_ ∧ _))

theorem pagesAfter_eq (hstep : σ.exec e = some σ') : σ'.pages = pagesAfter σ.pages e := by
  cases e with
  | createThread page =>
      rcases Option.bind_eq_some_iff.1 hstep with ⟨s', -, hs'⟩
      cases hs'
      rfl
  | exit =>
      rcases Option.bind_eq_some_iff.1 hstep with ⟨s', -, hs'⟩
      cases hs'
      rfl
  | kill pid sig answer =>
      rcases Option.bind_eq_some_iff.1 hstep with ⟨s', -, hs'⟩
      cases hs'
      rfl
  | _ =>
      cases hstep
      rfl

/-- `p` is an entry of exactly one of the two lists. -/
def OnOneList (s : Sched) (p : PcbRef) : Prop :=
  (p ∈ s.walk s.threadlist ∧ p ∉ s.walk s.blockedlist) ∨
    (p ∈ s.walk s.blockedlist ∧ p ∉ s.walk s.threadlist)

/-- No entry has left `blockedlist`, or just one that the current process has as its parent. -/
def WakesOnlyParent (s s' : Sched) : Prop :=
  s'.walk s'.blockedlist = s.walk s.blockedlist ∨
    ∃ parent ∈ s.walk s.blockedlist, (s.pcb parent).pid = (s.pcb s.currentthread).ppid ∧
      s'.walk s'.blockedlist = (s.walk s.blockedlist).erase parent

instance (s : Sched) (p : PcbRef) : Decidable (OnOneList s p) :=
  inferInstanceAs (Decidable (_ ∨ _))

/-- A run in which no step loses a process, seen as a table. -/
theorem run_allListed (hpage : page < maxPcbs)
    (hrun : Run System.exec Conserving (System.boot memory page) es σ) :
    (∃ T, Tracks σ T ∧ AllListed T σ.pages) ∧ ∀ p, Event.fork p ∈ es → p ∈ σ.pages := by
  induction hrun with
  | nil =>
      refine ⟨⟨_, boot_tracks memory hpage, ?_⟩, by simp⟩
      intro x hx
      simpa [System.boot, bootTable] using hx
  | snoc _ hallowed hstep ih =>
      rcases ih with ⟨⟨T, h, hall⟩, hforked⟩
      rcases hallowed with ⟨he, hkeep⟩
      rw [h.represents.table_eq h.valid.length_le] at hkeep
      refine ⟨⟨_, h.step he hstep, ?_⟩, ?_⟩
      · rw [pagesAfter_eq hstep]
        exact allListed_step h.valid (h.enabled he) hkeep hall
      · intro p hp
        rcases List.mem_append.1 hp with hp' | hp'
        · exact pages_of_exec hstep (hforked p hp')
        · have hnew := List.mem_singleton.1 hp'
          subst hnew
          rw [pagesAfter_eq hstep]
          exact List.mem_cons_self

/-- Along a run in which every woken parent heads `blockedlist`, each forked process stays on
exactly one list, and an exit takes at most the exiting process's parent off `blockedlist`. -/
theorem no_process_lost (hpage : page < maxPcbs)
    (hrun : Run System.exec Conserving (System.boot memory page) es σ) :
    (∀ p, Event.fork p ∈ es → OnOneList σ.sched p) ∧
      ∀ σ', Conserving σ .exit → σ.exec .exit = some σ' → WakesOnlyParent σ.sched σ'.sched := by
  rcases run_allListed hpage hrun with ⟨⟨T, h, hall⟩, hforked⟩
  have hv := h.valid
  have hdisjoint := (List.nodup_append.1 hv.nodup).2.2
  refine ⟨fun p hp => ?_, fun σ' hallowed hstep => ?_⟩
  · rw [OnOneList, h.represents.walk_threads hv.length_le, h.represents.walk_blocked hv.length_le]
    rcases List.mem_append.1 (hall p (hforked p hp)) with hmem | hmem
    · exact Or.inl ⟨hmem, fun hmem' => hdisjoint p hmem p hmem' rfl⟩
    · exact Or.inr ⟨hmem, fun hmem' => hdisjoint p hmem' p hmem rfl⟩
  · rcases hallowed with ⟨he, hkeep⟩
    rw [h.represents.table_eq hv.length_le] at hkeep
    have h' := h.step he hstep
    have hexit := hv
    rw [show σ.spinning = false from he] at hexit
    rw [WakesOnlyParent, h.represents.walk_blocked hv.length_le,
      h'.represents.walk_blocked h'.valid.length_le]
    rcases exit_lists hexit hkeep with ⟨-, hblocked⟩ | ⟨parent, hpid, hblocked, -⟩
    · exact Or.inl hblocked
    · refine Or.inr ⟨parent, by simp [hblocked], ?_, ?_⟩
      · rw [h.represents.pid, h.represents.current, h.represents.ppid]
        exact hpid
      · change T.exit.blocked = _
        rw [hblocked]
        simp

end Runs

/-- Process 1 waits for process 3, process 2 in front of it in `blockedlist` for process 4. -/
def twoWaiting : List Event :=
  [.createThread 1, .schedule, .userProcess, .fork 2, .fork 4, .waitpid 3, .schedule, .fork 3,
    .waitpid 4]

/-- When process 4 exits first, its parent heads `blockedlist`. -/
theorem no_process_lost_twoWaiting :
    ∃ σ, Run System.exec Conserving (System.boot zeroFilled 0)
        (twoWaiting ++ [.schedule, .exit]) σ ∧
      OnOneList σ.sched 2 ∧ OnOneList σ.sched 3 ∧ OnOneList σ.sched 4 := by
  have hsome : (replay System.exec Conserving (twoWaiting ++ [.schedule, .exit])
      (System.boot zeroFilled 0)).isSome := by decide +kernel
  rcases Option.isSome_iff_exists.1 hsome with ⟨σ, hσ⟩
  have hrun := run_of_replay hσ
  have hlisted := (no_process_lost (by decide) hrun).1
  exact ⟨σ, hrun, hlisted 2 (by decide), hlisted 3 (by decide), hlisted 4 (by decide)⟩

/-- When process 3 exits first, process 2 is dropped together with the woken process 1. -/
theorem not_no_process_lost :
    ¬ ∀ (page : PcbRef) (es : List Event) (σ : System), page < maxPcbs →
        (∀ pid sig answer, Event.kill pid sig answer ∉ es) →
        Run System.exec Enabled (System.boot zeroFilled page) es σ →
        ∀ p, Event.fork p ∈ es → OnOneList σ.sched p := by
  intro hclaim
  have hsome : (replay System.exec Enabled (twoWaiting ++ [.exit])
      (System.boot zeroFilled 0)).map (fun σ => decide (¬ OnOneList σ.sched 2)) = some true := by
    decide +kernel
  rcases Option.map_eq_some_iff.1 hsome with ⟨σ, hσ, hcheck⟩
  have hlost : ¬ OnOneList σ.sched 2 := of_decide_eq_true hcheck
  have hnokill : ∀ pid sig answer, Event.kill pid sig answer ∉ twoWaiting ++ [.exit] := by
    intro pid sig answer hkill
    simp [twoWaiting] at hkill
  have hrun : Run System.exec Enabled (System.boot zeroFilled 0) (twoWaiting ++ [.exit]) σ :=
    run_of_replay hσ
  have hforked : Event.fork 2 ∈ twoWaiting ++ [.exit] := by decide
  exact hlost (hclaim 0 _ σ (by decide) hnokill hrun 2 hforked)

end Sched

end OswpKernel
