import OswpKernel.Scheduler.Table
import Mathlib.Data.List.TakeWhile

/-!
# Scheduler validity — the table operations keep the invariant

One lemma per operation: the lists stay disjoint and without repetition, the main thread stays at
the head, the process ids stay unique, and only the current process is RUNNING.
-/

namespace OswpKernel

open Chain

namespace Table

variable {T T' : Table} {pages : List PcbRef} {spinning : Bool} {x page : PcbRef} {pid : Pid}

theorem pid_zero_le (p : Pid) : 0 ≤ p := by simp [BitVec.le_def]

/-! ## Changing the lists, changing the processes -/

theorem Core.relist (h : T.Core pages) {ts bs : List PcbRef} (hnd : (ts ++ bs).Nodup)
    (hhead : ts.head? = some T.main) (hsub : ∀ x ∈ ts ++ bs, x ∈ T.threads ++ T.blocked) :
    ({ T with threads := ts, blocked := bs } : Table).Core pages where
  nodup := hnd
  head := hhead
  listed := fun x hx => h.listed x (hsub x hx)
  main_pid := h.main_pid
  main_ppid := h.main_ppid
  pid_le := h.pid_le
  ppid_le := h.ppid_le
  pid_inj := h.pid_inj
  main_unmarked := h.main_unmarked
  rootless := h.rootless
  count_le := h.count_le
  pages_nodup := h.pages_nodup
  pages_low := h.pages_low

/-- States and the current process may change freely, and children may be marked. -/
theorem Core.reproc (h : T.Core pages) {proc : PcbRef → Proc} {current : PcbRef}
    (hpid : ∀ x, (proc x).pid = (T.proc x).pid) (hppid : ∀ x, (proc x).ppid = (T.proc x).ppid)
    (hmain : (proc T.main).isWait = false) :
    ({ T with proc := proc, current := current } : Table).Core pages where
  nodup := h.nodup
  head := h.head
  listed := h.listed
  main_pid := (hpid _).trans h.main_pid
  main_ppid := (hppid _).trans h.main_ppid
  pid_le := fun x hx => (hpid x).symm ▸ h.pid_le x hx
  ppid_le := fun x hx => (hppid x).symm ▸ h.ppid_le x hx
  pid_inj := by
    intro x hx y hy heq hne
    exact h.pid_inj x hx y hy (by rwa [← hpid x, ← hpid y]) (by rwa [← hpid x])
  main_unmarked := hmain
  rootless := fun x hx hzero => (hppid x).trans (h.rootless x hx ((hpid x).symm.trans hzero))
  count_le := h.count_le
  pages_nodup := h.pages_nodup
  pages_low := h.pages_low

theorem setState_core (h : T.Core pages) (x : PcbRef) (state : ProcState) :
    (T.setState x state).Core pages :=
  h.reproc (fun y => T.setState_pid x y state) (fun y => T.setState_ppid x y state)
    ((T.setState_isWait x _ state).trans h.main_unmarked)

/-- Taking an entry other than the main thread off `threads`. -/
theorem Core.head_erase (h : T.Core pages) (hmain : x ≠ T.main) :
    (T.threads.erase x).head? = some T.main := by
  cases hthreads : T.threads with
  | nil =>
      have hhead := h.head
      simp [hthreads] at hhead
  | cons y ys =>
      have hhead := h.head
      rw [hthreads] at hhead
      have hy : y = T.main := Option.some.inj hhead
      rw [List.erase_cons_tail (by simpa [hy] using Ne.symm hmain), List.head?_cons, hy]

/-! ## `schedule` -/

theorem pick_mem (h : T.Core pages) : T.pick ∈ T.threads := by
  rw [pick]
  cases hahead : T.ahead.find? T.Ready with
  | some x =>
      have hx := List.mem_of_find?_eq_some hahead
      rw [ahead] at hx
      split_ifs at hx
      · simp at hx
      · exact behind_sublist.mem hx
  | none =>
      cases hthreads : T.threads.find? T.Ready with
      | some x => exact List.mem_of_find?_eq_some hthreads
      | none => exact h.main_mem

theorem restState_ne_running : T.restState ≠ .running := by
  rw [restState]
  split_ifs <;> decide

theorem schedule_core (h : T.Core pages) : T.schedule.Core pages :=
  h.reproc (fun x => T.schedule_pid x) (fun x => T.schedule_ppid x)
    ((T.schedule_isWait _).trans h.main_unmarked)

/-- Whatever was going on, after `schedule` the process that was picked is the one RUNNING. -/
theorem schedule_valid (h : T.Core pages) (hrunning : T.OneRunning) :
    T.schedule.Valid pages false where
  toCore := schedule_core h
  current := pick_mem h
  running := by
    intro x hx hstate
    rw [schedule_state] at hstate
    split_ifs at hstate with hpick hcurrent
    · exact hpick
    · exact absurd hstate restState_ne_running
    · exact absurd (hrunning x hx hstate) hcurrent
  turn := by simp [schedule_state]

/-! ## New entries -/

/-- A page that was not allocated before is on neither list. -/
theorem Core.fresh (h : T.Core pages) (hpage : page ∉ pages) : page ∉ T.threads ++ T.blocked :=
  fun hmem => hpage (h.listed page hmem)

/-- `T'` is `T` with a new ready entry `p`, on a fresh page, somewhere behind the head. -/
structure Extends (T T' : Table) (page : PcbRef) (p : Proc) : Prop where
  proc : T'.proc = Function.update T.proc page p
  threads : T'.threads.Perm (page :: T.threads)
  head : T'.threads.head? = T.threads.head?
  blocked : T'.blocked = T.blocked
  main : T'.main = T.main
  current : T'.current = T.current
  count : T.count ≤ T'.count
  ready : p.state = .sleeping

namespace Extends

variable {p : Proc}

theorem proc_new (he : Extends T T' page p) : T'.proc page = p := by simp [he.proc]

theorem proc_old (he : Extends T T' page p) (hpage : page ∉ pages) (hx : x ∈ pages) :
    T'.proc x = T.proc x := by
  have hne : x ≠ page := by
    rintro rfl
    exact hpage hx
  simp [he.proc, hne]

theorem mem_iff (he : Extends T T' page p) :
    x ∈ T'.threads ++ T'.blocked ↔ x = page ∨ x ∈ T.threads ++ T.blocked := by
  rw [List.mem_append, he.threads.mem_iff, he.blocked, List.mem_cons, List.mem_append, or_assoc]

/-- The ids of the new entry fit in with the others. -/
structure Fits (T T' : Table) (pages : List PcbRef) (p : Proc) : Prop where
  pid_le : p.pid ≤ T'.count
  ppid_le : p.ppid ≤ T'.count
  unique : p.pid = 0 ∨ ∀ y ∈ pages, (T.proc y).pid ≠ p.pid
  rootless : p.pid = 0 → p.ppid = 0
  count_le : T'.count.toNat ≤ pages.length + 1

theorem valid (he : Extends T T' page p) (hfits : Fits T T' pages p) (h : T.Valid pages false)
    (hpage : page ∉ pages) (hlow : page < Sched.maxPcbs) : T'.Valid (page :: pages) false := by
  have hold : ∀ y ∈ pages, T'.proc y = T.proc y := fun y hy => he.proc_old hpage hy
  have hmain : T.main ∈ pages := h.listed _ (List.mem_append_left _ h.main_mem)
  have hcurrent : T.current ∈ pages := h.listed _ (List.mem_append_left _ h.current)
  refine ⟨⟨?nodup, ?head, ?listed, ?mainPid, ?mainPpid, ?pidLe, ?ppidLe, ?pidInj, ?mainUnmarked,
    ?rootless, ?countLe, ?pagesNodup, ?pagesLow⟩, ?current, ?running, ?turn⟩
  case nodup =>
    have hperm : (T'.threads ++ T'.blocked).Perm (page :: (T.threads ++ T.blocked)) := by
      rw [he.blocked]
      exact he.threads.append_right T.blocked
    exact hperm.nodup_iff.2 (List.nodup_cons.2 ⟨h.fresh hpage, h.nodup⟩)
  case head => rw [he.head, he.main, h.head]
  case listed =>
    intro y hy
    rcases he.mem_iff.1 hy with rfl | hy
    · simp
    · exact List.mem_cons_of_mem _ (h.listed y hy)
  case mainPid => rw [he.main, hold _ hmain, h.main_pid]
  case mainPpid => rw [he.main, hold _ hmain, h.main_ppid]
  case pidLe =>
    intro y hy
    rcases List.mem_cons.1 hy with rfl | hy
    · rw [he.proc_new]
      exact hfits.pid_le
    · rw [hold y hy]
      exact BitVec.le_trans (h.pid_le y hy) he.count
  case ppidLe =>
    intro y hy
    rcases List.mem_cons.1 hy with rfl | hy
    · rw [he.proc_new]
      exact hfits.ppid_le
    · rw [hold y hy]
      exact BitVec.le_trans (h.ppid_le y hy) he.count
  case pidInj =>
    intro y hy z hz heq hne
    -- a pid that somebody has goes to the new PCB only if it is 0, which no two need to differ in
    have hclash : ∀ w ∈ pages, (T.proc w).pid = p.pid → p.pid = 0 := fun w hw hsame =>
      hfits.unique.resolve_right fun huniq => huniq w hw hsame
    rcases List.mem_cons.1 hy with hy' | hy' <;> rcases List.mem_cons.1 hz with hz' | hz'
    · rw [hy', hz']
    · rw [hy', he.proc_new, hold z hz'] at heq
      rw [hy', he.proc_new] at hne
      exact absurd (hclash z hz' heq.symm) hne
    · rw [hz', he.proc_new, hold y hy'] at heq
      rw [hold y hy'] at hne
      exact absurd (hclash y hy' heq) (heq ▸ hne)
    · rw [hold y hy', hold z hz'] at heq
      rw [hold y hy'] at hne
      exact h.pid_inj y hy' z hz' heq hne
  case mainUnmarked => rw [he.main, hold _ hmain, h.main_unmarked]
  case rootless =>
    intro y hy hzero
    rcases List.mem_cons.1 hy with rfl | hy
    · rw [he.proc_new] at hzero ⊢
      exact hfits.rootless hzero
    · rw [hold y hy] at hzero ⊢
      exact h.rootless y hy hzero
  case countLe => exact hfits.count_le
  case pagesNodup => exact List.nodup_cons.2 ⟨hpage, h.pages_nodup⟩
  case pagesLow =>
    intro y hy
    rcases List.mem_cons.1 hy with rfl | hy
    · exact hlow
    · exact h.pages_low y hy
  case current => rw [he.threads.mem_iff, he.current]; exact List.mem_cons_of_mem _ h.current
  case running =>
    intro y hy hstate
    rw [he.current]
    rcases he.mem_iff.1 hy with rfl | hy
    · rw [he.proc_new, he.ready] at hstate
      cases hstate
    · rw [hold y (h.listed y hy)] at hstate
      exact h.running y hy hstate
  case turn => rw [he.current, hold _ hcurrent, h.turn]

end Extends

theorem createThread_extends (h : T.Core pages) :
    Extends T (T.createThread page) page ⟨0, 0, false, .sleeping⟩ where
  proc := rfl
  threads := List.perm_append_singleton page T.threads
  head := by
    rw [h.head]
    simp [createThread, modify, h.head]
  blocked := rfl
  main := rfl
  current := rfl
  count := BitVec.le_refl _
  ready := rfl

theorem createThread_valid (h : T.Valid pages false) (hpage : page ∉ pages)
    (hlow : page < Sched.maxPcbs) : (T.createThread page).Valid (page :: pages) false :=
  (createThread_extends h.toCore).valid
    ⟨pid_zero_le _, pid_zero_le _, Or.inl rfl, fun _ => rfl, h.count_le.trans (by simp)⟩ h
    hpage hlow

theorem fork_extends (h : T.Valid pages false) :
    Extends T (T.fork page) page
      ⟨T.count + 1, (T.proc T.current).pid, (T.proc page).isWait, .sleeping⟩ where
  proc := rfl
  threads := insertAfter_perm h.current
  head := head?_insertAfter
  blocked := rfl
  main := rfl
  current := rfl
  count := by
    rw [BitVec.le_def]
    change T.count.toNat ≤ (T.count + 1).toNat
    rw [h.toNat_count_succ]
    exact Nat.le_succ _
  ready := rfl

theorem fork_valid (h : T.Valid pages false) (hpage : page ∉ pages)
    (hlow : page < Sched.maxPcbs) : (T.fork page).Valid (page :: pages) false := by
  have he : Extends T (T.fork page) page _ := fork_extends h
  have hcurrent : T.current ∈ pages := h.listed _ (List.mem_append_left _ h.current)
  refine he.valid ⟨BitVec.le_refl _, BitVec.le_trans (h.pid_le _ hcurrent) he.count, Or.inr ?_,
    fun hzero => absurd hzero h.count_succ_ne_zero, ?_⟩ h hpage hlow
  · -- the new id is above all ids in use
    intro y hy heq
    have hle := h.pid_le y hy
    rw [heq, BitVec.le_def, h.toNat_count_succ] at hle
    exact Nat.not_succ_le_self _ hle
  · change (T.count + 1).toNat ≤ pages.length + 1
    rw [h.toNat_count_succ]
    exact Nat.succ_le_succ h.count_le

/-- `user_process` runs before the first fork, so its process gets the only id in use. -/
theorem userProcess_valid (h : T.Valid pages false) (hcount : T.count = 0)
    (hmain : T.current ≠ T.main) : T.userProcess.Valid pages false := by
  have hproc : ∀ y, T.userProcess.proc y =
      if y = T.current then ⟨1, 0, (T.proc y).isWait, (T.proc y).state⟩ else T.proc y := by
    intro y
    by_cases hy : y = T.current
    · subst hy
      simp [userProcess, modify]
    · simp [userProcess, modify, hy]
  -- no pid was handed out before, so all are 0
  have hzero : ∀ y ∈ pages, (T.proc y).pid = 0 ∧ (T.proc y).ppid = 0 := by
    intro y hy
    have hpid := h.pid_le y hy
    have hppid := h.ppid_le y hy
    rw [hcount] at hpid hppid
    exact ⟨BitVec.le_zero_iff.1 hpid, BitVec.le_zero_iff.1 hppid⟩
  refine ⟨⟨h.nodup, h.head, h.listed, ?mainPid, ?mainPpid, ?pidLe, ?ppidLe, ?pidInj, ?mainUnmarked,
    ?rootless,
    ?countLe, h.pages_nodup, h.pages_low⟩, h.current, ?running, ?turn⟩
  case mainPid =>
    change (T.userProcess.proc T.main).pid = 0
    rw [hproc, if_neg (Ne.symm hmain), h.main_pid]
  case mainPpid =>
    change (T.userProcess.proc T.main).ppid = 0
    rw [hproc, if_neg (Ne.symm hmain), h.main_ppid]
  case pidLe =>
    intro y hy
    rw [hproc]
    split_ifs
    · exact BitVec.le_refl _
    · rw [(hzero y hy).1]
      exact pid_zero_le _
  case ppidLe =>
    intro y hy
    rw [hproc]
    split_ifs
    · exact pid_zero_le _
    · rw [(hzero y hy).2]
      exact pid_zero_le _
  case pidInj =>
    intro y hy z hz heq hne
    rw [hproc] at heq hne
    rw [hproc z] at heq
    split_ifs at heq hne with hyc hzc hzc
    · exact hyc.trans hzc.symm
    · rw [(hzero z hz).1] at heq
      exact absurd heq (by simp)
    · exact absurd (hzero y hy).1 hne
    · exact absurd (hzero y hy).1 hne
  case mainUnmarked =>
    change (T.userProcess.proc T.main).isWait = false
    rw [hproc, if_neg (Ne.symm hmain), h.main_unmarked]
  case rootless =>
    intro y hy _
    rw [hproc]
    split_ifs
    · rfl
    · exact (hzero y hy).2
  case countLe =>
    have hmem : T.current ∈ pages := h.listed _ (List.mem_append_left _ h.current)
    exact List.length_pos_of_mem hmem
  case running =>
    intro y hy hstate
    rw [hproc] at hstate
    split_ifs at hstate with hyc
    · exact hyc
    · exact h.running y hy hstate
  case turn =>
    change (T.userProcess.proc T.current).state = _
    rw [hproc, if_pos rfl]
    exact h.turn

/-! ## Waiting -/

/-- A process that has a child to wait for is not the main thread. -/
theorem Core.ne_main_of_pid (h : T.Core pages) (hpid : (T.proc x).pid ≠ 0) : x ≠ T.main := by
  rintro rfl
  exact hpid h.main_pid

theorem marked_core (h : T.Core pages) (pid : Pid) : (T.marked pid).Core pages := by
  refine h.reproc (fun x => T.marked_pid pid x) (fun x => T.marked_ppid pid x) ?_
  -- nobody is the parent of the main thread
  have hmain : ¬ T.WaitTarget pid T.main := fun hmark =>
    hmark.2.2.1 (hmark.2.1.symm.trans h.main_ppid)
  rw [if_neg hmain, h.main_unmarked]

theorem enterWait_core (h : T.Core pages) (hcurrent : T.current ∈ T.threads) (pid : Pid) :
    (T.enterWait pid).Core pages := by
  rw [enterWait]
  split_ifs with hwait
  · rcases hwait with ⟨x, -, hx⟩
    have hmain : T.current ≠ T.main := h.ne_main_of_pid hx.2.2.1
    have hperm : (T.threads.erase T.current ++ T.current :: T.blocked).Perm
        (T.threads ++ T.blocked) :=
      List.perm_middle.trans ((List.perm_cons_erase hcurrent).symm.append_right T.blocked)
    exact (marked_core h pid).relist (hperm.nodup_iff.2 h.nodup) (h.head_erase hmain)
      fun y hy => hperm.mem_iff.1 hy
  · exact h

theorem mem_enterWait (hcurrent : T.current ∈ T.threads) (pid : Pid) :
    x ∈ (T.enterWait pid).threads ++ (T.enterWait pid).blocked ↔ x ∈ T.threads ++ T.blocked := by
  rw [enterWait]
  split_ifs
  · exact (List.perm_middle.trans
      ((List.perm_cons_erase hcurrent).symm.append_right T.blocked)).mem_iff
  · rfl

theorem waitpid_valid (h : T.Valid pages spinning) (pid : Pid) :
    (T.waitpid pid).Valid pages false := by
  apply schedule_valid (setState_core (enterWait_core h.toCore h.current pid) _ _)
  intro x hx hstate
  rw [setState_threads, setState_blocked, mem_enterWait h.current] at hx
  rw [setState_state] at hstate
  split_ifs at hstate with hcurrent
  rw [enterWait_state] at hstate
  exact absurd (h.running x hx hstate) hcurrent

/-! ## Exit and wake-up -/

/-- What `wake` can do: nothing, if no parent waits, else move the parent and cut the list. -/
theorem wake_cases (T : Table) (x : PcbRef) :
    (T.wake x = T ∧ ∀ y ∈ T.blocked, (T.proc y).pid ≠ (T.proc x).ppid) ∨
    ∃ front parent rest, T.blocked = front ++ parent :: rest ∧
      (∀ y ∈ front, (T.proc y).pid ≠ (T.proc x).ppid) ∧
      (T.proc parent).pid = (T.proc x).ppid ∧
      T.wake x = { T with threads := insertAfter x parent T.threads, blocked := rest } := by
  have hsplit := List.takeWhile_append_dropWhile
    (p := fun y => decide ((T.proc y).pid ≠ (T.proc x).ppid)) (l := T.blocked)
  have hfront : ∀ y ∈ T.blocked.takeWhile fun y => decide ((T.proc y).pid ≠ (T.proc x).ppid),
      (T.proc y).pid ≠ (T.proc x).ppid := fun y hy => by
    simpa using List.mem_takeWhile_imp hy
  rw [wake]
  cases hdrop : T.blocked.dropWhile fun y => decide ((T.proc y).pid ≠ (T.proc x).ppid) with
  | nil =>
      rw [hdrop, List.append_nil] at hsplit
      exact Or.inl ⟨rfl, fun y hy => hfront y (hsplit.symm ▸ hy)⟩
  | cons parent rest =>
      rw [hdrop] at hsplit
      refine Or.inr ⟨_, parent, rest, hsplit.symm, hfront, ?_, rfl⟩
      have hhead := List.head?_dropWhile_not
        (fun y => decide ((T.proc y).pid ≠ (T.proc x).ppid)) T.blocked
      rw [hdrop] at hhead
      simpa using hhead

/-- The entries after a wake-up were there before. -/
theorem mem_of_mem_wake (hx : x ∈ T.threads) {y : PcbRef}
    (hy : y ∈ (T.wake x).threads ++ (T.wake x).blocked) : y ∈ T.threads ++ T.blocked := by
  rcases wake_cases T x with ⟨heq, -⟩ | ⟨front, parent, rest, hsplit, -, -, heq⟩
  · rwa [heq] at hy
  · rw [heq] at hy
    simp only [List.mem_append, mem_insertAfter hx, hsplit, List.mem_cons] at hy ⊢
    tauto

theorem wake_valid (h : T.Valid pages spinning) (hx : x ∈ T.threads) :
    (T.wake x).Valid pages spinning := by
  have hcore : (T.wake x).Core pages ∧ T.current ∈ (T.wake x).threads := by
    rcases wake_cases T x with ⟨heq, -⟩ | ⟨front, parent, rest, hsplit, -, -, heq⟩
    · rw [heq]
      exact ⟨h.toCore, h.current⟩
    · have hmem := fun y => mem_of_mem_wake (y := y) hx
      rw [heq] at hmem ⊢
      have hperm : (T.threads ++ T.blocked).Perm
          (front ++ (insertAfter x parent T.threads ++ rest)) := by
        rw [hsplit]
        calc
          (T.threads ++ (front ++ parent :: rest)).Perm
              (T.threads ++ (parent :: (front ++ rest))) :=
            List.perm_middle.append_left T.threads
          List.Perm _ (parent :: T.threads ++ (front ++ rest)) := List.perm_middle
          List.Perm _ (insertAfter x parent T.threads ++ (front ++ rest)) :=
            (insertAfter_perm hx).symm.append_right _
          List.Perm _ (front ++ (insertAfter x parent T.threads ++ rest)) := by
            rw [← List.append_assoc, ← List.append_assoc]
            exact List.perm_append_comm.append_right rest
      refine ⟨h.toCore.relist ?_ ?_ hmem, (mem_insertAfter hx).2 (Or.inr h.current)⟩
      · exact (List.nodup_append.1 (hperm.nodup_iff.1 h.nodup)).2.1
      · rw [head?_insertAfter, h.head]
  refine ⟨hcore.1, ?_, ?_, ?_⟩
  · rw [wake_current]
    exact hcore.2
  · intro y hy hstate
    rw [wake_proc] at hstate
    rw [wake_current]
    exact h.running y (mem_of_mem_wake hx hy) hstate
  · rw [wake_proc, wake_current]
    exact h.turn

/-- What the exit of the current process can do besides making it a ZOMBIE. -/
theorem exit_cases (T : Table) :
    T.exit = T.setState T.current .zombie ∧
      (¬ (0 < (T.proc T.current).ppid ∧ (T.proc T.current).isWait = true) ∨
        ∃ y, (T.setState T.current .zombie).sibling T.current = some y ∧
          (T.proc y).isWait = true) ∨
    0 < (T.proc T.current).ppid ∧ (T.proc T.current).isWait = true ∧
      ∃ x, (x = T.current ∨ x ∈ T.threads) ∧ (T.proc x).ppid = (T.proc T.current).ppid ∧
        T.exit = (T.setState T.current .zombie).wake x := by
  rw [exit]
  by_cases hwait : 0 < (T.proc T.current).ppid ∧ (T.proc T.current).isWait = true
  · rw [if_pos hwait, notify]
    cases hsibling : (T.setState T.current .zombie).sibling T.current with
    | none => exact Or.inr ⟨hwait.1, hwait.2, T.current, Or.inl rfl, rfl, rfl⟩
    | some y =>
        have hy := List.find?_some hsibling
        have hmem := List.mem_of_find?_eq_some hsibling
        simp only [setState_ppid, ne_eq, decide_eq_true_eq] at hy
        simp only [setState_isWait]
        split_ifs with hmark
        · exact Or.inl ⟨rfl, Or.inr ⟨y, rfl, hmark⟩⟩
        · exact Or.inr ⟨hwait.1, hwait.2, y, Or.inr hmem, hy.2.2.symm, rfl⟩
  · rw [if_neg hwait]
    exact Or.inl ⟨rfl, Or.inl hwait⟩

theorem exit_valid (h : T.Valid pages false) : T.exit.Valid pages true := by
  have hzombie : (T.setState T.current .zombie).Valid pages true := by
    refine ⟨setState_core h.toCore _ _, h.current, ?_, by simp [setState_state]⟩
    intro x hx hstate
    rw [setState_state] at hstate
    split_ifs at hstate
    exact h.running x hx hstate
  rcases exit_cases T with ⟨heq, -⟩ | ⟨-, -, x, hx, -, heq⟩
  · rwa [heq]
  · rw [heq]
    refine wake_valid hzombie ?_
    rcases hx with rfl | hx
    · exact h.current
    · exact hx

/-! ## Killing -/

/-- What killing another process can do: take one entry other than the main thread off a list. -/
theorem killOther_cases (T : Table) (pid : Pid) :
    T.killOther pid = T ∨
    (∃ x ∈ T.threads, (T.proc x).pid = pid ∧ x ≠ T.main ∧
      T.killOther pid = { T with threads := T.threads.erase x }) ∨
    (∃ x ∈ T.blocked, (T.proc x).pid = pid ∧
      T.killOther pid = { T with blocked := T.blocked.erase x }) := by
  rw [killOther]
  cases hthreads : T.threads.find? (T.HasPid pid) with
  | some x =>
      have hx : T.HasPid pid x := by
        have htest := List.find?_some hthreads
        exact of_decide_eq_true htest
      by_cases hmain : x = T.main
      · exact Or.inl (if_pos hmain)
      · exact Or.inr (Or.inl ⟨x, List.mem_of_find?_eq_some hthreads, hx, hmain, if_neg hmain⟩)
  | none =>
      cases hblocked : T.blocked.find? (T.HasPid pid) with
      | some x =>
          have hx : T.HasPid pid x := by
            have htest := List.find?_some hblocked
            exact of_decide_eq_true htest
          exact Or.inr (Or.inr ⟨x, List.mem_of_find?_eq_some hblocked, hx, rfl⟩)
      | none => exact Or.inl rfl

theorem killOther_sublist (T : Table) (pid : Pid) :
    (T.killOther pid).threads.Sublist T.threads ∧ (T.killOther pid).blocked.Sublist T.blocked := by
  rcases killOther_cases T pid with heq | ⟨x, -, -, -, heq⟩ | ⟨x, -, -, heq⟩ <;> rw [heq]
  · exact ⟨List.Sublist.refl _, List.Sublist.refl _⟩
  · exact ⟨List.erase_sublist, List.Sublist.refl _⟩
  · exact ⟨List.Sublist.refl _, List.erase_sublist⟩

theorem killOther_valid (h : T.Valid pages spinning) (hpid : pid ≠ (T.proc T.current).pid) :
    (T.killOther pid).Valid pages spinning := by
  rcases killOther_cases T pid with heq | ⟨x, hx, hxpid, hmain, heq⟩ | ⟨x, hx, -, heq⟩
  · rwa [heq]
  · rw [heq]
    have hsub : (T.threads.erase x ++ T.blocked).Sublist (T.threads ++ T.blocked) :=
      List.erase_sublist.append_right T.blocked
    have hcurrent : T.current ≠ x := by
      rintro rfl
      exact hpid hxpid.symm
    exact ⟨h.toCore.relist (h.nodup.sublist hsub) (h.head_erase hmain) fun y hy => hsub.mem hy,
      (List.mem_erase_of_ne hcurrent).2 h.current, fun y hy => h.running y (hsub.mem hy), h.turn⟩
  · rw [heq]
    have hsub : (T.threads ++ T.blocked.erase x).Sublist (T.threads ++ T.blocked) :=
      List.erase_sublist.append_left T.threads
    exact ⟨h.toCore.relist (h.nodup.sublist hsub) h.head fun y hy => hsub.mem hy, h.current,
      fun y hy => h.running y (hsub.mem hy), h.turn⟩

end Table

end OswpKernel
