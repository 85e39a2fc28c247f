import OswpKernel.Scheduler.Table
import Mathlib.Data.List.TakeWhile

/-!
# Scheduler refinement — the linked PCBs compute the table

`Represents s T` says that the two chains of PCBs visit the lists of the table `T` and that the
PCBs hold what the table says.  Every operation of the source keeps this relation with the table
operation of the same name.
-/

namespace OswpKernel

open Chain

namespace Sched

variable {s s' : Sched} {T : Table} {x y : PcbRef}

/-! ## Writing to a PCB -/

theorem modify_pcb (s : Sched) (x y : PcbRef) (f : PCB → PCB) :
    (s.modify x f).pcb y = if y = x then f (s.pcb x) else s.pcb y := by
  by_cases h : y = x
  · subst h
    simp [modify]
  · simp [modify, h]

theorem modify_next (s : Sched) (x : PcbRef) {f : PCB → PCB} (hf : ∀ p, (f p).next = p.next) :
    (s.modify x f).next = s.next := by
  funext y
  simp only [next, modify_pcb]
  split_ifs with h
  · rw [hf, h]
  · rfl

theorem modify_proc (s : Sched) (x y : PcbRef) {f : PCB → PCB} (hf : ∀ p, (f p).proc = p.proc) :
    ((s.modify x f).pcb y).proc = (s.pcb y).proc := by
  rw [modify_pcb]
  split_ifs with h
  · rw [hf, h]
  · rfl

@[simp] theorem setNext_next_self (s : Sched) (x : PcbRef) (link : Option PcbRef) :
    (s.setNext x link).next x = link := by
  simp [setNext, next, modify_pcb]

theorem setNext_next_of_ne (s : Sched) (link : Option PcbRef) (h : y ≠ x) :
    (s.setNext x link).next y = s.next y := by
  simp [setNext, next, modify_pcb, h]

@[simp] theorem setNext_proc (s : Sched) (x y : PcbRef) (link : Option PcbRef) :
    ((s.setNext x link).pcb y).proc = (s.pcb y).proc :=
  s.modify_proc x y fun _ => rfl

@[simp] theorem setState_next (s : Sched) (x : PcbRef) (state : ProcState) :
    (s.setState x state).next = s.next :=
  s.modify_next x fun _ => rfl

/-- Two states that agree on everything but the slices and the first children. -/
structure SameTable (s s' : Sched) : Prop where
  proc : ∀ x, (s'.pcb x).proc = (s.pcb x).proc
  next : s'.next = s.next
  main : s'.mainthread = s.mainthread
  threads : s'.threadlist = s.threadlist
  blocked : s'.blockedlist = s.blockedlist
  current : s'.currentthread = s.currentthread
  count : s'.processcount = s.processcount

theorem SameTable.refl (s : Sched) : SameTable s s :=
  ⟨fun _ => rfl, rfl, rfl, rfl, rfl, rfl, rfl⟩

theorem SameTable.trans {s'' : Sched} (h : SameTable s s') (h' : SameTable s' s'') :
    SameTable s s'' where
  proc := fun x => (h'.proc x).trans (h.proc x)
  next := h'.next.trans h.next
  main := h'.main.trans h.main
  threads := h'.threads.trans h.threads
  blocked := h'.blocked.trans h.blocked
  current := h'.current.trans h.current
  count := h'.count.trans h.count

theorem sameTable_modify (s : Sched) (x : PcbRef) {f : PCB → PCB}
    (hproc : ∀ p, (f p).proc = p.proc) (hnext : ∀ p, (f p).next = p.next) :
    SameTable s (s.modify x f) :=
  ⟨fun y => s.modify_proc x y hproc, s.modify_next x hnext, rfl, rfl, rfl, rfl, rfl⟩

theorem sameTable_addSlices (s : Sched) (temp : Option PcbRef) :
    SameTable s (s.addSlices temp) := by
  rw [addSlices]
  generalize s.walk temp = xs
  induction xs generalizing s with
  | nil => exact SameTable.refl s
  | cons x xs ih =>
      rw [List.foldl_cons]
      refine SameTable.trans ?_ (ih _)
      split_ifs
      · exact sameTable_modify s x (fun _ => rfl) fun _ => rfl
      · exact SameTable.refl s

/-! ## The relation -/

structure Represents (s : Sched) (T : Table) : Prop where
  proc : ∀ x, (s.pcb x).proc = T.proc x
  main : s.mainthread = T.main
  threads : Seg s.next s.threadlist T.threads none
  blocked : Seg s.next s.blockedlist T.blocked none
  current : s.currentthread = T.current
  count : s.processcount = T.count

namespace Represents

theorem pid (h : Represents s T) (x : PcbRef) : (s.pcb x).pid = (T.proc x).pid :=
  congrArg Proc.pid (h.proc x)

theorem ppid (h : Represents s T) (x : PcbRef) : (s.pcb x).ppid = (T.proc x).ppid :=
  congrArg Proc.ppid (h.proc x)

theorem isWait (h : Represents s T) (x : PcbRef) : (s.pcb x).isWait = (T.proc x).isWait :=
  congrArg Proc.isWait (h.proc x)

theorem state (h : Represents s T) (x : PcbRef) : (s.pcb x).state = (T.proc x).state :=
  congrArg Proc.state (h.proc x)

theorem sameTable (h : Represents s T) (hs : SameTable s s') : Represents s' T where
  proc := fun x => (hs.proc x).trans (h.proc x)
  main := hs.main.trans h.main
  threads := by rw [hs.next, hs.threads]; exact h.threads
  blocked := by rw [hs.next, hs.blocked]; exact h.blocked
  current := hs.current.trans h.current
  count := hs.count.trans h.count

/-- Writing fields of one PCB that the links do not depend on. -/
theorem modify (h : Represents s T) (x : PcbRef) {f : PCB → PCB} {g : Proc → Proc}
    (hproc : ∀ p, (f p).proc = g p.proc) (hnext : ∀ p, (f p).next = p.next) :
    Represents (s.modify x f) (T.modify x g) where
  proc := by
    intro y
    rw [modify_pcb]
    by_cases hy : y = x
    · subst hy
      simp [Table.modify, hproc, h.proc]
    · simp [Table.modify, hy, h.proc]
  main := h.main
  threads := by rw [s.modify_next x hnext]; exact h.threads
  blocked := by rw [s.modify_next x hnext]; exact h.blocked
  current := h.current
  count := h.count

theorem setState (h : Represents s T) (x : PcbRef) (state : ProcState) :
    Represents (s.setState x state) (T.setState x state) :=
  h.modify x (fun _ => rfl) fun _ => rfl

end Represents

/-- The lists are short enough for the loops to come to their ends. -/
def Bounded (T : Table) : Prop := (T.threads ++ T.blocked).length ≤ maxPcbs

theorem Bounded.threads (h : Bounded T) : T.threads.length ≤ maxPcbs :=
  le_trans (by simp) h

theorem Bounded.blocked (h : Bounded T) : T.blocked.length ≤ maxPcbs :=
  le_trans (by simp) h

namespace Represents

variable (h : Represents s T) (hT : Bounded T)

include h hT

theorem walk_threads : s.walk s.threadlist = T.threads :=
  h.threads.follow_eq hT.threads

theorem walk_blocked : s.walk s.blockedlist = T.blocked :=
  h.blocked.follow_eq hT.blocked

/-- The walk from an entry's link visits the entries behind it. -/
theorem walk_next (hx : x ∈ T.threads) : s.walk (s.next x) = behind x T.threads := by
  apply (h.threads.behind hx).follow_eq
  exact behind_sublist.length_le.trans hT.threads

theorem firstReady_threads : s.firstReady s.threadlist = T.threads.find? T.Ready := by
  rw [firstReady, h.walk_threads hT]
  congr 1
  funext x
  exact decide_eq_decide.2 (by rw [h.state, Table.Ready])

theorem firstReady_next (hx : x ∈ T.threads) :
    s.firstReady (s.next x) = (behind x T.threads).find? T.Ready := by
  rw [firstReady, h.walk_next hT hx]
  congr 1
  funext x
  exact decide_eq_decide.2 (by rw [h.state, Table.Ready])

end Represents

/-- The table that can be read off the PCBs. -/
def table (s : Sched) : Table where
  proc := fun x => (s.pcb x).proc
  main := s.mainthread
  threads := s.walk s.threadlist
  blocked := s.walk s.blockedlist
  current := s.currentthread
  count := s.processcount

theorem Represents.table_eq (h : Represents s T) (hT : Bounded T) : s.table = T := by
  ext1
  · exact funext h.proc
  · exact h.main
  · exact h.walk_threads hT
  · exact h.walk_blocked hT
  · exact h.current
  · exact h.count

/-! ## `schedule` -/

/-- The search of `schedule` picks the table's choice. -/
theorem Represents.pick_eq (h : Represents s T) (hT : Bounded T)
    (hcurrent : T.current ∈ T.threads ∨ (T.proc T.current).state = .blocked) :
    (if (s.pcb s.currentthread).next ≠ none ∧ (s.pcb s.currentthread).state ≠ .blocked then
        (s.firstReady (s.pcb s.currentthread).next).or (s.firstReady s.threadlist)
      else s.firstReady s.threadlist).getD s.mainthread = T.pick := by
  rw [h.firstReady_threads hT, h.main, h.current, h.state]
  unfold Table.pick Table.ahead
  by_cases hstate : (T.proc T.current).state = .blocked
  · simp [hstate]
  · have hmem : T.current ∈ T.threads := hcurrent.resolve_right hstate
    have hnext := h.firstReady_next hT hmem
    change s.firstReady (s.pcb T.current).next = _ at hnext
    by_cases hnone : (s.pcb T.current).next = none
    · have hend : (behind T.current T.threads).find? T.Ready = none := by
        rw [← hnext, hnone]
        rfl
      simp [hnone, hstate, hend]
    · rw [if_pos ⟨hnone, hstate⟩, if_neg hstate, hnext]

theorem Represents.schedule (h : Represents s T) (hT : Bounded T)
    (hcurrent : T.current ∈ T.threads ∨ (T.proc T.current).state = .blocked) :
    Represents s.schedule T.schedule := by
  have hrest :
      (if s.currentthread = s.mainthread then s.setState s.currentthread .zombie
        else if (s.pcb s.currentthread).state ≠ .zombie then s.setState s.currentthread .sleeping
        else s) = s.setState T.current T.restState := by
    rw [h.current, h.main, h.state, Table.restState]
    split_ifs with hmain hzombie
    · rfl
    · rfl
    · -- an exited process keeps its state
      have hsame : (s.pcb T.current).state = .zombie := by
        rw [h.state]
        exact not_not.1 hzombie
      have hpcb : { s.pcb T.current with state := .zombie } = s.pcb T.current := by
        rw [← hsame]
      rw [Sched.setState, Sched.modify, hpcb, Function.update_eq_self]
  have hstep : s.schedule =
      { (s.setState T.current T.restState).setState T.pick .running with
        currentthread := T.pick } := by
    simp only [Sched.schedule]
    rw [hrest]
    have hmain : (s.setState T.current T.restState).mainthread = s.mainthread := rfl
    rw [hmain, h.pick_eq hT hcurrent]
  rw [hstep]
  have h' := (h.setState T.current T.restState).setState T.pick .running
  exact ⟨h'.proc, h'.main, h'.threads, h'.blocked, rfl, h'.count⟩

/-! ## New entries -/

/-- Writing to a PCB that is on neither list. -/
theorem Represents.modify_unlisted (h : Represents s T) {page : PcbRef} {f : PCB → PCB}
    {g : Proc → Proc} (hpage : page ∉ T.threads ++ T.blocked)
    (hproc : ∀ p, (f p).proc = g p.proc) :
    Represents (s.modify page f) (T.modify page g) where
  proc := by
    intro y
    rw [modify_pcb]
    by_cases hy : y = page
    · subst hy
      simp [Table.modify, hproc, h.proc]
    · simp [Table.modify, hy, h.proc]
  main := h.main
  threads := by
    refine h.threads.congr fun y hy => ?_
    have hne : y ≠ page := fun heq => hpage (by simp [← heq, hy])
    simp [next, modify_pcb, hne]
  blocked := by
    refine h.blocked.congr fun y hy => ?_
    have hne : y ≠ page := fun heq => hpage (by simp [← heq, hy])
    simp [next, modify_pcb, hne]
  current := h.current
  count := h.count

/-- Changing links and list heads only. -/
theorem Represents.relink (h : Represents s T) {ts bs : List PcbRef}
    (hproc : ∀ x, (s'.pcb x).proc = (s.pcb x).proc) (hmain : s'.mainthread = s.mainthread)
    (hcurrent : s'.currentthread = s.currentthread) (hcount : s'.processcount = s.processcount)
    (hthreads : Seg s'.next s'.threadlist ts none)
    (hblocked : Seg s'.next s'.blockedlist bs none) :
    Represents s' { T with threads := ts, blocked := bs } where
  proc := fun x => (hproc x).trans (h.proc x)
  main := hmain.trans h.main
  threads := hthreads
  blocked := hblocked
  current := hcurrent.trans h.current
  count := hcount.trans h.count

theorem Represents.createThread (h : Represents s T) (hT : Bounded T)
    (hnd : (T.threads ++ T.blocked).Nodup) (hne : T.threads ≠ []) {page : PcbRef}
    (hpage : page ∉ T.threads ++ T.blocked) (hblank : (s.pcb page).Blank) :
    ∃ s', s.createThread page = some s' ∧ Represents s' (T.createThread page) := by
  let s₂ : Sched := s.modify page fun p =>
    { p with next := none, totalslice := 1, state := .sleeping }
  let T₂ : Table := T.modify page fun p => { p with state := .sleeping }
  have h₂ : Represents s₂ T₂ := h.modify_unlisted hpage fun _ => rfl
  have hnext : s₂.next page = none := by simp [s₂, next, modify_pcb]
  rcases List.eq_nil_or_concat T.threads with hnil | ⟨ys, last, hsplit⟩
  · exact absurd hnil hne
  rw [List.concat_eq_append] at hsplit
  have hlast : page ≠ last := fun heq => hpage (by simp [hsplit, heq])
  have hwalk : s₂.walk s₂.threadlist = T.threads := h₂.walk_threads hT
  refine ⟨s₂.setNext last (some page), ?_, ?_⟩
  · change (s₂.threadlist.bind fun temp => (s₂.walk (some temp)).getLast?.bind fun last =>
      some (s₂.setNext last (some page))) = _
    cases hhead : s₂.threadlist with
    | none =>
        rw [hhead] at hwalk
        exact absurd hwalk.symm hne
    | some head =>
        rw [hhead] at hwalk
        simp [hwalk, hsplit]
  · have hnd' : (T.threads ++ T.blocked).Nodup := hnd
    rw [hsplit, List.append_assoc] at hnd'
    have hother : ∀ y, y ≠ last → (s₂.setNext last (some page)).next y = s₂.next y := fun y hy =>
      setNext_next_of_ne s₂ (some page) hy
    -- the walk now goes on from the last entry to the new page, whose `next` is NULL
    have hthreads : Seg (s₂.setNext last (some page)).next s₂.threadlist (T.threads ++ [page])
        none := by
      have hseg : Seg s₂.next s₂.threadlist (ys ++ [last]) none := hsplit ▸ h₂.threads
      have hmoved := hseg.redirect (setNext_next_self s₂ last (some page)) fun y hy =>
        hother y fun heq => (List.nodup_append.1 hnd').2.2 y hy last (by simp) heq
      rw [hsplit]
      exact seg_snoc.2 ⟨hmoved, (hother page hlast).trans hnext⟩
    have hblocked : Seg (s₂.setNext last (some page)).next s₂.blockedlist T.blocked none := by
      refine h₂.blocked.congr fun y hy => hother y ?_
      have hy' : y ∈ T.blocked := hy
      rintro rfl
      exact (List.nodup_cons.1 (List.nodup_append.1 hnd').2.1).1 (by simpa using hy')
    have h₃ := h₂.relink (fun x => setNext_proc s₂ last x (some page))
      rfl rfl rfl hthreads hblocked
    have hproc : T₂.proc = (T.createThread page).proc := by
      obtain ⟨hpid, hppid, hwait⟩ := hblank
      rw [h.pid] at hpid
      rw [h.ppid] at hppid
      rw [h.isWait] at hwait
      simp [T₂, Table.modify, Table.createThread, hpid, hppid, hwait]
    exact ⟨fun x => hproc ▸ h₃.proc x, h₃.main, h₃.threads, h₃.blocked, h₃.current, h₃.count⟩

/-- The only RUNNING entry is the current process. -/
theorem find_running {T : Table} {pages : List PcbRef} (hv : T.Valid pages false) :
    T.threads.find? (fun x => (T.proc x).state = .running) = some T.current := by
  rcases List.eq_append_cons_of_mem hv.current with ⟨ys, zs, hsplit, hys⟩
  rw [List.find?_eq_some_iff_append]
  refine ⟨by simpa using hv.turn, ys, zs, hsplit, fun y hy => ?_⟩
  have hrunning : (T.proc y).state ≠ .running := by
    intro hstate
    have heq := hv.running y (by simp [hsplit, hy]) hstate
    exact hys (heq ▸ hy)
  simpa using hrunning

theorem Represents.userProcess (h : Represents s T) {pages : List PcbRef}
    (hv : T.Valid pages false) : Represents s.userProcess T.userProcess := by
  let s₀ : Sched := { s with processcount := 0 }
  let T₀ : Table := { T with count := 0 }
  have h₀ : Represents s₀ T₀ := ⟨h.proc, h.main, h.threads, h.blocked, h.current, rfl⟩
  have hfind : (s₀.walk s₀.threadlist).find? (fun x => (s₀.pcb x).state = .running) =
      some T.current := by
    rw [h₀.walk_threads hv.length_le, ← find_running hv]
    congr 1
    funext x
    exact decide_eq_decide.2 (by rw [h₀.state])
  have hstep : s.userProcess =
      { s₀ with processcount := 1 }.modify T.current fun p =>
        { p with pid := 1, ppid := 0, totalslice := MAXSLICE } := by
    rw [Sched.userProcess]
    dsimp only
    rw [hfind]
    rfl
  rw [hstep]
  have h₁ : Represents { s₀ with processcount := 1 } { T₀ with count := 1 } :=
    ⟨h.proc, h.main, h.threads, h.blocked, h.current, rfl⟩
  exact h₁.modify T.current (g := fun p => { p with pid := 1, ppid := 0 }) (fun _ => rfl)
    fun _ => rfl

/-! ## `sys_fork` -/

theorem copyProcess_proc (s : Sched) {page : PcbRef} (hne : s.currentthread ≠ page) (x : PcbRef) :
    ((s.copyProcess page).pcb x).proc =
      if x = page then
        ⟨s.processcount + 1, (s.pcb s.currentthread).pid, (s.pcb page).isWait, .sleeping⟩
      else (s.pcb x).proc := by
  by_cases hx : x = page
  · subst hx
    simp [copyProcess, modify, PCB.proc, hne, Ne.symm hne]
  · by_cases hcurrent : x = s.currentthread
    · subst hcurrent
      simp [copyProcess, modify, PCB.proc, hne]
    · simp [copyProcess, modify, PCB.proc, hx, hcurrent]

theorem copyProcess_next (s : Sched) {page : PcbRef} (hne : s.currentthread ≠ page) {x : PcbRef}
    (hx : x ≠ page) : (s.copyProcess page).next x = s.next x := by
  by_cases hcurrent : x = s.currentthread
  · subst hcurrent
    simp [copyProcess, modify, next, hne]
  · simp [copyProcess, modify, next, hx, hcurrent]

theorem Represents.copyProcess (h : Represents s T) {page : PcbRef}
    (hpage : page ∉ T.threads ++ T.blocked) (hcurrent : T.current ∈ T.threads) :
    Represents (s.copyProcess page)
        { T.modify page
            (fun p => ⟨T.count + 1, (T.proc T.current).pid, p.isWait, .sleeping⟩) with
          count := T.count + 1 } := by
  have hne : s.currentthread ≠ page := by
    rw [h.current]
    exact fun heq => hpage (by simp [← heq, hcurrent])
  have hlisted : ∀ x ∈ T.threads ++ T.blocked,
      (s.copyProcess page).next x = s.next x := fun x hx =>
    s.copyProcess_next hne fun heq => hpage (heq ▸ hx)
  refine ⟨fun x => ?_, h.main, h.threads.congr fun x hx => hlisted x (by simp [hx]),
    h.blocked.congr fun x hx => hlisted x (by simp [hx]), h.current, ?_⟩
  · rw [s.copyProcess_proc hne, h.count, h.pid, h.current, h.isWait, h.proc]
    by_cases hx : x = page
    · subst hx
      simp [Table.modify]
    · simp [Table.modify, hx]
  · change s.processcount + 1 = T.count + 1
    rw [h.count]

theorem Represents.sysFork (h : Represents s T) (hnd : (T.threads ++ T.blocked).Nodup)
    {page : PcbRef} (hpage : page ∉ T.threads ++ T.blocked) (hcurrent : T.current ∈ T.threads) :
    Represents (s.sysFork page).2 (T.fork page) ∧ (s.sysFork page).1 = T.count + 1 := by
  let s₁ : Sched := s.copyProcess page
  let s₂ : Sched := (s₁.setNext s₁.currentthread (some page)).setNext page
    (s₁.next s₁.currentthread)
  have h₁ := h.copyProcess hpage hcurrent
  have hne : T.current ≠ page := fun heq => hpage (by simp [← heq, hcurrent])
  have hs₁ : s₁.currentthread = T.current := h.current
  rcases List.eq_append_cons_of_mem hcurrent with ⟨ys, zs, hsplit, hys⟩
  have hother : ∀ y, y ≠ T.current → y ≠ page → s₂.next y = s₁.next y := by
    intro y hy hy'
    rw [← hs₁] at hy
    exact (setNext_next_of_ne _ _ hy').trans (setNext_next_of_ne _ _ hy)
  have hthreads : Seg s₂.next s₂.threadlist (insertAfter T.current page T.threads) none := by
    rw [hsplit, insertAfter_append hys]
    have hseg : Seg s₁.next s₁.threadlist (ys ++ T.current :: zs) none := hsplit ▸ h₁.threads
    refine hseg.insert_after ?_ ?_ ?_ ?_ hother
    · exact hsplit ▸ (List.nodup_append.1 hnd).1
    · exact fun hmem => hpage (List.mem_append_left _ (hsplit ▸ hmem))
    · rw [← hs₁]
      exact (setNext_next_of_ne _ _ (hs₁ ▸ hne)).trans (setNext_next_self s₁ _ _)
    · rw [← hs₁]
      exact setNext_next_self _ page _
  have hblocked : Seg s₂.next s₂.blockedlist T.blocked none := by
    refine h₁.blocked.congr fun y hy => hother y ?_ ?_
    · rintro rfl
      exact (List.nodup_append.1 hnd).2.2 _ hcurrent _ hy rfl
    · rintro rfl
      exact hpage (List.mem_append_right _ hy)
  have h₂ := h₁.relink
    (fun x => (setNext_proc _ page x _).trans (setNext_proc s₁ s₁.currentthread x (some page)))
    rfl rfl rfl hthreads hblocked
  have hlast : SameTable s₂ (s.sysFork page).2 := by
    change SameTable s₂ (if (s₂.pcb s₂.currentthread).childProcess = none then _ else s₂)
    split_ifs
    · exact sameTable_modify s₂ _ (fun _ => rfl) fun _ => rfl
    · exact SameTable.refl s₂
  have h₃ := h₂.sameTable hlast
  refine ⟨h₃, ?_⟩
  change ((s.sysFork page).2.pcb page).pid = T.count + 1
  rw [h₃.pid]
  simp [Table.modify]

/-! ## Unlinking -/

theorem findPrev_append {α : Type} {test : α → Bool} {ys zs : List α} {a : α} (prev : Option α)
    (hys : ∀ y ∈ ys, test y = false) (ha : test a = true) :
    findPrev test prev (ys ++ a :: zs) = some (ys.getLast?.or prev, a) := by
  induction ys generalizing prev with
  | nil => simp [findPrev, ha]
  | cons y ys ih =>
      have hy : test y = false := hys y (by simp)
      rw [List.cons_append, findPrev, hy, if_neg (by decide),
        ih (some y) fun z hz => hys z (by simp [hz])]
      cases hlast : ys.getLast? with
      | none => simp [List.getLast?_eq_none_iff.1 hlast]
      | some last => simp [List.getLast?_cons, hlast]

/-- `findPrev` finds the entry `find?` finds. -/
theorem findPrev_of_find {α : Type} {test : α → Bool} {xs : List α} {a : α}
    (h : xs.find? test = some a) :
    ∃ ys zs, xs = ys ++ a :: zs ∧ findPrev test none xs = some (ys.getLast?, a) := by
  rcases List.find?_eq_some_iff_append.1 h with ⟨ha, ys, zs, rfl, hys⟩
  refine ⟨ys, zs, rfl, ?_⟩
  rw [findPrev_append none (fun y hy => by simpa using hys y hy) ha, Option.or_none]

theorem findPrev_of_find_none {α : Type} {test : α → Bool} {xs : List α} (prev : Option α)
    (h : xs.find? test = none) : findPrev test prev xs = none := by
  induction xs generalizing prev with
  | nil => rfl
  | cons x xs ih =>
      have hno := List.find?_eq_none.1 h
      rw [findPrev, if_neg (hno x (by simp))]
      exact ih (some x) (List.find?_eq_none.2 fun y hy => hno y (by simp [hy]))

theorem erase_behind {ys zs : List PcbRef} {prev : PcbRef} (hnd : (ys ++ prev :: x :: zs).Nodup) :
    (ys ++ prev :: x :: zs).erase x = ys ++ prev :: zs := by
  rw [List.append_cons] at hnd ⊢
  have hx : x ∉ ys ++ [prev] := fun hmem =>
    (List.nodup_append.1 hnd).2.2 x hmem x List.mem_cons_self rfl
  rw [List.erase_append_right _ hx, List.erase_cons_head, ← List.append_cons]

/-- Unlinking an entry of `threads` behind its predecessor. -/
theorem Represents.unlink_threads (h : Represents s T) (hnd : (T.threads ++ T.blocked).Nodup)
    {ys zs : List PcbRef} {prev : PcbRef} (hsplit : T.threads = ys ++ prev :: x :: zs) :
    Represents (s.setNext prev (s.next x)) { T with threads := T.threads.erase x } := by
  have hother : ∀ y, y ≠ prev → (s.setNext prev (s.next x)).next y = s.next y := fun y hy =>
    setNext_next_of_ne s (s.next x) hy
  have hnd' : (ys ++ prev :: x :: zs).Nodup := hsplit ▸ (List.nodup_append.1 hnd).1
  have herase : T.threads.erase x = ys ++ prev :: zs := hsplit ▸ erase_behind hnd'
  refine h.relink (fun y => setNext_proc s prev y _) rfl rfl rfl ?_ ?_
  · rw [herase]
    have hseg : Seg s.next s.threadlist (ys ++ prev :: x :: zs) none := hsplit ▸ h.threads
    exact hseg.remove_after hnd' (setNext_next_self s prev _) fun y hy _ => hother y hy
  · refine h.blocked.congr fun y hy => hother y ?_
    rintro rfl
    exact (List.nodup_append.1 hnd).2.2 y (by simp [hsplit]) y hy rfl

/-- Unlinking an entry of `blocked` that has a predecessor there. -/
theorem Represents.unlink_blocked (h : Represents s T) (hnd : (T.threads ++ T.blocked).Nodup)
    {ys zs : List PcbRef} {prev : PcbRef} (hsplit : T.blocked = ys ++ prev :: x :: zs) :
    Represents (s.setNext prev (s.next x)) { T with blocked := T.blocked.erase x } := by
  have hother : ∀ y, y ≠ prev → (s.setNext prev (s.next x)).next y = s.next y := fun y hy =>
    setNext_next_of_ne s (s.next x) hy
  have hnd' : (ys ++ prev :: x :: zs).Nodup := hsplit ▸ (List.nodup_append.1 hnd).2.1
  have herase : T.blocked.erase x = ys ++ prev :: zs := hsplit ▸ erase_behind hnd'
  refine h.relink (fun y => setNext_proc s prev y _) rfl rfl rfl ?_ ?_
  · refine h.threads.congr fun y hy => hother y ?_
    rintro rfl
    exact (List.nodup_append.1 hnd).2.2 y hy y (by simp [hsplit]) rfl
  · rw [herase]
    have hseg : Seg s.next s.blockedlist (ys ++ prev :: x :: zs) none := hsplit ▸ h.blocked
    exact hseg.remove_after hnd' (setNext_next_self s prev _) fun y hy _ => hother y hy

/-- Unlinking the head of `blocked`. -/
theorem Represents.unlink_head (h : Represents s T) {zs : List PcbRef}
    (hsplit : T.blocked = x :: zs) :
    Represents { s with blockedlist := s.next x } { T with blocked := T.blocked.erase x } := by
  have hseg : Seg s.next s.blockedlist (x :: zs) none := hsplit ▸ h.blocked
  refine h.relink (fun _ => rfl) rfl rfl rfl h.threads ?_
  rw [hsplit, List.erase_cons_head]
  exact hseg.2

/-! ## `sys_kill` of another process -/

theorem Represents.unlinkKilled (h : Represents s T) (hT : Bounded T)
    (hnd : (T.threads ++ T.blocked).Nodup) (hhead : T.threads.head? = some T.main) (pid : Pid) :
    Represents (s.unlinkKilled pid) (T.killOther pid) := by
  have htest : (fun x => decide ((s.pcb x).pid = pid)) = fun x => decide (T.HasPid pid x) := by
    funext x
    exact decide_eq_decide.2 (by rw [h.pid, Table.HasPid])
  rw [Sched.unlinkKilled, Table.killOther, h.walk_threads hT, h.walk_blocked hT, htest]
  cases hthreads : T.threads.find? (T.HasPid pid) with
  | some x =>
      rcases findPrev_of_find hthreads with ⟨ys, zs, hsplit, hfind⟩
      simp only [hfind]
      rcases List.eq_nil_or_concat ys with rfl | ⟨ys, prev, rfl⟩
      · -- the head of the list is the main thread, and stays
        have hmain : x = T.main := by
          rw [hsplit] at hhead
          exact Option.some.inj hhead
        simpa [hmain] using h
      · have hsplit' : T.threads = ys ++ prev :: x :: zs := by rw [hsplit]; simp
        have hmain : x ≠ T.main := Table.ne_main_of_split hnd hhead hsplit'
        simpa [hmain] using h.unlink_threads hnd hsplit'
  | none =>
      simp only [findPrev_of_find_none none hthreads]
      cases hblocked : T.blocked.find? (T.HasPid pid) with
      | some x =>
          rcases findPrev_of_find hblocked with ⟨ys, zs, hsplit, hfind⟩
          simp only [hfind]
          rcases List.eq_nil_or_concat ys with rfl | ⟨ys, prev, rfl⟩
          · exact h.unlink_head hsplit
          · have hsplit' : T.blocked = ys ++ prev :: x :: zs := by rw [hsplit]; simp
            simpa using h.unlink_blocked hnd hsplit'
      | none => simpa only [findPrev_of_find_none none hblocked] using h

/-! ## `sys_waitpid` -/

/-- The marking loop over the entries `xs`. -/
def markLoop (parentId pid : Pid) (xs : List PcbRef) (start : Sched × Bool) : Sched × Bool :=
  xs.foldl
    (fun (s, setwait) x =>
      if (s.pcb x).ppid = parentId ∧ parentId ≠ 0 ∧ (s.pcb x).pid = pid then
        (s.modify x fun p => { p with isWait := true }, true)
      else (s, setwait))
    start

/-- The test of the marking loop. -/
def Marks (s : Sched) (parentId pid : Pid) (x : PcbRef) : Prop :=
  (s.pcb x).ppid = parentId ∧ parentId ≠ 0 ∧ (s.pcb x).pid = pid

instance (s : Sched) (parentId pid : Pid) (x : PcbRef) : Decidable (s.Marks parentId pid x) :=
  inferInstanceAs (Decidable (_ ∧ _))

/-- Marking a PCB does not change what the loop marks. -/
theorem marks_modify (s : Sched) (x y : PcbRef) (parentId pid : Pid) :
    (s.modify x fun p => { p with isWait := true }).Marks parentId pid y ↔
      s.Marks parentId pid y := by
  unfold Marks
  rw [modify_pcb]
  split_ifs with h
  · rw [h]
  · rfl

theorem markLoop_cons_pos {parentId pid : Pid} (hy : s.Marks parentId pid y) (xs : List PcbRef)
    (b : Bool) : markLoop parentId pid (y :: xs) (s, b) =
      markLoop parentId pid xs (s.modify y fun p => { p with isWait := true }, true) := by
  rw [markLoop, List.foldl_cons]
  congr 1
  exact if_pos hy

theorem markLoop_cons_neg {parentId pid : Pid} (hy : ¬ s.Marks parentId pid y)
    (xs : List PcbRef) (b : Bool) :
    markLoop parentId pid (y :: xs) (s, b) = markLoop parentId pid xs (s, b) := by
  rw [markLoop, List.foldl_cons]
  congr 1
  exact if_neg hy

theorem markLoop_pcb (s : Sched) (parentId pid : Pid) (xs : List PcbRef) (b : Bool)
    (x : PcbRef) :
    (markLoop parentId pid xs (s, b)).1.pcb x =
      if x ∈ xs ∧ s.Marks parentId pid x then { s.pcb x with isWait := true } else s.pcb x := by
  induction xs generalizing s b with
  | nil => simp [markLoop]
  | cons y xs ih =>
      by_cases hy : s.Marks parentId pid y
      · rw [markLoop_cons_pos hy, ih]
        by_cases hxy : x = y
        · subst hxy
          simp [marks_modify, modify_pcb, hy]
        · simp [marks_modify, modify_pcb, hxy]
      · rw [markLoop_cons_neg hy, ih]
        by_cases hxy : x = y
        · subst hxy
          simp [hy]
        · simp [hxy]

theorem markLoop_flag (s : Sched) (parentId pid : Pid) (xs : List PcbRef) (b : Bool) :
    (markLoop parentId pid xs (s, b)).2 = (b || decide (∃ x ∈ xs, s.Marks parentId pid x)) := by
  induction xs generalizing s b with
  | nil => simp [markLoop]
  | cons y xs ih =>
      by_cases hy : s.Marks parentId pid y
      · rw [markLoop_cons_pos hy, ih]
        simp [hy]
      · rw [markLoop_cons_neg hy, ih]
        simp [hy]

/-- The loop changes nothing but the PCBs. -/
theorem markLoop_globals (s : Sched) (parentId pid : Pid) (xs : List PcbRef) (b : Bool) :
    (markLoop parentId pid xs (s, b)).1 =
      { s with pcb := (markLoop parentId pid xs (s, b)).1.pcb } := by
  induction xs generalizing s b with
  | nil => rfl
  | cons y xs ih =>
      by_cases hy : s.Marks parentId pid y
      · rw [markLoop_cons_pos hy]
        exact ih _ true
      · rw [markLoop_cons_neg hy]
        exact ih s b

theorem Represents.marks_iff (h : Represents s T) (pid : Pid) (hx : x ∈ T.threads) :
    s.Marks (T.proc T.current).pid pid x ↔ T.WaitTarget pid x := by
  rw [Marks, Table.WaitTarget, h.ppid, h.pid]
  tauto

theorem Represents.markWaited (h : Represents s T) (hT : Bounded T) (pid : Pid) :
    Represents (s.markWaited (T.proc T.current).pid pid).1 (T.marked pid) ∧
      (s.markWaited (T.proc T.current).pid pid).2 =
        decide (∃ x ∈ T.threads, T.WaitTarget pid x) := by
  have hloop : s.markWaited (T.proc T.current).pid pid =
      markLoop (T.proc T.current).pid pid T.threads (s, false) := by
    rw [Sched.markWaited, h.walk_threads hT, markLoop]
  rw [hloop]
  constructor
  · rw [markLoop_globals]
    have hpcb := markLoop_pcb s (T.proc T.current).pid pid T.threads false
    have hnext : (Sched.next { s with
        pcb := (markLoop (T.proc T.current).pid pid T.threads (s, false)).1.pcb }) = s.next := by
      funext y
      change (((markLoop (T.proc T.current).pid pid T.threads (s, false)).1).pcb y).next = _
      rw [hpcb]
      split_ifs <;> rfl
    refine ⟨fun y => ?_, h.main, ?_, ?_, h.current, h.count⟩
    · change (((markLoop (T.proc T.current).pid pid T.threads (s, false)).1).pcb y).proc = _
      rw [hpcb]
      by_cases hy : T.WaitTarget pid y
      · rw [if_pos ⟨hy.1, (h.marks_iff pid hy.1).2 hy⟩]
        simp [Table.marked, hy, PCB.proc, ← h.proc]
      · rw [if_neg fun hmarks => hy ((h.marks_iff pid hmarks.1).1 hmarks.2), h.proc]
        simp [Table.marked, hy]
    · rw [hnext]
      exact h.threads
    · rw [hnext]
      exact h.blocked
  · rw [markLoop_flag, Bool.false_or]
    exact decide_eq_decide.2 (exists_congr fun x => and_congr_right fun hx => h.marks_iff pid hx)

/-- The entry the unlinking loop finds is the caller itself. -/
theorem find_caller {pages : List PcbRef} {spinning : Bool} (hv : T.Valid pages spinning)
    (hpid : (T.proc T.current).pid ≠ 0) :
    T.threads.find? (T.HasPid (T.proc T.current).pid) = some T.current := by
  rcases List.eq_append_cons_of_mem hv.current with ⟨ys, zs, hsplit, hys⟩
  rw [List.find?_eq_some_iff_append]
  refine ⟨by simp [Table.HasPid], ys, zs, hsplit, fun y hy => ?_⟩
  have hy' : y ∈ pages := hv.listed y (by simp [hsplit, hy])
  have hcurrent : T.current ∈ pages := hv.listed _ (List.mem_append_left _ hv.current)
  have hne : ¬ T.HasPid (T.proc T.current).pid y := by
    intro heq
    have hsame := hv.pid_inj T.current hcurrent y hy' heq.symm hpid
    exact hys (hsame ▸ hy)
  simpa using hne

theorem Represents.unlinkThread_current (h : Represents s T) (pid : Pid) :
    (s.unlinkThread pid).currentthread = T.current := by
  rw [← h.current, Sched.unlinkThread]
  split <;> rfl

/-- The caller of `waitpid` goes over to the head of `blocked`. -/
theorem Represents.moveToBlocked {pages : List PcbRef} {spinning : Bool}
    (hv : T.Valid pages spinning)
    (hpid : (T.proc T.current).pid ≠ 0) {T' : Table} (h : Represents s T')
    (hthreads : T'.threads = T.threads) (hblocked : T'.blocked = T.blocked)
    (hcurrent : T'.current = T.current) (hsame : ∀ x, (T'.proc x).pid = (T.proc x).pid) :
    let s₁ := s.unlinkThread (T.proc T.current).pid
    Represents
      { s₁.setNext s₁.currentthread s₁.blockedlist with blockedlist := some s₁.currentthread }
      { T' with threads := T.threads.erase T.current, blocked := T.current :: T.blocked } := by
  intro s₁
  have hs₁current : s₁.currentthread = T.current := by
    rw [h.unlinkThread_current, hcurrent]
  rw [hs₁current]
  have hT' : Bounded T' := by
    rw [Bounded, hthreads, hblocked]
    exact hv.length_le
  have htest : (fun x => decide ((s.pcb x).pid = (T.proc T.current).pid)) =
      fun x => decide (T.HasPid (T.proc T.current).pid x) := by
    funext x
    exact decide_eq_decide.2 (by rw [h.pid, hsame, Table.HasPid])
  rcases findPrev_of_find (find_caller hv hpid) with ⟨front, zs, hsplit, hfind⟩
  rcases List.eq_nil_or_concat front with rfl | ⟨ys, prev, rfl⟩
  · -- the main thread has pid 0 and cannot wait for a child
    have hhead := hv.head
    rw [hsplit] at hhead
    have hmain : T.current = T.main := Option.some.inj hhead
    exact absurd (hmain ▸ hv.main_pid) hpid
  have hsplit' : T'.threads = ys ++ prev :: T.current :: zs := by rw [hthreads, hsplit]; simp
  have hs₁ : s₁ = s.setNext prev (s.next T.current) := by
    simp only [s₁, Sched.unlinkThread]
    rw [h.walk_threads hT', hthreads, htest, hfind]
    simp
  have hnd : (T'.threads ++ T'.blocked).Nodup := by rw [hthreads, hblocked]; exact hv.nodup
  have h₁ : Represents s₁ { T' with threads := T'.threads.erase T.current } := by
    rw [hs₁]
    exact h.unlink_threads hnd hsplit'
  have hother : ∀ y, y ≠ T.current →
      (s₁.setNext T.current s₁.blockedlist).next y = s₁.next y := fun y hy =>
    setNext_next_of_ne s₁ s₁.blockedlist hy
  -- the caller is in neither list when it becomes the head of the blocked ones
  have hleft : T.current ∉ T.threads.erase T.current :=
    (List.nodup_append.1 hv.nodup).1.not_mem_erase
  have hright : T.current ∉ T.blocked := fun hmem => hv.notMem_threads hmem hv.current
  refine h₁.relink (fun x => setNext_proc s₁ T.current x _) rfl rfl rfl ?_ ⟨rfl, ?_⟩
  · have hseg : Seg s₁.next s₁.threadlist (T.threads.erase T.current) none := by
      rw [← hthreads]
      exact h₁.threads
    exact hseg.congr fun y hy => hother y fun heq => hleft (heq ▸ hy)
  · have hseg : Seg s₁.next s₁.blockedlist T.blocked none := by
      rw [← hblocked]
      exact h₁.blocked
    have hlink : (s₁.setNext T.current s₁.blockedlist).next T.current = s₁.blockedlist :=
      setNext_next_self s₁ T.current _
    change Seg (s₁.setNext T.current s₁.blockedlist).next
      ((s₁.setNext T.current s₁.blockedlist).next T.current) T.blocked none
    rw [hlink]
    exact hseg.congr fun y hy => hother y fun heq => hright (heq ▸ hy)

/-- Setting the caller ready first makes no difference: `schedule` overwrites it. -/
theorem enterWait_setState (pid : Pid) :
    ((T.setState T.current .sleeping).enterWait pid).setState T.current .blocked =
      (T.enterWait pid).setState T.current .blocked := by
  have hiff : ∀ x, (T.setState T.current .sleeping).WaitTarget pid x ↔ T.WaitTarget pid x :=
    fun x => T.waitTarget_setState pid x
  have hproc : ∀ x, x ≠ T.current →
      (T.setState T.current .sleeping).proc x = T.proc x := fun x hx => by
    rw [Table.setState_proc, if_neg hx]
  by_cases hwait : ∃ x ∈ T.threads, T.WaitTarget pid x
  · simp only [Table.enterWait, Table.setState_threads, hiff, if_pos hwait]
    ext1
    · funext x
      by_cases hx : x = T.current
      · subst hx
        simp only [Table.setState_proc, Table.marked, hiff, if_true]
        split_ifs <;> rfl
      · simp only [Table.setState_proc, Table.marked, hiff, if_neg hx]
    all_goals rfl
  · simp only [Table.enterWait, Table.setState_threads, hiff, if_neg hwait]
    ext1
    · funext x
      by_cases hx : x = T.current
      · subst hx
        simp only [Table.setState_proc, if_true]
      · simp only [Table.setState_proc, if_neg hx]
    all_goals rfl

theorem Represents.enterWait (h : Represents s T) {pages : List PcbRef} {spinning : Bool}
    (hv : T.Valid pages spinning) (pid : Pid) :
    Represents (s.enterWait pid) ((T.setState T.current .sleeping).enterWait pid) := by
  let T₁ : Table := T.setState T.current .sleeping
  have h₁ : Represents (s.setState s.currentthread .sleeping) T₁ := by
    rw [h.current]
    exact h.setState T.current .sleeping
  have hparent : (s.pcb s.currentthread).pid = (T.proc T.current).pid := by rw [h.current, h.pid]
  have hpid : (T₁.proc T₁.current).pid = (T.proc T.current).pid := by simp [T₁]
  rcases h₁.markWaited hv.length_le pid with ⟨h₂, hflag⟩
  rw [hpid] at h₂ hflag
  simp only [Sched.enterWait]
  rw [hparent, hflag]
  by_cases hwait : ∃ x ∈ T₁.threads, T₁.WaitTarget pid x
  · have hne : (T.proc T.current).pid ≠ 0 := by
      rcases hwait with ⟨x, -, hx⟩
      exact hpid ▸ hx.2.2.1
    have hmoved := h₂.moveToBlocked hv hne rfl rfl rfl fun x => by simp [T₁]
    rw [if_pos (by simpa using hwait), Table.enterWait, if_pos hwait]
    exact hmoved
  · have hsame : T₁.marked pid = T₁ := by
      ext1
      · funext x
        exact if_neg fun hx => hwait ⟨x, hx.1, hx⟩
      all_goals rfl
    rw [if_neg (by simpa using hwait), Table.enterWait, if_neg hwait]
    rwa [hsame] at h₂

theorem Represents.sysWaitpid (h : Represents s T) {pages : List PcbRef}
    {spinning : Bool} (hv : T.Valid pages spinning) (pid : Pid) :
    Represents (s.sysWaitpid pid).2 (T.waitpid pid) := by
  have h₁ := h.enterWait hv pid
  have hcurrent : (s.enterWait pid).currentthread = T.current := by
    rw [h₁.current, Table.enterWait]
    split_ifs <;> rfl
  have h₂ := h₁.setState T.current .blocked
  rw [enterWait_setState] at h₂
  have hlen : Bounded ((T.enterWait pid).setState T.current .blocked) := by
    have hT : Bounded T := hv.length_le
    simp only [Bounded, Table.setState_threads, Table.setState_blocked, Table.enterWait]
    split_ifs
    · have hcount := List.length_erase_of_mem hv.current
      have hpos := List.length_pos_of_mem hv.current
      simp only [Bounded, List.length_append, List.length_cons, hcount] at hT ⊢
      omega
    · exact hT
  have hstep : (s.sysWaitpid pid).2 = ((s.enterWait pid).setState T.current .blocked).schedule := by
    rw [← hcurrent]
    rfl
  rw [hstep]
  refine h₂.schedule hlen (Or.inr ?_)
  have hsame : ((T.enterWait pid).setState T.current .blocked).current = T.current := by
    rw [Table.setState_current, Table.enterWait]
    split_ifs <;> rfl
  rw [hsame, Table.setState_state, if_pos rfl]

/-! ## `thread_on_completion` -/

/-- The first loop stops at the first RUNNING entry; `next` is its link unless it heads the
list. -/
theorem findRunning_eq {ys zs : List PcbRef} {p : Option PcbRef} (link : Option PcbRef) {fuel : Nat}
    (hseg : Seg s.next p (ys ++ x :: zs) none) (hfuel : ys.length < fuel)
    (hys : ∀ y ∈ ys, (s.pcb y).state ≠ .running) (hx : (s.pcb x).state = .running) :
    s.findRunning fuel p link = some (some x, if ys = [] then link else s.next x) := by
  induction ys generalizing p link fuel with
  | nil =>
      rcases hseg with ⟨rfl, -⟩
      cases fuel with
      | zero => simp at hfuel
      | succ fuel => simp [findRunning, hx]
  | cons y ys ih =>
      rcases hseg with ⟨rfl, hseg⟩
      cases fuel with
      | zero => simp at hfuel
      | succ fuel =>
          have hy : (s.pcb y).state ≠ .running := hys y (by simp)
          -- the entry behind `y` is the next one of `ys`, or `x`
          rcases List.exists_cons_of_ne_nil (l := ys ++ x :: zs) (by simp) with ⟨z, tail, htail⟩
          have hnext : s.next y = some z := by
            have hwalk : Seg s.next (s.next y) (ys ++ x :: zs) none := hseg
            rw [htail] at hwalk
            exact hwalk.1
          have hrest := ih (s.next z) hseg (Nat.lt_of_succ_lt_succ hfuel)
            fun w hw => hys w (by simp [hw])
          rw [findRunning, if_neg hy, hnext, Option.bind_eq_bind, Option.bind_some, ← hnext, hrest]
          cases ys with
          | nil =>
              have hzx : x = z := (List.cons.inj htail).1
              simp [hzx]
          | cons w ws => simp

theorem Represents.wakeParent (h : Represents s T) (hT : Bounded T)
    (hnd : (T.threads ++ T.blocked).Nodup) (hx : x ∈ T.threads) :
    Represents (s.wakeParent x (s.next x)) (T.wake x) := by
  have htest : (fun y => decide ((s.pcb y).pid = (s.pcb x).ppid)) =
      fun y => decide ((T.proc y).pid = (T.proc x).ppid) := by
    funext y
    exact decide_eq_decide.2 (by rw [h.pid, h.ppid])
  rw [Sched.wakeParent, Table.wake, h.walk_blocked hT, htest]
  cases hfind : T.blocked.find? fun y => decide ((T.proc y).pid = (T.proc x).ppid) with
  | none =>
      have hdrop : T.blocked.dropWhile (fun y => (T.proc y).pid ≠ (T.proc x).ppid) = [] := by
        rw [List.dropWhile_eq_nil_iff]
        intro y hy
        simpa using List.find?_eq_none.1 hfind y hy
      simp only [hdrop]
      exact h
  | some parent =>
      rcases List.find?_eq_some_iff_append.1 hfind with ⟨hparent, front, rest, hsplit, hfront⟩
      have hdrop : T.blocked.dropWhile (fun y => (T.proc y).pid ≠ (T.proc x).ppid) =
          parent :: rest := by
        have hfront' : ∀ y ∈ front, decide ((T.proc y).pid ≠ (T.proc x).ppid) = true := by
          intro y hy
          simpa using hfront y hy
        rw [hsplit, List.dropWhile_append_of_pos hfront']
        have hkeep : (T.proc parent).pid = (T.proc x).ppid := by simpa using hparent
        simp [hkeep]
      simp only [hdrop]
      have hmem : parent ∈ T.blocked := by simp [hsplit]
      have hparentx : parent ≠ x := by
        rintro rfl
        exact (List.nodup_append.1 hnd).2.2 _ hx _ hmem rfl
      have hblockedseg : Seg s.next s.blockedlist (front ++ parent :: rest) none :=
        hsplit ▸ h.blocked
      rcases seg_append.1 hblockedseg with ⟨r, -, -, hrest⟩
      let s₁ : Sched := { s with blockedlist := s.next parent }
      let s₂ : Sched := (s₁.setNext x (some parent)).setNext parent (s.next x)
      have hother : ∀ y, y ≠ x → y ≠ parent → s₂.next y = s.next y := by
        intro y hy hy'
        exact (setNext_next_of_ne _ _ hy').trans (setNext_next_of_ne s₁ _ hy)
      rcases List.eq_append_cons_of_mem hx with ⟨ys, zs, hthreads, hys⟩
      have hxs : Seg s.next s.threadlist (ys ++ x :: zs) none := hthreads ▸ h.threads
      have hnd' := List.nodup_append.1 hnd
      refine h.relink
        (fun y => (setNext_proc _ parent y _).trans (setNext_proc s₁ x y (some parent)))
        rfl rfl rfl ?_ ?_
      · rw [hthreads, insertAfter_append hys]
        refine hxs.insert_after (hthreads ▸ hnd'.1) ?_ ?_ ?_ hother
        · exact fun hmem' => hnd'.2.2 parent (hthreads ▸ hmem') parent hmem rfl
        · exact (setNext_next_of_ne _ _ (Ne.symm hparentx)).trans (setNext_next_self s₁ x _)
        · exact setNext_next_self _ parent _
      · change Seg s₂.next (s.next parent) rest none
        have hndblocked : (front ++ parent :: rest).Nodup := hsplit ▸ hnd'.2.1
        have hnot := (List.nodup_cons.1 (List.nodup_append.1 hndblocked).2.1).1
        refine hrest.congr fun y hy => hother y ?_ ?_
        · rintro rfl
          exact hnd'.2.2 y hx y (by simp [hsplit, hy]) rfl
        · rintro rfl
          exact hnot hy

theorem Represents.anotherChild (h : Represents s T) (hT : Bounded T) (x : PcbRef) :
    s.anotherChild x = T.sibling x := by
  rw [Sched.anotherChild, Table.sibling, h.walk_threads hT]
  congr 1
  funext y
  exact decide_eq_decide.2 (by rw [h.state, h.ppid, h.ppid])

theorem Represents.threadOnCompletion (h : Represents s T) {pages : List PcbRef}
    (hv : T.Valid pages false) :
    ∃ s', s.threadOnCompletion = some s' ∧ Represents s' T.exit := by
  rcases List.eq_append_cons_of_mem hv.current with ⟨ys, zs, hsplit, hys⟩
  have hseg : Seg s.next s.threadlist (ys ++ T.current :: zs) none := hsplit ▸ h.threads
  have hfound : s.findRunning maxPcbs s.threadlist none =
      some (some T.current, if ys = [] then none else s.next T.current) := by
    refine findRunning_eq none hseg ?_ ?_ ?_
    · have hlen : T.threads.length ≤ maxPcbs := Bounded.threads hv.length_le
      rw [hsplit, List.length_append, List.length_cons] at hlen
      omega
    · intro y hy hstate
      rw [h.state] at hstate
      exact hys (hv.running y (by simp [hsplit, hy]) hstate ▸ hy)
    · rw [h.state]
      simpa using hv.turn
  let T₁ : Table := T.setState T.current .zombie
  have hT₁ : Bounded T₁ := hv.length_le
  let s₁ : Sched := ((s.setState T.current .zombie).addSlices
    (s.setState T.current .zombie).threadlist)
  let s₂ : Sched := s₁.addSlices s₁.blockedlist
  have h₂ : Represents s₂ T₁ :=
    ((h.setState T.current .zombie).sameTable (sameTable_addSlices _ _)).sameTable
      (sameTable_addSlices _ _)
  have hnext : s₂.next = s.next :=
    (sameTable_addSlices s₁ _).next.trans
    ((sameTable_addSlices _ _).next.trans (setState_next s _ _))
  have hcond : (0 < (s₂.pcb T.current).ppid ∧ (s₂.pcb T.current).isWait = true) ↔
      (0 < (T.proc T.current).ppid ∧ (T.proc T.current).isWait = true) := by
    rw [h₂.ppid, h₂.isWait]
    simp [T₁]
  rw [Sched.threadOnCompletion, hfound, Table.exit]
  rw [Option.bind_eq_bind, Option.bind_some]
  dsimp only
  change ∃ s', (if 0 < (s₂.pcb T.current).ppid ∧ (s₂.pcb T.current).isWait = true then _
    else some s₂) = some s' ∧ _
  by_cases hwait : 0 < (T.proc T.current).ppid ∧ (T.proc T.current).isWait = true
  · rw [if_pos (hcond.2 hwait), if_pos hwait, h₂.anotherChild hT₁, Table.notify]
    cases hsibling : T₁.sibling T.current with
    | none =>
        refine ⟨_, rfl, ?_⟩
        -- a process with a parent does not head the list
        have hne : ys ≠ [] := by
          rintro rfl
          have hhead := hv.head
          rw [hsplit] at hhead
          have hmain : T.current = T.main := Option.some.inj hhead
          have hzero := hwait.1
          rw [hmain, hv.main_ppid] at hzero
          exact absurd hzero (by decide)
        rw [if_neg hne, ← hnext]
        exact h₂.wakeParent hT₁ hv.nodup hv.current
    | some child =>
        have hchild : child ∈ T₁.threads := List.mem_of_find?_eq_some hsibling
        change ∃ s', (if (s₂.pcb child).isWait = true then some s₂
          else some (s₂.wakeParent child (s₂.next child))) = some s' ∧ _
        simp only [h₂.isWait]
        split_ifs
        · exact ⟨_, rfl, h₂⟩
        · exact ⟨_, rfl, h₂.wakeParent hT₁ hv.nodup hchild⟩
  · rw [if_neg fun hc => hwait (hcond.1 hc), if_neg hwait]
    exact ⟨_, rfl, h₂⟩

theorem Represents.sysKill (h : Represents s T) {pages : List PcbRef} (hv : T.Valid pages false)
    (pid : Pid) (sig : Int) (answer : Char) :
    ∃ r s', s.sysKill pid sig answer = some (r, s') ∧ Represents s' (T.kill pid sig answer) := by
  have hparent : (s.pcb s.currentthread).pid = (T.proc T.current).pid := by rw [h.current, h.pid]
  rw [Sched.sysKill, Table.kill, hparent]
  split_ifs
  · exact ⟨_, _, rfl, h⟩
  · rcases h.threadOnCompletion hv with ⟨s', hs', h'⟩
    exact ⟨0, s', by simp [hs'], h'⟩
  · exact ⟨_, _, rfl, h.unlinkKilled hv.length_le hv.nodup hv.head pid⟩
  · exact ⟨_, _, rfl, h⟩

end Sched

end OswpKernel
