import OswpKernel.Scheduler.Refinement

/-!
# Scheduler: killing another process

`sys_kill` looks for its target in `threadlist` and, if it is not there, in `blockedlist`.  On any
two disjoint lists it removes the process with the given id from the list that holds it and does
nothing else.  The head of `threadlist`, which the first loop cannot unlink, is the main thread,
whose id is 0; the head of `blockedlist` is unlinked by moving the list's head.
-/

namespace OswpKernel

open Chain

namespace Sched

variable {s : Sched} {ts bs : List PcbRef} {pid : Pid}

/-- `threadlist` and `blockedlist` consist of the entries `ts` and `bs`: disjoint lists, the first
headed by the main thread with pid 0, in which no two PCBs have the same non-zero pid. -/
structure Lists (s : Sched) (ts bs : List PcbRef) : Prop where
  threads : Seg s.next s.threadlist ts none
  blocked : Seg s.next s.blockedlist bs none
  disjoint : ∀ x ∈ ts, x ∉ bs
  low : ∀ x ∈ ts ++ bs, x < maxPcbs
  head : ts.head? = some s.mainthread
  main_pid : (s.pcb s.mainthread).pid = 0
  pid_inj : ∀ x ∈ ts ++ bs, ∀ y ∈ ts ++ bs, (s.pcb x).pid = (s.pcb y).pid →
    (s.pcb x).pid ≠ 0 → x = y

/-- The table of the two lists. -/
def tableOf (s : Sched) (ts bs : List PcbRef) : Table where
  proc := fun x => (s.pcb x).proc
  main := s.mainthread
  threads := ts
  blocked := bs
  current := s.currentthread
  count := s.processcount

namespace Lists

variable (h : s.Lists ts bs)

include h

theorem nodup : (ts ++ bs).Nodup := by
  refine List.nodup_append.2 ⟨h.threads.nodup, h.blocked.nodup, ?_⟩
  rintro x hx y hy rfl
  exact h.disjoint x hx hy

theorem bounded : Bounded (s.tableOf ts bs) := length_le_maxPcbs h.nodup h.low

theorem represents : Represents s (s.tableOf ts bs) :=
  ⟨fun _ => rfl, rfl, h.threads, h.blocked, rfl, rfl⟩

/-- Taking the entry with this pid out of a list is keeping those with another pid. -/
theorem erase_eq_filter (hpid : pid ≠ 0) {xs : List PcbRef} (hsub : xs ⊆ ts ++ bs)
    (hnd : xs.Nodup) {x : PcbRef} (hx : x ∈ xs) (hxpid : (s.pcb x).pid = pid) :
    xs.erase x = xs.filter fun y => (s.pcb y).pid ≠ pid := by
  rw [hnd.erase_eq_filter]
  refine List.filter_congr fun y hy => ?_
  by_cases hyx : y = x
  · simp [hyx, hxpid]
  · have hother : (s.pcb y).pid ≠ pid := by
      intro hypid
      have hsame : (s.pcb y).pid = (s.pcb x).pid := hypid.trans hxpid.symm
      exact hyx (h.pid_inj y (hsub hy) x (hsub hx) hsame (hypid ▸ hpid))
    simp [hyx, hother]

/-- On the table, killing keeps the entries with another pid. -/
theorem killOther_eq (hpid : pid ≠ 0) :
    (s.tableOf ts bs).killOther pid =
      s.tableOf (ts.filter fun y => (s.pcb y).pid ≠ pid)
        (bs.filter fun y => (s.pcb y).pid ≠ pid) := by
  have hnd := List.nodup_append.1 h.nodup
  -- a list in which nobody has the pid is its own filter
  have hkeep : ∀ xs : List PcbRef, (∀ y ∈ xs, (s.pcb y).pid ≠ pid) →
      xs.filter (fun y => (s.pcb y).pid ≠ pid) = xs := by
    intro xs hxs
    exact List.filter_eq_self.2 fun y hy => decide_eq_true (hxs y hy)
  rw [Table.killOther]
  cases hthreads : (s.tableOf ts bs).threads.find? ((s.tableOf ts bs).HasPid pid) with
  | some x =>
      have hx : x ∈ ts := List.mem_of_find?_eq_some hthreads
      have hfound := List.find?_some hthreads
      have hxpid : (s.pcb x).pid = pid := of_decide_eq_true hfound
      -- the main thread has pid 0, so it is not the one that is found
      have hmain : x ≠ s.mainthread := by
        rintro rfl
        rw [h.main_pid] at hxpid
        exact hpid hxpid.symm
      -- no other entry has that pid, so there is nothing to take out of the second list
      have hblocked : ∀ y ∈ bs, (s.pcb y).pid ≠ pid := by
        intro y hy hypid
        have hyx : y = x := h.pid_inj y (List.mem_append_right _ hy) x
          (List.mem_append_left _ hx) (hypid.trans hxpid.symm) (hypid ▸ hpid)
        exact h.disjoint x hx (hyx ▸ hy)
      have hts := h.erase_eq_filter hpid (List.subset_append_left ts bs) hnd.1 hx hxpid
      change (if x = s.mainthread then _ else _) = _
      rw [if_neg hmain]
      change s.tableOf (ts.erase x) bs = _
      rw [hts, hkeep bs hblocked]
  | none =>
      -- `sys_kill` looks at the blocked ones only when the first list has nobody with the pid
      have hthreads' : ∀ y ∈ ts, (s.pcb y).pid ≠ pid := by
        intro y hy hypid
        exact List.find?_eq_none.1 hthreads y hy (decide_eq_true hypid)
      rw [hkeep ts hthreads']
      cases hblocked : (s.tableOf ts bs).blocked.find? ((s.tableOf ts bs).HasPid pid) with
      | some x =>
          have hx : x ∈ bs := List.mem_of_find?_eq_some hblocked
          have hfound := List.find?_some hblocked
          have hxpid : (s.pcb x).pid = pid := of_decide_eq_true hfound
          have hbs := h.erase_eq_filter hpid (List.subset_append_right ts bs) hnd.2.1 hx hxpid
          change s.tableOf ts (bs.erase x) = _
          rw [hbs]
      | none =>
          have hblocked' : ∀ y ∈ bs, (s.pcb y).pid ≠ pid := by
            intro y hy hypid
            exact List.find?_eq_none.1 hblocked y hy (decide_eq_true hypid)
          rw [hkeep bs hblocked']

end Lists

/-- Unlinking writes links only, and neither `mainthread` nor `currentthread`. -/
theorem unlinkKilled_frame (s : Sched) (pid : Pid) :
    (∀ x, (s.unlinkKilled pid).pcb x =
        { s.pcb x with next := (s.unlinkKilled pid).next x }) ∧
      (s.unlinkKilled pid).mainthread = s.mainthread ∧
      (s.unlinkKilled pid).currentthread = s.currentthread := by
  -- the only write of the function is to one `next`
  have hset : ∀ (prev : PcbRef) (link : Option PcbRef) (x : PcbRef),
      (s.setNext prev link).pcb x =
        { s.pcb x with next := (s.setNext prev link).next x } := by
    intro prev link x
    rw [next, setNext, modify_pcb]
    split_ifs with hx
    · rw [hx]
    · rfl
  rw [unlinkKilled]
  split
  · exact ⟨hset _ _, rfl, rfl⟩
  · exact ⟨fun _ => rfl, rfl, rfl⟩
  · split
    · exact ⟨hset _ _, rfl, rfl⟩
    · exact ⟨fun _ => rfl, rfl, rfl⟩
    · exact ⟨fun _ => rfl, rfl, rfl⟩

/-- A pid nobody has changes nothing. -/
theorem Lists.unlinkKilled_absent (h : s.Lists ts bs)
    (habsent : ∀ x ∈ ts ++ bs, (s.pcb x).pid ≠ pid) : s.unlinkKilled pid = s := by
  have hnone : ∀ xs : List PcbRef, xs ⊆ ts ++ bs →
      findPrev (fun x => decide ((s.pcb x).pid = pid)) none xs = none := by
    intro xs hxs
    apply findPrev_of_find_none
    rw [List.find?_eq_none]
    intro x hx
    simpa using habsent x (hxs hx)
  have hts : s.walk s.threadlist = ts := h.represents.walk_threads h.bounded
  have hbs : s.walk s.blockedlist = bs := h.represents.walk_blocked h.bounded
  rw [unlinkKilled, hts, hbs, hnone ts (List.subset_append_left ts bs),
    hnone bs (List.subset_append_right ts bs)]

/-- `sys_kill(pid, 9)` of another process, for pid 2 once it was confirmed, takes exactly the
entry with that pid out of the two lists; without one it changes nothing. -/
theorem sysKill_removes {answer : Char} (h : s.Lists ts bs) (hpid : pid ≠ 0)
    (hother : pid ≠ (s.pcb s.currentthread).pid)
    (hconfirm : pid = 2 → answer = 'Y' ∨ answer = 'y') :
    ∃ s', s.sysKill pid 9 answer = some (0, s') ∧
      Seg s'.next s'.threadlist (ts.filter fun x => (s.pcb x).pid ≠ pid) none ∧
      Seg s'.next s'.blockedlist (bs.filter fun x => (s.pcb x).pid ≠ pid) none ∧
      (∀ x, s'.pcb x = { s.pcb x with next := s'.next x }) ∧
      s'.mainthread = s.mainthread ∧ s'.currentthread = s.currentthread ∧
      ((∀ x ∈ ts ++ bs, (s.pcb x).pid ≠ pid) → s' = s) := by
  have hstep : s.sysKill pid 9 answer = some (0, s.unlinkKilled pid) := by
    rw [sysKill, if_pos rfl, if_neg fun hc => hc.2 (hconfirm hc.1), if_neg hother]
  have hrep := h.represents.unlinkKilled h.bounded h.nodup h.head pid
  rw [h.killOther_eq hpid] at hrep
  obtain ⟨hpcb, hmain, hcurrent⟩ := s.unlinkKilled_frame pid
  exact ⟨_, hstep, hrep.threads, hrep.blocked, hpcb, hmain, hcurrent, h.unlinkKilled_absent⟩

/-- A main thread, the caller with pid 1, and a blocked process with pid 2 in front of one with
pid 3. -/
def sampleLists : Sched where
  pcb := fun x =>
    { PCB.zero with
      pid := BitVec.ofNat 32 x
      state := if x = 1 then .running else .sleeping
      next := if x = 0 ∨ x = 2 then some (x + 1) else none }
  mainthread := 0
  threadlist := some 0
  currentthread := 1
  blockedlist := some 2
  processcount := 3

theorem sampleLists_kill :
    ∃ s', sampleLists.sysKill 2 9 'y' = some (0, s') ∧ Seg s'.next s'.threadlist [0, 1] none ∧
      Seg s'.next s'.blockedlist [3] none := by
  have hlists : sampleLists.Lists [0, 1] [2, 3] := by
    refine ⟨⟨rfl, rfl, rfl⟩, ⟨rfl, rfl, rfl⟩, ?_, ?_, ?_, ?_, ?_⟩ <;> decide
  obtain ⟨s', hstep, hthreads, hblocked, -⟩ :=
    @sysKill_removes sampleLists [0, 1] [2, 3] 2 'y' hlists (by decide) (by decide)
      fun _ => Or.inr rfl
  exact ⟨s', hstep, hthreads, hblocked⟩

end Sched

end OswpKernel
