import OswpKernel.Scheduler.Refinement
import Mathlib.Data.List.Rotate

/-!
# Scheduler fairness — the ready threads take turns in the order of `threadlist`

As long as nothing but `schedule` changes the scheduler's state, the threads that can run are the
current one and the SLEEPING entries of `threadlist`; the others are ZOMBIE.  `giveTurn` is the
state in which one of them has the processor and the others wait for it.  One call of `schedule`
hands the turn to the next of them in cyclic order, so that as many calls as there are such
threads lead back to the state the round began in.
-/

namespace OswpKernel

open Chain

namespace Sched

variable {s : Sched} {xs : List PcbRef}

/-- The threads that take turns: the current one and those that are ready, in list order. -/
def turns (s : Sched) (xs : List PcbRef) : List PcbRef :=
  xs.filter fun x => x = s.currentthread ∨ (s.pcb x).state = .sleeping

/-- How many entries are ready. -/
def readyCount (s : Sched) (xs : List PcbRef) : ℕ :=
  xs.countP fun x => (s.pcb x).state = .sleeping

/-- `threadlist` consists of the entries `xs`; one of them runs, and each of the others is ready
or has exited.  The main thread is not ready either: it idles as a ZOMBIE. -/
structure InRound (s : Sched) (xs : List PcbRef) : Prop where
  threads : Seg s.next s.threadlist xs none
  low : ∀ x ∈ xs, x < maxPcbs
  current : s.currentthread ∈ xs
  running : (s.pcb s.currentthread).state = .running
  main_ne : s.currentthread ≠ s.mainthread
  main : (s.pcb s.mainthread).state = .zombie
  others : ∀ x ∈ xs, x ≠ s.currentthread →
    (s.pcb x).state = .sleeping ∨ (s.pcb x).state = .zombie

/-- The state in which `x` has the turn and the other threads of `takers` wait for it. -/
def giveTurn (s : Sched) (takers : List PcbRef) (x : PcbRef) : Sched :=
  { s with
    pcb := fun y =>
      { s.pcb y with
        state := if y = x then .running else if y ∈ takers then .sleeping else (s.pcb y).state }
    currentthread := x }

@[simp] theorem giveTurn_next (takers : List PcbRef) (x : PcbRef) :
    (s.giveTurn takers x).next = s.next := rfl

theorem giveTurn_state (takers : List PcbRef) (x y : PcbRef) :
    ((s.giveTurn takers x).pcb y).state =
      if y = x then .running else if y ∈ takers then .sleeping else (s.pcb y).state := rfl

/-! ## One call -/

/-- What `schedule` does for a process that is neither the main thread, nor ZOMBIE, nor BLOCKED:
it goes back to the ready ones, and the first ready entry found takes over. -/
theorem schedule_running (hmain : s.currentthread ≠ s.mainthread)
    (hstate : (s.pcb s.currentthread).state = .running) :
    s.schedule =
      { (s.setState s.currentthread .sleeping).setState
          (((s.firstReady (s.next s.currentthread)).or (s.firstReady s.threadlist)).getD
            s.mainthread) .running with
        currentthread := ((s.firstReady (s.next s.currentthread)).or
          (s.firstReady s.threadlist)).getD s.mainthread } := by
  have hsearch :
      (if (s.pcb s.currentthread).next ≠ none ∧ (s.pcb s.currentthread).state ≠ .blocked then
          (s.firstReady (s.pcb s.currentthread).next).or (s.firstReady s.threadlist)
        else s.firstReady s.threadlist) =
      (s.firstReady (s.next s.currentthread)).or (s.firstReady s.threadlist) := by
    by_cases hnext : (s.pcb s.currentthread).next = none
    · -- behind the last entry there is nothing to find
      have hend : s.next s.currentthread = none := hnext
      rw [if_neg fun hc => hc.1 hnext, hend]
      rfl
    · rw [if_pos ⟨hnext, by rw [hstate]; decide⟩]
      rfl
  -- the current process goes back to the ready ones, since it is neither exited nor blocked
  have hrest : (if s.currentthread = s.mainthread then s.setState s.currentthread .zombie
        else if (s.pcb s.currentthread).state ≠ .zombie then s.setState s.currentthread .sleeping
        else s) = s.setState s.currentthread .sleeping := by
    rw [if_neg hmain, if_pos (by rw [hstate]; decide)]
  simp only [schedule]
  rw [hsearch, hrest]
  rfl

namespace InRound

variable (h : s.InRound xs)

include h

theorem nodup : xs.Nodup := h.threads.nodup

theorem length_le : xs.length ≤ maxPcbs := length_le_maxPcbs h.nodup h.low

theorem turns_nodup : (s.turns xs).Nodup := h.nodup.filter _

theorem current_mem_turns : s.currentthread ∈ s.turns xs :=
  List.mem_filter.2 ⟨h.current, by simp⟩

theorem mem_turns {x : PcbRef} :
    x ∈ s.turns xs ↔ x = s.currentthread ∨ x ∈ xs ∧ (s.pcb x).state = .sleeping := by
  rw [turns, List.mem_filter, decide_eq_true_iff]
  constructor
  · rintro ⟨hx, rfl | hready⟩
    · exact Or.inl rfl
    · exact Or.inr ⟨hx, hready⟩
  · rintro (rfl | ⟨hx, hready⟩)
    · exact ⟨h.current, Or.inl rfl⟩
    · exact ⟨hx, Or.inr hready⟩

theorem main_notMem_turns : s.mainthread ∉ s.turns xs := by
  rw [h.mem_turns]
  rintro (heq | ⟨-, hready⟩)
  · exact h.main_ne heq.symm
  · rw [h.main] at hready
    exact absurd hready (by decide)

/-- The current thread is not among the ready ones, so it is one more that takes turns. -/
theorem length_turns : (s.turns xs).length = s.readyCount xs + 1 := by
  obtain ⟨front, back, hsplit, hfront⟩ := List.eq_append_cons_of_mem h.current
  have hnd := h.nodup
  rw [hsplit] at hnd
  -- the list has no entry twice, so the current thread is neither in front of itself nor behind
  have hback : s.currentthread ∉ back :=
    (List.nodup_cons.1 (List.nodup_append.1 hnd).2.1).1
  have hother : ∀ ys : List PcbRef, s.currentthread ∉ ys →
      ys.filter (fun x => decide (x = s.currentthread ∨ (s.pcb x).state = .sleeping)) =
        ys.filter fun x => decide ((s.pcb x).state = .sleeping) := by
    intro ys hys
    refine List.filter_congr fun x hx => ?_
    have hne : x ≠ s.currentthread := fun heq => hys (heq ▸ hx)
    simp [hne]
  -- it is RUNNING, so it is not counted as ready
  have hcount : (s.currentthread :: back).countP (fun x => (s.pcb x).state = .sleeping) =
      back.countP fun x => (s.pcb x).state = .sleeping := by
    apply List.countP_cons_of_neg
    simp [h.running]
  calc
    (s.turns xs).length
        = (front.filter (fun x => decide ((s.pcb x).state = .sleeping)) ++ s.currentthread ::
            back.filter fun x => decide ((s.pcb x).state = .sleeping)).length := by
          rw [turns, hsplit, List.filter_append, List.filter_cons_of_pos (by simp),
            hother front hfront, hother back hback]
    _ = front.countP (fun x => (s.pcb x).state = .sleeping) +
          back.countP (fun x => (s.pcb x).state = .sleeping) + 1 := by
          rw [List.length_append, List.length_cons, List.countP_eq_length_filter,
            List.countP_eq_length_filter, Nat.add_assoc]
    _ = s.readyCount xs + 1 := by
          rw [readyCount, hsplit, List.countP_append, hcount]

/-- The round starts with the turn at the current thread. -/
theorem giveTurn_current : s.giveTurn (s.turns xs) s.currentthread = s := by
  have hpcb : ∀ y, { s.pcb y with
      state := if y = s.currentthread then .running
        else if y ∈ s.turns xs then .sleeping else (s.pcb y).state } = s.pcb y := by
    intro y
    have hstate : (if y = s.currentthread then ProcState.running
        else if y ∈ s.turns xs then .sleeping else (s.pcb y).state) = (s.pcb y).state := by
      split_ifs with hy hturn
      · rw [hy, h.running]
      · rcases h.mem_turns.1 hturn with heq | ⟨-, hready⟩
        · exact absurd heq hy
        · rw [hready]
      · rfl
    rw [hstate]
  rw [giveTurn, funext hpcb]

/-- Among the entries of `threadlist`, those that wait for the turn are the SLEEPING ones. -/
theorem giveTurn_ready {x y : PcbRef} (hy : y ∈ xs) :
    ((s.giveTurn (s.turns xs) x).pcb y).state = .sleeping ↔ y ∈ s.turns xs ∧ y ≠ x := by
  rw [giveTurn_state]
  split_ifs with hyx hturn
  · simp [hyx]
  · simp [hyx, hturn]
  · simp only [hturn, false_and, iff_false]
    exact fun hready => hturn (h.mem_turns.2 (Or.inr ⟨hy, hready⟩))

/-- The search of `schedule` finds the thread that is next in cyclic order. -/
theorem giveTurn_search {j : ℕ} {x : PcbRef} (hready : 1 ≤ s.readyCount xs)
    (hj : (s.turns xs)[j]? = some x) :
    ((s.giveTurn (s.turns xs) x).firstReady (s.next x)).or
        ((s.giveTurn (s.turns xs) x).firstReady s.threadlist) =
      (s.turns xs)[(j + 1) % (s.turns xs).length]? := by
  let t : Sched := s.giveTurn (s.turns xs) x
  have hxturn : x ∈ s.turns xs := List.mem_of_getElem? hj
  have hx : x ∈ xs := List.mem_of_mem_filter hxturn
  -- handing the turn around changes states only, so the walks are those of the list
  have hbehind : Seg t.next (s.next x) (behind x xs) none := h.threads.behind hx
  have hwalk : t.walk s.threadlist = xs := h.threads.follow_eq h.length_le
  have hwalk' : t.walk (s.next x) = behind x xs :=
    hbehind.follow_eq (behind_sublist.length_le.trans h.length_le)
  change ((t.walk (s.next x)).find? _).or ((t.walk s.threadlist).find? _) = _
  rw [hwalk, hwalk']
  refine find_cyclic h.nodup ?_ ?_ ?_ hj
  -- the thread that has the turn is RUNNING, so the search does not stop at it
  · rw [decide_eq_false_iff_not, giveTurn_state, if_pos rfl]
    decide
  -- the ready ones and the one that has the turn are those that take turns
  · refine List.filter_congr fun y hy => decide_eq_decide.2 ?_
    rw [decide_eq_true_iff, h.giveTurn_ready hy]
    constructor
    · rintro (rfl | ⟨hturn, -⟩)
      · exact of_decide_eq_true (List.mem_filter.1 hxturn).2
      · exact of_decide_eq_true (List.mem_filter.1 hturn).2
    · intro hy'
      by_cases hyx : y = x
      · exact Or.inl hyx
      · exact Or.inr ⟨List.mem_filter.2 ⟨hy, decide_eq_true hy'⟩, hyx⟩
  · rw [h.length_turns]
    omega

/-- One call of `schedule` hands the turn on to the next thread in cyclic order. -/
theorem schedule_giveTurn {j : ℕ} {x y : PcbRef} (hready : 1 ≤ s.readyCount xs)
    (hj : (s.turns xs)[j]? = some x)
    (hy : (s.turns xs)[(j + 1) % (s.turns xs).length]? = some y) :
    (s.giveTurn (s.turns xs) x).schedule = s.giveTurn (s.turns xs) y := by
  have hxturn : x ∈ s.turns xs := List.mem_of_getElem? hj
  have hmain : x ≠ s.mainthread := fun heq => h.main_notMem_turns (heq ▸ hxturn)
  have hsearch := h.giveTurn_search hready hj
  rw [hy] at hsearch
  rw [schedule_running (s := s.giveTurn (s.turns xs) x) hmain (by simp [giveTurn])]
  change { ((s.giveTurn (s.turns xs) x).setState x .sleeping).setState
      ((((s.giveTurn (s.turns xs) x).firstReady (s.next x)).or
        ((s.giveTurn (s.turns xs) x).firstReady s.threadlist)).getD s.mainthread) .running with
      currentthread := (((s.giveTurn (s.turns xs) x).firstReady (s.next x)).or
        ((s.giveTurn (s.turns xs) x).firstReady s.threadlist)).getD s.mainthread } = _
  rw [hsearch, Option.getD_some]
  -- both sides have the same globals; the PCBs are compared one by one
  have hpcb : (((s.giveTurn (s.turns xs) x).setState x .sleeping).setState y .running).pcb =
      (s.giveTurn (s.turns xs) y).pcb := by
    funext z
    rw [setState, setState, modify_pcb, modify_pcb, modify_pcb]
    by_cases hzy : z = y
    · subst hzy
      by_cases hzx : z = x
      · simp [giveTurn, hzx]
      · simp [giveTurn, hzx]
    · by_cases hzx : z = x
      · subst hzx
        simp [giveTurn, hzy, hxturn]
      · simp [giveTurn, hzy, hzx]
  rw [giveTurn] at hpcb ⊢
  exact congrArg (fun p => { s with pcb := p, currentthread := y }) hpcb

/-! ## A round -/

/-- After `i` calls the turn is `i` places further on. -/
theorem iterate_schedule {j : ℕ} {x : PcbRef} (hready : 1 ≤ s.readyCount xs)
    (hj : (s.turns xs)[j]? = some x) (i : ℕ) {y : PcbRef}
    (hy : (s.turns xs)[(j + i) % (s.turns xs).length]? = some y) :
    schedule^[i] (s.giveTurn (s.turns xs) x) = s.giveTurn (s.turns xs) y := by
  have hlen : 0 < (s.turns xs).length := by
    rw [h.length_turns]
    exact Nat.succ_pos _
  induction i generalizing y with
  | zero =>
      have hjlt : j < (s.turns xs).length := (List.getElem?_eq_some_iff.1 hj).1
      rw [Nat.add_zero, Nat.mod_eq_of_lt hjlt, hj] at hy
      rw [Option.some.inj hy]
      rfl
  | succ i ih =>
      -- by induction the turn is at place `j + i`; one call more takes it to the next
      have hlt : (j + i) % (s.turns xs).length < (s.turns xs).length := Nat.mod_lt _ hlen
      have hz := List.getElem?_eq_getElem hlt
      rw [Function.iterate_succ_apply', ih hz]
      refine h.schedule_giveTurn hready hz ?_
      rw [Nat.mod_add_mod, Nat.add_assoc]
      exact hy

end InRound

/-- Round robin: with `k` ready threads, `k + 1` calls of `schedule` run those threads and the
current one, each once, in the cyclic order of the list from behind the current thread on, and
the last of them leads back to the starting state. -/
theorem schedule_round_robin (h : s.InRound xs) (hready : 1 ≤ s.readyCount xs) :
    (List.range (s.readyCount xs + 1)).map (fun i => (schedule^[i + 1] s).currentthread) =
        (s.turns xs).rotate ((s.turns xs).idxOf s.currentthread + 1) ∧
      (s.turns xs).Nodup ∧
      (∀ x, x ∈ s.turns xs ↔ x = s.currentthread ∨ x ∈ xs ∧ (s.pcb x).state = .sleeping) ∧
      schedule^[s.readyCount xs + 1] s = s := by
  have hlen := h.length_turns
  let j : ℕ := (s.turns xs).idxOf s.currentthread
  have hjlt : j < (s.turns xs).length := List.idxOf_lt_length_of_mem h.current_mem_turns
  have hj : (s.turns xs)[j]? = some s.currentthread := by
    rw [List.getElem?_eq_getElem hjlt, List.getElem_idxOf hjlt]
  -- the run starts in the state in which the current thread has the turn
  have hafter : ∀ i y, (s.turns xs)[(j + i) % (s.turns xs).length]? = some y →
      schedule^[i] s = s.giveTurn (s.turns xs) y := by
    intro i y hy
    have hrun := h.iterate_schedule hready hj i hy
    rwa [h.giveTurn_current] at hrun
  refine ⟨?_, h.turns_nodup, fun x => h.mem_turns, ?_⟩
  · apply List.ext_getElem
    · rw [List.length_map, List.length_range, List.length_rotate, hlen]
    · intro i hi hi'
      have hlt : (j + (i + 1)) % (s.turns xs).length < (s.turns xs).length :=
        Nat.mod_lt _ (by omega)
      rw [List.getElem_map, List.getElem_range, hafter (i + 1) _ (List.getElem?_eq_getElem hlt),
        List.getElem_rotate]
      change (s.turns xs)[(j + (i + 1)) % (s.turns xs).length] = _
      congr 2
      omega
  -- after as many calls as there are turns the place is the first one again
  · have hround : (s.turns xs)[(j + (s.readyCount xs + 1)) % (s.turns xs).length]? =
        some s.currentthread := by
      rw [← hlen, Nat.add_mod_right, Nat.mod_eq_of_lt hjlt, hj]
    rw [hafter _ _ hround, h.giveTurn_current]

/-- Four threads, the third of them running, between two ready ones; the first is the main
thread. -/
def sampleRound : Sched where
  pcb := fun x =>
    { PCB.zero with
      state := if x = 2 then .running else if x = 1 ∨ x = 3 then .sleeping else .zombie
      next := if x < 3 then some (x + 1) else none }
  mainthread := 0
  threadlist := some 0
  currentthread := 2
  blockedlist := none
  processcount := 0

theorem sampleRound_turns :
    (List.range 3).map (fun i => (schedule^[i + 1] sampleRound).currentthread) = [3, 1, 2] ∧
      schedule^[3] sampleRound = sampleRound := by
  have hround : sampleRound.InRound [0, 1, 2, 3] := by
    refine ⟨?_, by decide, by decide, by decide, by decide, by decide, by decide⟩
    exact ⟨rfl, rfl, rfl, rfl, rfl⟩
  obtain ⟨horder, -, -, hback⟩ := schedule_round_robin hround (by decide)
  exact ⟨horder, hback⟩

end Sched

end OswpKernel
