import OswpKernel.Timer.Clock

/-!
# Sleep — `sys_sleep` (`syscall.c`)

The loop reads the tick counter again and again and counts a second when a value is exactly 18 above
the one it last counted.  Between two polls any number of ticks may pass, since the process can be
switched out.  `sysSleep_onTime_iff` says for which values the loop is left on time: the ticks
18, 36, ... after the start have all to be among them.
-/

namespace OswpKernel

namespace Timer

open Loop (times)

/-- `gettcount`. -/
def gettcount (c : Clock) : Int := c.tcount

/-- The locals of `sys_sleep`. -/
structure Sleeper where
  time : Int
  scount : BitVec 32

/-- One poll that reads `t`. -/
def Sleeper.poll (s : Sleeper) (t : Int) : Sleeper :=
  if t - s.time = 18 then ⟨t, s.scount + 1⟩ else s

/-- The loop, over the values it reads; the number of the poll it is left after, or `none` while it
goes on.  In the comparison `scount` becomes an `unsigned int`. -/
def sleepLoop (seconds : BitVec 32) : Sleeper → List Int → Option Nat
  | _, [] => none
  | s, t :: ts =>
      if seconds ≤ (s.poll t).scount then some 0
      else (sleepLoop seconds (s.poll t) ts).map (· + 1)

/-- `sys_sleep` from the tick `start` on. -/
def sysSleep (seconds : BitVec 32) (start : Int) (ts : List Int) : Option Nat :=
  sleepLoop seconds ⟨start, 0⟩ ts

/-- The loop is left after the first poll that comes when the seconds are over, and not before. -/
def OnTime (seconds : BitVec 32) (start : Int) (ts : List Int) : Prop :=
  sysSleep seconds start ts = ts.findIdx? fun t => start + 18 * seconds.toNat ≤ t

variable {seconds : BitVec 32} {start t : Int} {ts : List Int} {s : Sleeper} {left : Nat}

/-- The counter that `sys_sleep` reads is the number of interrupts so far. -/
theorem gettcount_times (video : Int → UInt8) (n : Nat) :
    (times Clock.interrupt0 n (boot video)).map gettcount = some (n : Int) := by
  obtain ⟨c, hrun, hkeeps⟩ := keeps_times video n
  rw [hrun, Option.map_some, gettcount, hkeeps.tcount]

/-! ## The loop -/

/-- The ticks at which the seconds that are left should be counted. -/
def Marks (time : Int) (left : Nat) (ts : List Int) : Prop :=
  ∀ j : Nat, 1 ≤ j → j ≤ left → time + 18 * j ∈ ts

/-- A poll that counts a second: the other marks are still to come. -/
theorem marks_counted {time : Int} :
    Marks time (left + 1) ((time + 18) :: ts) ↔ Marks (time + 18) left ts := by
  have hmark : ∀ j : Nat, time + 18 * ((j + 1 : Nat) : Int) = time + 18 + 18 * j := by
    intro j
    omega
  constructor
  · intro h j hlow hhigh
    have hmem := h (j + 1) (by omega) (by omega)
    rw [hmark] at hmem
    exact (List.mem_cons.1 hmem).resolve_left (by omega)
  · intro h j hlow hhigh
    obtain ⟨j, rfl⟩ := Nat.exists_eq_succ_of_ne_zero (Nat.ne_of_gt hlow)
    rw [hmark]
    by_cases hj : j = 0
    · rw [hj, Nat.cast_zero, mul_zero, add_zero]
      exact List.mem_cons_self
    · exact List.mem_cons_of_mem _ (h j (by omega) (by omega))

/-- A poll that comes too late for the next mark has missed it for good. -/
theorem not_marks (hsorted : (t :: ts).Pairwise (· ≤ ·)) {time : Int} (hlate : time + 18 < t) :
    ¬ Marks time (left + 1) (t :: ts) := by
  intro h
  have hmem := h 1 le_rfl (by omega)
  rw [Nat.cast_one, mul_one] at hmem
  rcases List.mem_cons.1 hmem with heq | hmem
  · exact absurd heq (by omega)
  · exact absurd (List.rel_of_pairwise_cons hsorted hmem) (by omega)

/-- A poll before the next mark. -/
theorem marks_early {time : Int} (hearly : t < time + 18) :
    Marks time left (t :: ts) ↔ Marks time left ts := by
  constructor
  · intro h j hlow hhigh
    exact (List.mem_cons.1 (h j hlow hhigh)).resolve_left (by omega)
  · intro h j hlow hhigh
    exact List.mem_cons_of_mem _ (h j hlow hhigh)

/-- The loop in the middle, with at least one second left to count. -/
theorem sleepLoop_iff (hleft : s.scount.toNat + (left + 1) = seconds.toNat)
    (hsorted : (s.time :: ts).Pairwise (· ≤ ·)) :
    sleepLoop seconds s ts = ts.findIdx? (fun t => s.time + 18 * ((left + 1 : Nat) : Int) ≤ t) ↔
      ((∃ t ∈ ts, s.time + 18 * ((left + 1 : Nat) : Int) ≤ t) → Marks s.time (left + 1) ts) := by
  induction ts generalizing s left with
  | nil => exact iff_of_true rfl fun h => absurd h (by simp)
  | cons t ts ih =>
      have hlt := seconds.isLt
      have hpolls : (t :: ts).Pairwise (· ≤ ·) := hsorted.of_cons
      have hshift : ∀ {a b : Option Nat}, a.map (· + 1) = b.map (· + 1) ↔ a = b :=
        (Option.map_injective (add_left_injective 1)).eq_iff
      rw [sleepLoop, List.findIdx?_cons, Sleeper.poll]
      by_cases hmark : t - s.time = 18
      · -- a second is counted
        have ht : t = s.time + 18 := by omega
        have hcount : (s.scount + 1).toNat = s.scount.toNat + 1 := by
          rw [BitVec.toNat_add]
          exact Nat.mod_eq_of_lt (by change s.scount.toNat + 1 < _; omega)
        rw [if_pos hmark]
        dsimp only
        cases left with
        | zero =>
            have hexit : seconds ≤ s.scount + 1 := by rw [BitVec.le_def, hcount]; omega
            rw [if_pos hexit, if_pos (decide_eq_true (by omega))]
            refine iff_of_true rfl fun _ j hlow hhigh => ?_
            rw [show j = 1 by omega, Nat.cast_one, mul_one, ← ht]
            exact List.mem_cons_self
        | succ left =>
            have hgo : ¬ seconds ≤ s.scount + 1 := by rw [BitVec.le_def, hcount]; omega
            have hnot : ¬ s.time + 18 * ((left + 1 + 1 : Nat) : Int) ≤ t := by omega
            have hmore := @ih ⟨t, s.scount + 1⟩ left (by dsimp only; omega) hpolls
            dsimp only at hmore
            have hdeadline : s.time + 18 * ((left + 1 + 1 : Nat) : Int) =
                t + 18 * ((left + 1 : Nat) : Int) := by omega
            rw [if_neg hgo, if_neg (by rw [decide_eq_true_eq]; exact hnot), hshift, hdeadline,
              hmore]
            rw [List.exists_mem_cons_iff, or_iff_right (by omega), ht, marks_counted]
      · have hgo : ¬ seconds ≤ s.scount := by rw [BitVec.le_def]; omega
        rw [if_neg hmark, if_neg hgo]
        have hle : s.time ≤ t := List.rel_of_pairwise_cons hsorted List.mem_cons_self
        by_cases hlate : s.time + 18 * ((left + 1 : Nat) : Int) ≤ t
        · -- the seconds are over, and the loop does not notice
          rw [if_pos (decide_eq_true hlate)]
          refine iff_of_false ?_ fun h => ?_
          · intro heq
            obtain ⟨_, -, hzero⟩ := Option.map_eq_some_iff.1 heq
            exact absurd hzero (Nat.succ_ne_zero _)
          · exact not_marks hpolls (by omega) (h ⟨t, List.mem_cons_self, hlate⟩)
        · have hrest : (s.time :: ts).Pairwise (· ≤ ·) :=
            List.pairwise_cons.2 ⟨fun b hb => hle.trans (List.rel_of_pairwise_cons hpolls hb),
              hpolls.of_cons⟩
          rw [if_neg (by rw [decide_eq_true_eq]; exact hlate), hshift, ih hleft hrest,
            List.exists_mem_cons_iff, or_iff_right hlate]
          refine imp_congr_right fun _ => ?_
          rcases lt_or_gt_of_ne (show t ≠ s.time + 18 by omega) with hearly | hmissed
          · rw [marks_early hearly]
          · refine iff_of_false ?_ (not_marks hpolls hmissed)
            exact fun h => not_marks hpolls hmissed fun j hlow hhigh =>
              List.mem_cons_of_mem _ (h j hlow hhigh)

/-- The loop is left on time if and only if, should it come to a poll that late, the ticks at which
the seconds end have all been read. -/
theorem sysSleep_onTime_iff (hsorted : (start :: ts).Pairwise (· ≤ ·)) :
    OnTime seconds start ts ↔
      ((∃ t ∈ ts, start + 18 * seconds.toNat ≤ t) →
        ∀ j : Nat, 1 ≤ j → j ≤ seconds.toNat → start + 18 * j ∈ ts) := by
  rw [OnTime, sysSleep]
  cases hseconds : seconds.toNat with
  | zero =>
      -- no second is waited for: the first poll is the last one
      refine iff_of_true ?_ fun _ j hlow hhigh => absurd (hlow.trans hhigh) (by decide)
      cases ts with
      | nil => rfl
      | cons t ts =>
          have hle : start ≤ t := List.rel_of_pairwise_cons hsorted List.mem_cons_self
          have hexit : seconds ≤ (Sleeper.poll ⟨start, 0⟩ t).scount := by
            rw [BitVec.le_def, hseconds]
            exact Nat.zero_le _
          rw [sleepLoop, if_pos hexit, List.findIdx?_cons, if_pos (decide_eq_true (by omega))]
  | succ left =>
      have hleft : (0 : BitVec 32).toNat + (left + 1) = seconds.toNat := by
        rw [hseconds]
        exact Nat.zero_add _
      exact sleepLoop_iff (s := ⟨start, 0⟩) hleft hsorted

/-- Every tick is seen. -/
theorem sysSleep_every_tick :
    OnTime 1 0 ((List.range 20).map fun n : Nat => (n : Int)) :=
  (sysSleep_onTime_iff (by decide)).2 fun _ j hlow hhigh => by
    have hj : j = 1 := le_antisymm hhigh hlow
    rw [hj]
    decide

/-- The tick 18 is missed and the process never wakes up. -/
theorem not_sysSleep_onTime :
    ¬ ∀ (seconds : BitVec 32) (start : Int) (ts : List Int),
      (start :: ts).Pairwise (· ≤ ·) → OnTime seconds start ts := by
  intro h
  have honTime := h 1 0 [19] (by decide)
  rw [OnTime] at honTime
  exact absurd honTime (by decide)

end Timer

end OswpKernel
