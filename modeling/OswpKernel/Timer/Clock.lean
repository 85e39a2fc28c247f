import OswpKernel.Lib.Loop
import OswpKernel.Terminal.Numbers

/-!
# Clock — the boot clock of the timer interrupt (`idt.c`)

`interrupt0` counts the ticks and calls `handletime`, which carries from the ticks to the seconds,
minutes and hours and writes `hh:mm:ss` into the last row of the screen.  The carry out of the
seconds is made one tick late, so that a tick at the end of a minute leaves `scount` at 60.
`Keeps` is the invariant with that state in it, `keeps_step` follows one interrupt, and
`clock_exact` all of them.
-/

namespace OswpKernel

namespace Timer

open Keyboard (remLoop)
open Loop (times times_snoc)

/-- The counters of `idt.c`, and the bytes of the screen by their offset from
`KERNBASE + 0xb8000`. -/
structure Clock where
  scount : Int
  mcount : Int
  hcount : Int
  mscount : Int
  tcount : Int
  video : Int → UInt8

/-- `*temp2 = c; temp2 += 2`, for one character after the other. -/
def putChars : (Int → UInt8) → Int → List UInt8 → Int → UInt8
  | video, _, [] => video
  | video, temp2, c :: cs => putChars (Function.update video temp2 c) (temp2 + 2) cs

/-- One digit loop, and the loop that puts `rem[1]` and `rem[0]` out.  A digit that is written
behind `rem[2]` is `none`; a cell that is not written keeps its `'0'`. -/
def twoDigits (intvalue : Int) : Option (List UInt8) :=
  (remLoop 10 (· + 48) 2 intvalue).map fun rem =>
    [UInt8.ofInt (rem.getD 1 48), UInt8.ofInt (rem.getD 0 48)]

namespace Clock

variable (c : Clock)

/-- The carries into the minutes and hours. -/
def carry : Clock :=
  if c.scount = 60 then
    let mcount := c.mcount + 1
    let hcount := if mcount = 60 then c.hcount + 1 else c.hcount
    { c with
      scount := 0
      mcount := if mcount = 60 then 0 else mcount
      hcount := if hcount = 24 then 0 else hcount }
  else c

/-- The carry into the seconds. -/
def second : Clock :=
  if c.mscount = 18 then { c with scount := c.scount + 1, mscount := 0 } else c

/-- `hh:mm:ss`. -/
def text : Option (List UInt8) := do
  let hours ← twoDigits c.hcount
  let minutes ← twoDigits c.mcount
  let seconds ← twoDigits c.scount
  return hours ++ 58 :: minutes ++ 58 :: seconds

def handletime : Option Clock := do
  let c := c.carry.second
  let text ← c.text
  return { c with video := putChars c.video 0xf90 text }

/-- `interrupt0`, up to the call of `handletime`. -/
def interrupt0 : Option Clock :=
  handletime { c with tcount := c.tcount + 1, mscount := c.mscount + 1 }

end Clock

/-- The statics before the first interrupt. -/
def boot (video : Int → UInt8) : Clock := ⟨0, 0, 0, 0, 0, video⟩

/-! ## The screen -/

theorem putChars_before {video : Int → UInt8} {temp2 a : Int} {cs : List UInt8} (h : a < temp2) :
    putChars video temp2 cs a = video a := by
  induction cs generalizing video temp2 with
  | nil => rfl
  | cons c cs ih => rw [putChars, ih (by omega), Function.update_of_ne (by omega)]

/-- The characters stand in every second byte. -/
theorem putChars_at {video : Int → UInt8} {temp2 : Int} {cs : List UInt8} {k : Nat}
    (hk : k < cs.length) : putChars video temp2 cs (temp2 + 2 * k) = cs[k] := by
  induction cs generalizing video temp2 k with
  | nil => exact absurd hk (Nat.not_lt_zero k)
  | cons c cs ih =>
      rw [putChars]
      cases k with
      | zero =>
          rw [Nat.cast_zero, mul_zero, add_zero, putChars_before (by omega),
            Function.update_self]
          rfl
      | succ k =>
          have haddr : temp2 + 2 * ((k + 1 : Nat) : Int) = temp2 + 2 + 2 * k := by
            rw [Nat.cast_succ]
            ring
          rw [haddr, ih (Nat.lt_of_succ_lt_succ hk)]
          rfl

/-! ## The digits -/

/-- The digit loop over a number of at most two digits. -/
theorem remLoop_two {v : Int} (hlow : 0 ≤ v) (hhigh : v < 100) :
    remLoop 10 (· + 48) 2 v =
      some (if v = 0 then [] else if v < 10 then [v + 48] else [v % 10 + 48, v / 10 + 48]) := by
  have hdiv : v.tdiv 10 = v / 10 := Int.tdiv_eq_ediv_of_nonneg hlow
  have hmod : v.tmod 10 = v % 10 := Int.tmod_eq_emod_of_nonneg hlow
  have hdiv' : (v / 10).tdiv 10 = 0 := by rw [Int.tdiv_eq_ediv_of_nonneg (by omega)]; omega
  have hmod' : (v / 10).tmod 10 = v / 10 := by rw [Int.tmod_eq_emod_of_nonneg (by omega)]; omega
  by_cases hzero : v = 0
  · rw [remLoop, if_pos hzero, if_pos hzero]
  · rw [remLoop, if_neg hzero, if_neg hzero, hdiv, hmod, remLoop]
    by_cases hten : v < 10
    · -- one digit: the loop ends after it
      rw [if_pos (by omega), if_pos hten, Option.map_some, show v % 10 = v by omega]
    · rw [if_neg (by omega), if_neg hten, hdiv', hmod', remLoop, if_pos rfl]
      rfl

/-- The two characters of a number below 100. -/
theorem twoDigits_eq {v : Int} (hlow : 0 ≤ v) (hhigh : v < 100) :
    twoDigits v = some [UInt8.ofInt (v / 10 + 48), UInt8.ofInt (v % 10 + 48)] := by
  rw [twoDigits, remLoop_two hlow hhigh, Option.map_some]
  split_ifs with hzero hten
  · rw [hzero]
    rfl
  · rw [show v / 10 = 0 by omega, show v % 10 = v by omega]
    rfl
  · rfl

/-! ## One interrupt -/

/-- What holds after `n` interrupts.  A full minute is still in `scount` right after the tick that
completed it. -/
structure Keeps (n : Nat) (c : Clock) : Prop where
  hours : 0 ≤ c.hcount ∧ c.hcount < 24
  minutes : 0 ≤ c.mcount ∧ c.mcount < 60
  seconds : 0 ≤ c.scount ∧ c.scount ≤ 60
  late : c.scount = 60 → c.mscount = 0
  ticks : c.mscount = ((n % 18 : Nat) : Int)
  time : (3600 * c.hcount + 60 * c.mcount + c.scount) % 86400 = ((n / 18 : Nat) : Int) % 86400
  tcount : c.tcount = n

variable {n : Nat} {c c' : Clock} {video : Int → UInt8}

theorem keeps_boot (video : Int → UInt8) : Keeps 0 (boot video) where
  hours := ⟨le_rfl, (by decide : (0 : Int) < 24)⟩
  minutes := ⟨le_rfl, (by decide : (0 : Int) < 60)⟩
  seconds := ⟨le_rfl, (by decide : (0 : Int) ≤ 60)⟩
  late := fun _ => rfl
  ticks := rfl
  time := rfl
  tcount := rfl

/-- The carries leave the time of the day as it is and bring the seconds below 60. -/
theorem carry_time (hhours : 0 ≤ c.hcount ∧ c.hcount < 24) (hminutes : 0 ≤ c.mcount ∧ c.mcount < 60)
    (hseconds : 0 ≤ c.scount ∧ c.scount ≤ 60) :
    (0 ≤ c.carry.hcount ∧ c.carry.hcount < 24) ∧ (0 ≤ c.carry.mcount ∧ c.carry.mcount < 60) ∧
      (0 ≤ c.carry.scount ∧ c.carry.scount < 60) ∧
      (3600 * c.carry.hcount + 60 * c.carry.mcount + c.carry.scount) % 86400 =
        (3600 * c.hcount + 60 * c.mcount + c.scount) % 86400 := by
  rw [Clock.carry]
  by_cases hfull : c.scount = 60
  · rw [if_pos hfull]
    dsimp only
    -- the minute, the hour and the day may end together
    split_ifs <;> omega
  · rw [if_neg hfull]
    omega

theorem carry_mscount : c.carry.mscount = c.mscount ∧ c.carry.tcount = c.tcount := by
  rw [Clock.carry]
  split_ifs <;> exact ⟨rfl, rfl⟩

/-- The text of a clock whose counters have at most two digits. -/
theorem Keeps.text (h : Keeps n c) :
    c.text = some ([UInt8.ofInt (c.hcount / 10 + 48), UInt8.ofInt (c.hcount % 10 + 48), 58,
      UInt8.ofInt (c.mcount / 10 + 48), UInt8.ofInt (c.mcount % 10 + 48), 58,
      UInt8.ofInt (c.scount / 10 + 48), UInt8.ofInt (c.scount % 10 + 48)]) := by
  rw [Clock.text, twoDigits_eq h.hours.1 (by have := h.hours.2; omega),
    twoDigits_eq h.minutes.1 (by have := h.minutes.2; omega),
    twoDigits_eq h.seconds.1 (by have := h.seconds.2; omega)]
  rfl

/-- An interrupt keeps the invariant: a tick that is not the 18th of its second leaves the time,
the 18th moves it on by one second, and a full minute is carried in between. -/
theorem keeps_step (h : Keeps n c) :
    ∃ c', c.interrupt0 = some c' ∧ Keeps (n + 1) c' ∧
      ∃ text, c'.text = some text ∧ c'.video = putChars c.video 0xf90 text := by
  set c₁ : Clock := { c with tcount := c.tcount + 1, mscount := c.mscount + 1 } with hc₁
  obtain ⟨hhours, hminutes, hseconds, htime⟩ :=
    carry_time (c := c₁) h.hours h.minutes h.seconds
  obtain ⟨hticks, htcount⟩ := carry_mscount (c := c₁)
  have hvideo : c₁.carry.second.video = c.video := by
    rw [Clock.second, Clock.carry]
    split_ifs <;> rfl
  have hticks' : c₁.carry.mscount = ((n % 18 : Nat) : Int) + 1 := by rw [hticks, ← h.ticks]
  have htcount' : c₁.carry.tcount = ((n + 1 : Nat) : Int) := by
    rw [htcount, Nat.cast_succ, ← h.tcount]
  have htime' : (3600 * c₁.carry.hcount + 60 * c₁.carry.mcount + c₁.carry.scount) % 86400 =
      ((n / 18 : Nat) : Int) % 86400 := htime.trans h.time
  have hkeeps : Keeps (n + 1) c₁.carry.second := by
    rw [Clock.second]
    by_cases hsecond : c₁.carry.mscount = 18
    · rw [if_pos hsecond]
      refine ⟨hhours, hminutes, ⟨?_, ?_⟩, fun _ => rfl, ?_, ?_, htcount'⟩ <;> dsimp only <;> omega
    · rw [if_neg hsecond]
      refine ⟨hhours, hminutes, ⟨hseconds.1, hseconds.2.le⟩, fun hfull => ?_, ?_, ?_, htcount'⟩
      · exact absurd hfull (by omega)
      · omega
      · omega
  have htext := hkeeps.text
  refine ⟨{ c₁.carry.second with video := putChars c₁.carry.second.video 0xf90 _ }, ?_,
    ⟨hkeeps.hours, hkeeps.minutes, hkeeps.seconds, hkeeps.late, hkeeps.ticks, hkeeps.time,
      hkeeps.tcount⟩, _, htext, by rw [hvideo]⟩
  rw [Clock.interrupt0, ← hc₁, Clock.handletime, htext]
  rfl

/-! ## All interrupts -/

theorem keeps_times (video : Int → UInt8) (n : Nat) :
    ∃ c, times Clock.interrupt0 n (boot video) = some c ∧ Keeps n c := by
  induction n with
  | zero => exact ⟨boot video, rfl, keeps_boot video⟩
  | succ n ih =>
      obtain ⟨c, hrun, hkeeps⟩ := ih
      obtain ⟨c', hstep, hkeeps', -⟩ := keeps_step hkeeps
      exact ⟨c', by rw [times_snoc, hrun, Option.bind_some, hstep], hkeeps'⟩

/-- After `n` interrupts from boot the counters are in their ranges and hold the whole seconds that
`n` ticks make, and the three digit loops have stayed inside `rem[2]` every time. -/
theorem clock_exact (video : Int → UInt8) (n : Nat) :
    ∃ c, times Clock.interrupt0 n (boot video) = some c ∧
      (0 ≤ c.hcount ∧ c.hcount < 24) ∧ (0 ≤ c.mcount ∧ c.mcount < 60) ∧
      (0 ≤ c.scount ∧ c.scount ≤ 60) ∧
      3600 * c.hcount + 60 * c.mcount + c.scount ≡ ((n / 18 : Nat) : Int) [ZMOD 86400] ∧
      ∀ intvalue ∈ [c.hcount, c.mcount, c.scount],
        ∃ rem, remLoop 10 (· + 48) 2 intvalue = some rem ∧ rem.length ≤ 2 := by
  obtain ⟨c, hrun, h⟩ := keeps_times video n
  refine ⟨c, hrun, h.hours, h.minutes, h.seconds, h.time, fun intvalue hmem => ?_⟩
  have hrange : 0 ≤ intvalue ∧ intvalue < 100 := by
    have hh := h.hours
    have hm := h.minutes
    have hs := h.seconds
    rcases List.mem_cons.1 hmem with rfl | hmem
    · omega
    · rcases List.mem_cons.1 hmem with rfl | hmem
      · omega
      · rcases List.mem_singleton.1 hmem with rfl
        omega
  refine ⟨_, remLoop_two hrange.1 hrange.2, ?_⟩
  split_ifs <;> simp

/-- From the first interrupt on the last row shows the counters. -/
theorem clock_shows (video : Int → UInt8) (n : Nat) :
    ∃ c text, times Clock.interrupt0 (n + 1) (boot video) = some c ∧ c.text = some text ∧
      text.length = 8 ∧ ∀ k (hk : k < text.length), c.video (0xf90 + 2 * k) = text[k] := by
  obtain ⟨c, hrun, hkeeps⟩ := keeps_times video n
  obtain ⟨c', hstep, hkeeps', text, htext, hvideo⟩ := keeps_step hkeeps
  refine ⟨c', text, by rw [times_snoc, hrun, Option.bind_some, hstep], htext, ?_, fun k hk => ?_⟩
  · rw [hkeeps'.text, Option.some_inj] at htext
    rw [← htext]
    rfl
  · rw [hvideo, putChars_at hk]

end Timer

end OswpKernel
