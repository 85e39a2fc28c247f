import OswpKernel.Terminal.Keyboard
import OswpKernel.Lib.Execution
import OswpKernel.Base
import Mathlib.Data.Nat.Digits.Lemmas

/-!
# Screen — where `kprintf` and `kscanf` write

The text area is 25 rows of 80 characters of two bytes each, at `KERNBASE + 0xb8000`; addresses are
offsets from there.  `kprintf` (`kprintf.c`) looks for the end of the screen once for each character
of its format, `kscanf` moves the cursor back for the backspace key.

`written` lists the bytes that have been written; no routine reads it.  `turn_inArea_iff` says which
turns of the loop of `kprintf` stay inside the area, `screen_inArea` follows the calls and the keys
as long as all turns do, and `not_screen_inArea` presses backspace on an empty screen.
-/

namespace OswpKernel

namespace Keyboard

open Execution

structure Screen where
  mem : Int → UInt8
  /-- `outputstring`. -/
  outputstring : Int
  written : List Int

namespace Screen

variable (s : Screen)

/-- `*outputstring = c`. -/
def store (c : UInt8) : Screen :=
  { s with
    mem := Function.update s.mem s.outputstring c
    written := s.outputstring :: s.written }

/-- `outputstring += n`. -/
def move (n : Int) : Screen := { s with outputstring := s.outputstring + n }

@[simp] theorem store_outputstring (c : UInt8) : (s.store c).outputstring = s.outputstring := rfl

@[simp] theorem move_outputstring (n : Int) :
    (s.move n).outputstring = s.outputstring + n := rfl

/-- The test for the end of the screen: the rows 1 to 21 are copied up by one row. -/
def scroll : Screen :=
  if 160 * 21 ≤ s.outputstring then
    { mem := fun a => if 0 ≤ a ∧ a < 160 * 21 then s.mem (a + 160) else s.mem a
      outputstring := 160 * 20
      written := (List.range (160 * 21)).map (fun a : Nat => (a : Int)) ++ s.written }
  else s

/-- The loops that write characters one after the other. -/
def putString (cs : List UInt8) : Screen := cs.foldl (fun s c => (s.store c).move 2) s

end Screen

/-! ## `kprintf` -/

/-- The arguments of a call by their number (the format is the first), and the strings they may
point to. -/
structure Arguments where
  argument : Nat → Word
  string : Word → List UInt8

/-- The state of the loop. -/
structure Printing where
  screen : Screen
  noofarg : Nat
  length : Int

/-- `rem` from its last entry on, for `%d`; for a negative value the remainders are negative. -/
def decimalDigits (intvalue : Int) : List UInt8 :=
  (Nat.digits 10 intvalue.natAbs).reverse.map fun d =>
    if 0 ≤ intvalue then 48 + UInt8.ofNat d else 48 - UInt8.ofNat d

/-- The same for `%x`. -/
def hexDigits (pointervalue : Word) : List UInt8 :=
  (Nat.digits 16 pointervalue.toNat).reverse.map fun d =>
    if d < 10 then UInt8.ofNat d + 48 else UInt8.ofNat (d % 10) + 97

namespace Printing

variable (p : Printing)

/-- The loops over `value` and `rem`, with the `-= 2` behind them. -/
def characters (cs : List UInt8) : Printing :=
  { p with screen := (p.screen.putString cs).move (-2), length := p.length + 2 * cs.length - 2 }

/-- A number, `0` apart. -/
def number (isZero : Bool) (digits : List UInt8) : Printing :=
  if isZero then { p with screen := p.screen.store 48 } else p.characters digits

/-- The `switch` on the character behind `%`. -/
def conversion (args : Arguments) (c : UInt8) : Printing :=
  let arg := args.argument p.noofarg
  if c = 115 then p.characters (args.string arg)
  else if c = 99 then { p with screen := p.screen.store (UInt8.ofNat arg.toNat) }
  else if c = 100 then
    let intvalue := (arg.setWidth 32).toInt
    p.number (intvalue = 0) (decimalDigits intvalue)
  else if c = 112 then
    let p := { p with
      screen := (((p.screen.store 48).move 2).store 120).move 2
      length := p.length + 4 }
    p.number (arg = 0) (hexDigits arg)
  else if c = 120 then p.number (arg = 0) (hexDigits arg)
  else p

/-- A character of the format that is not `%`. -/
def plain (c : UInt8) : Printing :=
  if c = 10 then
    -- the difference is an unsigned one
    let remainder : Int := ((BitVec.ofInt 64 p.screen.outputstring).toNat % 160 : Nat)
    { p with screen := (p.screen.move (-(remainder + 2))).move 160 }
  else if c = 13 then { p with screen := p.screen.move (-p.length) }
  else if c = 9 then { p with screen := p.screen.move 8 }
  else { p with screen := p.screen.store c }

/-- The increments of the loop. -/
def next : Printing := { p with screen := p.screen.move 2, length := p.length + 2 }

/-- The head of the loop body. -/
def scroll : Printing := { p with screen := p.screen.scroll }

end Printing

@[simp] theorem Printing.next_screen (p : Printing) : p.next.screen = p.screen.move 2 := rfl

@[simp] theorem Printing.scroll_length (p : Printing) : p.scroll.length = p.length := rfl

/-- The turn of the loop for a conversion. -/
def conversionTurn (args : Arguments) (c : UInt8) (p : Printing) : Printing :=
  ({ p.scroll with noofarg := p.noofarg + 1 }.conversion args c).next

/-- The turn of the loop for another character. -/
def plainTurn (c : UInt8) (p : Printing) : Printing := (p.scroll.plain c).next

/-- The loop over the format.  Behind a `%` at its end the loop goes on past the terminator. -/
def kprintfLoop (args : Arguments) : List UInt8 → Printing → Option Printing
  | [], p => some p
  | c :: cs, p =>
      if c = 37 then
        match cs with
        | [] => none
        | d :: ds => kprintfLoop args ds (conversionTurn args d p)
      else kprintfLoop args cs (plainTurn c p)

def kprintf (args : Arguments) (fmt : List UInt8) (s : Screen) : Option Screen :=
  (kprintfLoop args fmt ⟨s, 1, 2⟩).map fun p => p.screen.store 0

/-! ## `kscanf` -/

/-- Arguments for a `%c`. -/
def oneCharacter (c : Char) : Arguments :=
  { argument := fun _ => BitVec.ofNat 64 c.toNat, string := fun _ => [] }

/-- `kprintf("%c", c)`. -/
def printCharacter (c : Char) (s : Screen) : Option Screen := kprintf (oneCharacter c) [37, 99] s

/-- What `kscanf` prints for a key, depending on `controlflag`. -/
def kscanfPrint (t : Terminal) (keyscancode : UInt8) (s : Screen) : Option Screen :=
  if keyscancode &&& 0x80 = 0 then
    if keyscancode = 14 then
      (kprintf (oneCharacter nul) [32] (s.move (-2))).map fun s' =>
        { s' with outputstring := s.outputstring - 2 }
    else if keyscancode = 58 ∨ keyscancode = 42 ∨ keyscancode = 54 ∨ keyscancode = 29 then some s
    else if keyscancode = 28 then kprintf (oneCharacter nul) [10] s
    else if t.controlflag &&& 0x04 ≠ 0 then do
      let s ← printCharacter '^' s
      let c ← scantoCchar[keyscancode.toNat]?
      printCharacter c s
    else if t.controlflag &&& 0x02 ≠ 0 ∨ t.controlflag &&& 0x01 ≠ 0 then do
      let c ← scantoUchar[keyscancode.toNat]?
      printCharacter c s
    else do
      let c ← scantochar[keyscancode.toNat]?
      printCharacter c s
  else some s

/-- The screen and the keyboard's buffer. -/
structure Display where
  screen : Screen
  terminal : Terminal

inductive DisplayEvent
  | kprintf (args : Arguments) (fmt : List UInt8)
  | key (keyscancode : UInt8)

def displayStep (d : Display) : DisplayEvent → Option Display
  | .kprintf args fmt => do
      let s ← Keyboard.kprintf args fmt d.screen
      return { d with screen := s }
  | .key keyscancode => do
      let s ← kscanfPrint d.terminal keyscancode d.screen
      let t ← d.terminal.kscanf keyscancode
      return { screen := s, terminal := t }

/-! ## The text area -/

/-- The cursor and all that has been written are in the 25 rows. -/
structure InArea (s : Screen) : Prop where
  low : 0 ≤ s.outputstring
  high : s.outputstring < 160 * 25
  written : ∀ a ∈ s.written, 0 ≤ a ∧ a < 160 * 25

variable {s s' : Screen} {p : Printing} {args : Arguments} {c d : UInt8} {cs fmt : List UInt8}
  {display display' : Display} {keyscancode : UInt8}

theorem InArea.store (h : InArea s) (c : UInt8) : InArea (s.store c) := by
  refine ⟨h.low, h.high, fun a ha => ?_⟩
  rcases List.mem_cons.1 ha with rfl | ha
  · exact ⟨h.low, h.high⟩
  · exact h.written a ha

theorem InArea.of_outputstring (h : InArea s) (hwritten : s'.written = s.written)
    (hlow : 0 ≤ s'.outputstring) (hhigh : s'.outputstring < 160 * 25) : InArea s' :=
  ⟨hlow, hhigh, hwritten ▸ h.written⟩

theorem InArea.move (h : InArea s) {n : Int} (hlow : 0 ≤ s.outputstring + n)
    (hhigh : s.outputstring + n < 160 * 25) : InArea (s.move n) :=
  ⟨hlow, hhigh, h.written⟩

theorem InArea.scroll (h : InArea s) : InArea s.scroll ∧ s.scroll.outputstring < 160 * 21 := by
  rw [Screen.scroll]
  split_ifs with hend
  · refine ⟨⟨Int.le_of_lt (by norm_num), by norm_num, fun a ha => ?_⟩, by norm_num⟩
    rcases List.mem_append.1 ha with ha | ha
    · rcases List.mem_map.1 ha with ⟨k, hk, rfl⟩
      rw [List.mem_range] at hk
      exact ⟨Int.natCast_nonneg k, by omega⟩
    · exact h.written a ha
  · exact ⟨h, not_le.1 hend⟩

theorem putString_cons (s : Screen) (c : UInt8) (cs : List UInt8) :
    s.putString (c :: cs) = ((s.store c).move 2).putString cs := rfl

theorem putString_outputstring (s : Screen) (cs : List UInt8) :
    (s.putString cs).outputstring = s.outputstring + 2 * cs.length := by
  induction cs generalizing s with
  | nil => simp [Screen.putString]
  | cons c cs ih =>
      rw [putString_cons, ih, Screen.move_outputstring, Screen.store_outputstring, List.length_cons]
      omega

/-- A string that ends in the area is written inside it. -/
theorem InArea.putString (h : InArea s) (hroom : s.outputstring + 2 * cs.length < 160 * 25) :
    InArea (s.putString cs) := by
  induction cs generalizing s with
  | nil => exact h
  | cons c cs ih =>
      rw [List.length_cons] at hroom
      have hlow := h.low
      have hplace : ((s.store c).move 2).outputstring = s.outputstring + 2 := rfl
      rw [putString_cons]
      exact ih ⟨by omega, by omega, (h.store c).written⟩ (by omega)

theorem decimalDigits_length {v : BitVec 32} : (decimalDigits v.toInt).length ≤ 10 := by
  have hlow := BitVec.le_toInt v
  have hhigh := BitVec.toInt_lt (x := v)
  rw [decimalDigits, List.length_map, List.length_reverse, Nat.digits_length_le_iff (by decide)]
  omega

theorem hexDigits_length (w : Word) : (hexDigits w).length ≤ 16 := by
  have hlt := w.isLt
  rw [hexDigits, List.length_map, List.length_reverse, Nat.digits_length_le_iff (by decide)]
  exact hlt

/-! ## One turn of the loop -/

/-- A string argument ends inside the area. -/
def ConversionOk (args : Arguments) (c : UInt8) (p : Printing) : Prop :=
  c = 115 → p.scroll.screen.outputstring +
    2 * (args.string (args.argument (p.noofarg + 1))).length < 160 * 25

/-- A carriage return does not go back behind the start of the area. -/
def PlainOk (c : UInt8) (p : Printing) : Prop :=
  c = 13 → p.length ≤ p.scroll.screen.outputstring + 2

instance (args : Arguments) (c : UInt8) (p : Printing) : Decidable (ConversionOk args c p) :=
  inferInstanceAs (Decidable (_ → _))

instance (c : UInt8) (p : Printing) : Decidable (PlainOk c p) := inferInstanceAs (Decidable (_ → _))

theorem characters_next (p : Printing) (cs : List UInt8) :
    (p.characters cs).next.screen.outputstring = p.screen.outputstring + 2 * cs.length := by
  simp only [Printing.next_screen, Printing.characters, Screen.move_outputstring,
    putString_outputstring]
  omega

theorem InArea.characters (h : InArea p.screen)
    (hroom : p.screen.outputstring + 2 * cs.length < 160 * 25) :
    InArea (p.characters cs).next.screen := by
  have hplace := characters_next p cs
  have hlow := h.low
  exact ⟨by omega, by omega, (h.putString hroom).written⟩

theorem InArea.next (h : InArea p.screen) (hroom : p.screen.outputstring + 2 < 160 * 25) :
    InArea p.next.screen := by
  have hlow := h.low
  exact InArea.move h (by omega) hroom

/-- A number has at most 16 digits. -/
theorem InArea.number (h : InArea p.screen) (isZero : Bool) (hcs : cs.length ≤ 16)
    (hroom : p.screen.outputstring + 34 < 160 * 25) : InArea (p.number isZero cs).next.screen := by
  rw [Printing.number]
  split_ifs
  · refine InArea.next (h.store 48) ?_
    change p.screen.outputstring + 2 < _
    omega
  · exact h.characters (by omega)

/-- Of the conversions only a string can leave the area. -/
theorem conversionTurn_inArea_iff (h : InArea p.screen) :
    InArea (conversionTurn args c p).screen ↔ ConversionOk args c p := by
  rcases h.scroll with ⟨hscroll, hplace⟩
  let q : Printing := { p.scroll with noofarg := p.noofarg + 1 }
  have hq : InArea q.screen := hscroll
  have hlow := hq.low
  have hqplace : q.screen.outputstring < 160 * 21 := hplace
  change InArea (q.conversion args c).next.screen ↔ _
  rw [Printing.conversion]
  dsimp only
  by_cases hs : c = 115
  · rw [if_pos hs]
    constructor
    · intro hafter _
      have hhigh := hafter.high
      rw [characters_next] at hhigh
      exact hhigh
    · intro hok
      exact hq.characters (hok hs)
  · refine iff_of_true ?_ fun h' => absurd h' hs
    rw [if_neg hs]
    split_ifs
    · refine InArea.next (hq.store _) ?_
      change q.screen.outputstring + 2 < _
      omega
    · exact hq.number _ (decimalDigits_length.trans (by decide)) (by omega)
    · -- `0x` comes first
      have hpointer : ((((q.screen.store 48).move 2).store 120).move 2).outputstring =
          q.screen.outputstring + 4 := by
        simp only [Screen.move_outputstring, Screen.store_outputstring]
        omega
      have hx : InArea (((q.screen.store 48).move 2).store 120) :=
        InArea.store (InArea.move (hq.store 48) (by rw [Screen.store_outputstring]; omega)
          (by rw [Screen.store_outputstring]; omega)) 120
      have hmoved : InArea ((((q.screen.store 48).move 2).store 120).move 2) :=
        ⟨by omega, by omega, hx.written⟩
      refine InArea.number hmoved _ (hexDigits_length _) ?_
      change ((((q.screen.store 48).move 2).store 120).move 2).outputstring + 34 < _
      omega
    · exact hq.number _ (hexDigits_length _) (by omega)
    · exact hq.next (by omega)

/-- Of the other characters only a carriage return can. -/
theorem plainTurn_inArea_iff (h : InArea p.screen) (hlength : 2 ≤ p.length) :
    InArea (plainTurn c p).screen ↔ PlainOk c p := by
  rcases h.scroll with ⟨hscroll, hplace⟩
  have hq : InArea p.scroll.screen := hscroll
  have hqplace : p.scroll.screen.outputstring < 160 * 21 := hplace
  have hlow := hq.low
  rw [plainTurn, Printing.plain]
  dsimp only
  by_cases hreturn : c = 13
  · have hline : c ≠ 10 := by
      rw [hreturn]
      decide
    rw [if_neg hline, if_pos hreturn]
    constructor
    · intro hafter _
      have hback : 0 ≤ p.scroll.screen.outputstring + -p.length + 2 := hafter.low
      omega
    · intro hok
      have hlength' := hok hreturn
      refine hq.of_outputstring rfl ?_ ?_
      · change 0 ≤ p.scroll.screen.outputstring + -p.length + 2
        omega
      · change p.scroll.screen.outputstring + -p.length + 2 < _
        omega
  · refine iff_of_true ?_ fun h' => absurd h' hreturn
    rw [if_neg hreturn]
    split_ifs
    · -- the start of the next row
      have hword : (BitVec.ofInt 64 p.scroll.screen.outputstring).toNat =
          p.scroll.screen.outputstring.toNat := by
        rw [BitVec.toNat_ofInt]
        omega
      rw [hword]
      refine hq.of_outputstring rfl ?_ ?_
      all_goals
        simp only [Printing.next_screen, Screen.move_outputstring]
        omega
    · refine hq.of_outputstring rfl ?_ ?_
      all_goals
        simp only [Printing.next_screen, Screen.move_outputstring]
        omega
    · refine InArea.next (hq.store c) ?_
      change p.scroll.screen.outputstring + 2 < _
      omega

theorem conversionTurn_length (args : Arguments) (c : UInt8) (p : Printing) :
    p.length ≤ (conversionTurn args c p).length := by
  have hnumber : ∀ (q : Printing) (isZero : Bool) (cs : List UInt8),
      q.length ≤ (q.number isZero cs).length + 2 := by
    intro q isZero cs
    rw [Printing.number]
    split_ifs
    · exact Int.le_add_of_nonneg_right (by decide)
    · simp only [Printing.characters]
      omega
  change p.length ≤ (Printing.conversion _ args c).length + 2
  rw [Printing.conversion]
  dsimp only
  split_ifs
  · simp only [Printing.characters, Printing.scroll_length]
    omega
  · exact Int.le_add_of_nonneg_right (by decide)
  · exact hnumber _ _ _
  · refine le_trans ?_ (hnumber _ _ _)
    exact Int.le_add_of_nonneg_right (by decide)
  · exact hnumber _ _ _
  · exact Int.le_add_of_nonneg_right (by decide)

theorem plainTurn_length (c : UInt8) (p : Printing) : p.length ≤ (plainTurn c p).length := by
  rw [plainTurn, Printing.plain]
  dsimp only
  split_ifs
  all_goals exact Int.le_add_of_nonneg_right (by decide)

/-! ## Calls and keys -/

/-- Every turn of the loop stays inside the area, and the format does not end in a `%`. -/
def CallOk (args : Arguments) : List UInt8 → Printing → Prop
  | [], _ => True
  | c :: cs, p =>
      if c = 37 then
        match cs with
        | [] => False
        | d :: ds => ConversionOk args d p ∧ CallOk args ds (conversionTurn args d p)
      else PlainOk c p ∧ CallOk args cs (plainTurn c p)

instance decidableCallOk (args : Arguments) :
    (fmt : List UInt8) → (p : Printing) → Decidable (CallOk args fmt p)
  | [], _ => isTrue trivial
  | [c], p =>
      have := decidableCallOk args [] (plainTurn c p)
      inferInstanceAs (Decidable (if c = 37 then False else PlainOk c p ∧ CallOk args [] _))
  | c :: d :: ds, p =>
      have := decidableCallOk args ds (conversionTurn args d p)
      have := decidableCallOk args (d :: ds) (plainTurn c p)
      inferInstanceAs (Decidable (if c = 37 then ConversionOk args d p ∧ CallOk args ds _
        else PlainOk c p ∧ CallOk args (d :: ds) _))

theorem callOk_plain (hc : c ≠ 37) :
    CallOk args (c :: cs) p ↔ PlainOk c p ∧ CallOk args cs (plainTurn c p) := by
  rw [CallOk.eq_def]
  exact iff_of_eq (if_neg hc)

theorem kprintfLoop_inArea (h : InArea p.screen) (hlength : 2 ≤ p.length)
    (hok : CallOk args fmt p) : ∃ p', kprintfLoop args fmt p = some p' ∧ InArea p'.screen := by
  induction fmt, p using kprintfLoop.induct args with
  | case1 p => exact ⟨p, rfl, h⟩
  | case2 p => exact absurd hok (by simp [CallOk])
  | case3 p d ds ih =>
      rw [CallOk, if_pos rfl] at hok
      rw [kprintfLoop, if_pos rfl]
      exact ih ((conversionTurn_inArea_iff h).2 hok.1)
        (hlength.trans (conversionTurn_length args d p)) hok.2
  | case4 c cs p hc ih =>
      rw [callOk_plain hc] at hok
      rw [kprintfLoop.eq_def]
      simp only [if_neg hc]
      exact ih ((plainTurn_inArea_iff h hlength).2 hok.1)
        (hlength.trans (plainTurn_length c p)) hok.2

theorem kprintf_inArea (h : InArea s) (hok : CallOk args fmt ⟨s, 1, 2⟩) :
    ∃ s', kprintf args fmt s = some s' ∧ InArea s' := by
  rcases kprintfLoop_inArea (p := ⟨s, 1, 2⟩) h (le_refl _) hok with ⟨p', hloop, hp'⟩
  exact ⟨p'.screen.store 0, by rw [kprintf, hloop, Option.map_some], hp'.store 0⟩

/-- What `kscanf` prints is one character, or a newline. -/
theorem printCharacter_inArea (h : InArea s) (c : Char) (hprint : printCharacter c s = some s') :
    InArea s' := by
  have hok : CallOk (oneCharacter c) [37, 99] ⟨s, 1, 2⟩ := by
    rw [CallOk, if_pos rfl]
    exact ⟨fun h => absurd h (by decide), trivial⟩
  rcases kprintf_inArea h hok with ⟨s₁, hs₁, hin⟩
  rcases Option.some_inj.1 (hs₁.symm.trans hprint)
  exact hin

/-- A key leaves the area only as a backspace at its start. -/
theorem kscanfPrint_inArea {t : Terminal} (h : InArea s)
    (hback : keyscancode = 14 → 2 ≤ s.outputstring)
    (hprint : kscanfPrint t keyscancode s = some s') : InArea s' := by
  have hplain : ∀ {c : UInt8} {s : Screen}, c ≠ 37 → c ≠ 13 → InArea s →
      ∃ s', kprintf (oneCharacter nul) [c] s = some s' ∧ InArea s' := by
    intro c s hc hreturn hs
    exact kprintf_inArea hs ((callOk_plain hc).2 ⟨fun h => absurd h hreturn, trivial⟩)
  rw [kscanfPrint] at hprint
  split_ifs at hprint with hdown h14 hmodifier h28 hcontrol hupper
  · -- backspace prints a blank over the last character
    have hroom := hback h14
    have hlow := h.low
    have hhigh := h.high
    have hmoved : InArea (s.move (-2)) :=
      h.move (by omega) (by omega)
    rcases hplain (c := 32) (by decide) (by decide) hmoved with ⟨s₁, hs₁, hin⟩
    rw [hs₁, Option.map_some] at hprint
    rcases Option.some_inj.1 hprint with rfl
    refine hin.of_outputstring rfl ?_ ?_
    · change 0 ≤ s.outputstring - 2
      omega
    · change s.outputstring - 2 < _
      omega
  · rcases Option.some_inj.1 hprint with rfl
    exact h
  · rcases hplain (c := 10) (by decide) (by decide) h with ⟨s₁, hs₁, hin⟩
    rcases Option.some_inj.1 (hs₁.symm.trans hprint) with rfl
    exact hin
  · rcases Option.bind_eq_some_iff.1 hprint with ⟨s₁, hs₁, hprint⟩
    rcases Option.bind_eq_some_iff.1 hprint with ⟨c, -, hlast⟩
    exact printCharacter_inArea (printCharacter_inArea h _ hs₁) c hlast
  · rcases Option.bind_eq_some_iff.1 hprint with ⟨c, -, hlast⟩
    exact printCharacter_inArea h c hlast
  · rcases Option.bind_eq_some_iff.1 hprint with ⟨c, -, hlast⟩
    exact printCharacter_inArea h c hlast
  · rcases Option.some_inj.1 hprint with rfl
    exact h

/-! ## Every run -/

def DisplayAllowed (d : Display) : DisplayEvent → Prop
  | .kprintf args fmt => CallOk args fmt ⟨d.screen, 1, 2⟩
  | .key keyscancode => keyscancode = 14 → 2 ≤ d.screen.outputstring

instance (d : Display) : (e : DisplayEvent) → Decidable (DisplayAllowed d e)
  | .kprintf _ _ => inferInstanceAs (Decidable (CallOk _ _ _))
  | .key _ => inferInstanceAs (Decidable (_ → _))

/-- The screen as the kernel finds it, and the keyboard buffer on a zeroed page. -/
def Display.start (mem : Int → UInt8) : Display where
  screen := ⟨mem, 0, []⟩
  terminal := Terminal.initializeKeyboardBuffer fun _ => nul

/-- After calls and keys that stay inside, in any order, the cursor is in the area and nothing has
been written outside; a call that stays inside can be carried out. -/
theorem screen_inArea {mem : Int → UInt8} {es : List DisplayEvent}
    (hrun : Run displayStep DisplayAllowed (Display.start mem) es display) :
    InArea display.screen ∧ ∀ args fmt, DisplayAllowed display (.kprintf args fmt) →
      (displayStep display (.kprintf args fmt)).isSome := by
  have hstart : InArea (Display.start mem).screen :=
    ⟨le_refl _, by norm_num [Display.start], by simp [Display.start]⟩
  have hin : InArea display.screen := by
    refine hrun.invariant (fun d => InArea d.screen) hstart ?_
    intro d e d' hd hallowed hstep
    cases e with
    | kprintf args fmt =>
        rcases kprintf_inArea hd hallowed with ⟨s, hs, hin⟩
        rcases Option.bind_eq_some_iff.1 hstep with ⟨s₁, hs₁, hret⟩
        rcases Option.some_inj.1 hret with rfl
        rcases Option.some_inj.1 (hs.symm.trans hs₁)
        exact hin
    | key keyscancode =>
        rcases Option.bind_eq_some_iff.1 hstep with ⟨s, hs, hstep⟩
        rcases Option.bind_eq_some_iff.1 hstep with ⟨t, -, hret⟩
        rcases Option.some_inj.1 hret with rfl
        exact kscanfPrint_inArea hd hallowed hs
  refine ⟨hin, fun args fmt hallowed => ?_⟩
  rcases kprintf_inArea hin hallowed with ⟨s, hs, -⟩
  rw [displayStep, hs]
  rfl

/-- `pid %d: %s` and a carriage return, a new line, then `a`, shift, `B`, backspace. -/
theorem screen_inArea_typing : ∃ d, Run displayStep DisplayAllowed (Display.start fun _ => 0)
      [.kprintf ⟨fun k => BitVec.ofNat 64 (40 + k), fun _ => [115, 104]⟩
        [112, 105, 100, 32, 37, 100, 58, 32, 37, 115, 13, 10], .key 30, .key 42, .key 48,
        .key 14] d ∧
    InArea d.screen := by
  have hreplay : (replay displayStep DisplayAllowed
      [.kprintf ⟨fun k => BitVec.ofNat 64 (40 + k), fun _ => [115, 104]⟩
        [112, 105, 100, 32, 37, 100, 58, 32, 37, 115, 13, 10], .key 30, .key 42, .key 48, .key 14]
      (Display.start fun _ => 0)).isSome = true := by
    decide +kernel
  rcases Option.isSome_iff_exists.1 hreplay with ⟨d, hd⟩
  have hrun := run_of_replay hd
  exact ⟨d, hrun, (screen_inArea hrun).1⟩

/-- Backspace on the empty screen leaves the cursor in front of it. -/
theorem not_screen_inArea :
    ¬ ∀ es d, Run displayStep (fun _ _ => True) (Display.start fun _ => 0) es d →
      InArea d.screen := by
  intro h
  have hreplay : (replay displayStep (fun _ _ => True) [.key 14] (Display.start fun _ => 0)).map
      (fun d => d.screen.outputstring) = some (-2) := by
    decide +kernel
  rcases Option.map_eq_some_iff.1 hreplay with ⟨d, hd, hcursor⟩
  have hlow := (h _ d (run_of_replay hd)).low
  rw [hcursor] at hlow
  exact absurd hlow (by decide)

end Keyboard

end OswpKernel
