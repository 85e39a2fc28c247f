import OswpKernel.Terminal.Lines
import OswpKernel.Terminal.Typing
import OswpKernel.Timer.Clock

/-!
# Console — what is on the screen is what the reader gets

`kscanf` keeps the typed line twice: in `terminal_buf`, where `check_for_ip` takes it, and as the
characters it prints.  `Console` has both, with the other writers of the screen, `kprintf` and the
clock of the timer interrupt.

`console_echoes`: under the conditions under which the buffer is the edited line, the characters in
front of the cursor are that line, through edits, scrolling and timer interrupts, and a poll gets
what stands on the screen where Enter was pressed.
-/

namespace OswpKernel

namespace Keyboard

open Execution
open Timer (Clock)

/-! ## The console -/

structure Console where
  display : Display
  clock : Clock
  /-- What `check_for_ip` has returned so far. -/
  results : List (List Char × Int)

namespace Console

variable (c : Console)

abbrev screen : Screen := c.display.screen

abbrev terminal : Terminal := c.display.terminal

/-- `interrupt0`: the clock writes eight characters into the last row. -/
def interrupt0 : Option Console :=
  (Clock.interrupt0 { c.clock with video := c.screen.mem }).map fun clock =>
    { c with
      display := { c.display with screen := { c.screen with
        mem := clock.video
        written := (List.range 8).map (fun k : Nat => 0xf90 + 2 * (k : Int)) ++ c.screen.written } }
      clock := clock }

end Console

inductive ConsoleEvent
  | key (keyscancode : UInt8)
  | poll
  | kprintf (args : Arguments) (fmt : List UInt8)
  | interrupt0

def consoleStep (c : Console) : ConsoleEvent → Option Console
  | .key keyscancode => (displayStep c.display (.key keyscancode)).map fun d =>
      { c with display := d }
  | .poll =>
      let (result, t) := c.terminal.checkForIp 0
      some { c with
        display := { c.display with terminal := t }
        results := c.results ++ result.toList }
  | .kprintf args fmt => (displayStep c.display (.kprintf args fmt)).map fun d =>
      { c with display := d }
  | .interrupt0 => c.interrupt0

/-- Keys and polls as for `lines_delivered`, backspace in a line with characters among the keys;
other output comes when no line is begun, and stays on the screen. -/
def ConsoleAllowed (c : Console) : ConsoleEvent → Prop
  | .key keyscancode => Regular c.terminal.editor keyscancode ∧
      (Writes keyscancode → c.terminal.line.length < 1024 ∧ ¬ Complete c.terminal.line)
  | .poll => c.terminal.line = [] → c.terminal.mem (c.terminal.getTerminalSize - 1) ≠ '\n'
  | .kprintf args fmt => c.terminal.line = [] ∧ CallOk args fmt ⟨c.screen, 1, 2⟩
  | .interrupt0 => True

instance (c : Console) : (e : ConsoleEvent) → Decidable (ConsoleAllowed c e)
  | .key _ => inferInstanceAs (Decidable (_ ∧ (_ → _)))
  | .poll => inferInstanceAs (Decidable (_ → _))
  | .kprintf _ _ => inferInstanceAs (Decidable (_ ∧ _))
  | .interrupt0 => inferInstanceAs (Decidable True)

/-- The screen and the page of the buffer as the kernel finds them. -/
def Console.start (page : Int → UInt8) (buf : Int → Char) : Console :=
  ⟨⟨⟨page, 0, []⟩, Terminal.initializeKeyboardBuffer buf⟩, Timer.boot page, []⟩

/-! ## Text in front of a place -/

/-- The text stands in the cells in front of `place`. -/
structure Spells (mem : Int → UInt8) (place : Int) (text : List Char) : Prop where
  room : 2 * (text.length : Int) ≤ place
  cells : ∀ (k : Nat) c, text.reverse[k]? = some c → mem (place - 2 * (k + 1)) = charByte c

variable {mem mem' : Int → UInt8} {place : Int} {text body line : List Char} {ch : Char}
  {s s' : Screen} {t t' : Terminal} {e : Editor} {c c' : Console} {code : UInt8}

theorem spells_nil (hplace : 0 ≤ place) : Spells mem place [] :=
  ⟨by simpa using hplace, fun k c hk => by simp at hk⟩

theorem Spells.congr (h : Spells mem place text)
    (hsame : ∀ a, 0 ≤ a → a < place → mem' a = mem a) : Spells mem' place text := by
  refine ⟨h.room, fun k d hk => ?_⟩
  have hlt : k < text.reverse.length := (List.getElem?_eq_some_iff.1 hk).1
  rw [List.length_reverse] at hlt
  have hroom := h.room
  rw [hsame _ (by omega) (by omega)]
  exact h.cells k d hk

theorem Spells.append (h : Spells mem place text) (hcell : mem place = charByte ch) :
    Spells mem (place + 2) (text ++ [ch]) := by
  refine ⟨?_, fun k d hk => ?_⟩
  · have hroom := h.room
    rw [List.length_append, List.length_singleton]
    omega
  · rw [List.reverse_append, List.reverse_singleton, List.singleton_append] at hk
    cases k with
    | zero =>
        rw [← Option.some_inj.1 hk, ← hcell]
        congr 1
        omega
    | succ k =>
        rw [← h.cells k d hk]
        congr 1
        omega

theorem Spells.dropLast (h : Spells mem place text) (hne : text ≠ []) :
    Spells mem (place - 2) text.dropLast := by
  rcases List.eq_nil_or_concat text with rfl | ⟨front, d, rfl⟩
  · exact absurd rfl hne
  rw [List.concat_eq_append] at h ⊢
  rw [List.dropLast_concat]
  refine ⟨?_, fun k d' hk => ?_⟩
  · have hroom := h.room
    rw [List.length_append, List.length_singleton] at hroom
    omega
  · have hk' : (front ++ [d]).reverse[k + 1]? = some d' := by
      rw [List.reverse_append, List.reverse_singleton, List.singleton_append]
      exact hk
    rw [← h.cells (k + 1) d' hk']
    congr 1
    omega

/-! ## What `kscanf` prints -/

theorem printCharacter_eq (ch : Char) (s : Screen) :
    printCharacter ch s = some (s.typeChar (charByte ch)) := by
  have hbyte : UInt8.ofNat (BitVec.ofNat 64 ch.toNat).toNat = charByte ch := by
    have hlt : ch.toNat < 2 ^ 64 := by
      have h32 := ch.val.toNat_lt
      exact lt_of_lt_of_le h32 (by decide)
    rw [BitVec.toNat_ofNat, Nat.mod_eq_of_lt hlt, charByte]
  rw [printCharacter, kprintf, kprintfLoop, if_pos rfl, ← hbyte]
  rfl

/-- The cursor is at a character of the page. -/
structure Placed (s : Screen) : Prop where
  low : 0 ≤ s.outputstring
  even : 2 ∣ s.outputstring

theorem scroll_cursor (s : Screen) : s.scroll.outputstring =
    if 160 * 21 ≤ s.outputstring then 160 * 20 else s.outputstring := by
  rw [Screen.scroll]
  split_ifs <;> rfl

theorem Placed.scroll (h : Placed s) : Placed s.scroll ∧ s.scroll.outputstring < 160 * 21 := by
  have hlow := h.low
  have heven := h.even
  have hcursor := scroll_cursor s
  refine ⟨⟨?_, ?_⟩, ?_⟩
  all_goals
    rw [hcursor]
    split_ifs <;> omega

theorem scroll_mem (hend : 160 * 21 ≤ s.outputstring) {a : Int} (hlow : 0 ≤ a)
    (hhigh : a < 160 * 21) : s.scroll.mem a = s.mem (a + 160) := by
  have hmem : s.scroll.mem a =
      if 0 ≤ a ∧ a < 160 * 21 then s.mem (a + 160) else s.mem a := by
    rw [Screen.scroll, if_pos hend]
  rw [hmem, if_pos ⟨hlow, hhigh⟩]

/-- The test for the end of the page moves the text up with the page. -/
theorem Spells.scroll (h : Spells s.mem s.outputstring text) (hs : Placed s)
    (hfits : text ≠ [] → s.outputstring ≤ 160 * 21) (hlength : text.length ≤ 1024) :
    Spells s.scroll.mem s.scroll.outputstring text := by
  by_cases hend : 160 * 21 ≤ s.outputstring
  · by_cases hnil : text = []
    · rw [hnil]
      exact spells_nil hs.scroll.1.low
    · -- the cursor is right behind the page, so it goes up as far as the text
      have hfull : s.outputstring = 160 * 21 := le_antisymm (hfits hnil) hend
      have hcursor : s.scroll.outputstring = 160 * 20 := by rw [scroll_cursor, if_pos hend]
      rw [hcursor]
      refine ⟨by omega, fun k d hk => ?_⟩
      have hlt : k < text.reverse.length := (List.getElem?_eq_some_iff.1 hk).1
      rw [List.length_reverse] at hlt
      have hcell := h.cells k d hk
      rw [hfull] at hcell
      rw [scroll_mem hend (by omega) (by omega), ← hcell]
      exact congrArg s.mem (by omega)
  · rw [scroll_of_room (not_le.1 hend)]
    exact h

theorem Placed.typeChar (h : Placed s) (b : UInt8) :
    Placed (s.typeChar b) ∧ (s.typeChar b).outputstring ≤ 160 * 21 := by
  rcases h.scroll with ⟨⟨hlow, heven⟩, hend⟩
  refine ⟨⟨?_, ?_⟩, ?_⟩
  all_goals
    rw [typeChar_cursor]
    omega

theorem Spells.typeChar (h : Spells s.mem s.outputstring text) (hs : Placed s)
    (hfits : text ≠ [] → s.outputstring ≤ 160 * 21) (hlength : text.length ≤ 1024) (ch : Char) :
    Spells (s.typeChar (charByte ch)).mem (s.typeChar (charByte ch)).outputstring
      (text ++ [ch]) := by
  rw [typeChar_cursor]
  refine Spells.append ((h.scroll hs hfits hlength).congr fun a _ ha => ?_) ?_
  · rw [typeChar_mem, if_neg (by omega), if_neg (by omega)]
  · rw [typeChar_mem, if_neg (by omega), if_pos rfl]

/-! ## The other output -/

/-- The cursor and the length that a carriage return goes back by. -/
def EvenPrinting (p : Printing) : Prop := 2 ∣ p.screen.outputstring ∧ 2 ∣ p.length

theorem EvenPrinting.scroll {p : Printing} (h : EvenPrinting p) : EvenPrinting p.scroll := by
  have hcursor := h.1
  refine ⟨?_, h.2⟩
  change 2 ∣ p.screen.scroll.outputstring
  rw [scroll_cursor]
  split_ifs <;> omega

theorem EvenPrinting.characters {p : Printing} (h : EvenPrinting p) (cs : List UInt8) :
    EvenPrinting (p.characters cs) := by
  rcases h with ⟨hcursor, hlength⟩
  refine ⟨?_, ?_⟩
  · rw [Printing.characters]
    simp only [Screen.move_outputstring, putString_outputstring]
    omega
  · rw [Printing.characters]
    dsimp only
    omega

theorem EvenPrinting.number {p : Printing} (h : EvenPrinting p) (isZero : Bool)
    (cs : List UInt8) : EvenPrinting (p.number isZero cs) := by
  rw [Printing.number]
  split_ifs
  · exact h
  · exact h.characters cs

theorem EvenPrinting.next {p : Printing} (h : EvenPrinting p) : EvenPrinting p.next := by
  rcases h with ⟨hcursor, hlength⟩
  refine ⟨?_, ?_⟩
  · change 2 ∣ p.screen.outputstring + 2
    omega
  · change 2 ∣ p.length + 2
    omega

theorem evenPrinting_conversionTurn {p : Printing} (h : EvenPrinting p) (args : Arguments)
    (b : UInt8) : EvenPrinting (conversionTurn args b p) := by
  have hstart : EvenPrinting { p.scroll with noofarg := p.noofarg + 1 } := h.scroll
  rw [conversionTurn, Printing.conversion]
  dsimp only
  split_ifs
  · exact (hstart.characters _).next
  · exact EvenPrinting.next hstart
  · exact (hstart.number _ _).next
  · refine EvenPrinting.next (EvenPrinting.number ⟨?_, ?_⟩ _ _)
    · have hcursor : 2 ∣ p.scroll.screen.outputstring := hstart.1
      change 2 ∣ p.scroll.screen.outputstring + 2 + 2
      omega
    · have hlength : 2 ∣ p.length := hstart.2
      change 2 ∣ p.length + 4
      omega
  · exact (hstart.number _ _).next
  · exact hstart.next

theorem evenPrinting_plainTurn {p : Printing} (h : EvenPrinting p) (b : UInt8) :
    EvenPrinting (plainTurn b p) := by
  rcases h.scroll with ⟨hcursor, hlength⟩
  have hlength' : 2 ∣ p.length := hlength
  rw [plainTurn, Printing.plain]
  dsimp only
  split_ifs
  · -- the remainder of an even address is even
    refine EvenPrinting.next ⟨?_, hlength⟩
    simp only [Screen.move_outputstring, BitVec.toNat_ofInt]
    omega
  all_goals
    refine EvenPrinting.next ⟨?_, hlength⟩
    simp only [Screen.move_outputstring, Screen.store_outputstring, Printing.scroll_length]
    omega

theorem kprintf_even {args : Arguments} {fmt : List UInt8} (h : 2 ∣ s.outputstring)
    (hcall : kprintf args fmt s = some s') : 2 ∣ s'.outputstring := by
  rcases Option.map_eq_some_iff.1 hcall with ⟨p, hloop, rfl⟩
  have hloopEven : ∀ (fmt : List UInt8) (p p' : Printing), EvenPrinting p →
      kprintfLoop args fmt p = some p' → EvenPrinting p' := by
    intro fmt p p' hp hrun
    induction fmt, p using kprintfLoop.induct args with
    | case1 p =>
        cases hrun
        exact hp
    | case2 p => simp [kprintfLoop] at hrun
    | case3 p d ds ih =>
        rw [kprintfLoop, if_pos rfl] at hrun
        exact ih (evenPrinting_conversionTurn hp args d) hrun
    | case4 b cs p hb ih =>
        rw [kprintfLoop_plain hb] at hrun
        exact ih (evenPrinting_plainTurn hp b) hrun
  exact (hloopEven fmt ⟨s, 1, 2⟩ p ⟨h, dvd_rfl⟩ hloop).1

/-! ## The line on the screen -/

/-- The line is in front of the cursor; one that is complete is in front of the place in the row
above where Enter was pressed. -/
structure Echoes (s : Screen) (line body : List Char) (place : Int) : Prop where
  spells : Spells s.mem place body
  oneLine : '\n' ∉ body
  fits : body ≠ [] → place ≤ 160 * 21
  cursor : line = body ∧ place = s.outputstring ∨
    line = body ++ ['\n'] ∧ place < s.outputstring ∧ s.outputstring ≤ place + 160

theorem Echoes.at_cursor (h : Echoes s line body place) (hopen : ¬ Complete line) :
    Echoes s line line s.outputstring := by
  rcases h.cursor with ⟨hline, hplace⟩ | ⟨hline, -, -⟩
  · subst hline hplace
    exact h
  · exact absurd (hline ▸ List.getLast?_concat) hopen

theorem echoes_nil (hplace : 0 ≤ s.outputstring) : Echoes s [] [] s.outputstring :=
  ⟨spells_nil hplace, List.not_mem_nil, fun h => absurd rfl h, Or.inl ⟨rfl, rfl⟩⟩

/-- A character is echoed behind the others. -/
theorem Echoes.typeChar (h : Echoes s line line s.outputstring) (hs : Placed s)
    (hlength : line.length ≤ 1024) (hch : ch ≠ '\n') :
    Echoes (s.typeChar (charByte ch)) (line ++ [ch]) (line ++ [ch])
      (s.typeChar (charByte ch)).outputstring where
  spells := h.spells.typeChar hs h.fits hlength ch
  oneLine := by
    rw [List.mem_append, List.mem_singleton]
    rintro (hmem | heq)
    · exact h.oneLine hmem
    · exact hch heq.symm
  fits := fun _ => (hs.typeChar _).2
  cursor := Or.inl ⟨rfl, rfl⟩

/-- Backspace: a blank in the last cell, and the cursor on it. -/
theorem kscanfPrint_backspace (hroom : 2 ≤ s.outputstring) (hend : s.outputstring ≤ 160 * 21) :
    ∃ s', kscanfPrint t 14 s = some s' ∧ s'.outputstring = s.outputstring - 2 ∧
      ∀ a, a < s.outputstring - 2 → s'.mem a = s.mem a := by
  have hscroll : (s.move (-2)).scroll = s.move (-2) := by
    refine scroll_of_room ?_
    rw [Screen.move_outputstring]
    omega
  have hprint : kprintf (oneCharacter nul) [32] (s.move (-2)) =
      some ((((s.move (-2)).scroll.store 32).move 2).store 0) := rfl
  refine ⟨{ (((s.move (-2)).scroll.store 32).move 2).store 0 with
    outputstring := s.outputstring - 2 }, ?_, rfl, fun a ha => ?_⟩
  · rw [kscanfPrint, if_pos (by decide), if_pos rfl, hprint, Option.map_some]
  · rw [hscroll]
    change Function.update (Function.update s.mem (s.outputstring + -2) 32)
      (s.outputstring + -2 + 2) 0 a = _
    rw [Function.update_of_ne (by omega), Function.update_of_ne (by omega)]

/-- Enter: the cursor goes to the start of the next row. -/
theorem kscanfPrint_enter (hs : Placed s) :
    ∃ s', kscanfPrint t 28 s = some s' ∧ Placed s' ∧ s.scroll.outputstring < s'.outputstring ∧
      s'.outputstring ≤ s.scroll.outputstring + 160 ∧
      ∀ a, a < s.scroll.outputstring → s'.mem a = s.scroll.mem a := by
  rcases hs.scroll with ⟨⟨hlow, heven⟩, hend⟩
  have hword : (BitVec.ofInt 64 s.scroll.outputstring).toNat = s.scroll.outputstring.toNat := by
    rw [BitVec.toNat_ofInt]
    omega
  let s₁ : Screen := ((s.scroll.move
    (-(((BitVec.ofInt 64 s.scroll.outputstring).toNat % 160 : Nat) + 2))).move 160).move 2
  have hcursor : s₁.outputstring =
      s.scroll.outputstring - (s.scroll.outputstring.toNat % 160 : Nat) + 160 := by
    simp only [s₁, Screen.move_outputstring, hword]
    omega
  have hprint : kscanfPrint t 28 s = some (s₁.store 0) := rfl
  refine ⟨s₁.store 0, hprint, ⟨?_, ?_⟩, ?_, ?_, fun a ha => ?_⟩
  · rw [Screen.store_outputstring, hcursor]
    omega
  · rw [Screen.store_outputstring, hcursor]
    omega
  · rw [Screen.store_outputstring, hcursor]
    omega
  · rw [Screen.store_outputstring, hcursor]
    omega
  · change Function.update s.scroll.mem s₁.outputstring 0 a = _
    rw [Function.update_of_ne (by rw [hcursor]; omega)]

/-- A key of the tables prints what it stores. -/
theorem kscanfPrint_key (hflags : t.controlflag = e.flags) (hdown : ¬ Release code)
    (hmodifier : ¬ Modifier code) (h14 : code ≠ 14) (h28 : code ≠ 28) (hcode : code.toNat < 100)
    (s : Screen) :
    kscanfPrint t code s = some
      ((if e.control then s.typeChar (charByte '^') else s).typeChar
        (charByte (e.character code))) := by
  have hmodifier' : ¬ (code = 58 ∨ code = 42 ∨ code = 54 ∨ code = 29) := hmodifier
  rw [kscanfPrint, if_pos (not_not.1 hdown), if_neg h14, if_neg hmodifier', if_neg h28, hflags,
    Editor.character]
  by_cases hcontrol : e.control = true
  · rw [if_pos ((flags_control e).2 hcontrol), printCharacter_eq, getElem?_table rfl hcode]
    simp only [hcontrol, if_true]
    exact printCharacter_eq _ _
  · rw [if_neg fun hflag => hcontrol ((flags_control e).1 hflag)]
    have hupper : (e.flags &&& 0x02 ≠ 0 ∨ e.flags &&& 0x01 ≠ 0) ↔
        (e.shift = true ∨ e.caps = true) :=
      or_congr (flags_shift e) (flags_caps e)
    simp only [if_neg hcontrol, hupper]
    split_ifs
    · rw [getElem?_table rfl hcode]
      exact printCharacter_eq _ _
    · rw [getElem?_table rfl hcode]
      exact printCharacter_eq _ _

/-- Only Enter has a newline. -/
theorem character_ne_newline (hcode : code.toNat < 100) (h28 : code ≠ 28) (e : Editor) :
    e.character code ≠ '\n' := by
  have htables : ∀ i < 100, i ≠ 28 → scantoCchar.getD i nul ≠ '\n' ∧
      scantoUchar.getD i nul ≠ '\n' ∧ scantochar.getD i nul ≠ '\n' := by decide
  have hne : code.toNat ≠ 28 := fun heq => h28 (UInt8.toNat_inj.1 heq)
  rcases htables code.toNat hcode hne with ⟨hcontrol, hupper, hplain⟩
  rw [Editor.character]
  split_ifs
  · exact hcontrol
  · exact hupper
  · exact hplain

/-! ## One event -/

/-- The state of the console, over the editor that the buffer follows. -/
structure Kept (c : Console) (e : Editor) : Prop where
  tracks : Tracks c.terminal e
  terminated : e.line ≠ [] → Terminated c.terminal e.line
  length : e.line.length ≤ 1024
  inArea : InArea c.screen
  even : 2 ∣ c.screen.outputstring
  echoes : ∃ body place, Echoes c.screen e.line body place
  clock : ∃ n, Timer.Keeps n c.clock

theorem Kept.placed (h : Kept c e) : Placed c.screen := ⟨h.inArea.low, h.even⟩

/-- What a regular key that prints a character does to line and screen. -/
theorem echoes_key (htracks : Tracks t e) (hregular : Regular e code) (hwrites : Writes code)
    (h14 : code ≠ 14) (h28 : code ≠ 28) (hs : Placed s) (hlength : e.line.length ≤ 1024)
    (h : Echoes s e.line e.line s.outputstring) :
    ∃ s', kscanfPrint t code s = some s' ∧ Placed s' ∧
      Echoes s' (e.press code).line (e.press code).line s'.outputstring := by
  rcases hwrites with ⟨hdown, hmodifier⟩
  have hkey : code.toNat < 100 ∧
      if e.character code = nul then e.line = [] else e.control = false := by
    rcases hregular with h' | h' | h' | ⟨h', -⟩ | ⟨-, h'⟩
    · exact absurd h' hdown
    · exact absurd h' hmodifier
    · exact absurd h' h28
    · exact absurd h' h14
    · exact h'
  rcases not_or.1 hmodifier with ⟨h58, hmodifier'⟩
  rcases not_or.1 hmodifier' with ⟨h42, hmodifier''⟩
  rcases not_or.1 hmodifier'' with ⟨h54, h29⟩
  have hline : (e.press code).line = e.line ++ e.typing (e.character code) := by
    rw [Editor.press, if_neg hdown, if_neg h58, if_neg (not_or.2 ⟨h42, h54⟩), if_neg h29,
      if_neg h14, if_neg h28]
  refine ⟨_, kscanfPrint_key htracks.flags hdown hmodifier h14 h28 hkey.1 s, ?_, ?_⟩
  · split_ifs
    · exact ((hs.typeChar _).1.typeChar _).1
    · exact (hs.typeChar _).1
  · rw [hline, Editor.typing]
    by_cases hnul : e.character code = nul
    · rw [if_pos hnul] at hkey
      rw [if_pos hnul, hkey.2]
      refine echoes_nil ?_
      split_ifs
      · exact ((hs.typeChar _).1.typeChar _).1.low
      · exact (hs.typeChar _).1.low
    · rw [if_neg hnul] at hkey
      rw [if_neg hnul, hkey.2, if_neg Bool.false_ne_true, if_neg Bool.false_ne_true]
      exact h.typeChar hs hlength (character_ne_newline hkey.1 h28 e)

/-- Backspace takes the last character off the screen. -/
theorem echoes_backspace (hs : Placed s) (hne : line ≠ []) (h : Echoes s line line s.outputstring) :
    ∃ s', kscanfPrint t 14 s = some s' ∧ Placed s' ∧
      Echoes s' line.dropLast line.dropLast s'.outputstring := by
  have hpos : 0 < line.length := List.length_pos_iff.2 hne
  have hroom := h.spells.room
  have hend := h.fits hne
  have heven := hs.even
  rcases kscanfPrint_backspace (t := t) (s := s) (by omega) hend with ⟨s', hprint, hcursor, hsame⟩
  refine ⟨s', hprint, ⟨by omega, by omega⟩, ?_, ?_, fun _ => by omega, Or.inl ⟨rfl, rfl⟩⟩
  · rw [hcursor]
    exact (h.spells.dropLast hne).congr fun a _ ha => hsame a ha
  · exact fun hmem => h.oneLine (List.mem_of_mem_dropLast hmem)

/-- Enter leaves the line where it is, in the row above the cursor. -/
theorem echoes_enter (hs : Placed s) (hlength : line.length ≤ 1024)
    (h : Echoes s line line s.outputstring) :
    ∃ s', kscanfPrint t 28 s = some s' ∧ Placed s' ∧
      Echoes s' (line ++ ['\n']) line s.scroll.outputstring := by
  rcases kscanfPrint_enter (t := t) hs with ⟨s', hprint, hs', hlow, hhigh, hsame⟩
  refine ⟨s', hprint, hs', ?_, h.oneLine, fun _ => hs.scroll.2.le, Or.inr ⟨rfl, hlow, hhigh⟩⟩
  exact (h.spells.scroll hs h.fits hlength).congr fun a _ ha => hsame a ha

theorem displayStep_key {d : Display} (hprint : kscanfPrint d.terminal code d.screen = some s')
    (hkey : d.terminal.kscanf code = some t') : displayStep d (.key code) = some ⟨s', t'⟩ := by
  rw [displayStep, hprint, hkey]
  rfl

/-- The keys that leave the line leave the screen as well. -/
theorem kscanfPrint_of_not_writes (h : ¬ Writes code) (t : Terminal) (s : Screen) :
    kscanfPrint t code s = some s := by
  rw [kscanfPrint]
  by_cases hdown : code &&& 0x80 = 0
  · have hmodifier : Modifier code := not_not.1 fun hnot => h ⟨not_not.2 hdown, hnot⟩
    have h14 : code ≠ 14 := by
      rintro rfl
      exact absurd hmodifier (by decide)
    rw [if_pos hdown, if_neg h14]
    exact if_pos hmodifier
  · rw [if_neg hdown]

/-- What a key that writes does to line and screen. -/
theorem Kept.print (h : Kept c e) (hregular : Regular e code) (hwrites : Writes code)
    (hopen : ¬ Complete e.line) :
    ∃ s', kscanfPrint c.terminal code c.screen = some s' ∧ Placed s' ∧ InArea s' ∧
      ∃ body place, Echoes s' (e.press code).line body place := by
  rcases h.echoes with ⟨body, place, hechoes⟩
  have hecho := hechoes.at_cursor hopen
  by_cases h14 : code = 14
  · subst h14
    have hne : e.line ≠ [] := by
      rcases hregular with h' | h' | h' | ⟨-, hne⟩ | ⟨h', -⟩
      · exact absurd h' hwrites.1
      · exact absurd h' hwrites.2
      · exact absurd h' (by decide)
      · exact hne
      · exact absurd rfl h'
    have hpos : 0 < e.line.length := List.length_pos_iff.2 hne
    have hroom := hecho.spells.room
    rcases echoes_backspace (t := c.terminal) h.placed hne hecho with ⟨s', hprint, hs', hecho'⟩
    exact ⟨s', hprint, hs', kscanfPrint_inArea h.inArea (fun _ => by omega) hprint, _, _, hecho'⟩
  by_cases h28 : code = 28
  · subst h28
    rcases echoes_enter (t := c.terminal) h.placed h.length hecho with ⟨s', hprint, hs', hecho'⟩
    exact ⟨s', hprint, hs', kscanfPrint_inArea h.inArea (fun h' => absurd h' h14) hprint, _, _,
      hecho'⟩
  · rcases echoes_key h.tracks hregular hwrites h14 h28 h.placed h.length hecho with
      ⟨s', hprint, hs', hecho'⟩
    exact ⟨s', hprint, hs', kscanfPrint_inArea h.inArea (fun h' => absurd h' h14) hprint, _, _,
      hecho'⟩

theorem Kept.key (h : Kept c e) (hallowed : ConsoleAllowed c (.key code)) :
    ∃ c', consoleStep c (.key code) = some c' ∧ Kept c' (e.press code) := by
  rcases hallowed with ⟨hregular, hwrites⟩
  rw [h.tracks.editor] at hregular
  rw [h.tracks.holds.line_eq] at hwrites
  rcases kscanf_step h.tracks hregular fun hw => (hwrites hw).1 with ⟨t', ht', htracks, hend⟩
  by_cases hw : Writes code
  · rcases h.print hregular hw (hwrites hw).2 with ⟨s', hprint, hs', hin, hecho⟩
    refine ⟨⟨⟨s', t'⟩, c.clock, c.results⟩, ?_, htracks, fun _ => hend (.inr hw),
      (press_length_le hregular).trans (hwrites hw).1, hin, hs'.even, hecho, h.clock⟩
    rw [consoleStep, displayStep_key hprint ht', Option.map_some]
  · have hline : (e.press code).line = e.line := press_line_of_not_writes hw
    refine ⟨⟨⟨c.screen, t'⟩, c.clock, c.results⟩, ?_, htracks, fun hne => ?_, ?_, h.inArea, h.even,
      ?_, h.clock⟩
    · rw [consoleStep, displayStep_key (kscanfPrint_of_not_writes hw _ _) ht', Option.map_some]
    · exact hend (.inl (h.terminated (hline ▸ hne)))
    · rw [hline]
      exact h.length
    · rw [hline]
      exact h.echoes

/-- A complete line is what a poll takes. -/
theorem Kept.checkForIp (h : Kept c e) (hcomplete : Complete e.line) :
    c.terminal.checkForIp 0 = (some (asResult e.line), c.terminal.reset) := by
  have hne : e.line ≠ [] := by
    intro hnil
    rw [hnil] at hcomplete
    cases hcomplete
  have hsize := getTerminalSize_eq h.tracks.holds (h.terminated hne) h.length
  have hlast : c.terminal.mem ((e.line.length : Nat) - 1) = '\n' :=
    Option.some_inj.1 ((lastCharacter h.tracks.holds hne).symm.trans hcomplete)
  simp only [Terminal.checkForIp, hsize, if_pos hlast, if_true, firstCharacters_eq h.tracks.holds]
  rfl

theorem Kept.poll (h : Kept c e) (hallowed : ConsoleAllowed c .poll) :
    ∃ c' e', consoleStep c .poll = some c' ∧ Kept c' e' := by
  rw [ConsoleAllowed, h.tracks.holds.line_eq] at hallowed
  by_cases hcomplete : Complete e.line
  · refine ⟨⟨⟨c.screen, c.terminal.reset⟩, c.clock, c.results ++ [asResult e.line]⟩,
      { e with line := [] }, ?_, ⟨(holds_reset _).1, h.tracks.flags⟩, fun hne => absurd rfl hne,
      Nat.zero_le _, h.inArea, h.even, ⟨_, _, echoes_nil h.inArea.low⟩, h.clock⟩
    rw [consoleStep, h.checkForIp hcomplete]
    rfl
  · have hlast : c.terminal.mem (c.terminal.getTerminalSize - 1) ≠ '\n' := by
      by_cases hne : e.line = []
      · exact hallowed hne
      · rw [getTerminalSize_eq h.tracks.holds (h.terminated hne) h.length]
        intro hlast
        exact hcomplete ((lastCharacter h.tracks.holds hne).trans (congrArg some hlast))
    have hpoll : c.terminal.checkForIp 0 = (none, c.terminal) := by
      simp only [Terminal.checkForIp, if_neg hlast, if_true]
    refine ⟨c, e, ?_, h⟩
    rw [consoleStep, hpoll]
    simp

theorem Kept.kprintf {args : Arguments} {fmt : List UInt8} (h : Kept c e)
    (hallowed : ConsoleAllowed c (.kprintf args fmt)) :
    ∃ c', consoleStep c (.kprintf args fmt) = some c' ∧ Kept c' e := by
  rcases hallowed with ⟨hline, hok⟩
  rw [h.tracks.holds.line_eq] at hline
  rcases kprintf_inArea h.inArea hok with ⟨s', hprint, hin⟩
  refine ⟨⟨⟨s', c.terminal⟩, c.clock, c.results⟩, ?_, h.tracks, h.terminated, h.length, hin,
    kprintf_even h.even hprint, ⟨[], s'.outputstring, ?_⟩, h.clock⟩
  · rw [consoleStep, displayStep]
    change ((Keyboard.kprintf args fmt c.screen).bind _).map _ = _
    rw [hprint]
    rfl
  · rw [hline]
    exact echoes_nil hin.low

/-- The clock writes behind the text. -/
theorem Kept.interrupt0 (h : Kept c e) :
    ∃ c', consoleStep c .interrupt0 = some c' ∧ Kept c' e := by
  rcases h.clock with ⟨n, hclock⟩
  have hclock' : Timer.Keeps n { c.clock with video := c.screen.mem } :=
    ⟨hclock.hours, hclock.minutes, hclock.seconds, hclock.late, hclock.ticks, hclock.time,
      hclock.tcount⟩
  rcases Timer.keeps_step hclock' with ⟨clock, hstep, hkeeps, text, -, hvideo⟩
  have hstep' : consoleStep c .interrupt0 = some
      ⟨⟨⟨clock.video, c.screen.outputstring,
        (List.range 8).map (fun k : Nat => 0xf90 + 2 * (k : Int)) ++ c.screen.written⟩,
        c.terminal⟩, clock, c.results⟩ := by
    rw [consoleStep, Console.interrupt0, hstep, Option.map_some]
  refine ⟨_, hstep', h.tracks, h.terminated, h.length,
    ⟨h.inArea.low, h.inArea.high, fun a ha => ?_⟩, h.even, ?_, n + 1, hkeeps⟩
  · rcases List.mem_append.1 ha with ha | ha
    · rcases List.mem_map.1 ha with ⟨k, hk, rfl⟩
      rw [List.mem_range] at hk
      omega
    · exact h.inArea.written a ha
  · rcases h.echoes with ⟨body, place, hspells, hline, hfits, hcursor⟩
    refine ⟨body, place, ?_, hline, hfits, hcursor⟩
    by_cases hbody : body = []
    · have hroom := hspells.room
      rw [hbody] at hroom ⊢
      exact spells_nil (by simpa using hroom)
    · have hplace := hfits hbody
      refine hspells.congr fun a _ ha => ?_
      change clock.video a = c.screen.mem a
      rw [hvideo, Timer.putChars_before (by omega)]

theorem Kept.step (h : Kept c e) (event : ConsoleEvent) (hallowed : ConsoleAllowed c event) :
    ∃ c' e', consoleStep c event = some c' ∧ Kept c' e' := by
  cases event with
  | key code => exact (h.key hallowed).imp fun c' h' => ⟨_, h'⟩
  | poll => exact h.poll hallowed
  | kprintf args fmt => exact (h.kprintf hallowed).imp fun c' h' => ⟨_, h'⟩
  | interrupt0 => exact h.interrupt0.imp fun c' h' => ⟨_, h'⟩

/-! ## Every run -/

theorem kept_start (page : Int → UInt8) (buf : Int → Char) :
    Kept (Console.start page buf) Editor.empty where
  tracks := ⟨⟨rfl, rfl, by simp [Editor.empty], by simp [Editor.empty]⟩, rfl⟩
  terminated := fun hne => absurd rfl hne
  length := Nat.zero_le _
  inArea := ⟨le_rfl, by norm_num [Console.start], by simp [Console.start]⟩
  even := dvd_zero 2
  echoes := ⟨[], 0, echoes_nil le_rfl⟩
  clock := ⟨0, Timer.keeps_boot page⟩

theorem kept_of_run {page : Int → UInt8} {buf : Int → Char} {es : List ConsoleEvent}
    (hrun : Run consoleStep ConsoleAllowed (Console.start page buf) es c) : ∃ e, Kept c e := by
  refine hrun.invariant (fun c => ∃ e, Kept c e) ⟨_, kept_start page buf⟩ ?_
  rintro c event c' ⟨e, hkept⟩ hallowed hstep
  rcases hkept.step event hallowed with ⟨c₁, e', hstep', hkept'⟩
  rcases Option.some_inj.1 (hstep.symm.trans hstep')
  exact ⟨e', hkept'⟩

/-- In every state the typed line is the text in front of the cursor, or, when it is complete, in
front of the place where Enter was pressed; a complete line is what the next poll returns, and every
allowed event can be carried out. -/
theorem console_echoes {page : Int → UInt8} {buf : Int → Char} {es : List ConsoleEvent}
    (hrun : Run consoleStep ConsoleAllowed (Console.start page buf) es c) :
    (∃ body place, Echoes c.screen c.terminal.line body place) ∧
      (Complete c.terminal.line →
        (c.terminal.checkForIp 0).1 = some (c.terminal.line, (c.terminal.line.length : Int))) ∧
      ∀ event, ConsoleAllowed c event → (consoleStep c event).isSome := by
  rcases kept_of_run hrun with ⟨e, hkept⟩
  rw [hkept.tracks.holds.line_eq]
  refine ⟨hkept.echoes, fun hcomplete => ?_, fun event hallowed => ?_⟩
  · rw [hkept.checkForIp hcomplete]
    rfl
  · rcases hkept.step event hallowed with ⟨c', e', hstep, -⟩
    rw [hstep]
    rfl

/-- `kprintf` prints a prompt; then shift, `A`, `b`, a timer interrupt, backspace, `c`, Enter and
the poll. -/
theorem console_echoes_prompt : ∃ c, Run consoleStep ConsoleAllowed
      (Console.start (fun _ => 0) fun _ => nul)
      [.kprintf (oneCharacter nul) [62], .key 42, .key 30, .key 48, .interrupt0, .key 14, .key 46,
        .key 28] c ∧
    (c.terminal.checkForIp 0).1 = some (['A', 'c', '\n'], 3) ∧
    ∃ body place, Echoes c.screen c.terminal.line body place := by
  have hreplay : ((replay consoleStep ConsoleAllowed
      [.kprintf (oneCharacter nul) [62], .key 42, .key 30, .key 48, .interrupt0, .key 14, .key 46,
        .key 28] (Console.start (fun _ => 0) fun _ => nul)).map fun c => c.terminal.line) =
      some ['A', 'c', '\n'] := by
    decide +kernel
  rcases Option.map_eq_some_iff.1 hreplay with ⟨c, hc, hline⟩
  have hrun := run_of_replay hc
  rcases console_echoes hrun with ⟨hecho, hpoll, -⟩
  refine ⟨c, hrun, ?_, hecho⟩
  rw [hline] at hpoll
  exact hpoll rfl

end Keyboard

end OswpKernel
