import OswpKernel.Terminal.Keyboard
import OswpKernel.Lib.Execution

/-!
# Lines — the reader of typed lines (`sys/fs.c`)

`check_for_ip` polls the buffer that `kscanf` fills.  With size 0 it takes the whole buffer as soon
as the last character in it is a newline, and clears it.

`Reader` is the terminal with what the polls have returned so far; key presses and polls come in any
order.  `lines_delivered` says that the results are the typed lines as long as no key is typed
behind a line that still waits to be read; `not_lines_delivered` types ahead.
-/

namespace OswpKernel

namespace Keyboard

open Execution

/-! ## `check_for_ip` -/

namespace Terminal

/-- What `kmemcpychar` copies from the buffer. -/
def firstCharacters (t : Terminal) (n : Nat) : List Char :=
    (List.range n).map fun i : Nat => t.mem i

/-- One turn of the loops of `check_for_ip`: what it writes to `ab` and what it returns.  Without a
result the loop goes around again.  In front of an empty string the test reads the byte before the
buffer. -/
def checkForIp (t : Terminal) (sizeIp : Int) : Option (List Char × Int) × Terminal :=
  let size := t.getTerminalSize
  if sizeIp = 0 then
    if t.mem (size - 1) = '\n' then (some (t.firstCharacters size, size), t.reset) else (none, t)
  else if size = sizeIp then (some (t.string.take size ++ [nul], sizeIp), t.reset)
  else (none, t)

/-- The characters that have been stored since the last reset. -/
def line (t : Terminal) : List Char := t.firstCharacters t.size.toNat

/-- The line and the modifiers. -/
def editor (t : Terminal) : Editor where
  line := t.line
  caps := t.controlflag &&& 0x01 ≠ 0
  shift := t.controlflag &&& 0x02 ≠ 0
  control := t.controlflag &&& 0x04 ≠ 0

end Terminal

/-! ## Keys and polls -/

structure Reader where
  terminal : Terminal
  /-- What `check_for_ip` has returned so far. -/
  results : List (List Char × Int)

inductive LineEvent
  | key (keyscancode : UInt8)
  | poll

def readerStep (r : Reader) : LineEvent → Option Reader
  | .key keyscancode => (r.terminal.kscanf keyscancode).map fun t => { r with terminal := t }
  | .poll =>
      let (result, t) := r.terminal.checkForIp 0
      some { terminal := t, results := r.results ++ result.toList }

/-- After `initialize_keyboard_buffer`. -/
def Reader.start (mem : Int → Char) : Reader := ⟨Terminal.initializeKeyboardBuffer mem, []⟩

/-- The line ends in its newline. -/
def Complete (line : List Char) : Prop := line.getLast? = some '\n'

instance (line : List Char) : Decidable (Complete line) := inferInstanceAs (Decidable (_ = _))

/-- The keys are releases, modifiers, Enter and, while ctrl is up, those with scancodes below 100;
one that types no character comes in front of a line.  A key is typed into a line with room for it,
and not behind one that still waits to be read; a poll before the first character of a line finds no
newline. -/
def LineAllowed (r : Reader) : LineEvent → Prop
  | .key keyscancode => Regular r.terminal.editor keyscancode ∧ keyscancode ≠ 14 ∧
      (Writes keyscancode → r.terminal.line.length < 1024 ∧ ¬ Complete r.terminal.line)
  | .poll => r.terminal.line = [] →
      r.terminal.mem (r.terminal.getTerminalSize - 1) ≠ '\n'

instance (r : Reader) : (e : LineEvent) → Decidable (LineAllowed r e)
  | .key _ => inferInstanceAs (Decidable (_ ∧ _ ∧ (_ → _)))
  | .poll => inferInstanceAs (Decidable (_ → _))

/-! ## The typed lines -/

/-- The lines of a text, each with its newline, when `line` has been read of the first one. -/
def linesFrom (line : List Char) : List Char → List (List Char)
  | [] => []
  | c :: cs => if c = '\n' then (line ++ [c]) :: linesFrom [] cs else linesFrom (line ++ [c]) cs

def typedLines (text : List Char) : List (List Char) := linesFrom [] text

def keysOf (es : List LineEvent) : List UInt8 :=
  es.filterMap fun
    | .key keyscancode => some keyscancode
    | .poll => none

/-- All that has been typed. -/
def typedText (es : List LineEvent) : List Char := (Editor.after (keysOf es)).line

/-- A character in a buffer of bytes. -/
def charByte (c : Char) : UInt8 := UInt8.ofNat c.toNat

/-- A result of `check_for_ip`: the line and its length. -/
def asResult (line : List Char) : List Char × Int := (line, line.length)

/-- The line that the next poll takes. -/
def Reader.waiting (r : Reader) : List (List Char × Int) :=
  if Complete r.terminal.line then [asResult r.terminal.line] else []

def IsLine (line : List Char) : Prop := ∃ body, '\n' ∉ body ∧ line = body ++ ['\n']

variable {t t' : Terminal} {e : Editor} {line body rest pending : List Char}
  {lines : List (List Char)} {code : UInt8} {r r' : Reader}

theorem IsLine.complete (h : IsLine line) : Complete line := by
  rcases h with ⟨body, -, rfl⟩
  exact List.getLast?_concat

theorem not_complete (h : '\n' ∉ line) : ¬ Complete line :=
  fun hcomplete => h (List.mem_of_getLast? hcomplete)

theorem linesFrom_line (hbody : '\n' ∉ body) :
    linesFrom line (body ++ '\n' :: rest) = (line ++ body ++ ['\n']) :: linesFrom [] rest := by
  induction body generalizing line with
  | nil => rw [List.append_nil, List.nil_append, linesFrom, if_pos rfl]
  | cons c body ih =>
      have hc : c ≠ '\n' := fun h => hbody (h ▸ List.mem_cons_self)
      rw [List.cons_append, linesFrom, if_neg hc,
        ih fun h => hbody (List.mem_cons_of_mem _ h), List.append_assoc line]
      rfl

theorem linesFrom_eq_nil (hbody : '\n' ∉ body) : linesFrom line body = [] := by
  induction body generalizing line with
  | nil => rfl
  | cons c body ih =>
      have hc : c ≠ '\n' := fun h => hbody (h ▸ List.mem_cons_self)
      rw [linesFrom, if_neg hc, ih fun h => hbody (List.mem_cons_of_mem _ h)]

theorem typedLines_flatten (h : ∀ l ∈ lines, IsLine l) (pending : List Char) :
    typedLines (lines.flatten ++ pending) = lines ++ typedLines pending := by
  induction lines with
  | nil => rfl
  | cons l lines ih =>
      rcases h l List.mem_cons_self with ⟨body, hbody, rfl⟩
      have hrest := ih fun l hl => h l (List.mem_cons_of_mem _ hl)
      calc typedLines (((body ++ ['\n']) :: lines).flatten ++ pending)
          = linesFrom [] (body ++ '\n' :: (lines.flatten ++ pending)) := by
            simp [typedLines]
        _ = (body ++ ['\n']) :: typedLines (lines.flatten ++ pending) := linesFrom_line hbody
        _ = (body ++ ['\n']) :: lines ++ typedLines pending := by rw [hrest, List.cons_append]

/-! ## What a poll sees -/

theorem firstCharacters_eq (h : Holds t line) : t.firstCharacters line.length = line := by
  refine List.ext_getElem? fun i => ?_
  by_cases hi : i < line.length
  · have hchar := h.characters i _ (List.getElem?_eq_getElem hi)
    rw [Terminal.firstCharacters, List.getElem?_map, List.getElem?_range hi, Option.map_some, hchar,
      List.getElem?_eq_getElem hi]
  · rw [List.getElem?_eq_none (not_lt.1 hi), List.getElem?_eq_none]
    simpa [Terminal.firstCharacters] using hi

theorem Holds.line_eq (h : Holds t line) : t.line = line := by
  rw [Terminal.line, h.size, Int.toNat_natCast, firstCharacters_eq h]

theorem Tracks.editor (h : Tracks t e) : t.editor = e := by
  rcases e with ⟨line, caps, shift, control⟩
  simp only [Terminal.editor, h.holds.line_eq, h.flags, flags_caps, flags_shift, flags_control,
    Bool.decide_eq_true]

/-- The string reaches to the end of the line, also of one that fills the buffer. -/
theorem getTerminalSize_eq (h : Holds t line) (hend : Terminated t line)
    (hlength : line.length ≤ 1024) : t.getTerminalSize = line.length := by
  rw [Terminal.getTerminalSize, kstrlength_eq_length]
  rcases Nat.lt_or_eq_of_le hlength with hlt | hfull
  · exact congrArg List.length (h.string hend hlt)
  · have hlong : Terminal.stringFrom t.mem 0 1025 = line :=
      stringFrom_eq (fun i c hi => by simpa using h.characters i c hi) h.printable
        (by rw [Int.zero_add]; exact hend) (by omega)
    -- the terminator lies behind the buffer
    have hcut : ∀ (n : Nat) (start : Int), (Terminal.stringFrom t.mem start (n + 1)).length = n →
        (Terminal.stringFrom t.mem start n).length = n := by
      intro n
      induction n with
      | zero => exact fun _ _ => rfl
      | succ n ih =>
          intro start hn
          rw [Terminal.stringFrom] at hn ⊢
          by_cases hnul : t.mem start = nul
          · rw [if_pos hnul] at hn
            exact absurd hn (Nat.succ_ne_zero n).symm
          · rw [if_neg hnul, List.length_cons] at hn ⊢
            rw [ih (start + 1) (Nat.succ.inj hn)]
    rw [hcut 1024 0 (by rw [hlong, hfull]), hfull]

theorem lastCharacter (h : Holds t line) (hne : line ≠ []) :
    line.getLast? = some (t.mem ((line.length : Nat) - 1)) := by
  have hpos : 0 < line.length := List.length_pos_iff.2 hne
  have hlast : (line)[line.length - 1]? = some (line.getLast hne) := by
    rw [List.getElem?_eq_getElem (by omega), List.getLast_eq_getElem]
  have hchar := h.characters _ _ hlast
  rw [Int.natCast_sub hpos, Int.natCast_one] at hchar
  rw [hchar, List.getLast?_eq_some_getLast hne]

/-! ## One event -/

/-- The line may have come so far: it fits, and a newline is at most at its end. -/
structure Reading (r : Reader) (e : Editor) (lines : List (List Char)) (pending : List Char) :
    Prop where
  tracks : Tracks r.terminal { e with line := pending }
  text : e.line = lines.flatten ++ pending
  results : r.results = lines.map asResult
  lines : ∀ l ∈ lines, IsLine l
  newline : '\n' ∉ pending ∨ IsLine pending
  terminated : pending ≠ [] → Terminated r.terminal pending
  fits : pending.length ≤ 1024

/-- What a key does to the line does not depend on what stands in front of it. -/
theorem press_append (front : List Char) (h14 : code ≠ 14) :
    Editor.press { e with line := front ++ e.line } code =
      { e.press code with line := front ++ (e.press code).line } := by
  simp only [Editor.press, if_neg h14]
  split_ifs
  · rfl
  · rfl
  · rfl
  · rfl
  · simp only [List.append_assoc]
  · rcases hcontrol : e.control <;>
      simp [Editor.typing, Editor.character, Editor.spend, hcontrol, List.append_assoc]

/-- A regular key adds at most one character to the line. -/
theorem press_line (hregular : Regular e code) (h14 : code ≠ 14) :
    ∃ added : List Char, added.length ≤ 1 ∧ (e.press code).line = e.line ++ added := by
  have happend := press_append (e := { e with line := [] }) e.line h14
  rw [List.append_nil] at happend
  refine ⟨_, ?_, congrArg Editor.line happend⟩
  refine press_length_le ?_
  rcases hregular with h | h | h | h | ⟨hne, hcode, h⟩
  · exact .inl h
  · exact .inr (.inl h)
  · exact .inr (.inr (.inl h))
  · exact absurd h.1 h14
  · refine .inr (.inr (.inr (.inr ⟨hne, hcode, ?_⟩)))
    change if e.character code = nul then _ else _
    split_ifs at h ⊢ with hnul
    · rfl
    · exact h

/-- A key that does not write leaves the line. -/
theorem press_line_of_not_writes (h : ¬ Writes code) : (e.press code).line = e.line := by
  rw [Editor.press]
  split_ifs with hrelease h58 hshift h29
  · rfl
  · rfl
  · rfl
  · rfl
  all_goals
    refine absurd ⟨hrelease, ?_⟩ h
    rintro (h' | h' | h' | h')
    · exact h58 h'
    · exact hshift (.inl h')
    · exact hshift (.inr h')
    · exact h29 h'

theorem Reading.key (h : Reading r e lines pending) (hallowed : LineAllowed r (.key code)) :
    ∃ r' pending', readerStep r (.key code) = some r' ∧
      Reading r' (e.press code) lines pending' := by
  rcases hallowed with ⟨hregular, h14, hwrites⟩
  rw [h.tracks.editor] at hregular
  rw [h.tracks.holds.line_eq] at hwrites
  rcases kscanf_step h.tracks hregular fun hw => (hwrites hw).1 with ⟨t', ht', htracks, hend⟩
  let e₁ : Editor := { e with line := pending }
  have he : e = { e₁ with line := lines.flatten ++ e₁.line } := by
    rw [← h.text]
  have hpress : e.press code =
      { e₁.press code with line := lines.flatten ++ (e₁.press code).line } := by
    conv_lhs => rw [he]
    exact press_append _ h14
  refine ⟨_, (e₁.press code).line, by rw [readerStep, ht', Option.map_some], ?_⟩
  refine ⟨?_, ?_, h.results, h.lines, ?_, ?_, ?_⟩
  · rw [hpress]
    exact htracks
  · rw [hpress]
  · by_cases hw : Writes code
    · have hopen : '\n' ∉ pending :=
        h.newline.resolve_right fun hline => (hwrites hw).2 hline.complete
      rcases press_line hregular h14 with ⟨added, hadded, hline⟩
      rw [hline]
      rcases List.length_eq_zero_iff.or List.length_eq_one_iff |>.1
          (Nat.le_one_iff_eq_zero_or_eq_one.1 hadded) with rfl | ⟨c, rfl⟩
      · rw [List.append_nil]
        exact .inl hopen
      · by_cases hc : c = '\n'
        · exact .inr ⟨pending, hopen, by rw [hc]⟩
        · refine .inl fun hmem => ?_
          rcases List.mem_append.1 hmem with hmem | hmem
          · exact hopen hmem
          · exact hc (List.mem_singleton.1 hmem).symm
    · rw [press_line_of_not_writes hw]
      exact h.newline
  · intro hne
    by_cases hw : Writes code
    · exact hend (.inr hw)
    · rw [press_line_of_not_writes hw] at hne
      exact hend (.inl (h.terminated hne))
  · by_cases hw : Writes code
    · exact (press_length_le hregular).trans (hwrites hw).1
    · rw [press_line_of_not_writes hw]
      exact h.fits

theorem Reading.poll (h : Reading r e lines pending) (hallowed : LineAllowed r .poll) :
    ∃ r' lines' pending', readerStep r .poll = some r' ∧ Reading r' e lines' pending' ∧
      '\n' ∉ pending' := by
  rw [LineAllowed, h.tracks.holds.line_eq] at hallowed
  by_cases hcomplete : Complete pending
  · -- the line is taken, and the buffer is cleared
    have hline : IsLine pending := h.newline.resolve_left fun hnot => not_complete hnot hcomplete
    have hne : pending ≠ [] := by
      rintro rfl
      cases hcomplete
    have hsize := getTerminalSize_eq h.tracks.holds (h.terminated hne) h.fits
    have hlast : r.terminal.mem ((pending.length : Nat) - 1) = '\n' :=
      Option.some_inj.1 ((lastCharacter h.tracks.holds hne).symm.trans hcomplete)
    have hpoll : r.terminal.checkForIp 0 = (some (asResult pending), r.terminal.reset) := by
      simp only [Terminal.checkForIp, hsize, if_pos hlast, if_true,
        firstCharacters_eq h.tracks.holds]
      rfl
    refine ⟨_, lines ++ [pending], [], by rw [readerStep, hpoll], ?_, List.not_mem_nil⟩
    refine ⟨⟨(holds_reset _).1, h.tracks.flags⟩, ?_, ?_, ?_, .inl List.not_mem_nil, ?_, ?_⟩
    · simpa using h.text
    · simp [h.results]
    · intro l hl
      rcases List.mem_append.1 hl with hl | hl
      · exact h.lines l hl
      · rw [List.mem_singleton.1 hl]
        exact hline
    · exact fun h => absurd rfl h
    · exact Nat.zero_le _
  · have hopen : '\n' ∉ pending :=
      h.newline.resolve_right fun hline => hcomplete hline.complete
    have hlast : r.terminal.mem (r.terminal.getTerminalSize - 1) ≠ '\n' := by
      by_cases hne : pending = []
      · exact hallowed hne
      · rw [getTerminalSize_eq h.tracks.holds (h.terminated hne) h.fits]
        intro hlast
        exact hcomplete ((lastCharacter h.tracks.holds hne).trans (congrArg some hlast))
    have hpoll : r.terminal.checkForIp 0 = (none, r.terminal) := by
      simp only [Terminal.checkForIp, if_neg hlast, if_true]
    refine ⟨r, lines, pending, ?_, h, hopen⟩
    rw [readerStep, hpoll]
    simp

/-! ## Every order of keys and polls -/

theorem keysOf_key (es : List LineEvent) (code : UInt8) :
    keysOf (es ++ [.key code]) = keysOf es ++ [code] := by
  simp [keysOf]

theorem keysOf_poll (es : List LineEvent) : keysOf (es ++ [.poll]) = keysOf es := by
  simp [keysOf]

theorem reading_start (mem : Int → Char) : Reading (Reader.start mem) Editor.empty [] [] :=
  ⟨⟨⟨rfl, rfl, by simp, by simp⟩, rfl⟩, rfl, rfl, by simp, .inl List.not_mem_nil,
    fun h => absurd rfl h, Nat.zero_le _⟩

theorem reading_of_run {mem : Int → Char} {es : List LineEvent}
    (hrun : Run readerStep LineAllowed (Reader.start mem) es r) :
    ∃ lines pending, Reading r (Editor.after (keysOf es)) lines pending ∧
      (es.getLast? = some .poll → '\n' ∉ pending) := by
  induction hrun with
  | nil => exact ⟨[], [], reading_start mem, fun h => by cases h⟩
  | @snoc es s s' event hrun hallowed hstep ih =>
      rcases ih with ⟨lines, pending, hreading, -⟩
      rw [List.getLast?_concat]
      cases event with
      | key code =>
          rcases hreading.key hallowed with ⟨r', pending', hstep', hreading'⟩
          rcases Option.some_inj.1 (hstep.symm.trans hstep')
          rw [keysOf_key, after_concat]
          exact ⟨lines, pending', hreading', fun h => by cases h⟩
      | poll =>
          rcases hreading.poll hallowed with ⟨r', lines', pending', hstep', hreading', hopen⟩
          rcases Option.some_inj.1 (hstep.symm.trans hstep')
          rw [keysOf_poll]
          exact ⟨lines', pending', hreading', fun _ => hopen⟩

/-- The results are the typed lines, up to one that waits for the next poll; after a poll none
waits, and every allowed event can be carried out. -/
theorem lines_delivered {mem : Int → Char} {es : List LineEvent}
    (hrun : Run readerStep LineAllowed (Reader.start mem) es r) :
    r.results ++ r.waiting = (typedLines (typedText es)).map asResult ∧
      (es.getLast? = some .poll → r.results = (typedLines (typedText es)).map asResult) ∧
      ∀ event, LineAllowed r event → (readerStep r event).isSome := by
  rcases reading_of_run hrun with ⟨lines, pending, hreading, hlast⟩
  have hlines : typedLines (typedText es) = lines ++ typedLines pending := by
    rw [typedText, hreading.text, typedLines_flatten hreading.lines]
  have hopen : '\n' ∉ pending → typedLines pending = [] := fun h => linesFrom_eq_nil h
  refine ⟨?_, fun hpoll => ?_, fun event hallowed => ?_⟩
  · rw [Reader.waiting, hreading.tracks.holds.line_eq, hlines, List.map_append, hreading.results]
    rcases hreading.newline with hnot | ⟨body, hbody, rfl⟩
    · rw [if_neg (not_complete hnot), hopen hnot]
      rfl
    · have hone : typedLines (body ++ ['\n']) = [body ++ ['\n']] := linesFrom_line hbody
      rw [if_pos (IsLine.complete ⟨body, hbody, rfl⟩), hone]
      rfl
  · rw [hlines, hopen (hlast hpoll), List.append_nil, hreading.results]
  · cases event with
    | key code =>
        rcases hreading.key hallowed with ⟨r', pending', hstep, -⟩
        rw [hstep]
        rfl
    | poll =>
        rcases hreading.poll hallowed with ⟨r', lines', pending', hstep, -, -⟩
        rw [hstep]
        rfl

/-- Two lines, each read before the next one is begun; the release of Enter and some idle polls
come in between. -/
theorem lines_delivered_twice : ∃ r, Run readerStep LineAllowed (Reader.start fun _ => nul)
      [.poll, .key 30, .key 28, .key 156, .poll, .poll, .key 42, .key 48, .poll, .key 28, .poll] r ∧
    r.results = [(['a', '\n'], 2), (['B', '\n'], 2)] := by
  have hreplay : (replay readerStep LineAllowed
      [.poll, .key 30, .key 28, .key 156, .poll, .poll, .key 42, .key 48, .poll, .key 28, .poll]
      (Reader.start fun _ => nul)).isSome = true := by
    decide +kernel
  rcases Option.isSome_iff_exists.1 hreplay with ⟨r, hr⟩
  have hrun := run_of_replay hr
  refine ⟨r, hrun, ?_⟩
  rw [(lines_delivered hrun).2.1 rfl]
  decide +kernel

/-- The keys with a character, Enter among them. -/
def Printable (code : UInt8) : Prop := scantochar.getD code.toNat nul ≠ nul

instance (code : UInt8) : Decidable (Printable code) := inferInstanceAs (Decidable (_ ≠ _))

/-- Any key with a character may be pressed at any time. -/
def Presses (_ : Reader) : LineEvent → Prop
  | .key keyscancode => Printable keyscancode
  | .poll => True

instance (r : Reader) : (e : LineEvent) → Decidable (Presses r e)
  | .key _ => inferInstanceAs (Decidable (Printable _))
  | .poll => isTrue trivial

/-- Two lines typed before the first one is read come out as one. -/
theorem not_lines_delivered :
    ¬ ∀ es r, Run readerStep Presses (Reader.start fun _ => nul) es r →
      es.getLast? = some .poll → r.results = (typedLines (typedText es)).map asResult := by
  intro h
  have hreplay : (replay readerStep Presses [.key 30, .key 28, .key 48, .key 28, .poll]
      (Reader.start fun _ => nul)).map Reader.results = some [(['a', '\n', 'b', '\n'], 4)] := by
    decide +kernel
  rcases Option.map_eq_some_iff.1 hreplay with ⟨r, hr, hresults⟩
  have hlines := h _ r (run_of_replay hr) rfl
  rw [hresults] at hlines
  revert hlines
  decide +kernel

end Keyboard

end OswpKernel
