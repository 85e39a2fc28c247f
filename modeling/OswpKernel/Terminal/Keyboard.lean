import Mathlib.Data.List.Basic
import Mathlib.Data.List.Induction
import Mathlib.Order.Lattice
import Mathlib.Logic.Function.Basic
import Mathlib.Tactic.Common
import Mathlib.Tactic.SplitIfs

/-!
# Keyboard — the line buffer behind `kscanf`

The keyboard interrupt hands every scancode to `kscanf` (`kscanf.c`), which edits the line in
`terminal_buf`.  Memory is addressed by the offset from `terminal_buf`, so that an address in front
of the buffer is a negative one; `address_of_buf` is never the null pointer then.  What the branches
print and `key_press`, which nothing reads, are left out.

`Editor` says what a line editor does with the same keys.  `kscanf_edits` follows it as long as no
key without a character is pressed on a line with characters, no key under control, and no backspace
on an empty line; `not_kscanf_edits` presses a function key.
-/

namespace OswpKernel

namespace Keyboard

abbrev nul : Char := '\x00'

/-! ## Scancodes -/

def scantochar : List Char :=
  [nul, nul, '1', '2', '3', '4', '5', '6', '7', '8', '9', '0', '-', '=', nul, nul,
    'q', 'w', 'e', 'r', 't', 'y', 'u', 'i', 'o', 'p', '[', ']', '\n', nul,
    'a', 's', 'd', 'f', 'g', 'h', 'j', 'k', 'l', ';', '\x27', '\x60', nul, '\\', 'z', 'x',
    'c', 'v', 'b', 'n', 'm', ',', '.', '/', nul, nul, nul, ' '] ++ List.replicate 42 nul

def scantoUchar : List Char :=
  [nul, nul, '!', '@', '#', '$', '%', '^', '&', '*', '(', ')', '_', '+', nul, nul,
    'Q', 'W', 'E', 'R', 'T', 'Y', 'U', 'I', 'O', 'P', '\x7b', '\x7d', '\n', nul,
    'A', 'S', 'D', 'F', 'G', 'H', 'J', 'K', 'L', ':', '\x22', '~', nul, '|', 'Z', 'X',
    'C', 'V', 'B', 'N', 'M', '<', '>', '?', nul, nul, nul, ' '] ++ List.replicate 42 nul

def scantoCchar : List Char :=
  [nul, nul, '1', '2', '3', '4', '5', '6', '7', '8', '9', '0', '-', '=', nul, nul,
    'Q', 'W', 'E', 'R', 'T', 'Y', 'U', 'I', 'O', 'P', '[', ']', '\n', nul,
    'A', 'S', 'D', 'F', 'G', 'H', 'J', 'K', 'L', ';', '\x27', '\x60', nul, '\\', 'Z', 'X',
    'C', 'V', 'B', 'N', 'M', ',', '.', '/', nul, nul, nul, ' '] ++ List.replicate 42 nul

example : scantochar.length = 100 ∧ scantoUchar.length = 100 ∧ scantoCchar.length = 100 := by
  decide

/-! ## The buffer -/

structure Terminal where
  /-- Memory around `terminal_buf`, by the offset from it. -/
  mem : Int → Char
  /-- `address_of_buf - terminal_buf`. -/
  address : Int
  size : Int
  controlflag : Nat

namespace Terminal

/-- On a page of any contents: `bump` does not clear it. -/
def initializeKeyboardBuffer (mem : Int → Char) : Terminal :=
  { mem := mem, address := 0, size := 0, controlflag := 0 }

def reset (t : Terminal) : Terminal :=
  { t with mem := fun i => if 0 ≤ i ∧ i < 1024 then nul else t.mem i, address := 0, size := 0 }

def store (t : Terminal) (i : Int) (c : Char) : Terminal :=
  { t with mem := Function.update t.mem i c }

/-- `if (size >= 0) { *address_of_buf = c; *(address_of_buf + 1) = 0; }` -/
def put (t : Terminal) (c : Char) : Terminal :=
  if 0 ≤ t.size then (t.store t.address c).store (t.address + 1) nul else t

def backspace (t : Terminal) : Terminal :=
  { t with
    mem := Function.update t.mem (t.address - 1) nul
    address := t.address - 1 - 1
    size := t.size - 1 - 1 }

@[simp] theorem backspace_address (t : Terminal) : t.backspace.address = t.address - 1 - 1 := rfl

@[simp] theorem backspace_size (t : Terminal) : t.backspace.size = t.size - 1 - 1 := rfl

@[simp] theorem backspace_mem (t : Terminal) :
    t.backspace.mem = Function.update t.mem (t.address - 1) nul :=
  rfl

def caps (t : Terminal) : Terminal :=
  { t with controlflag :=
      if t.controlflag &&& 0x01 ≠ 0 then t.controlflag &&& 0xfe else t.controlflag ||| 0x01 }

/-- `^` under control: the address moves on, the size does not. -/
def prefixed (t : Terminal) : Terminal :=
  if 0 ≤ t.size then { t.store t.address '^' with address := t.address + 1 } else t

/-- A key that the tables translate.  The character under control is stored twice. -/
def key (t : Terminal) (keyscancode : UInt8) : Option Terminal :=
  if t.controlflag &&& 0x04 ≠ 0 then
    scantoCchar[keyscancode.toNat]?.map fun c =>
      ({ t.prefixed.put c with controlflag := t.controlflag &&& 0xfb }).put c
  else if t.controlflag &&& 0x02 ≠ 0 then
    scantoUchar[keyscancode.toNat]?.map fun c =>
      ({ t with controlflag := t.controlflag &&& 0xfd }).put c
  else if t.controlflag &&& 0x01 ≠ 0 then
    scantoUchar[keyscancode.toNat]?.map t.put
  else scantochar[keyscancode.toNat]?.map t.put

/-- The branches of `kscanf` for a key that goes down.  An index behind the tables is no read. -/
def press (t : Terminal) (keyscancode : UInt8) : Option Terminal :=
  if keyscancode = 14 then some t.backspace
  else if keyscancode = 58 then some t.caps
  else if keyscancode = 42 ∨ keyscancode = 54 then
    some { t with controlflag := t.controlflag ||| 0x02 }
  else if keyscancode = 29 then some { t with controlflag := t.controlflag ||| 0x04 }
  else if keyscancode = 28 then scantochar[keyscancode.toNat]?.map t.put
  else t.key keyscancode

/-- The end that all branches but those of the modifiers share. -/
def settle (t : Terminal) : Terminal :=
  if t.size ≠ 1024 ∧ t.mem t.address ≠ nul then
    { t with address := t.address + 1, size := t.size + 1 }
  else t.reset

def kscanf (t : Terminal) (keyscancode : UInt8) : Option Terminal :=
  if keyscancode &&& 0x80 = 0 then
    (t.press keyscancode).map fun t' =>
      if keyscancode ≠ 58 ∧ keyscancode ≠ 42 ∧ keyscancode ≠ 54 ∧ keyscancode ≠ 29 then t'.settle
      else t'
  else some t

/-- The characters from `string` on, up to a terminator, among the next `n`. -/
def stringFrom (mem : Int → Char) (string : Int) : Nat → List Char
  | 0 => []
  | n + 1 => if mem string = nul then [] else mem string :: stringFrom mem (string + 1) n

/-- `kstrlength`, for a terminator among the next `n` characters. -/
def kstrlength (mem : Int → Char) (string : Int) : Nat → Nat
  | 0 => 0
  | n + 1 => if mem string = nul then 0 else kstrlength mem (string + 1) n + 1

/-- No more than the 1024 characters of the page are counted; `kstrlength` would go on behind it. -/
def getTerminalSize (t : Terminal) : Nat := kstrlength t.mem 0 1024

/-- The string in `terminal_buf`. -/
def string (t : Terminal) : List Char := stringFrom t.mem 0 1024

end Terminal

/-- The scancodes one after the other. -/
def typed (t : Terminal) (codes : List UInt8) : Option Terminal := codes.foldlM Terminal.kscanf t

/-! ## The line editor -/

structure Editor where
  line : List Char
  caps : Bool
  shift : Bool
  control : Bool

def Release (code : UInt8) : Prop := code &&& 0x80 ≠ 0

def Modifier (code : UInt8) : Prop := code = 58 ∨ code = 42 ∨ code = 54 ∨ code = 29

instance (code : UInt8) : Decidable (Release code) := inferInstanceAs (Decidable (_ ≠ _))

instance (code : UInt8) : Decidable (Modifier code) := inferInstanceAs (Decidable (_ ∨ _))

namespace Editor

def empty : Editor := { line := [], caps := false, shift := false, control := false }

/-- The character on a key under the modifiers, `nul` if there is none. -/
def character (e : Editor) (code : UInt8) : Char :=
  if e.control then scantoCchar.getD code.toNat nul
  else if e.shift ∨ e.caps then scantoUchar.getD code.toNat nul
  else scantochar.getD code.toNat nul

/-- What a key with the character `c` adds to the line. -/
def typing (e : Editor) (c : Char) : List Char :=
  if c = nul then [] else if e.control then ['^', c] else [c]

/-- Control and shift last for one key. -/
def spend (e : Editor) : Editor :=
  if e.control then { e with control := false } else { e with shift := false }

def press (e : Editor) (code : UInt8) : Editor :=
  if Release code then e
  else if code = 58 then { e with caps := !e.caps }
  else if code = 42 ∨ code = 54 then { e with shift := true }
  else if code = 29 then { e with control := true }
  else if code = 14 then { e with line := e.line.dropLast }
  else if code = 28 then { e with line := e.line ++ ['\n'] }
  else { e.spend with line := e.line ++ e.typing (e.character code) }

/-- The line editor after some scancodes. -/
def after (codes : List UInt8) : Editor := codes.foldl press empty

end Editor

/-! ## The line in memory -/

variable {t t' : Terminal} {e : Editor} {mem : Int → Char} {line : List Char} {c : Char}
  {code : UInt8}

/-- `line` lies at the start of the buffer, and the address and the size are at its end.  The
terminator is not part of this: before the first key the buffer holds what the page held. -/
structure Holds (t : Terminal) (line : List Char) : Prop where
  address : t.address = line.length
  size : t.size = line.length
  characters : ∀ (i : Nat) c, (line)[i]? = some c → t.mem i = c
  printable : nul ∉ line

def Terminated (t : Terminal) (line : List Char) : Prop := t.mem line.length = nul

/-- The flags of an editor as `controlflag` has them. -/
def Editor.flags (e : Editor) : Nat :=
  (if e.caps then 1 else 0) + (if e.shift then 2 else 0) + if e.control then 4 else 0

structure Tracks (t : Terminal) (e : Editor) : Prop where
  holds : Holds t e.line
  flags : t.controlflag = e.flags

theorem stringFrom_eq {start : Int} {n : Nat}
    (hcharacters : ∀ (i : Nat) c, (line)[i]? = some c → mem (start + i) = c) (hline : nul ∉ line)
    (hend : mem (start + line.length) = nul) (hn : line.length < n) :
    Terminal.stringFrom mem start n = line := by
  induction n generalizing start line with
  | zero => exact absurd hn (Nat.not_lt_zero _)
  | succ n ih =>
      cases line with
      | nil =>
          have hstart : mem start = nul := by simpa using hend
          simp [Terminal.stringFrom, hstart]
      | cons c line =>
          have hfirst : mem start = c := by simpa using hcharacters 0 c rfl
          have hc : c ≠ nul := fun h => hline (h ▸ List.mem_cons_self)
          have hrest : Terminal.stringFrom mem (start + 1) n = line := by
            refine ih (fun i d hi => ?_) (fun h => hline (List.mem_cons_of_mem _ h)) ?_ ?_
            · rw [Int.add_assoc, Int.add_comm 1, ← Int.natCast_succ]
              exact hcharacters (i + 1) d hi
            · rw [Int.add_assoc, Int.add_comm 1, ← Int.natCast_succ]
              exact hend
            · exact Nat.lt_of_succ_lt_succ hn
          simp [Terminal.stringFrom, hfirst, hc, hrest]

theorem kstrlength_eq_length (mem : Int → Char) (start : Int) (n : Nat) :
    Terminal.kstrlength mem start n = (Terminal.stringFrom mem start n).length := by
  induction n generalizing start with
  | zero => rfl
  | succ n ih =>
      rw [Terminal.kstrlength, Terminal.stringFrom]
      split_ifs
      · rfl
      · rw [ih, List.length_cons]

theorem Holds.string (h : Holds t line) (hend : Terminated t line) (hlength : line.length < 1024) :
    t.string = line :=
  stringFrom_eq (fun i c hi => by simpa using h.characters i c hi) h.printable
    (by rw [Int.zero_add]; exact hend) hlength

/-! ## The branches -/

theorem put_eq (hsize : 0 ≤ t.size) :
    t.put c = (t.store t.address c).store (t.address + 1) nul :=
  if_pos hsize

theorem put_mem (hsize : 0 ≤ t.size) : (t.put c).mem t.address = c := by
  have hne : t.address ≠ t.address + 1 := by omega
  rw [put_eq hsize]
  simp [Terminal.store, hne]

@[simp] theorem put_address (t : Terminal) (c : Char) : (t.put c).address = t.address := by
  rw [Terminal.put]
  split_ifs <;> rfl

@[simp] theorem put_size (t : Terminal) (c : Char) : (t.put c).size = t.size := by
  rw [Terminal.put]
  split_ifs <;> rfl

theorem Holds.size_nonneg (h : Holds t line) : 0 ≤ t.size := by
  rw [h.size]
  exact Int.natCast_nonneg _

theorem settle_of_nul (h : t.mem t.address = nul) : t.settle = t.reset := by
  rw [Terminal.settle, if_neg]
  exact fun hand => hand.2 h

theorem settle_of_ne (hsize : t.size ≠ 1024) (h : t.mem t.address ≠ nul) :
    t.settle = { t with address := t.address + 1, size := t.size + 1 } :=
  if_pos ⟨hsize, h⟩

@[simp] theorem put_controlflag (t : Terminal) (c : Char) :
    (t.put c).controlflag = t.controlflag := by
  rw [Terminal.put]
  split_ifs <;> rfl

@[simp] theorem prefixed_size (t : Terminal) : t.prefixed.size = t.size := by
  rw [Terminal.prefixed]
  split_ifs <;> rfl

/-- Storing a character and the terminator, then moving on. -/
theorem holds_append (h : Holds t line) (hc : c ≠ nul) (hlength : line.length < 1024) :
    Holds (t.put c).settle (line ++ [c]) ∧ Terminated (t.put c).settle (line ++ [c]) ∧
      (t.put c).settle.controlflag = t.controlflag := by
  have hput : t.put c = (t.store t.address c).store (t.address + 1) nul := put_eq h.size_nonneg
  have hstored : (t.put c).mem t.address = c := put_mem h.size_nonneg
  have hsettle : (t.put c).settle = { t.put c with
      address := t.address + 1, size := t.size + 1 } := by
    rw [settle_of_ne, put_address, put_size]
    · rw [put_size, h.size]
      omega
    · rw [put_address]
      exact hstored.trans_ne hc
  rw [hsettle]
  refine ⟨⟨?_, ?_, ?_, ?_⟩, ?_, ?_⟩
  · simp [h.address]
  · simp [h.size]
  · intro i d hi
    have hle : i < (line ++ [c]).length := (List.getElem?_eq_some_iff.1 hi).1
    rw [List.length_append, List.length_singleton] at hle
    rcases Nat.lt_succ_iff_lt_or_eq.1 hle with hlt | rfl
    · rw [List.getElem?_append_left hlt] at hi
      have hne : (i : Int) ≠ t.address := by rw [h.address]; omega
      have hne' : (i : Int) ≠ t.address + 1 := by rw [h.address]; omega
      simpa [hput, Terminal.store, hne, hne'] using h.characters i d hi
    · have hd : c = d := by simpa using hi
      rw [← h.address, ← hd]
      exact hstored
  · simpa [h.printable] using hc.symm
  · simp [Terminated, hput, Terminal.store, h.address]
  · simp [hput, Terminal.store]

theorem holds_reset (t : Terminal) : Holds t.reset [] ∧ Terminated t.reset [] :=
  ⟨⟨rfl, rfl, by simp, by simp⟩, by simp [Terminated, Terminal.reset]⟩

theorem holds_backspace (h : Holds t line) (hne : line ≠ []) (hlength : line.length < 1024) :
    Holds t.backspace.settle line.dropLast ∧ Terminated t.backspace.settle line.dropLast ∧
      t.backspace.settle.controlflag = t.controlflag := by
  rcases List.eq_nil_or_concat line with rfl | ⟨rest, c, rfl⟩
  · exact absurd rfl hne
  · rw [List.concat_eq_append] at h ⊢
    rw [List.dropLast_concat]
    have haddress : t.address = rest.length + 1 := by simpa using h.address
    have hsize : t.size = rest.length + 1 := by simpa using h.size
    have hprintable : nul ∉ rest := fun hmem => h.printable (List.mem_append_left _ hmem)
    have hfront : ∀ (i : Nat) d, rest[i]? = some d → t.backspace.mem i = d := by
      intro i d hi
      have hlt : i < rest.length := (List.getElem?_eq_some_iff.1 hi).1
      have hi' : (i : Int) ≠ t.address - 1 := by omega
      rw [Terminal.backspace_mem, Function.update_of_ne hi']
      exact h.characters i d (by rw [List.getElem?_append_left hlt, hi])
    have hend : t.backspace.mem rest.length = nul := by
      have hlast : (rest.length : Int) = t.address - 1 := by omega
      rw [Terminal.backspace_mem, hlast, Function.update_self]
    by_cases hbefore : t.backspace.mem t.backspace.address = nul
    · -- no character is left: `address_of_buf` was in front of the buffer
      have hrest : rest = [] := by
        rcases List.eq_nil_or_concat rest with hnil | ⟨front, d, rfl⟩
        · exact hnil
        · rw [List.concat_eq_append] at *
          have hd : t.backspace.mem front.length = d := hfront front.length d (by simp)
          have hat : t.backspace.address = front.length := by
            rw [List.length_append, List.length_singleton] at haddress
            rw [Terminal.backspace_address]
            omega
          rw [hat, hd] at hbefore
          exact absurd (hbefore ▸ by simp) hprintable
      rw [settle_of_nul hbefore, hrest]
      exact ⟨(holds_reset _).1, (holds_reset _).2, rfl⟩
    · have hroom : t.backspace.size ≠ 1024 := by
        rw [List.length_concat] at hlength
        rw [Terminal.backspace_size]
        omega
      rw [settle_of_ne hroom hbefore]
      refine ⟨⟨?_, ?_, hfront, hprintable⟩, hend, rfl⟩
      · change t.address - 1 - 1 + 1 = rest.length
        omega
      · change t.size - 1 - 1 + 1 = rest.length
        omega

/-! ## One scancode -/

/-- The keys `kscanf` treats as an editor does. -/
def Regular (e : Editor) (code : UInt8) : Prop :=
  Release code ∨ Modifier code ∨ code = 28 ∨ (code = 14 ∧ e.line ≠ []) ∨
    (code ≠ 14 ∧ code.toNat < 100 ∧
      if e.character code = nul then e.line = [] else e.control = false)

instance (e : Editor) (code : UInt8) : Decidable (Regular e code) :=
  inferInstanceAs (Decidable (_ ∨ _ ∨ _ ∨ _ ∨ _ ∧ _ ∧ ite _ _ _))

/-- The keys after which the terminator is where the line ends. -/
def Writes (code : UInt8) : Prop := ¬ Release code ∧ ¬ Modifier code

instance (code : UInt8) : Decidable (Writes code) := inferInstanceAs (Decidable (_ ∧ _))

theorem getElem?_table {table : List Char} (htable : table.length = 100)
    (hcode : code.toNat < 100) : table[code.toNat]? = some (table.getD code.toNat nul) := by
  rw [List.getD_eq_getElem?_getD, List.getElem?_eq_getElem (htable ▸ hcode)]
  rfl

theorem flags_control (e : Editor) : e.flags &&& 0x04 ≠ 0 ↔ e.control = true := by
  rcases e with ⟨line, _ | _, _ | _, _ | _⟩ <;> simp [Editor.flags]

theorem flags_shift (e : Editor) : e.flags &&& 0x02 ≠ 0 ↔ e.shift = true := by
  rcases e with ⟨line, _ | _, _ | _, _ | _⟩ <;> simp [Editor.flags]

theorem flags_caps (e : Editor) : e.flags &&& 0x01 ≠ 0 ↔ e.caps = true := by
  rcases e with ⟨line, _ | _, _ | _, _ | _⟩ <;> simp [Editor.flags]

/-- Clearing the bit of a modifier. -/
theorem flags_clear (e : Editor) : e.flags &&& 0xfe = Editor.flags { e with caps := false } ∧
    e.flags &&& 0xfd = Editor.flags { e with shift := false } ∧
    e.flags &&& 0xfb = Editor.flags { e with control := false } := by
  rcases e with ⟨line, _ | _, _ | _, _ | _⟩ <;> simp [Editor.flags]

/-- Setting the bit of a modifier. -/
theorem flags_set (e : Editor) : e.flags ||| 0x01 = Editor.flags { e with caps := true } ∧
    e.flags ||| 0x02 = Editor.flags { e with shift := true } ∧
    e.flags ||| 0x04 = Editor.flags { e with control := true } := by
  rcases e with ⟨line, _ | _, _ | _, _ | _⟩ <;> simp [Editor.flags]

theorem key_control (hflags : t.controlflag = e.flags) (hcode : code.toNat < 100)
    (hcontrol : e.control = true) :
    t.key code = some (({ t.prefixed.put (e.character code) with
      controlflag := e.spend.flags }).put (e.character code)) := by
  have hspend : t.controlflag &&& 0xfb = e.spend.flags := by
    rw [hflags, (flags_clear e).2.2, Editor.spend, if_pos hcontrol]
  rw [Terminal.key, if_pos (hflags ▸ (flags_control e).2 hcontrol), getElem?_table rfl hcode,
    hspend, Editor.character, if_pos hcontrol, Option.map_some]

theorem key_plain (hflags : t.controlflag = e.flags) (hcode : code.toNat < 100)
    (hcontrol : e.control = false) :
    t.key code = some ({ t with controlflag := e.spend.flags }.put (e.character code)) := by
  have hcontrol' : ¬ e.control = true := by simp [hcontrol]
  have hspend : e.spend = { e with shift := false } := if_neg hcontrol'
  rw [Terminal.key, if_neg (hflags ▸ fun hflag => hcontrol' ((flags_control e).1 hflag)), hspend,
    Editor.character, if_neg hcontrol']
  by_cases hshift : e.shift = true
  · rw [if_pos (hflags ▸ (flags_shift e).2 hshift), getElem?_table rfl hcode, if_pos (.inl hshift),
      hflags, (flags_clear e).2.1, Option.map_some]
  · rw [if_neg (hflags ▸ fun hflag => hshift ((flags_shift e).1 hflag))]
    have hsame : { t with controlflag := Editor.flags { e with shift := false } } = t := by
      have hoff : e.shift = false := by simpa using hshift
      rw [← hoff, ← hflags]
    rw [hsame]
    by_cases hcaps : e.caps = true
    · rw [if_pos (hflags ▸ (flags_caps e).2 hcaps), if_pos (.inr hcaps), getElem?_table rfl hcode,
        Option.map_some]
    · rw [if_neg (hflags ▸ fun hflag => hcaps ((flags_caps e).1 hflag)),
        if_neg (not_or.2 ⟨hshift, hcaps⟩), getElem?_table rfl hcode, Option.map_some]

/-- Without a character the key ends in `reset_terminal`, also under control. -/
theorem key_reset (h : Tracks t e) (hcode : code.toNat < 100) (hnul : e.character code = nul) :
    ∃ t', t.key code = some t' ∧ t'.settle = t'.reset ∧ t'.controlflag = e.spend.flags := by
  cases hcontrol : e.control with
  | false =>
      refine ⟨_, key_plain h.flags hcode hcontrol, settle_of_nul ?_, ?_⟩
      · rw [hnul, put_address]
        exact put_mem h.holds.size_nonneg
      · exact put_controlflag _ _
  | true =>
      refine ⟨_, key_control h.flags hcode hcontrol, settle_of_nul ?_, ?_⟩
      · rw [hnul, put_address]
        refine put_mem ?_
        rw [put_size, prefixed_size]
        exact h.holds.size_nonneg
      · exact put_controlflag _ _

/-- One scancode, on a line that leaves room for a character. -/
theorem kscanf_step (h : Tracks t e) (hregular : Regular e code)
    (hlength : Writes code → e.line.length < 1024) :
    ∃ t', t.kscanf code = some t' ∧ Tracks t' (e.press code) ∧
      (Terminated t e.line ∨ Writes code → Terminated t' (e.press code).line) := by
  by_cases hrelease : Release code
  · refine ⟨t, if_neg hrelease, ?_⟩
    rw [Editor.press, if_pos hrelease]
    exact ⟨h, fun hend => hend.resolve_right fun hwrites => hwrites.1 hrelease⟩
  have hdown : code &&& 0x80 = 0 := not_not.1 hrelease
  rw [Terminal.kscanf, if_pos hdown, Editor.press, if_neg hrelease]
  by_cases hmodifier : Modifier code
  · have hend : Terminated t e.line ∨ Writes code → Terminated t e.line :=
      fun hend => hend.resolve_right fun hwrites => hwrites.2 hmodifier
    rcases h with ⟨⟨haddress, hsize, hcharacters, hprintable⟩, hflags⟩
    rcases hmodifier with rfl | rfl | rfl | rfl
    · refine ⟨t.caps, rfl, ⟨⟨haddress, hsize, hcharacters, hprintable⟩, ?_⟩, hend⟩
      change (if t.controlflag &&& 0x01 ≠ 0 then t.controlflag &&& 0xfe else t.controlflag ||| 0x01)
        = Editor.flags { e with caps := !e.caps }
      rw [hflags, (flags_clear e).1, (flags_set e).1]
      by_cases hcaps : e.caps = true
      · rw [if_pos ((flags_caps e).2 hcaps), hcaps, Bool.not_true]
      · rw [if_neg fun hflag => hcaps ((flags_caps e).1 hflag), Bool.eq_false_of_not_eq_true hcaps,
          Bool.not_false]
    · refine ⟨_, rfl, ⟨⟨haddress, hsize, hcharacters, hprintable⟩, ?_⟩, hend⟩
      exact (congrArg (· ||| 0x02) hflags).trans (flags_set e).2.1
    · refine ⟨_, rfl, ⟨⟨haddress, hsize, hcharacters, hprintable⟩, ?_⟩, hend⟩
      exact (congrArg (· ||| 0x02) hflags).trans (flags_set e).2.1
    · refine ⟨_, rfl, ⟨⟨haddress, hsize, hcharacters, hprintable⟩, ?_⟩, hend⟩
      exact (congrArg (· ||| 0x04) hflags).trans (flags_set e).2.2
  · have hroom : e.line.length < 1024 := hlength ⟨hrelease, hmodifier⟩
    rcases not_or.1 hmodifier with ⟨h58, hmodifier'⟩
    rcases not_or.1 hmodifier' with ⟨h42, hmodifier''⟩
    rcases not_or.1 hmodifier'' with ⟨h54, h29⟩
    have hshift : ¬ (code = 42 ∨ code = 54) := not_or.2 ⟨h42, h54⟩
    have htail : code ≠ 58 ∧ code ≠ 42 ∧ code ≠ 54 ∧ code ≠ 29 := ⟨h58, h42, h54, h29⟩
    rw [if_neg h58, if_neg hshift, if_neg h29]
    simp only [if_pos htail]
    by_cases h14 : code = 14
    · subst h14
      have hne : e.line ≠ [] := by
        rcases hregular with h' | h' | h' | ⟨-, hne⟩ | ⟨h', -⟩
        · exact absurd h' hrelease
        · exact absurd h' hmodifier
        · exact absurd h' (by decide)
        · exact hne
        · exact absurd rfl h'
      rcases holds_backspace h.holds hne hroom with ⟨hholds, hend, hflag⟩
      exact ⟨_, rfl, ⟨hholds, hflag.trans h.flags⟩, fun _ => hend⟩
    by_cases h28 : code = 28
    · subst h28
      rcases holds_append h.holds (c := '\n') (by decide) hroom with ⟨hholds, hend, hflag⟩
      exact ⟨_, rfl, ⟨hholds, hflag.trans h.flags⟩, fun _ => hend⟩
    -- what is left are the keys of the tables
    have hkey : code.toNat < 100 ∧
        if e.character code = nul then e.line = [] else e.control = false := by
      rcases hregular with h' | h' | h' | ⟨h', -⟩ | ⟨-, h'⟩
      · exact absurd h' hrelease
      · exact absurd h' hmodifier
      · exact absurd h' h28
      · exact absurd h' h14
      · exact h'
    rw [if_neg h14, if_neg h28, Terminal.press, if_neg h14, if_neg h58, if_neg hshift, if_neg h29,
      if_neg h28]
    by_cases hnul : e.character code = nul
    · rw [if_pos hnul] at hkey
      -- a key without a character resets the buffer, which is the line only if nothing was typed
      rcases key_reset h hkey.1 hnul with ⟨t', hpress, hsettle, hflag⟩
      rw [hpress, Option.map_some, hsettle, Editor.typing, if_pos hnul, List.append_nil, hkey.2]
      exact ⟨_, rfl, ⟨(holds_reset t').1, hflag⟩, fun _ => (holds_reset t').2⟩
    · rw [if_neg hnul] at hkey
      have hholds : Holds { t with controlflag := e.spend.flags } e.line :=
        ⟨h.holds.1, h.holds.2, h.holds.3, h.holds.4⟩
      rcases holds_append hholds hnul hroom with ⟨hholds', hend, hflag⟩
      rw [key_plain h.flags hkey.1 hkey.2, Option.map_some, Editor.typing, if_neg hnul, hkey.2,
        if_neg Bool.false_ne_true]
      exact ⟨_, rfl, ⟨hholds', hflag⟩, fun _ => hend⟩

/-- A regular key adds at most one character. -/
theorem press_length_le (hregular : Regular e code) :
    (e.press code).line.length ≤ e.line.length + 1 := by
  rw [Editor.press]
  split_ifs with hrelease h58 hshift h29 h14 h28
  · exact Nat.le_succ _
  · exact Nat.le_succ _
  · exact Nat.le_succ _
  · exact Nat.le_succ _
  · simp only [List.length_dropLast]
    omega
  · simp
  · have htyping : (e.typing (e.character code)).length ≤ 1 := by
      rw [Editor.typing]
      split_ifs with hnul hcontrol
      · exact Nat.zero_le _
      · rcases hregular with h' | h' | h' | ⟨h', -⟩ | ⟨-, -, h'⟩
        · exact absurd h' hrelease
        · rcases h' with h' | h' | h' | h'
          · exact absurd h' h58
          · exact absurd (.inl h') hshift
          · exact absurd (.inr h') hshift
          · exact absurd h' h29
        · exact absurd h' h28
        · exact absurd h' h14
        · rw [if_neg hnul, hcontrol] at h'
          cases h'
      · exact Nat.le_refl _
    simpa using htyping

/-! ## Every sequence of scancodes -/

/-- Address, size and string agree with one line, inside the buffer. -/
structure LineIs (t : Terminal) (line : List Char) : Prop where
  inside : 0 ≤ t.address ∧ t.address < 1024
  size : t.address = t.size
  length : t.size = t.getTerminalSize
  string : t.string = line

theorem typed_concat (t : Terminal) (codes : List UInt8) (code : UInt8) :
    typed t (codes ++ [code]) = (typed t codes).bind fun t' => t'.kscanf code := by
  simp [typed]

theorem after_concat (codes : List UInt8) (code : UInt8) :
    Editor.after (codes ++ [code]) = (Editor.after codes).press code := by
  simp [Editor.after]

/-- The page of the buffer starts with a terminator, or the first key writes to it. -/
def Opens (mem : Int → Char) (codes : List UInt8) : Prop :=
  mem 0 = nul ∨ ∃ code ∈ codes.head?, Writes code

/-- Every key is regular for the line before it. -/
def RegularKeys (codes : List UInt8) : Prop :=
  ∀ n (_ : n < codes.length), Regular (Editor.after (codes.take n)) codes[n]

instance (codes : List UInt8) : Decidable (RegularKeys codes) :=
  inferInstanceAs (Decidable (∀ n (_ : n < codes.length), _))

theorem RegularKeys.of_prefix {codes done : List UInt8} (h : RegularKeys codes)
    (hdone : done <+: codes) : RegularKeys done := by
  rcases hdone with ⟨rest, rfl⟩
  intro n hn
  have hkey := h n (by rw [List.length_append]; omega)
  rwa [List.take_append_of_le_length hn.le, List.getElem_append_left hn] at hkey

theorem RegularKeys.last {codes : List UInt8} (h : RegularKeys (codes ++ [code])) :
    Regular (Editor.after codes) code := by
  simpa using h codes.length (by simp)

theorem Opens.of_concat {codes : List UInt8} (hne : codes ≠ [])
    (h : Opens mem (codes ++ [code])) : Opens mem codes := by
  rcases h with h | ⟨first, hfirst, hwrites⟩
  · exact .inl h
  · rw [List.head?_append_of_ne_nil codes hne] at hfirst
    exact .inr ⟨first, hfirst, hwrites⟩

theorem typed_tracks (mem : Int → Char) {codes : List UInt8} (hlength : codes.length < 1024)
    (hregular : RegularKeys codes) :
    ∃ t, typed (Terminal.initializeKeyboardBuffer mem) codes = some t ∧
      Tracks t (Editor.after codes) ∧ (Editor.after codes).line.length ≤ codes.length ∧
      (Opens mem codes → Terminated t (Editor.after codes).line) := by
  induction codes using List.reverseRecOn with
  | nil =>
      refine ⟨_, rfl, ⟨⟨rfl, rfl, ?_, ?_⟩, rfl⟩, Nat.le_refl _, ?_⟩
      · simp [Editor.after, Editor.empty]
      · simp [Editor.after, Editor.empty]
      · rintro (h | ⟨code, hcode, -⟩)
        · exact h
        · cases hcode
  | append_singleton codes code ih =>
      rw [List.length_append, List.length_singleton] at hlength
      rcases ih (by omega) (hregular.of_prefix (List.prefix_append _ _)) with
        ⟨t, ht, htracks, hline, hend⟩
      have hkey : Regular (Editor.after codes) code := hregular.last
      rcases kscanf_step htracks hkey (fun _ => by omega) with ⟨t', ht', htracks', hend'⟩
      rw [after_concat]
      refine ⟨t', ?_, htracks', ?_, fun hopens => hend' ?_⟩
      · rw [typed_concat, ht, Option.bind_some, ht']
      · rw [List.length_append, List.length_singleton]
        exact (press_length_le hkey).trans (Nat.succ_le_succ hline)
      · by_cases hnil : codes = []
        · subst hnil
          rcases hopens with h | ⟨first, hfirst, hwrites⟩
          · exact .inl (hend (.inl h))
          · cases hfirst
            exact .inr hwrites
        · exact .inl (hend (hopens.of_concat hnil))

/-- After each of the keys the buffer is the line that the editor has. -/
theorem kscanf_edits (mem : Int → Char) (codes : List UInt8) (hlength : codes.length < 1024)
    (hopens : Opens mem codes) (hregular : RegularKeys codes) :
    ∀ done, done ≠ [] → done <+: codes →
      ∃ t, typed (Terminal.initializeKeyboardBuffer mem) done = some t ∧
        LineIs t (Editor.after done).line := by
  intro done hne hdone
  have hdone_length : done.length < 1024 := hdone.length_le.trans_lt hlength
  rcases typed_tracks mem hdone_length (hregular.of_prefix hdone) with
    ⟨t, ht, htracks, hline, hend⟩
  have hterminated : Terminated t (Editor.after done).line := by
    refine hend (hopens.imp_right ?_)
    rintro ⟨first, hfirst, hwrites⟩
    rcases hdone with ⟨rest, rfl⟩
    rw [List.head?_append_of_ne_nil done hne] at hfirst
    exact ⟨first, hfirst, hwrites⟩
  have hstring : t.string = (Editor.after done).line :=
    htracks.holds.string hterminated (by omega)
  refine ⟨t, ht, ⟨?_, ?_⟩, ?_, ?_, hstring⟩
  · rw [htracks.holds.address]
    exact Int.natCast_nonneg _
  · rw [htracks.holds.address]
    omega
  · rw [htracks.holds.address, htracks.holds.size]
  · rw [htracks.holds.size, Terminal.getTerminalSize, kstrlength_eq_length]
    exact congrArg (fun line => (List.length line : Int)) hstring.symm

/-- Shift, `a` down and up, Enter, backspace twice, a function key, caps lock, `b`. -/
theorem kscanf_edits_typing : ∃ t,
    typed (Terminal.initializeKeyboardBuffer fun _ => nul) [42, 30, 170, 28, 14, 14, 59, 58, 48] =
        some t ∧
      LineIs t (Editor.after [42, 30, 170, 28, 14, 14, 59, 58, 48]).line :=
  kscanf_edits (fun _ => nul) [42, 30, 170, 28, 14, 14, 59, 58, 48] (by decide) (.inl rfl)
    (by decide +kernel) _ (by decide) (List.prefix_refl _)

/-- A function key wipes the line. -/
theorem not_kscanf_edits :
    ¬ ∀ codes : List UInt8, codes.length < 1024 → ∀ done, done ≠ [] → done <+: codes →
      ∃ t, typed (Terminal.initializeKeyboardBuffer fun _ => nul) done = some t ∧
        LineIs t (Editor.after done).line := by
  intro h
  rcases h [30, 59] (by decide) [30, 59] (by decide) (List.prefix_refl _) with ⟨t, ht, hline⟩
  have hwiped : (typed (Terminal.initializeKeyboardBuffer fun _ => nul) [30, 59]).map
      Terminal.string = some [] := by decide +kernel
  have hexpected : (Editor.after [30, 59]).line = ['a'] := by decide +kernel
  rw [ht, Option.map_some, hline.string, hexpected] at hwiped
  cases hwiped

end Keyboard

end OswpKernel
