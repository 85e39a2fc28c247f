import OswpKernel.Files.Archive
import OswpKernel.Files.Read
import OswpKernel.Lib.LocalArray

/-!
# Fgets — the lines of a file, one call after the other (`libc/stdio.c`)

`fgets` reads a byte at a time into the caller's buffer up to a newline or the end of the file, and
never looks at its argument `size`.  At the end of the file it puts a NUL one place behind the cell
that would come next, and takes the line for empty when the buffer starts with a NUL.

`fgets_lines_iff` says for which files and sizes successive calls return the lines and then the end
marker without leaving the buffer.
-/

namespace OswpKernel

namespace Libc

open Files (Heap Tnode readVfs AtByte bytesFrom RegularFile fileBytes)

def newline : UInt8 := 10

/-- `EOF`, and what it is in a `char`. -/
def EOF : BitVec 32 := -1

def endMarker : UInt8 := 255

/-- What `fgets` returns: its argument or the literal `""`. -/
inductive Returned
  | stringVal
  | empty
  deriving DecidableEq, Repr

/-- `buf[0] = '\0'; bytes = read(fileDescriptor, buf, 1)`: the result, and `buf[0]`.  A second byte
would be written behind `buf`. -/
def readByte (mem : Files.Memory) (node : Tnode) (h : Heap) : Option (BitVec 32 × UInt8 × Heap) :=
  match readVfs h node 1 with
  | (⟨returned, []⟩, h) => some (returned, 0, h)
  | (⟨returned, [a]⟩, h) => some (returned, mem a, h)
  | _ => none

/-- The loop of `fgets` from the cell `temp` on; the first argument is what is left of the buffer
there, so that nothing is left where `*temp` is outside. -/
def fgetsLoop (mem : Files.Memory) (node : Tnode) :
    Nat → Nat → LocalArray → Heap → Option (Returned × LocalArray × Heap)
  | 0, _, _, _ => none
  | room + 1, temp, stringVal, h => do
      let c ← stringVal.get temp
      if c = newline then return (.empty, stringVal, h)
      let (bytes, buf, h) ← readByte mem node h
      if bytes = EOF then
        let first ← stringVal.get 0
        let stringVal ← if first = 0 then stringVal.put temp endMarker else some stringVal
        let stringVal ← stringVal.put (temp + 1) 0
        return (.stringVal, stringVal, h)
      let stringVal ← stringVal.put temp buf
      if buf = newline then
        let stringVal ← stringVal.put temp 0
        return (.stringVal, stringVal, h)
      fgetsLoop mem node room (temp + 1) stringVal h

/-- `fgets`; the descriptor is given by its node. -/
def fgets (mem : Files.Memory) (node : Tnode) (stringVal : LocalArray) (_size : Int) (h : Heap) :
    Option (Returned × LocalArray × Heap) :=
  fgetsLoop mem node stringVal.size 0 stringVal h

/-! ## Successive calls -/

/-- A buffer after `umemset`. -/
def zeroed (size : Nat) : LocalArray := ⟨size, fun _ => 0⟩

/-- Calls with a zeroed buffer of `size` bytes each, one after the other. -/
def fgetsCalls (mem : Files.Memory) (node : Tnode) (size : Nat) :
    Nat → Heap → Option (List (Returned × LocalArray))
  | 0, _ => some []
  | n + 1, h => do
      let (returned, stringVal, h) ← fgets mem node (zeroed size) size h
      let calls ← fgetsCalls mem node size n h
      return (returned, stringVal) :: calls

/-- The parts of a file between its newlines as lines: an empty last part is none. -/
def linesOf : List (List UInt8) → List (List UInt8)
  | [] => []
  | [last] => if last = [] then [] else [last]
  | l :: next :: parts => l :: linesOf (next :: parts)

/-- The lines of a file without their newlines. -/
def fileLines (content : List UInt8) : List (List UInt8) := linesOf (content.splitOn newline)

def ReturnsLine (l : List UInt8) (call : Returned × LocalArray) : Prop :=
  call.1 = .stringVal ∧ Bytes.Holds call.2.byte 0 (l ++ [0])

def ReturnsMarker (call : Returned × LocalArray) : Prop :=
  call.1 = .stringVal ∧ call.2.byte 0 = endMarker

/-- The calls stay inside their buffers and return the lines in order, and then the marker. -/
def YieldsLines (mem : Files.Memory) (node : Tnode) (size : Nat) (lines : List (List UInt8))
    (h : Heap) : Prop :=
  ∃ calls last, fgetsCalls mem node size (lines.length + 1) h = some (calls ++ [last]) ∧
    List.Forall₂ ReturnsLine lines calls ∧ ReturnsMarker last

/-- The parts of a file fit buffers of `size` bytes.  A last line without a newline needs one byte
more than the others, and must not look empty. -/
structure PartsFit (size : Nat) (parts : List (List UInt8)) : Prop where
  marker : 2 ≤ size
  terminated : ∀ l ∈ parts.dropLast, l.length + 1 ≤ size
  last : ∀ l, parts.getLast? = some l → l ≠ [] → l.length + 2 ≤ size ∧ l.head? ≠ some 0

variable {mem : Files.Memory} {node : Tnode} {h h' : Heap} {s : LocalArray} {c : UInt8}
  {cs l rest : List UInt8} {parts lines : List (List UInt8)} {size room temp : Nat}

/-! ## Reading -/

/-- What is still to be read through a descriptor. -/
def Unread (mem : Files.Memory) (node : Tnode) (cs : List UInt8) (h : Heap) : Prop :=
  ∃ start d, AtByte h node start d ∧ start.toNat + node.size.toNat < 2 ^ 64 ∧
    d + cs.length = node.size.toNat ∧ (bytesFrom start d cs.length).map mem = cs

theorem readByte_nil (hunread : Unread mem node [] h) : readByte mem node h = some (EOF, 0, h) := by
  obtain ⟨start, d, hat, hmemory, hlength, -⟩ := hunread
  rcases Files.readVfs_eq hat hmemory hlength (by decide : 0 < (1 : BitVec 32).toInt)
    with ⟨-, hcall⟩ | ⟨hsome, -⟩
  · rw [readByte, hcall]
    rfl
  · exact absurd hsome (Nat.lt_irrefl 0)

theorem readByte_cons (hunread : Unread mem node (c :: cs) h) :
    ∃ h', readByte mem node h = some (1, c, h') ∧ Unread mem node cs h' := by
  obtain ⟨start, d, hat, hmemory, hlength, hbytes⟩ := hunread
  rw [List.length_cons] at hlength hbytes
  rcases Files.readVfs_eq hat hmemory hlength
    (by decide : 0 < (1 : BitVec 32).toInt) with ⟨hzero, -⟩ | ⟨-, n, h', hn, -, hcall, hat'⟩
  · exact absurd hzero (Nat.succ_ne_zero _)
  · -- a file with a byte left is not smaller than the request
    have hone : n = 1 := by
      rw [hn, if_neg (by change ¬ node.size.toNat < 1; omega)]
      rfl
    subst hone
    have hfirst : bytesFrom start d 1 = [start + BitVec.ofNat 64 d] := by simp [bytesFrom]
    rw [Nat.add_comm, Files.bytesFrom_add, List.map_append, hfirst, List.map_singleton,
      List.singleton_append, List.cons.injEq] at hbytes
    obtain ⟨rfl, hrest⟩ := hbytes
    refine ⟨h', ?_, start, d + 1, hat' (by omega), hmemory, by omega, hrest⟩
    rw [readByte, hcall, hfirst]
    rfl

/-! ## One call -/

/-- A turn that stores a byte other than the newline. -/
theorem fgetsLoop_turn (hread : readByte mem node h = some (1, c, h')) (hc : ¬ c = newline)
    (hzero : s.byte temp = 0) (htemp : temp < s.size) :
    fgetsLoop mem node (room + 1) temp s h =
      fgetsLoop mem node room (temp + 1) { s with byte := Bytes.store s.byte temp c } h' := by
  have hcell : ¬ (0 : UInt8) = newline := by decide
  rw [fgetsLoop, LocalArray.get_eq htemp, hzero]
  simp only [Option.bind_eq_bind, Option.bind_some, if_neg hcell, hread, LocalArray.put_eq htemp,
    if_neg hc]
  rw [if_neg (by decide)]

/-- The turn that reads the newline puts the NUL in its place. -/
theorem fgetsLoop_newline (hread : readByte mem node h = some (1, newline, h'))
    (hzero : s.byte temp = 0) (htemp : temp < s.size) :
    fgetsLoop mem node (room + 1) temp s h =
      some (.stringVal, { s with byte := Bytes.write s.byte temp [0] }, h') := by
  have hcell : ¬ (0 : UInt8) = newline := by decide
  have hstored : Bytes.store (Bytes.store s.byte temp newline) temp 0 =
      Bytes.write s.byte temp [0] := by
    rw [Bytes.store_eq_update, Bytes.store_eq_update, Function.update_idem,
      ← Bytes.store_eq_update]
    rfl
  rw [fgetsLoop, LocalArray.get_eq htemp, hzero]
  simp only [Option.bind_eq_bind, Option.bind_some, if_neg hcell, hread, LocalArray.put_eq htemp]
  rw [if_neg (by decide), if_pos trivial, LocalArray.put_eq (by exact htemp)]
  dsimp only
  rw [hstored]
  rfl

/-- The cells ahead are still zero. -/
theorem stored_ahead (hzero : ∀ x, temp ≤ x → s.byte x = 0) :
    ∀ x, temp + 1 ≤ x → Bytes.store s.byte temp c x = 0 := by
  intro x hx
  rw [Bytes.store, Bytes.write_above hx]
  exact hzero x (by omega)

/-- The loop over the rest `l` of a line that ends with a newline. -/
theorem fgetsLoop_line (hunread : Unread mem node (l ++ newline :: rest) h) (hl : newline ∉ l)
    (hzero : ∀ x, temp ≤ x → s.byte x = 0) (hroom : temp + room = s.size) :
    (l.length + 1 ≤ room → ∃ h', fgetsLoop mem node room temp s h =
        some (.stringVal, { s with byte := Bytes.write s.byte temp (l ++ [0]) }, h') ∧
      Unread mem node rest h') ∧
    (room < l.length + 1 → fgetsLoop mem node room temp s h = none) := by
  induction l generalizing room temp s h with
  | nil =>
      obtain ⟨h', hread, hrest⟩ := readByte_cons hunread
      cases room with
      | zero => exact ⟨fun hle => absurd hle (by decide), fun _ => rfl⟩
      | succ room =>
          refine ⟨fun _ => ⟨h', ?_, hrest⟩, fun hlt => absurd hlt (by simp)⟩
          exact fgetsLoop_newline hread (hzero temp le_rfl) (by omega)
  | cons c l ih =>
      obtain ⟨h', hread, hrest⟩ := readByte_cons hunread
      have hc : ¬ c = newline := fun heq => hl (heq ▸ List.mem_cons_self)
      cases room with
      | zero => exact ⟨fun hle => absurd hle (by simp), fun _ => rfl⟩
      | succ room =>
          have hjoin : Bytes.write (Bytes.write s.byte temp [c]) (temp + [c].length) (l ++ [0]) =
              Bytes.write s.byte temp ([c] ++ (l ++ [0])) := Bytes.write_after
          obtain ⟨hinside, houtside⟩ := @ih h' { s with byte := Bytes.store s.byte temp c } room
            (temp + 1) hrest (fun hmem => hl (List.mem_cons_of_mem _ hmem))
            (stored_ahead hzero) (by dsimp only; omega)
          rw [fgetsLoop_turn hread hc (hzero temp le_rfl) (by omega), List.length_cons]
          refine ⟨fun hle => ?_, fun hlt => houtside (by omega)⟩
          obtain ⟨h'', hloop, hleft⟩ := hinside (by omega)
          refine ⟨h'', ?_, hleft⟩
          rw [hloop]
          exact congrArg
            (fun byte => some (Returned.stringVal, LocalArray.mk s.size byte, h'')) hjoin

/-- What the end of the file does to the buffer, with `temp` behind what has been read. -/
def atEnd (s : LocalArray) (temp : Nat) : LocalArray :=
  { s with
    byte := Bytes.store (if s.byte 0 = 0 then Bytes.store s.byte temp endMarker else s.byte)
      (temp + 1) 0 }

theorem atEnd_empty (hzero : s.byte 0 = 0) :
    (atEnd s temp).byte = Bytes.store (Bytes.store s.byte temp endMarker) (temp + 1) 0 := by
  rw [atEnd]
  dsimp only
  rw [if_pos hzero]

theorem atEnd_text (htext : s.byte 0 ≠ 0) :
    (atEnd s temp).byte = Bytes.store s.byte (temp + 1) 0 := by
  rw [atEnd]
  dsimp only
  rw [if_neg htext]

/-- The marker stays: the NUL goes behind it. -/
theorem atEnd_marker (hzero : s.byte 0 = 0) : (atEnd s temp).byte temp = endMarker := by
  rw [atEnd_empty hzero, Bytes.store, Bytes.write_below (Nat.lt_succ_self _),
    Bytes.store_eq_update, Function.update_self]

/-- The turn that reads nothing writes to the cell behind the next one, too. -/
theorem fgetsLoop_eof (hread : readByte mem node h = some (EOF, 0, h)) (hzero : s.byte temp = 0)
    (htemp : temp < s.size) :
    fgetsLoop mem node (room + 1) temp s h =
      if temp + 1 < s.size then some (.stringVal, atEnd s temp, h) else none := by
  have hcell : ¬ (0 : UInt8) = newline := by decide
  have hturn : fgetsLoop mem node (room + 1) temp s h =
      ((if s.byte 0 = 0 then s.put temp endMarker else some s).bind fun s =>
        (s.put (temp + 1) 0).bind fun s => some (Returned.stringVal, s, h)) := by
    rw [fgetsLoop, LocalArray.get_eq htemp, hzero]
    simp only [Option.bind_eq_bind, Option.bind_some, if_neg hcell, hread,
      LocalArray.get_eq (show 0 < s.size by omega)]
    rw [if_pos trivial]
    split_ifs <;> rfl
  rw [hturn, LocalArray.put_eq htemp, atEnd]
  by_cases hnul : s.byte 0 = 0
  · rw [if_pos hnul, if_pos hnul, Option.bind_some, LocalArray.put]
    split_ifs <;> rfl
  · rw [if_neg hnul, if_neg hnul, Option.bind_some, LocalArray.put]
    split_ifs <;> rfl

/-- The loop over the rest `l` of a file without a newline. -/
theorem fgetsLoop_last (hunread : Unread mem node l h) (hl : newline ∉ l)
    (hzero : ∀ x, temp ≤ x → s.byte x = 0) (hroom : temp + room = s.size) :
    (l.length + 2 ≤ room → ∃ h', fgetsLoop mem node room temp s h =
        some (.stringVal,
          atEnd { s with byte := Bytes.write s.byte temp l } (temp + l.length), h') ∧
      Unread mem node [] h') ∧
    (room < l.length + 2 → fgetsLoop mem node room temp s h = none) := by
  induction l generalizing room temp s h with
  | nil =>
      cases room with
      | zero => exact ⟨fun hle => absurd hle (by decide), fun _ => rfl⟩
      | succ room =>
          have hempty : Bytes.write s.byte temp [] = s.byte := Bytes.write_nil
          rw [fgetsLoop_eof (readByte_nil hunread) (hzero temp le_rfl) (by omega), hempty,
            List.length_nil]
          -- the NUL behind the next cell is inside or not
          refine ⟨fun hle => ⟨h, ?_, hunread⟩, fun hlt => ?_⟩
          · rw [if_pos (by omega)]
            rfl
          · rw [if_neg (by omega)]
  | cons c l ih =>
      obtain ⟨h', hread, hrest⟩ := readByte_cons hunread
      have hc : ¬ c = newline := fun heq => hl (heq ▸ List.mem_cons_self)
      cases room with
      | zero => exact ⟨fun hle => absurd hle (by simp), fun _ => rfl⟩
      | succ room =>
          obtain ⟨hinside, houtside⟩ := @ih h' { s with byte := Bytes.store s.byte temp c } room
            (temp + 1) hrest (fun hmem => hl (List.mem_cons_of_mem _ hmem))
            (stored_ahead hzero) (by dsimp only; omega)
          have hjoin : Bytes.write (Bytes.write s.byte temp [c]) (temp + [c].length) l =
              Bytes.write s.byte temp ([c] ++ l) := Bytes.write_after
          rw [fgetsLoop_turn hread hc (hzero temp le_rfl) (by omega), List.length_cons]
          refine ⟨fun hle => ?_, fun hlt => houtside (by omega)⟩
          obtain ⟨h'', hloop, hleft⟩ := hinside (by omega)
          refine ⟨h'', ?_, hleft⟩
          rw [hloop, Nat.add_comm l.length 1, ← Nat.add_assoc]
          exact congrArg
            (fun byte => some (Returned.stringVal,
              atEnd (LocalArray.mk s.size byte) (temp + 1 + l.length), h'')) hjoin

theorem fgets_line (size : Nat) (hunread : Unread mem node (l ++ newline :: rest) h)
    (hl : newline ∉ l) :
    (l.length + 1 ≤ size → ∃ s h', fgets mem node (zeroed size) size h = some (.stringVal, s, h') ∧
      ReturnsLine l (.stringVal, s) ∧ Unread mem node rest h') ∧
    (size < l.length + 1 → fgets mem node (zeroed size) size h = none) := by
  obtain ⟨hinside, houtside⟩ :=
    @fgetsLoop_line mem node h (zeroed size) l rest size 0 hunread hl (fun _ _ => rfl)
      (Nat.zero_add size)
  refine ⟨fun hle => ?_, houtside⟩
  obtain ⟨h', hloop, hrest⟩ := hinside hle
  have hheld : Bytes.Holds (Bytes.write (zeroed size).byte 0 (l ++ [0])) 0 (l ++ [0]) :=
    Bytes.holds_write
  exact ⟨_, h', hloop, ⟨rfl, hheld⟩, hrest⟩

/-- A zeroed buffer with `l` at its start. -/
def textBuffer (size : Nat) (l : List UInt8) : LocalArray :=
  { zeroed size with byte := Bytes.write (zeroed size).byte 0 l }

/-- What the end of the file makes of the text of the last line. -/
theorem textBuffer_atEnd (hne : l ≠ []) :
    ReturnsLine l (.stringVal, atEnd (textBuffer size l) l.length) ↔ l.head? ≠ some 0 := by
  obtain ⟨c, l, rfl⟩ := List.exists_cons_of_ne_nil hne
  have hline : Bytes.Holds (textBuffer size (c :: l)).byte 0 (c :: l) := by
    change Bytes.Holds (Bytes.write (zeroed size).byte 0 (c :: l)) 0 (c :: l)
    exact Bytes.holds_write
  have hfirst : (textBuffer size (c :: l)).byte 0 = c := hline 0 (Nat.succ_pos _)
  rw [ReturnsLine, and_iff_right rfl, List.head?_cons, Bytes.holds_append]
  constructor
  · rintro ⟨-, hnul⟩ hhead
    -- the end marker is where the NUL should be
    have hcell := hnul 0 Nat.one_pos
    rw [Nat.add_zero, Nat.zero_add] at hcell
    have hmarker : (atEnd (textBuffer size (c :: l)) (c :: l).length).byte (c :: l).length =
        endMarker := atEnd_marker (hfirst.trans (Option.some_inj.1 hhead))
    exact absurd (hmarker.symm.trans hcell) (by decide)
  · intro hhead
    have htext : (textBuffer size (c :: l)).byte 0 ≠ 0 := fun hzero =>
      hhead (congrArg some (hfirst.symm.trans hzero))
    dsimp only
    rw [atEnd_text htext]
    refine ⟨hline.write (Or.inr (by omega)), fun k hk => ?_⟩
    have hk : k = 0 := Nat.lt_one_iff.1 hk
    subst hk
    have hbelow : (c :: l).length + 0 < (c :: l).length + 1 := Nat.lt_succ_self _
    rw [Nat.zero_add, Bytes.store, Bytes.write_below hbelow]
    change Bytes.write (zeroed size).byte 0 (c :: l) (c :: l).length =
      (zeroed size).byte (c :: l).length
    exact Bytes.write_above (Nat.zero_add _).le

/-- The last line without a newline comes out as it is only when it does not look empty. -/
theorem fgets_last (size : Nat) (hunread : Unread mem node l h) (hl : newline ∉ l)
    (hne : l ≠ []) :
    (l.length + 2 ≤ size → ∃ s h', fgets mem node (zeroed size) size h = some (.stringVal, s, h') ∧
      (ReturnsLine l (.stringVal, s) ↔ l.head? ≠ some 0) ∧ Unread mem node [] h') ∧
    (size < l.length + 2 → fgets mem node (zeroed size) size h = none) := by
  obtain ⟨hinside, houtside⟩ :=
    @fgetsLoop_last mem node h (zeroed size) l size 0 hunread hl (fun _ _ => rfl)
      (Nat.zero_add size)
  refine ⟨fun hle => ?_, houtside⟩
  obtain ⟨h', hloop, hrest⟩ := hinside hle
  rw [Nat.zero_add] at hloop
  exact ⟨_, h', hloop, textBuffer_atEnd hne, hrest⟩

theorem fgets_end (size : Nat) (hunread : Unread mem node [] h) :
    (2 ≤ size → ∃ s h', fgets mem node (zeroed size) size h = some (.stringVal, s, h') ∧
      ReturnsMarker (.stringVal, s)) ∧
    (size < 2 → fgets mem node (zeroed size) size h = none) := by
  obtain ⟨hinside, houtside⟩ :=
    @fgetsLoop_last mem node h (zeroed size) [] size 0 hunread List.not_mem_nil (fun _ _ => rfl)
      (Nat.zero_add size)
  refine ⟨fun hle => ?_, houtside⟩
  obtain ⟨h', hloop, -⟩ := hinside hle
  have hzero : (textBuffer size []).byte 0 = 0 := by rw [textBuffer, Bytes.write_nil]; rfl
  exact ⟨_, h', hloop, rfl, atEnd_marker hzero⟩

/-! ## All calls -/

theorem yieldsLines_nil :
    YieldsLines mem node size [] h ↔
      ∃ call h', fgets mem node (zeroed size) size h = some (call.1, call.2, h') ∧
        ReturnsMarker call := by
  constructor
  · rintro ⟨calls, last, hrun, hlines, hmarker⟩
    rw [List.forall₂_nil_left_iff] at hlines
    subst hlines
    obtain ⟨⟨returned, s, h'⟩, hcall, hrest⟩ := Option.bind_eq_some_iff.1 hrun
    obtain rfl : (returned, s) = last := List.singleton_inj.1 (Option.some_inj.1 hrest)
    exact ⟨_, h', hcall, hmarker⟩
  · rintro ⟨⟨returned, s⟩, h', hcall, hmarker⟩
    refine ⟨[], (returned, s), ?_, List.Forall₂.nil, hmarker⟩
    rw [fgetsCalls, hcall]
    rfl

theorem yieldsLines_cons :
    YieldsLines mem node size (l :: lines) h ↔
      ∃ call h', fgets mem node (zeroed size) size h = some (call.1, call.2, h') ∧
        ReturnsLine l call ∧ YieldsLines mem node size lines h' := by
  constructor
  · rintro ⟨calls, last, hrun, hlines, hmarker⟩
    obtain ⟨call, calls, hline, hrest, rfl⟩ := List.forall₂_cons_left_iff.1 hlines
    obtain ⟨⟨returned, s, h'⟩, hcall, hrun⟩ := Option.bind_eq_some_iff.1 hrun
    obtain ⟨more, hmore, hall⟩ := Option.bind_eq_some_iff.1 hrun
    obtain ⟨rfl, rfl⟩ : (returned, s) = call ∧ more = calls ++ [last] :=
      List.cons.inj (Option.some_inj.1 hall)
    exact ⟨_, h', hcall, hline, calls, last, hmore, hrest, hmarker⟩
  · rintro ⟨⟨returned, s⟩, h', hcall, hline, calls, last, hrun, hlines, hmarker⟩
    refine ⟨(returned, s) :: calls, last, ?_, List.Forall₂.cons hline hlines, hmarker⟩
    rw [List.length_cons, fgetsCalls, hcall]
    simp only [Option.bind_eq_bind, Option.bind_some, hrun]
    rfl

/-! ## The lines of a file -/

theorem fileLines_cons (hl : newline ∉ l) :
    fileLines (l ++ newline :: rest) = l :: fileLines rest := by
  obtain ⟨next, parts, hparts⟩ := List.exists_cons_of_ne_nil (List.splitOn_ne_nil newline rest)
  rw [fileLines, fileLines, List.splitOn_append_cons_self, List.splitOn_eq_singleton hl, hparts]
  rfl

theorem partsFit_cons (hparts : parts ≠ []) :
    PartsFit size (l :: parts) ↔ l.length + 1 ≤ size ∧ PartsFit size parts := by
  have hdrop : (l :: parts).dropLast = l :: parts.dropLast := List.dropLast_cons_of_ne_nil hparts
  have hlast : (l :: parts).getLast? = parts.getLast? := by
    obtain ⟨next, rest, rfl⟩ := List.exists_cons_of_ne_nil hparts
    exact List.getLast?_cons_cons
  constructor
  · rintro ⟨hmarker, hterminated, hunterminated⟩
    rw [hdrop] at hterminated
    rw [hlast] at hunterminated
    exact ⟨hterminated l List.mem_cons_self, hmarker,
      fun m hm => hterminated m (List.mem_cons_of_mem _ hm), hunterminated⟩
  · rintro ⟨hl, hmarker, hterminated, hunterminated⟩
    refine ⟨hmarker, fun m hm => ?_, by rwa [hlast]⟩
    rw [hdrop] at hm
    rcases List.mem_cons.1 hm with rfl | hm
    · exact hl
    · exact hterminated m hm

/-- At the end of the file there is room for the marker or not. -/
theorem yieldsLines_end (hunread : Unread mem node [] h) :
    YieldsLines mem node size [] h ↔ 2 ≤ size := by
  obtain ⟨hinside, houtside⟩ := fgets_end size hunread
  rw [yieldsLines_nil]
  constructor
  · rintro ⟨call, h', hcall, -⟩
    by_contra hsmall
    rw [houtside (by omega)] at hcall
    cases hcall
  · intro hle
    obtain ⟨s, h', hcall, hmarker⟩ := hinside hle
    exact ⟨(.stringVal, s), h', hcall, hmarker⟩

/-- The last part of a file. -/
theorem yieldsLines_last (hunread : Unread mem node l h) (hl : newline ∉ l) :
    YieldsLines mem node size (fileLines l) h ↔ PartsFit size [l] := by
  have hlines : fileLines l = if l = [] then [] else [l] := by
    rw [fileLines, List.splitOn_eq_singleton hl, linesOf]
  rw [hlines]
  by_cases hempty : l = []
  · subst hempty
    rw [if_pos rfl, yieldsLines_end hunread]
    exact ⟨fun hle => ⟨hle, by simp, by simp⟩, fun hfit => hfit.marker⟩
  · obtain ⟨hinside, houtside⟩ := fgets_last size hunread hl hempty
    rw [if_neg hempty, yieldsLines_cons]
    constructor
    · rintro ⟨call, h', hcall, hline, hmore⟩
      have hle : l.length + 2 ≤ size := by
        by_contra hlong
        rw [houtside (by omega)] at hcall
        cases hcall
      obtain ⟨s, h'', hcall', htext, hrest⟩ := hinside hle
      obtain ⟨rfl, rfl⟩ : call = (.stringVal, s) ∧ h' = h'' := by
        simpa [Prod.ext_iff, and_assoc] using Option.some_inj.1 (hcall.symm.trans hcall')
      refine ⟨(yieldsLines_end hrest).1 hmore, by simp, fun m hm _ => ?_⟩
      obtain rfl : l = m := Option.some_inj.1 hm
      exact ⟨hle, htext.1 hline⟩
    · intro hfit
      obtain ⟨hle, hhead⟩ := hfit.last l rfl hempty
      obtain ⟨s, h', hcall, htext, hrest⟩ := hinside hle
      exact ⟨(.stringVal, s), h', hcall, htext.2 hhead, (yieldsLines_end hrest).2 hfit.marker⟩

/-- From wherever the file has been read to: the lines are returned if and only if they fit. -/
theorem yieldsLines_iff (hunread : Unread mem node cs h) :
    YieldsLines mem node size (fileLines cs) h ↔ PartsFit size (cs.splitOn newline) := by
  induction hlength : cs.length using Nat.strong_induction_on generalizing cs h with
  | _ n ih =>
      by_cases hmem : newline ∈ cs
      · obtain ⟨l, rest, rfl, hl⟩ := List.eq_append_cons_of_mem hmem
        have hshort : rest.length < n := by
          rw [← hlength, List.length_append, List.length_cons]
          omega
        obtain ⟨hinside, houtside⟩ := fgets_line size hunread hl
        have hsplit : (l ++ newline :: rest).splitOn newline = l :: rest.splitOn newline := by
          rw [List.splitOn_append_cons_self, List.splitOn_eq_singleton hl]
          rfl
        rw [fileLines_cons hl, yieldsLines_cons, hsplit,
          partsFit_cons (List.splitOn_ne_nil newline rest)]
        constructor
        · rintro ⟨call, h', hcall, -, hmore⟩
          have hle : l.length + 1 ≤ size := by
            by_contra hlong
            rw [houtside (by omega)] at hcall
            cases hcall
          obtain ⟨s, h'', hcall', -, hrest⟩ := hinside hle
          obtain ⟨-, rfl⟩ : call = (.stringVal, s) ∧ h' = h'' := by
            simpa [Prod.ext_iff, and_assoc] using Option.some_inj.1 (hcall.symm.trans hcall')
          exact ⟨hle, (ih _ hshort hrest rfl).1 hmore⟩
        · rintro ⟨hle, hfit⟩
          obtain ⟨s, h', hcall, hline, hrest⟩ := hinside hle
          exact ⟨(.stringVal, s), h', hcall, hline, (ih _ hshort hrest rfl).2 hfit⟩
      · rw [List.splitOn_eq_singleton hmem]
        exact yieldsLines_last hunread hmem

/-- A file that has just been opened. -/
theorem unread_opened (mem : Files.Memory) (page : Files.InodeRef) {item : Tnode}
    (hfile : RegularFile h item) :
    Unread mem (h.copytnode page item).1 ((fileBytes h item).map mem)
      (h.copytnode page item).2 := by
  refine ⟨(h.inodes item.linkToInode).startingPosition, 0, ⟨?_, ?_, ?_⟩, ?_, ?_, ?_⟩
  · simpa [Heap.copytnode, Heap.setInode] using hfile.read
  · simp [Heap.copytnode, Heap.setInode]
  · simp [Heap.copytnode, Heap.setInode, hfile.offset]
  · exact hfile.inMemory
  · simp [Heap.copytnode, fileBytes]
  · simp [fileBytes, bytesFrom]

/-- Successive calls on a file that has just been opened return its lines and then the marker, and
stay inside buffers of `size` bytes, if and only if the parts of the file fit. -/
theorem fgets_lines_iff (mem : Files.Memory) (h : Heap) (page : Files.InodeRef) (item : Tnode)
    (hfile : RegularFile h item) (size : Nat) :
    YieldsLines mem (h.copytnode page item).1 size (fileLines ((fileBytes h item).map mem))
        (h.copytnode page item).2 ↔
      PartsFit size (((fileBytes h item).map mem).splitOn newline) :=
  yieldsLines_iff (unread_opened mem page hfile)

/-- A file of 4 bytes, and a memory with `aaa` and a newline in it. -/
def scriptFile : Heap × Tnode :=
  ({ inodes := fun _ => { flags := Files.FS_FILE, startingPosition := 0xffffffff80210200#64
                          offset := 0, subDirectoryList := [], subFilesList := []
                          linkToProcess := 0, read := true }
     stale := fun _ => 0 },
    { name := [97], size := 4, linkToInode := 0 })

def scriptMemory : Files.Memory := fun a => if a = 0xffffffff80210203#64 then newline else 97

theorem scriptParts :
    ((fileBytes scriptFile.1 scriptFile.2).map scriptMemory).splitOn newline =
      [[97, 97, 97], []] := by
  decide +kernel

theorem fgets_lines_script :
    YieldsLines scriptMemory (scriptFile.1.copytnode 1 scriptFile.2).1 4
      (fileLines ((fileBytes scriptFile.1 scriptFile.2).map scriptMemory))
      (scriptFile.1.copytnode 1 scriptFile.2).2 :=
  (fgets_lines_iff scriptMemory scriptFile.1 1 scriptFile.2 ⟨rfl, rfl, by decide⟩ 4).2 <| by
    rw [scriptParts]
    exact ⟨by decide, by decide, by simp⟩

/-- `fgets(fd, buf, 3)` on it writes four bytes. -/
theorem not_fgets_lines :
    ¬ ∀ (mem : Files.Memory) (h : Heap) (page : Files.InodeRef) (item : Tnode),
      RegularFile h item → ∀ size : Nat,
      YieldsLines mem (h.copytnode page item).1 size (fileLines ((fileBytes h item).map mem))
        (h.copytnode page item).2 := by
  intro h
  have hfile : RegularFile scriptFile.1 scriptFile.2 := ⟨rfl, rfl, by decide⟩
  have hlines := h scriptMemory scriptFile.1 1 scriptFile.2 hfile 3
  have hfit := (yieldsLines_iff (unread_opened scriptMemory 1 hfile)).1 hlines
  rw [scriptParts] at hfit
  exact absurd (hfit.terminated [97, 97, 97] List.mem_cons_self) (by decide)

end Libc

end OswpKernel
