import OswpKernel.Files.Descriptors
import OswpKernel.Terminal.Typing

/-!
# Write — the bytes of a user on the screen (`fs.c`, `syscall.c`)

`sys_write` hands its bytes to the routine behind the pointer `write` of an inode.  `do_write_err`
prints every byte as a format of its own, from an array `value[2]`; `do_write` puts a NUL behind the
bytes and prints them as one format.  Arrays have their size here, and an access outside is `none`.

`sysWrite_prints_iff`: on the descriptors 1 and 2 a text comes to the screen just when it has no
`%`, and `do_write` never stays inside the buffer it is given.
-/

namespace OswpKernel

namespace Files

namespace Console

open Keyboard

/-- What the calls of `kprintf` find in the registers, and what the stack held before. -/
structure Context where
  args : Nat → Arguments
  stack : Bytes.Memory

def kmemcpychar (source : LocalArray) : Nat → Nat → LocalArray → Option LocalArray
  | 0, _, dest => some dest
  | n + 1, i, dest => do
      let c ← source.get i
      let dest ← dest.put i c
      kmemcpychar source n (i + 1) dest

/-- The loop of `do_write_err`, from the `i`-th byte on. -/
def writeErrLoop (args : Nat → Arguments) (buf : LocalArray) :
    Nat → Nat → LocalArray → Screen → Option Screen
  | 0, _, _, s => some s
  | n + 1, i, value, s => do
      let c ← buf.get i
      let value ← value.put 0 c
      let value ← value.put 1 0
      let s ← kprintfAt (args i) value s
      writeErrLoop args buf n (i + 1) value s

def doWriteErr (ctx : Context) (buf : LocalArray) (size : BitVec 32) (s : Screen) :
    Option (BitVec 32 × LocalArray × Screen) := do
  let s ← writeErrLoop ctx.args buf size.toInt.toNat 0 ⟨2, ctx.stack⟩ s
  return (1, buf, s)

def doWrite (ctx : Context) (buf : LocalArray) (size : BitVec 32) (s : Screen) :
    Option (BitVec 32 × LocalArray × Screen) :=
  if size.toInt ≤ 0 then some (-1, buf, s)
  else do
    let _ ← kmemcpychar buf size.toNat 0 ⟨size.toNat, ctx.stack⟩
    let buf ← buf.put size.toNat 0
    let s ← kprintfAt (ctx.args 0) buf s
    return (1, buf, s)

def writeVfs (files : FileSystem) (ctx : Context) (node : Tnode) (buf : LocalArray)
    (size : BitVec 32) (s : Screen) : Option (BitVec 32 × LocalArray × Screen) :=
  match files.write node.linkToInode with
  | .null => some (0, buf, s)
  | .doWrite => doWrite ctx buf size s
  | .doWriteErr => doWriteErr ctx buf size s

def sysWrite (files : FileSystem) (ctx : Context) (fd : BitVec 32) (msg : LocalArray)
    (size : BitVec 32) (s : Screen) : Option (BitVec 32 × LocalArray × Screen) := do
  let node ← files.descriptor fd
  writeVfs files ctx node msg size s

/-- `initialise_file_system`: the pointers `write` of the three nodes and the descriptors 0 to 2. -/
def initialiseDescriptors (files : FileSystem) (stdIn stdOut stdErr : Tnode) : FileSystem :=
  let write := Function.update files.write stdOut.linkToInode .doWrite
  let write := Function.update write stdOut.linkToInode .null
  let write := Function.update write stdErr.linkToInode .doWriteErr
  let files := { files with write := write }
  ((files.setSlot 0 (some stdIn)).setSlot 1 (some stdErr)).setSlot 2 (some stdErr)

/-! ## The law -/

/-- The slots 1 and 2 hold the node of `stderr`. -/
def StderrSlots (files : FileSystem) : Prop :=
  ∃ node, files.fileDescriptors 1 = some node ∧ files.fileDescriptors 2 = some node ∧
    files.write node.linkToInode = .doWriteErr

/-- A call with nothing in memory but the buffer comes back, with the buffer as it was and its bytes
on the screen. -/
def Prints (buf : LocalArray) (s : Screen)
    (call : Option (BitVec 32 × LocalArray × Screen)) : Prop :=
  ∃ r s', call = some (r, buf, s') ∧ Shows s buf.bytes s'

variable {files : FileSystem} {ctx : Context} {fd size : BitVec 32} {buf value : LocalArray}
  {s s' : Screen} {c : UInt8} {text : List UInt8} {args : Nat → Arguments} {n i : Nat}

theorem stderrSlots_initialise (files : FileSystem) (stdIn stdOut stdErr : Tnode) :
    StderrSlots (initialiseDescriptors files stdIn stdOut stdErr) := by
  refine ⟨stdErr, ?_, ?_, ?_⟩
  · rfl
  · rfl
  · exact Function.update_self _ _ _

/-- On the descriptors 1 and 2 `sys_write` is `do_write_err`. -/
theorem StderrSlots.sysWrite_eq (h : StderrSlots files) (hfd : fd = 1 ∨ fd = 2) :
    sysWrite files ctx fd buf size s = doWriteErr ctx buf size s := by
  rcases h with ⟨node, hone, htwo, hwrite⟩
  have hnode : files.descriptor fd = some node := by
    rcases hfd with rfl | rfl
    · exact hone
    · exact htwo
  rw [sysWrite, hnode, Option.bind_eq_bind, Option.bind_some, writeVfs, hwrite]

/-! ## `do_write_err` -/

/-- The formats one after the other, each with the registers of its call. -/
def printAll (args : Nat → Arguments) : Nat → List (List UInt8) → Screen → Option Screen
  | _, [], s => some s
  | i, fmt :: fmts, s => (kprintf (args i) fmt s).bind fun s => printAll args (i + 1) fmts s

/-- A byte as a format: the string with that byte, which is empty for a NUL. -/
abbrev byteFormat (c : UInt8) : List UInt8 := [c].takeWhile (· ≠ 0)

/-- Behind a `%` the second byte of `value` is taken for the conversion, and the third one is not
there. -/
theorem kprintfAt_value (args : Arguments) (hvalue : value.bytes = [c, 0]) (s : Screen) :
    kprintfAt args value s = kprintf args (byteFormat c) s := by
  rw [kprintfAt, kprintf, hvalue]
  by_cases hzero : c = 0
  · subst hzero
    rw [formatLoop_nul]
    rfl
  · have hformat : byteFormat c = [c] := by simp [hzero]
    rw [hformat]
    by_cases hpercent : c = 37
    · subst hpercent
      rfl
    · rw [formatLoop_plain hzero hpercent, kprintfLoop_plain hpercent, formatLoop_nul]
      rfl

/-- The loop prints the formats of its bytes. -/
theorem writeErrLoop_eq (hvalue : value.size = 2) (hroom : i + n ≤ buf.size) (s : Screen) :
    writeErrLoop args buf n i value s =
      printAll args i ((List.range n).map fun k => byteFormat (buf.byte (i + k))) s := by
  induction n generalizing i value s with
  | zero => rfl
  | succ n ih =>
      -- `value` is the string of the byte, whatever it was before
      let value₁ : LocalArray := { value with byte := Bytes.store value.byte 0 (buf.byte i) }
      let value₂ : LocalArray := { value₁ with byte := Bytes.store value₁.byte 1 0 }
      have hfirst : value.put 0 (buf.byte i) = some value₁ :=
        LocalArray.put_eq (by rw [hvalue]; exact Nat.two_pos)
      have hsecond : value₁.put 1 0 = some value₂ :=
        LocalArray.put_eq (by change 1 < value.size; rw [hvalue]; exact Nat.one_lt_two)
      have hbytes : value₂.bytes = [buf.byte i, 0] := by
        change (List.range value.size).map value₂.byte = _
        rw [hvalue]
        rfl
      have hrest : (List.range n).map ((fun k => byteFormat (buf.byte (i + k))) ∘ Nat.succ) =
          (List.range n).map fun k => byteFormat (buf.byte (i + 1 + k)) := by
        refine List.map_congr_left fun k _ => ?_
        rw [Function.comp_apply, Nat.add_right_comm]
        rfl
      have hget : buf.get i = some (buf.byte i) := LocalArray.get_eq (by omega)
      rw [writeErrLoop, hget, Option.bind_eq_bind, Option.bind_some, hfirst,
        Option.bind_eq_bind, Option.bind_some, hsecond, Option.bind_eq_bind, Option.bind_some,
        kprintfAt_value _ hbytes, List.range_succ_eq_map, List.map_cons, List.map_map, hrest,
        printAll, Nat.add_zero]
      have hvalue₂ : value₂.size = 2 := hvalue
      have hloop : writeErrLoop args buf n (i + 1) value₂ = printAll args (i + 1)
          ((List.range n).map fun k => byteFormat (buf.byte (i + 1 + k))) :=
        funext fun s => ih hvalue₂ (by omega) s
      rw [hloop]
      rfl

theorem doWriteErr_eq (hsize : size.toInt = buf.size) (ctx : Context) (s : Screen) :
    doWriteErr ctx buf size s =
      (printAll ctx.args 0 (buf.bytes.map byteFormat) s).map fun s => (1, buf, s) := by
  have hturns : size.toInt.toNat = buf.size := by rw [hsize, Int.toNat_natCast]
  have hformats : (List.range buf.size).map (fun k => byteFormat (buf.byte (0 + k))) =
      buf.bytes.map byteFormat := by
    rw [LocalArray.bytes, List.map_map]
    simp only [Nat.zero_add]
    rfl
  rw [doWriteErr, hturns, writeErrLoop_eq rfl (Nat.zero_add _).le, hformats]
  cases printAll ctx.args 0 (buf.bytes.map byteFormat) s <;> rfl

/-- The screen is what the formats leave that `FileSystem.doWriteErr` records. -/
theorem doWriteErr_refines (hsize : size.toInt = buf.size) (ctx : Context) (s : Screen)
    (files : FileSystem) :
    ∃ formats, (files.doWriteErr buf.bytes size).2.printed = files.printed ++ formats ∧
      doWriteErr ctx buf size s = (printAll ctx.args 0 formats s).map fun s => (1, buf, s) := by
  refine ⟨_, ?_, doWriteErr_eq hsize ctx s⟩
  rw [FileSystem.doWriteErr, hsize, Int.toNat_natCast, ← LocalArray.length_bytes, List.take_length]

/-- A `%` stops the calls: there is no terminator behind the character it is followed by. -/
theorem printAll_percent (hpercent : (37 : UInt8) ∈ text) (i : Nat) (s : Screen) :
    printAll args i (text.map byteFormat) s = none := by
  induction text generalizing i s with
  | nil => cases hpercent
  | cons c cs ih =>
      rw [List.map_cons, printAll]
      -- it is this byte, or the calls up to it come to it if they come back
      rcases List.mem_cons.1 hpercent with rfl | hcs
      · rfl
      · cases kprintf (args i) (byteFormat c) s with
        | none => rfl
        | some s => exact ih hcs (i + 1) s

/-- A text without `%` is typed. -/
theorem printAll_text (htext : ∀ c ∈ text, PrintableByte c) (hpercent : (37 : UInt8) ∉ text)
    (i : Nat) (s : Screen) : printAll args i (text.map byteFormat) s = some (s.typeText text) := by
  induction text generalizing i s with
  | nil => rfl
  | cons c cs ih =>
      have hc : c ≠ 0 := (htext c List.mem_cons_self).ne_zero
      have hformat : byteFormat c = [c] := by simp [hc]
      have hone : kprintf (args i) [c] s = some (s.typeChar c) := by
        refine kprintf_text (fun d hd => ?_) (fun hin => ?_) (args i) s
        · rw [List.mem_singleton.1 hd]
          exact htext c List.mem_cons_self
        · exact hpercent (List.mem_singleton.1 hin ▸ List.mem_cons_self)
      rw [List.map_cons, printAll, hformat, hone, Option.bind_some,
        ih (fun d hd => htext d (List.mem_cons_of_mem _ hd))
          (fun hin => hpercent (List.mem_cons_of_mem _ hin))]
      rfl

theorem doWriteErr_prints (hsize : size.toInt = buf.size)
    (htext : ∀ c ∈ buf.bytes, PrintableByte c) (hpercent : (37 : UInt8) ∉ buf.bytes) :
    Prints buf s (doWriteErr ctx buf size s) := by
  rw [doWriteErr_eq hsize, printAll_text htext hpercent]
  exact ⟨1, _, rfl, rfl, rfl⟩

theorem not_doWriteErr_prints (hsize : size.toInt = buf.size)
    (hpercent : (37 : UInt8) ∈ buf.bytes) : ¬ Prints buf s (doWriteErr ctx buf size s) := by
  rw [doWriteErr_eq hsize, printAll_percent hpercent]
  rintro ⟨r, s', hnone, -⟩
  cases hnone

/-! ## `do_write` -/

theorem kmemcpychar_isSome {source dest : LocalArray} (hsource : i + n ≤ source.size)
    (hdest : i + n ≤ dest.size) : (kmemcpychar source n i dest).isSome := by
  induction n generalizing i dest with
  | zero => rfl
  | succ n ih =>
      have hget : source.get i = some (source.byte i) := LocalArray.get_eq (by omega)
      have hput : dest.put i (source.byte i) =
          some { dest with byte := Bytes.store dest.byte i (source.byte i) } :=
        LocalArray.put_eq (by omega)
      rw [kmemcpychar, hget, Option.bind_eq_bind, Option.bind_some, hput, Option.bind_eq_bind,
        Option.bind_some]
      exact ih (by omega) (by change i + 1 + n ≤ dest.size; omega)

theorem toNat_of_toInt (hsize : size.toInt = n) : size.toNat = n := by
  have hcases := BitVec.toInt_eq_toNat_cond size
  split_ifs at hcases <;> omega

/-- Its NUL is behind the buffer. -/
theorem not_doWrite_prints (hpos : 0 < buf.size) (hsize : size.toInt = buf.size) :
    ¬ Prints buf s (doWrite ctx buf size s) := by
  have hnat : size.toNat = buf.size := toNat_of_toInt hsize
  have hput : buf.put size.toNat 0 = none := if_neg (by omega)
  rintro ⟨r, s', hcall, -⟩
  rw [doWrite, if_neg (by omega)] at hcall
  rcases Option.bind_eq_some_iff.1 hcall with ⟨_, -, hcall⟩
  rw [hput] at hcall
  cases hcall

/-- Where the memory goes on behind the buffer, the byte there is lost; a text without `%` that has
room on the page is shown. -/
theorem doWrite_prints_behind {mem : LocalArray} (hpos : 0 < buf.size)
    (hsize : size.toInt = buf.size) (hroom : buf.size < mem.size)
    (hbuf : ∀ k < buf.size, mem.byte k = buf.byte k)
    (htext : ∀ c ∈ buf.bytes, PrintableByte c) (hpercent : (37 : UInt8) ∉ buf.bytes)
    (hpage : s.outputstring + 2 * buf.size ≤ 160 * 21) :
    ∃ s', doWrite ctx mem size s =
        some (1, { mem with byte := Bytes.store mem.byte buf.size 0 }, s') ∧
      Shows s buf.bytes s' := by
  have hnat : size.toNat = buf.size := toNat_of_toInt hsize
  have hcopy : (kmemcpychar mem size.toNat 0 ⟨size.toNat, ctx.stack⟩).isSome :=
    kmemcpychar_isSome (by omega) (Nat.zero_add _).le
  rcases Option.isSome_iff_exists.1 hcopy with ⟨value, hvalue⟩
  have hput : mem.put size.toNat 0 =
      some { mem with byte := Bytes.store mem.byte buf.size 0 } := by
    rw [hnat, LocalArray.put_eq hroom]
  have hnul : (0 : UInt8) ∉ buf.bytes := fun h => (htext 0 h).ne_zero rfl
  have hne : buf.bytes ≠ [] := by
    intro hempty
    rw [← LocalArray.length_bytes, hempty] at hpos
    exact absurd hpos (Nat.lt_irrefl 0)
  -- the format is the buffer, and the NUL behind it ends it
  let after : LocalArray := { mem with byte := Bytes.store mem.byte buf.size 0 }
  have hsame : ∀ k < buf.size, after.byte k = buf.byte k := by
    intro k hk
    rw [← hbuf k hk]
    exact Bytes.write_below hk
  have hend : after.byte buf.size = 0 := by
    change Bytes.store mem.byte buf.size 0 buf.size = 0
    rw [Bytes.store_eq_update, Function.update_self]
  have hafter : buf.size < after.size := hroom
  rcases LocalArray.bytes_of_prefix hafter hsame with ⟨rest, hbytes⟩
  rw [hend] at hbytes
  have hprint := kprintfAt_string hbytes hnul (kprintf_text htext hpercent (ctx.args 0) s)
  refine ⟨_, ?_, shows_put hne (by rwa [LocalArray.length_bytes])⟩
  rw [doWrite, if_neg (by omega), hvalue, Option.bind_eq_bind, Option.bind_some, hput,
    Option.bind_eq_bind, Option.bind_some, hprint]
  rfl

/-! ## Every text -/

variable {msg : LocalArray}

/-- `sys_write` on the descriptors 1 and 2 puts a text on the screen just when it has no `%`;
`do_write` always leaves the buffer. -/
theorem sysWrite_prints_iff (hslots : StderrSlots files) (hfd : fd = 1 ∨ fd = 2)
    (hpos : 0 < msg.size) (hsize : size.toInt = msg.size)
    (htext : ∀ c ∈ msg.bytes, PrintableByte c) (ctx : Context) (s : Screen) :
    (Prints msg s (sysWrite files ctx fd msg size s) ↔ (37 : UInt8) ∉ msg.bytes) ∧
      ¬ Prints msg s (doWrite ctx msg size s) := by
  rw [hslots.sysWrite_eq hfd]
  refine ⟨⟨fun hprints hpercent => ?_, fun hpercent => ?_⟩, not_doWrite_prints hpos hsize⟩
  · exact not_doWriteErr_prints hsize hpercent hprints
  · exact doWriteErr_prints hsize htext hpercent

/-- The slots as the kernel starts with them. -/
def stdFiles : FileSystem :=
  initialiseDescriptors emptyFileSystem ⟨[115, 116, 100, 105, 110], 0, 1⟩
    ⟨[115, 116, 100, 111, 117, 116], 0, 2⟩ ⟨[115, 116, 100, 101, 114, 114], 0, 3⟩

/-- Registers and a stack with nothing in them. -/
def noContext : Context := ⟨fun _ => ⟨fun _ => 0, fun _ => []⟩, fun _ => 0⟩

def bufferOf (text : List UInt8) : LocalArray := ⟨text.length, fun k => text.getD k 0⟩

/-- `hi` on the empty screen. -/
theorem sysWrite_prints_hi : Prints (bufferOf [104, 105]) (Display.start fun _ => 0).screen
    (sysWrite stdFiles noContext 1 (bufferOf [104, 105]) 2 (Display.start fun _ => 0).screen) := by
  have hslots : StderrSlots stdFiles := stderrSlots_initialise _ _ _ _
  have hfd : (1 : BitVec 32) = 1 ∨ (1 : BitVec 32) = 2 := Or.inl rfl
  have hpos : 0 < (bufferOf [104, 105]).size := by decide
  have hsize : (2 : BitVec 32).toInt = (bufferOf [104, 105]).size := by decide
  have htext : ∀ c ∈ (bufferOf [104, 105]).bytes, PrintableByte c := by decide +kernel
  have hpercent : (37 : UInt8) ∉ (bufferOf [104, 105]).bytes := by decide
  exact (sysWrite_prints_iff hslots hfd hpos hsize htext noContext _).1.2 hpercent

/-- `100%` is not printed. -/
theorem not_sysWrite_prints :
    ¬ Prints (bufferOf [49, 48, 48, 37]) (Display.start fun _ => 0).screen
      (sysWrite stdFiles noContext 1 (bufferOf [49, 48, 48, 37]) 4
        (Display.start fun _ => 0).screen) := by
  have hslots : StderrSlots stdFiles := stderrSlots_initialise _ _ _ _
  rw [hslots.sysWrite_eq (Or.inl rfl)]
  exact not_doWriteErr_prints (by decide) (by decide)

end Console

end Files

end OswpKernel
