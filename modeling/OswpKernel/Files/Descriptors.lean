import OswpKernel.Files.Block
import OswpKernel.Files.Read
import OswpKernel.Terminal.Lines

/-!
# Descriptors — the descriptor table and the calls that use it (`fs.c`, `syscall.c`)

`file_descriptors` has 25 slots; a slot is empty when it holds NULL.  `none` is an access outside an
array or through NULL.  Strings are lists of characters without the NUL.

`sys_read`, `sys_write`, `do_opendir` and `do_readdir` use the slot of a descriptor without looking
at it: `descriptors_guarded_iff` says that they meet their contract just on the descriptors that are
open, and on the names that can be opened.
-/

namespace OswpKernel

namespace Files

/-! ## The state -/

/-- What the pointer `write` of an inode leads to. -/
inductive WriteOp
  | null
  | doWrite
  | doWriteErr
  deriving DecidableEq, Repr

/-- What `do_opendir` reads of a `struct PCB`. -/
structure ProcessInfo where
  name : List UInt8
  state : Nat
  pid : BitVec 32
  ppid : BitVec 32

/-- For the numerals among the descriptors. -/
instance neZero_descriptors : NeZero (25 : Nat) := ⟨by decide⟩

structure FileSystem where
  heap : Heap
  write : InodeRef → WriteOp
  /-- `*filefs_root`. -/
  filefsRoot : Tnode
  fileDescriptors : Fin 25 → Option Tnode
  terminal : Keyboard.Terminal
  processes : Nat → ProcessInfo
  /-- The formats `kprintf` has been called with. -/
  printed : List (List UInt8)

namespace FileSystem

variable (s : FileSystem)

/-- `file_descriptors[fd]`, for a use through the pointer. -/
def descriptor (fd : BitVec 32) : Option Tnode :=
  if h : fd.toNat < 25 then s.fileDescriptors ⟨fd.toNat, h⟩ else none

def setSlot (i : Fin 25) (node : Option Tnode) : FileSystem :=
  { s with fileDescriptors := Function.update s.fileDescriptors i node }

/-- The loops that look for an empty slot, from `i` on. -/
def emptySlot (i : Nat) : Option (Fin 25) :=
  (List.finRange 25).find? fun j => i ≤ (j : Nat) ∧ s.fileDescriptors j = none

/-- `"\n File not found"`. -/
def fileNotFound : List UInt8 :=
  [10, 32, 70, 105, 108, 101, 32, 110, 111, 116, 32, 102, 111, 117, 110, 100]

/-! ## Opening and closing -/

def doDopen (subName : Bytes.Memory) (fileName : List UInt8) :
    Option (BitVec 32 × FileSystem) := do
  match ← Frame.findFile s.heap s.filefsRoot subName fileName with
  | none => return (-1, { s with printed := s.printed ++ [fileNotFound] })
  | some item =>
      match s.emptySlot 0 with
      | none => return (-1, s)
      | some i => return (BitVec.ofNat 32 i, s.setSlot i (some item))

/-- `do_fopen`; `page` is the page of the new inode. -/
def doFopen (subName : Bytes.Memory) (fileName : List UInt8) (page : InodeRef) :
    Option (BitVec 32 × FileSystem) := do
  match ← Frame.findFile s.heap s.filefsRoot subName fileName with
  | none => return (-1, s)
  | some item =>
      let (copyitem, heap) := s.heap.copytnode page item
      let s := { s with
        heap := heap
        write := Function.update s.write page (s.write item.linkToInode) }
      match s.emptySlot 3 with
      | none => return (-1, s)
      | some i => return (BitVec.ofNat 32 i, s.setSlot i (some copyitem))

def doClose (fd : BitVec 32) : BitVec 32 × FileSystem :=
  match (List.finRange 25).find? fun i : Fin 25 => BitVec.ofNat 32 i = fd with
  | some i => (0, s.setSlot i none)
  | none => (-1, s)

/-! ## `sys_read` and `sys_write` -/

/-- What `sys_read` comes back with; on the keyboard it may have to wait. -/
inductive ReadOutcome
  | returned (r : BitVec 64)
  | waits
  deriving DecidableEq

def sysRead (fd size : BitVec 32) : Option (ReadOutcome × FileSystem) :=
  if fd ≠ 0 then do
    let node ← s.descriptor fd
    let (served, heap) := readVfs s.heap node size
    return (.returned (served.returned.signExtend 64), { s with heap := heap })
  else
    match s.terminal.checkForIp size.toInt with
    | (some _, t) => some (.returned 0, { s with terminal := t })
    | (none, t) => some (.waits, { s with terminal := t })

/-- `do_write`; the buffer is printed as a format. -/
def doWrite (buf : List UInt8) (size : BitVec 32) : BitVec 32 × FileSystem :=
  if size.toInt ≤ 0 then (-1, s)
  else (1, { s with printed := s.printed ++ [(buf.take size.toNat).takeWhile (· ≠ 0)] })

/-- `do_write_err`: every character is a format of its own. -/
def doWriteErr (buf : List UInt8) (size : BitVec 32) : BitVec 32 × FileSystem :=
  (1, { s with printed := s.printed ++
    (buf.take size.toInt.toNat).map fun c => [c].takeWhile (· ≠ 0) })

def writeVfs (node : Tnode) (buf : List UInt8) (size : BitVec 32) : BitVec 32 × FileSystem :=
  match s.write node.linkToInode with
  | .null => (0, s)
  | .doWrite => s.doWrite buf size
  | .doWriteErr => s.doWriteErr buf size

def sysWrite (fd : BitVec 32) (msg : List UInt8) (size : BitVec 32) :
    Option (BitVec 32 × FileSystem) := do
  let node ← s.descriptor fd
  return s.writeVfs node msg size

end FileSystem

/-! ## Directories -/

/-- `DIR`. -/
structure Dirent where
  dName : List UInt8
  dNo : BitVec 32
  fd : BitVec 32
  state : Nat
  pid : BitVec 32
  ppid : BitVec 32
  deriving DecidableEq

/-- An entry behind the ones `do_opendir` has written. -/
def Dirent.zero : Dirent := ⟨[], 0, 0, 0, 0, 0⟩

namespace FileSystem

variable (s : FileSystem)

/-- The entry of a directory. -/
def folderEntry (fd : BitVec 32) (node : Tnode) : Dirent :=
  { Dirent.zero with dName := node.name, fd := fd }

/-- The entry of a file; one that belongs to a process has the name and the state of the process. -/
def fileEntry (fd : BitVec 32) (node : Tnode) : Dirent :=
  let link := (s.heap.inodes node.linkToInode).linkToProcess
  if link ≠ 0 then
    let process := s.processes link
    { dName := process.name, dNo := 0, fd := fd
      state := if process.state ≤ 2 then process.state else 0
      pid := process.pid, ppid := process.ppid }
  else folderEntry fd node

/-- `do_opendir`; the result is what `dirptr` points to. -/
def doOpendir (subName : Bytes.Memory) (dirname : List UInt8) :
    Option (Option (List Dirent) × FileSystem) := do
  let (fd, s) ← s.doDopen subName dirname
  let node ← s.descriptor fd
  let inode := s.heap.inodes node.linkToInode
  return (some (inode.subDirectoryList.map (folderEntry fd) ++
    inode.subFilesList.map (s.fileEntry fd)), s)

/-- `do_readdir`: the index of the entry it returns, and what `dir` points to afterwards. -/
def doReaddir (dir : List Dirent) : Option ((Option Nat × List Dirent) × FileSystem) := do
  let node ← s.descriptor (dir.getD 0 Dirent.zero).fd
  let inode := s.heap.inodes node.linkToInode
  let totalfiles := inode.subFilesList.length + inode.subDirectoryList.length
  let i := dir.findIdx fun entry => entry.dNo ≠ 1
  let entry := dir.getD i Dirent.zero
  if i < totalfiles ∧ 0 < entry.dName.length then
    return ((some i, dir.set i { entry with dNo := 1 }), s)
  else
    return ((none, dir), s)

/-! ## Which descriptors the calls accept -/

/-- The descriptor is one of the table, and its slot is in use. -/
def Open (fd : BitVec 32) : Prop := (s.descriptor fd).isSome

/-- The name is found, and a slot is empty. -/
def Openable (subName : Bytes.Memory) (name : List UInt8) : Prop :=
  (∃ item, Frame.findFile s.heap s.filefsRoot subName name = some (some item)) ∧
    (s.emptySlot 0).isSome

instance (fd : BitVec 32) : Decidable (s.Open fd) := inferInstanceAs (Decidable (_ = true))

end FileSystem

/-- A call stays inside the table and the slots in use; on a bad argument it returns an error and
leaves the state as it was. -/
def Guarded {α : Type} (call : Option (α × FileSystem)) (s : FileSystem) (bad : Prop) (error : α) :
    Prop :=
  ∃ r s', call = some (r, s') ∧ (bad → r = error ∧ s' = s)

variable {s : FileSystem} {fd : BitVec 32} {subName : Bytes.Memory} {name : List UInt8}

/-- A call that goes through the slot of its descriptor is guarded just for an open one. -/
theorem guarded_iff_open {α : Type} (f : Tnode → α × FileSystem) (error : α) :
    Guarded ((s.descriptor fd).bind fun node => some (f node)) s (¬ s.Open fd) error ↔
      s.Open fd := by
  constructor
  · rintro ⟨r, s', hcall, -⟩
    rcases Option.bind_eq_some_iff.1 hcall with ⟨node, hnode, -⟩
    exact Option.isSome_iff_exists.2 ⟨node, hnode⟩
  · intro hopen
    rcases Option.isSome_iff_exists.1 hopen with ⟨node, hnode⟩
    exact ⟨_, _, by rw [hnode, Option.bind_some], fun hbad => absurd hopen hbad⟩

theorem sysRead_guarded_iff (fd size : BitVec 32) :
    Guarded (s.sysRead fd size) s (¬ s.Open fd) (.returned (-1)) ↔ s.Open fd := by
  by_cases hfd : fd ≠ 0
  · have hcall : s.sysRead fd size = (s.descriptor fd).bind fun node =>
        some (.returned ((readVfs s.heap node size).1.returned.signExtend 64),
          { s with heap := (readVfs s.heap node size).2 }) := by
      rw [FileSystem.sysRead, if_pos hfd]
      rfl
    rw [hcall]
    exact guarded_iff_open _ _
  · -- the keyboard is read whatever the slot 0 holds
    constructor
    · rintro ⟨r, s', hcall, hbad⟩
      by_contra hclosed
      rcases hbad hclosed with ⟨rfl, -⟩
      rw [FileSystem.sysRead, if_neg hfd] at hcall
      split at hcall
      · cases congrArg Prod.fst (Option.some_inj.1 hcall)
      · cases congrArg Prod.fst (Option.some_inj.1 hcall)
    · intro hopen
      rcases hpoll : s.terminal.checkForIp size.toInt with ⟨_ | result, t⟩
      · exact ⟨_, _, by rw [FileSystem.sysRead, if_neg hfd, hpoll], fun hbad => absurd hopen hbad⟩
      · exact ⟨_, _, by rw [FileSystem.sysRead, if_neg hfd, hpoll], fun hbad => absurd hopen hbad⟩

theorem sysWrite_guarded_iff (fd : BitVec 32) (msg : List UInt8) (size : BitVec 32) :
    Guarded (s.sysWrite fd msg size) s (¬ s.Open fd) (-1) ↔ s.Open fd :=
  guarded_iff_open (fun node => s.writeVfs node msg size) _

theorem doReaddir_guarded_iff (dir : List Dirent) :
    Guarded (s.doReaddir dir) s (¬ s.Open (dir.getD 0 Dirent.zero).fd) (none, dir) ↔
      s.Open (dir.getD 0 Dirent.zero).fd := by
  constructor
  · rintro ⟨r, s', hcall, -⟩
    rcases Option.bind_eq_some_iff.1 hcall with ⟨node, hnode, -⟩
    exact Option.isSome_iff_exists.2 ⟨node, hnode⟩
  · intro hopen
    rcases Option.isSome_iff_exists.1 hopen with ⟨node, hnode⟩
    rw [FileSystem.doReaddir, hnode, Option.bind_eq_bind, Option.bind_some]
    dsimp only
    split_ifs
    · exact ⟨_, _, rfl, fun hbad => absurd hopen hbad⟩
    · exact ⟨_, _, rfl, fun hbad => absurd hopen hbad⟩

theorem emptySlot_eq_some {i : Nat} {j : Fin 25} (h : s.emptySlot i = some j) :
    i ≤ (j : Nat) ∧ s.fileDescriptors j = none := by
  simpa using List.find?_some h

theorem descriptor_ofNat (s : FileSystem) (i : Fin 25) :
    s.descriptor (BitVec.ofNat 32 i) = s.fileDescriptors i := by
  have hi : (BitVec.ofNat 32 (i : Nat)).toNat = i := by
    rw [BitVec.toNat_ofNat, Nat.mod_eq_of_lt (i.isLt.trans (by decide))]
  have hlt : (BitVec.ofNat 32 (i : Nat)).toNat < 25 := by
    rw [hi]
    exact i.isLt
  rw [FileSystem.descriptor, dif_pos hlt]
  exact congrArg _ (Fin.ext hi)

theorem descriptor_minusOne (s : FileSystem) : s.descriptor (-1) = none := dif_neg (by decide)

/-- `do_dopen` fails with -1, and then `do_opendir` uses the slot -1. -/
theorem doOpendir_guarded_iff (subName : Bytes.Memory) (dirname : List UInt8) :
    Guarded (s.doOpendir subName dirname) s (¬ s.Openable subName dirname) none ↔
      s.Openable subName dirname := by
  constructor
  · rintro ⟨r, s', hcall, -⟩
    rcases Option.bind_eq_some_iff.1 hcall with ⟨⟨fd, s₁⟩, hopened, hcall⟩
    rcases Option.bind_eq_some_iff.1 hcall with ⟨node, hnode, -⟩
    rcases Option.bind_eq_some_iff.1 hopened with ⟨found, hfind, hopened⟩
    cases found with
    | none =>
        cases hopened
        rw [descriptor_minusOne] at hnode
        cases hnode
    | some item =>
        refine ⟨⟨item, hfind⟩, ?_⟩
        by_contra hfull
        have hslot : s.emptySlot 0 = none := Option.not_isSome_iff_eq_none.1 hfull
        simp only [hslot] at hopened
        cases hopened
        rw [descriptor_minusOne] at hnode
        cases hnode
  -- with a directory and a free slot both calls succeed, and the guard is vacuous
  · rintro ⟨⟨item, hfind⟩, hslot⟩
    rcases Option.isSome_iff_exists.1 hslot with ⟨i, hi⟩
    have hopened : s.doDopen subName dirname =
        some (BitVec.ofNat 32 i, s.setSlot i (some item)) := by
      rw [FileSystem.doDopen, hfind, Option.bind_eq_bind, Option.bind_some]
      simp only [hi]
      rfl
    have hnode : (s.setSlot i (some item)).descriptor (BitVec.ofNat 32 i) = some item := by
      rw [descriptor_ofNat]
      exact Function.update_self ..
    have hopenable : s.Openable subName dirname := ⟨⟨item, hfind⟩, hslot⟩
    rw [FileSystem.doOpendir, hopened, Option.bind_eq_bind, Option.bind_some]
    simp only [hnode]
    exact ⟨_, _, rfl, fun hbad => absurd hopenable hbad⟩

/-- In every state each of the four calls is guarded just on what is open, or can be opened. -/
theorem descriptors_guarded_iff (s : FileSystem) :
    (∀ fd size, Guarded (s.sysRead fd size) s (¬ s.Open fd) (.returned (-1)) ↔ s.Open fd) ∧
    (∀ fd msg size, Guarded (s.sysWrite fd msg size) s (¬ s.Open fd) (-1) ↔ s.Open fd) ∧
    (∀ subName dirname,
      Guarded (s.doOpendir subName dirname) s (¬ s.Openable subName dirname) none ↔
        s.Openable subName dirname) ∧
    (∀ dir, Guarded (s.doReaddir dir) s (¬ s.Open (dir.getD 0 Dirent.zero).fd) (none, dir) ↔
      s.Open (dir.getD 0 Dirent.zero).fd) :=
  ⟨sysRead_guarded_iff, sysWrite_guarded_iff, doOpendir_guarded_iff, doReaddir_guarded_iff⟩

/-- A root directory without entries, and no descriptor in use. -/
def emptyFileSystem : FileSystem where
  heap :=
    { inodes := fun _ => ⟨FS_MOUNTPOINT, 0, 0, [], [], 0, false⟩
      stale := fun _ => 0 }
  write := fun _ => .null
  filefsRoot := ⟨[slash], 0, 0⟩
  fileDescriptors := fun _ => none
  terminal := Keyboard.Terminal.initializeKeyboardBuffer fun _ => Keyboard.nul
  processes := fun _ => ⟨[], 0, 0, 0⟩
  printed := []

/-- Reading from a descriptor that is not open goes through NULL. -/
theorem not_descriptors_guarded :
    ¬ ∀ s : FileSystem,
      (∀ fd size, Guarded (s.sysRead fd size) s (¬ s.Open fd) (.returned (-1))) ∧
      (∀ fd msg size, Guarded (s.sysWrite fd msg size) s (¬ s.Open fd) (-1)) ∧
      (∀ subName dirname,
        Guarded (s.doOpendir subName dirname) s (¬ s.Openable subName dirname) none) ∧
      (∀ dir, Guarded (s.doReaddir dir) s (¬ s.Open (dir.getD 0 Dirent.zero).fd) (none, dir)) := by
  intro h
  exact absurd ((sysRead_guarded_iff 7 100).1 ((h emptyFileSystem).1 7 100)) (by decide)

/-- A directory that does not exist is looked up in the slot -1, a closed descriptor is written to
through NULL. -/
example : emptyFileSystem.doOpendir (fun _ => 0) [slash, 120] = none ∧
    emptyFileSystem.sysWrite 7 [104, 105] 2 = none :=
  ⟨rfl, rfl⟩

end Files

end OswpKernel
