import OswpKernel.Files.Bounds
import OswpKernel.Files.Descriptors
import OswpKernel.UserHeap.Basic

/-!
# DirArray — the arrays of `DIR` on the heap of a process (`fs.c`)

`do_opendir` takes a block of the heap for one `DIR` of 48 bytes for each entry of the directory,
`do_readdir` marks the entries it has returned, and `do_closedir` clears entry after entry until it
comes to one with an empty name.  Nothing marks the end of the array.

`DirentAt` says that an entry is at an address; `doOpendir_opened` and `doOpendir_opens` say when
`do_opendir` comes back, and that the array then holds what the list of `FileSystem.doOpendir`
holds.
-/

namespace OswpKernel

namespace Files

/-! ## The calls -/

/-- The kernel, and the heap of the process that calls: its blocks, and the bytes from its first
page on, as far as they are mapped. -/
structure Caller where
  files : FileSystem
  arena : UserHeap.Arena
  heap : LocalArray

/-- `kstrcopy(dirptr[i].d_name, name)`, where `d_name` is at `start` and has 26 bytes. -/
def copyName (name : List UInt8) (start : Nat) (heap : LocalArray) : Option LocalArray :=
  if name.length < 26 then Frame.kstrcopy heap start name else none

/-- The entry at `start` gets a name and its descriptor. -/
def writeFolder (fd : BitVec 32) (node : Tnode) (start : Nat) (heap : LocalArray) :
    Option LocalArray := do
  let heap ← copyName node.name start heap
  let heap ← heap.putInt (start + 28) 0
  heap.putInt (start + 32) fd

/-- `dirptr[i].state = 0;` and so on, for the states 0, 1 and 2. -/
def writeState (state : Nat) (start : Nat) (heap : LocalArray) : Option LocalArray :=
  if state ≤ 2 then heap.putInt (start + 36) (BitVec.ofNat 32 state) else some heap

/-- What the entry of a process gets on top. -/
def writeProcess (process : ProcessInfo) (start : Nat) (heap : LocalArray) :
    Option LocalArray := do
  let heap ← copyName process.name start heap
  let heap ← writeState process.state start heap
  let heap ← heap.putInt (start + 40) process.pid
  heap.putInt (start + 44) process.ppid

def writeFile (s : FileSystem) (fd : BitVec 32) (node : Tnode) (start : Nat)
    (heap : LocalArray) : Option LocalArray := do
  let heap ← writeFolder fd node start heap
  let link := (s.heap.inodes node.linkToInode).linkToProcess
  if link ≠ 0 then writeProcess (s.processes link) start heap else return heap

/-- A loop over the nodes of a list, with `dirptr + i` at `start`. -/
def writeEntries (write : Tnode → Nat → LocalArray → Option LocalArray) :
    List Tnode → Nat → LocalArray → Option LocalArray
  | [], _, heap => some heap
  | node :: nodes, start, heap => do
      let heap ← write node start heap
      writeEntries write nodes (start + 48) heap

/-- The nodes that get an entry. -/
def FileSystem.totalfiles (s : FileSystem) (node : Tnode) : Nat :=
  (s.heap.inodes node.linkToInode).subFilesList.length +
    (s.heap.inodes node.linkToInode).subDirectoryList.length

namespace Caller

variable (s : Caller)

/-- `do_opendir`; `subName` is what the buffer of `find_file` holds, and `heap` of the caller what
the pages of the heap hold after `sys_malloc` and `map_user_address`. -/
def doOpendir (subName : Bytes.Memory) (dirname : List UInt8) : Option (Nat × Caller) := do
  let (fd, files) ← s.files.doDopen subName dirname
  let node ← files.descriptor fd
  let inode := files.heap.inodes node.linkToInode
  let size := files.totalfiles node * 48
  let (block, arena) ← s.arena.doMalloc (BitVec.ofNat 64 size)
  let dirptr := 16 * block
  let heap ← s.heap.fill dirptr (List.replicate size 0)
  let heap ← writeEntries (writeFolder fd) inode.subDirectoryList dirptr heap
  let heap ← writeEntries (writeFile files fd) inode.subFilesList
    (dirptr + 48 * inode.subDirectoryList.length) heap
  return (dirptr, { files, arena, heap })

/-- `for (i = 0; dir[i].d_no == 1; i++);`. -/
def firstUnread (heap : LocalArray) (dir : Nat) : Nat → Nat → Option Nat
  | 0, _ => none
  | fuel + 1, i => do
      let dNo ← heap.getInt (dir + 48 * i + 28)
      if dNo = 1 then firstUnread heap dir fuel (i + 1) else return i

/-- `do_readdir`: NULL or the address of the entry it returns. -/
def doReaddir (dir : Nat) : Option (Option Nat × Caller) := do
  let fd ← s.heap.getInt (dir + 32)
  let node ← s.files.descriptor fd
  let i ← firstUnread s.heap dir s.heap.size 0
  if i < s.files.totalfiles node then
    let dName ← s.heap.string (dir + 48 * i)
    if 0 < dName.length then
      let heap ← s.heap.putInt (dir + 48 * i + 28) 1
      return (some (dir + 48 * i), { s with heap })
    else return (none, s)
  else return (none, s)

/-- `memset(dirp[j].d_name, 0, sizeof(dirp[j].d_name)); dirp[j].d_no = -1; dirp[j].fd = -1;`. -/
def clearEntry (start : Nat) (heap : LocalArray) : Option LocalArray := do
  let heap ← heap.fill start (List.replicate 26 0)
  let heap ← heap.putInt (start + 28) (-1)
  heap.putInt (start + 32) (-1)

/-- `for (int j = 0; kstrlength(dirp[j].d_name) > 0; j++)`, with `dirp + j` at `start`. -/
def clearEntries : Nat → Nat → LocalArray → Option LocalArray
  | 0, _, _ => none
  | fuel + 1, start, heap => do
      let dName ← heap.string start
      if 0 < dName.length then
        let heap ← clearEntry start heap
        clearEntries fuel (start + 48) heap
      else return heap

/-- `do_closedir`. -/
def doClosedir (dirp : Nat) : Option (BitVec 32 × Caller) := do
  let fd ← s.heap.getInt (dirp + 32)
  match (List.finRange 25).find? fun i : Fin 25 => BitVec.ofNat 32 i = fd with
  | some i =>
      let files := s.files.setSlot i none
      let heap ← clearEntries s.heap.size dirp s.heap
      return (0, { s with files, heap })
  | none => return (-1, s)

end Caller

/-! ## Entries in memory -/

/-- The integers of an entry, from `d_no` on. -/
def Dirent.int (e : Dirent) : Nat → BitVec 32
  | 0 => e.dNo
  | 1 => e.fd
  | 2 => BitVec.ofNat 32 e.state
  | 3 => e.pid
  | _ => e.ppid

/-- The entry `e` is at `start`. -/
structure DirentAt (heap : LocalArray) (start : Nat) (e : Dirent) : Prop where
  room : start + 48 ≤ heap.size
  length : e.dName.length ≤ 25
  name : Bytes.IsString heap.byte start e.dName
  ints : ∀ k, k < 5 → Bytes.Holds heap.byte (start + 28 + 4 * k) (Bytes.toBytes 4 (e.int k).toNat)

variable {heap heap' : LocalArray} {start lo hi k n : Nat} {e e' : Dirent} {w fd : BitVec 32}
  {name : List UInt8} {node : Tnode} {nodes : List Tnode} {files : FileSystem}

namespace DirentAt

theorem congr (h : DirentAt heap start e) (hsize : heap'.size = heap.size)
    (hsame : ∀ x, start ≤ x → x < start + 48 → heap'.byte x = heap.byte x) :
    DirentAt heap' start e where
  room := hsize.symm ▸ h.room
  length := h.length
  name := h.name.congr fun x hx hx' => hsame x hx (by have := h.length; omega)
  ints k hk := (h.ints k hk).congr fun x hx hx' => by
    rw [Bytes.length_toBytes] at hx'
    exact hsame x (by omega) (by omega)

/-- An entry elsewhere stays. -/
theorem frame (h : DirentAt heap start e) (hwrites : heap.Writes heap' lo hi)
    (hapart : start + 48 ≤ lo ∨ hi ≤ start) : DirentAt heap' start e := by
  refine h.congr hwrites.size fun x hx hx' => ?_
  rcases hapart with hbelow | habove
  · exact hwrites.below x (by omega)
  · exact hwrites.above x (by omega)

theorem getInt (h : DirentAt heap start e) (hk : k < 5) :
    heap.getInt (start + 28 + 4 * k) = some (e.int k) := by
  have hroom := h.room
  exact LocalArray.getInt_eq (h.ints k hk) (by omega)

theorem getDNo (h : DirentAt heap start e) : heap.getInt (start + 28) = some e.dNo :=
  h.getInt (show 0 < 5 by decide)

theorem getFd (h : DirentAt heap start e) : heap.getInt (start + 32) = some e.fd :=
  h.getInt (show 1 < 5 by decide)

theorem string (h : DirentAt heap start e) : heap.string start = some e.dName := by
  have hroom := h.room
  have hlen := h.length
  exact LocalArray.string_eq h.name (by omega)

/-- One of the integers is written. -/
theorem putInt (h : DirentAt heap start e) (hk : k < 5) (hname : e'.dName = e.dName)
    (hint : ∀ j, j < 5 → e'.int j = if j = k then w else e.int j) :
    ∃ heap', heap.putInt (start + 28 + 4 * k) w = some heap' ∧
      heap.Writes heap' start (start + 48) ∧ DirentAt heap' start e' := by
  have hroom := h.room
  have hput := LocalArray.putInt_eq (a := heap) (i := start + 28 + 4 * k) (w := w) (by omega)
  refine ⟨_, hput, (LocalArray.putInt_writes hput).mono (by omega) (by omega), h.room, ?_, ?_, ?_⟩
  · rw [hname]
    exact h.length
  · have hlen := h.length
    rw [hname]
    exact h.name.congr fun x _ hx' => Bytes.write_below (by omega)
  · intro j hj
    rw [hint j hj]
    split_ifs with hjk
    · rw [hjk]
      exact Bytes.holds_write
    · refine (h.ints j hj).write ?_
      rw [Bytes.length_toBytes, Bytes.length_toBytes]
      omega

/-- The name is written. -/
theorem copyName (h : DirentAt heap start e) (hnul : (0 : UInt8) ∉ name) (hlen : name.length ≤ 25) :
    ∃ heap', Files.copyName name start heap = some heap' ∧
      heap.Writes heap' start (start + 48) ∧
      DirentAt heap' start { e with dName := name } := by
  have hroom := h.room
  have hlength : (name ++ [0]).length = name.length + 1 := List.length_append
  have hcopy : Files.copyName name start heap =
      some { heap with byte := Bytes.write heap.byte start (name ++ [0]) } := by
    rw [Files.copyName, if_pos (by omega), Frame.kstrcopy_eq hnul]
    exact LocalArray.fill_eq (by omega)
  refine ⟨_, hcopy, ⟨rfl, fun x hx => Bytes.write_below hx, fun x hx => ?_⟩, h.room, hlen, ?_, ?_⟩
  · exact Bytes.write_above (by omega)
  · exact Bytes.isString_write hnul
  · exact fun k hk => (h.ints k hk).write (Or.inl (by omega))

theorem putDNo (h : DirentAt heap start e) (w : BitVec 32) :
    ∃ heap', heap.putInt (start + 28) w = some heap' ∧
      heap.Writes heap' start (start + 48) ∧ DirentAt heap' start { e with dNo := w } := by
  refine h.putInt (k := 0) (by decide) rfl ?_
  rintro (_ | _ | _ | _ | j) - <;> rfl

theorem putFd (h : DirentAt heap start e) (w : BitVec 32) :
    ∃ heap', heap.putInt (start + 32) w = some heap' ∧
      heap.Writes heap' start (start + 48) ∧ DirentAt heap' start { e with fd := w } := by
  refine h.putInt (k := 1) (by decide) rfl ?_
  rintro (_ | _ | _ | _ | j) - <;> rfl

theorem putState (h : DirentAt heap start e) (state : Nat) :
    ∃ heap', heap.putInt (start + 36) (BitVec.ofNat 32 state) = some heap' ∧
      heap.Writes heap' start (start + 48) ∧ DirentAt heap' start { e with state := state } := by
  refine h.putInt (k := 2) (by decide) rfl ?_
  rintro (_ | _ | _ | _ | j) - <;> rfl

theorem putPid (h : DirentAt heap start e) (w : BitVec 32) :
    ∃ heap', heap.putInt (start + 40) w = some heap' ∧
      heap.Writes heap' start (start + 48) ∧ DirentAt heap' start { e with pid := w } := by
  refine h.putInt (k := 3) (by decide) rfl ?_
  rintro (_ | _ | _ | _ | j) - <;> rfl

theorem putPpid (h : DirentAt heap start e) (w : BitVec 32) :
    ∃ heap', heap.putInt (start + 44) w = some heap' ∧
      heap.Writes heap' start (start + 48) ∧ DirentAt heap' start { e with ppid := w } := by
  refine h.putInt (k := 4) (by decide) rfl fun j hj => ?_
  interval_cases j <;> rfl

theorem writeFolder (h : DirentAt heap start e) (fd : BitVec 32)
    (hnul : (0 : UInt8) ∉ node.name) (hlen : node.name.length ≤ 25) :
    ∃ heap', Files.writeFolder fd node start heap = some heap' ∧
      heap.Writes heap' start (start + 48) ∧
      DirentAt heap' start { e with dName := node.name, dNo := 0, fd := fd } := by
  obtain ⟨heap₁, hcopy, hwrites₁, h₁⟩ := h.copyName hnul hlen
  obtain ⟨heap₂, hput₂, hwrites₂, h₂⟩ := h₁.putDNo 0
  obtain ⟨heap₃, hput₃, hwrites₃, h₃⟩ := h₂.putFd fd
  refine ⟨heap₃, ?_, (hwrites₁.trans hwrites₂).trans hwrites₃, h₃⟩
  rw [Files.writeFolder, hcopy, Option.bind_eq_bind, Option.bind_some, hput₂, Option.bind_some,
    hput₃]

theorem writeState (h : DirentAt heap start e) (state : Nat) :
    ∃ heap', Files.writeState state start heap = some heap' ∧
      heap.Writes heap' start (start + 48) ∧
      DirentAt heap' start { e with state := if state ≤ 2 then state else e.state } := by
  rw [Files.writeState]
  split_ifs with hstate
  · exact h.putState state
  · exact ⟨heap, rfl, .refl heap _ _, h⟩

theorem writeProcess (h : DirentAt heap start e) (process : ProcessInfo)
    (hnul : (0 : UInt8) ∉ process.name) (hlen : process.name.length ≤ 25) :
    ∃ heap', Files.writeProcess process start heap = some heap' ∧
      heap.Writes heap' start (start + 48) ∧
      DirentAt heap' start { e with
        dName := process.name
        state := if process.state ≤ 2 then process.state else e.state
        pid := process.pid, ppid := process.ppid } := by
  obtain ⟨heap₁, hcopy, hwrites₁, h₁⟩ := h.copyName hnul hlen
  obtain ⟨heap₂, hstate, hwrites₂, h₂⟩ := h₁.writeState process.state
  obtain ⟨heap₃, hput₃, hwrites₃, h₃⟩ := h₂.putPid process.pid
  obtain ⟨heap₄, hput₄, hwrites₄, h₄⟩ := h₃.putPpid process.ppid
  refine ⟨heap₄, ?_, ((hwrites₁.trans hwrites₂).trans hwrites₃).trans hwrites₄, h₄⟩
  rw [Files.writeProcess, hcopy, Option.bind_eq_bind, Option.bind_some, hstate, Option.bind_some,
    hput₃, Option.bind_some, hput₄]

end DirentAt

/-! ## `do_opendir` -/

/-- The name of the node fits an entry. -/
def FitsFolder (node : Tnode) : Prop := node.name.length ≤ 25

/-- So do the name of the node and that of its process, if it has one. -/
def FitsFile (files : FileSystem) (node : Tnode) : Prop :=
  node.name.length ≤ 25 ∧
    ((files.heap.inodes node.linkToInode).linkToProcess ≠ 0 →
      (files.processes (files.heap.inodes node.linkToInode).linkToProcess).name.length ≤ 25)

/-- The names in the tree are strings. -/
structure Strings (files : FileSystem) : Prop where
  folders : ∀ x, ∀ node ∈ (files.heap.inodes x).subDirectoryList, (0 : UInt8) ∉ node.name
  leaves : ∀ x, ∀ node ∈ (files.heap.inodes x).subFilesList, (0 : UInt8) ∉ node.name
  processes : ∀ x, (0 : UInt8) ∉ (files.processes x).name

/-- On an entry of zeros a file is entered as `fileEntry` says. -/
theorem DirentAt.writeFile (h : DirentAt heap start Dirent.zero) (fd : BitVec 32)
    (hnul : (0 : UInt8) ∉ node.name) (hprocesses : ∀ x, (0 : UInt8) ∉ (files.processes x).name)
    (hfits : FitsFile files node) :
    ∃ heap', Files.writeFile files fd node start heap = some heap' ∧
      heap.Writes heap' start (start + 48) ∧ DirentAt heap' start (files.fileEntry fd node) := by
  obtain ⟨heap₁, hfolder, hwrites₁, h₁⟩ := h.writeFolder fd hnul hfits.1
  rw [Files.writeFile, hfolder, Option.bind_eq_bind, Option.bind_some, FileSystem.fileEntry]
  dsimp only
  by_cases hlink : (files.heap.inodes node.linkToInode).linkToProcess ≠ 0
  · obtain ⟨heap₂, hprocess, hwrites₂, h₂⟩ := h₁.writeProcess _ (hprocesses _) (hfits.2 hlink)
    rw [if_pos hlink, if_pos hlink]
    exact ⟨heap₂, hprocess, hwrites₁.trans hwrites₂, h₂⟩
  · rw [if_neg hlink, if_neg hlink]
    exact ⟨heap₁, rfl, hwrites₁, h₁⟩

theorem copyName_some (h : copyName name start heap = some heap') : name.length ≤ 25 := by
  rw [copyName] at h
  split_ifs at h with hlen
  exact Nat.le_of_lt_succ hlen

theorem writeFolder_some (h : writeFolder fd node start heap = some heap') : FitsFolder node := by
  obtain ⟨heap₁, hcopy, -⟩ := Option.bind_eq_some_iff.1 h
  exact copyName_some hcopy

theorem writeFile_some (h : writeFile files fd node start heap = some heap') :
    FitsFile files node := by
  obtain ⟨heap₁, hfolder, hrest⟩ := Option.bind_eq_some_iff.1 h
  refine ⟨writeFolder_some hfolder, fun hlink => ?_⟩
  dsimp only at hrest
  rw [if_pos hlink] at hrest
  obtain ⟨heap₂, hcopy, -⟩ := Option.bind_eq_some_iff.1 hrest
  exact copyName_some hcopy

/-- A loop over zeroed entries enters each node in its place. -/
theorem writeEntries_eq {write : Tnode → Nat → LocalArray → Option LocalArray}
    (entry : Tnode → Dirent)
    (hwrite : ∀ node ∈ nodes, ∀ start heap, DirentAt heap start Dirent.zero →
      ∃ heap', write node start heap = some heap' ∧ heap.Writes heap' start (start + 48) ∧
        DirentAt heap' start (entry node))
    (hzero : ∀ i, i < nodes.length → DirentAt heap (start + 48 * i) Dirent.zero) :
    ∃ heap', writeEntries write nodes start heap = some heap' ∧
      heap.Writes heap' start (start + 48 * nodes.length) ∧
      ∀ i, (hi : i < nodes.length) → DirentAt heap' (start + 48 * i) (entry nodes[i]) := by
  induction nodes generalizing start heap with
  | nil => exact ⟨heap, rfl, .refl heap _ _, fun i hi => absurd hi (Nat.not_lt_zero i)⟩
  | cons node nodes ih =>
      obtain ⟨heap₁, hfirst, hwrites₁, h₁⟩ :=
        hwrite node List.mem_cons_self start heap (hzero 0 (Nat.succ_pos _))
      -- the entries behind the first one are still zero, and it is kept when they are written
      have hzero₁ : ∀ i, i < nodes.length →
          DirentAt heap₁ (start + 48 + 48 * i) Dirent.zero := by
        intro i hi
        have hlater := hzero (i + 1) (Nat.succ_lt_succ hi)
        rw [Nat.mul_succ, Nat.add_comm (48 * i), ← Nat.add_assoc] at hlater
        exact hlater.frame hwrites₁ (Or.inr (by omega))
      obtain ⟨heap', hrest, hwrites', h'⟩ :=
        ih (fun node hnode => hwrite node (List.mem_cons_of_mem _ hnode)) hzero₁
      refine ⟨heap', ?_, ?_, ?_⟩
      · rw [writeEntries, hfirst]
        exact hrest
      · rw [List.length_cons]
        exact (hwrites₁.mono le_rfl (by omega)).trans (hwrites'.mono (by omega) (by omega))
      · rintro (_ | i) hi
        · exact h₁.frame hwrites' (Or.inl (by omega))
        · have hlater := h' i (Nat.lt_of_succ_lt_succ hi)
          rwa [Nat.add_assoc start 48, Nat.add_comm 48, ← Nat.mul_succ] at hlater

theorem writeEntries_some {write : Tnode → Nat → LocalArray → Option LocalArray}
    {P : Tnode → Prop}
    (hwrite : ∀ node start heap heap', write node start heap = some heap' → P node)
    (h : writeEntries write nodes start heap = some heap') : ∀ node ∈ nodes, P node := by
  induction nodes generalizing start heap with
  | nil => exact fun node hnode => absurd hnode List.not_mem_nil
  | cons node nodes ih =>
      obtain ⟨heap₁, hfirst, hrest⟩ := Option.bind_eq_some_iff.1 h
      exact List.forall_mem_cons.2 ⟨hwrite _ _ _ _ hfirst, ih hrest⟩

/-- What `memset` leaves are entries of zeros. -/
theorem direntAt_zero {size i : Nat} (hfill : heap.fill start (List.replicate size 0) = some heap')
    (hi : 48 * i + 48 ≤ size) : DirentAt heap' (start + 48 * i) Dirent.zero := by
  have hlength : (List.replicate size (0 : UInt8)).length = size := List.length_replicate
  have hzero : ∀ x, start ≤ x → x < start + size → heap'.byte x = 0 := by
    intro x hx hx'
    have hbyte := LocalArray.fill_holds hfill (x - start) (by omega)
    rwa [Nat.add_sub_cancel' hx, List.getElem_replicate] at hbyte
  have hroom : start + 48 * i + 48 ≤ heap'.size := by
    have hne : List.replicate size (0 : UInt8) ≠ [] :=
      List.ne_nil_of_length_pos (by rw [hlength]; omega)
    have hsome := LocalArray.fill_isSome_iff.1 (Option.isSome_of_eq_some hfill)
    rw [or_iff_right hne, hlength] at hsome
    rw [(LocalArray.fill_writes hfill).size]
    omega
  -- the empty name, and then each byte of each integer
  refine ⟨hroom, Nat.zero_le _, ⟨fun k hk => ?_, List.forall_mem_nil _⟩, fun k hk j hj => ?_⟩
  · have hk' : k = 0 := Nat.lt_one_iff.1 hk
    subst hk'
    exact hzero _ (by omega) (by omega)
  · have hint : Dirent.zero.int k = 0 := by
      interval_cases k <;> rfl
    rw [Bytes.length_toBytes] at hj
    rw [hzero _ (by omega) (by omega)]
    simp only [hint]
    interval_cases j <;> rfl

/-- The entries of a directory, in the order of the two loops. -/
def FileSystem.dirEntries (s : FileSystem) (fd : BitVec 32) (node : Tnode) : List Dirent :=
  (s.heap.inodes node.linkToInode).subDirectoryList.map (FileSystem.folderEntry fd) ++
    (s.heap.inodes node.linkToInode).subFilesList.map (s.fileEntry fd)

/-- The names they get. -/
def FileSystem.dirNames (s : FileSystem) (node : Tnode) : List (List UInt8) :=
  (s.dirEntries 0 node).map Dirent.dName

theorem length_dirEntries (files : FileSystem) (fd : BitVec 32) (node : Tnode) :
    (files.dirEntries fd node).length = files.totalfiles node := by
  rw [FileSystem.dirEntries, List.length_append, List.length_map, List.length_map,
    FileSystem.totalfiles, Nat.add_comm]

theorem fileEntry_fields (files : FileSystem) (fd : BitVec 32) (node : Tnode) :
    (files.fileEntry fd node).fd = fd ∧ (files.fileEntry fd node).dNo = 0 ∧
      (files.fileEntry fd node).dName = (files.fileEntry 0 node).dName := by
  rw [FileSystem.fileEntry, FileSystem.fileEntry]
  dsimp only
  by_cases hlink : (files.heap.inodes node.linkToInode).linkToProcess ≠ 0
  · rw [if_pos hlink, if_pos hlink]
    exact ⟨rfl, rfl, rfl⟩
  · rw [if_neg hlink, if_neg hlink]
    exact ⟨rfl, rfl, rfl⟩

/-- Every entry has the descriptor, and no mark. -/
theorem dirEntries_fields {fd : BitVec 32} (he : e ∈ files.dirEntries fd node) :
    e.fd = fd ∧ e.dNo = 0 := by
  rcases List.mem_append.1 he with he | he
  · obtain ⟨folder, -, rfl⟩ := List.mem_map.1 he
    exact ⟨rfl, rfl⟩
  · obtain ⟨leaf, -, rfl⟩ := List.mem_map.1 he
    exact ⟨(fileEntry_fields files fd leaf).1, (fileEntry_fields files fd leaf).2.1⟩

theorem map_dName_dirEntries (files : FileSystem) (fd : BitVec 32) (node : Tnode) :
    (files.dirEntries fd node).map Dirent.dName = files.dirNames node := by
  rw [FileSystem.dirNames, FileSystem.dirEntries, FileSystem.dirEntries, List.map_append,
    List.map_append, List.map_map, List.map_map, List.map_map, List.map_map]
  congr 1
  exact List.map_congr_left fun leaf _ => (fileEntry_fields files fd leaf).2.2

/-- What `do_opendir` needs for the directory `item`: a slot, a block of the heap with room, and
names that fit. -/
structure OpensDir (s : Caller) (item : Tnode) (slot : Fin 25) (block : Nat) : Prop where
  slot : s.files.emptySlot 0 = some slot
  malloc : ∃ arena, s.arena.doMalloc (BitVec.ofNat 64 (s.files.totalfiles item * 48)) =
    some (block, arena)
  room : s.files.totalfiles item = 0 ∨
    16 * block + s.files.totalfiles item * 48 ≤ s.heap.size
  folders : ∀ node ∈ (s.files.heap.inodes item.linkToInode).subDirectoryList, FitsFolder node
  leaves : ∀ node ∈ (s.files.heap.inodes item.linkToInode).subFilesList, FitsFile s.files node

/-- What it does: the slot is taken, and the array holds the entries. -/
structure OpenedDir (s : Caller) (item : Tnode) (slot : Fin 25) (dirptr : Nat) (s₁ : Caller) :
    Prop where
  files : s₁.files = s.files.setSlot slot (some item)
  writes : s.heap.Writes s₁.heap dirptr (dirptr + 48 * s.files.totalfiles item)
  entries : ∀ i e, (s.files.dirEntries (BitVec.ofNat 32 slot) item)[i]? = some e →
    DirentAt s₁.heap (dirptr + 48 * i) e

variable {s s₁ : Caller} {subName : Bytes.Memory} {dirname : List UInt8} {item : Tnode}
  {slot : Fin 25} {block dirptr : Nat}

theorem doDopen_eq
    (hfind : Frame.findFile files.heap files.filefsRoot subName dirname = some (some item))
    (hslot : files.emptySlot 0 = some slot) :
    files.doDopen subName dirname =
      some (BitVec.ofNat 32 slot, files.setSlot slot (some item)) := by
  rw [FileSystem.doDopen, hfind, Option.bind_eq_bind, Option.bind_some]
  simp only [hslot]
  rfl

theorem descriptor_setSlot (files : FileSystem) (slot : Fin 25) (node : Option Tnode) :
    (files.setSlot slot node).descriptor (BitVec.ofNat 32 slot) = node := by
  rw [descriptor_ofNat]
  exact Function.update_self ..

/-- An absent directory, or a full table, leads `do_opendir` to the slot -1. -/
theorem doDopen_some {fd : BitVec 32} {files' : FileSystem} {node : Tnode}
    (hopen : files.doDopen subName dirname = some (fd, files'))
    (hnode : files'.descriptor fd = some node) :
    ∃ item slot, Frame.findFile files.heap files.filefsRoot subName dirname = some (some item) ∧
      files.emptySlot 0 = some slot := by
  obtain ⟨found, hfind, hfound⟩ := Option.bind_eq_some_iff.1 hopen
  cases found with
  | none =>
      obtain ⟨rfl, rfl⟩ := Prod.mk.inj (Option.some_inj.1 hfound)
      rw [descriptor_minusOne] at hnode
      cases hnode
  | some item =>
      cases hslot : files.emptySlot 0 with
      | none =>
          simp only [hslot] at hfound
          obtain ⟨rfl, rfl⟩ := Prod.mk.inj (Option.some_inj.1 hfound)
          rw [descriptor_minusOne] at hnode
          cases hnode
      | some slot => exact ⟨item, slot, hfind, rfl⟩

/-- `do_opendir` of a directory that is found, with a slot. -/
theorem doOpendir_eq
    (hfind : Frame.findFile s.files.heap s.files.filefsRoot subName dirname = some (some item))
    (hslot : s.files.emptySlot 0 = some slot) :
    s.doOpendir subName dirname =
      (s.arena.doMalloc (BitVec.ofNat 64 (s.files.totalfiles item * 48))).bind fun taken =>
        (s.heap.fill (16 * taken.1) (List.replicate (s.files.totalfiles item * 48) 0)).bind
          fun heap =>
        (writeEntries (writeFolder (BitVec.ofNat 32 slot))
          (s.files.heap.inodes item.linkToInode).subDirectoryList (16 * taken.1) heap).bind
          fun heap =>
        (writeEntries (writeFile s.files (BitVec.ofNat 32 slot))
          (s.files.heap.inodes item.linkToInode).subFilesList
          (16 * taken.1 + 48 * (s.files.heap.inodes item.linkToInode).subDirectoryList.length)
          heap).bind fun heap =>
        some (16 * taken.1,
          { files := s.files.setSlot slot (some item), arena := taken.2, heap }) := by
  rw [Caller.doOpendir, doDopen_eq hfind hslot, Option.bind_eq_bind, Option.bind_some]
  dsimp only
  rw [descriptor_setSlot, Option.bind_eq_bind, Option.bind_some]
  rfl

theorem doOpendir_opened
    (hfind : Frame.findFile s.files.heap s.files.filefsRoot subName dirname = some (some item))
    (hstrings : Strings s.files) (h : OpensDir s item slot block) :
    ∃ s₁, s.doOpendir subName dirname = some (16 * block, s₁) ∧
      OpenedDir s item slot (16 * block) s₁ := by
  let dirs := (s.files.heap.inodes item.linkToInode).subDirectoryList
  let leaves := (s.files.heap.inodes item.linkToInode).subFilesList
  have htotal : s.files.totalfiles item = leaves.length + dirs.length := rfl
  have hdirs_length :
      (s.files.heap.inodes item.linkToInode).subDirectoryList.length = dirs.length := rfl
  have hleaves_length :
      (s.files.heap.inodes item.linkToInode).subFilesList.length = leaves.length := rfl
  obtain ⟨arena, hmalloc⟩ := h.malloc
  have hfits : List.replicate (s.files.totalfiles item * 48) (0 : UInt8) = [] ∨
      16 * block + (List.replicate (s.files.totalfiles item * 48) (0 : UInt8)).length ≤
        s.heap.size := by
    rw [List.length_replicate]
    refine h.room.imp (fun hnone => ?_) id
    rw [hnone]
    rfl
  obtain ⟨heap₁, hfill⟩ :=
    Option.isSome_iff_exists.1 (LocalArray.fill_isSome_iff.2 hfits)
  have hwrites₁ := LocalArray.fill_writes hfill
  rw [List.length_replicate] at hwrites₁
  -- the directories
  have hzero₁ : ∀ i, i < dirs.length → DirentAt heap₁ (16 * block + 48 * i) Dirent.zero :=
    fun i hi => direntAt_zero hfill (by omega)
  obtain ⟨heap₂, hdirs, hwrites₂, h₂⟩ :=
    writeEntries_eq (FileSystem.folderEntry (BitVec.ofNat 32 slot))
      (fun node hnode start heap hzero => hzero.writeFolder (BitVec.ofNat 32 slot)
        (hstrings.folders _ node hnode) (h.folders node hnode)) hzero₁
  -- the files, behind them
  have hzero₂ : ∀ i, i < leaves.length →
      DirentAt heap₂ (16 * block + 48 * dirs.length + 48 * i) Dirent.zero := by
    intro i hi
    have hbefore : DirentAt heap₁ (16 * block + 48 * (dirs.length + i)) Dirent.zero :=
      direntAt_zero hfill (by omega)
    rw [Nat.mul_add, ← Nat.add_assoc] at hbefore
    exact hbefore.frame hwrites₂ (Or.inr (by omega))
  obtain ⟨heap₃, hleaves, hwrites₃, h₃⟩ :=
    writeEntries_eq (s.files.fileEntry (BitVec.ofNat 32 slot))
      (fun node hnode start heap hzero => hzero.writeFile (BitVec.ofNat 32 slot)
        (hstrings.leaves _ node hnode) hstrings.processes (h.leaves node hnode)) hzero₂
  refine ⟨{ files := s.files.setSlot slot (some item), arena, heap := heap₃ }, ?_, rfl, ?_, ?_⟩
  · rw [doOpendir_eq hfind h.slot, hmalloc, Option.bind_some, hfill, Option.bind_some]
    exact (congrArg (Option.bind · _) hdirs).trans ((congrArg (Option.bind · _) hleaves).trans rfl)
  · refine (hwrites₁.mono le_rfl (by omega)).trans ?_
    exact (hwrites₂.mono le_rfl (by omega)).trans (hwrites₃.mono (by omega) (by omega))
  · intro i e hi
    rw [FileSystem.dirEntries] at hi
    by_cases hdir : i < dirs.length
    · rw [List.getElem?_append_left (by rwa [List.length_map]), List.getElem?_map,
        List.getElem?_eq_getElem hdir, Option.map_some] at hi
      rw [← Option.some_inj.1 hi]
      exact (h₂ i hdir).frame hwrites₃ (Or.inl (by omega))
    · obtain ⟨k, rfl⟩ := Nat.exists_eq_add_of_le (Nat.le_of_not_lt hdir)
      have hskip : (dirs.map (FileSystem.folderEntry (BitVec.ofNat 32 slot))).length ≤
          dirs.length + k := by
        rw [List.length_map]
        exact Nat.le_add_right _ _
      rw [List.getElem?_append_right hskip, List.length_map, Nat.add_sub_cancel_left,
        List.getElem?_map] at hi
      obtain ⟨node, hnode, rfl⟩ := Option.map_eq_some_iff.1 hi
      obtain ⟨hk, rfl⟩ := List.getElem?_eq_some_iff.1 hnode
      rw [Nat.mul_add, ← Nat.add_assoc]
      exact h₃ k hk

/-- It comes back just then. -/
theorem doOpendir_opens (h : s.doOpendir subName dirname = some (dirptr, s₁)) :
    ∃ item slot block,
      Frame.findFile s.files.heap s.files.filefsRoot subName dirname = some (some item) ∧
        dirptr = 16 * block ∧ OpensDir s item slot block := by
  obtain ⟨⟨fd, files⟩, hopen, hrest⟩ := Option.bind_eq_some_iff.1 h
  obtain ⟨node, hnode, -⟩ := Option.bind_eq_some_iff.1 hrest
  obtain ⟨item, slot, hfind, hslot⟩ := doDopen_some hopen hnode
  rw [doOpendir_eq hfind hslot] at h
  obtain ⟨⟨block, arena⟩, hmalloc, h⟩ := Option.bind_eq_some_iff.1 h
  obtain ⟨heap₁, hfill, h⟩ := Option.bind_eq_some_iff.1 h
  obtain ⟨heap₂, hdirs, h⟩ := Option.bind_eq_some_iff.1 h
  obtain ⟨heap₃, hleaves, h⟩ := Option.bind_eq_some_iff.1 h
  obtain ⟨rfl, -⟩ := Prod.mk.inj (Option.some_inj.1 h)
  -- each part of the call that has a result says what it found to fit
  refine ⟨item, slot, block, hfind, rfl, hslot, ⟨arena, hmalloc⟩, ?_, ?_, ?_⟩
  · have hroom := LocalArray.fill_isSome_iff.1 (Option.isSome_of_eq_some hfill)
    rw [List.length_replicate] at hroom
    refine hroom.imp (fun hnil => ?_) id
    have hlength := congrArg List.length hnil
    rw [List.length_replicate, List.length_nil] at hlength
    omega
  · exact writeEntries_some (fun _ _ _ _ hwrite => writeFolder_some hwrite) hdirs
  · exact writeEntries_some (fun _ _ _ _ hwrite => writeFile_some hwrite) hleaves

/-- A call that has come back has opened the directory. -/
theorem openedDir_of_doOpendir (hstrings : Strings s.files)
    (hfind : Frame.findFile s.files.heap s.files.filefsRoot subName dirname = some (some item))
    (hopen : s.doOpendir subName dirname = some (dirptr, s₁)) :
    ∃ slot block, dirptr = 16 * block ∧ OpensDir s item slot block ∧
      OpenedDir s item slot dirptr s₁ := by
  obtain ⟨item', slot, block, hfind', rfl, hopens⟩ := doOpendir_opens hopen
  rw [hfind] at hfind'
  obtain rfl : item = item' := Option.some_inj.1 (Option.some_inj.1 hfind')
  obtain ⟨s₁', hopen', hopened⟩ := doOpendir_opened hfind hstrings hopens
  rw [hopen] at hopen'
  obtain rfl : s₁ = s₁' := (Prod.mk.inj (Option.some_inj.1 hopen')).2
  exact ⟨slot, block, rfl, hopens, hopened⟩

end Files

end OswpKernel
