import OswpKernel.Files.Node

/-!
# Archive — the ustar archive in memory and `load_tarfs` (`fs.c`)

`load_tarfs` goes over the headers of the archive and enters every component of every name below the
directory it is given.  The pages that `bump` hands out are a list; a page is the address of a tnode
or the number of an inode.  `none` is an access outside an array, a NULL pointer that `bump`
returned, or fuel that has run out.
-/

namespace OswpKernel

namespace Files

def slash : UInt8 := 47

/-! ## Strings (`klibc.c`) -/

/-- `kstrlength`, of a string in an array of `room` characters. -/
def kstrlength (room : Nat) (string : Nat → UInt8) : Option Nat :=
  (List.range room).find? fun stringlen => string stringlen = 0

/-- The characters before the NUL. -/
def characters (room : Nat) (string : Nat → UInt8) : Option (List UInt8) :=
  (kstrlength room string).map fun length => (List.range length).map string

/-- `char sub_name[6][10]` with the two indices, `j` after its `j++`. -/
structure SubName where
  rows : Nat → Nat → UInt8
  k : Nat
  j : Nat

namespace SubName

variable (s : SubName)

/-- `sub_name[k][j] = c`. -/
def put (k j : Nat) (c : UInt8) : Option SubName :=
  if k < 6 ∧ j < 10 then
    some { s with rows := Function.update s.rows k (Function.update (s.rows k) j c) }
  else none

/-- `memset(sub_name[k], 0, 10)`. -/
def zero (k : Nat) : Option SubName :=
  if k < 6 then
    some { s with rows := Function.update s.rows k fun j => if j < 10 then 0 else s.rows k j }
  else none

/-- The body of the loop over the name. -/
def turn (c : UInt8) : Option SubName := do
  let s ← s.put s.k s.j c
  if c = slash then
    let s ← s.put s.k (s.j + 1) 0
    let s ← s.zero (s.k + 1)
    return { s with k := s.k + 1, j := 0 }
  else
    return { s with j := s.j + 1 }

/-- The loop, and the terminator that is written behind it. -/
def split (name : List UInt8) : Option SubName := do
  let s ← name.foldlM turn { s with k := 0, j := 0 }
  s.put s.k (s.j + 1) 0

end SubName

/-! ## The header -/

/-- Memory, byte by byte. -/
abbrev Memory := Word → UInt8

/-- A field of the `struct posix_header_ustar` at `address`. -/
def field (mem : Memory) (address : Word) (offset : Nat) : Nat → UInt8 :=
  fun i => mem (address + BitVec.ofNat 64 (offset + i))

/-- `in[j - 1] - '0'`, as the `unsigned int` it is multiplied as. -/
def digit (c : UInt8) : BitVec 32 := c.toBitVec.signExtend 32 - 48

/-- `get_size`: 11 digits from the last one on, `count` is an `unsigned int`. -/
def getSize (field : Nat → UInt8) : Word :=
  ((List.range 11).foldl (fun (size, count) k =>
    (size + (digit (field (10 - k)) * count).setWidth 64, count * 8))
    ((0 : Word), (1 : BitVec 32))).1

/-! ## The nodes -/

/-- `pages` are handed out by `bump` in this order; `filesAt` is `sub_files_list` as a pointer. -/
structure Loader where
  heap : Heap
  pages : List Nat
  filesAt : InodeRef → Word

def pageAddress (page : Nat) : Word := KERNBASE + BitVec.ofNat 64 (4096 * page)

/-- `folder_exist`: the first directory of the name. -/
def folderExist (currentNode : Inode) (folderName : List UInt8) : Option Tnode :=
  currentNode.subDirectoryList.find? fun subFolder => subFolder.name = folderName

/-- `file_exist`: what is compared with the pointer `file_name` is the address of the name of an
entry, `sizeof(struct filesys_tnode)` apart from the next one. -/
def fileExist (subFilesList fileName : Word) (fileNum : Nat) : Option Nat :=
  (List.range fileNum).find? fun i => subFilesList + BitVec.ofNat 64 (32 * i) = fileName

namespace Loader

variable (L : Loader)

def bump : Option (Nat × Loader) :=
  match L.pages with
  | [] => none
  | page :: pages => some (page, { L with pages := pages })

/-- `create_t_node`: a page for the tnode, then one for its inode. -/
def createTNode (name : List UInt8) : Option (Nat × Tnode × Loader) := do
  let (page, L) ← L.bump
  let (inode, L) ← L.bump
  let (node, heap) ← L.heap.createTNode inode name
  return (page, node,
    { L with heap := heap, filesAt := Function.update L.filesAt inode 0 })

def setInode (x : InodeRef) (inode : Inode) : Loader := { L with heap := L.heap.setInode x inode }

/-- `sub_directory_list[num_sub_directory] = *new_node; num_sub_directory++`, the first time on the
page of the node itself. -/
def pushDirectory (dir : InodeRef) (node : Tnode) : Option Loader :=
  let inode := L.heap.inodes dir
  if inode.subDirectoryList.length < Heap.maxEntries then
    some (L.setInode dir { inode with subDirectoryList := inode.subDirectoryList ++ [node] })
  else none

/-- The same for `sub_files_list`. -/
def pushFile (dir : InodeRef) (page : Nat) (node : Tnode) : Option Loader := do
  let heap ← L.heap.pushFile dir node
  return { L with
    heap := heap
    filesAt := if (L.heap.inodes dir).subFilesList = [] then
      Function.update L.filesAt dir (pageAddress page) else L.filesAt }

/-- A component that ends with `/`: the inode that becomes active. -/
def enterDirectory (active : InodeRef) (name : List UInt8) (size : Word) :
    Option (InodeRef × Loader) :=
  match folderExist (L.heap.inodes active) name with
  | some existNode => some (existNode.linkToInode, L)
  | none => do
      let (_, newNode, L) ← L.createTNode name
      let L := L.setInode newNode.linkToInode
        { L.heap.inodes newNode.linkToInode with flags := FS_DIRECTORY }
      let newNode := { newNode with size := size }
      let L ← L.pushDirectory active newNode
      return (newNode.linkToInode, L)

/-- Another component; `fileName` is the address of the buffer it is in. -/
def enterFile (active : InodeRef) (name : List UInt8) (fileName size header : Word) :
    Option (InodeRef × Loader) :=
  match fileExist (L.filesAt active) fileName (L.heap.inodes active).subDirectoryList.length with
  | some i => (L.heap.inodes active).subFilesList[i]?.map fun existNode =>
      (existNode.linkToInode, L)
  | none => do
      let (page, newNode, L) ← L.createTNode name
      let L := L.setInode newNode.linkToInode
        { L.heap.inodes newNode.linkToInode with
          flags := FS_FILE
          read := true
          startingPosition := header + 512
          offset := 0 }
      let newNode := { newNode with size := size }
      let L ← L.pushFile active page newNode
      return (newNode.linkToInode, L)

/-- The loop over the components `ls`, up to the first empty one; `subName` is the address of the
buffer. -/
def enterComponents (rows : Nat → Nat → UInt8) (subName size header : Word) :
    List Nat → InodeRef → Loader → Option Loader
  | [], _, L => some L
  | l :: ls, active, L => do
      let name ← characters 10 (rows l)
      match name.getLast? with
      | none => some L
      | some c =>
          let (active, L) ← if c = slash then L.enterDirectory active name size
            else L.enterFile active name (subName + BitVec.ofNat 64 (10 * l)) size header
          enterComponents rows subName size header ls active L

end Loader

/-- The address of the header behind a member. -/
def nextHeader (address size : Word) : Word :=
  let next := address + (size / 512 + 1) * 512
  if size % 512 ≠ 0 then next + 512 else next

/-- `load_tarfs` from the header at `address` on.  `rows` is what the buffer at `subName` holds. -/
def loadTarfs (mem : Memory) (root : InodeRef) (subName : Word) :
    Nat → Word → (Nat → Nat → UInt8) → Loader → Option Loader
  | 0, _, _, _ => none
  | fuel + 1, address, rows, L =>
      if mem address = 0 then some L
      else do
        let size := getSize (field mem address 124)
        let name ← characters 100 (field mem address 0)
        let s ← SubName.split ⟨rows, 0, 0⟩ name
        let L ← L.enterComponents s.rows subName size address (List.range (s.k + 1)) root
        loadTarfs mem root subName fuel (nextHeader address size) s.rows L

end Files

end OswpKernel
