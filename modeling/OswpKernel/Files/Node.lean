import OswpKernel.Base
import Mathlib.Logic.Function.Basic
import Mathlib.Tactic.Common

/-!
# Node — the tree of the file system

A `filesys_tnode` is a name with a size and a link to an inode; it is copied by value into the array
of its directory, so that the copies share the inode (`include/sys/fs.h`, `fs.c`).  An inode is
addressed by the number of its page, `num_sub_directory` and `num_sub_files` are the lengths of the
two arrays.  `bump` clears no page: a new node keeps what its pages held before.
-/

namespace OswpKernel

namespace Files

abbrev InodeRef := Nat

abbrev FS_FILE : Nat := 0x01

abbrev FS_DIRECTORY : Nat := 0x02

/-- `struct filesys_tnode`. -/
structure Tnode where
  name : List UInt8
  size : Word
  linkToInode : InodeRef
  deriving DecidableEq

/-- `struct filesys_node`, with what the functions here use of it. -/
structure Inode where
  flags : Nat
  startingPosition : Word
  offset : Word
  subDirectoryList : List Tnode
  subFilesList : List Tnode
  linkToProcess : Nat
  /-- `read` is `do_fread`, otherwise it is the null pointer. -/
  read : Bool
  deriving DecidableEq

/-- The pages of the inodes, and what the page of a new tnode holds where its size goes. -/
structure Heap where
  inodes : InodeRef → Inode
  stale : InodeRef → Word

namespace Heap

variable (h : Heap) (x : InodeRef) (inode : Inode)

def setInode : Heap := { h with inodes := Function.update h.inodes x inode }

@[simp] theorem setInode_self : (h.setInode x inode).inodes x = inode := by simp [setInode]

theorem setInode_of_ne {x y : InodeRef} (hy : y ≠ x) :
    (h.setInode x inode).inodes y = h.inodes y := by
  simp [setInode, hy]

/-- `create_sys_node`, on the page `x`. -/
def createSysNode : Heap :=
  h.setInode x { h.inodes x with subDirectoryList := [], subFilesList := [] }

/-- `create_t_node`, with an inode on the page `x`.  A longer name is written past `name[10]`. -/
def createTNode (name : List UInt8) : Option (Tnode × Heap) :=
  if name.length ≤ 9 then
    some ({ name := name, size := h.stale x, linkToInode := x }, h.createSysNode x)
  else none

/-- `copytnode`: an inode of its own on the page `x`, without the entries. -/
def copytnode (item : Tnode) : Tnode × Heap :=
  ({ item with linkToInode := x },
    h.setInode x
      { h.inodes x with
        offset := (h.inodes item.linkToInode).offset
        startingPosition := (h.inodes item.linkToInode).startingPosition
        flags := (h.inodes item.linkToInode).flags
        subDirectoryList := []
        subFilesList := []
        read := (h.inodes item.linkToInode).read })

/-- A page of tnodes: `4096 / sizeof(struct filesys_tnode)`. -/
def maxEntries : Nat := 128

/-- `sub_files_list[num_sub_files] = *node; num_sub_files++`, the first time on the page of `node`
itself. -/
def pushFile (dir : InodeRef) (node : Tnode) : Option Heap :=
  if (h.inodes dir).subFilesList.length < maxEntries then
    some (h.setInode dir
      { h.inodes dir with subFilesList := (h.inodes dir).subFilesList ++ [node] })
  else none

end Heap

end Files

end OswpKernel
