import OswpKernel.Files.Descriptors
import OswpKernel.Lib.Execution

/-!
# Sessions — open descriptors do not see each other

Between `do_fopen` and `do_close` a descriptor has a session: the sizes it was read with and what
the reads returned.  `OpenFile` is what a session is about, a place in a file; `read_vfs` moves that
place and nothing else, and `copytnode` makes a new one.  `descriptors_independent` compares the
sessions of a run with files that are opened alone.
-/

namespace OswpKernel

namespace Files

open Execution

/-! ## A place in a file -/

/-- What `read_vfs` uses of a tnode and its inode. -/
structure OpenFile where
  read : Bool
  start : Word
  fileSize : Word
  offset : Word

namespace OpenFile

variable (f : OpenFile)

/-- One read, and the place after it. -/
def serve (size : BitVec 32) : Served × OpenFile :=
  if f.read then
    if f.start + f.fileSize ≤ f.start + f.offset then ({ returned := -1, copied := [] }, f)
    else
      let retval := cutDown f.fileSize (f.start + f.fileSize) (f.start + f.offset) size
      ({ returned := retval, copied := doFread retval (f.start + f.offset) },
        { f with offset := f.offset + retval.signExtend 64 })
  else ({ returned := 0, copied := [] }, f)

def serveAll : OpenFile → List (BitVec 32) → List Served
  | _, [] => []
  | f, size :: sizes => (f.serve size).1 :: serveAll (f.serve size).2 sizes

/-- The place after some reads. -/
def after (sizes : List (BitVec 32)) : OpenFile := sizes.foldl (fun f size => (f.serve size).2) f

theorem serveAll_concat (sizes : List (BitVec 32)) (size : BitVec 32) :
    f.serveAll (sizes ++ [size]) = f.serveAll sizes ++ [((f.after sizes).serve size).1] := by
  induction sizes generalizing f with
  | nil => rfl
  | cons first sizes ih =>
      rw [List.cons_append, serveAll, ih, serveAll, List.cons_append]
      rfl

theorem after_concat (sizes : List (BitVec 32)) (size : BitVec 32) :
    f.after (sizes ++ [size]) = ((f.after sizes).serve size).2 := by
  rw [after, List.foldl_append]
  rfl

end OpenFile

/-- The place a tnode stands for. -/
def fileAt (h : Heap) (node : Tnode) : OpenFile :=
  let inode := h.inodes node.linkToInode
  ⟨inode.read, inode.startingPosition, node.size, inode.offset⟩

variable {h h' : Heap} {node : Tnode} {x page : InodeRef} {fd : BitVec 32}

theorem fileAt_congr (heq : h'.inodes node.linkToInode = h.inodes node.linkToInode) :
    fileAt h' node = fileAt h node := by
  rw [fileAt, fileAt, heq]

/-- `read_vfs` moves the place of its descriptor and leaves all other inodes. -/
theorem readVfs_serve (h : Heap) (node : Tnode) (size : BitVec 32) :
    (readVfs h node size).1 = ((fileAt h node).serve size).1 ∧
      fileAt (readVfs h node size).2 node = ((fileAt h node).serve size).2 ∧
      ∀ x, x ≠ node.linkToInode → (readVfs h node size).2.inodes x = h.inodes x := by
  cases hread : (h.inodes node.linkToInode).read with
  | false =>
      simp only [readVfs, OpenFile.serve, fileAt, hread, Bool.false_eq_true, if_false]
      exact ⟨trivial, trivial, fun _ _ => trivial⟩
  | true =>
      simp only [readVfs, OpenFile.serve, fileAt, hread, if_true]
      by_cases hend : (h.inodes node.linkToInode).startingPosition + node.size ≤
          (h.inodes node.linkToInode).startingPosition + (h.inodes node.linkToInode).offset
      · simp only [if_pos hend, hread]
        exact ⟨trivial, trivial, fun _ _ => trivial⟩
      · simp only [if_neg hend, Heap.setInode_self]
        exact ⟨trivial, trivial, fun x hx => Heap.setInode_of_ne _ _ hx⟩

theorem reads_eq_serveAll (h : Heap) (node : Tnode) (sizes : List (BitVec 32)) :
    reads h node sizes = (fileAt h node).serveAll sizes := by
  induction sizes generalizing h with
  | nil => rfl
  | cons size sizes ih =>
      rcases readVfs_serve h node size with ⟨hserved, hplace, -⟩
      rw [reads, OpenFile.serveAll, hserved, ih, hplace]

/-- A copy starts at the place of the node in the tree. -/
theorem fileAt_copytnode (h : Heap) (page : InodeRef) (item : Tnode) :
    fileAt (h.copytnode page item).2 (h.copytnode page item).1 = fileAt h item := by
  simp [fileAt, Heap.copytnode]

/-! ## The tree -/

/-- The inodes `find_file` can come to. -/
inductive InTree (h : Heap) (root : Tnode) : InodeRef → Prop
  | root : InTree h root root.linkToInode
  | child {x : InodeRef} {t : Tnode} : InTree h root x →
      t ∈ (h.inodes x).subDirectoryList ∨ t ∈ (h.inodes x).subFilesList →
      InTree h root t.linkToInode

theorem findSome?_congr {α β : Type} {f g : α → Option β} {xs : List α}
    (hfg : ∀ x ∈ xs, f x = g x) : xs.findSome? f = xs.findSome? g := by
  induction xs with
  | nil => rfl
  | cons x xs ih =>
      rw [List.findSome?_cons, List.findSome?_cons, hfg x List.mem_cons_self,
        ih fun y hy => hfg y (List.mem_cons_of_mem _ hy)]

/-- `find_file` looks at inodes of the tree only. -/
theorem findFileFromRoot_congr {root : Tnode}
    (htree : ∀ x, InTree h root x → h'.inodes x = h.inodes x) (names : List (List UInt8))
    (hnode : InTree h root node.linkToInode) :
    findFileFromRoot h' names node = findFileFromRoot h names node := by
  induction names generalizing node with
  | nil => rfl
  | cons name rest ih =>
      have hdirs : (h.inodes node.linkToInode).subDirectoryList.findSome?
            (fun t => findFileFromRoot h' rest t) =
          (h.inodes node.linkToInode).subDirectoryList.findSome?
            (fun t => findFileFromRoot h rest t) :=
        findSome?_congr fun t ht => ih (hnode.child (Or.inl ht))
      have hfiles : (h.inodes node.linkToInode).subFilesList.findSome?
            (fun t => findFileFromRoot h' rest t) =
          (h.inodes node.linkToInode).subFilesList.findSome?
            (fun t => findFileFromRoot h rest t) :=
        findSome?_congr fun t ht => ih (hnode.child (Or.inr ht))
      cases rest with
      | nil => rfl
      | cons next rest =>
          simp only [findFileFromRoot] at hdirs hfiles ⊢
          rw [htree _ hnode, hdirs, hfiles]

theorem findFile_congr {root : Tnode} (htree : ∀ x, InTree h root x → h'.inodes x = h.inodes x)
    (subName : Bytes.Memory) (fileName : List UInt8) :
    Frame.findFile h' root subName fileName = Frame.findFile h root subName fileName := by
  by_cases habs : fileName.head? = some slash
  · have hfrom : ∀ names, findFileFromRoot h' names root = findFileFromRoot h names root :=
      fun names => findFileFromRoot_congr htree names InTree.root
    simp only [Frame.findFile_eq habs, hfrom]
  · rw [Frame.findFile_relative habs, Frame.findFile_relative habs]

theorem inTree_of_findFileFromRoot {root found : Tnode} (names : List (List UInt8))
    (hnode : InTree h root node.linkToInode)
    (hfound : findFileFromRoot h names node = some found) : InTree h root found.linkToInode := by
  induction names generalizing node with
  | nil => cases hfound
  | cons name rest ih =>
      cases rest with
      | nil =>
          rw [findFileFromRoot] at hfound
          split_ifs at hfound
          rcases Option.some_inj.1 hfound with rfl
          exact hnode
      | cons next rest =>
          rw [findFileFromRoot] at hfound
          dsimp only at hfound
          split_ifs at hfound
          rcases Option.or_eq_some_iff.1 hfound with hdir | ⟨-, hfile⟩
          · rcases List.exists_of_findSome?_eq_some hdir with ⟨t, ht, hfound⟩
            exact ih (hnode.child (Or.inl ht)) hfound
          · rcases List.exists_of_findSome?_eq_some hfile with ⟨t, ht, hfound⟩
            exact ih (hnode.child (Or.inr ht)) hfound

theorem inTree_of_findFile {root found : Tnode} {subName : Bytes.Memory} {fileName : List UInt8}
    (hfound : Frame.findFile h root subName fileName = some (some found)) :
    InTree h root found.linkToInode := by
  by_cases habs : fileName.head? = some slash
  · rw [Frame.findFile_eq habs] at hfound
    rcases Option.map_eq_some_iff.1 hfound with ⟨names, -, hfound⟩
    exact inTree_of_findFileFromRoot names InTree.root hfound
  · rw [Frame.findFile_relative habs] at hfound
    cases hfound

/-! ## Runs and sessions -/

inductive FileEvent
  /-- `do_fopen` of a name, with what its buffer holds and the page of the new inode -/
  | fopen (subName : Bytes.Memory) (fileName : List UInt8) (page : InodeRef)
  | close (fd : BitVec 32)
  | read (fd size : BitVec 32)

inductive Outcome
  | returned (r : BitVec 32)
  | served (call : Served)

/-- What happened in a run, with the results. -/
abbrev Trace := List (FileEvent × Outcome)

def fileStep (s : FileSystem) : FileEvent → Option (Outcome × FileSystem)
  | .fopen subName fileName page => do
      let (r, s) ← s.doFopen subName fileName page
      return (.returned r, s)
  | .close fd => some (.returned (s.doClose fd).1, (s.doClose fd).2)
  | .read fd size => do
      let node ← s.descriptor fd
      let (served, heap) := readVfs s.heap node size
      return (.served served, { s with heap := heap })

def tracedStep (st : FileSystem × Trace) (e : FileEvent) : Option (FileSystem × Trace) := do
  let (outcome, s) ← fileStep st.1 e
  return (s, st.2 ++ [(e, outcome)])

/-- The page of a new inode is not in use, and what is read was opened by `do_fopen`. -/
def FileAllowed (st : FileSystem × Trace) : FileEvent → Prop
  | .fopen _ _ page => ¬ InTree st.1.heap st.1.filefsRoot page ∧
      ∀ i node, st.1.fileDescriptors i = some node → node.linkToInode ≠ page
  | .close _ => True
  | .read fd _ => 3 ≤ fd.toNat

/-- A descriptor since it was opened. -/
structure Session where
  subName : Bytes.Memory
  fileName : List UInt8
  sizes : List (BitVec 32)
  calls : List Served

def sessionAfter (fd : BitVec 32) (session : Option Session) : FileEvent × Outcome → Option Session
  | (.fopen subName fileName _, .returned r) =>
      if r ≠ -1 ∧ r = fd then some ⟨subName, fileName, [], []⟩ else session
  | (.close fd', _) => if fd' = fd then none else session
  | (.read fd' size, .served call) =>
      if fd' = fd then
        session.map fun σ => { σ with sizes := σ.sizes ++ [size], calls := σ.calls ++ [call] }
      else session
  | _ => session

/-- The session that `fd` is in after a trace. -/
def session (fd : BitVec 32) (trace : Trace) : Option Session := trace.foldl (sessionAfter fd) none

/-- The reads of a file that is opened alone, on the page `page`. -/
def FileSystem.alone (s : FileSystem) (σ : Session) (page : InodeRef) : Option (List Served) := do
  let (fd, s) ← s.doFopen σ.subName σ.fileName page
  let node ← s.descriptor fd
  return reads s.heap node σ.sizes

theorem session_concat (fd : BitVec 32) (trace : Trace) (entry : FileEvent × Outcome) :
    session fd (trace ++ [entry]) = sessionAfter fd (session fd trace) entry := by
  rw [session, List.foldl_append]
  rfl

/-! ## What one call does to the table -/

/-- `do_fopen` fills the lowest empty slot from 3 on, or returns -1. -/
def Opened (s s' : FileSystem) (r : BitVec 32) : Prop :=
  (r = -1 ∧ s'.fileDescriptors = s.fileDescriptors) ∨
  ∃ (i : Fin 25) (copy : Tnode), 3 ≤ (i : Nat) ∧ s.fileDescriptors i = none ∧
    (∀ j : Fin 25, 3 ≤ (j : Nat) → j < i → s.fileDescriptors j ≠ none) ∧
    r = BitVec.ofNat 32 i ∧ s'.fileDescriptors = Function.update s.fileDescriptors i (some copy)

/-- `do_close` empties the slot of its descriptor, or returns -1. -/
def Closed (s s' : FileSystem) (fd r : BitVec 32) : Prop :=
  (∃ i : Fin 25, fd = BitVec.ofNat 32 i ∧ r = 0 ∧
    s'.fileDescriptors = Function.update s.fileDescriptors i none) ∨
  ((∀ i : Fin 25, fd ≠ BitVec.ofNat 32 i) ∧ r = -1 ∧ s' = s)

variable {s s' s₀ : FileSystem} {subName : Bytes.Memory} {fileName : List UInt8}
  {r : BitVec 32} {trace : Trace} {item : Tnode}

theorem emptySlot_lowest {i : Nat} {j : Fin 25} (hj : s.emptySlot i = some j) (k : Fin 25)
    (hk : i ≤ (k : Nat)) (hlt : k < j) : s.fileDescriptors k ≠ none := by
  rcases List.find?_eq_some_iff_getElem.1 hj with ⟨-, n, hn, hat, hbefore⟩
  rw [List.getElem_finRange] at hat
  have hkn : (k : Nat) < n := by
    have hj' : (j : Nat) = n := by rw [← hat]; rfl
    omega
  have hnot := hbefore k hkn
  rw [List.getElem_finRange] at hnot
  intro hnone
  have hk' : Fin.cast (List.length_finRange) ⟨(k : Nat), hkn.trans hn⟩ = k := Fin.ext rfl
  rw [hk'] at hnot
  simp [hk, hnone] at hnot

/-- The ways `do_fopen` can end. -/
theorem doFopen_cases (hcall : s.doFopen subName fileName page = some (r, s')) :
    (Frame.findFile s.heap s.filefsRoot subName fileName = some none ∧ r = -1 ∧ s' = s) ∨
    ∃ item, Frame.findFile s.heap s.filefsRoot subName fileName = some (some item) ∧
      s'.heap = (s.heap.copytnode page item).2 ∧ s'.filefsRoot = s.filefsRoot ∧
      ((s.emptySlot 3 = none ∧ r = -1 ∧ s'.fileDescriptors = s.fileDescriptors) ∨
        ∃ i, s.emptySlot 3 = some i ∧ r = BitVec.ofNat 32 i ∧
          s'.fileDescriptors = Function.update s.fileDescriptors i
            (some (s.heap.copytnode page item).1)) := by
  rcases Option.bind_eq_some_iff.1 hcall with ⟨found, hfind, hcall⟩
  cases found with
  | none =>
      rcases Prod.mk.inj (Option.some_inj.1 hcall) with ⟨rfl, rfl⟩
      exact Or.inl ⟨hfind, rfl, rfl⟩
  | some item =>
      refine Or.inr ⟨item, hfind, ?_⟩
      dsimp only at hcall
      have hsame : ∀ (heap : Heap) (write : InodeRef → WriteOp),
          FileSystem.emptySlot { s with heap := heap, write := write } 3 = s.emptySlot 3 :=
        fun _ _ => rfl
      rw [hsame] at hcall
      cases hslot : s.emptySlot 3 with
      | none =>
          rw [hslot] at hcall
          rcases Prod.mk.inj (Option.some_inj.1 hcall) with ⟨rfl, rfl⟩
          exact ⟨rfl, rfl, Or.inl ⟨rfl, rfl, rfl⟩⟩
      | some i =>
          rw [hslot] at hcall
          rcases Prod.mk.inj (Option.some_inj.1 hcall) with ⟨rfl, rfl⟩
          exact ⟨rfl, rfl, Or.inr ⟨i, rfl, rfl, rfl⟩⟩

theorem doFopen_opened (hcall : s.doFopen subName fileName page = some (r, s')) :
    Opened s s' r := by
  rcases doFopen_cases hcall with ⟨-, hr, rfl⟩ |
    ⟨item, -, -, -, ⟨-, hr, htable⟩ | ⟨i, hslot, hr, htable⟩⟩
  · exact Or.inl ⟨hr, rfl⟩
  · exact Or.inl ⟨hr, htable⟩
  · rcases emptySlot_eq_some hslot with ⟨hi, hempty⟩
    exact Or.inr ⟨i, _, hi, hempty, emptySlot_lowest hslot, hr, htable⟩

theorem doClose_closed (s : FileSystem) (fd : BitVec 32) :
    Closed s (s.doClose fd).2 fd (s.doClose fd).1 := by
  rw [FileSystem.doClose]
  cases hfind : (List.finRange 25).find? fun i : Fin 25 => BitVec.ofNat 32 i = fd with
  | none =>
      refine Or.inr ⟨fun i hi => ?_, rfl, rfl⟩
      have hnot := List.find?_eq_none.1 hfind i (List.mem_finRange i)
      exact hnot (decide_eq_true hi.symm)
  | some i =>
      have hi := List.find?_some hfind
      exact Or.inl ⟨i, (of_decide_eq_true hi).symm, rfl, rfl⟩

/-! ## The invariant -/

/-- A descriptor is where its reads alone would have brought it, on an inode of its own. -/
structure InSession (s₀ : FileSystem) (h : Heap) (node : Tnode) (σ : Session) : Prop where
  own : ¬ InTree s₀.heap s₀.filefsRoot node.linkToInode
  served : ∃ item, Frame.findFile s₀.heap s₀.filefsRoot σ.subName σ.fileName = some (some item) ∧
    σ.calls = (fileAt s₀.heap item).serveAll σ.sizes ∧
    fileAt h node = (fileAt s₀.heap item).after σ.sizes

/-- A slot is empty without a session, or in the place its session says. -/
def SlotOk (s₀ : FileSystem) (h : Heap) (slot : Option Tnode) (current : Option Session) : Prop :=
  (slot = none ∧ current = none) ∨
    ∃ node σ, slot = some node ∧ current = some σ ∧ InSession s₀ h node σ

structure Independent (s₀ : FileSystem) (st : FileSystem × Trace) : Prop where
  root : st.1.filefsRoot = s₀.filefsRoot
  tree : ∀ x, InTree s₀.heap s₀.filefsRoot x → st.1.heap.inodes x = s₀.heap.inodes x
  slots : ∀ i : Fin 25, 3 ≤ (i : Nat) →
    SlotOk s₀ st.1.heap (st.1.fileDescriptors i) (session (BitVec.ofNat 32 i) st.2)
  distinct : ∀ i j : Fin 25, 3 ≤ (i : Nat) → 3 ≤ (j : Nat) → i ≠ j → ∀ a b,
    st.1.fileDescriptors i = some a → st.1.fileDescriptors j = some b →
      a.linkToInode ≠ b.linkToInode
  outside : ∀ fd, (∀ i : Fin 25, 3 ≤ (i : Nat) → fd ≠ BitVec.ofNat 32 i) → session fd st.2 = none

theorem ofNat_inj {i j : Fin 25} (hij : BitVec.ofNat 32 (i : Nat) = BitVec.ofNat 32 j) : i = j := by
  have htoNat := congrArg BitVec.toNat hij
  rw [BitVec.toNat_ofNat, BitVec.toNat_ofNat, Nat.mod_eq_of_lt (i.isLt.trans (by decide)),
    Nat.mod_eq_of_lt (j.isLt.trans (by decide))] at htoNat
  exact Fin.ext htoNat

theorem ofNat_ne_minusOne (i : Fin 25) : BitVec.ofNat 32 (i : Nat) ≠ -1 := by
  revert i
  decide

theorem SlotOk.keep {slot : Option Tnode} {current : Option Session}
    (hok : SlotOk s₀ h slot current)
    (hkeep : ∀ node, slot = some node → h'.inodes node.linkToInode = h.inodes node.linkToInode) :
    SlotOk s₀ h' slot current := by
  rcases hok with hnone | ⟨node, σ, hslot, hcurrent, hown, item, hfind, hcalls, hplace⟩
  · exact Or.inl hnone
  · refine Or.inr ⟨node, σ, hslot, hcurrent, hown, item, hfind, hcalls, ?_⟩
    rw [fileAt_congr (hkeep node hslot), hplace]

section Steps

variable {st : FileSystem × Trace}

theorem Independent.inTree (hind : Independent s₀ st) (hx : InTree s₀.heap s₀.filefsRoot x) :
    InTree st.1.heap st.1.filefsRoot x := by
  induction hx with
  | root => exact hind.root ▸ InTree.root
  | child hx ht ih => exact ih.child (by rwa [hind.tree _ hx])

theorem Independent.findFile (hind : Independent s₀ st) (subName : Bytes.Memory)
    (fileName : List UInt8) : Frame.findFile st.1.heap st.1.filefsRoot subName fileName =
      Frame.findFile s₀.heap s₀.filefsRoot subName fileName := by
  rw [hind.root]
  exact findFile_congr hind.tree subName fileName

/-- A call that leaves the table, and no session begins or ends with it. -/
theorem Independent.same (hind : Independent s₀ st) {entry : FileEvent × Outcome}
    (hroot : s'.filefsRoot = st.1.filefsRoot)
    (htree : ∀ x, InTree s₀.heap s₀.filefsRoot x → s'.heap.inodes x = st.1.heap.inodes x)
    (htable : s'.fileDescriptors = st.1.fileDescriptors)
    (hkeep : ∀ i node, st.1.fileDescriptors i = some node →
      s'.heap.inodes node.linkToInode = st.1.heap.inodes node.linkToInode)
    (hsession : ∀ fd current, sessionAfter fd current entry = current) :
    Independent s₀ (s', st.2 ++ [entry]) := by
  refine ⟨hroot.trans hind.root, fun x hx => (htree x hx).trans (hind.tree x hx), ?_, ?_, ?_⟩
  · intro i hi
    dsimp only
    rw [session_concat, hsession, htable]
    exact (hind.slots i hi).keep fun node hnode => hkeep i node hnode
  · intro i j hi hj hij
    dsimp only
    rw [htable]
    exact hind.distinct i j hi hj hij
  · intro fd hfd
    dsimp only
    rw [session_concat, hsession]
    exact hind.outside fd hfd

theorem Independent.fopen (hind : Independent s₀ st)
    (hallowed : FileAllowed st (.fopen subName fileName page))
    (hcall : st.1.doFopen subName fileName page = some (r, s')) :
    Independent s₀ (s', st.2 ++ [(.fopen subName fileName page, .returned r)]) := by
  rcases hallowed with ⟨hfresh, hunused⟩
  have hminus : ∀ fd current, sessionAfter fd current
      (.fopen subName fileName page, .returned (-1)) = current := by
    intro fd current
    rw [sessionAfter, if_neg]
    exact fun hand => hand.1 rfl
  rcases doFopen_cases hcall with ⟨-, rfl, rfl⟩ | ⟨item, hfind, hheap, hroot, hslot⟩
  · exact hind.same rfl (fun _ _ => rfl) rfl (fun _ _ _ => rfl) hminus
  -- only the page of the new inode changes
  have hother : ∀ x, x ≠ page → s'.heap.inodes x = st.1.heap.inodes x := by
    intro x hx
    rw [hheap]
    exact Heap.setInode_of_ne _ _ hx
  have htree : ∀ x, InTree s₀.heap s₀.filefsRoot x → s'.heap.inodes x = st.1.heap.inodes x := by
    intro x hx
    refine hother x ?_
    rintro rfl
    exact hfresh (hind.inTree hx)
  have hkeep : ∀ i node, st.1.fileDescriptors i = some node →
      s'.heap.inodes node.linkToInode = st.1.heap.inodes node.linkToInode :=
    fun i node hnode => hother _ (hunused i node hnode)
  rcases hslot with ⟨-, rfl, htable⟩ | ⟨i, hi, rfl, htable⟩
  · exact hind.same hroot htree htable hkeep hminus
  rcases emptySlot_eq_some hi with ⟨hthree, -⟩
  have hsession : ∀ fd, session fd (st.2 ++ [(FileEvent.fopen subName fileName page,
      Outcome.returned (BitVec.ofNat 32 i))]) =
        if BitVec.ofNat 32 i = fd then some ⟨subName, fileName, [], []⟩ else session fd st.2 := by
    intro fd
    rw [session_concat, sessionAfter]
    simp only [ofNat_ne_minusOne, ne_eq, not_false_eq_true, true_and]
  have hfind₀ := (hind.findFile subName fileName).symm.trans hfind
  refine ⟨hroot.trans hind.root, fun x hx => (htree x hx).trans (hind.tree x hx), ?_, ?_, ?_⟩
  · intro j hj
    dsimp only
    rw [hsession, htable]
    by_cases hji : j = i
    · subst hji
      rw [Function.update_self, if_pos rfl]
      refine Or.inr ⟨_, _, rfl, rfl, ?_, item, hfind₀, rfl, ?_⟩
      · exact fun hx => hfresh (hind.inTree hx)
      · rw [hheap, fileAt_copytnode]
        refine fileAt_congr (hind.tree _ ?_)
        exact inTree_of_findFile hfind₀
    · rw [Function.update_of_ne hji, if_neg fun heq => hji (ofNat_inj heq).symm]
      exact (hind.slots j hj).keep fun node hnode => hkeep j node hnode
  · intro j k hj hk hjk a b
    dsimp only
    rw [htable]
    by_cases hji : j = i
    · subst hji
      rw [Function.update_self, Function.update_of_ne hjk.symm]
      rintro ha hb
      rcases Option.some_inj.1 ha
      exact (hunused k b hb).symm
    · rw [Function.update_of_ne hji]
      by_cases hki : k = i
      · subst hki
        rw [Function.update_self]
        rintro ha hb
        rcases Option.some_inj.1 hb
        exact hunused j a ha
      · rw [Function.update_of_ne hki]
        exact hind.distinct j k hj hk hjk a b
  · intro fd hfd
    dsimp only
    rw [hsession, if_neg (hfd i hthree).symm]
    exact hind.outside fd hfd

theorem Independent.close (hind : Independent s₀ st) (fd : BitVec 32) :
    Independent s₀ ((st.1.doClose fd).2, st.2 ++ [(.close fd, .returned (st.1.doClose fd).1)]) := by
  have hsame : (st.1.doClose fd).2.heap = st.1.heap ∧
      (st.1.doClose fd).2.filefsRoot = st.1.filefsRoot := by
    rw [FileSystem.doClose]
    split <;> exact ⟨rfl, rfl⟩
  -- the slots from 3 on keep what they have, but for the one that is closed
  have hslot : ∀ i : Fin 25, (st.1.doClose fd).2.fileDescriptors i =
      if fd = BitVec.ofNat 32 i then none else st.1.fileDescriptors i := by
    intro i
    rcases doClose_closed st.1 fd with ⟨j, rfl, -, htable⟩ | ⟨hnone, -, hunchanged⟩
    · rw [htable]
      by_cases hij : i = j
      · rw [hij, Function.update_self, if_pos rfl]
      · rw [Function.update_of_ne hij, if_neg fun heq => hij (ofNat_inj heq).symm]
    · rw [hunchanged, if_neg (hnone i)]
  have hsession : ∀ fd', session fd' (st.2 ++ [(.close fd, .returned (st.1.doClose fd).1)]) =
      if fd = fd' then none else session fd' st.2 :=
    fun fd' => session_concat _ _ _
  refine ⟨hsame.2.trans hind.root, ?_, ?_, ?_, ?_⟩
  · intro x hx
    dsimp only
    rw [hsame.1]
    exact hind.tree x hx
  · intro i hi
    dsimp only
    rw [hsession, hslot, hsame.1]
    split_ifs
    · exact Or.inl ⟨rfl, rfl⟩
    · exact hind.slots i hi
  · intro i j hi hj hij a b
    dsimp only
    rw [hslot, hslot]
    split_ifs
    · exact fun ha => by cases ha
    · exact fun ha => by cases ha
    · exact fun _ hb => by cases hb
    · exact hind.distinct i j hi hj hij a b
  · intro fd' hfd'
    dsimp only
    rw [hsession]
    split_ifs
    · rfl
    · exact hind.outside fd' hfd'

theorem Independent.read (hind : Independent s₀ st) {fd size : BitVec 32} (hthree : 3 ≤ fd.toNat)
    (hnode : st.1.descriptor fd = some node) :
    Independent s₀ ({ st.1 with heap := (readVfs st.1.heap node size).2 },
      st.2 ++ [(.read fd size, .served (readVfs st.1.heap node size).1)]) := by
  rw [FileSystem.descriptor] at hnode
  split_ifs at hnode with hlt
  let i : Fin 25 := ⟨fd.toNat, hlt⟩
  have hfd : fd = BitVec.ofNat 32 i := by simp [i]
  have hi : 3 ≤ (i : Nat) := hthree
  rcases readVfs_serve st.1.heap node size with ⟨hserved, hplace, hother⟩
  rcases hind.slots i hi with ⟨hnone, -⟩ | ⟨node', σ, hslot, hσ, hown, item, hfind, hcalls, hat⟩
  · cases hnone.symm.trans hnode
  rcases Option.some_inj.1 (hnode.symm.trans hslot) with rfl
  -- the call is entered in the session of `fd`; the other files have other inodes
  have hsession : ∀ fd', session fd' (st.2 ++ [(FileEvent.read fd size,
      Outcome.served (readVfs st.1.heap node size).1)]) =
        if fd = fd' then (session fd' st.2).map fun σ =>
          { σ with
            sizes := σ.sizes ++ [size]
            calls := σ.calls ++ [(readVfs st.1.heap node size).1] }
        else session fd' st.2 :=
    fun fd' => session_concat _ _ _
  refine ⟨hind.root, ?_, ?_, hind.distinct, ?_⟩
  · intro x hx
    refine (hother x ?_).trans (hind.tree x hx)
    rintro rfl
    exact hown hx
  · intro j hj
    dsimp only
    rw [hsession]
    by_cases hji : j = i
    · subst hji
      rw [if_pos hfd, hσ, Option.map_some]
      refine Or.inr ⟨node, _, hnode, rfl, hown, item, hfind, ?_, ?_⟩
      · rw [OpenFile.serveAll_concat, ← hcalls, ← hat, hserved]
      · rw [OpenFile.after_concat, ← hat, hplace]
    · rw [if_neg fun heq => hji (ofNat_inj (hfd.symm.trans heq)).symm]
      refine (hind.slots j hj).keep fun other hslot' => hother _ ?_
      exact hind.distinct j i hj hi hji other node hslot' hnode
  · intro fd' hfd'
    dsimp only
    rw [hsession, if_neg fun heq => hfd' i hi (heq.symm.trans hfd)]
    exact hind.outside fd' hfd'

end Steps

/-! ## Every run -/

theorem Independent.step {st st' : FileSystem × Trace} {e : FileEvent} (hind : Independent s₀ st)
    (hallowed : FileAllowed st e) (hstep : tracedStep st e = some st') : Independent s₀ st' := by
  rcases Option.bind_eq_some_iff.1 hstep with ⟨⟨outcome, s⟩, hevent, hret⟩
  rcases Option.some_inj.1 hret with rfl
  cases e with
  | fopen subName fileName page =>
      rcases Option.bind_eq_some_iff.1 hevent with ⟨⟨r, s'⟩, hcall, hret⟩
      rcases Prod.mk.inj (Option.some_inj.1 hret) with ⟨rfl, rfl⟩
      exact hind.fopen hallowed hcall
  | close fd =>
      rcases Prod.mk.inj (Option.some_inj.1 hevent) with ⟨rfl, rfl⟩
      exact hind.close fd
  | read fd size =>
      rcases Option.bind_eq_some_iff.1 hevent with ⟨node, hnode, hret⟩
      rcases Prod.mk.inj (Option.some_inj.1 hret) with ⟨rfl, rfl⟩
      exact hind.read hallowed hnode

theorem independent_start (hempty : ∀ i : Fin 25, 3 ≤ (i : Nat) → s₀.fileDescriptors i = none) :
    Independent s₀ (s₀, []) where
  root := rfl
  tree := fun _ _ => rfl
  slots := fun i hi => Or.inl ⟨hempty i hi, rfl⟩
  distinct := fun i _ hi _ _ a _ ha => by cases (hempty i hi).symm.trans ha
  outside := fun _ _ => rfl

/-- A session that the invariant speaks of is what the file delivers alone. -/
theorem InSession.alone {σ : Session} (h : InSession s₀ h' node σ)
    (hempty : s₀.fileDescriptors 3 = none) (page : InodeRef) : s₀.alone σ page = some σ.calls := by
  rcases h.served with ⟨item, hfind, hcalls, -⟩
  have hslot : (s₀.emptySlot 3).isSome := by
    rw [FileSystem.emptySlot, List.find?_isSome]
    exact ⟨3, List.mem_finRange 3, by simp [hempty]⟩
  rcases Option.isSome_iff_exists.1 hslot with ⟨i, hi⟩
  rw [FileSystem.alone, FileSystem.doFopen, hfind]
  have hsame : ∀ (heap : Heap) (write : InodeRef → WriteOp),
      FileSystem.emptySlot { s₀ with heap := heap, write := write } 3 = s₀.emptySlot 3 :=
    fun _ _ => rfl
  simp only [Option.bind_eq_bind, Option.bind_some, hsame, hi, Option.pure_def, descriptor_ofNat,
    FileSystem.setSlot, Function.update_self, reads_eq_serveAll, fileAt_copytnode, hcalls]

/-- In every state of a run each open descriptor has been served as if its file had been opened
alone in the first state; `do_fopen` and `do_close` change one slot. -/
theorem descriptors_independent {st : FileSystem × Trace} {es : List FileEvent}
    (hempty : ∀ i : Fin 25, 3 ≤ (i : Nat) → s₀.fileDescriptors i = none)
    (hrun : Run tracedStep FileAllowed (s₀, []) es st) :
    (∀ fd σ page, session fd st.2 = some σ → s₀.alone σ page = some σ.calls) ∧
    (∀ subName fileName page r s', st.1.doFopen subName fileName page = some (r, s') →
      Opened st.1 s' r) ∧
    ∀ fd, Closed st.1 (st.1.doClose fd).2 fd (st.1.doClose fd).1 := by
  have hind : Independent s₀ st :=
    hrun.invariant (Independent s₀) (independent_start hempty)
      fun _ _ _ hind hallowed hstep => hind.step hallowed hstep
  refine ⟨?_, fun _ _ _ _ _ hcall => doFopen_opened hcall, doClose_closed st.1⟩
  intro fd σ page hσ
  by_cases hfd : ∀ i : Fin 25, 3 ≤ (i : Nat) → fd ≠ BitVec.ofNat 32 i
  · cases (hind.outside fd hfd).symm.trans hσ
  · push Not at hfd
    rcases hfd with ⟨i, hi, rfl⟩
    rcases hind.slots i hi with ⟨-, hnone⟩ | ⟨node, σ', -, hσ', hin⟩
    · cases hnone.symm.trans hσ
    · rcases Option.some_inj.1 (hσ.symm.trans hσ') with rfl
      exact hin.alone (hempty 3 (by decide)) page

/-! ## Two descriptors of one file -/

/-- `FileAllowed` when the tree lies inside the inodes `tree`. -/
def FileAllowedIn (tree : List InodeRef) (st : FileSystem × Trace) : FileEvent → Prop
  | .fopen _ _ page => st.1.filefsRoot.linkToInode ∈ tree ∧
      (∀ x ∈ tree, ∀ t ∈ (st.1.heap.inodes x).subDirectoryList ++ (st.1.heap.inodes x).subFilesList,
        t.linkToInode ∈ tree) ∧
      page ∉ tree ∧ ∀ i, ∀ node ∈ st.1.fileDescriptors i, node.linkToInode ≠ page
  | .close _ => True
  | .read fd _ => 3 ≤ fd.toNat

instance (tree : List InodeRef) (st : FileSystem × Trace) :
    (e : FileEvent) → Decidable (FileAllowedIn tree st e)
  | .fopen _ _ _ => inferInstanceAs (Decidable (_ ∧ _ ∧ _ ∧ _))
  | .close _ => isTrue trivial
  | .read _ _ => inferInstanceAs (Decidable (_ ≤ _))

theorem FileAllowedIn.allowed {tree : List InodeRef} {st : FileSystem × Trace} {e : FileEvent}
    (hin : FileAllowedIn tree st e) : FileAllowed st e := by
  cases e with
  | fopen subName fileName page =>
      rcases hin with ⟨hroot, hclosed, hpage, hunused⟩
      have hmem : ∀ x, InTree st.1.heap st.1.filefsRoot x → x ∈ tree := by
        intro x hx
        induction hx with
        | root => exact hroot
        | child _ ht ih => exact hclosed _ ih _ (List.mem_append.2 ht)
      exact ⟨fun hx => hpage (hmem page hx), fun i node hnode => hunused i node hnode⟩
  | close fd => trivial
  | read fd size => exact hin

/-- The file `/a` of 150 bytes. -/
def oneFile : FileSystem :=
  { emptyFileSystem with
    heap :=
      { inodes := fun x =>
          if x = 0 then ⟨FS_MOUNTPOINT, 0, 0, [], [⟨[97], 150, 1⟩], 0, false⟩
          else ⟨FS_FILE, 0xffffffff80210200#64, 0, [], [], 0, true⟩
        stale := fun _ => 0 } }

/-- The file is opened twice, and the reads of the two descriptors alternate. -/
theorem descriptors_independent_twice : ∃ st σ, Run tracedStep FileAllowed (oneFile, [])
      [.fopen (fun _ => 0) [slash, 97] 5, .fopen (fun _ => 0) [slash, 97] 6, .read 3 100,
        .read 4 20, .read 3 50, .read 4 30] st ∧
    session 4 st.2 = some σ ∧ σ.sizes = [20, 30] ∧ oneFile.alone σ 7 = some σ.calls := by
  have hreplay : (replay tracedStep (FileAllowedIn [0, 1])
      [.fopen (fun _ => 0) [slash, 97] 5, .fopen (fun _ => 0) [slash, 97] 6, .read 3 100,
        .read 4 20, .read 3 50, .read 4 30] (oneFile, [])).map
        (fun st => (session 4 st.2).map Session.sizes) = some (some [20, 30]) := by
    decide +kernel
  rcases Option.map_eq_some_iff.1 hreplay with ⟨st, hst, hsession⟩
  rcases Option.map_eq_some_iff.1 hsession with ⟨σ, hσ, hsizes⟩
  have hrun := (run_of_replay hst).mono fun _ _ => FileAllowedIn.allowed
  exact ⟨st, σ, hrun, hσ, hsizes, (descriptors_independent (fun _ _ => rfl) hrun).1 4 σ 7 hσ⟩

end Files

end OswpKernel
