import OswpKernel.Files.Descriptors
import OswpKernel.Files.LoadedTree
import OswpKernel.Files.Splitters

/-!
# Boot — the file system that `initialise_file_system` sets up (`fs.c`)

The root has the directories `dev/`, `proc/` and `rootfs/`.  The archive is loaded below the last
one, and the terminal with the standard streams is in the first one; its node is called `ttyl`,
without a `/`, and flagged as a directory all the same.  `initialiseFileSystem_findFile` says what
every path names once the system is up.
-/

namespace OswpKernel

namespace Files

/-! ## `initialise_file_system` -/

/-- `"dev/"`. -/
def devName : List UInt8 := [100, 101, 118, slash]

/-- `"proc/"`. -/
def procName : List UInt8 := [112, 114, 111, 99, slash]

/-- `"ttyl"`. -/
def ttylName : List UInt8 := [116, 116, 121, 108]

/-- `"stdout"`. -/
def stdoutName : List UInt8 := [115, 116, 100, 111, 117, 116]

/-- `"stdin"`. -/
def stdinName : List UInt8 := [115, 116, 100, 105, 110]

/-- `"stderr"`. -/
def stderrName : List UInt8 := [115, 116, 100, 101, 114, 114]

def Loader.setFlags (L : Loader) (x : InodeRef) (flags : Nat) : Loader :=
  L.setInode x { L.heap.inodes x with flags }

/-- The nodes that `initialise_file_system` makes besides those of the archive. -/
structure BootNodes where
  filefsRoot : Tnode
  devDirectory : Tnode
  procDirectory : Tnode
  terminal : Tnode
  stdOut : Tnode
  stdIn : Tnode
  stdErr : Tnode

/-- `initialise_file_system` up to the descriptors. -/
def initialiseNodes (L : Loader) : Option (BootNodes × Loader) := do
  let (_, filefsRoot, L) ← L.createTNode rootName
  let (_, devDirectory, L) ← L.createTNode devName
  let (_, procDirectory, L) ← L.createTNode procName
  let (page, terminal, L) ← L.createTNode ttylName
  let L := L.setFlags terminal.linkToInode FS_DIRECTORY
  let L ← L.pushDirectory filefsRoot.linkToInode devDirectory
  let L := L.setFlags filefsRoot.linkToInode FS_MOUNTPOINT
  let L ← L.pushDirectory filefsRoot.linkToInode procDirectory
  let L ← L.pushFile devDirectory.linkToInode page terminal
  let L := L.setFlags devDirectory.linkToInode FS_MOUNTPOINT
  let (outPage, stdOut, L) ← L.createTNode stdoutName
  let L := L.setFlags stdOut.linkToInode FS_FILE
  let (inPage, stdIn, L) ← L.createTNode stdinName
  let L := L.setFlags stdIn.linkToInode FS_FILE
  let (errPage, stdErr, L) ← L.createTNode stderrName
  let L := L.setFlags stdErr.linkToInode FS_FILE
  let L ← L.pushFile terminal.linkToInode inPage stdIn
  let L ← L.pushFile terminal.linkToInode outPage stdOut
  let L ← L.pushFile terminal.linkToInode errPage stdErr
  return (⟨filefsRoot, devDirectory, procDirectory, terminal, stdOut, stdIn, stdErr⟩, L)

/-- `initialise_tarfs`; `subName` is the address of the buffer of `load_tarfs`, and `rows` is what
it holds. -/
def initialiseTarfs (mem : Memory) (subName : Word) (fuel : Nat) (address : Word)
    (rows : Nat → Nat → UInt8) (filefsRoot : Tnode) (L : Loader) : Option Loader := do
  let (_, rootfsDirectory, L) ← L.createTNode rootfsName
  let L ← L.pushDirectory filefsRoot.linkToInode rootfsDirectory
  let L := L.setFlags rootfsDirectory.linkToInode FS_MOUNTPOINT
  loadTarfs mem rootfsDirectory.linkToInode subName fuel address rows L

/-- What `initialise_file_system` leaves.  Every inode has `do_write` from `create_sys_node`, unless
it is one of the two that get something else. -/
def BootNodes.fileSystem (nodes : BootNodes) (L : Loader) (terminal : Keyboard.Terminal)
    (processes : Nat → ProcessInfo) : FileSystem where
  heap := L.heap
  write := fun x =>
    if x = nodes.stdErr.linkToInode then .doWriteErr
    else if x = nodes.stdOut.linkToInode then .null
    else .doWrite
  filefsRoot := nodes.filefsRoot
  fileDescriptors := fun i =>
    if i = 0 then some nodes.stdIn else if i = 1 ∨ i = 2 then some nodes.stdErr else none
  terminal
  processes
  printed := []

/-- `initialise_file_system`.  The function that `read` of `stdout` is set to is left out: nothing
leads to that node. -/
def initialiseFileSystem (mem : Memory) (subName : Word) (fuel : Nat) (address : Word)
    (rows : Nat → Nat → UInt8) (terminal : Keyboard.Terminal) (processes : Nat → ProcessInfo)
    (L : Loader) : Option FileSystem := do
  let (nodes, L) ← initialiseNodes L
  let L ← initialiseTarfs mem subName fuel address rows nodes.filefsRoot L
  let L := L.setFlags nodes.procDirectory.linkToInode FS_MOUNTPOINT
  return nodes.fileSystem L terminal processes

variable {L L' : Loader} {rest : List Nat} {page x : Nat} {t : Tnode} {name : List UInt8}
  {flags : Nat} {dirs files : List Tnode}

/-! ## The steps -/

/-- What the inodes say of their entries. -/
def Heap.lists (h : Heap) (x : InodeRef) : Nat × List Tnode × List Tnode :=
  ((h.inodes x).flags, (h.inodes x).subDirectoryList, (h.inodes x).subFilesList)

theorem Heap.lists_setInode (h : Heap) (x : InodeRef) (inode : Inode) :
    (h.setInode x inode).lists =
      Function.update h.lists x (inode.flags, inode.subDirectoryList, inode.subFilesList) := by
  funext y
  by_cases hy : y = x
  · rw [hy, Function.update_self, Heap.lists, Heap.setInode_self]
  · rw [Function.update_of_ne hy, Heap.lists, Heap.setInode_of_ne _ _ hy]
    rfl

/-- A step that changes one inode. -/
structure ListsChanged (L L' : Loader) (x : InodeRef) (lists : Nat × List Tnode × List Tnode) :
    Prop where
  pages : L'.pages = L.pages
  lists : L'.heap.lists = Function.update L.heap.lists x lists

theorem createTNode_lists (hpages : L.pages = page :: x :: rest) (hname : name.length ≤ 9) :
    ∃ t L', L.createTNode name = some (page, t, L') ∧ t.name = name ∧ t.linkToInode = x ∧
      L'.pages = rest ∧
      L'.heap.lists = Function.update L.heap.lists x ((L.heap.lists x).1, [], []) ∧
      L'.filesAt = Function.update L.filesAt x 0 :=
  ⟨_, _, createTNode_eq hpages hname, rfl, rfl, rfl, Heap.lists_setInode _ _ _, rfl⟩

theorem setFlags_changed (L : Loader) (x : InodeRef) (flags : Nat) :
    ListsChanged L (L.setFlags x flags) x (flags, (L.heap.lists x).2) :=
  ⟨rfl, Heap.lists_setInode _ _ _⟩

theorem pushDirectory_changed (t : Tnode) (hlists : L.heap.lists x = (flags, dirs, files))
    (hroom : dirs.length < Heap.maxEntries) :
    ∃ L', L.pushDirectory x t = some L' ∧ L'.filesAt = L.filesAt ∧
      ListsChanged L L' x (flags, dirs ++ [t], files) := by
  rcases Prod.mk.inj hlists with ⟨rfl, hrest⟩
  rcases Prod.mk.inj hrest with ⟨rfl, rfl⟩
  exact ⟨_, if_pos hroom, rfl, rfl, Heap.lists_setInode _ _ _⟩

theorem pushFile_changed (page : Nat) (t : Tnode) (hlists : L.heap.lists x = (flags, dirs, files))
    (hroom : files.length < Heap.maxEntries) :
    ∃ L', L.pushFile x page t = some L' ∧ ListsChanged L L' x (flags, dirs, files ++ [t]) := by
  rcases Prod.mk.inj hlists with ⟨rfl, hrest⟩
  rcases Prod.mk.inj hrest with ⟨rfl, rfl⟩
  exact ⟨_, Option.bind_eq_some_iff.2 ⟨_, if_pos hroom, rfl⟩, rfl, Heap.lists_setInode _ _ _⟩

/-! ## The nodes of the devices -/

namespace BootNodes

/-- The inodes, in the order they are made. -/
def links (nodes : BootNodes) : List InodeRef :=
  [nodes.filefsRoot.linkToInode, nodes.devDirectory.linkToInode, nodes.procDirectory.linkToInode,
    nodes.terminal.linkToInode, nodes.stdOut.linkToInode, nodes.stdIn.linkToInode,
    nodes.stdErr.linkToInode]

def names (nodes : BootNodes) : List (List UInt8) :=
  [nodes.filefsRoot.name, nodes.devDirectory.name, nodes.procDirectory.name, nodes.terminal.name,
    nodes.stdOut.name, nodes.stdIn.name, nodes.stdErr.name]

/-- The entries below the root; `mounted` are the directories behind the first two, and `flags` is
what the inode of `proc/` holds. -/
structure Devices (nodes : BootNodes) (mounted : List Tnode) (flags : Nat)
    (lists : InodeRef → Nat × List Tnode × List Tnode) : Prop where
  root : lists nodes.filefsRoot.linkToInode =
    (FS_MOUNTPOINT, nodes.devDirectory :: nodes.procDirectory :: mounted, [])
  dev : lists nodes.devDirectory.linkToInode = (FS_MOUNTPOINT, [], [nodes.terminal])
  proc : lists nodes.procDirectory.linkToInode = (flags, [], [])
  terminal : lists nodes.terminal.linkToInode =
    (FS_DIRECTORY, [], [nodes.stdIn, nodes.stdOut, nodes.stdErr])
  streams : ∀ t ∈ [nodes.stdIn, nodes.stdOut, nodes.stdErr],
    lists t.linkToInode = (FS_FILE, [], [])

end BootNodes

variable {nodes : BootNodes} {p₀ x₀ p₁ x₁ p₂ x₂ p₃ x₃ p₄ x₄ p₅ x₅ p₆ x₆ : Nat}

theorem initialiseNodes_spec (hpages : L.pages =
      p₀ :: x₀ :: p₁ :: x₁ :: p₂ :: x₂ :: p₃ :: x₃ :: p₄ :: x₄ :: p₅ :: x₅ :: p₆ :: x₆ :: rest)
    (hnodup : [x₀, x₁, x₂, x₃, x₄, x₅, x₆].Nodup) :
    ∃ nodes L', initialiseNodes L = some (nodes, L') ∧ L'.pages = rest ∧
      nodes.links = [x₀, x₁, x₂, x₃, x₄, x₅, x₆] ∧
      nodes.names = [rootName, devName, procName, ttylName, stdoutName, stdinName, stderrName] ∧
      nodes.Devices [] (L.heap.lists x₂).1 L'.heap.lists := by
  simp only [List.nodup_cons, List.mem_cons, List.not_mem_nil, or_false, not_or] at hnodup
  obtain ⟨⟨h₀₁, h₀₂, h₀₃, h₀₄, h₀₅, h₀₆⟩, ⟨h₁₂, h₁₃, h₁₄, h₁₅, h₁₆⟩, ⟨h₂₃, h₂₄, h₂₅, h₂₆⟩,
    ⟨h₃₄, h₃₅, h₃₆⟩, ⟨h₄₅, h₄₆⟩, h₅₆, -⟩ := hnodup
  obtain ⟨root, L₀, hc₀, hn₀, rfl, hp₀, hl₀, -⟩ :=
    createTNode_lists hpages (show rootName.length ≤ 9 by decide)
  obtain ⟨dev, L₁, hc₁, hn₁, rfl, hp₁, hl₁, -⟩ :=
    createTNode_lists hp₀ (show devName.length ≤ 9 by decide)
  obtain ⟨proc, L₂, hc₂, hn₂, rfl, hp₂, hl₂, -⟩ :=
    createTNode_lists hp₁ (show procName.length ≤ 9 by decide)
  obtain ⟨terminal, L₃, hc₃, hn₃, rfl, hp₃, hl₃, -⟩ :=
    createTNode_lists hp₂ (show ttylName.length ≤ 9 by decide)
  have hf₃ := setFlags_changed L₃ terminal.linkToInode FS_DIRECTORY
  -- the root gets `dev/` and `proc/`
  have hroot₃ : (L₃.setFlags terminal.linkToInode FS_DIRECTORY).heap.lists root.linkToInode =
      ((L.heap.lists root.linkToInode).1, [], []) := by
    simp [hf₃.lists, hl₃, hl₂, hl₁, hl₀, Function.update_apply, h₀₁, h₀₂, h₀₃]
  obtain ⟨L₄, hc₄, -, hl₄⟩ := pushDirectory_changed dev hroot₃ (by decide)
  have hf₄ := setFlags_changed L₄ root.linkToInode FS_MOUNTPOINT
  have hroot₄ : (L₄.setFlags root.linkToInode FS_MOUNTPOINT).heap.lists root.linkToInode =
      (FS_MOUNTPOINT, [dev], []) := by
    simp [hf₄.lists, hl₄.lists]
  obtain ⟨L₅, hc₅, -, hl₅⟩ := pushDirectory_changed proc hroot₄ (show 1 < 128 by decide)
  -- `dev/` gets the terminal
  have hdev₅ : L₅.heap.lists dev.linkToInode = ((L.heap.lists dev.linkToInode).1, [], []) := by
    simp [hl₅.lists, hf₄.lists, hl₄.lists, hf₃.lists, hl₃, hl₂, hl₁, hl₀, Function.update_apply,
      Ne.symm h₀₁, h₁₂, h₁₃]
  obtain ⟨L₆, hc₆, hl₆⟩ := pushFile_changed p₃ terminal hdev₅ (by decide)
  have hf₆ := setFlags_changed L₆ dev.linkToInode FS_MOUNTPOINT
  have hp₆ : (L₆.setFlags dev.linkToInode FS_MOUNTPOINT).pages =
      p₄ :: x₄ :: p₅ :: x₅ :: p₆ :: x₆ :: rest := by
    rw [hf₆.pages, hl₆.pages, hl₅.pages, hf₄.pages, hl₄.pages, hf₃.pages, hp₃]
  obtain ⟨stdOut, L₇, hc₇, hn₇, rfl, hp₇, hl₇, -⟩ :=
    createTNode_lists hp₆ (show stdoutName.length ≤ 9 by decide)
  have hf₇ := setFlags_changed L₇ stdOut.linkToInode FS_FILE
  obtain ⟨stdIn, L₈, hc₈, hn₈, rfl, hp₈, hl₈, -⟩ := createTNode_lists (hf₇.pages.trans hp₇)
    (show stdinName.length ≤ 9 by decide)
  have hf₈ := setFlags_changed L₈ stdIn.linkToInode FS_FILE
  obtain ⟨stdErr, L₉, hc₉, hn₉, rfl, hp₉, hl₉, -⟩ := createTNode_lists (hf₈.pages.trans hp₈)
    (show stderrName.length ≤ 9 by decide)
  have hf₉ := setFlags_changed L₉ stdErr.linkToInode FS_FILE
  -- the terminal gets the streams
  have hterminal₉ : (L₉.setFlags stdErr.linkToInode FS_FILE).heap.lists terminal.linkToInode =
      (FS_DIRECTORY, [], []) := by
    simp [hf₉.lists, hl₉, hf₈.lists, hl₈, hf₇.lists, hl₇, hf₆.lists, hl₆.lists, hl₅.lists,
      hf₄.lists, hl₄.lists, hf₃.lists, hl₃, Function.update_apply, h₃₄, h₃₅, h₃₆, Ne.symm h₀₃,
      Ne.symm h₁₃]
  obtain ⟨L₁₀, hc₁₀, hl₁₀⟩ := pushFile_changed p₅ stdIn hterminal₉ (by decide)
  have hterminal₁₀ : L₁₀.heap.lists terminal.linkToInode = (FS_DIRECTORY, [], [stdIn]) := by
    simp [hl₁₀.lists]
  obtain ⟨L₁₁, hc₁₁, hl₁₁⟩ := pushFile_changed p₄ stdOut hterminal₁₀
    (show 1 < 128 by decide)
  have hterminal₁₁ : L₁₁.heap.lists terminal.linkToInode = (FS_DIRECTORY, [], [stdIn, stdOut]) := by
    simp [hl₁₁.lists]
  obtain ⟨L₁₂, hc₁₂, hl₁₂⟩ := pushFile_changed p₆ stdErr hterminal₁₁
    (show 2 < 128 by decide)
  refine ⟨⟨root, dev, proc, terminal, stdOut, stdIn, stdErr⟩, L₁₂, ?_, ?_, rfl, ?_, ?_⟩
  · simp only [initialiseNodes, Option.bind_eq_bind, hc₀, hc₁, hc₂, hc₃, hc₄, hc₅, hc₆, hc₇, hc₈,
      hc₉, hc₁₀, hc₁₁, hc₁₂, Option.bind_some]
    rfl
  · rw [hl₁₂.pages, hl₁₁.pages, hl₁₀.pages, hf₉.pages, hp₉]
  · simp only [BootNodes.names, hn₀, hn₁, hn₂, hn₃, hn₇, hn₈, hn₉]
  · refine ⟨?_, ?_, ?_, ?_, fun t ht => ?_⟩
    · simp [hl₁₂.lists, hl₁₁.lists, hl₁₀.lists, hf₉.lists, hl₉, hf₈.lists, hl₈, hf₇.lists, hl₇,
        hf₆.lists, hl₆.lists, hl₅.lists, Function.update_apply, h₀₁, h₀₃, h₀₄, h₀₅, h₀₆]
    · simp [hl₁₂.lists, hl₁₁.lists, hl₁₀.lists, hf₉.lists, hl₉, hf₈.lists, hl₈, hf₇.lists, hl₇,
        hf₆.lists, hl₆.lists, Function.update_apply, h₁₃, h₁₄, h₁₅, h₁₆]
    · simp [hl₁₂.lists, hl₁₁.lists, hl₁₀.lists, hf₉.lists, hl₉, hf₈.lists, hl₈, hf₇.lists, hl₇,
        hf₆.lists, hl₆.lists, hl₅.lists, hf₄.lists, hl₄.lists, hf₃.lists, hl₃, hl₂, hl₁, hl₀,
        Function.update_apply, h₂₃, h₂₄, h₂₅, h₂₆, Ne.symm h₀₂, Ne.symm h₁₂]
    · simp [hl₁₂.lists]
    · rcases (by simpa using ht : t = stdIn ∨ t = stdOut ∨ t = stdErr) with rfl | rfl | rfl
      all_goals
        simp [hl₁₂.lists, hl₁₁.lists, hl₁₀.lists, hf₉.lists, hl₉, hf₈.lists, hl₈, hf₇.lists, hl₇,
          Function.update_apply, h₄₅, h₄₆, h₅₆, Ne.symm h₃₄, Ne.symm h₃₅, Ne.symm h₃₆]

/-! ## The whole system -/

variable {mem : Memory} {address subName : Word} {ms : List Member} {rows : Nat → Nat → UInt8}
  {terminal : Keyboard.Terminal} {processes : Nat → ProcessInfo} {s : FileSystem}
  {node : Path → Tnode} {heap : Heap} {ps : List Path} {cs : List (List UInt8)} {u : Tnode}
  {path : List UInt8} {p : Path}

/-- What `bump` has for the file system: two pages for each node, away from the buffer. -/
structure Supply (L : Loader) (subName : Word) (ms : List Member) : Prop where
  nodup : L.pages.Nodup
  enough : 16 + 2 * (archivePaths ms).eraseDups.length ≤ L.pages.length
  buffer : ∀ page ∈ L.pages, OffBuffer subName (pageAddress page)
  null : OffBuffer subName 0

/-- The file system after boot: the nodes of the devices, and those of the archive by their paths
below `rootfs/`. -/
structure Booted (s : FileSystem) (ms : List Member) (nodes : BootNodes) (node : Path → Tnode) :
    Prop where
  names : nodes.names =
    [rootName, devName, procName, ttylName, stdoutName, stdinName, stderrName]
  links : nodes.links.Nodup
  mount : (node []).name = rootfsName ∧
    (s.heap.inodes (node []).linkToInode).flags = FS_MOUNTPOINT
  root : s.filefsRoot = nodes.filefsRoot
  slots : s.fileDescriptors = fun i =>
    if i = 0 then some nodes.stdIn else if i = 1 ∨ i = 2 then some nodes.stdErr else none
  writes : s.write nodes.stdErr.linkToInode = .doWriteErr
  devices : nodes.Devices [node []] FS_MOUNTPOINT s.heap.lists
  arrays : NodeArrays s.heap node (archivePaths ms).eraseDups
  apart : ∀ p ∈ [] :: (archivePaths ms).eraseDups, (node p).linkToInode ∉ nodes.links
  flags : ∀ p ∈ (archivePaths ms).eraseDups, IsDirectory p →
    (s.heap.inodes (node p).linkToInode).flags = FS_DIRECTORY
  files : ∀ m ∈ ms, ¬ IsDirectory (components m.name) →
    FileNode s.heap (node (components m.name)) (BitVec.ofNat 64 m.size) m.header

/-- The node at the root may be any with the same inode. -/
theorem NodeArrays.setRoot (h : NodeArrays heap node ps) {t : Tnode}
    (hlink : t.linkToInode = (node []).linkToInode) :
    NodeArrays heap (Function.update node [] t) ps := by
  have hold : ∀ q ∈ ps, Function.update node [] t q = node q := fun q hq =>
    Function.update_of_ne (ne_of_mem_of_not_mem hq h.nonempty) ..
  have hlinks : ∀ q, (Function.update node [] t q).linkToInode = (node q).linkToInode := by
    intro q
    by_cases hq : q = []
    · rw [hq, Function.update_self, hlink]
    · rw [Function.update_of_ne hq]
  have hmap : ∀ (D : Path → Prop) [DecidablePred D] q,
      (below D ps q).map (Function.update node [] t) = (below D ps q).map node := fun D _ q =>
    List.map_congr_left fun r hr => hold r (mem_below.1 hr).1
  refine ⟨h.nonempty, h.closed, fun q hq r hr heq => ?_, fun q hq => ?_, fun q hq => ?_,
    fun q hq => ?_⟩
  · rw [hlinks, hlinks] at heq
    exact h.apart q hq r hr heq
  · rw [hold q hq]
    exact h.name q hq
  · rw [hlinks, hmap, h.directories q hq]
  · rw [hlinks, hmap, h.files q hq]

/-- Inodes that hold the same give the same tree. -/
theorem NodeArrays.congr {heap' : Heap} (h : NodeArrays heap node ps)
    (hsame : ∀ q ∈ [] :: ps, heap'.inodes (node q).linkToInode = heap.inodes (node q).linkToInode) :
    NodeArrays heap' node ps where
  nonempty := h.nonempty
  closed := h.closed
  apart := h.apart
  name := h.name
  directories := fun q hq => by rw [hsame q hq, h.directories q hq]
  files := fun q hq => by rw [hsame q hq, h.files q hq]

section Devices

variable {mounted : List Tnode} {lists lists' : InodeRef → Nat × List Tnode × List Tnode}

/-- The inodes of the devices hold what they held. -/
theorem BootNodes.Devices.congr (h : nodes.Devices mounted flags lists)
    (hsame : ∀ x ∈ nodes.links, lists' x = lists x) : nodes.Devices mounted flags lists' := by
  simp only [links, List.forall_mem_cons, List.not_mem_nil, IsEmpty.forall_iff,
    implies_true, and_true] at hsame
  obtain ⟨hroot, hdev, hproc, hterminal, hout, hin, herr⟩ := hsame
  refine ⟨hroot.trans h.root, hdev.trans h.dev, hproc.trans h.proc, hterminal.trans h.terminal, ?_⟩
  have hstreams := h.streams
  simp only [List.forall_mem_cons, List.not_mem_nil, IsEmpty.forall_iff,
    implies_true, and_true] at hstreams ⊢
  rwa [hin, hout, herr]

/-- A further directory below the root. -/
theorem BootNodes.Devices.mount (h : nodes.Devices mounted flags lists)
    (hnodup : nodes.links.Nodup) :
    nodes.Devices (mounted ++ [t]) flags (Function.update lists nodes.filefsRoot.linkToInode
      (FS_MOUNTPOINT, (nodes.devDirectory :: nodes.procDirectory :: mounted) ++ [t], [])) := by
  have hne : ∀ x ∈ nodes.links.tail, x ≠ nodes.filefsRoot.linkToInode := fun x hx =>
    ne_of_mem_of_not_mem hx (List.nodup_cons.1 hnodup).1
  simp only [links, List.tail_cons, List.forall_mem_cons, List.not_mem_nil, IsEmpty.forall_iff,
    implies_true, and_true] at hne
  obtain ⟨hdev, hproc, hterminal, hout, hin, herr⟩ := hne
  have hstreams := h.streams
  simp only [List.forall_mem_cons, List.not_mem_nil, IsEmpty.forall_iff,
    implies_true, and_true] at hstreams
  refine ⟨Function.update_self .., ?_, ?_, ?_, ?_⟩
  · rw [Function.update_of_ne hdev, h.dev]
  · rw [Function.update_of_ne hproc, h.proc]
  · rw [Function.update_of_ne hterminal, h.terminal]
  · simp only [List.forall_mem_cons, List.not_mem_nil, IsEmpty.forall_iff,
    implies_true, and_true]
    rwa [Function.update_of_ne hin, Function.update_of_ne hout, Function.update_of_ne herr]

theorem BootNodes.Devices.setProc {flags' : Nat} (h : nodes.Devices mounted flags lists)
    (hnodup : nodes.links.Nodup) :
    nodes.Devices mounted flags' (Function.update lists nodes.procDirectory.linkToInode
      (flags', (lists nodes.procDirectory.linkToInode).2)) := by
  simp only [links, List.nodup_cons, List.mem_cons, List.not_mem_nil, or_false, not_or] at hnodup
  obtain ⟨⟨-, hroot, -⟩, ⟨hdev, -⟩, ⟨hterminal, hout, hin, herr⟩, -⟩ := hnodup
  have hstreams := h.streams
  simp only [List.forall_mem_cons, List.not_mem_nil, IsEmpty.forall_iff,
    implies_true, and_true] at hstreams
  refine ⟨?_, ?_, ?_, ?_, ?_⟩
  · rw [Function.update_of_ne hroot, h.root]
  · rw [Function.update_of_ne hdev, h.dev]
  · rw [Function.update_self, h.proc]
  · rw [Function.update_of_ne (Ne.symm hterminal), h.terminal]
  · simp only [List.forall_mem_cons, List.not_mem_nil, IsEmpty.forall_iff,
    implies_true, and_true]
    rwa [Function.update_of_ne (Ne.symm hin), Function.update_of_ne (Ne.symm hout),
      Function.update_of_ne (Ne.symm herr)]

end Devices

/-- Nothing has been entered yet. -/
theorem loading_start (hempty : (L.heap.lists x).2 = ([], [])) (hfiles : L.filesAt x = 0)
    (hnodup : L.pages.Nodup) (hx : x ∉ L.pages)
    (henough : 2 * (archivePaths ms).eraseDups.length ≤ L.pages.length)
    (hbuffer : ∀ page ∈ L.pages, OffBuffer subName (pageAddress page))
    (hnull : OffBuffer subName 0) (ht : t.linkToInode = x) :
    Loading subName (archivePaths ms).eraseDups.length (archivePaths []).eraseDups L
      fun _ => t := by
  obtain ⟨hdirs, hlist⟩ := Prod.mk.inj hempty
  subst ht
  have hpaths : (archivePaths []).eraseDups = [] := rfl
  rw [hpaths]
  refine ⟨⟨List.not_mem_nil, fun p hp => absurd hp List.not_mem_nil, fun p hp q hq _ => ?_,
    fun p hp => absurd hp List.not_mem_nil, fun p _ => hdirs, fun p _ => hlist⟩, hnodup,
    fun x' hx' _ _ heq => hx (heq ▸ hx'), ?_, fun q _ => ?_, hbuffer, hnull⟩
  · rw [List.mem_singleton.1 hp, List.mem_singleton.1 hq]
  · rw [List.length_nil, Nat.mul_zero, Nat.zero_add]
    exact henough
  · rw [hfiles]
    exact hnull

/-- The root alone has been made. -/
theorem made_start (hempty : (L.heap.lists x).2 = ([], [])) (hnodup : L.pages.Nodup)
    (hx : x ∉ L.pages) : Made x L.pages L.heap.inodes [x] L := by
  obtain ⟨hdirs, hlist⟩ := Prod.mk.inj hempty
  have hsingle : ∀ y ∈ [x], y = x := fun y hy => List.mem_singleton.1 hy
  refine ⟨hnodup, fun y hy => hy, fun y hy => hsingle y hy ▸ hx, List.mem_cons_self,
    fun y hy => Or.inl (hsingle y hy), fun y hy u hu => ?_, fun y hy u hu => ?_, rfl,
    fun _ _ _ => rfl⟩
  · rw [hsingle y hy, hdirs] at hu
    cases hu
  · rw [hsingle y hy, hlist] at hu
    cases hu

theorem exists_twoCons {xs : List Nat} {n : Nat} (h : n + 2 ≤ xs.length) :
    ∃ a b rest, xs = a :: b :: rest ∧ n ≤ rest.length := by
  rcases xs with _ | ⟨a, _ | ⟨b, rest⟩⟩
  · exact absurd h (by simp)
  · exact absurd h (by simp)
  · exact ⟨a, b, rest, rfl, by simpa using h⟩

/-- Two pages for each of the nodes besides those of the archive. -/
theorem Supply.pages (h : Supply L subName ms) :
    ∃ p₀ x₀ p₁ x₁ p₂ x₂ p₃ x₃ p₄ x₄ p₅ x₅ p₆ x₆ p₇ x₇ rest, L.pages = p₀ :: x₀ :: p₁ :: x₁ ::
      p₂ :: x₂ :: p₃ :: x₃ :: p₄ :: x₄ :: p₅ :: x₅ :: p₆ :: x₆ :: p₇ :: x₇ :: rest ∧
        2 * (archivePaths ms).eraseDups.length ≤ rest.length := by
  have hlength := h.enough
  generalize 2 * (archivePaths ms).eraseDups.length = n at hlength
  rw [Nat.add_comm] at hlength
  obtain ⟨p₀, x₀, r₀, hr₀, h₀⟩ := exists_twoCons (n := n + 14) hlength
  obtain ⟨p₁, x₁, r₁, rfl, h₁⟩ := exists_twoCons (n := n + 12) h₀
  obtain ⟨p₂, x₂, r₂, rfl, h₂⟩ := exists_twoCons (n := n + 10) h₁
  obtain ⟨p₃, x₃, r₃, rfl, h₃⟩ := exists_twoCons (n := n + 8) h₂
  obtain ⟨p₄, x₄, r₄, rfl, h₄⟩ := exists_twoCons (n := n + 6) h₃
  obtain ⟨p₅, x₅, r₅, rfl, h₅⟩ := exists_twoCons (n := n + 4) h₄
  obtain ⟨p₆, x₆, r₆, rfl, h₆⟩ := exists_twoCons (n := n + 2) h₅
  obtain ⟨p₇, x₇, rest, rfl, h₇⟩ := exists_twoCons (n := n) h₆
  exact ⟨p₀, x₀, p₁, x₁, p₂, x₂, p₃, x₃, p₄, x₄, p₅, x₅, p₆, x₆, p₇, x₇, rest, hr₀, h₇⟩

/-- `initialise_tarfs` below a root that has the devices. -/
theorem initialiseTarfs_spec {fuel : Nat} {p₇ x₇ : Nat} (rows : Nat → Nat → UInt8)
    (harchive : Archive mem address ms) (hwf : WellFormed ms) (hfuel : ms.length < fuel)
    (hdevices : nodes.Devices [] flags L.heap.lists)
    (hnodup : nodes.links.Nodup) (hpages : L.pages = p₇ :: x₇ :: rest)
    (hapart : ∀ x ∈ nodes.links, x ≠ x₇ ∧ x ∉ rest) (hrest : (x₇ :: rest).Nodup)
    (henough : 2 * (archivePaths ms).eraseDups.length ≤ rest.length)
    (hbuffer : ∀ page ∈ rest, OffBuffer subName (pageAddress page)) (hnull : OffBuffer subName 0) :
    ∃ L' node, initialiseTarfs mem subName fuel address rows nodes.filefsRoot L = some L' ∧
      (node []).name = rootfsName ∧
      (L'.heap.inodes (node []).linkToInode).flags = FS_MOUNTPOINT ∧
      nodes.Devices [node []] flags L'.heap.lists ∧
      NodeArrays L'.heap node (archivePaths ms).eraseDups ∧
      (∀ p ∈ [] :: (archivePaths ms).eraseDups, (node p).linkToInode ∉ nodes.links ∧
        (IsDirectory p → (L'.heap.inodes (node p).linkToInode).flags = FS_DIRECTORY)) ∧
      ∀ m ∈ ms, ¬ IsDirectory (components m.name) →
        FileNode L'.heap (node (components m.name)) (BitVec.ofNat 64 m.size) m.header := by
  obtain ⟨hx, hfresh⟩ := List.nodup_cons.1 hrest
  obtain ⟨t, L₁, hcreate, hname, rfl, hpages₁, hlists₁, hfiles₁⟩ :=
    createTNode_lists hpages (show rootfsName.length ≤ 9 by decide)
  have hnew : t.linkToInode ∉ nodes.links := fun hmem => (hapart _ hmem).1 rfl
  have hroot : t.linkToInode ≠ nodes.filefsRoot.linkToInode := fun heq =>
    hnew (heq ▸ List.mem_cons_self)
  have hdevices₁ : nodes.Devices [] flags L₁.heap.lists := hdevices.congr fun x hx => by
    rw [hlists₁, Function.update_of_ne (hapart x hx).1]
  obtain ⟨L₂, hpush, hfiles₂, h₂⟩ := pushDirectory_changed t hdevices₁.root (show 2 < 128 by decide)
  have hdevices₂ : nodes.Devices [t] flags L₂.heap.lists := h₂.lists ▸ hdevices₁.mount hnodup
  have h₃ := setFlags_changed L₂ t.linkToInode FS_MOUNTPOINT
  generalize hL₃ : L₂.setFlags t.linkToInode FS_MOUNTPOINT = L₃ at h₃
  have hdevices₃ : nodes.Devices [t] flags L₃.heap.lists := hdevices₂.congr fun x hx => by
    rw [h₃.lists, Function.update_of_ne (hapart x hx).1]
  -- the new root of `load_tarfs` is empty
  have hempty : L₃.heap.lists t.linkToInode = (FS_MOUNTPOINT, [], []) := by
    rw [h₃.lists, Function.update_self, h₂.lists, Function.update_of_ne hroot, hlists₁,
      Function.update_self]
  have hpages₃ : L₃.pages = rest := by rw [h₃.pages, h₂.pages, hpages₁]
  have hfiles₃ : L₃.filesAt t.linkToInode = 0 := by
    rw [← hL₃]
    change L₂.filesAt t.linkToInode = 0
    rw [hfiles₂, hfiles₁, Function.update_self]
  subst hpages₃
  have hstart : Loading subName (archivePaths ms).eraseDups.length (archivePaths []).eraseDups L₃
      fun _ => t :=
    loading_start (congrArg Prod.snd hempty) hfiles₃ hfresh hx henough hbuffer hnull rfl
  obtain ⟨L', node, hload, hlink, harrays, hfiles⟩ := loadTarfs_from rows hwf.room rfl hstart rfl
    harchive hwf.nodup hwf.name hwf.size hfuel fun m hm => absurd hm List.not_mem_nil
  obtain ⟨made, hmade⟩ := (made_start (congrArg Prod.snd hempty) hfresh hx).loadTarfs hload
  have hother : ∀ x ∈ nodes.links, L'.heap.lists x = L₃.heap.lists x := fun x hx => by
    rw [Heap.lists, hmade.other x (hapart x hx).1 (hapart x hx).2]
    rfl
  let node' := Function.update node [] t
  have hself : node' [] = t := Function.update_self ..
  have harrays' : NodeArrays L'.heap node' (archivePaths ms).eraseDups := harrays.setRoot hlink.symm
  have hmade' : Made (node' []).linkToInode L₃.pages L₃.heap.inodes made L' := hself ▸ hmade
  refine ⟨L', node', ?_, hself ▸ hname, ?_, hself ▸ hdevices₃.congr hother, harrays',
    fun p hp => ?_, fun m hm hfile => ?_⟩
  · refine Option.bind_eq_some_iff.2 ⟨_, hcreate, Option.bind_eq_some_iff.2 ⟨_, hpush, ?_⟩⟩
    dsimp only
    rw [hL₃]
    exact hload
  · rw [hself, hmade.flags]
    exact congrArg Prod.fst hempty
  · obtain ⟨hmem, hdir⟩ := harrays'.mem_made rfl hmade' hp
    refine ⟨fun hlinks => ?_, hdir⟩
    exact (hmade'.within _ hmem).elim (fun heq => (hapart _ hlinks).1 (heq.trans (by rw [hself])))
      (hapart _ hlinks).2
  · have hne : components m.name ≠ [] := by
      have hmem := components_mem_archivePaths hm (hwf.name m hm)
      rintro hnil
      exact harrays.nonempty (hnil ▸ List.mem_eraseDups.2 hmem)
    change FileNode L'.heap (Function.update node [] t (components m.name)) _ _
    rw [Function.update_of_ne hne]
    exact hfiles m hm hfile

/-- The system comes up from any archive of the right shape. -/
theorem initialiseFileSystem_spec {fuel : Nat} (harchive : Archive mem address ms)
    (hwf : WellFormed ms) (hsupply : Supply L subName ms) (hfuel : ms.length < fuel)
    (rows : Nat → Nat → UInt8) (terminal : Keyboard.Terminal) (processes : Nat → ProcessInfo) :
    ∃ s nodes node,
      initialiseFileSystem mem subName fuel address rows terminal processes L = some s ∧
      Booted s ms nodes node := by
  obtain ⟨p₀, x₀, p₁, x₁, p₂, x₂, p₃, x₃, p₄, x₄, p₅, x₅, p₆, x₆, p₇, x₇, rest, hpages, henough⟩ :=
    hsupply.pages
  have hnodup := hsupply.nodup
  have hbuffer := hsupply.buffer
  rw [hpages] at hnodup hbuffer
  have hsplit : ([x₀, x₁, x₂, x₃, x₄, x₅, x₆] ++ x₇ :: rest).Nodup := by
    refine hnodup.sublist ?_
    simp only [List.cons_append, List.nil_append]
    repeat refine List.Sublist.cons _ (List.Sublist.cons_cons _ ?_)
    exact List.Sublist.refl _
  obtain ⟨hlinks, hrest, hdisjoint⟩ := List.nodup_append.1 hsplit
  obtain ⟨nodes, L₁, hnodes, hpages₁, hlinks₁, hnames, hdevices⟩ :=
    initialiseNodes_spec hpages hlinks
  rw [← hlinks₁] at hlinks hdisjoint
  have hapart : ∀ x ∈ nodes.links, x ≠ x₇ ∧ x ∉ rest := fun x hx =>
    ⟨hdisjoint x hx x₇ List.mem_cons_self,
      fun hmem => hdisjoint x hx x (List.mem_cons_of_mem _ hmem) rfl⟩
  obtain ⟨L₂, node, hload, hname, hmount, hdevices₂, harrays, hflags, hfiles⟩ :=
    initialiseTarfs_spec rows harchive hwf hfuel hdevices hlinks hpages₁ hapart hrest
      henough (fun page hpage => hbuffer page (by simp [hpage])) hsupply.null
  have h₃ := setFlags_changed L₂ nodes.procDirectory.linkToInode FS_MOUNTPOINT
  -- `proc/` is not in the tree of the archive
  have hproc : nodes.procDirectory.linkToInode ∈ nodes.links := by simp [BootNodes.links]
  have hsame : ∀ q ∈ [] :: (archivePaths ms).eraseDups,
      (L₂.setFlags nodes.procDirectory.linkToInode FS_MOUNTPOINT).heap.inodes
        (node q).linkToInode = L₂.heap.inodes (node q).linkToInode := fun q hq =>
    Heap.setInode_of_ne _ _ fun heq => (hflags q hq).1 (heq ▸ hproc)
  refine ⟨nodes.fileSystem (L₂.setFlags nodes.procDirectory.linkToInode FS_MOUNTPOINT) terminal
    processes, nodes, node, ?_, ⟨hnames, hlinks, ⟨hname, ?_⟩, rfl, rfl, if_pos rfl, ?_,
    harrays.congr hsame, fun p hp => (hflags p hp).1, fun p hp hdir => ?_, fun m hm hfile => ?_⟩⟩
  · refine Option.bind_eq_some_iff.2 ⟨_, hnodes, Option.bind_eq_some_iff.2 ⟨_, hload, rfl⟩⟩
  · exact (congrArg Inode.flags (hsame [] List.mem_cons_self)).trans hmount
  · exact h₃.lists ▸ hdevices₂.setProc hlinks
  · have hp' := List.mem_cons_of_mem [] hp
    exact (congrArg Inode.flags (hsame p hp')).trans ((hflags p hp').2 hdir)
  · have hmem := List.mem_cons_of_mem [] (List.mem_eraseDups.2
      (components_mem_archivePaths hm (hwf.name m hm)))
    have hnode := hfiles m hm hfile
    exact ⟨hnode.size, (congrArg Inode.file (hsame _ hmem)).trans hnode.file⟩

/-! ## What a path names -/

theorem entries_of_lists (h : heap.lists t.linkToInode = (flags, dirs, files)) :
    heap.entries t = dirs ++ files ∧ (heap.inodes t.linkToInode).flags = flags := by
  obtain ⟨hflags, hrest⟩ := Prod.mk.inj h
  obtain ⟨hdirs, hfiles⟩ := Prod.mk.inj hrest
  exact ⟨by rw [Heap.entries, hdirs, hfiles], hflags⟩

theorem leads_nil : Leads heap t [] u ↔ u = t := by
  constructor
  · intro h
    cases h
    rfl
  · rintro rfl
    exact Leads.here

theorem leads_cons {c : List UInt8} :
    Leads heap t (c :: cs) u ↔ ∃ d ∈ heap.entries t, d.name = c ∧ Leads heap d cs u := by
  constructor
  · intro h
    cases h with
    | step hd hrest => exact ⟨_, hd, rfl, hrest⟩
  · rintro ⟨d, hd, rfl, hrest⟩
    exact Leads.step hd hrest

/-- A node without entries leads nowhere else. -/
theorem leads_leaf (hempty : heap.entries t = []) : Leads heap t cs u ↔ cs = [] ∧ u = t := by
  cases cs with
  | nil => rw [leads_nil, and_iff_right rfl]
  | cons c cs =>
      rw [leads_cons, hempty]
      constructor
      · rintro ⟨d, hd, -⟩
        cases hd
      · rintro ⟨hnil, -⟩
        cases hnil

namespace Booted

theorem names_eq (h : Booted s ms nodes node) :
    nodes.filefsRoot.name = rootName ∧ nodes.devDirectory.name = devName ∧
      nodes.procDirectory.name = procName ∧ nodes.terminal.name = ttylName ∧
      nodes.stdOut.name = stdoutName ∧ nodes.stdIn.name = stdinName ∧
      nodes.stdErr.name = stderrName := by
  simpa [BootNodes.names] using h.names

theorem entries_streams (h : Booted s ms nodes node) :
    ∀ t ∈ [nodes.stdIn, nodes.stdOut, nodes.stdErr], s.heap.entries t = [] := fun t ht =>
  (entries_of_lists (h.devices.streams t ht)).1

theorem searchable_rootfs (h : Booted s ms nodes node) : Searchable s.heap (node []) := by
  refine h.arrays.searchable (nodup_eraseDups _) (fun p hp hentries => ?_)
    ((archivePaths ms).eraseDups.map List.length).sum List.mem_cons_self fun r hr => ?_
  · rcases h.arrays.isDirectory_of_entries hp hentries with rfl | hdir
    · exact Or.inr h.mount.2
    · rcases List.mem_cons.1 hp with rfl | hp
      · exact Or.inr h.mount.2
      · exact Or.inl (h.flags p hp hdir)
  · rw [List.length_nil, Nat.zero_add]
    exact List.single_le_sum (fun _ _ => Nat.zero_le _) _ (List.mem_map_of_mem hr)

theorem searchable_terminal (h : Booted s ms nodes node) : Searchable s.heap nodes.terminal := by
  obtain ⟨-, -, -, -, hout, hin, herr⟩ := h.names_eq
  obtain ⟨hentries, hflags⟩ := entries_of_lists h.devices.terminal
  rw [List.nil_append] at hentries
  refine Searchable.directory (Or.inl hflags) ?_ fun t ht => ?_
  · rw [hentries, List.map_cons, List.map_cons, List.map_cons, hout, hin, herr]
    decide
  · rw [hentries] at ht
    exact Searchable.leaf (h.entries_streams t ht)

theorem searchable (h : Booted s ms nodes node) : Searchable s.heap s.filefsRoot := by
  obtain ⟨-, hdev, hproc, -⟩ := h.names_eq
  rw [h.root]
  obtain ⟨hentries, hflags⟩ := entries_of_lists h.devices.root
  rw [List.append_nil] at hentries
  refine Searchable.directory (Or.inr hflags) ?_ ?_
  · rw [hentries, List.map_cons, List.map_cons, List.map_cons, hdev, hproc, h.mount.1]
    decide
  · rw [hentries, List.forall_mem_cons, List.forall_mem_cons, List.forall_mem_singleton]
    refine ⟨?_, Searchable.leaf (entries_of_lists h.devices.proc).1, h.searchable_rootfs⟩
    obtain ⟨hentries, hflags⟩ := entries_of_lists h.devices.dev
    rw [List.nil_append] at hentries
    refine Searchable.directory (Or.inr hflags) ?_ ?_
    · rw [hentries]
      exact List.nodup_singleton _
    · rw [hentries, List.forall_mem_singleton]
      exact h.searchable_terminal

theorem leads_terminal (h : Booted s ms nodes node) :
    Leads s.heap nodes.terminal cs u ↔ (cs = [] ∧ u = nodes.terminal) ∨
      ∃ t ∈ [nodes.stdIn, nodes.stdOut, nodes.stdErr], cs = [t.name] ∧ u = t := by
  obtain ⟨hentries, -⟩ := entries_of_lists h.devices.terminal
  rw [List.nil_append] at hentries
  cases cs with
  | nil => simp [leads_nil]
  | cons c cs =>
      rw [leads_cons, hentries, or_iff_right fun hboth => List.cons_ne_nil _ _ hboth.1]
      refine exists_congr fun t => and_congr_right fun ht => ?_
      rw [leads_leaf (h.entries_streams t ht), List.cons.injEq, and_assoc, eq_comm]

theorem leads_dev (h : Booted s ms nodes node) :
    Leads s.heap nodes.devDirectory cs u ↔ (cs = [] ∧ u = nodes.devDirectory) ∨
      ∃ cs', cs = ttylName :: cs' ∧ Leads s.heap nodes.terminal cs' u := by
  obtain ⟨-, -, -, hterminal, -⟩ := h.names_eq
  obtain ⟨hentries, -⟩ := entries_of_lists h.devices.dev
  rw [List.nil_append] at hentries
  cases cs with
  | nil => simp [leads_nil]
  | cons c cs =>
      rw [leads_cons, hentries, or_iff_right fun hboth => List.cons_ne_nil _ _ hboth.1]
      constructor
      · rintro ⟨d, hd, rfl, hrest⟩
        rw [List.mem_singleton.1 hd] at hrest ⊢
        exact ⟨cs, by rw [hterminal], hrest⟩
      · rintro ⟨cs', heq, hrest⟩
        obtain ⟨rfl, rfl⟩ := List.cons.inj heq
        exact ⟨_, List.mem_singleton_self _, hterminal, hrest⟩

/-- Below the root there are the devices and the archive. -/
theorem leads_root (h : Booted s ms nodes node) :
    Leads s.heap s.filefsRoot cs u ↔ (cs = [] ∧ u = nodes.filefsRoot) ∨
      (∃ cs', cs = devName :: cs' ∧ Leads s.heap nodes.devDirectory cs' u) ∨
      (cs = [procName] ∧ u = nodes.procDirectory) ∨
      ∃ p ∈ [] :: (archivePaths ms).eraseDups, cs = rootfsName :: p ∧ u = node p := by
  obtain ⟨-, hdev, hproc, -⟩ := h.names_eq
  obtain ⟨hentries, -⟩ := entries_of_lists h.devices.root
  have hempty := (entries_of_lists h.devices.proc).1
  rw [List.append_nil] at hentries
  rw [h.root]
  cases cs with
  | nil => simp [leads_nil]
  | cons c cs =>
      rw [leads_cons, hentries, or_iff_right fun hboth => List.cons_ne_nil _ _ hboth.1]
      rw [List.exists_mem_cons_iff, List.exists_mem_cons_iff, List.exists_mem_cons_iff, hdev, hproc,
        h.mount.1, leads_leaf hempty, h.arrays.leads_iff List.mem_cons_self, List.nil_append,
        or_iff_left (b := ∃ d ∈ ([] : List Tnode), _) fun ⟨d, hd, _⟩ => List.not_mem_nil hd]
      refine or_congr ?_ (or_congr ?_ ?_)
      · constructor
        · rintro ⟨rfl, hrest⟩
          exact ⟨cs, rfl, hrest⟩
        · rintro ⟨cs', heq, hrest⟩
          obtain ⟨rfl, rfl⟩ := List.cons.inj heq
          exact ⟨rfl, hrest⟩
      · rw [List.cons.injEq, and_assoc, eq_comm]
      · constructor
        · rintro ⟨rfl, hmem, rfl⟩
          exact ⟨cs, hmem, rfl, rfl⟩
        · rintro ⟨p, hmem, heq, rfl⟩
          obtain ⟨rfl, rfl⟩ := List.cons.inj heq
          exact ⟨rfl, hmem, rfl⟩

/-- No path leads to the standard streams: `ttyl` does not end in `/`. -/
theorem leads_path (h : Booted s ms nodes node) (hcs : components path = rootName :: cs) :
    Leads s.heap s.filefsRoot cs u ↔ (cs = [] ∧ u = nodes.filefsRoot) ∨
      (cs = [devName] ∧ u = nodes.devDirectory) ∨
      (cs = [devName, ttylName] ∧ u = nodes.terminal) ∨
      (cs = [procName] ∧ u = nodes.procDirectory) ∨
      ∃ p ∈ [] :: (archivePaths ms).eraseDups, cs = rootfsName :: p ∧ u = node p := by
  rw [h.leads_root]
  refine or_congr_right ((or_congr_left ?_).trans or_assoc)
  constructor
  · rintro ⟨cs', rfl, hdev⟩
    rcases h.leads_dev.1 hdev with ⟨rfl, rfl⟩ | ⟨cs', rfl, hterminal⟩
    · exact Or.inl ⟨rfl, rfl⟩
    · rcases h.leads_terminal.1 hterminal with ⟨rfl, rfl⟩ | ⟨t, -, rfl, -⟩
      · exact Or.inr ⟨rfl, rfl⟩
      · have hslash : EndsWithSlash ttylName :=
          components_dropLast (show ttylName ∈ (components path).dropLast by rw [hcs]; simp)
        exact absurd hslash (by decide)
  · rintro (⟨rfl, rfl⟩ | ⟨rfl, rfl⟩)
    · exact ⟨[], rfl, Leads.here⟩
    · exact ⟨[ttylName], rfl, h.leads_dev.2 (Or.inr ⟨[], rfl, Leads.here⟩)⟩

/-- The inode of a standard stream is not that of a node a path leads to. -/
theorem apart_streams (h : Booted s ms nodes node) (hcs : components path = rootName :: cs)
    (ht : t = nodes.stdIn ∨ t = nodes.stdErr) (hleads : Leads s.heap s.filefsRoot cs u) :
    u.linkToInode ≠ t.linkToInode := by
  have hlink : t.linkToInode ∈ nodes.links := by
    rcases ht with rfl | rfl
    all_goals simp [BootNodes.links]
  have hnodup := h.links
  simp only [BootNodes.links, List.nodup_cons, List.mem_cons, List.not_mem_nil, or_false,
    not_or] at hnodup
  obtain ⟨⟨-, -, -, -, hrootIn, hrootErr⟩, ⟨-, -, -, hdevIn, hdevErr⟩, ⟨-, -, hprocIn, hprocErr⟩,
    ⟨-, hterminalIn, hterminalErr⟩, -⟩ := hnodup
  rcases (h.leads_path hcs).1 hleads with
    ⟨-, rfl⟩ | ⟨-, rfl⟩ | ⟨-, rfl⟩ | ⟨-, rfl⟩ | ⟨p, hp, -, rfl⟩
  · rcases ht with rfl | rfl <;> assumption
  · rcases ht with rfl | rfl <;> assumption
  · rcases ht with rfl | rfl <;> assumption
  · rcases ht with rfl | rfl <;> assumption
  · exact fun heq => h.apart p hp (heq ▸ hlink)

end Booted

/-- The paths there are after boot. -/
def InNameSpace (ms : List Member) (path : List UInt8) : Prop :=
  path = rootName ∨ path = rootName ++ devName ∨ path = rootName ++ devName ++ ttylName ∨
    path = rootName ++ procName ∨
      ∃ p ∈ [] :: archivePaths ms, components path = rootName :: rootfsName :: p

theorem Booted.exists_leads_iff (h : Booted s ms nodes node)
    (hcs : components path = rootName :: cs) :
    (∃ u, Leads s.heap s.filefsRoot cs u) ↔ InNameSpace ms path := by
  have hname : ∀ (name : List UInt8) (ds : List (List UInt8)),
      components name = rootName :: ds → (path = name ↔ cs = ds) := by
    intro name ds hds
    rw [← components_injective.eq_iff, hcs, hds, List.cons.injEq, and_iff_right rfl]
  simp only [h.leads_path hcs, exists_or, exists_and_left, exists_eq, and_true]
  rw [InNameSpace, hname _ [] rfl, hname _ [devName] rfl, hname _ [devName, ttylName] rfl,
    hname _ [procName] rfl]
  refine or_congr_right (or_congr_right (or_congr_right (or_congr_right ?_)))
  simp only [hcs, List.cons.injEq, true_and]
  constructor
  · rintro ⟨u, p, hp, rfl, -⟩
    refine ⟨p, ?_, rfl⟩
    simpa using hp
  · rintro ⟨p, hp, rfl⟩
    exact ⟨node p, p, by simpa using hp, rfl, rfl⟩

theorem InNameSpace.absolute (h : InNameSpace ms path) : path.head? = some slash := by
  rcases h with rfl | rfl | rfl | rfl | ⟨p, -, hcs⟩
  · rfl
  · rfl
  · rfl
  · rfl
  · rw [← flatten_components path, hcs]
    rfl

/-- Short components are read as they are. -/
theorem eq_of_readsAs {comps names : List (List UInt8)}
    (hnames : List.Forall₂ Frame.ReadsAs comps names)
    (hshort : (∀ c ∈ comps, c.length ≤ 9) ∨ ∀ c ∈ names, c.length ≤ 9) : names = comps := by
  induction hnames with
  | nil => rfl
  | cons hhead _ ih =>
      rw [List.forall_mem_cons, List.forall_mem_cons] at hshort
      rcases hshort with hshort | hshort
      · rw [hhead.eq_of_short (Or.inl hshort.1), ih (Or.inl hshort.2)]
      · rw [hhead.eq_of_short (Or.inr hshort.1), ih (Or.inr hshort.2)]

/-- No name is longer than the 9 characters it has room for. -/
theorem Booted.length_le (h : Booted s ms nodes node) (hwf : WellFormed ms)
    (hleads : Leads s.heap s.filefsRoot cs u) : ∀ c ∈ cs, c.length ≤ 9 := by
  obtain ⟨-, -, -, -, hout, hin, herr⟩ := h.names_eq
  rcases h.leads_root.1 hleads with
    ⟨rfl, -⟩ | ⟨ds, rfl, hdev⟩ | ⟨rfl, -⟩ | ⟨p, hp, rfl, -⟩
  · exact fun c hc => absurd hc List.not_mem_nil
  · rcases h.leads_dev.1 hdev with ⟨rfl, -⟩ | ⟨es, rfl, hterminal⟩
    · decide
    · rcases h.leads_terminal.1 hterminal with ⟨rfl, -⟩ | ⟨t, ht, rfl, -⟩
      · decide
      · rcases (by simpa using ht : t = nodes.stdIn ∨ t = nodes.stdOut ∨ t = nodes.stdErr) with
          rfl | rfl | rfl
        · rw [hin]
          decide
        · rw [hout]
          decide
        · rw [herr]
          decide
  · decide
  · rw [List.forall_mem_cons]
    refine ⟨by decide, fun c hc => ?_⟩
    rcases List.mem_cons.1 hp with rfl | hp
    · cases hc
    · obtain ⟨m, hm, -, hprefix⟩ := mem_archivePaths.1 (List.mem_eraseDups.1 hp)
      have hpiece := hprefix.subset hc
      by_cases hslash : EndsWithSlash c
      · exact (hwf.name m hm).directories c hpiece hslash
      · exact ((hwf.name m hm).files c hpiece hslash).trans (by decide)

/-- What `find_file` finds for a path that its array has room for. -/
theorem Booted.findFile (h : Booted s ms nodes node) (hwf : WellFormed ms)
    (habs : path.head? = some slash) (hnul : (0 : UInt8) ∉ path) (hfits : Frame.FitsFind path)
    (subName : Bytes.Memory) :
    ∃ found, Frame.findFile s.heap s.filefsRoot subName path = some found ∧
      ∀ u, found = some u ↔ Leads s.heap s.filefsRoot (components path).tail u := by
  obtain ⟨names, hnames, hall⟩ := Frame.findComponents_readsAs habs hnul (hfits habs) subName
  rw [components_absolute habs, List.forall₂_cons_left_iff] at hall
  obtain ⟨name, rest, hname, hrest, rfl⟩ := hall
  have hroot := hname.eq_of_short (Or.inl (by decide))
  refine ⟨_, by rw [Frame.findFile_eq habs, hnames, Option.map_some], fun u => ?_⟩
  rw [h.searchable.findFileFromRoot_iff, hroot, h.root, h.names_eq.1, and_iff_right rfl, ← h.root]
  constructor
  · intro hleads
    rwa [eq_of_readsAs hrest (Or.inr (h.length_le hwf hleads))] at hleads
  · intro hleads
    rwa [eq_of_readsAs hrest (Or.inl (h.length_le hwf hleads))]

/-- After boot `find_file` finds the nodes of the devices, the directory `rootfs/` and what the
archive has below it, and nothing else; a file of the archive has its size and its bytes, and no
path names the node of a standard descriptor. -/
theorem initialiseFileSystem_findFile {fuel : Nat} (harchive : Archive mem address ms)
    (hwf : WellFormed ms) (hsupply : Supply L subName ms) (hfuel : ms.length < fuel)
    (rows : Nat → Nat → UInt8) (terminal : Keyboard.Terminal) (processes : Nat → ProcessInfo) :
    ∃ s, initialiseFileSystem mem subName fuel address rows terminal processes L = some s ∧
      ∀ path, (0 : UInt8) ∉ path → Frame.FitsFind path → ∀ subName, ∃ found,
        Frame.findFile s.heap s.filefsRoot subName path = some found ∧
        (found.isSome ↔ InNameSpace ms path) ∧
        (∀ m ∈ ms, ¬ IsDirectory (components m.name) → path = memberPath m.name →
          ∃ t ∈ found, FileNode s.heap t (BitVec.ofNat 64 m.size) m.header) ∧
        ∀ i, ∀ t ∈ s.fileDescriptors i, ∀ u ∈ found, u.linkToInode ≠ t.linkToInode := by
  obtain ⟨s, nodes, node, hrun, h⟩ :=
    initialiseFileSystem_spec harchive hwf hsupply hfuel rows terminal processes
  refine ⟨s, hrun, fun path hnul hfits subName => ?_⟩
  by_cases habs : path.head? = some slash
  · obtain ⟨found, hfind, hiff⟩ := h.findFile hwf habs hnul hfits subName
    have hcs := components_absolute habs
    refine ⟨found, hfind, ?_, fun m hm hfile heq => ?_, fun i t ht u hu => ?_⟩
    · rw [Option.isSome_iff_exists, ← h.exists_leads_iff hcs]
      exact exists_congr hiff
    · -- the components behind `rootfs/` are those of the name
      have hmem := List.mem_cons_of_mem [] (List.mem_eraseDups.2
        (components_mem_archivePaths hm (hwf.name m hm)))
      refine ⟨node (components m.name), (hiff _).2 ((h.leads_path hcs).2 ?_), h.files m hm hfile⟩
      refine Or.inr (Or.inr (Or.inr (Or.inr ⟨_, hmem, ?_, rfl⟩)))
      rw [heq, components_memberPath, List.tail_cons]
    · refine h.apart_streams hcs ?_ ((hiff u).1 hu)
      rw [h.slots] at ht
      dsimp only at ht
      split_ifs at ht
      · exact Or.inl (Option.some_inj.1 ht).symm
      · exact Or.inr (Option.some_inj.1 ht).symm
      · cases ht
  · -- a relative path is not looked up
    refine ⟨none, Frame.findFile_relative habs _ _ _, ?_, fun m _ _ heq => ?_, fun _ _ _ _ hu => ?_⟩
    · exact iff_of_false Bool.false_ne_true fun hin => habs hin.absolute
    · exact absurd (heq ▸ rfl) habs
    · cases hu

def bootLoader : Loader := ⟨⟨fun _ => blankInode, fun _ => 0⟩, List.range' 20 20, fun _ => 0⟩

theorem bootLoader_supply : Supply bootLoader 0xffffffff80200000 binMembers := by
  refine ⟨by decide, by decide +kernel, ?_, offBuffer_of_le (by decide) (by decide)⟩
  have hbelow : ∀ page ∈ bootLoader.pages,
      (pageAddress page).toNat + 4096 ≤ (0xffffffff80200000 : Word).toNat := by
    decide +kernel
  exact fun page hpage => offBuffer_of_le (hbelow page hpage) (by decide)

/-- `/rootfs/bin/sh` is a file of 3 bytes, and there is no `/rootfs/sh`. -/
theorem initialiseFileSystem_findFile_bin :
    ∃ s, initialiseFileSystem binArchive 0xffffffff80200000 3 0 (fun _ _ => 55)
        (Keyboard.Terminal.initializeKeyboardBuffer fun _ => Keyboard.nul) (fun _ => ⟨[], 0, 0, 0⟩)
        bootLoader = some s ∧
      (∃ t, Frame.findFile s.heap s.filefsRoot (fun _ => 7)
        (memberPath [98, 105, 110, 47, 115, 104]) = some (some t) ∧ t.size = 3) ∧
      Frame.findFile s.heap s.filefsRoot (fun _ => 7) (memberPath [115, 104]) = some none := by
  have hfuel : binMembers.length < 3 := by decide
  obtain ⟨s, hrun, hall⟩ := initialiseFileSystem_findFile binArchive_archive binMembers_wellFormed
    bootLoader_supply hfuel (fun _ _ => 55)
    (Keyboard.Terminal.initializeKeyboardBuffer fun _ => Keyboard.nul) fun _ => ⟨[], 0, 0, 0⟩
  refine ⟨s, hrun, ?_, ?_⟩
  · have hfits : Frame.FitsFind (memberPath [98, 105, 110, 47, 115, 104]) := fun _ =>
      Frame.fitsBlock_short ⟨rfl, by decide, by decide, by decide⟩
    obtain ⟨found, hfind, -, hfiles, -⟩ := hall _ (by decide) hfits fun _ => 7
    have hm : (⟨[98, 105, 110, 47, 115, 104], 3, 512⟩ : Member) ∈ binMembers :=
      List.mem_cons_of_mem _ List.mem_cons_self
    obtain ⟨t, ht, hnode⟩ := hfiles _ hm (by decide) rfl
    exact ⟨t, hfind.trans (congrArg some ht), hnode.size⟩
  · have hfits : Frame.FitsFind (memberPath [115, 104]) := fun _ =>
      Frame.fitsBlock_short ⟨rfl, by decide, by decide, by decide⟩
    obtain ⟨found, hfind, hsome, -⟩ := hall _ (by decide) hfits fun _ => 7
    rw [hfind, Option.some_inj, ← Option.not_isSome_iff_eq_none, hsome]
    -- the archive has no member that starts with this name
    have hnone : ∀ p ∈ [] :: archivePaths binMembers,
        components (memberPath [115, 104]) ≠ rootName :: rootfsName :: p := by
      decide +kernel
    rintro (h | h | h | h | ⟨p, hp, h⟩)
    · exact absurd h (by decide)
    · exact absurd h (by decide)
    · exact absurd h (by decide)
    · exact absurd h (by decide)
    · exact hnone p hp h

end Files

end OswpKernel
