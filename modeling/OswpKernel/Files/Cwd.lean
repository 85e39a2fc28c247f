import OswpKernel.Files.Bounds
import OswpKernel.Files.Proc
import OswpKernel.Scheduler.Conservation

/-!
# Cwd — the working directories of the processes (`syscall.c`)

`struct PCB` ends with `cwd[25]` and `name[25]`.  `sys_chdir` copies the path to the `cwd` of the
caller and of every process in the two lists that has the pid of its parent; `sys_getcwd` copies it
out.  Neither compares a length with 25, and the test of `sys_getcwd` leaves out the terminator.
`working_directory_iff` says for which paths and sizes the two calls do what they are for, and
`cwds_end` that along a run of short paths no `cwd` runs into the name behind it.
-/

namespace OswpKernel

namespace Files

open Execution
open Sched (System Event Enabled)

/-! ## The calls -/

/-- The processes and the tree; `text` holds the 50 bytes of `cwd` and `name` of each PCB. -/
structure Tasks where
  system : System
  text : PcbRef → Bytes.Memory
  heap : Heap
  filefsRoot : Tnode

abbrev Tasks.sched (s : Tasks) : Sched := s.system.sched

/-- `memset(cwd, '\0', kstrlength(cwd)); kstrcopy(cwd, path);`. -/
def setCwd (path : List UInt8) (text : Bytes.Memory) : Option Bytes.Memory := do
  let cwd ← (LocalArray.mk 50 text).string 0
  let pcb ← (LocalArray.mk 50 text).fill 0 (List.replicate cwd.length 0)
  let pcb ← Frame.kstrcopy pcb 0 path
  return pcb.byte

namespace Tasks

variable (s : Tasks)

def withText (x : PcbRef) (text : Bytes.Memory) : Tasks :=
  { s with text := Function.update s.text x text }

def setCwdOf (path : List UInt8) (x : PcbRef) : Option Tasks := do
  let text ← setCwd path (s.text x)
  return s.withText x text

/-- `while (temp != NULL) { if (temp->pid == currentthread->ppid) ...; temp = temp->next; }`. -/
def visitParents (path : List UInt8) (ppid : Pid) (temp : Option PcbRef) : Option Tasks :=
  (s.sched.walk temp).foldlM
    (fun s temp => if (s.sched.pcb temp).pid = ppid then s.setCwdOf path temp else some s) s

/-- `sys_chdir`; `subName` is what the buffer of `find_file` holds. -/
def sysChdir (subName : Bytes.Memory) (path : List UInt8) : Option (BitVec 32 × Tasks) := do
  match ← Frame.findFile s.heap s.filefsRoot subName path with
  | none => return (-1, s)
  | some item =>
      if (s.heap.inodes item.linkToInode).flags = FS_DIRECTORY then
        let s ← s.setCwdOf path s.sched.currentthread
        let ppid := (s.sched.pcb s.sched.currentthread).ppid
        if ppid ≠ 0 then
          let s ← s.visitParents path ppid s.sched.threadlist
          let s ← s.visitParents path ppid s.sched.blockedlist
          return (0, s)
        else return (0, s)
      else return (-1, s)

/-- `sys_getcwd`, with a buffer of `size` bytes; the result is NULL or what the buffer holds. -/
def sysGetcwd (buf : LocalArray) : Option (Option LocalArray) := do
  let cwd ← (LocalArray.mk 50 (s.text s.sched.currentthread)).string 0
  if buf.size < cwd.length then return none
  else
    let buf ← Frame.kstrcopy buf 0 cwd
    return some buf

end Tasks

/-! ## What else writes to the PCBs -/

/-- `"/rootfs/bin/"`. -/
def binPath : List UInt8 := [47, 114, 111, 111, 116, 102, 115, 47, 98, 105, 110, 47]

/-- `"/rootfs/bin/init"`. -/
def initPath : List UInt8 := binPath ++ [105, 110, 105, 116]

/-- `kstrcopy(new_process->cwd, current_process->cwd);`, where the new page holds `page`. -/
def copyCwd (text page : Bytes.Memory) : Option Bytes.Memory := do
  let cwd ← (LocalArray.mk 50 text).string 0
  let pcb ← Frame.kstrcopy ⟨50, page⟩ 0 cwd
  return pcb.byte

/-- The two strings `user_process` starts the first program with. -/
def firstText (text : Bytes.Memory) : Option Bytes.Memory := do
  let pcb ← Frame.kstrcopy ⟨50, text⟩ 0 binPath
  let pcb ← Frame.kstrcopy pcb 25 initPath
  return pcb.byte

/-- A step of the kernel: what moves the processes, `sys_chdir`, the new `name` that
`sys_execvpe` gives the caller, and what other calls leave of the tree. -/
inductive Step
  | sched (e : Event)
  | chdir (subName : Bytes.Memory) (path : List UInt8)
  | execvpe (name : Bytes.Memory)
  | files (heap : Heap) (root : Tnode)

namespace Tasks

variable (s : Tasks)

/-- The text of the PCB that an event of the scheduler writes to. -/
def writesText : Event → Option Tasks
  | .userProcess =>
      match started s.sched with
      | none => some s
      | some _ => do
          let text ← firstText (s.text s.sched.currentthread)
          return s.withText s.sched.currentthread text
  | .fork page => do
      let text ← copyCwd (s.text s.sched.currentthread) (s.text page)
      return s.withText page text
  | _ => some s

def exec : Step → Option Tasks
  | .sched e => do
      let system ← s.system.exec e
      let s ← s.writesText e
      return { s with system }
  | .chdir subName path => (s.sysChdir subName path).map Prod.snd
  | .execvpe name =>
      some (s.withText s.sched.currentthread fun i =>
        if i < 25 then s.text s.sched.currentthread i else name i)
  | .files heap root => some { s with heap, filefsRoot := root }

/-- The state `start` leaves. -/
def boot (memory : PcbRef → PCB) (page : PcbRef) (text : PcbRef → Bytes.Memory) (heap : Heap)
    (root : Tnode) : Tasks :=
  ⟨System.boot memory page, Function.update text page fun _ => 0, heap, root⟩

end Tasks

/-! ## What they are for -/

/-- The path is that of a node with `FS_DIRECTORY`. -/
def NamesDirectory (s : Tasks) (path : List UInt8) : Prop :=
  path.head? = some slash ∧ ∃ item, Leads s.heap s.filefsRoot (components path).tail item ∧
    (s.heap.inodes item.linkToInode).flags = FS_DIRECTORY

/-- The caller, and the processes in the lists that have the pid of its parent. -/
def Concerned (s : Tasks) (x : PcbRef) : Prop :=
  x = s.sched.currentthread ∨
    ((s.sched.pcb s.sched.currentthread).ppid ≠ 0 ∧
      (s.sched.pcb x).pid = (s.sched.pcb s.sched.currentthread).ppid ∧
      (x ∈ s.sched.walk s.sched.threadlist ∨ x ∈ s.sched.walk s.sched.blockedlist))

/-- The 25 bytes of `cwd` hold the path. -/
def CwdIs (text : Bytes.Memory) (path : List UInt8) : Prop :=
  path.length < 25 ∧ Bytes.IsString text 0 path

/-- The `cwd` of those concerned is the path, and nothing else has changed. -/
structure Changed (s s' : Tasks) (path : List UInt8) : Prop where
  system : s'.system = s.system
  heap : s'.heap = s.heap
  root : s'.filefsRoot = s.filefsRoot
  cwd : ∀ x, Concerned s x → CwdIs (s'.text x) path
  name : ∀ x, Concerned s x → ∀ i, 25 ≤ i → s'.text x i = s.text x i
  others : ∀ x, ¬ Concerned s x → s'.text x = s.text x

/-- A path to a directory becomes the working directory; with any other one -1 is returned and
nothing changes. -/
def ChangesDirectory (s : Tasks) (path : List UInt8) (result : Option (BitVec 32 × Tasks)) : Prop :=
  (NamesDirectory s path → ∃ s', result = some (0, s') ∧ Changed s s' path) ∧
  (¬ NamesDirectory s path → result = some (-1, s))

variable {s s' : Tasks} {path cwd : List UInt8} {text text' : Bytes.Memory} {x : PcbRef}
  {xs : List PcbRef} {subName : Bytes.Memory}

@[simp] theorem Tasks.withText_self : (s.withText x text).text x = text := Function.update_self ..

@[simp] theorem Tasks.withText_other {y : PcbRef} (h : y ≠ x) :
    (s.withText x text).text y = s.text y := Function.update_of_ne h ..

/-! ## One `cwd` -/

/-- The old and the new text of a PCB whose `cwd` was the string `cwd`, which may have run on into
the name. -/
structure Replaced (text text' : Bytes.Memory) (cwd path : List UInt8) : Prop where
  old : (LocalArray.mk 50 text).string 0 = some cwd
  new : CwdIs text' path
  behind : ∀ i, 25 ≤ i → text' i = if i < cwd.length then 0 else text i

theorem write_zeros {i n : Nat} :
    Bytes.write text 0 (List.replicate n 0) i = if i < n then 0 else text i := by
  by_cases hi : i < n
  · have hlt : i < (List.replicate n (0 : UInt8)).length := by rwa [List.length_replicate]
    have hinside : Bytes.write text 0 (List.replicate n 0) (0 + i) = _ := Bytes.write_inside hlt
    rw [Nat.zero_add, List.getElem_replicate] at hinside
    rw [if_pos hi, hinside]
  · rw [if_neg hi, Bytes.write_above]
    rw [List.length_replicate]
    omega

theorem setCwd_eq (hnul : (0 : UInt8) ∉ path) (hlen : path.length < 50)
    (hcwd : (LocalArray.mk 50 text).string 0 = some cwd) :
    setCwd path text =
      some (Bytes.write (Bytes.write text 0 (List.replicate cwd.length 0)) 0 (path ++ [0])) := by
  have hshort := (LocalArray.string_some hcwd).2
  have hzeros : 0 + (List.replicate cwd.length (0 : UInt8)).length ≤
      (LocalArray.mk 50 text).size := by
    rw [List.length_replicate]
    exact Nat.le_of_lt hshort
  have hroom : 0 + (path ++ [0]).length ≤ 50 := by
    rw [Nat.zero_add, List.length_append]
    exact hlen
  rw [setCwd, hcwd, Option.bind_eq_bind, Option.bind_some, LocalArray.fill_eq hzeros,
    Option.bind_eq_bind, Option.bind_some, Frame.kstrcopy_eq hnul, LocalArray.fill_eq hroom]
  rfl

theorem setCwd_replaced (hnul : (0 : UInt8) ∉ path) (hlen : path.length < 25)
    (hcwd : (LocalArray.mk 50 text).string 0 = some cwd) :
    ∃ text', setCwd path text = some text' ∧ Replaced text text' cwd path := by
  refine ⟨_, setCwd_eq hnul (by omega) hcwd, hcwd, ⟨hlen, Bytes.holds_write, ?_⟩, fun i hi => ?_⟩
  · exact fun c hc hzero => hnul (hzero ▸ hc)
  · rw [Bytes.write_above, write_zeros]
    rw [List.length_append, List.length_singleton]
    omega

theorem setCwd_some (h : setCwd path text = some text') :
    ∃ cwd, (LocalArray.mk 50 text).string 0 = some cwd := by
  obtain ⟨cwd, hcwd, -⟩ := Option.bind_eq_some_iff.1 h
  exact ⟨cwd, hcwd⟩

theorem CwdIs.string (h : CwdIs text path) : (LocalArray.mk 50 text).string 0 = some path := by
  refine LocalArray.string_eq h.2 ?_
  have hlen := h.1
  change 0 + path.length < 50
  omega

/-! ## A list of PCBs -/

/-- The text of those in the list is replaced; the tree and the table stay. -/
structure AllReplaced (s s' : Tasks) (path : List UInt8) (xs : List PcbRef) : Prop where
  system : s'.system = s.system
  heap : s'.heap = s.heap
  root : s'.filefsRoot = s.filefsRoot
  replaced : ∀ x ∈ xs, ∃ cwd, Replaced (s.text x) (s'.text x) cwd path
  others : ∀ x, x ∉ xs → s'.text x = s.text x

/-- Replacing a text twice is replacing it once. -/
theorem Replaced.trans {text₁ : Bytes.Memory} (h : Replaced text text₁ cwd path)
    {cwd₁ : List UInt8} (h₁ : Replaced text₁ text' cwd₁ path) : Replaced text text' cwd path := by
  have hcwd₁ : cwd₁ = path := by
    have hold := h₁.old
    rw [h.new.string] at hold
    exact (Option.some_inj.1 hold).symm
  refine ⟨h.old, h₁.new, fun i hi => ?_⟩
  have hlen := h.new.1
  rw [h₁.behind i hi, hcwd₁, if_neg (by omega), h.behind i hi]

theorem foldlM_setCwdOf (hnul : (0 : UInt8) ∉ path) (hlen : path.length < 25)
    (hstring : ∀ x ∈ xs, ∃ cwd, (LocalArray.mk 50 (s.text x)).string 0 = some cwd) :
    ∃ s', xs.foldlM (fun s x => s.setCwdOf path x) s = some s' ∧ AllReplaced s s' path xs := by
  induction xs generalizing s with
  | nil =>
      exact ⟨s, rfl, rfl, rfl, rfl, fun x hx => absurd hx List.not_mem_nil, fun _ _ => rfl⟩
  | cons y ys ih =>
      obtain ⟨cwd, hcwd⟩ := hstring y List.mem_cons_self
      obtain ⟨text, hset, hreplaced⟩ := setCwd_replaced hnul hlen hcwd
      let s₁ : Tasks := s.withText y text
      have hself : s₁.text y = text := Tasks.withText_self
      have hother : ∀ x, x ≠ y → s₁.text x = s.text x := fun x hx => Tasks.withText_other hx
      have hstep : s.setCwdOf path y = some s₁ := by
        rw [Tasks.setCwdOf, hset]
        rfl
      -- those behind `y` still hold strings, also where `y` comes a second time
      have hstring₁ : ∀ x ∈ ys, ∃ cwd, (LocalArray.mk 50 (s₁.text x)).string 0 = some cwd := by
        intro x hx
        by_cases hxy : x = y
        · rw [hxy, hself]
          exact ⟨path, hreplaced.new.string⟩
        · rw [hother x hxy]
          exact hstring x (List.mem_cons_of_mem _ hx)
      obtain ⟨s', hrun, h'⟩ := ih hstring₁
      refine ⟨s', ?_, h'.system, h'.heap, h'.root, fun x hx => ?_, fun x hx => ?_⟩
      · rw [List.foldlM_cons, hstep]
        exact hrun
      · by_cases hxys : x ∈ ys
        · obtain ⟨cwd₁, h₁⟩ := h'.replaced x hxys
          by_cases hxy : x = y
          · -- a PCB that is met again has the path already
            subst hxy
            rw [hself] at h₁
            exact ⟨cwd, hreplaced.trans h₁⟩
          · rw [hother x hxy] at h₁
            exact ⟨cwd₁, h₁⟩
        · have hxy : x = y := (List.mem_cons.1 hx).resolve_right hxys
          rw [h'.others x hxys, hxy, hself]
          exact ⟨cwd, hreplaced⟩
      · rw [List.mem_cons, not_or] at hx
        rw [h'.others x hx.2, hother x hx.1]

/-- A run over the list that comes to an end has found a string in each PCB. -/
theorem foldlM_setCwdOf_some
    (h : xs.foldlM (fun s x => s.setCwdOf path x) s = some s') :
    ∀ x ∈ xs, ∃ cwd, (LocalArray.mk 50 (s.text x)).string 0 = some cwd := by
  induction xs generalizing s with
  | nil => exact fun x hx => absurd hx List.not_mem_nil
  | cons y ys ih =>
      rw [List.foldlM_cons] at h
      obtain ⟨s₁, hstep, hrun⟩ := Option.bind_eq_some_iff.1 h
      obtain ⟨text, hset, hs₁⟩ := Option.bind_eq_some_iff.1 hstep
      intro x hx
      by_cases hxy : x = y
      · rw [hxy]
        exact setCwd_some hset
      · have hmem := (List.mem_cons.1 hx).resolve_left hxy
        obtain ⟨cwd, hcwd⟩ := ih hrun x hmem
        rw [← Option.some_inj.1 hs₁] at hcwd
        rw [Tasks.withText_other hxy] at hcwd
        exact ⟨cwd, hcwd⟩

/-! ## `sys_chdir` -/

/-- The PCBs the call comes to, in order. -/
def visits (s : Tasks) : List PcbRef :=
  s.sched.currentthread ::
    if (s.sched.pcb s.sched.currentthread).ppid ≠ 0 then
      (s.sched.walk s.sched.threadlist ++ s.sched.walk s.sched.blockedlist).filter fun x =>
        (s.sched.pcb x).pid = (s.sched.pcb s.sched.currentthread).ppid
    else []

theorem mem_visits : x ∈ visits s ↔ Concerned s x := by
  rw [visits, List.mem_cons, Concerned]
  refine or_congr_right ?_
  split_ifs with hppid
  · rw [List.mem_filter, List.mem_append, decide_eq_true_iff, and_comm]
    exact (and_iff_right hppid).symm
  · exact iff_of_false List.not_mem_nil fun h => hppid h.1

theorem setCwdOf_sched (h : s.setCwdOf path x = some s') : s'.sched = s.sched := by
  obtain ⟨text, -, hs'⟩ := Option.bind_eq_some_iff.1 h
  rw [← Option.some_inj.1 hs', Tasks.withText]

/-- The loop goes over those with the pid. -/
theorem foldlM_parents (ppid : Pid) (xs : List PcbRef) (s : Tasks) :
    xs.foldlM (fun s x =>
        if (s.sched.pcb x).pid = ppid then s.setCwdOf path x else some s) s =
      (xs.filter fun x => (s.sched.pcb x).pid = ppid).foldlM
        (fun s x => s.setCwdOf path x) s := by
  induction xs generalizing s with
  | nil => rfl
  | cons y ys ih =>
      rw [List.foldlM_cons]
      by_cases hy : (s.sched.pcb y).pid = ppid
      · have hfilter : (y :: ys).filter (fun x => (s.sched.pcb x).pid = ppid) = y :: _ :=
          List.filter_cons_of_pos (decide_eq_true hy)
        rw [if_pos hy, hfilter, List.foldlM_cons]
        cases hset : s.setCwdOf path y with
        | none => rfl
        | some s₁ =>
            -- the pids, and so the list that is left, are those of before
            have hsched := setCwdOf_sched hset
            rw [Option.bind_eq_bind, Option.bind_some, Option.bind_some, ih, hsched]
      · have hfilter : (y :: ys).filter (fun x => (s.sched.pcb x).pid = ppid) = _ :=
          List.filter_cons_of_neg (by simpa using hy)
        rw [if_neg hy, hfilter]
        exact ih s

theorem foldlM_setCwdOf_sched (h : xs.foldlM (fun s x => s.setCwdOf path x) s = some s') :
    s'.sched = s.sched := by
  induction xs generalizing s with
  | nil => rw [← Option.some_inj.1 h]
  | cons y ys ih =>
      rw [List.foldlM_cons] at h
      obtain ⟨s₁, hstep, hrun⟩ := Option.bind_eq_some_iff.1 h
      rw [ih hrun, setCwdOf_sched hstep]

/-- On a directory the call replaces the text of all it comes to. -/
theorem sysChdir_directory {item : Tnode}
    (hfind : Frame.findFile s.heap s.filefsRoot subName path = some (some item))
    (hflags : (s.heap.inodes item.linkToInode).flags = FS_DIRECTORY) :
    s.sysChdir subName path =
      ((visits s).foldlM (fun (s : Tasks) x => s.setCwdOf path x) s).map fun s' => (0, s') := by
  rw [Tasks.sysChdir, hfind, Option.bind_eq_bind, Option.bind_some]
  dsimp only
  rw [if_pos hflags, visits, List.foldlM_cons]
  cases hset : s.setCwdOf path s.sched.currentthread with
  | none => rfl
  | some s₁ =>
      have hsched := setCwdOf_sched hset
      rw [Option.bind_eq_bind, Option.bind_some, Option.bind_eq_bind, Option.bind_some, hsched]
      split_ifs with hppid
      · -- the two loops one after the other are one over both lists
        rw [Tasks.visitParents, foldlM_parents, hsched, List.filter_append, List.foldlM_append]
        cases hrun : ((s.sched.walk s.sched.threadlist).filter fun x =>
            (s.sched.pcb x).pid = (s.sched.pcb s.sched.currentthread).ppid).foldlM
              (fun (s : Tasks) x => s.setCwdOf path x) s₁ with
        | none => rfl
        | some s₂ =>
            have hsched₂ : s₂.sched = s.sched := (foldlM_setCwdOf_sched hrun).trans hsched
            rw [Option.bind_eq_bind, Option.bind_some, Option.bind_some, Tasks.visitParents,
              foldlM_parents, hsched₂]
            exact Option.map_eq_bind.symm
      · rfl

/-- The room that `sys_chdir` needs: the block of `find_file` for the path, and for the path to a
directory the 25 bytes of each `cwd`, none of which runs on into a name that is not empty. -/
structure FitsChdir (s : Tasks) (path : List UInt8) : Prop where
  block : Frame.FitsFind path
  length : NamesDirectory s path → path.length ≤ 24
  ends : NamesDirectory s path → ∀ x, Concerned s x → ∃ i, i ≤ 25 ∧ s.text x i = 0

theorem string_of_nul {i : Nat} (hi : i < 50) (hzero : text i = 0) :
    ∃ cwd, (LocalArray.mk 50 text).string 0 = some cwd ∧ cwd.length ≤ i := by
  have hstring := LocalArray.string_isSome (a := ⟨50, text⟩) (Nat.zero_le i) hi hzero
  obtain ⟨cwd, hcwd⟩ := Option.isSome_iff_exists.1 hstring
  refine ⟨cwd, hcwd, ?_⟩
  by_contra hlong
  have hne := (LocalArray.string_some hcwd).1.char_ne_zero (show i < cwd.length by omega)
  rw [Nat.zero_add] at hne
  exact hne hzero

theorem exists_nul_iff : (∃ i, i ≤ 25 ∧ text i = 0) ↔
    ∃ cwd, (LocalArray.mk 50 text).string 0 = some cwd ∧ cwd.length ≤ 25 := by
  constructor
  · rintro ⟨i, hi, hzero⟩
    obtain ⟨cwd, hcwd, hlen⟩ := string_of_nul (show i < 50 by omega) hzero
    exact ⟨cwd, hcwd, hlen.trans hi⟩
  · rintro ⟨cwd, hcwd, hlen⟩
    have hend := (LocalArray.string_some hcwd).1.terminator
    rw [Nat.zero_add] at hend
    exact ⟨cwd.length, hlen, hend⟩

/-- A `cwd` that ran on into the name took a character of it along. -/
theorem Replaced.name_iff (h : Replaced text text' cwd path) :
    (∀ i, 25 ≤ i → text' i = text i) ↔ cwd.length ≤ 25 := by
  constructor
  · intro hsame
    by_contra hlong
    have hne := (LocalArray.string_some h.old).1.char_ne_zero (show 25 < cwd.length by omega)
    have hat := h.behind 25 le_rfl
    rw [Nat.zero_add] at hne
    rw [if_pos (by omega), hsame 25 le_rfl] at hat
    exact hne hat
  · intro hlen i hi
    rw [h.behind i hi, if_neg (by omega)]

/-- On a directory, with room in the block, the call runs over all it comes to. -/
theorem sysChdir_of_names (htree : FileTree s.heap s.filefsRoot)
    (hroot : s.filefsRoot.name = rootName) (hnul : (0 : UInt8) ∉ path)
    (hdir : NamesDirectory s path) (hfits : Frame.FitsFind path) (subName : Bytes.Memory) :
    s.sysChdir subName path =
      ((visits s).foldlM (fun (s : Tasks) x => s.setCwdOf path x) s).map fun s' => (0, s') := by
  obtain ⟨habs, item, hitem, hflags⟩ := hdir
  obtain ⟨found, hfind, hiff⟩ := Frame.findFile_leads habs hnul hfits htree hroot subName
  rw [(hiff item).2 hitem] at hfind
  exact sysChdir_directory hfind hflags

/-- On any other path it gives up before it writes. -/
theorem sysChdir_of_not_names (htree : FileTree s.heap s.filefsRoot)
    (hroot : s.filefsRoot.name = rootName) (hnul : (0 : UInt8) ∉ path)
    (hdir : ¬ NamesDirectory s path) (hfits : Frame.FitsFind path)
    (subName : Bytes.Memory) : s.sysChdir subName path = some (-1, s) := by
  by_cases habs : path.head? = some slash
  · obtain ⟨found, hfind, hiff⟩ := Frame.findFile_leads habs hnul hfits htree hroot subName
    rw [Tasks.sysChdir, hfind, Option.bind_eq_bind, Option.bind_some]
    cases found with
    | none => rfl
    | some item =>
        have hflags : (s.heap.inodes item.linkToInode).flags ≠ FS_DIRECTORY :=
          fun hflags => hdir ⟨habs, item, (hiff item).1 rfl, hflags⟩
        exact if_neg hflags
  · rw [Tasks.sysChdir, Frame.findFile_relative habs]
    rfl

/-- Without the room in the block it does not come back. -/
theorem sysChdir_eq_none (hnul : (0 : UInt8) ∉ path) (hfits : ¬ Frame.FitsFind path) :
    s.sysChdir subName path = none := by
  rw [Tasks.sysChdir, Frame.findFile_eq_none hnul hfits]
  rfl

/-- Replacing all it comes to is changing the directory, just if no `cwd` had run on. -/
theorem AllReplaced.changed_iff (h : AllReplaced s s' path (visits s)) :
    Changed s s' path ↔ ∀ x, Concerned s x → ∃ i, i ≤ 25 ∧ s.text x i = 0 := by
  constructor
  · intro hchanged x hx
    obtain ⟨cwd, hreplaced⟩ := h.replaced x (mem_visits.2 hx)
    exact exists_nul_iff.2 ⟨cwd, hreplaced.old, hreplaced.name_iff.1 (hchanged.name x hx)⟩
  · intro hends
    refine ⟨h.system, h.heap, h.root, fun x hx => ?_, fun x hx => ?_, fun x hx => ?_⟩
    · obtain ⟨cwd, hreplaced⟩ := h.replaced x (mem_visits.2 hx)
      exact hreplaced.new
    · obtain ⟨cwd, hreplaced⟩ := h.replaced x (mem_visits.2 hx)
      obtain ⟨cwd', hcwd', hlen⟩ := exists_nul_iff.1 (hends x hx)
      rw [hreplaced.old] at hcwd'
      exact hreplaced.name_iff.2 (Option.some_inj.1 hcwd' ▸ hlen)
    · exact h.others x (mt mem_visits.1 hx)

/-- `sys_chdir` does what it is for just if everything fits. -/
theorem changesDirectory_iff (htree : FileTree s.heap s.filefsRoot)
    (hroot : s.filefsRoot.name = rootName) (hnul : (0 : UInt8) ∉ path)
    (subName : Bytes.Memory) :
    ChangesDirectory s path (s.sysChdir subName path) ↔ FitsChdir s path := by
  constructor
  · intro h
    have hblock : Frame.FitsFind path := by
      by_contra hfits
      rw [sysChdir_eq_none hnul hfits] at h
      by_cases hdir : NamesDirectory s path
      · obtain ⟨s', hs', -⟩ := h.1 hdir
        cases hs'
      · cases h.2 hdir
    refine ⟨hblock, fun hdir => ?_, fun hdir => ?_⟩
    · obtain ⟨s', -, hchanged⟩ := h.1 hdir
      exact Nat.le_of_lt_succ (hchanged.cwd _ (Or.inl rfl)).1
    · -- the loop has a result, which is what it makes of the texts, so these have been strings
      obtain ⟨s', hcall, hchanged⟩ := h.1 hdir
      have hlen := (hchanged.cwd _ (Or.inl rfl)).1
      rw [sysChdir_of_names htree hroot hnul hdir hblock] at hcall
      obtain ⟨s₁, hrun, hs₁⟩ := Option.map_eq_some_iff.1 hcall
      obtain ⟨s₂, hrun₂, hall⟩ := foldlM_setCwdOf hnul hlen (foldlM_setCwdOf_some hrun)
      have hsame : s₂ = s' := by
        rw [hrun] at hrun₂
        rw [← Option.some_inj.1 hrun₂]
        exact (Prod.mk.inj hs₁).2
      exact (hsame ▸ hall).changed_iff.1 hchanged
  · rintro ⟨hblock, hlen, hends⟩
    refine ⟨fun hdir => ?_,
      fun hdir => sysChdir_of_not_names htree hroot hnul hdir hblock subName⟩
    have hstring : ∀ x ∈ visits s, ∃ cwd, (LocalArray.mk 50 (s.text x)).string 0 = some cwd := by
      intro x hx
      obtain ⟨cwd, hcwd, -⟩ := exists_nul_iff.1 (hends hdir x (mem_visits.1 hx))
      exact ⟨cwd, hcwd⟩
    obtain ⟨s', hrun, hall⟩ :=
      foldlM_setCwdOf hnul (Nat.lt_succ_of_le (hlen hdir)) hstring
    refine ⟨s', ?_, hall.changed_iff.2 (hends hdir)⟩
    rw [sysChdir_of_names htree hroot hnul hdir hblock, hrun]
    rfl

/-! ## `sys_getcwd` -/

/-- NULL is returned, or nothing behind the buffer is written. -/
def StaysInside (buf : LocalArray) (result : Option (Option LocalArray)) : Prop :=
  result = some none ∨
    ∃ buf', result = some (some buf') ∧ ∀ i, buf.size ≤ i → buf'.byte i = buf.byte i

/-- The test lets the one size pass that has no room for the terminator. -/
theorem staysInside_iff (hcwd : CwdIs (s.text s.sched.currentthread) cwd) (buf : LocalArray) :
    StaysInside buf (s.sysGetcwd buf) ↔ buf.size ≠ cwd.length := by
  have hnul : (0 : UInt8) ∉ cwd := fun hmem => hcwd.2.nonzero 0 hmem rfl
  have hcall : s.sysGetcwd buf =
      if buf.size < cwd.length then some none else (buf.fill 0 (cwd ++ [0])).map some := by
    rw [Tasks.sysGetcwd, hcwd.string, Option.bind_eq_bind, Option.bind_some,
      Frame.kstrcopy_eq hnul]
    split_ifs
    · rfl
    · exact Option.map_eq_bind.symm
  have hlength : (cwd ++ [0]).length = cwd.length + 1 := List.length_append
  rw [hcall]
  split_ifs with hsize
  · exact iff_of_true (Or.inl rfl) hsize.ne
  · constructor
    · rintro (hnone | ⟨buf', hbuf', -⟩) heq
      · obtain ⟨buf', -, hbuf'⟩ := Option.map_eq_some_iff.1 hnone
        cases hbuf'
      · -- the NUL does not fit a buffer as long as the text
        obtain ⟨buf₁, hfill, -⟩ := Option.map_eq_some_iff.1 hbuf'
        have hfits := LocalArray.fill_isSome_iff.1 (Option.isSome_of_eq_some hfill)
        rw [or_iff_right (List.concat_ne_nil _ _), hlength] at hfits
        omega
    · intro hne
      have hfits : 0 + (cwd ++ [0]).length ≤ buf.size := by
        rw [hlength]
        omega
      refine Or.inr ⟨_, by rw [LocalArray.fill_eq hfits, Option.map_some], fun i hi => ?_⟩
      exact Bytes.write_above (hfits.trans hi)

/-! ## Runs -/

/-- What `path` must be for `sys_chdir` to have room for it. -/
structure FitsPath (s : Tasks) (path : List UInt8) : Prop where
  block : Frame.FitsFind path
  length : NamesDirectory s path → path.length ≤ 24

/-- Nothing writes the `cwd` of a thread of the kernel: there is a NUL in what its page holds. -/
def Tasks.ThreadEnds (s : Tasks) : Event → Prop
  | .createThread page => ∃ i, i < 25 ∧ s.text page i = 0
  | _ => True

/-- What happens in a run: the events of the scheduler where they may, any call of `sys_chdir`
with a path there is room for, any other change of a name or of the tree. -/
def Tasks.Clean (s : Tasks) : Step → Prop
  | .sched e => Enabled s.system e ∧ s.ThreadEnds e
  | .chdir _ path => s.system.spinning = false ∧ (0 : UInt8) ∉ path ∧ FitsPath s path
  | .execvpe _ => s.system.spinning = false
  | .files heap root => FileTree heap root ∧ root.name = rootName

/-- The `cwd` of every process ends within its 25 bytes. -/
structure CwdsEnd (s : Tasks) : Prop where
  tracks : ∃ T, Sched.Tracks s.system T
  ends : ∀ x ∈ s.system.pages, ∃ cwd, CwdIs (s.text x) cwd
  tree : FileTree s.heap s.filefsRoot
  root : s.filefsRoot.name = rootName

/-- Where `sys_chdir` writes is inside the pages of the processes. -/
theorem CwdsEnd.concerned (h : CwdsEnd s) (hx : Concerned s x) : x ∈ s.system.pages := by
  obtain ⟨T, hT⟩ := h.tracks
  have hbounded := hT.valid.length_le
  rcases hx with rfl | ⟨-, -, hx | hx⟩
  · rw [hT.represents.current]
    exact hT.valid.listed _ (List.mem_append_left _ hT.valid.current)
  · rw [hT.represents.walk_threads hbounded] at hx
    exact hT.valid.listed x (List.mem_append_left _ hx)
  · rw [hT.represents.walk_blocked hbounded] at hx
    exact hT.valid.listed x (List.mem_append_right _ hx)

theorem CwdsEnd.current (h : CwdsEnd s) : s.sched.currentthread ∈ s.system.pages :=
  h.concerned (Or.inl rfl)

theorem cwdIs_zero : CwdIs (fun _ => 0) [] := by
  refine ⟨by decide, fun i hi => ?_, List.forall_mem_nil _⟩
  have hzero : i = 0 := Nat.lt_one_iff.1 hi
  subst hzero
  rfl

theorem exists_cwd_of_nul (h : ∃ i, i < 25 ∧ text i = 0) : ∃ cwd, CwdIs text cwd := by
  obtain ⟨i, hi, hzero⟩ := h
  obtain ⟨cwd, hcwd, hlen⟩ := string_of_nul (show i < 50 by omega) hzero
  exact ⟨cwd, lt_of_le_of_lt hlen hi, (LocalArray.string_some hcwd).1⟩

theorem CwdIs.congr (h : CwdIs text cwd) (hsame : ∀ i, i < 25 → text' i = text i) :
    CwdIs text' cwd := by
  refine ⟨h.1, h.2.congr fun i _ hi => hsame i ?_⟩
  have hlen := h.1
  omega

theorem CwdIs.nul (h : CwdIs text cwd) : (0 : UInt8) ∉ cwd := fun hmem => h.2.nonzero 0 hmem rfl

theorem cwdIs_write (hnul : (0 : UInt8) ∉ cwd) (hlen : cwd.length < 25) :
    CwdIs (Bytes.write text 0 (cwd ++ [0])) cwd :=
  ⟨hlen, Bytes.isString_write hnul⟩

/-- A child starts where its parent is. -/
theorem CwdIs.copyCwd (h : CwdIs text cwd) (page : Bytes.Memory) :
    ∃ text', Files.copyCwd text page = some text' ∧ CwdIs text' cwd := by
  have hlen := h.1
  have hroom : 0 + (cwd ++ [0]).length ≤ 50 := by
    rw [List.length_append, List.length_singleton]
    omega
  refine ⟨Bytes.write page 0 (cwd ++ [0]), ?_, cwdIs_write h.nul hlen⟩
  rw [Files.copyCwd, h.string, Option.bind_eq_bind, Option.bind_some, Frame.kstrcopy_eq h.nul,
    LocalArray.fill_eq hroom]
  rfl

theorem firstText_cwd : ∃ text', firstText text = some text' ∧ CwdIs text' binPath := by
  have hbin : (0 : UInt8) ∉ binPath := by decide
  have hinit : (0 : UInt8) ∉ initPath := by decide
  have hwritten : CwdIs (Bytes.write text 0 (binPath ++ [0])) binPath :=
    cwdIs_write hbin (by decide)
  refine ⟨Bytes.write (Bytes.write text 0 (binPath ++ [0])) 25 (initPath ++ [0]), ?_, ?_⟩
  · have hroom : 0 + (binPath ++ [0]).length ≤ 50 := by decide
    have hroom' : 25 + (initPath ++ [0]).length ≤ 50 := by decide
    rw [firstText, Frame.kstrcopy_eq hbin, LocalArray.fill_eq hroom, Option.bind_eq_bind,
      Option.bind_some, Frame.kstrcopy_eq hinit, LocalArray.fill_eq hroom']
    rfl
  · exact hwritten.congr fun i hi => Bytes.write_below hi

/-- Every PCB in use has a `cwd` that ends. -/
def EndsIn (s : Tasks) (pages : List PcbRef) : Prop := ∀ x ∈ pages, ∃ cwd, CwdIs (s.text x) cwd

theorem EndsIn.withText {pages : List PcbRef} (h : EndsIn s pages) (hcwd : CwdIs text cwd) :
    EndsIn (s.withText x text) (x :: pages) := by
  intro y hy
  by_cases hyx : y = x
  · rw [hyx, Tasks.withText_self]
    exact ⟨cwd, hcwd⟩
  · rw [Tasks.withText_other hyx]
    exact h y ((List.mem_cons.1 hy).resolve_left hyx)

theorem EndsIn.mono {pages pages' : List PcbRef} (h : EndsIn s pages) (hsub : pages' ⊆ pages) :
    EndsIn s pages' := fun x hx => h x (hsub hx)

/-- The events write no text but the two that start a process, and these write one that ends. -/
theorem CwdsEnd.writesText (h : CwdsEnd s) {e : Event} (he : s.ThreadEnds e) :
    ∃ s₁, s.writesText e = some s₁ ∧ EndsIn s₁ (Sched.pagesAfter s.system.pages e) := by
  cases e with
  | schedule | waitpid pid | exit | kill pid sig answer => exact ⟨s, rfl, h.ends⟩
  | createThread page =>
      refine ⟨s, rfl, fun x hx => ?_⟩
      rcases List.mem_cons.1 hx with rfl | hx
      · exact exists_cwd_of_nul he
      · exact h.ends x hx
  | fork page =>
      obtain ⟨cwd, hcwd⟩ := h.ends _ h.current
      obtain ⟨text', htext', hcwd'⟩ := hcwd.copyCwd (s.text page)
      refine ⟨s.withText page text', ?_, EndsIn.withText h.ends hcwd'⟩
      rw [Tasks.writesText, htext']
      rfl
  | userProcess =>
      rw [Tasks.writesText]
      cases started s.sched with
      | none => exact ⟨s, rfl, h.ends⟩
      | some process =>
          obtain ⟨text', htext', hcwd⟩ := firstText_cwd
          refine ⟨s.withText s.sched.currentthread text', ?_, ?_⟩
          · dsimp only
            rw [htext']
            rfl
          · exact (EndsIn.withText h.ends hcwd).mono (List.subset_cons_self _ _)

theorem writesText_tree {e : Event} (h : s.writesText e = some s') :
    s'.heap = s.heap ∧ s'.filefsRoot = s.filefsRoot := by
  cases e with
  | schedule | waitpid pid | exit | kill pid sig answer | createThread page =>
      rw [← Option.some_inj.1 h]
      exact ⟨rfl, rfl⟩
  | fork page =>
      obtain ⟨text, -, hs'⟩ := Option.bind_eq_some_iff.1 h
      rw [← Option.some_inj.1 hs']
      exact ⟨rfl, rfl⟩
  | userProcess =>
      rw [Tasks.writesText] at h
      cases hstarted : started s.sched with
      | none =>
          rw [hstarted] at h
          rw [← Option.some_inj.1 h]
          exact ⟨rfl, rfl⟩
      | some process =>
          rw [hstarted] at h
          obtain ⟨text, -, hs'⟩ := Option.bind_eq_some_iff.1 h
          rw [← Option.some_inj.1 hs']
          exact ⟨rfl, rfl⟩

/-- With every `cwd` ended, it is the path that must fit. -/
theorem CwdsEnd.fitsChdir_iff (h : CwdsEnd s) : FitsChdir s path ↔ FitsPath s path := by
  refine ⟨fun hfits => ⟨hfits.block, hfits.length⟩, fun hfits => ⟨hfits.block, hfits.length, ?_⟩⟩
  intro _ x hx
  obtain ⟨cwd, hcwd⟩ := h.ends x (h.concerned hx)
  exact exists_nul_iff.2 ⟨cwd, hcwd.string, Nat.le_of_lt hcwd.1⟩

theorem CwdsEnd.changed (h : CwdsEnd s) (hchanged : Changed s s' path) : CwdsEnd s' := by
  refine ⟨?_, fun x hx => ?_, ?_, ?_⟩
  · rw [hchanged.system]
    exact h.tracks
  · by_cases hconcerned : Concerned s x
    · exact ⟨path, hchanged.cwd x hconcerned⟩
    · rw [hchanged.others x hconcerned]
      exact h.ends x (hchanged.system ▸ hx)
  · rw [hchanged.heap, hchanged.root]
    exact h.tree
  · rw [hchanged.root]
    exact h.root

/-- What one step keeps. -/
theorem CwdsEnd.exec (h : CwdsEnd s) {e : Step} (he : s.Clean e) (hstep : s.exec e = some s') :
    CwdsEnd s' := by
  cases e with
  | sched e =>
      -- a new PCB gets its text from `user_process` or from its parent
      obtain ⟨T, hT⟩ := h.tracks
      obtain ⟨σ', hσ', hT'⟩ := hT.exec he.1
      obtain ⟨s₁, hs₁, hends⟩ := h.writesText he.2
      obtain ⟨hheap, hroot⟩ := writesText_tree hs₁
      rw [Tasks.exec, hσ', Option.bind_eq_bind, Option.bind_some, hs₁] at hstep
      rw [← Option.some_inj.1 hstep]
      refine ⟨⟨_, hT'⟩, ?_, ?_, ?_⟩
      · exact (Sched.pagesAfter_eq hσ').symm ▸ hends
      · exact hheap.symm ▸ hroot.symm ▸ h.tree
      · exact hroot.symm ▸ h.root
  | chdir subName path =>
      obtain ⟨-, hnul, hfits⟩ := he
      obtain ⟨⟨r, s₁⟩, hcall, hs₁⟩ := Option.map_eq_some_iff.1 hstep
      have hs' : s₁ = s' := hs₁
      subst hs'
      have hchdir := (changesDirectory_iff h.tree h.root hnul subName).2 (h.fitsChdir_iff.2 hfits)
      by_cases hdir : NamesDirectory s path
      · obtain ⟨s₂, hcall₂, hchanged⟩ := hchdir.1 hdir
        rw [hcall] at hcall₂
        obtain ⟨-, rfl⟩ := Prod.mk.inj (Option.some_inj.1 hcall₂)
        exact h.changed hchanged
      · have hcall₂ := hchdir.2 hdir
        rw [hcall] at hcall₂
        obtain ⟨-, rfl⟩ := Prod.mk.inj (Option.some_inj.1 hcall₂)
        exact h
  | execvpe name =>
      -- the name behind the text is replaced, not the text
      rw [← Option.some_inj.1 hstep]
      obtain ⟨cwd, hcwd⟩ := h.ends _ h.current
      have hcwd' : CwdIs (fun i => if i < 25 then s.text s.sched.currentthread i else name i)
          cwd := hcwd.congr fun i hi => if_pos hi
      exact ⟨h.tracks, (EndsIn.withText h.ends hcwd').mono (List.subset_cons_self _ _), h.tree,
        h.root⟩
  | files heap root =>
      rw [← Option.some_inj.1 hstep]
      exact ⟨h.tracks, h.ends, he.1, he.2⟩

theorem boot_cwdsEnd (memory : PcbRef → PCB) {page : PcbRef} (hpage : page < Sched.maxPcbs)
    {texts : PcbRef → Bytes.Memory} {heap : Heap} {root : Tnode} (htree : FileTree heap root)
    (hroot : root.name = rootName) : CwdsEnd (Tasks.boot memory page texts heap root) := by
  refine ⟨⟨_, Sched.boot_tracks memory hpage⟩, fun x hx => ⟨[], ?_⟩, htree, hroot⟩
  have hxpage : x = page := List.mem_singleton.1 hx
  have hzero : (Tasks.boot memory page texts heap root).text x = fun _ => 0 := by
    rw [hxpage]
    exact Function.update_self ..
  rw [hzero]
  exact cwdIs_zero

section Runs

variable {memory : PcbRef → PCB} {page : PcbRef} {texts : PcbRef → Bytes.Memory} {heap : Heap}
  {root : Tnode} {es : List Step}

/-- Along a run of short paths no `cwd` runs into the name behind it. -/
theorem cwds_end (hpage : page < Sched.maxPcbs) (htree : FileTree heap root)
    (hroot : root.name = rootName)
    (hrun : Run Tasks.exec Tasks.Clean (Tasks.boot memory page texts heap root) es s) : CwdsEnd s :=
  hrun.invariant CwdsEnd (boot_cwdsEnd memory hpage htree hroot)
    fun _ _ _ h he hstep => h.exec he hstep

/-- In every state of such a run, `sys_chdir` does what it is for with just the paths there is room
for, and `sys_getcwd` with every buffer but one that the terminator does not fit in. -/
theorem working_directory_iff (hpage : page < Sched.maxPcbs) (htree : FileTree heap root)
    (hroot : root.name = rootName)
    (hrun : Run Tasks.exec Tasks.Clean (Tasks.boot memory page texts heap root) es s) :
    (∀ subName path, (0 : UInt8) ∉ path →
      (ChangesDirectory s path (s.sysChdir subName path) ↔ FitsPath s path)) ∧
    ∃ cwd, CwdIs (s.text s.sched.currentthread) cwd ∧
      ∀ buf, StaysInside buf (s.sysGetcwd buf) ↔ buf.size ≠ cwd.length := by
  have hends := cwds_end hpage htree hroot hrun
  refine ⟨fun subName path hnul => ?_, ?_⟩
  · rw [changesDirectory_iff hends.tree hends.root hnul subName]
    exact hends.fitsChdir_iff
  · obtain ⟨cwd, hcwd⟩ := hends.ends _ hends.current
    exact ⟨cwd, hcwd, staysInside_iff hcwd⟩

end Runs

/-! ## A long path -/

/-- In the root `rootfs/`, in it `aaaaaaaa/`, and in that `bbbbbbb/`. -/
def nestedTree : Heap where
  inodes := fun x =>
    match x with
    | 0 => ⟨FS_MOUNTPOINT, 0, 0, [⟨rootfsName, 0, 1⟩], [], 0, false⟩
    | 1 => ⟨FS_DIRECTORY, 0, 0, [⟨List.replicate 8 97 ++ [slash], 0, 2⟩], [], 0, false⟩
    | 2 => ⟨FS_DIRECTORY, 0, 0, [⟨List.replicate 7 98 ++ [slash], 0, 3⟩], [], 0, false⟩
    | _ => ⟨FS_DIRECTORY, 0, 0, [], [], 0, false⟩
  stale := fun _ => 0

def nestedRoot : Tnode := ⟨rootName, 0, 0⟩

/-- `"/rootfs/aaaaaaaa/bbbbbbb/"`, of 25 characters. -/
def nestedPath : List UInt8 :=
  rootName ++ rootfsName ++ (List.replicate 8 97 ++ [slash]) ++ (List.replicate 7 98 ++ [slash])

theorem fileTree_nestedTree : FileTree nestedTree nestedRoot := by
  have hb : FileTree nestedTree ⟨List.replicate 7 98 ++ [slash], 0, 3⟩ :=
    .directory (Or.inl rfl) rfl (by decide) (by decide) (by decide) (List.forall_mem_nil _)
  have ha : FileTree nestedTree ⟨List.replicate 8 97 ++ [slash], 0, 2⟩ :=
    .directory (Or.inl rfl) rfl (by decide) (by decide) (by decide) (List.forall_mem_singleton.2 hb)
  have hrootfs : FileTree nestedTree ⟨rootfsName, 0, 1⟩ :=
    @FileTree.directory _ _ [114, 111, 111, 116, 102, 115] (Or.inl rfl) rfl (by decide) (by decide)
      (by decide) (List.forall_mem_singleton.2 ha)
  exact @FileTree.directory _ _ [] (Or.inr rfl) rfl (by decide) (by decide) (by decide)
    (List.forall_mem_singleton.2 hrootfs)

theorem nestedPath_leads : Leads nestedTree nestedRoot (components nestedPath).tail
    ⟨List.replicate 7 98 ++ [slash], 0, 3⟩ :=
  .step (c := ⟨rootfsName, 0, 1⟩) List.mem_cons_self
    (.step (c := ⟨List.replicate 8 97 ++ [slash], 0, 2⟩) List.mem_cons_self
      (.step (c := ⟨List.replicate 7 98 ++ [slash], 0, 3⟩) List.mem_cons_self .here))

/-- The events that make the first process the current one. -/
def firstSteps : List Step := [.sched (.createThread 1), .sched .schedule, .sched .userProcess]

/-- Only the processes move. -/
def Tasks.Moves (s : Tasks) : Step → Prop
  | .sched e => Enabled s.system e ∧ s.ThreadEnds e
  | _ => False

instance (s : Tasks) (e : Event) : Decidable (s.ThreadEnds e) :=
  match e with
  | .createThread _ => inferInstanceAs (Decidable (∃ i, i < 25 ∧ _))
  | .schedule | .userProcess | .fork _ | .waitpid _ | .exit | .kill _ _ _ =>
      inferInstanceAs (Decidable True)

instance (s : Tasks) (e : Step) : Decidable (s.Moves e) :=
  match e with
  | .sched _ => inferInstanceAs (Decidable (_ ∧ _))
  | .chdir _ _ | .execvpe _ | .files _ _ => inferInstanceAs (Decidable False)

theorem Tasks.Moves.clean {e : Step} (h : s.Moves e) : s.Clean e := by
  cases e with
  | sched e => exact h
  | chdir subName path | execvpe name | files heap root => exact absurd h id

theorem Tasks.Moves.tree {e : Step} (h : s.Moves e) (hstep : s.exec e = some s') :
    s'.heap = s.heap ∧ s'.filefsRoot = s.filefsRoot := by
  cases e with
  | sched e =>
      obtain ⟨σ', -, hwrites⟩ := Option.bind_eq_some_iff.1 hstep
      obtain ⟨s₁, hs₁, hs'⟩ := Option.bind_eq_some_iff.1 hwrites
      have htree := writesText_tree hs₁
      rw [← Option.some_inj.1 hs']
      exact htree
  | chdir subName path | execvpe name | files heap root => exact absurd h id

/-- The first process is where it starts, and a buffer for its path without the NUL is overrun. -/
theorem exists_first : ∃ s, Run Tasks.exec Tasks.Clean
      (Tasks.boot Sched.zeroFilled 0 (fun _ _ => 0) nestedTree nestedRoot) firstSteps s ∧
    s.heap = nestedTree ∧ s.filefsRoot = nestedRoot ∧ s.sysGetcwd ⟨12, fun _ => 0⟩ = none := by
  let end₀ := replay Tasks.exec Tasks.Moves firstSteps
    (Tasks.boot Sched.zeroFilled 0 (fun _ _ => 0) nestedTree nestedRoot)
  have hsome : end₀.isSome := by decide +kernel
  have hoverrun : ∀ s ∈ end₀, (s.sysGetcwd ⟨12, fun _ => 0⟩).isNone := by decide +kernel
  obtain ⟨s, hs⟩ := Option.isSome_iff_exists.1 hsome
  have hrun := run_of_replay hs
  have htree : s.heap = nestedTree ∧ s.filefsRoot = nestedRoot :=
    hrun.invariant (fun s => s.heap = nestedTree ∧ s.filefsRoot = nestedRoot) ⟨rfl, rfl⟩
      fun _ _ _ h he hstep => by rwa [(he.tree hstep).1, (he.tree hstep).2]
  exact ⟨s, hrun.mono fun _ _ h => h.clean, htree.1, htree.2,
    Option.isNone_iff_eq_none.1 (hoverrun s hs)⟩

/-- What the two calls do in the first process. -/
theorem working_directory_first : ∃ s, Run Tasks.exec Tasks.Clean
      (Tasks.boot Sched.zeroFilled 0 (fun _ _ => 0) nestedTree nestedRoot) firstSteps s ∧
    (∀ subName path, (0 : UInt8) ∉ path →
      (ChangesDirectory s path (s.sysChdir subName path) ↔ FitsPath s path)) ∧
    ∃ cwd, CwdIs (s.text s.sched.currentthread) cwd ∧
      ∀ buf, StaysInside buf (s.sysGetcwd buf) ↔ buf.size ≠ cwd.length := by
  obtain ⟨s, hrun, -⟩ := exists_first
  exact ⟨s, hrun, working_directory_iff (by decide) fileTree_nestedTree rfl hrun⟩

/-- In the first process, `sys_chdir` writes the path of a directory past the 25 bytes, and
`sys_getcwd` the terminator past a buffer of 12. -/
theorem not_working_directory : ∃ s, Run Tasks.exec Tasks.Clean
      (Tasks.boot Sched.zeroFilled 0 (fun _ _ => 0) nestedTree nestedRoot) firstSteps s ∧
    ¬ ChangesDirectory s nestedPath (s.sysChdir (fun _ => 0) nestedPath) ∧
    ¬ StaysInside ⟨12, fun _ => 0⟩ (s.sysGetcwd ⟨12, fun _ => 0⟩) := by
  obtain ⟨s, hrun, hheap, hroot, hnone⟩ := exists_first
  have htree : FileTree s.heap s.filefsRoot := by
    rw [hheap, hroot]
    exact fileTree_nestedTree
  refine ⟨s, hrun, fun h => ?_, fun h => ?_⟩
  · have hdir : NamesDirectory s nestedPath := by
      rw [NamesDirectory, hheap, hroot]
      exact ⟨rfl, _, nestedPath_leads, rfl⟩
    have hroot' : s.filefsRoot.name = rootName := congrArg Tnode.name hroot
    have hfits := (changesDirectory_iff htree hroot' (by decide) _).1 h
    exact absurd (hfits.length hdir) (by decide)
  · rw [hnone] at h
    rcases h with h | ⟨buf', h, -⟩ <;> cases h

end Files

end OswpKernel
