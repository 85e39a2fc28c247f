import OswpKernel.Files.Node
import OswpKernel.Scheduler.Wait
import Mathlib.Data.Nat.Digits.Defs

/-!
# Proc — the `/proc` directory and the process table

`add_to_proc_list` (`process.c`) enters every process under the decimal digits of its pid,
`sys_kill` (`syscall.c`) looks for the digits of the pid and moves the entries behind it down.  The
first has three characters for the name, the second puts the digits the other way round.
`proc_mirrors` follows the directory along every run in which the pids stay below 100 and the kills
hit processes that are alive and whose digits read the same both ways; `not_proc_mirrors` kills the
process 10.
-/

namespace OswpKernel

open Execution

namespace Files

open Sched (System Event Enabled maxPcbs)

/-! ## Names -/

/-- `while (intvalue != 0) { temp[i++] = intvalue % 10 + '0'; intvalue = intvalue / 10; }` in an
array of `room` characters. -/
def digitLoop : Nat → Int → Option (List UInt8)
  | 0, intvalue => if intvalue = 0 then some [] else none
  | room + 1, intvalue =>
      if intvalue = 0 then some []
      else (digitLoop room (intvalue.tdiv 10)).map
        (UInt8.ofNat (intvalue.tmod 10 + 48).toNat :: ·)

/-- `name[i] = '\0'` behind the characters, in an array of `room` characters. -/
def terminated (room : Nat) (name : List UInt8) : Option (List UInt8) :=
  if name.length < room then some name else none

/-! ## The directory -/

/-- `add_to_proc_list`, with an inode on the page `inode`. -/
def addToProcList (h : Heap) (procDirectory inode : InodeRef) (process : Nat) (pid : Pid) :
    Option Heap := do
  let temp ← digitLoop 3 pid.toInt
  let processName ← terminated 3 temp.reverse
  let (processNode, h) ← h.createTNode inode processName
  let h := h.setInode inode { h.inodes inode with linkToProcess := process }
  h.pushFile procDirectory processNode

/-- The end of `sys_kill`: the first entry of that name, or what is behind the last one, is
overwritten by the entries behind it.  The inode that is freed is one that no entry links to. -/
def removeFromProcList (h : Heap) (procDirectory : InodeRef) (pid : Pid) : Option Heap := do
  let digits ← digitLoop 10 pid.toInt
  let processName ← terminated 10 digits
  let entries := (h.inodes procDirectory).subFilesList
  let i := entries.findIdx fun entry => entry.name = processName
  if entries = [] ∨ Heap.maxEntries ≤ max i (entries.length - 1) then none
  else some (h.setInode procDirectory { h.inodes procDirectory with
    subFilesList := (entries.eraseIdx i).take (entries.length - 1) })

/-! ## The process table with its directory -/

/-- `live` are the processes created and not killed, in creation order. -/
structure ProcSystem where
  system : System
  heap : Heap
  procDirectory : InodeRef
  live : List PcbRef

/-- An event of the process table, and the page that a new inode is put in. -/
structure ProcEvent where
  event : Event
  inode : InodeRef

/-- The process `user_process` starts. -/
def started (s : Sched) : Option PcbRef :=
  (s.walk s.threadlist).find? fun x => (s.pcb x).state = .running

/-- `current` in `sys_kill`: the process that the call kills, if it is another one. -/
def killed (s : Sched) (pid : Pid) (sig : Int) (answer : Char) : Option PcbRef :=
  if sig = 9 ∧ ¬ (pid = 2 ∧ ¬ (answer = 'Y' ∨ answer = 'y')) ∧ pid ≠ s.currentPid then
    ((s.walk s.threadlist).find? fun x => (s.pcb x).pid = pid).or
      ((s.walk s.blockedlist).find? fun x => (s.pcb x).pid = pid)
  else none

namespace ProcSystem

variable (σ : ProcSystem)

def entries : List Tnode := (σ.heap.inodes σ.procDirectory).subFilesList

/-- What an event does to the directory. -/
def updateHeap (inode : InodeRef) : Event → Option Heap
  | .userProcess =>
      match started σ.system.sched with
      | none => some σ.heap
      | some process => addToProcList σ.heap σ.procDirectory inode process
          (σ.system.sched.userProcess.pcb process).pid
  | .fork page =>
      addToProcList σ.heap σ.procDirectory inode page (σ.system.sched.sysFork page).1
  | .kill pid sig answer =>
      match killed σ.system.sched pid sig answer with
      | none => some σ.heap
      | some _ => removeFromProcList σ.heap σ.procDirectory pid
  | _ => some σ.heap

def updateLive : Event → List PcbRef
  | .userProcess => σ.live ++ (started σ.system.sched).toList
  | .fork page => σ.live ++ [page]
  | .kill pid sig answer =>
      match killed σ.system.sched pid sig answer with
      | none => σ.live
      | some x => σ.live.erase x
  | _ => σ.live

def exec (e : ProcEvent) : Option ProcSystem := do
  let system ← σ.system.exec e.event
  let heap ← σ.updateHeap e.inode e.event
  return { σ with system := system, heap := heap, live := σ.updateLive e.event }

/-- `bump` hands out a page that is not in use. -/
def FreshInode (inode : InodeRef) : Prop :=
  inode ≠ σ.procDirectory ∧ ∀ entry ∈ σ.entries, entry.linkToInode ≠ inode

/-- The events that can happen. -/
def Possible (e : ProcEvent) : Prop := Enabled σ.system e.event ∧ σ.FreshInode e.inode

end ProcSystem

instance (σ : ProcSystem) (e : ProcEvent) : Decidable (σ.Possible e) :=
  inferInstanceAs (Decidable (Enabled σ.system e.event ∧ _ ≠ _ ∧ ∀ _ ∈ σ.entries, _ ≠ _))

/-- The decimal digits of a number, as characters. -/
def decimal (n : Nat) : List UInt8 :=
  (Nat.digits 10 n).reverse.map fun d => UInt8.ofNat (d + 48)

/-- The entries of the directory are the live processes, in order: name and process. -/
def Mirrors (σ : ProcSystem) : Prop :=
  σ.entries.map (fun entry => (entry.name, (σ.heap.inodes entry.linkToInode).linkToProcess)) =
    σ.live.map fun x => (decimal (σ.system.sched.pcb x).pid.toNat, x)

/-- A new pid is below 100, and a kill hits a live process whose digits read the same both ways. -/
def Clean (σ : ProcSystem) (e : ProcEvent) : Prop :=
  match e.event with
  | .fork _ => σ.system.sched.processcount.toNat + 1 < 100
  | .kill pid sig answer => ∀ x ∈ killed σ.system.sched pid sig answer,
      x ∈ σ.live ∧ (Nat.digits 10 pid.toNat).reverse = Nat.digits 10 pid.toNat
  | _ => True

instance (σ : ProcSystem) (e : ProcEvent) : Decidable (Clean σ e) :=
  match e with
  | ⟨.fork _, _⟩ => inferInstanceAs (Decidable (_ < _))
  | ⟨.kill pid sig answer, _⟩ => inferInstanceAs (Decidable
      (∀ x ∈ killed σ.system.sched pid sig answer, x ∈ σ.live ∧ _ = _))
  | ⟨.userProcess, _⟩ => inferInstanceAs (Decidable True)
  | ⟨.schedule, _⟩ => inferInstanceAs (Decidable True)
  | ⟨.createThread _, _⟩ => inferInstanceAs (Decidable True)
  | ⟨.waitpid _, _⟩ => inferInstanceAs (Decidable True)
  | ⟨.exit, _⟩ => inferInstanceAs (Decidable True)

variable {σ σ' : ProcSystem} {T : Table} {h : Heap} {dir inode : InodeRef} {pid : Pid}
  {process x : PcbRef} {e : ProcEvent}

/-! ## Digits -/

theorem digitLoop_eq {room n : Nat} (hroom : (Nat.digits 10 n).length ≤ room) :
    digitLoop room n = some ((Nat.digits 10 n).map fun d => UInt8.ofNat (d + 48)) := by
  induction room generalizing n with
  | zero =>
      have hn : n = 0 := by
        rw [Nat.le_zero, List.length_eq_zero_iff] at hroom
        exact Nat.digits_eq_nil_iff_eq_zero.1 hroom
      subst hn
      rfl
  | succ room ih =>
      by_cases hn : n = 0
      · subst hn
        rfl
      · have hcons := Nat.digits_eq_cons_digits_div (b := 10) (by decide) hn
        rw [hcons, List.length_cons] at hroom
        have hdiv : (n : Int).tdiv 10 = ((n / 10 : Nat) : Int) := rfl
        have hmod : ((n : Int).tmod 10 + 48).toNat = n % 10 + 48 := rfl
        rw [digitLoop, if_neg (by exact_mod_cast hn), hdiv, hmod,
          ih (Nat.le_of_succ_le_succ hroom), hcons, Option.map_some, List.map_cons]

theorem decimal_injective : Function.Injective decimal := by
  have hvalue : ∀ n, Nat.ofDigits 10 ((decimal n).reverse.map fun c => c.toNat - 48) = n := by
    intro n
    have hdigits : (decimal n).reverse.map (fun c => c.toNat - 48) = Nat.digits 10 n := by
      rw [decimal, ← List.map_reverse, List.reverse_reverse, List.map_map]
      refine (List.map_congr_left fun d hd => ?_).trans (List.map_id _)
      have hlt : d < 10 := Nat.digits_lt_base (by decide) hd
      have hchar : (UInt8.ofNat (d + 48)).toNat = d + 48 := by
        rw [UInt8.toNat_ofNat']
        omega
      rw [Function.comp_apply, hchar, Nat.add_sub_cancel, id]
    rw [hdigits, Nat.ofDigits_digits]
  intro m n hmn
  rw [← hvalue m, hmn, hvalue]

theorem length_digits_of_lt {n : Nat} (hn : n < 100) : (Nat.digits 10 n).length ≤ 2 := by
  have htable : ∀ n < 100, (Nat.digits 10 n).length ≤ 2 := by decide +kernel
  exact htable n hn

theorem toInt_of_lt (hpid : pid.toNat < 100) : pid.toInt = (pid.toNat : Int) := by
  rw [BitVec.toInt_eq_toNat_of_lt]
  omega

/-! ## The directory -/

/-- An entry with the process behind it. -/
def key (h : Heap) (entry : Tnode) : List UInt8 × PcbRef :=
  (entry.name, (h.inodes entry.linkToInode).linkToProcess)

theorem addToProcList_eq (process : PcbRef) (hpid : pid.toNat < 100) (hdir : inode ≠ dir)
    (hfresh : ∀ entry ∈ (h.inodes dir).subFilesList, entry.linkToInode ≠ inode)
    (hapart : ∀ entry ∈ (h.inodes dir).subFilesList, entry.linkToInode ≠ dir)
    (hroom : (h.inodes dir).subFilesList.length < Heap.maxEntries) :
    ∃ h' node, addToProcList h dir inode process pid = some h' ∧ node.linkToInode = inode ∧
      (h'.inodes dir).subFilesList = (h.inodes dir).subFilesList ++ [node] ∧
      (h'.inodes dir).subFilesList.map (key h') =
        (h.inodes dir).subFilesList.map (key h) ++ [(decimal pid.toNat, process)] := by
  have hlength : (Nat.digits 10 pid.toNat).length ≤ 2 := length_digits_of_lt hpid
  have hdecimal : (decimal pid.toNat).length ≤ 2 := by simpa [decimal] using hlength
  -- a pid below 100 leaves room for the terminator in `char pidStr[3]`
  have hdigits : digitLoop 3 pid.toInt =
      some ((Nat.digits 10 pid.toNat).map fun d => UInt8.ofNat (d + 48)) := by
    rw [toInt_of_lt hpid]
    exact digitLoop_eq (by omega)
  have hname : terminated 3 ((Nat.digits 10 pid.toNat).map fun d => UInt8.ofNat (d + 48)).reverse =
      some (decimal pid.toNat) := by
    rw [← List.map_reverse]
    exact if_pos (Nat.lt_succ_of_le hdecimal)
  let node : Tnode := { name := decimal pid.toNat, size := h.stale inode, linkToInode := inode }
  let h₁ := h.createSysNode inode
  have hnode : h.createTNode inode (decimal pid.toNat) = some (node, h₁) := if_pos (by omega)
  let h₂ := h₁.setInode inode { h₁.inodes inode with linkToProcess := process }
  have hother : ∀ y, y ≠ inode → h₂.inodes y = h.inodes y := fun y hy =>
    (Heap.setInode_of_ne _ _ hy).trans (Heap.setInode_of_ne _ _ hy)
  let h₃ := h₂.setInode dir
    { h₂.inodes dir with subFilesList := (h₂.inodes dir).subFilesList ++ [node] }
  have hpush : h₂.pushFile dir node = some h₃ := by
    refine if_pos ?_
    rw [hother dir hdir.symm]
    exact hroom
  have hfiles : (h₃.inodes dir).subFilesList = (h.inodes dir).subFilesList ++ [node] := by
    rw [Heap.setInode_self, hother dir hdir.symm]
  -- the writes are to the new inode and to the directory, neither of them behind an old entry
  have hkey : ∀ entry ∈ (h.inodes dir).subFilesList, key h₃ entry = key h entry := by
    intro entry hentry
    rw [key, key, Heap.setInode_of_ne _ _ (hapart entry hentry), hother _ (hfresh entry hentry)]
  have hnew : key h₃ node = (decimal pid.toNat, process) := by
    rw [key, Heap.setInode_of_ne _ _ hdir, Heap.setInode_self]
  refine ⟨h₃, node, ?_, rfl, hfiles, ?_⟩
  · exact Option.bind_eq_some_iff.2 ⟨_, hdigits, Option.bind_eq_some_iff.2 ⟨_, hname,
      Option.bind_eq_some_iff.2 ⟨_, hnode, hpush⟩⟩⟩
  · rw [hfiles, List.map_append, List.map_congr_left hkey, List.map_singleton, hnew]

/-- A name that reads the same both ways is found, and its entry removed. -/
theorem removeFromProcList_eq (hpid : pid.toNat < 100)
    (hboth : (Nat.digits 10 pid.toNat).reverse = Nat.digits 10 pid.toNat)
    (hapart : ∀ entry ∈ (h.inodes dir).subFilesList, entry.linkToInode ≠ dir)
    (hroom : (h.inodes dir).subFilesList.length ≤ Heap.maxEntries)
    (hfound : ∃ entry ∈ (h.inodes dir).subFilesList, entry.name = decimal pid.toNat) :
    ∃ h', removeFromProcList h dir pid = some h' ∧
      (h'.inodes dir).subFilesList = (h.inodes dir).subFilesList.eraseIdx
        ((h.inodes dir).subFilesList.findIdx fun entry => entry.name = decimal pid.toNat) ∧
      ∀ entry ∈ (h.inodes dir).subFilesList, key h' entry = key h entry := by
  have hlength : (Nat.digits 10 pid.toNat).length ≤ 2 := length_digits_of_lt hpid
  have hdigits : digitLoop 10 pid.toInt = some (decimal pid.toNat) := by
    rw [toInt_of_lt hpid, digitLoop_eq (by omega), decimal, hboth]
  have hname : terminated 10 (decimal pid.toNat) = some (decimal pid.toNat) := by
    refine if_pos ?_
    rw [decimal, List.length_map, List.length_reverse]
    omega
  generalize hentries : (h.inodes dir).subFilesList = entries at *
  have hindex : entries.findIdx (fun entry => entry.name = decimal pid.toNat) < entries.length := by
    refine List.findIdx_lt_length.2 ?_
    simpa using hfound
  -- the entries move down inside the table of the directory
  have hwrites : ¬ (entries = [] ∨ Heap.maxEntries ≤
      max (entries.findIdx fun entry => entry.name = decimal pid.toNat) (entries.length - 1)) := by
    rintro (rfl | hmax)
    · exact absurd hindex (Nat.not_lt_zero _)
    · omega
  refine ⟨h.setInode dir { h.inodes dir with
      subFilesList := (entries.eraseIdx
        (entries.findIdx fun entry => entry.name = decimal pid.toNat)).take (entries.length - 1) },
    ?_, ?_, ?_⟩
  · refine Option.bind_eq_some_iff.2 ⟨_, hdigits, Option.bind_eq_some_iff.2 ⟨_, hname, ?_⟩⟩
    rw [hentries]
    exact if_neg hwrites
  · rw [Heap.setInode_self]
    refine List.take_of_length_le ?_
    rw [List.length_eraseIdx_of_lt hindex]
  · intro entry hentry
    rw [key, key, Heap.setInode_of_ne _ _ (hapart entry hentry)]

/-! ## One event -/

structure Mirrored (σ : ProcSystem) (T : Table) : Prop where
  tracks : Sched.Tracks σ.system T
  keys : σ.entries.map (key σ.heap) = σ.live.map fun x => (decimal (T.proc x).pid.toNat, x)
  apart : ∀ entry ∈ σ.entries, entry.linkToInode ≠ σ.procDirectory
  created : ∀ x ∈ σ.live, x ∈ σ.system.pages ∧ (T.proc x).pid ≠ 0
  nodup : σ.live.Nodup
  length : σ.live.length ≤ T.count.toNat
  low : T.count.toNat < 100

theorem Mirrored.length_entries (h : Mirrored σ T) : σ.entries.length = σ.live.length := by
  have hlength := congrArg List.length h.keys
  rwa [List.length_map, List.length_map] at hlength

theorem Mirrored.count_ne_zero (h : Mirrored σ T) (hx : x ∈ σ.live) : T.count ≠ 0 := by
  intro hzero
  have hlength := h.length
  rw [hzero] at hlength
  exact absurd (List.length_pos_of_mem hx) (by simpa using hlength)

/-- The pids of the live processes are final. -/
theorem Mirrored.pid_eq (h : Mirrored σ T) {event : Event} (he : Enabled σ.system event)
    (hx : x ∈ σ.live) : ((Sched.tableStep T event).proc x).pid = (T.proc x).pid :=
  (Sched.tableStep_ids (h.tracks.enabled he) (h.created x hx).1 (h.count_ne_zero hx)).1

/-- An event that creates no process leaves the directory right. -/
theorem Mirrored.keep (h : Mirrored σ T) {event : Event} (he : Enabled σ.system event)
    (hcount : (Sched.tableStep T event).count = T.count) {system : System}
    (hexec : σ.system.exec event = some system)
    (htracks : Sched.Tracks system (Sched.tableStep T event)) :
    Mirrored { σ with system := system } (Sched.tableStep T event) where
  tracks := htracks
  keys := h.keys.trans (List.map_congr_left fun x hx => by rw [h.pid_eq he hx])
  apart := h.apart
  created x hx := by
    rw [h.pid_eq he hx]
    exact ⟨Sched.pages_of_exec hexec (h.created x hx).1, (h.created x hx).2⟩
  nodup := h.nodup
  length := hcount ▸ h.length
  low := hcount ▸ h.low

/-- A new process is entered behind the others. -/
theorem Mirrored.add (h : Mirrored σ T) {event : Event} (he : Enabled σ.system event)
    {system : System} (hexec : σ.system.exec event = some system)
    (htracks : Sched.Tracks system (Sched.tableStep T event)) (hfresh : σ.FreshInode inode)
    (hnew : process ∉ σ.live) (hpage : process ∈ system.pages)
    (hpid : pid = ((Sched.tableStep T event).proc process).pid) (hne : pid ≠ 0)
    (hcount : (Sched.tableStep T event).count.toNat = T.count.toNat + 1)
    (hle : pid.toNat ≤ (Sched.tableStep T event).count.toNat)
    (hlow : (Sched.tableStep T event).count.toNat < 100) :
    ∃ h', addToProcList σ.heap σ.procDirectory inode process pid = some h' ∧
      Mirrored { σ with system := system, heap := h', live := σ.live ++ [process] }
        (Sched.tableStep T event) := by
  have hroom : σ.entries.length < Heap.maxEntries := by
    have hlength := h.length
    rw [h.length_entries]
    exact (hlength.trans_lt h.low).trans (by decide)
  rcases addToProcList_eq process (hle.trans_lt hlow) hfresh.1 hfresh.2 h.apart hroom
    with ⟨h', node, hadd, hnode, hfiles, hkeys⟩
  refine ⟨h', hadd, htracks, ?_, ?_, ?_, ?_, ?_, hlow⟩
  · refine hkeys.trans ?_
    rw [List.map_append, List.map_singleton, ← hpid]
    refine congrArg (· ++ _) (h.keys.trans (List.map_congr_left fun x hx => ?_))
    rw [h.pid_eq he hx]
  · intro entry hentry
    have hentry' : entry ∈ (h'.inodes σ.procDirectory).subFilesList := hentry
    rw [hfiles] at hentry'
    rcases List.mem_append.1 hentry' with hold | hlast
    · exact h.apart entry hold
    · rw [List.mem_singleton.1 hlast, hnode]
      exact hfresh.1
  · intro x hx
    rcases List.mem_append.1 hx with hold | hlast
    · rw [h.pid_eq he hold]
      exact ⟨Sched.pages_of_exec hexec (h.created x hold).1, (h.created x hold).2⟩
    · rw [List.mem_singleton.1 hlast, ← hpid]
      exact ⟨hpage, hne⟩
  · exact List.nodup_append.2 ⟨h.nodup, List.nodup_singleton _, fun a ha b hb heq =>
      hnew (List.mem_singleton.1 hb ▸ heq ▸ ha)⟩
  · rw [List.length_append, List.length_singleton, hcount]
    exact Nat.succ_le_succ h.length

theorem findIdx_congr {α : Type*} {p q : α → Bool} {l : List α} (hpq : ∀ a ∈ l, p a = q a) :
    l.findIdx p = l.findIdx q := by
  induction l with
  | nil => rfl
  | cons a l ih =>
      rw [List.findIdx_cons, List.findIdx_cons, hpq a List.mem_cons_self,
        ih fun b hb => hpq b (List.mem_cons_of_mem _ hb)]

/-- The live processes have different names. -/
theorem Mirrored.findIdx_eq (h : Mirrored σ T) (hx : x ∈ σ.live) :
    σ.entries.findIdx (fun entry => entry.name = decimal (T.proc x).pid.toNat) =
      σ.live.idxOf x := by
  have hsame : ∀ y ∈ σ.live,
      decimal (T.proc y).pid.toNat = decimal (T.proc x).pid.toNat ↔ y = x := by
    intro y hy
    constructor
    · intro hname
      have hpid : (T.proc y).pid = (T.proc x).pid := BitVec.eq_of_toNat_eq (decimal_injective hname)
      exact h.tracks.valid.pid_inj y (h.created y hy).1 x (h.created x hx).1 hpid (h.created y hy).2
    · rintro rfl
      rfl
  calc σ.entries.findIdx (fun entry => entry.name = decimal (T.proc x).pid.toNat)
      = (σ.entries.map (key σ.heap)).findIdx
          (fun k => k.1 = decimal (T.proc x).pid.toNat) := by
        rw [List.findIdx_map]
        rfl
    _ = σ.live.findIdx (fun y => decimal (T.proc y).pid.toNat = decimal (T.proc x).pid.toNat) := by
        rw [h.keys, List.findIdx_map]
        rfl
    _ = σ.live.idxOf x := by
        refine findIdx_congr fun y hy => ?_
        rw [beq_eq_decide]
        exact decide_eq_decide.2 (hsame y hy)

/-- A killed process is taken out. -/
theorem Mirrored.remove (h : Mirrored σ T) (hx : x ∈ σ.live)
    (hboth : (Nat.digits 10 (T.proc x).pid.toNat).reverse = Nat.digits 10 (T.proc x).pid.toNat) :
    ∃ h', removeFromProcList σ.heap σ.procDirectory (T.proc x).pid = some h' ∧
      Mirrored { σ with heap := h', live := σ.live.erase x } T := by
  have hlow : (T.proc x).pid.toNat < 100 := by
    have hle := h.tracks.valid.pid_le x (h.created x hx).1
    exact (BitVec.le_def.1 hle).trans_lt h.low
  have hroom : σ.entries.length ≤ Heap.maxEntries := by
    have hlength := h.length
    rw [h.length_entries]
    exact ((hlength.trans_lt h.low).trans (by decide)).le
  -- the entry of `x` is at the place of `x` among the live processes
  have hfound : ∃ entry ∈ σ.entries, entry.name = decimal (T.proc x).pid.toNat := by
    have hmem : (decimal (T.proc x).pid.toNat, x) ∈ σ.entries.map (key σ.heap) := by
      rw [h.keys]
      exact List.mem_map.2 ⟨x, hx, rfl⟩
    rcases List.mem_map.1 hmem with ⟨entry, hentry, heq⟩
    exact ⟨entry, hentry, congrArg Prod.fst heq⟩
  rcases removeFromProcList_eq hlow hboth h.apart hroom hfound with ⟨h', hremove, hfiles, hkeys⟩
  have hlist : ProcSystem.entries { σ with heap := h', live := σ.live.erase x } =
      σ.entries.eraseIdx (σ.live.idxOf x) := by
    rw [← h.findIdx_eq hx]
    exact hfiles
  refine ⟨h', hremove, h.tracks, ?_, ?_, ?_, h.nodup.erase x, ?_, h.low⟩
  · rw [hlist]
    calc (σ.entries.eraseIdx (σ.live.idxOf x)).map (key h')
        = (σ.entries.eraseIdx (σ.live.idxOf x)).map (key σ.heap) :=
          List.map_congr_left fun entry hentry => hkeys entry (List.mem_of_mem_eraseIdx hentry)
      _ = (σ.entries.map (key σ.heap)).eraseIdx (σ.live.idxOf x) := (List.eraseIdx_map _ _ _).symm
      _ = (σ.live.eraseIdx (σ.live.idxOf x)).map fun y => (decimal (T.proc y).pid.toNat, y) := by
          rw [h.keys, List.eraseIdx_map]
      _ = (σ.live.erase x).map fun y => (decimal (T.proc y).pid.toNat, y) := by
          rw [List.erase_eq_eraseIdx_of_idxOf rfl]
  · intro entry hentry
    rw [hlist] at hentry
    exact h.apart entry (List.mem_of_mem_eraseIdx hentry)
  · exact fun y hy => h.created y (List.mem_of_mem_erase hy)
  · exact (List.length_erase_le).trans h.length

/-- Pids are counted when a process is created. -/
theorem tableStep_count (T : Table) (event : Event) (hfork : ∀ page, event ≠ .fork page)
    (huser : event ≠ .userProcess) : (Sched.tableStep T event).count = T.count := by
  have hexit : T.exit.count = T.count := by
    rcases Table.exit_cases T with ⟨heq, -⟩ | ⟨-, -, y, -, -, heq⟩ <;> simp [heq]
  cases event with
  | schedule => rfl
  | createThread page => rfl
  | waitpid pid =>
      change (T.enterWait pid).count = T.count
      rw [Table.enterWait]
      split_ifs <;> rfl
  | exit => exact hexit
  | kill pid sig answer =>
      change (T.kill pid sig answer).count = T.count
      rcases Sched.kill_cases T pid sig answer with heq | heq | ⟨heq, -⟩
      · rw [heq]
      · rw [heq, hexit]
      · rw [heq]
        rcases Table.killOther_cases T pid with heq' | ⟨y, -, -, -, heq'⟩ | ⟨y, -, -, heq'⟩ <;>
          rw [heq']
  | userProcess => exact absurd rfl huser
  | fork page => exact absurd rfl (hfork page)

theorem killed_eq (hσ : Sched.Tracks σ.system T) {sig : Int} {answer : Char}
    (hx : killed σ.system.sched pid sig answer = some x) : (T.proc x).pid = pid := by
  rw [killed] at hx
  split_ifs at hx with hother
  rw [← hσ.represents.pid]
  rcases Option.or_eq_some_iff.1 hx with hfind | ⟨-, hfind⟩
  · simpa using List.find?_some hfind
  · simpa using List.find?_some hfind

theorem started_eq (hσ : Sched.Tracks σ.system T) (hspin : σ.system.spinning = false) :
    started σ.system.sched = some T.current := by
  have hvalid : T.Valid σ.system.pages false := hspin ▸ hσ.valid
  rw [started, hσ.represents.walk_threads hvalid.length_le, ← Sched.find_running hvalid]
  congr 1
  funext x
  exact decide_eq_decide.2 (by rw [hσ.represents.state])

theorem exec_eq {system : System} {heap : Heap} (hsystem : σ.system.exec e.event = some system)
    (hheap : σ.updateHeap e.inode e.event = some heap) : σ.exec e =
      some { σ with system := system, heap := heap, live := σ.updateLive e.event } :=
  Option.bind_eq_some_iff.2 ⟨_, hsystem, Option.bind_eq_some_iff.2 ⟨_, hheap, rfl⟩⟩

/-- A possible event that is clean completes and leaves the directory right. -/
theorem Mirrored.exec (h : Mirrored σ T) (he : σ.Possible e) (hclean : Clean σ e) :
    ∃ σ', σ.exec e = some σ' ∧ Mirrored σ' (Sched.tableStep T e.event) := by
  rcases e with ⟨event, inode⟩
  rcases he with ⟨henabled, hfresh⟩
  rcases h.tracks.exec henabled with ⟨system, hsystem, htracks⟩
  cases event with
  | schedule => exact ⟨_, exec_eq hsystem rfl, h.keep henabled rfl hsystem htracks⟩
  | createThread page => exact ⟨_, exec_eq hsystem rfl, h.keep henabled rfl hsystem htracks⟩
  | waitpid pid =>
      have hcount := tableStep_count T (.waitpid pid) (by simp) (by simp)
      exact ⟨_, exec_eq hsystem rfl, h.keep henabled hcount hsystem htracks⟩
  | exit =>
      have hcount := tableStep_count T .exit (by simp) (by simp)
      exact ⟨_, exec_eq hsystem rfl, h.keep henabled hcount hsystem htracks⟩
  | userProcess =>
      -- no process was created before this one, so the directory is empty
      have hcount : T.count = 0 := (h.tracks.enabled henabled).2.1
      have hlive : σ.live = [] := by
        have hlength := h.length
        rw [hcount] at hlength
        exact List.length_eq_zero_iff.1 (Nat.le_zero.1 hlength)
      have hstarted : started σ.system.sched = some T.current := started_eq h.tracks henabled.1
      have hvalid : T.Valid σ.system.pages false := henabled.1 ▸ h.tracks.valid
      have hpid : (σ.system.sched.userProcess.pcb T.current).pid =
          (T.userProcess.proc T.current).pid :=
          (h.tracks.represents.userProcess hvalid).pid T.current
      -- the first process has pid 1
      have hone : (T.userProcess.proc T.current).pid = 1 := by
        simp [Table.userProcess, Table.modify]
      have hpage : T.current ∈ system.pages := Sched.pages_of_exec hsystem
        (hvalid.listed _ (List.mem_append_left _ hvalid.current))
      rcases h.add henabled hsystem htracks hfresh (by simp [hlive]) hpage rfl
        (by rw [Sched.tableStep, hone]; decide) (by rw [hcount]; rfl)
        (by rw [Sched.tableStep, hone]; exact Nat.le_refl 1) (show (1 : Nat) < 100 by decide) with
        ⟨h', hadd, hmirrored⟩
      have hheap : σ.updateHeap inode .userProcess = some h' := by
        rw [ProcSystem.updateHeap, hstarted]
        simp only [hpid]
        exact hadd
      have hupdate : σ.updateLive .userProcess = σ.live ++ [T.current] := by
        rw [ProcSystem.updateLive, hstarted]
        rfl
      refine ⟨_, exec_eq hsystem hheap, ?_⟩
      rw [hupdate]
      exact hmirrored
  | fork page =>
      have henabled' : _ ∧ _ ∧ _ := henabled
      rcases henabled' with ⟨hspin, hlow, hpage⟩
      have hvalid : T.Valid σ.system.pages false := hspin ▸ h.tracks.valid
      have hpid : (σ.system.sched.sysFork page).1 = ((T.fork page).proc page).pid := by
        rw [(h.tracks.represents.sysFork hvalid.nodup (hvalid.fresh hpage) hvalid.current).2]
        simp [Table.fork, Table.modify]
      have hcount : (T.fork page).count.toNat = T.count.toNat + 1 := hvalid.toNat_count_succ
      have hnew : ((T.fork page).proc page).pid = (T.fork page).count := by
        simp [Table.fork, Table.modify]
      -- a pid below 100 has at most two digits, which the name has room for
      have hbound : (T.fork page).count.toNat < 100 := by
        rw [hcount, ← h.tracks.represents.count]
        exact hclean
      have hsystem' := hsystem
      cases hsystem'
      rcases h.add henabled hsystem htracks hfresh
        (fun hmem => hpage (h.created page hmem).1) List.mem_cons_self hpid
        (by rw [hpid, hnew]; exact hvalid.count_succ_ne_zero) hcount
        (by rw [hpid, hnew]; exact Nat.le_refl _) hbound with ⟨h', hadd, hmirrored⟩
      exact ⟨_, exec_eq hsystem hadd, hmirrored⟩
  | kill pid sig answer =>
      have hcount := tableStep_count T (.kill pid sig answer) (by simp) (by simp)
      have hkeep := h.keep henabled hcount hsystem htracks
      cases hkilled : killed σ.system.sched pid sig answer with
      | none =>
          have hheap : σ.updateHeap inode (.kill pid sig answer) = some σ.heap := by
            rw [ProcSystem.updateHeap, hkilled]
          have hupdate : σ.updateLive (.kill pid sig answer) = σ.live := by
            rw [ProcSystem.updateLive, hkilled]
          refine ⟨_, exec_eq hsystem hheap, ?_⟩
          rw [hupdate]
          exact hkeep
      | some x =>
          -- the entry is found when the killed process is in the directory and its pid and the last
          -- one fit
          rcases hclean x hkilled with ⟨hx, hboth⟩
          have hpid : ((Sched.tableStep T (.kill pid sig answer)).proc x).pid = pid :=
            (h.pid_eq henabled hx).trans (killed_eq h.tracks hkilled)
          rcases hkeep.remove hx (by rw [hpid]; exact hboth) with ⟨h', hremove, hmirrored⟩
          have hheap : σ.updateHeap inode (.kill pid sig answer) = some h' := by
            rw [ProcSystem.updateHeap, hkilled]
            exact hpid ▸ hremove
          have hupdate : σ.updateLive (.kill pid sig answer) = σ.live.erase x := by
            rw [ProcSystem.updateLive, hkilled]
          refine ⟨_, exec_eq hsystem hheap, ?_⟩
          rw [hupdate]
          exact hmirrored

/-! ## Runs -/

/-- The system after `initialise_file_system`, with the main thread alone. -/
def ProcSystem.boot (memory : PcbRef → PCB) (page : PcbRef) (heap : Heap) (dir : InodeRef) :
    ProcSystem where
  system := System.boot memory page
  heap := heap
  procDirectory := dir
  live := []

theorem boot_mirrored (memory : PcbRef → PCB) {page : PcbRef} (hpage : page < maxPcbs)
    (hempty : (h.inodes dir).subFilesList = []) :
    Mirrored (ProcSystem.boot memory page h dir) (Sched.bootTable memory page) where
  tracks := Sched.boot_tracks memory hpage
  keys := by
    rw [ProcSystem.entries, ProcSystem.boot, hempty]
    rfl
  apart := by
    rw [ProcSystem.entries, ProcSystem.boot, hempty]
    exact fun entry hentry => absurd hentry List.not_mem_nil
  created := fun x hx => absurd hx List.not_mem_nil
  nodup := List.nodup_nil
  length := Nat.zero_le _
  low := show (0 : Nat) < 100 by decide

theorem Mirrored.mirrors (h : Mirrored σ T) : Mirrors σ :=
  h.keys.trans (List.map_congr_left fun x _ => by rw [h.tracks.represents.pid])

/-- Along a run of clean events the directory mirrors the processes, and every clean event that is
possible completes without a write outside the name buffers and the page of the entries. -/
theorem proc_mirrors {memory : PcbRef → PCB} {page : PcbRef} (hpage : page < maxPcbs)
    (hempty : (h.inodes dir).subFilesList = []) {es : List ProcEvent}
    (hrun : Run ProcSystem.exec (fun σ e => σ.Possible e ∧ Clean σ e)
      (ProcSystem.boot memory page h dir) es σ) :
    Mirrors σ ∧ ∀ e, σ.Possible e → Clean σ e → ∃ σ', σ.exec e = some σ' := by
  have hmirrored : ∃ T, Mirrored σ T := by
    refine hrun.invariant (fun σ => ∃ T, Mirrored σ T) ⟨_, boot_mirrored memory hpage hempty⟩ ?_
    rintro σ e σ' ⟨T, hT⟩ ⟨he, hclean⟩ hstep
    rcases hT.exec he hclean with ⟨σ'', hσ'', hT'⟩
    rw [hstep] at hσ''
    cases hσ''
    exact ⟨_, hT'⟩
  rcases hmirrored with ⟨T, hT⟩
  refine ⟨hT.mirrors, fun e he hclean => ?_⟩
  rcases hT.exec he hclean with ⟨σ', hσ', -⟩
  exact ⟨σ', hσ'⟩

/-- Empty pages. -/
def blankHeap : Heap where
  inodes := fun _ => { flags := 0, startingPosition := 0, offset := 0, subDirectoryList := []
                       subFilesList := [], linkToProcess := 0, read := false }
  stale := fun _ => 0

/-- A run up to the first user process, which then forks. -/
def forking (n : Nat) : List ProcEvent :=
  [⟨.createThread 1, 1⟩, ⟨.schedule, 1⟩, ⟨.userProcess, 1⟩] ++
    (List.range n).map fun i => ⟨.fork (i + 2), i + 2⟩

theorem proc_mirrors_kill :
    ∃ σ, Run ProcSystem.exec (fun σ e => σ.Possible e ∧ Clean σ e)
        (ProcSystem.boot Sched.zeroFilled 0 blankHeap 0)
        (forking 3 ++ [⟨.kill 3 9 'n', 9⟩]) σ ∧ σ.live = [1, 2, 4] ∧ Mirrors σ := by
  have hreplay : (replay ProcSystem.exec (fun σ e => σ.Possible e ∧ Clean σ e)
      (forking 3 ++ [⟨.kill 3 9 'n', 9⟩]) (ProcSystem.boot Sched.zeroFilled 0 blankHeap 0)).map
      (fun σ => σ.live) = some [1, 2, 4] := by decide +kernel
  rcases Option.map_eq_some_iff.1 hreplay with ⟨σ, hσ, hlive⟩
  have hrun := run_of_replay hσ
  exact ⟨σ, hrun, hlive, (proc_mirrors (by decide) rfl hrun).1⟩

/-- The process 11 is forked after 10; the kill of 10 looks for the name `01` and drops 11. -/
theorem not_proc_mirrors :
    ¬ ∀ (page : PcbRef) (h : Heap) (dir : InodeRef) (es : List ProcEvent) (σ : ProcSystem),
      page < maxPcbs → (h.inodes dir).subFilesList = [] →
      Run ProcSystem.exec (fun σ e => σ.Possible e)
        (ProcSystem.boot Sched.zeroFilled page h dir) es σ →
      Mirrors σ := by
  intro h
  have hreplay : (replay ProcSystem.exec (fun σ e => σ.Possible e)
      (forking 10 ++ [⟨.kill 10 9 'n', 20⟩]) (ProcSystem.boot Sched.zeroFilled 0 blankHeap 0)).map
      (fun σ => (σ.live, σ.entries.map fun entry =>
        (σ.heap.inodes entry.linkToInode).linkToProcess)) = some
        ([1, 2, 3, 4, 5, 6, 7, 8, 9, 11], [1, 2, 3, 4, 5, 6, 7, 8, 9, 10]) := by decide +kernel
  rcases Option.map_eq_some_iff.1 hreplay with ⟨σ, hσ, hlists⟩
  have hmirrors := h 0 blankHeap 0 _ σ (by decide) rfl (run_of_replay hσ)
  have hprocesses : (σ.entries.map fun entry =>
      (σ.heap.inodes entry.linkToInode).linkToProcess) = σ.live := by
    simpa [Function.comp_def] using congrArg (List.map Prod.snd) hmirrors
  rw [(Prod.mk.inj hlists).1, (Prod.mk.inj hlists).2] at hprocesses
  exact absurd hprocesses (by decide)

end Files

end OswpKernel
