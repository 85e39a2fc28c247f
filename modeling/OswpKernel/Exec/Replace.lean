import OswpKernel.Exec.Areas
import OswpKernel.Files.FindFile
import Mathlib.Tactic.IntervalCases

/-!
# Replace — tearing the old image down (`clear_vmas`, `sys_execvpe`)

`clear_vmas` frees each area as it walks the list, and then the head of the list once more, before
the `mm_struct`: `clearVmas_freePages` lists what comes back to the free pages.  `sys_execvpe` calls
it before it looks the file up, and has no way to report that the file is not there:
`sysExecvpe_passes` says which state every call goes through.
-/

namespace OswpKernel

namespace Exec

open Paging Chain

namespace Tasks

variable {s s' s₁ : Tasks} {p : Option Word} {x : Word} {xs : List Word}

/-- The free pages, first out first. -/
def freePages (s : Tasks) : List Word := s.machine.ring.contents

/-- What the loop of `clear_vmas` passes to `kfree` for an area. -/
def pagesOf (s : Tasks) (x : Word) : List Word :=
  (if (s.area x).vmaType = OTHER then [Allocator.physAddress ((s.area x).vmaFile.getD 0)]
    else []) ++
    [Allocator.physAddress x]

/-- The pages of the process's areas, of their file descriptions and of its `mm_struct`. -/
def imagePages (s : Tasks) (xs : List Word) : List Word :=
  xs.flatMap s.pagesOf ++ [Allocator.physAddress (s.task s.currentthread).mm]

/-- The current process's areas are `xs`, and everything that describes them is on pages of its
own. -/
structure HasAreas (s : Tasks) (xs : List Word) : Prop where
  chain : Seg s.nextArea (s.mmOf s.currentthread).listOfVmas xs none
  files : ∀ x ∈ xs, (s.area x).vmaType = OTHER → (s.area x).vmaFile ≠ none
  distinct : (s.imagePages xs).Nodup

/-- Between the two states each page of the image was freed once. -/
def FreesOnce (s s' : Tasks) (xs : List Word) : Prop :=
  ∃ freed, s'.freePages = s.freePages ++ freed ∧ ∀ page ∈ s.imagePages xs, freed.count page = 1

/-! ## `kfree` -/

/-- `kfree` changes the machine only, and the page comes last among the free ones. -/
theorem kfree_spec (h : s.kfree p = some s') :
    s' = { s with machine := s'.machine } ∧
      s'.freePages = s.freePages ++ [Allocator.physAddress (p.getD 0)] := by
  rw [kfree] at h
  obtain ⟨machine, hfree, heq⟩ := Option.bind_eq_some_iff.1 h
  rw [← Option.some.inj heq]
  exact ⟨rfl, Machine.kfree_contents hfree⟩

/-! ## `clear_vmas` -/

theorem freeFile_spec (h : s.freeFile x = some s') :
    s' = { s with machine := s'.machine } ∧
      s'.freePages ++ [Allocator.physAddress x] = s.freePages ++ s.pagesOf x := by
  rw [freeFile] at h
  by_cases hother : (s.area x).vmaType = OTHER
  · rw [if_pos hother] at h
    obtain ⟨hsame, hpages⟩ := kfree_spec h
    refine ⟨hsame, ?_⟩
    rw [hpages, pagesOf, if_pos hother, List.append_assoc]
  · rw [if_neg hother] at h
    rw [← Option.some.inj h, pagesOf, if_neg hother]
    exact ⟨rfl, rfl⟩

/-- The loop frees the file description, if there is one, and then the area, for one area after the
other. -/
theorem freeAreas_spec {fuel : ℕ} (hlist : Seg s.nextArea p xs none)
    (hrun : freeAreas fuel p s = some s') :
    s' = { s with machine := s'.machine } ∧
      s'.freePages = s.freePages ++ xs.flatMap s.pagesOf := by
  induction xs generalizing p s fuel with
  | nil =>
      cases hlist
      cases fuel with
      | zero => cases hrun
      | succ fuel =>
          cases hrun
          exact ⟨rfl, (List.append_nil _).symm⟩
  | cons x xs ih =>
      obtain ⟨rfl, hrest⟩ := hlist
      cases fuel with
      | zero => cases hrun
      | succ fuel =>
          rw [freeAreas] at hrun
          obtain ⟨s₁, hfile, hrun⟩ := Option.bind_eq_some_iff.1 hrun
          obtain ⟨s₂, harea, hrun⟩ := Option.bind_eq_some_iff.1 hrun
          obtain ⟨hsame₁, hpages₁⟩ := freeFile_spec hfile
          obtain ⟨hsame₂, hpages₂⟩ := kfree_spec harea
          have hsame : s₂ = { s with machine := s₂.machine } := by
            rw [hsame₂, hsame₁]
          -- only the machine has changed, so the rest of the list is as it was
          have hnext : s₁.nextArea x = s.nextArea x := by rw [hsame₁]; rfl
          have hchain : Seg s₂.nextArea (s.nextArea x) xs none := by
            rw [hsame]
            exact hrest
          rw [hnext] at hrun
          obtain ⟨hsame', hpages'⟩ := ih hchain hrun
          refine ⟨by rw [hsame', hsame], ?_⟩
          have hof : s₂.pagesOf = s.pagesOf := by rw [hsame]; rfl
          calc
            s'.freePages = s₂.freePages ++ xs.flatMap s.pagesOf := by rw [hpages', hof]
            _ = s₁.freePages ++ [Allocator.physAddress x] ++ xs.flatMap s.pagesOf := by
                  rw [hpages₂, Option.getD_some]
            _ = s.freePages ++ (x :: xs).flatMap s.pagesOf := by
                  rw [hpages₁, List.flatMap_cons, List.append_assoc]

/-- What `clear_vmas` frees: the areas with their files, the head of the list again, and the
`mm_struct`. -/
theorem clearVmas_freePages
    (hlist : Seg s.nextArea (s.mmOf s.currentthread).listOfVmas xs none)
    (hrun : s.clearVmas = some s') :
    s' = { s with machine := s'.machine } ∧
      s'.freePages = s.freePages ++ (xs.flatMap s.pagesOf ++
        [Allocator.physAddress ((s.mmOf s.currentthread).listOfVmas.getD 0),
          Allocator.physAddress (s.task s.currentthread).mm]) := by
  rw [clearVmas] at hrun
  obtain ⟨s₁, hloop, hrun⟩ := Option.bind_eq_some_iff.1 hrun
  obtain ⟨s₂, hhead, hmm⟩ := Option.bind_eq_some_iff.1 hrun
  obtain ⟨hsame₁, hpages₁⟩ := freeAreas_spec hlist hloop
  obtain ⟨hsame₂, hpages₂⟩ := kfree_spec hhead
  obtain ⟨hsame₃, hpages₃⟩ := kfree_spec hmm
  have hlistOf : (s₁.mm (s.task s.currentthread).mm).listOfVmas =
      (s.mmOf s.currentthread).listOfVmas := by rw [hsame₁]; rfl
  refine ⟨by rw [hsame₃, hsame₂, hsame₁], ?_⟩
  rw [hpages₃, hpages₂, hpages₁, hlistOf, Option.getD_some]
  simp only [List.append_assoc, List.cons_append, List.nil_append]

/-- The head of the list is passed to `kfree` twice. -/
theorem two_le_count_head {x : Word} (hlist : Seg s.nextArea (s.mmOf s.currentthread).listOfVmas
    (x :: xs) none) :
    2 ≤ ((x :: xs).flatMap s.pagesOf ++
      [Allocator.physAddress ((s.mmOf s.currentthread).listOfVmas.getD 0),
        Allocator.physAddress (s.task s.currentthread).mm]).count (Allocator.physAddress x) := by
  have hloop : 1 ≤ ((x :: xs).flatMap s.pagesOf).count (Allocator.physAddress x) := by
    apply List.one_le_count_iff.2
    refine List.mem_flatMap.2 ⟨x, List.mem_cons_self, ?_⟩
    exact List.mem_append_right _ List.mem_cons_self
  have hhead : (s.mmOf s.currentthread).listOfVmas = some x := hlist.start_of_cons
  rw [List.count_append, hhead, Option.getD_some, List.count_cons_self]
  omega

/-- For no list of areas does `clear_vmas` free each page once, or leave a free list without
repetitions. -/
theorem not_clearVmas_freesOnce (h : s.HasAreas xs) (hne : xs ≠ []) :
    ¬ ∃ s', s.clearVmas = some s' ∧ (s.FreesOnce s' xs ∨ s'.freePages.Nodup) := by
  rintro ⟨s', hrun, honce⟩
  obtain ⟨x, rest, rfl⟩ := List.exists_cons_of_ne_nil hne
  obtain ⟨-, hpages⟩ := clearVmas_freePages h.chain hrun
  have htwice := two_le_count_head h.chain
  rcases honce with ⟨freed, hfreed, hcount⟩ | hnodup
  · have heq := List.append_cancel_left (hpages.symm.trans hfreed)
    have hmem : Allocator.physAddress x ∈ s.imagePages (x :: rest) := by
      refine List.mem_append_left _ (List.mem_flatMap.2 ⟨x, List.mem_cons_self, ?_⟩)
      exact List.mem_append_right _ List.mem_cons_self
    rw [heq, hcount _ hmem] at htwice
    exact absurd htwice (by decide)
  · rw [hpages] at hnodup
    have hle := List.nodup_iff_count_le_one.1 (List.nodup_append.1 hnodup).2.1
      (Allocator.physAddress x)
    omega

/-- One area with a file description, and its `mm_struct`, on three pages; two pages are free. -/
def sampleImage : Tasks where
  machine :=
    { mem := fun _ _ => 0
      ring := ⟨[0x400000, 0x401000, 0, 0, 0, 0, 0, 0], 2, by decide⟩
      owner := fun _ => none
      pml4t := 2
      current := 2 }
  area := fun _ => ⟨0x400000, 0x400fff, 5, OTHER, none, none, some 0xffffffff80011000⟩
  file := fun _ => ⟨0, 0, 0, 0⟩
  mm := fun _ => ⟨some 0xffffffff80010000, 1, 0⟩
  task := fun _ => ⟨0xffffffff80012000, 0, 0, 0, []⟩
  currentthread := 0

theorem sampleImage_frees_twice :
    sampleImage.HasAreas [0xffffffff80010000] ∧
      ∃ s', sampleImage.clearVmas = some s' ∧ ¬ sampleImage.FreesOnce s' [0xffffffff80010000] ∧
        ¬ s'.freePages.Nodup := by
  have hareas : sampleImage.HasAreas [0xffffffff80010000] := by
    refine ⟨⟨rfl, rfl⟩, ?_, by decide +kernel⟩
    intro x _ _
    exact Option.some_ne_none _
  refine ⟨hareas, ?_⟩
  obtain ⟨s', hrun⟩ : ∃ s', sampleImage.clearVmas = some s' :=
    Option.isSome_iff_exists.1 (by decide +kernel)
  obtain ⟨-, hpages⟩ := clearVmas_freePages hareas.chain hrun
  -- the page of the only area comes from the loop, and again from behind it
  have htwice := two_le_count_head hareas.chain
  refine ⟨s', hrun, ?_, ?_⟩
  · rintro ⟨freed, hfreed, hcount⟩
    have heq := List.append_cancel_left (hpages.symm.trans hfreed)
    have hone := hcount (Allocator.physAddress 0xffffffff80010000) (by decide +kernel)
    rw [heq, hone] at htwice
    exact absurd htwice (by decide)
  · rw [hpages]
    decide +kernel

/-- The page of that area is on the list of free pages twice. -/
theorem sampleImage_not_freesOnce :
    ¬ ∃ s', sampleImage.clearVmas = some s' ∧
      (sampleImage.FreesOnce s' [0xffffffff80010000] ∨ s'.freePages.Nodup) := by
  have hareas : sampleImage.HasAreas [0xffffffff80010000] := by
    refine ⟨⟨rfl, rfl⟩, ?_, by decide +kernel⟩
    intro x _ _
    exact Option.some_ne_none _
  exact not_clearVmas_freesOnce hareas (List.cons_ne_nil _ _)

/-! ## `sys_execvpe` -/

/-- `do_execvpe`; `loadelf` is what `loadelf` makes of the state, given the address it takes for
that of the ELF header, and `build` is the building of the stack. -/
def doExecvpe (archive : Files.Memory) (start : Word) (fuel : ℕ)
    (loadelf : Word → Tasks → Option Tasks) (build : Tasks → Option Tasks) (room : ℕ)
    (filename : ℕ → UInt8) (s : Tasks) : Option (Int × Tasks) := do
  let s ← s.clearVmas
  let machine ← s.machine.clearUptentries
  let s := { s with machine := machine }
  let elfaddress ← Files.findfile archive room filename fuel start
  let s ← loadelf (elfaddress + 512) s
  let s ← build s
  -- `switch_to_ring_3` does not come back; behind it stands `return 0`
  return (0, s)

/-- `sys_execvpe`, for a name that fits `name[25]` and `filename[20]`. -/
def sysExecvpe (archive : Files.Memory) (start : Word) (fuel : ℕ)
    (loadelf : Word → Tasks → Option Tasks) (build : Tasks → Option Tasks) (room : ℕ)
    (filename : ℕ → UInt8) (s : Tasks) : Option (Int × Tasks) := do
  let name ← Files.characters room filename
  if 19 < name.length then none
  else
    let s := s.setTask s.currentthread fun t => { t with name := name }
    doExecvpe archive start fuel loadelf build room filename s

/-- The process and the allocator are as they were. -/
structure SameProcess (s s' : Tasks) : Prop where
  machine : s'.machine = s.machine
  areas : s'.area = s.area
  files : s'.file = s.file
  mm : s'.mm = s.mm
  task : s'.task s.currentthread = s.task s.currentthread

variable {archive : Files.Memory} {start : Word} {fuel room : ℕ} {filename : ℕ → UInt8}
  {name : List UInt8} {ms : List Files.Member} {loadelf : Word → Tasks → Option Tasks}
  {build : Tasks → Option Tasks} {r : Int}

/-- Every call that ends passes through a state in which the old image has been freed, and there
calls `loadelf` with what `findfile` has returned; the result is 0. -/
theorem sysExecvpe_passes
    (hrun : sysExecvpe archive start fuel loadelf build room filename s = some (r, s')) :
    r = 0 ∧ ∃ elf s₁ s₂, Files.findfile archive room filename fuel start = some elf ∧
      loadelf (elf + 512) s₁ = some s₂ ∧
      ∀ xs, Seg s.nextArea (s.mmOf s.currentthread).listOfVmas xs none →
        s₁.freePages = s.freePages ++ (xs.flatMap s.pagesOf ++
          [Allocator.physAddress ((s.mmOf s.currentthread).listOfVmas.getD 0),
            Allocator.physAddress (s.task s.currentthread).mm]) := by
  rw [sysExecvpe] at hrun
  obtain ⟨name, -, hrun⟩ := Option.bind_eq_some_iff.1 hrun
  split_ifs at hrun with hlong
  dsimp only at hrun
  rw [doExecvpe] at hrun
  obtain ⟨s₀, hclear, hrun⟩ := Option.bind_eq_some_iff.1 hrun
  obtain ⟨machine, hentries, hrun⟩ := Option.bind_eq_some_iff.1 hrun
  obtain ⟨elf, hfind, hrun⟩ := Option.bind_eq_some_iff.1 hrun
  obtain ⟨s₂, hload, hrun⟩ := Option.bind_eq_some_iff.1 hrun
  obtain ⟨s₃, -, hret⟩ := Option.bind_eq_some_iff.1 hrun
  rcases Prod.mk.inj (Option.some_inj.1 hret) with ⟨rfl, -⟩
  refine ⟨rfl, elf, _, s₂, hfind, hload, fun xs hlist => ?_⟩
  -- the name is not part of what is freed
  have hmm : ((s.setTask s.currentthread fun t => { t with name := name }).task
      s.currentthread).mm = (s.task s.currentthread).mm := by
    simp [setTask]
  have hchain : Seg (s.setTask s.currentthread fun t => { t with name := name }).nextArea
      ((s.setTask s.currentthread fun t => { t with name := name }).mmOf
        s.currentthread).listOfVmas xs none := by
    rw [mmOf, hmm]
    exact hlist
  obtain ⟨-, hpages⟩ := clearVmas_freePages hchain hclear
  have hring : machine.ring = s₀.machine.ring := Machine.clearUptentries_ring hentries
  calc
    machine.ring.contents = s₀.freePages := by rw [hring]; rfl
    _ = _ := by
          rw [hpages]
          change s.freePages ++ (xs.flatMap s.pagesOf ++ [Allocator.physAddress
            (((s.setTask s.currentthread fun t => { t with name := name }).mmOf
              s.currentthread).listOfVmas.getD 0), Allocator.physAddress
            ((s.setTask s.currentthread fun t => { t with name := name }).task
              s.currentthread).mm]) = _
          rw [mmOf, hmm]
          rfl

/-- For a name that no member of the archive has, no call reports an error and leaves the process as
it was; a call that ends at all has freed the areas, and has called `loadelf` with the address
512. -/
theorem not_sysExecvpe_intact (harchive : Files.Archive archive start ms) (hms : Files.Ustar ms)
    (hname : Files.characters room filename = some name) (habsent : ∀ m ∈ ms, m.name ≠ name)
    (hfuel : ms.length < fuel) (loadelf : Word → Tasks → Option Tasks)
    (build : Tasks → Option Tasks) (s : Tasks) :
    (¬ ∃ r s', sysExecvpe archive start fuel loadelf build room filename s = some (r, s') ∧
        r ≠ 0 ∧ SameProcess s s') ∧
      ∀ r s', sysExecvpe archive start fuel loadelf build room filename s = some (r, s') →
        ∃ s₁ s₂, loadelf 512 s₁ = some s₂ ∧
          ∀ x xs, Seg s.nextArea (s.mmOf s.currentthread).listOfVmas (x :: xs) none →
            ∃ freed, s₁.freePages = s.freePages ++ freed ∧
              2 ≤ freed.count (Allocator.physAddress x) := by
  constructor
  -- the only result there is is 0, which is no error
  · rintro ⟨r, s', hrun, herror, -⟩
    exact herror (sysExecvpe_passes hrun).1
  · intro r s' hrun
    obtain ⟨-, elf, s₁, s₂, hfind, hload, hpages⟩ := sysExecvpe_passes hrun
    -- nobody in the archive has the name, so `findfile` returns 0
    have hnone : (ms.find? fun m => m.name = name) = none := by
      rw [List.find?_eq_none]
      intro m hm
      simpa using habsent m hm
    have hzero := (Files.findfile_archive harchive hms hname hfuel).1
    rw [hnone, hfind] at hzero
    have helf : elf = 0 := Option.some.inj hzero
    rw [helf] at hload
    exact ⟨s₁, s₂, hload, fun x xs hlist => ⟨_, hpages (x :: xs) hlist, two_le_count_head hlist⟩⟩

/-- The archive has `bin/` and `bin/sh`, and the call is for `x`. -/
theorem sampleImage_exec_missing :
    (∀ m ∈ Files.binMembers, m.name ≠ [120]) ∧
      ∀ loadelf build, ¬ ∃ r s',
        sysExecvpe Files.binArchive 0 3 loadelf build 20 (fun i => [120].getD i 0) sampleImage =
            some (r, s') ∧ r ≠ 0 ∧ SameProcess sampleImage s' := by
  refine ⟨by decide, ?_⟩
  rintro loadelf build ⟨r, s', hrun, herror, -⟩
  exact herror (sysExecvpe_passes hrun).1

/-- Where `loadelf` returns, the call ends, with 0. -/
theorem sampleImage_exec_returns :
    (∃ s', sysExecvpe Files.binArchive 0 3 (fun _ s => some s) some 20 (fun i => [120].getD i 0)
        sampleImage = some (0, s')) ∧
      ¬ ∃ r s', sysExecvpe Files.binArchive 0 3 (fun _ s => some s) some 20
        (fun i => [120].getD i 0) sampleImage = some (r, s') ∧ r ≠ 0 ∧
          SameProcess sampleImage s' := by
  have hms : Files.Ustar Files.binMembers := ⟨by decide, by decide, by decide, by decide⟩
  have hname : Files.characters 20 (fun i => [120].getD i 0) = some [120] := by decide +kernel
  have hfuel : Files.binMembers.length < 3 := by decide
  have hintact := not_sysExecvpe_intact Files.binArchive_archive hms hname (by decide) hfuel
    (fun _ s => some s) some sampleImage
  obtain ⟨⟨r, s'⟩, hrun⟩ := Option.isSome_iff_exists.1 (by decide +kernel :
    (sysExecvpe Files.binArchive 0 3 (fun _ s => some s) some 20 (fun i => [120].getD i 0)
      sampleImage).isSome = true)
  refine ⟨⟨s', ?_⟩, hintact.1⟩
  rw [hrun, (sysExecvpe_passes hrun).1]

end Tasks

end Exec

end OswpKernel
