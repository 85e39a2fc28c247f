import OswpKernel.Files.Boot
import OswpKernel.Files.Bounds
import OswpKernel.Files.FindFile

/-!
# Command — the program the shell runs (`sbush.c`, `string.c`, `syscall.c`, `process.c`)

The child of `bg_fg_process` asks `access` for `bin/` and the command, and calls `execvpe` if that
is there.  `access` searches the tree that was made at boot, `execvpe` goes over the archive once
more: `bgFgChild_iff` says that the two find the same program, and which commands stay inside
the arrays on the way.
-/

namespace OswpKernel

namespace Files

/-- `BIN`. -/
def binName : List UInt8 := [98, 105, 110, slash]

/-- `strcat` of the C library: the result is cleared, and then put together as `kstrcat` does it. -/
def strcat (string1 string2 : List UInt8) (concatstr : LocalArray) : Option LocalArray := do
  let string1len ← Frame.kstrlength string1
  let string2len ← Frame.kstrlength string2
  let concatstr ← concatstr.fill 0 (List.replicate (string1len + string2len + 1) 0)
  let concatstr ← Frame.copyChars string1 string1len 0 0 concatstr
  let concatstr ← Frame.copyChars string2 string2len 0 string1len concatstr
  concatstr.put (string1len + string2len) 0

/-- What the local arrays hold: `concatstr` of `bg_fg_process`, and those of the kernel. -/
structure ChildStack where
  concatstr : Bytes.Memory
  fullpath : Bytes.Memory
  subName : Bytes.Memory
  filename : Bytes.Memory
  args : Bytes.Memory
  envs : Bytes.Memory

inductive Child
  /-- `puts("Command not found")`, `puts(filename)` and `exit`. -/
  | notFound (filename : List UInt8)
  /-- `loadelf`, with what `findfile` returns. -/
  | loads (header : Word)
  deriving DecidableEq

/-- The child of `bg_fg_process`, up to the call of `loadelf`.  `clear_vmas` and `clear_uptentries`,
which `do_execvpe` calls between the copies and `loadelf`, are left out: they write neither the
copies nor the archive. -/
def bgFgChild (s : FileSystem) (mem : Memory) (tarfs : Word) (fuel : Nat) (stack : ChildStack)
    (command : List (List UInt8)) : Option Child := do
  let command0 ← command[0]?
  let concatstr ← strcat binName command0 ⟨20, stack.concatstr⟩
  let filename ← concatstr.string 0
  let a ← Frame.sysAccess s.heap s.filefsRoot stack.fullpath stack.subName filename Frame.F_OK
  if a = -1 then return .notFound filename
  else
    let copies ← Frame.doExecvpe stack.filename stack.args stack.envs filename command
      [memberPath binName]
    let header ← findfile mem 20 copies.filename.byte fuel tarfs
    return .loads header

variable {string string1 string2 path cmd file : List UInt8} {a : LocalArray} {h : Heap}
  {root : Tnode} {found : Option Tnode} {subName : Bytes.Memory}

/-! ## The strings -/

theorem strcat_eq (hnul1 : (0 : UInt8) ∉ string1) (hnul2 : (0 : UInt8) ∉ string2)
    (hroom : string1.length + string2.length < a.size) :
    ∃ a', strcat string1 string2 a = some a' ∧ a'.string 0 = some (string1 ++ string2) := by
  have hzeros : 0 + (List.replicate (string1.length + string2.length + 1) (0 : UInt8)).length ≤
      a.size := by
    rw [List.length_replicate]
    omega
  have hfull : (0 : UInt8) ∉ string1 ++ string2 := by
    rw [List.mem_append, not_or]
    exact ⟨hnul1, hnul2⟩
  obtain ⟨cleared, hclear, hsize⟩ : ∃ b : LocalArray,
      a.fill 0 (List.replicate (string1.length + string2.length + 1) 0) = some b ∧
        b.size = a.size := ⟨_, LocalArray.fill_eq hzeros, rfl⟩
  have hlength : 0 + (string1 ++ string2).length < cleared.size := by
    rw [List.length_append, Nat.zero_add, hsize]
    exact hroom
  obtain ⟨a', hfill, -, hstring⟩ := LocalArray.fill_string hfull hlength
  -- behind the clearing it is `kstrcat`
  have hcat := Frame.kstrcat_eq hnul1 hnul2 cleared
  rw [Frame.kstrcat, Frame.kstrlength_eq hnul1, Frame.kstrlength_eq hnul2] at hcat
  refine ⟨a', ?_, hstring⟩
  rw [strcat, Frame.kstrlength_eq hnul1, Frame.kstrlength_eq hnul2, Option.bind_eq_bind,
    Option.bind_some, Option.bind_eq_bind, Option.bind_some, hclear]
  exact hcat.trans hfill

theorem memberPath_eq (path : List UInt8) : memberPath [] ++ path = memberPath path := by
  rw [memberPath, memberPath, List.append_nil]

theorem sysAccess_eq (hnul : (0 : UInt8) ∉ path) (hlen : path.length ≤ 16)
    (hfind : Frame.findFile h root subName (memberPath path) = some found)
    (concatstr : Bytes.Memory) :
    Frame.sysAccess h root concatstr subName path Frame.F_OK =
      some (if found.isSome then 0 else -1) := by
  have hfull : (0 : UInt8) ∉ memberPath path := by
    rw [← memberPath_eq, List.mem_append, not_or]
    exact ⟨by decide, hnul⟩
  have hroom : 0 + (memberPath path).length < (LocalArray.mk 25 concatstr).size := by
    rw [← memberPath_eq, List.length_append]
    change 0 + (8 + path.length) < 25
    omega
  obtain ⟨a, hfill, -, hstring⟩ := LocalArray.fill_string hfull hroom
  rw [Frame.sysAccess, Frame.kstrcat_eq (by decide) hnul, memberPath_eq, hfill,
    Option.bind_eq_bind, Option.bind_some, if_pos rfl, hstring, Option.bind_eq_bind,
    Option.bind_some, hfind, Option.bind_eq_bind, Option.bind_some]
  cases found with
  | none => rfl
  | some node => rfl

theorem string_zero_eq (room : Nat) (byte : Nat → UInt8) :
    (LocalArray.mk room byte).string 0 = characters room byte := by
  rw [LocalArray.string, characters, kstrlength]
  simp only [Nat.sub_zero, Nat.zero_add]

/-- `do_execvpe` looks for the program by a copy of its name. -/
theorem doExecvpe_filename {copies : Frame.Copies} {argv envp : List (List UInt8)}
    {filename args envs : Bytes.Memory} (hnul : (0 : UInt8) ∉ file)
    (h : Frame.doExecvpe filename args envs file argv envp = some copies) :
    characters 20 copies.filename.byte = some file := by
  obtain ⟨copy, hcopy, h⟩ := Option.bind_eq_some_iff.1 h
  obtain ⟨args, -, h⟩ := Option.bind_eq_some_iff.1 h
  obtain ⟨envs, -, h⟩ := Option.bind_eq_some_iff.1 h
  have hroom := (Frame.kstrcopy_isSome_iff hnul).1 (Option.isSome_of_eq_some hcopy)
  obtain ⟨copy', hfill, hsize, hstring⟩ := LocalArray.fill_string hnul hroom
  rw [Frame.kstrcopy_eq hnul, hfill, Option.some_inj] at hcopy
  rw [← Option.some_inj.1 h, ← hcopy, ← string_zero_eq, ← hstring]
  exact congrArg (fun size => (LocalArray.mk size copy'.byte).string 0) hsize.symm

/-! ## What the two lookups find -/

variable {mem : Memory} {address : Word} {ms : List Member} {s : FileSystem} {nodes : BootNodes}
  {node : Path → Tnode} {n : List UInt8} {command : List (List UInt8)}

/-- Below `rootfs/` there is what the archive has. -/
theorem inNameSpace_memberPath :
    InNameSpace ms (memberPath n) ↔ components n ∈ [] :: archivePaths ms := by
  have hne : ∀ (path c : List UInt8) (cs : List (List UInt8)),
      components path = rootName :: c :: cs → c ≠ rootfsName → memberPath n ≠ path := by
    rintro _ c cs hcs hc rfl
    rw [components_memberPath, List.cons.injEq, List.cons.injEq] at hcs
    exact hc hcs.2.1.symm
  have hroot : memberPath n ≠ rootName := fun heq => by
    have hcs := congrArg components heq
    rw [components_memberPath] at hcs
    cases hcs
  rw [InNameSpace, or_iff_right hroot,
    or_iff_right (hne (rootName ++ devName) _ [] rfl (by decide)),
    or_iff_right (hne (rootName ++ devName ++ ttylName) _ [ttylName] rfl (by decide)),
    or_iff_right (hne (rootName ++ procName) _ [] rfl (by decide))]
  rw [components_memberPath]
  simp

/-- The name of a file is there just if it is that of a member. -/
theorem mem_archivePaths_file (hne : components n ≠ [])
    (hfile : ¬ IsDirectory (components n)) :
    components n ∈ [] :: archivePaths ms ↔ ∃ m ∈ ms, m.name = n := by
  rw [List.mem_cons, or_iff_right hne, mem_archivePaths]
  constructor
  · rintro ⟨m, hm, -, hprefix⟩
    have hname := eq_of_file_prefix hprefix hne hfile
    exact ⟨m, hm, (components_injective hname).symm⟩
  · rintro ⟨m, hm, rfl⟩
    exact ⟨m, hm, hne, List.prefix_refl _⟩

theorem WellFormed.ustar (hwf : WellFormed ms) : Ustar ms where
  name := fun m hm hnil => by
    have hslashes := (hwf.name m hm).slashes.1
    rw [hnil] at hslashes
    exact absurd hslashes (by decide)
  nul := fun m hm => (hwf.name m hm).nul
  length := fun m hm => (hwf.name m hm).length_lt
  size := hwf.size

/-- What `findfile` returns for a name that has been copied to an array. -/
theorem findfile_of_characters {room fuel : Nat} {filename : Nat → UInt8}
    (harchive : Archive mem address ms) (hwf : WellFormed ms)
    (hname : characters room filename = some n) (hfuel : ms.length < fuel) :
    findfile mem room filename fuel address =
      some (((ms.find? fun m => m.name = n).map Member.header).getD 0) := by
  have hms := hwf.ustar
  have hchars : ∀ m ∈ ms, characters 100 (field mem m.header 0) = some m.name := fun m hm =>
    ((harchive.isHeader hm).read (hms.name m hm) (hms.nul m hm) (hms.length m hm)
      (hms.size m hm)).2.2
  rw [findfile_eq_findM (harchive.walk hms hfuel), findM_members hname hchars]
  rfl

theorem components_command (hne : cmd ≠ []) (hslash : slash ∉ cmd) :
    components (binName ++ cmd) = [binName, cmd] := by
  have hbin : slash ∉ [98, 105, 110] := by decide
  have hsplit : binName ++ cmd = [98, 105, 110] ++ slash :: cmd := rfl
  rw [hsplit, components_append hbin, components_of_notMem hslash, if_neg hne]
  rfl

theorem find?_name {m : Member} (hnodup : (ms.map Member.name).Nodup) (hm : m ∈ ms) :
    (ms.find? fun m' => m'.name = m.name) = some m := by
  cases hfind : ms.find? fun m' => m'.name = m.name with
  | none => exact absurd (decide_eq_true rfl) (List.find?_eq_none.1 hfind m hm)
  | some m' =>
      have hname : m'.name = m.name := by simpa using List.find?_some hfind
      rw [List.inj_on_of_nodup_map hnodup (List.mem_of_find?_eq_some hfind) hm hname]

/-! ## The child -/

theorem strcat_room (hnul1 : (0 : UInt8) ∉ string1) (hnul2 : (0 : UInt8) ∉ string2)
    (h : (strcat string1 string2 a).isSome) : string1.length + string2.length < a.size := by
  obtain ⟨a', hcat⟩ := Option.isSome_iff_exists.1 h
  rw [strcat, Frame.kstrlength_eq hnul1, Frame.kstrlength_eq hnul2, Option.bind_eq_bind,
    Option.bind_some, Option.bind_eq_bind, Option.bind_some] at hcat
  obtain ⟨cleared, hclear, -⟩ := Option.bind_eq_some_iff.1 hcat
  have hroom := LocalArray.fill_isSome_iff.1 (Option.isSome_of_eq_some hclear)
  rw [List.length_replicate, Nat.zero_add] at hroom
  exact hroom.resolve_left (List.cons_ne_nil _ _)

variable {stack : ChildStack} {argv : List (List UInt8)} {fuel : Nat}

/-- With room for the name it is up to `access`. -/
theorem bgFgChild_eq (hnul : (0 : UInt8) ∉ cmd) (hlen : cmd.length ≤ 12)
    (hfind : Frame.findFile s.heap s.filefsRoot stack.subName (memberPath (binName ++ cmd)) =
      some found) :
    bgFgChild s mem address fuel stack (cmd :: argv) =
      if found.isSome then
        (Frame.doExecvpe stack.filename stack.args stack.envs (binName ++ cmd) (cmd :: argv)
          [memberPath binName]).bind fun copies =>
            (findfile mem 20 copies.filename.byte fuel address).map Child.loads
      else some (.notFound (binName ++ cmd)) := by
  have hname : (0 : UInt8) ∉ binName ++ cmd := by
    rw [List.mem_append, not_or]
    exact ⟨by decide, hnul⟩
  have hshort : (binName ++ cmd).length ≤ 16 := by
    rw [List.length_append]
    change 4 + cmd.length ≤ 16
    omega
  have hroom : binName.length + cmd.length < (LocalArray.mk 20 stack.concatstr).size := by
    change 4 + cmd.length < 20
    omega
  obtain ⟨a, hcat, hstring⟩ := strcat_eq (a := ⟨20, stack.concatstr⟩) (by decide) hnul hroom
  have hcommand : (cmd :: argv)[0]? = some cmd := rfl
  rw [bgFgChild, hcommand, Option.bind_eq_bind, Option.bind_some, hcat, Option.bind_eq_bind,
    Option.bind_some, hstring, Option.bind_eq_bind, Option.bind_some,
    sysAccess_eq hname hshort hfind, Option.bind_eq_bind, Option.bind_some]
  cases found with
  | none => rfl
  | some node =>
      have hzero : (0 : BitVec 32) ≠ -1 := by decide
      simp only [Option.isSome_some, if_true, if_neg hzero]
      refine congrArg _ (funext fun copies => ?_)
      cases findfile mem 20 copies.filename.byte fuel address with
      | none => rfl
      | some header => rfl

/-- A name that is too long runs out of `concatstr`, of the shell or of `sys_access`. -/
theorem bgFgChild_long (hnul : (0 : UInt8) ∉ cmd) (hlen : ¬ cmd.length ≤ 12) :
    bgFgChild s mem address fuel stack (cmd :: argv) = none := by
  have hname : (0 : UInt8) ∉ binName ++ cmd := by
    rw [List.mem_append, not_or]
    exact ⟨by decide, hnul⟩
  rw [← Option.not_isSome_iff_eq_none]
  intro hsome
  obtain ⟨outcome, hrun⟩ := Option.isSome_iff_exists.1 hsome
  obtain ⟨a, hcat, hrun⟩ := Option.bind_eq_some_iff.1 hrun
  have hroom := strcat_room (by decide) hnul (Option.isSome_of_eq_some hcat)
  obtain ⟨a', hcat', hstring⟩ := strcat_eq (by decide) hnul hroom
  rcases Option.some_inj.1 (hcat.symm.trans hcat')
  obtain ⟨filename, hread, hrun⟩ := Option.bind_eq_some_iff.1 hrun
  rcases Option.some_inj.1 (hread.symm.trans hstring)
  obtain ⟨r, haccess, -⟩ := Option.bind_eq_some_iff.1 hrun
  have hfits := ((Frame.sysAccess_isSome_iff hname _ _ _ _).1
    (Option.isSome_of_eq_some haccess)).1
  rw [List.length_append] at hfits
  exact hlen (Nat.le_of_add_le_add_left (hfits : 4 + cmd.length ≤ 4 + 12))

/-- On the tree of the archive the child loads the member `bin/` and the command, says that there is
none, or leaves its arrays. -/
theorem Booted.bgFgChild (hboot : Booted s ms nodes node) (harchive : Archive mem address ms)
    (hwf : WellFormed ms) (hfuel : ms.length < fuel) (hne : cmd ≠ []) (hslash : slash ∉ cmd)
    (hstrings : ∀ string ∈ cmd :: argv, (0 : UInt8) ∉ string) (outcome : Child) :
    Files.bgFgChild s mem address fuel stack (cmd :: argv) = some outcome ↔
      cmd.length ≤ 12 ∧
      ((∃ m ∈ ms, m.name = binName ++ cmd ∧ Frame.FitsTable (cmd :: argv) ∧
          outcome = .loads m.header) ∨
        ((∀ m ∈ ms, m.name ≠ binName ++ cmd) ∧ outcome = .notFound (binName ++ cmd))) := by
  have hnul : (0 : UInt8) ∉ cmd := hstrings cmd List.mem_cons_self
  have hname : (0 : UInt8) ∉ binName ++ cmd := by
    rw [List.mem_append, not_or]
    exact ⟨by decide, hnul⟩
  have henvp : ∀ string ∈ [memberPath binName], (0 : UInt8) ∉ string := by decide
  have henv : Frame.FitsTable [memberPath binName] := ⟨by decide, by decide⟩
  by_cases hlen : cmd.length ≤ 12
  · rw [and_iff_right hlen]
    have hshort : (binName ++ cmd).length ≤ 19 := by
      rw [List.length_append]
      change 4 + cmd.length ≤ 19
      omega
    -- the path has four components, of which only the last may be long
    have hcomponents := components_command hne hslash
    have hpath : components (memberPath (binName ++ cmd)) =
        [rootName, rootfsName, binName, cmd] := by rw [components_memberPath, hcomponents]
    have hfits : Frame.FitsFind (memberPath (binName ++ cmd)) := fun _ => by
      rw [hpath]
      refine ⟨by decide, by decide, by decide, by decide, by decide, by decide, ?_⟩
      change 10 * 3 + 0 + cmd.length + 1 < 60
      omega
    have hfull : (0 : UInt8) ∉ memberPath (binName ++ cmd) := by
      rw [← memberPath_eq, List.mem_append, not_or]
      exact ⟨by decide, hname⟩
    obtain ⟨found, hfind, hiff⟩ := hboot.findFile hwf rfl hfull hfits stack.subName
    have hfile : ¬ IsDirectory (components (binName ++ cmd)) := by
      rw [hcomponents]
      exact fun hdir => not_endsWithSlash hslash (isDirectory_concat (p := [binName]).1 hdir)
    have hsome : found.isSome ↔ ∃ m ∈ ms, m.name = binName ++ cmd := by
      rw [Option.isSome_iff_exists, exists_congr hiff,
        hboot.exists_leads_iff (components_absolute rfl), inNameSpace_memberPath,
        mem_archivePaths_file (by rw [hcomponents]; exact List.cons_ne_nil _ _) hfile]
    rw [bgFgChild_eq hnul hlen hfind]
    by_cases hmember : ∃ m ∈ ms, m.name = binName ++ cmd
    · rw [if_pos (hsome.2 hmember)]
      -- `findfile` comes to the header of that member
      have hloads : ∀ copies, Frame.doExecvpe stack.filename stack.args stack.envs (binName ++ cmd)
          (cmd :: argv) [memberPath binName] = some copies → ∀ m ∈ ms, m.name = binName ++ cmd →
            findfile mem 20 copies.filename.byte fuel address = some m.header := by
        intro copies hcopies m hm heq
        rw [findfile_of_characters harchive hwf (doExecvpe_filename hname hcopies) hfuel, ← heq,
          find?_name hwf.nodup hm]
        rfl
      have hexec := Frame.doExecvpe_isSome_iff hname hstrings henvp stack.filename stack.args
        stack.envs
      constructor
      · intro hloaded
        obtain ⟨copies, hcopies, hheader⟩ := Option.bind_eq_some_iff.1 hloaded
        obtain ⟨m, hm, heq⟩ := hmember
        rw [hloads copies hcopies m hm heq, Option.map_some, Option.some_inj] at hheader
        exact Or.inl ⟨m, hm, heq, (hexec.1 (Option.isSome_of_eq_some hcopies)).2.1, hheader.symm⟩
      · rintro (⟨m, hm, heq, htable, rfl⟩ | ⟨hnone, -⟩)
        · obtain ⟨copies, hcopies⟩ := Option.isSome_iff_exists.1 (hexec.2 ⟨hshort, htable, henv⟩)
          rw [hcopies, Option.bind_some, hloads copies hcopies m hm heq, Option.map_some]
        · obtain ⟨m, hm, heq⟩ := hmember
          exact absurd heq (hnone m hm)
    · rw [if_neg fun h => hmember (hsome.1 h)]
      have hnone : ∀ m ∈ ms, m.name ≠ binName ++ cmd := fun m hm heq => hmember ⟨m, hm, heq⟩
      constructor
      · rintro heq
        exact Or.inr ⟨hnone, (Option.some_inj.1 heq).symm⟩
      · rintro (⟨m, hm, heq, -⟩ | ⟨-, rfl⟩)
        · exact absurd heq (hnone m hm)
        · rfl
  · rw [bgFgChild_long hnul hlen]
    exact iff_of_false (fun h => by cases h) fun hboth => hlen hboth.1

/-- After boot the shell's child loads the member `bin/` and the command, says that there is none,
or leaves its arrays: `execvpe` never looks for a program that `access` has found and the archive
does not have. -/
theorem bgFgChild_iff {L : Loader} {bootName : Word} (harchive : Archive mem address ms)
    (hwf : WellFormed ms) (hsupply : Supply L bootName ms) (hfuel : ms.length < fuel)
    (rows : Nat → Nat → UInt8) (terminal : Keyboard.Terminal) (processes : Nat → ProcessInfo) :
    ∃ s, initialiseFileSystem mem bootName fuel address rows terminal processes L = some s ∧
      ∀ stack cmd argv, cmd ≠ [] → slash ∉ cmd → (∀ string ∈ cmd :: argv, (0 : UInt8) ∉ string) →
        ∀ outcome, bgFgChild s mem address fuel stack (cmd :: argv) = some outcome ↔
          cmd.length ≤ 12 ∧
          ((∃ m ∈ ms, m.name = binName ++ cmd ∧ Frame.FitsTable (cmd :: argv) ∧
              outcome = .loads m.header) ∨
            ((∀ m ∈ ms, m.name ≠ binName ++ cmd) ∧ outcome = .notFound (binName ++ cmd))) := by
  obtain ⟨s, nodes, node, hrun, hboot⟩ :=
    initialiseFileSystem_spec harchive hwf hsupply hfuel rows terminal processes
  exact ⟨s, hrun, fun stack cmd argv hne hslash hstrings =>
    hboot.bgFgChild harchive hwf hfuel hne hslash hstrings⟩

/-- `sh x` is loaded from its header, and there is no `ls`. -/
theorem bgFgChild_iff_bin :
    ∃ s, initialiseFileSystem binArchive 0xffffffff80200000 3 0 (fun _ _ => 55)
        (Keyboard.Terminal.initializeKeyboardBuffer fun _ => Keyboard.nul) (fun _ => ⟨[], 0, 0, 0⟩)
        bootLoader = some s ∧
      bgFgChild s binArchive 0 3 ⟨fun _ => 7, fun _ => 7, fun _ => 7, fun _ => 7, fun _ => 7,
        fun _ => 7⟩ [[115, 104], [120]] = some (.loads 512) ∧
      bgFgChild s binArchive 0 3 ⟨fun _ => 7, fun _ => 7, fun _ => 7, fun _ => 7, fun _ => 7,
        fun _ => 7⟩ [[108, 115]] = some (.notFound [98, 105, 110, 47, 108, 115]) := by
  have hfuel : binMembers.length < 3 := by decide
  obtain ⟨s, hrun, hall⟩ := bgFgChild_iff binArchive_archive binMembers_wellFormed
    bootLoader_supply hfuel (fun _ _ => 55)
    (Keyboard.Terminal.initializeKeyboardBuffer fun _ => Keyboard.nul) fun _ => ⟨[], 0, 0, 0⟩
  refine ⟨s, hrun, ?_, ?_⟩
  · refine (hall _ _ _ (by decide) (by decide) (by decide) _).2 ⟨by decide, Or.inl ?_⟩
    exact ⟨_, List.mem_cons_of_mem _ List.mem_cons_self, rfl, ⟨by decide, by decide⟩, rfl⟩
  · refine (hall _ _ _ (by decide) (by decide) (by decide) _).2 ⟨by decide, Or.inr ?_⟩
    exact ⟨by decide, rfl⟩

end Files

end OswpKernel
