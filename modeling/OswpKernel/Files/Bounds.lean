import OswpKernel.Files.Block
import OswpKernel.Files.Unlink

/-!
# Bounds — user strings in the local arrays of the kernel (`fs.c`, `syscall.c`, `process.c`)

`find_file`, `sys_access`, `do_execvpe` and `sys_unlink` copy the strings they are given into
arrays of a fixed size; none of them compares the length first.  Here every loop goes over the
string and the array byte by byte, a two-dimensional array is one block of bytes, and an access
outside a string or an array is `none`.  `user_strings_bounded_iff` says which strings each of the
four has room for.
-/

namespace OswpKernel

namespace Files

namespace Frame

variable {string rest front cur cs path : List UInt8} {comps : List (List UInt8)} {c : UInt8}
  {a a' : LocalArray} {start i k j : Nat}

/-! ## `sys_access` -/

abbrev F_OK : Nat := 1

def sysAccess (h : Heap) (filefsRoot : Tnode) (concatstr subName : Bytes.Memory)
    (pathname : List UInt8) (mode : Nat) : Option (BitVec 32) := do
  let concatstr ← kstrcat (memberPath []) pathname ⟨25, concatstr⟩
  if mode = F_OK then
    let fullpath ← concatstr.string 0
    match ← findFile h filefsRoot subName fullpath with
    | none => return -1
    | some _ => return 0
  else return -1

/-- The path fits behind `/rootfs/`, and in the block of `find_file` if that is called. -/
def FitsAccess (pathname : List UInt8) (mode : Nat) : Prop :=
  pathname.length ≤ 16 ∧ (mode = F_OK → FitsFind (memberPath pathname))

theorem sysAccess_isSome_iff {mode : Nat} (hnul : (0 : UInt8) ∉ path) (h : Heap) (root : Tnode)
    (concatstr subName : Bytes.Memory) :
    (sysAccess h root concatstr subName path mode).isSome ↔ FitsAccess path mode := by
  have hfull : memberPath [] ++ path = memberPath path := by
    rw [memberPath, memberPath, List.append_nil]
  have hnulFull : (0 : UInt8) ∉ memberPath path := by
    rw [memberPath, List.mem_append, not_or]
    exact ⟨by decide, hnul⟩
  have hlength : (memberPath path ++ [0]).length = path.length + 9 := by
    rw [memberPath, List.length_append, List.length_append, List.length_singleton]
    change 8 + path.length + 1 = _
    omega
  rw [sysAccess, kstrcat_eq (by decide) hnul, hfull, FitsAccess, Option.bind_eq_bind]
  by_cases hlen : path.length ≤ 16
  · have hroom : 0 + (memberPath path ++ [0]).length ≤ (LocalArray.mk 25 concatstr).size := by
      rw [hlength, Nat.zero_add]
      change path.length + 9 ≤ 25
      omega
    rw [LocalArray.fill_eq hroom, Option.bind_some, and_iff_right hlen]
    by_cases hmode : mode = F_OK
    · -- the string is read back as it was put together
      have hread : (LocalArray.mk 25 (Bytes.write concatstr 0 (memberPath path ++ [0]))).string 0 =
          some (memberPath path) := by
        have hstring : Bytes.IsString (Bytes.write concatstr 0 (memberPath path ++ [0])) 0
            (memberPath path) := Bytes.isString_write hnulFull
        refine LocalArray.string_eq hstring ?_
        rw [List.length_append, List.length_singleton] at hlength
        change 0 + (memberPath path).length < 25
        omega
      rw [if_pos hmode, hread, Option.bind_eq_bind, Option.bind_some, forall_prop_of_true hmode,
        ← findFile_isSome_iff hnulFull h root subName]
      cases findFile h root subName (memberPath path) with
      | none => rfl
      | some found => cases found <;> rfl
    · rw [if_neg hmode]
      exact iff_of_true rfl fun h => absurd h hmode
  · have hnone : (LocalArray.mk 25 concatstr).fill 0 (memberPath path ++ [0]) = none := by
      rw [← Option.not_isSome_iff_eq_none, LocalArray.fill_isSome_iff,
        or_iff_right (List.concat_ne_nil _ _), hlength]
      change ¬ 0 + (path.length + 9) ≤ 25
      omega
    rw [hnone]
    exact iff_of_false Bool.false_ne_true fun hboth => hlen hboth.1

/-! ## `do_execvpe` -/

/-- `argv[i]`: a string, or the NULL behind the last one. -/
def entryAt (argv : List (List UInt8)) (i : Nat) : Option (Option (List UInt8)) :=
  (argv.map some ++ [none])[i]?

/-- `for (i = 0; argv[i] != NULL; i++)`, to the rows of 40 bytes. -/
def copyStrings (argv : List (List UInt8)) : Nat → Nat → LocalArray → Option (Nat × LocalArray)
  | 0, _, _ => none
  | fuel + 1, i, args => do
      match ← entryAt argv i with
      | some string =>
          let args ← kstrcopy args (40 * i) string
          copyStrings argv fuel (i + 1) args
      | none => return (i, args)

/-- The strings, and the empty one behind them. -/
def copyTable (argv : List (List UInt8)) (args : Bytes.Memory) : Option (Nat × LocalArray) := do
  let (argc, args) ← copyStrings argv (argv.length + 1) 0 ⟨200, args⟩
  let args ← kstrcopy args (40 * argc) []
  return (argc, args)

/-- What `do_execvpe` has copied before it replaces the image. -/
structure Copies where
  filename : LocalArray
  args : Nat × LocalArray
  envs : Nat × LocalArray

def doExecvpe (filename args envs : Bytes.Memory) (file : List UInt8)
    (argv envp : List (List UInt8)) : Option Copies := do
  let filename ← kstrcopy ⟨20, filename⟩ 0 file
  let args ← copyTable argv args
  let envs ← copyTable envp envs
  return ⟨filename, args, envs⟩

/-- At most four strings, none of which leaves the 200 bytes. -/
def FitsTable (argv : List (List UInt8)) : Prop :=
  argv.length ≤ 4 ∧ ∀ i (hi : i < argv.length), 40 * i + argv[i].length < 200

def FitsExec (file : List UInt8) (argv envp : List (List UInt8)) : Prop :=
  file.length ≤ 19 ∧ FitsTable argv ∧ FitsTable envp

variable {argv envp : List (List UInt8)} {file : List UInt8}

theorem entryAt_eq (h : i < argv.length) : entryAt argv i = some (some argv[i]) := by
  rw [entryAt, List.getElem?_append_left (by rwa [List.length_map]), List.getElem?_map,
    List.getElem?_eq_getElem h]
  rfl

theorem entryAt_end (argv : List (List UInt8)) : entryAt argv argv.length = some none := by
  have hend := List.getElem?_concat_length (l := argv.map some) (a := (none : Option (List UInt8)))
  rwa [List.length_map] at hend

/-- What follows a copy, as far as it depends on the array only by its size. -/
theorem kstrcopy_bind_isSome_iff {β : Type} {f : LocalArray → Option β} {P : Prop}
    (hnul : (0 : UInt8) ∉ string) (hf : ∀ b, b.size = a.size → ((f b).isSome ↔ P)) :
    ((kstrcopy a start string).bind f).isSome ↔ start + string.length < a.size ∧ P := by
  rw [kstrcopy_eq hnul, LocalArray.fill_bind_isSome_iff (List.concat_ne_nil _ _) hf,
    List.length_append, List.length_singleton, ← Nat.add_assoc, Nat.succ_le_iff]

/-- The strings from the `i`-th on are copied to their rows. -/
theorem copyStrings_bind_isSome_iff {β : Type} {f : Nat × LocalArray → Option β} {P : Prop}
    (hnul : ∀ string ∈ argv, (0 : UInt8) ∉ string)
    (hf : ∀ b, b.size = a.size → ((f (argv.length, b)).isSome ↔ P)) {fuel : Nat}
    (hfuel : argv.length < i + fuel) (hi : i ≤ argv.length) :
    ((copyStrings argv fuel i a).bind f).isSome ↔
      (∀ n (hn : n < argv.length), i ≤ n → 40 * n + argv[n].length < a.size) ∧ P := by
  induction fuel generalizing i a with
  | zero => omega
  | succ fuel ih =>
      rw [copyStrings]
      rcases Nat.lt_or_eq_of_le hi with hlt | rfl
      · rw [entryAt_eq hlt, Option.bind_eq_bind, Option.bind_some]
        dsimp only
        -- what the later strings need depends on the array only by its size
        have hrest : ∀ b : LocalArray, b.size = a.size →
            (((copyStrings argv fuel (i + 1) b).bind f).isSome ↔
              (∀ n (hn : n < argv.length), i + 1 ≤ n → 40 * n + argv[n].length < a.size) ∧ P) := by
          intro b hb
          rw [ih (fun d hd => hf d (hd.trans hb)) (by omega) hlt, hb]
        rw [Option.bind_eq_bind, Option.bind_assoc,
          kstrcopy_bind_isSome_iff (hnul _ (List.getElem_mem hlt)) hrest, ← and_assoc]
        refine and_congr_left' ⟨?_, fun hall => ?_⟩
        · rintro ⟨hfirst, hlater⟩ n hn hle
          rcases Nat.lt_or_eq_of_le hle with hgt | rfl
          · exact hlater n hn hgt
          · exact hfirst
        · exact ⟨hall i hlt le_rfl, fun n hn hle => hall n hn (Nat.le_of_succ_le hle)⟩
      · rw [entryAt_end]
        refine Iff.trans (hf a rfl) (and_iff_right fun n hn hle => ?_).symm
        omega

theorem copyTable_bind_isSome_iff {β : Type} {f : Nat × LocalArray → Option β} {P : Prop}
    (hnul : ∀ string ∈ argv, (0 : UInt8) ∉ string) (hf : ∀ table, (f table).isSome ↔ P)
    (args : Bytes.Memory) : ((copyTable argv args).bind f).isSome ↔ FitsTable argv ∧ P := by
  have hend : ∀ b : LocalArray, b.size = (LocalArray.mk 200 args).size →
      (((kstrcopy b (40 * argv.length) []).bind fun b => f (argv.length, b)).isSome ↔
        40 * argv.length < 200 ∧ P) := by
    intro b hb
    rw [kstrcopy_bind_isSome_iff List.not_mem_nil fun d _ => hf (argv.length, d), hb]
    rfl
  have hstrings := copyStrings_bind_isSome_iff (a := ⟨200, args⟩) (P := 40 * argv.length < 200 ∧ P)
    (f := fun copied => (kstrcopy copied.2 (40 * copied.1) []).bind fun b => f (copied.1, b))
    hnul hend (Nat.lt_add_left 0 (Nat.lt_succ_self _)) (Nat.zero_le _)
  have hcall : (copyTable argv args).bind f =
      (copyStrings argv (argv.length + 1) 0 ⟨200, args⟩).bind fun copied =>
        (kstrcopy copied.2 (40 * copied.1) []).bind fun b => f (copied.1, b) := by
    rw [copyTable, Option.bind_eq_bind, Option.bind_assoc]
    exact congrArg _ (funext fun _ => Option.bind_assoc ..)
  rw [hcall, hstrings, ← and_assoc, FitsTable, and_comm (a := argv.length ≤ 4)]
  refine and_congr_left' (and_congr ?_ (by omega))
  exact ⟨fun h n hn => h n hn (Nat.zero_le _), fun h n hn _ => h n hn⟩

/-- The copies of `do_execvpe` stay inside their arrays and the strings just if these fit. -/
theorem doExecvpe_isSome_iff (hfile : (0 : UInt8) ∉ file)
    (hargv : ∀ string ∈ argv, (0 : UInt8) ∉ string)
    (henvp : ∀ string ∈ envp, (0 : UInt8) ∉ string) (filename args envs : Bytes.Memory) :
    (doExecvpe filename args envs file argv envp).isSome ↔ FitsExec file argv envp := by
  have henv : ∀ filename args, ((copyTable envp envs).bind fun envs =>
      some (Copies.mk filename args envs)).isSome ↔ FitsTable envp := by
    intro filename args
    rw [copyTable_bind_isSome_iff henvp (fun _ => iff_of_true rfl trivial) envs, and_true]
  have harg : ∀ filename, ((copyTable argv args).bind fun args =>
      (copyTable envp envs).bind fun envs => some (Copies.mk filename args envs)).isSome ↔
        FitsTable argv ∧ FitsTable envp :=
    fun filename => copyTable_bind_isSome_iff hargv (henv filename) args
  have hcall : (doExecvpe filename args envs file argv envp).isSome ↔
      0 + file.length < 20 ∧ FitsTable argv ∧ FitsTable envp :=
    kstrcopy_bind_isSome_iff (a := ⟨20, filename⟩) hfile fun b _ => harg b
  refine hcall.trans (and_congr_left' ?_)
  rw [Nat.zero_add]
  exact Nat.lt_succ_iff

/-! ## `sys_unlink` -/

/-- `for (j = kstrlength(pathname); parent_path[j] != '/'; j--)`.  Where the first character is
none, the next one the loop looks at is `parent_path[-1]`. -/
def scanBack : Nat → LocalArray → Option (Nat × LocalArray)
  | 0, parentPath => do
      let c ← parentPath.get 0
      if c = slash then return (0, parentPath) else none
  | j + 1, parentPath => do
      let c ← parentPath.get (j + 1)
      if c = slash then return (j + 1, parentPath)
      else
        let parentPath ← parentPath.put (j + 1) 0
        scanBack j parentPath

/-- `sys_unlink` up to the lookup of the directory, and the name behind it. -/
def sysUnlink (h : Heap) (filefsRoot : Tnode) (parentPath nodeToUnlink subName : Bytes.Memory)
    (pathname : List UInt8) : Option (Option Tnode × LocalArray) := do
  let parentPath ← kstrcopy ⟨50, parentPath⟩ 0 pathname
  let len ← kstrlength pathname
  let (j, parentPath) ← scanBack len parentPath
  let nodeToUnlink ← copyChars pathname (len - (j + 1)) (j + 1) 0 ⟨10, nodeToUnlink⟩
  let nodeToUnlink ← nodeToUnlink.put (len - (j + 1)) 0
  let parent ← parentPath.string 0
  let parentNode ← findFile h filefsRoot subName parent
  return (parentNode, nodeToUnlink)

/-- The path has a `/`, and path, name and directory fit their arrays. -/
def FitsUnlink (path : List UInt8) : Prop :=
  slash ∈ path ∧ path.length ≤ 49 ∧ (nameOf path).length ≤ 9 ∧ FitsFind (parentOf path)

theorem kstrcopy_eq_copied (hnul : (0 : UInt8) ∉ path) (array : Bytes.Memory) :
    kstrcopy ⟨50, array⟩ 0 path = (copied 50 array path).map (LocalArray.mk 50) := by
  by_cases hlen : path.length < 50
  · have hroom : 0 + (path ++ [0]).length ≤ (LocalArray.mk 50 array).size := by
      rw [Nat.zero_add, List.length_append]
      exact hlen
    rw [kstrcopy_eq hnul, LocalArray.fill_eq hroom, copied, if_pos hlen, Option.map_some]
    congr 2
    funext i
    -- at the NUL, in front of it and behind it
    rw [Bytes.write, if_pos (Nat.zero_le i), Nat.sub_zero]
    by_cases hi : i = path.length
    · rw [if_pos hi, hi, List.getElem?_concat_length]
      rfl
    · rw [if_neg hi]
      rcases Nat.lt_or_gt_of_ne hi with hlt | hgt
      · rw [List.getElem?_append_left hlt]
      · rw [List.getElem?_eq_none (Nat.le_of_lt hgt), List.getElem?_eq_none]
        rw [List.length_append]
        exact hgt
  · have hnone : kstrcopy ⟨50, array⟩ 0 path = none := by
      rw [← Option.not_isSome_iff_eq_none, kstrcopy_isSome_iff hnul, Nat.zero_add]
      exact hlen
    rw [hnone, copied, if_neg hlen]
    rfl

theorem scanBack_eq {j : Nat} (hj : j < a.size) :
    scanBack j a = (cutBack j a.byte).map fun cut => (cut.1, { a with byte := cut.2 }) := by
  induction j generalizing a with
  | zero =>
      rw [scanBack, cutBack, LocalArray.get_eq hj, Option.bind_eq_bind, Option.bind_some]
      split_ifs <;> rfl
  | succ j ih =>
      rw [scanBack, cutBack, LocalArray.get_eq hj, Option.bind_eq_bind, Option.bind_some]
      by_cases hslash : a.byte (j + 1) = slash
      · rw [if_pos hslash, if_pos hslash]
        rfl
      · rw [if_neg hslash, if_neg hslash, LocalArray.put_eq hj, Option.bind_eq_bind,
          Option.bind_some, ← Bytes.store_eq_update]
        exact ih (Nat.lt_of_succ_lt hj)

theorem string_zero (buffer : Nat → UInt8) :
    (LocalArray.mk 50 buffer).string 0 = characters 50 buffer := by
  rw [LocalArray.string, characters, Files.kstrlength]
  simp only [Nat.sub_zero, Nat.zero_add]

/-- The path split and the lookup stay inside the arrays and the path just if that fits. -/
theorem sysUnlink_isSome_iff (hnul : (0 : UInt8) ∉ path) (h : Heap) (root : Tnode)
    (parentPath nodeToUnlink subName : Bytes.Memory) :
    (sysUnlink h root parentPath nodeToUnlink subName path).isSome ↔ FitsUnlink path := by
  rw [sysUnlink, kstrcopy_eq_copied hnul, FitsUnlink]
  by_cases hlen : path.length ≤ 49
  · have hlt : path.length < 50 := Nat.lt_succ_of_le hlen
    by_cases hslash : slash ∈ path
    · obtain ⟨front, hcut⟩ := exists_cutAt hslash
      obtain ⟨buffer, buffer', hcopied, hback, hparent⟩ := hcut.cutBack hnul hlt parentPath
      have hscan : scanBack path.length ⟨50, buffer⟩ = some (front.length, ⟨50, buffer'⟩) := by
        rw [scanBack_eq hlt, hback]
        rfl
      have hname : path.length - (front.length + 1) = (nameOf path).length := by
        rw [← hcut.drop, List.length_drop]
      have hrest : path.length = front.length + 1 + (nameOf path).length := by
        have hdrop := congrArg List.length hcut.eq
        rw [List.length_append, List.length_cons] at hdrop
        omega
      have hnulParent : (0 : UInt8) ∉ parentOf path := fun hmem =>
        hnul ((List.rdropWhile_prefix _ _).subset hmem)
      -- the name, its NUL, and the lookup
      have hlookup : ∀ b : LocalArray, b.size = 10 →
          (((findFile h root subName (parentOf path)).bind fun parentNode =>
            some (parentNode, b)).isSome ↔ FitsFind (parentOf path)) := by
        intro b _
        rw [← findFile_isSome_iff hnulParent h root subName]
        cases findFile h root subName (parentOf path) <;> rfl
      have hfill := LocalArray.fill_bind_isSome_iff (a := ⟨10, nodeToUnlink⟩) (i := 0)
        (List.concat_ne_nil 0 (nameOf path)) hlookup
      rw [hcopied, Option.map_some, Option.bind_eq_bind, Option.bind_some, kstrlength_eq hnul,
        Option.bind_eq_bind, Option.bind_some, hscan, Option.bind_eq_bind, Option.bind_some]
      dsimp only
      rw [copyChars_eq (by omega), hcut.drop, hname, string_zero, hparent,
        and_iff_right hslash, and_iff_right hlen, ← Nat.lt_succ_iff]
      rw [LocalArray.fill_append, Option.bind_assoc, Nat.zero_add, Nat.zero_add,
        List.length_append] at hfill
      refine Iff.trans ?_ hfill
      simp only [LocalArray.fill_singleton]
      rfl
    · -- the scan does not find a `/`, and the NUL behind the path is none
      have hcopied : copied 50 parentPath path = some _ := if_pos hlt
      have hback : cutBack path.length (fun i =>
          if i = path.length then 0 else (path[i]?).getD (parentPath i)) = none := by
        refine cutBack_none fun i hi => ?_
        rcases Nat.lt_or_eq_of_le hi with hlt | rfl
        · rw [if_neg (Nat.ne_of_lt hlt), List.getElem?_eq_getElem hlt]
          exact fun heq => hslash (heq ▸ List.getElem_mem hlt)
        · rw [if_pos rfl]
          decide
      rw [hcopied, Option.map_some, Option.bind_eq_bind, Option.bind_some, kstrlength_eq hnul,
        Option.bind_eq_bind, Option.bind_some, scanBack_eq hlt, hback]
      exact iff_of_false Bool.false_ne_true fun hall => hslash hall.1
  · have hnone : copied 50 parentPath path = none := if_neg (by omega)
    rw [hnone]
    exact iff_of_false Bool.false_ne_true fun hall => hlen hall.2.1

/-! ## All four -/

/-- The call accesses nothing outside its arrays and its strings, and returns an error for an input
that does not fit. -/
def Bounded {α : Type} (call : Option α) (fits : Prop) (error : α → Prop) : Prop :=
  ∃ r, call = some r ∧ (¬ fits → error r)

theorem bounded_iff {α : Type} {call : Option α} {fits : Prop} (h : call.isSome ↔ fits)
    (error : α → Prop) : Bounded call fits error ↔ fits := by
  constructor
  · rintro ⟨r, hcall, -⟩
    exact h.1 (Option.isSome_of_eq_some hcall)
  · intro hfits
    obtain ⟨r, hcall⟩ := Option.isSome_iff_exists.1 (h.2 hfits)
    exact ⟨r, hcall, fun hnot => absurd hfits hnot⟩

/-- Strings from a user program, with the mode of `access`. -/
structure UserStrings where
  path : List UInt8
  mode : Nat
  file : List UInt8
  argv : List (List UInt8)
  envp : List (List UInt8)

/-- There is no NUL before the end. -/
structure UserStrings.Terminated (u : UserStrings) : Prop where
  path : (0 : UInt8) ∉ u.path
  file : (0 : UInt8) ∉ u.file
  argv : ∀ string ∈ u.argv, (0 : UInt8) ∉ string
  envp : ∀ string ∈ u.envp, (0 : UInt8) ∉ string

/-- What the stack holds where the arrays are. -/
structure Stack where
  (subName concatstr filename args envs parentPath nodeToUnlink : Bytes.Memory)

/-- Each of the four calls stays inside its arrays and its strings, and returns an error where an
input does not fit, just if everything fits: none of them looks at a length. -/
theorem user_strings_bounded_iff {u : UserStrings} (hu : u.Terminated) (h : Heap) (root : Tnode)
    (m : Stack) :
    (Bounded (findFile h root m.subName u.path) (FitsFind u.path) (· = none) ↔
      FitsFind u.path) ∧
    (Bounded (sysAccess h root m.concatstr m.subName u.path u.mode) (FitsAccess u.path u.mode)
      (· = -1) ↔ FitsAccess u.path u.mode) ∧
    (Bounded (doExecvpe m.filename m.args m.envs u.file u.argv u.envp)
      (FitsExec u.file u.argv u.envp) (fun _ => False) ↔ FitsExec u.file u.argv u.envp) ∧
    (Bounded (sysUnlink h root m.parentPath m.nodeToUnlink m.subName u.path) (FitsUnlink u.path)
      (·.1 = none) ↔ FitsUnlink u.path) :=
  ⟨bounded_iff (findFile_isSome_iff hu.path h root _) _,
    bounded_iff (sysAccess_isSome_iff hu.path h root _ _) _,
    bounded_iff (doExecvpe_isSome_iff hu.file hu.argv hu.envp _ _ _) _,
    bounded_iff (sysUnlink_isSome_iff hu.path h root _ _ _) _⟩

/-- `/bin/x`, with two arguments and one string in the environment. -/
def sampleStrings : UserStrings :=
  ⟨[47, 98, 105, 110, 47, 120], F_OK, [98, 105, 110, 47, 120], [[97], [98, 99]], [[72, 61, 47]]⟩

/-- A stack that held ones everywhere. -/
def onesStack : Stack :=
  ⟨fun _ => 255, fun _ => 255, fun _ => 255, fun _ => 255, fun _ => 255, fun _ => 255,
    fun _ => 255⟩

theorem user_strings_bounded_sample :
    Bounded (doExecvpe onesStack.filename onesStack.args onesStack.envs sampleStrings.file
      sampleStrings.argv sampleStrings.envp)
      (FitsExec sampleStrings.file sampleStrings.argv sampleStrings.envp) (fun _ => False) := by
  have hterminated : sampleStrings.Terminated :=
    ⟨by decide, by decide, by decide, by decide⟩
  refine (user_strings_bounded_iff hterminated sampleTree ⟨[47], 0, 0⟩ onesStack).2.2.1.2
    ⟨by decide, ⟨by decide, ?_⟩, ?_⟩
  · decide
  · exact ⟨by decide, by decide⟩

/-- A path of 17 bytes does not fit behind `/rootfs/`. -/
theorem not_user_strings_bounded :
    ¬ ∀ (u : UserStrings) (h : Heap) (root : Tnode) (m : Stack), u.Terminated →
      Bounded (findFile h root m.subName u.path) (FitsFind u.path) (· = none) ∧
      Bounded (sysAccess h root m.concatstr m.subName u.path u.mode) (FitsAccess u.path u.mode)
        (· = -1) ∧
      Bounded (doExecvpe m.filename m.args m.envs u.file u.argv u.envp)
        (FitsExec u.file u.argv u.envp) (fun _ => False) ∧
      Bounded (sysUnlink h root m.parentPath m.nodeToUnlink m.subName u.path)
        (FitsUnlink u.path) (·.1 = none) := by
  intro hall
  let u : UserStrings := ⟨List.replicate 17 97, F_OK, [], [], []⟩
  let zeros : Bytes.Memory := fun _ => 0
  obtain ⟨-, haccess, -⟩ := hall u sampleTree ⟨[47], 0, 0⟩
    ⟨zeros, zeros, zeros, zeros, zeros, zeros, zeros⟩
    ⟨by decide, by decide, by decide, by decide⟩
  obtain ⟨r, hcall, -⟩ := haccess
  have hfits := (sysAccess_isSome_iff (by decide) _ _ _ _).1 (Option.isSome_of_eq_some hcall)
  exact absurd hfits.1 (by decide)

end Frame

end Files

end OswpKernel
