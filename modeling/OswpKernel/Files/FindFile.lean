import OswpKernel.Files.LoadTarfs

/-!
# FindFile — the archive walk and `findfile` (`tarfs.c`)

`findfile` goes over the headers of the archive with its own copy of the size decoder and of the
address step.  On a ustar archive both loops over it, this one and the one of `load_tarfs`, come to
the headers of the members in order and stop at the end marker, and `findfile` returns the first
header with the name.
-/

namespace OswpKernel

namespace Files

/-- `kstrcmp`, of strings in arrays of `room₁` and `room₂` characters. -/
def kstrcmp (room₁ : Nat) (string₁ : Nat → UInt8) (room₂ : Nat) (string₂ : Nat → UInt8) :
    Option Int := do
  let length₁ ← kstrlength room₁ string₁
  let length₂ ← kstrlength room₂ string₂
  if length₁ ≠ length₂ then return -1
  if (List.range length₁).any fun i => string₁ i ≠ string₂ i then return -1
  return 0

/-- `getsize`: word for word `get_size` of `fs.c`. -/
def getsize (field : Nat → UInt8) : Word :=
  ((List.range 11).foldl (fun (size, count) k =>
    (size + (digit (field (10 - k)) * count).setWidth 64, count * 8))
    ((0 : Word), (1 : BitVec 32))).1

/-- The step of `findfile` to the next header. -/
def findfileNext (mem : Memory) (address : Word) : Word :=
  let size := getsize (field mem address 124)
  let next := address + (size / 512 + 1) * 512
  if size % 512 ≠ 0 then next + 512 else next

/-- `findfile` from the header at `address` on. -/
def findfile (mem : Memory) (room : Nat) (filename : Nat → UInt8) : Nat → Word → Option Word
  | 0, _ => none
  | fuel + 1, address =>
      if mem address = 0 then some 0
      else do
        let cmp ← kstrcmp 100 (field mem address 0) room filename
        if cmp = 0 then return address
        findfile mem room filename fuel (findfileNext mem address)

/-! ## The walk -/

/-- The step of `load_tarfs` to the next header. -/
def loadTarfsNext (mem : Memory) (address : Word) : Word :=
  nextHeader address (getSize (field mem address 124))

/-- The headers a loop over the archive comes to before the end marker. -/
def walk (mem : Memory) (next : Word → Word) : Nat → Word → Option (List Word)
  | 0, _ => none
  | fuel + 1, address =>
      if mem address = 0 then some []
      else (walk mem next fuel (next address)).map (address :: ·)

/-- The body of the loop of `load_tarfs`, at one header. -/
def loadHeader (mem : Memory) (root : InodeRef) (subName : Word)
    (s : (Nat → Nat → UInt8) × Loader) (address : Word) :
    Option ((Nat → Nat → UInt8) × Loader) := do
  let size := getSize (field mem address 124)
  let name ← characters 100 (field mem address 0)
  let t ← SubName.split ⟨s.1, 0, 0⟩ name
  let L ← s.2.enterComponents t.rows subName size address (List.range (t.k + 1)) root
  return (t.rows, L)

/-- Members whose names end within their 100 bytes, and whose sizes are below 4 GiB. -/
structure Ustar (ms : List Member) : Prop where
  name : ∀ m ∈ ms, m.name ≠ []
  nul : ∀ m ∈ ms, (0 : UInt8) ∉ m.name
  length : ∀ m ∈ ms, m.name.length < 100
  size : ∀ m ∈ ms, m.size < 2 ^ 32

variable {mem : Memory} {address : Word} {m : Member} {ms : List Member} {hs : List Word}
  {room room₁ room₂ fuel : Nat} {filename string₁ string₂ : Nat → UInt8}
  {name name₁ name₂ : List UInt8}

/-! ## Strings and sizes -/

theorem getsize_eq_getSize : getsize = getSize := rfl

theorem findfileNext_eq_loadTarfsNext : findfileNext mem = loadTarfsNext mem := rfl

/-- Both decoders return the number that the digits denote. -/
def Decoded (digits : Nat → UInt8) : Prop :=
  (getsize digits).toNat = octal digits ∧ (getSize digits).toNat = octal digits

/-- The weight of a digit is an `unsigned int`, and so is the product with it: the decoders return
the number as long as the first of the 11 digits is at most `3`. -/
theorem decoded_iff {digits : Nat → UInt8} (h : OctalDigits digits) :
    Decoded digits ↔ digits 0 ≤ 51 := by
  have hrest : octalOf digits 10 < 8 ^ 10 := octalOf_lt h 10
  obtain ⟨hlow, hhigh⟩ := h 0 (by decide)
  have hfirst := (digit_of_octal hlow hhigh).1
  have hnumber : octal digits = octalOf digits 10 + 8 ^ 10 * ((digits 0).toNat - 48) :=
    octalOf_succ digits 10
  have hle : digits 0 ≤ 51 ↔ (digits 0).toNat ≤ 51 := Iff.rfl
  rw [Decoded, getsize_eq_getSize, and_self_iff, getSize_octal h, hle, hnumber]
  change (octalOf digits 10 + 8 ^ 10 * ((digits 0).toNat - 48)) % 2 ^ 32 = _ ↔ _
  have hlow' : 48 ≤ (digits 0).toNat := hlow
  omega

/-- `37777777777`: 4 GiB less one byte. -/
theorem decoded_largest : Decoded fun j => if j = 0 then 51 else 55 :=
  (decoded_iff fun j _ => by split_ifs <;> decide).2 (by decide)

/-- `40000000000`, the size of a member of 4 GiB, is read as 0. -/
theorem not_decoded : ¬ ∀ digits : Nat → UInt8, OctalDigits digits → Decoded digits := by
  intro h
  have hdecoded := h (fun j => if j = 0 then 52 else 48)
    (fun j _ => by dsimp only; split_ifs <;> decide)
  have hzero : (getSize fun j => if j = 0 then 52 else 48).toNat = 0 := by decide
  have hnumber : octal (fun j => if j = 0 then 52 else 48) = 2 ^ 32 := by decide
  rw [Decoded, hzero, hnumber] at hdecoded
  exact absurd hdecoded.2 (by decide)

theorem characters_kstrlength (h : characters room filename = some name) :
    kstrlength room filename = some name.length ∧
      name = (List.range name.length).map filename := by
  rw [characters] at h
  obtain ⟨length, hlength, rfl⟩ := Option.map_eq_some_iff.1 h
  simp [hlength]

/-- `kstrcmp` returns 0 for equal strings only. -/
theorem kstrcmp_eq (h₁ : characters room₁ string₁ = some name₁)
    (h₂ : characters room₂ string₂ = some name₂) :
    kstrcmp room₁ string₁ room₂ string₂ = some (if name₁ = name₂ then 0 else -1) := by
  obtain ⟨hlength₁, hname₁⟩ := characters_kstrlength h₁
  obtain ⟨hlength₂, hname₂⟩ := characters_kstrlength h₂
  rw [kstrcmp, hlength₁, hlength₂]
  simp only [Option.bind_eq_bind, Option.bind_some]
  -- `kstrcmp` compares the lengths first
  by_cases hlength : name₁.length = name₂.length
  · rw [if_neg (not_not.2 hlength)]
    by_cases hdiff : (List.range name₁.length).any fun i => string₁ i ≠ string₂ i
    · -- a character that differs
      have hne : name₁ ≠ name₂ := by
        intro heq
        obtain ⟨i, hi, hchar⟩ := List.any_eq_true.1 hdiff
        have hmaps : (List.range name₁.length).map string₁ =
            (List.range name₁.length).map string₂ := by
          rw [← hname₁, hlength, ← hname₂, heq]
        exact of_decide_eq_true hchar (List.map_inj_left.1 hmaps i hi)
      rw [if_pos hdiff, if_neg hne]
      rfl
    · have heq : name₁ = name₂ := by
        rw [hname₁, hname₂, ← hlength]
        refine List.map_congr_left fun i hi => ?_
        by_contra hchar
        exact hdiff (List.any_eq_true.2 ⟨i, hi, decide_eq_true hchar⟩)
      rw [if_neg hdiff, if_pos heq]
      rfl
  · have hne : name₁ ≠ name₂ := fun heq => hlength (congrArg List.length heq)
    rw [if_pos hlength, if_neg hne]
    rfl

/-! ## What the loops do at the headers they come to -/

/-- A walk ends at the marker, and else goes on with the next header. -/
theorem walk_cases {next : Word → Word} (h : walk mem next (fuel + 1) address = some hs) :
    (mem address = 0 ∧ hs = []) ∨
      (mem address ≠ 0 ∧ ∃ rest, walk mem next fuel (next address) = some rest ∧
        hs = address :: rest) := by
  rw [walk] at h
  by_cases hmarker : mem address = 0
  · rw [if_pos hmarker] at h
    exact Or.inl ⟨hmarker, (Option.some.inj h).symm⟩
  · rw [if_neg hmarker] at h
    obtain ⟨rest, hrest, heq⟩ := Option.map_eq_some_iff.1 h
    exact Or.inr ⟨hmarker, rest, hrest, heq.symm⟩

/-- `findfile` compares the name at one header of the walk after the other. -/
theorem findfile_eq_findM (hwalk : walk mem (findfileNext mem) fuel address = some hs) :
    findfile mem room filename fuel address =
      (hs.findM? fun header => (kstrcmp 100 (field mem header 0) room filename).map (· == 0)).map
        fun found => found.getD 0 := by
  induction fuel generalizing address hs with
  | zero => cases hwalk
  | succ fuel ih =>
      rcases walk_cases hwalk with ⟨hmarker, rfl⟩ | ⟨hmarker, rest, hrest, rfl⟩
      · rw [findfile, if_pos hmarker]
        rfl
      -- at a header the name decides: it is the one, or the loop goes on
      · rw [findfile, if_neg hmarker, List.findM?]
        cases hcmp : kstrcmp 100 (field mem address 0) room filename with
        | none => rfl
        | some cmp =>
            by_cases hzero : cmp = 0
            · simp [hzero]
            · have hne : (cmp == 0) = false := beq_eq_false_iff_ne.2 hzero
              simp only [Option.bind_eq_bind, Option.bind_some, Option.map_some, if_neg hzero, hne]
              exact ih hrest

/-- `load_tarfs` enters the member of one header of the walk after the other. -/
theorem loadTarfs_eq_foldlM (hwalk : walk mem (loadTarfsNext mem) fuel address = some hs)
    (root : InodeRef) (subName : Word) (rows : Nat → Nat → UInt8) (L : Loader) :
    loadTarfs mem root subName fuel address rows L =
      (hs.foldlM (loadHeader mem root subName) (rows, L)).map Prod.snd := by
  induction fuel generalizing address hs rows L with
  | zero => cases hwalk
  | succ fuel ih =>
      rcases walk_cases hwalk with ⟨hmarker, rfl⟩ | ⟨hmarker, rest, hrest, rfl⟩
      · rw [loadTarfs, if_pos hmarker]
        rfl
      · rw [loadTarfs, if_neg hmarker, List.foldlM_cons, loadHeader]
        -- a header fails where its name, its split or the entering of its components does
        cases characters 100 (field mem address 0) with
        | none => rfl
        | some name =>
            cases hsplit : SubName.split ⟨rows, 0, 0⟩ name with
            | none => simp [hsplit]
            | some t =>
                cases henter : L.enterComponents t.rows subName (getSize (field mem address 124))
                    address (List.range (t.k + 1)) root with
                | none => simp [hsplit, henter]
                | some L₁ =>
                    have hloop := ih hrest t.rows L₁
                    rw [loadTarfsNext] at hloop
                    simpa [hsplit, henter] using hloop

/-! ## On an archive -/

/-- Both steps go from header to header, up to the end marker. -/
theorem Archive.walk (h : Archive mem address ms) (hms : Ustar ms) (hfuel : ms.length < fuel) :
    Files.walk mem (loadTarfsNext mem) fuel address = some (ms.map Member.header) := by
  induction h generalizing fuel with
  | marker hmarker =>
      obtain ⟨fuel, rfl⟩ := Nat.exists_eq_succ_of_ne_zero (Nat.ne_of_gt hfuel)
      rw [Files.walk, if_pos hmarker]
      rfl
  | @member m ms hheader _ ih =>
      obtain ⟨fuel, rfl⟩ := Nat.exists_eq_succ_of_ne_zero (Nat.ne_of_gt (Nat.zero_lt_of_lt hfuel))
      have hm : m ∈ m :: ms := List.mem_cons_self
      obtain ⟨hfirst, hsize, -⟩ :=
        hheader.read (hms.name m hm) (hms.nul m hm) (hms.length m hm) (hms.size m hm)
      -- the size in the header leads to the header of the next member
      have hnext : loadTarfsNext mem m.header = m.next := by
        rw [loadTarfsNext, hsize, nextHeader_eq _ (hms.size m hm), Member.next]
      have hrest : Ustar ms :=
        ⟨fun n hn => hms.name n (List.mem_cons_of_mem _ hn),
          fun n hn => hms.nul n (List.mem_cons_of_mem _ hn),
          fun n hn => hms.length n (List.mem_cons_of_mem _ hn),
          fun n hn => hms.size n (List.mem_cons_of_mem _ hn)⟩
      rw [Files.walk, if_neg hfirst, hnext, ih hrest (Nat.lt_of_succ_lt_succ hfuel)]
      rfl

theorem Archive.isHeader (h : Archive mem address ms) (hm : m ∈ ms) : IsHeader mem m := by
  induction h with
  | marker _ => cases hm
  | member hheader _ ih =>
      rcases List.mem_cons.1 hm with rfl | hm
      · exact hheader
      · exact ih hm

/-- Comparing names at the headers of members finds the first member of that name. -/
theorem findM_members (hname : characters room filename = some name)
    (hms : ∀ m ∈ ms, characters 100 (field mem m.header 0) = some m.name) :
    ((ms.map Member.header).findM? fun header =>
        (kstrcmp 100 (field mem header 0) room filename).map (· == 0)) =
      some ((ms.find? fun m => m.name = name).map Member.header) := by
  induction ms with
  | nil => rfl
  | cons m ms ih =>
      have hrest := ih fun n hn => hms n (List.mem_cons_of_mem _ hn)
      rw [List.map_cons, List.findM?, kstrcmp_eq (hms m List.mem_cons_self) hname]
      by_cases heq : m.name = name
      · simp [heq]
      · simp [heq, hrest]

/-- On a ustar archive `findfile` comes to the headers of the members in order and returns the
first one with the name, or 0 without one; the step of `load_tarfs` leads to the same headers, and
`load_tarfs` enters these. -/
theorem findfile_archive (harchive : Archive mem address ms) (hms : Ustar ms)
    (hname : characters room filename = some name) (hfuel : ms.length < fuel) :
    findfile mem room filename fuel address =
        some (((ms.find? fun m => m.name = name).map Member.header).getD 0) ∧
      walk mem (findfileNext mem) fuel address = some (ms.map Member.header) ∧
      walk mem (loadTarfsNext mem) fuel address = some (ms.map Member.header) ∧
      ∀ root subName rows L, loadTarfs mem root subName fuel address rows L =
        ((ms.map Member.header).foldlM (loadHeader mem root subName) (rows, L)).map Prod.snd := by
  have hwalk := harchive.walk hms hfuel
  have hchars : ∀ m ∈ ms, characters 100 (field mem m.header 0) = some m.name := fun m hm =>
    ((harchive.isHeader hm).read (hms.name m hm) (hms.nul m hm) (hms.length m hm)
      (hms.size m hm)).2.2
  refine ⟨?_, hwalk, hwalk, loadTarfs_eq_foldlM hwalk⟩
  rw [findfile_eq_findM hwalk, findM_members hname hchars]
  rfl

/-- `bin/sh` is at the second header. -/
theorem findfile_bin :
    findfile binArchive 20 (fun i => [98, 105, 110, 47, 115, 104].getD i 0) 3 0 = some 512 := by
  have hms : Ustar binMembers := ⟨by decide, by decide, by decide, by decide⟩
  have hname : characters 20 (fun i => [98, 105, 110, 47, 115, 104].getD i 0) =
      some [98, 105, 110, 47, 115, 104] := by decide +kernel
  exact (findfile_archive binArchive_archive hms hname (by decide)).1

end Files

end OswpKernel
