import OswpKernel.Files.DirArray
import OswpKernel.Files.Lookup

/-!
# CloseDir — how far `do_closedir` goes

The loop of `do_closedir` knows neither the number of entries nor the size of the block: it goes on
until it comes to an empty name.  `closes_own_iff` says for which heaps it stays inside the array.
-/

namespace OswpKernel

namespace Files

open Caller

/-- Only the `n` entries at `dirp` and one slot are written. -/
def ClosesOwn (s : Caller) (dirp n : Nat) (result : Option (BitVec 32 × Caller)) : Prop :=
  ∃ r slot heap, result = some (r, { s with files := s.files.setSlot slot none, heap }) ∧
    s.heap.Writes heap dirp (dirp + 48 * n)

/-- The array is as it was but for the marks of `do_readdir`; all else may have changed. -/
def KeepsArray (dirp n : Nat) (heap heap' : LocalArray) : Prop :=
  ∀ i, i < n → ∀ e, DirentAt heap (dirp + 48 * i) e →
    ∃ dNo, DirentAt heap' (dirp + 48 * i) { e with dNo }

variable {heap heap' : LocalArray} {start fuel m n dirp dirptr : Nat} {s s₁ s₂ : Caller}
  {slot : Fin 25} {item : Tnode} {subName : Bytes.Memory} {dirname : List UInt8} {e : Dirent}

/-! ## One entry -/

theorem clearEntry_writes (h : clearEntry start heap = some heap') :
    heap.Writes heap' start (start + 36) := by
  obtain ⟨heap₁, hfill, h⟩ := Option.bind_eq_some_iff.1 h
  obtain ⟨heap₂, hdNo, hfd⟩ := Option.bind_eq_some_iff.1 h
  have hwrites := LocalArray.fill_writes hfill
  rw [List.length_replicate] at hwrites
  have hwrites₂ := (LocalArray.putInt_writes hdNo).mono (Nat.le_add_right start 28) le_rfl
  have hwrites₃ := (LocalArray.putInt_writes hfd).mono (Nat.le_add_right start 32) le_rfl
  exact ((hwrites.mono le_rfl (by omega)).trans (hwrites₂.mono le_rfl (by omega))).trans hwrites₃

theorem clearEntry_isSome (h : start + 36 ≤ heap.size) :
    ∃ heap', clearEntry start heap = some heap' := by
  have hroom : start + (List.replicate 26 (0 : UInt8)).length ≤ heap.size := by
    rw [List.length_replicate]
    omega
  apply Option.isSome_iff_exists.1
  rw [clearEntry, LocalArray.fill_eq hroom, Option.bind_eq_bind, Option.bind_some,
    LocalArray.putInt_eq, Option.bind_some, LocalArray.putInt_eq]
  · rfl
  · exact h
  · change start + 28 + 4 ≤ heap.size
    omega

/-- The name is empty then. -/
theorem clearEntry_nul (h : clearEntry start heap = some heap') : heap'.byte start = 0 := by
  obtain ⟨heap₁, hfill, h⟩ := Option.bind_eq_some_iff.1 h
  obtain ⟨heap₂, hdNo, hfd⟩ := Option.bind_eq_some_iff.1 h
  have hnul : heap₁.byte (start + 0) = 0 := LocalArray.fill_holds hfill 0 (by decide)
  rw [(LocalArray.putInt_writes hfd).below start (by omega),
    (LocalArray.putInt_writes hdNo).below start (by omega)]
  exact hnul

/-! ## The loop -/

theorem string_nonempty_iff {name : List UInt8} (h : heap.string start = some name) :
    0 < name.length ↔ heap.get start ≠ some 0 := by
  obtain ⟨hname, hroom⟩ := LocalArray.string_some h
  rw [LocalArray.get_eq (Nat.lt_of_le_of_lt (Nat.le_add_right start name.length) hroom), ne_eq,
    Option.some_inj]
  constructor
  · intro hlen
    have hchar := hname.char_ne_zero hlen
    rwa [Nat.add_zero] at hchar
  · intro hne
    by_contra hempty
    have hend := hname.terminator
    rw [Nat.eq_zero_of_not_pos hempty, Nat.add_zero] at hend
    exact hne hend

/-- A string ends if there is a zero further on. -/
theorem string_of_get {x : Nat} (hx : start ≤ x) (hnul : heap.get x = some 0) :
    ∃ name, heap.string start = some name := by
  obtain ⟨hin, hbyte⟩ := LocalArray.get_eq_some_iff.1 hnul
  exact Option.isSome_iff_exists.1 (LocalArray.string_isSome hx hin hbyte)

theorem clearEntries_nul (hnul : heap.get start = some 0) :
    clearEntries (fuel + 1) start heap = some heap := by
  obtain ⟨name, hname⟩ := string_of_get le_rfl hnul
  have hempty : ¬ 0 < name.length := fun hlen => (string_nonempty_iff hname).1 hlen hnul
  rw [clearEntries, hname, Option.bind_eq_bind, Option.bind_some, if_neg hempty]
  rfl

/-- An entry with a name is cleared if the name ends somewhere. -/
theorem clearEntries_next {x : Nat} (hx : start ≤ x) (hnul : heap.get x = some 0)
    (hne : heap.get start ≠ some 0) :
    clearEntries (fuel + 1) start heap =
      (clearEntry start heap).bind fun heap => clearEntries fuel (start + 48) heap := by
  obtain ⟨name, hname⟩ := string_of_get hx hnul
  rw [clearEntries, hname, Option.bind_eq_bind, Option.bind_some,
    if_pos ((string_nonempty_iff hname).2 hne)]
  rfl

/-- What the loop has done when it comes back, after one turn. -/
theorem clearEntries_some (h : clearEntries (fuel + 1) start heap = some heap') :
    (heap.get start = some 0 ∧ heap' = heap) ∨
      (start < heap.size ∧ ∃ heap₁, clearEntry start heap = some heap₁ ∧
        clearEntries fuel (start + 48) heap₁ = some heap') := by
  obtain ⟨name, hname, h⟩ := Option.bind_eq_some_iff.1 h
  have hin : start < heap.size :=
    Nat.lt_of_le_of_lt (Nat.le_add_right _ _) (LocalArray.string_some hname).2
  by_cases hlen : 0 < name.length
  · rw [if_pos hlen] at h
    exact Or.inr ⟨hin, Option.bind_eq_some_iff.1 h⟩
  · rw [if_neg hlen] at h
    refine Or.inl ⟨?_, (Option.some_inj.1 h).symm⟩
    by_contra hne
    exact hlen ((string_nonempty_iff hname).2 hne)

/-- The loop does not write below where it is. -/
theorem clearEntries_below (h : clearEntries fuel start heap = some heap') :
    ∀ x, x < start → heap'.byte x = heap.byte x := by
  induction fuel generalizing start heap with
  | zero => cases h
  | succ fuel ih =>
      intro x hx
      rcases clearEntries_some h with ⟨-, rfl⟩ | ⟨-, heap₁, hclear, hrest⟩
      · rfl
      · rw [ih hrest x (by omega), (clearEntry_writes hclear).below x hx]

/-- An empty name ends it. -/
theorem clearEntries_stops (hnul : heap.get (start + 48 * m) = some 0) (hfuel : m < fuel) :
    ∃ heap', clearEntries fuel start heap = some heap' ∧
      heap.Writes heap' start (start + 48 * m) := by
  induction m generalizing fuel start heap with
  | zero =>
      obtain ⟨fuel, rfl⟩ := Nat.exists_eq_succ_of_ne_zero hfuel.ne'
      exact ⟨heap, clearEntries_nul hnul, .refl heap _ _⟩
  | succ m ih =>
      obtain ⟨fuel, rfl⟩ := Nat.exists_eq_succ_of_ne_zero (Nat.ne_zero_of_lt hfuel)
      have hbehind : start + 48 * (m + 1) = start + 48 + 48 * m := by omega
      have hin := (LocalArray.get_eq_some_iff.1 hnul).1
      by_cases hempty : heap.get start = some 0
      · exact ⟨heap, clearEntries_nul hempty, .refl heap _ _⟩
      · obtain ⟨heap₁, hclear⟩ := clearEntry_isSome (show start + 36 ≤ heap.size by omega)
        have hwrites₁ := clearEntry_writes hclear
        -- clearing an entry does not reach the empty name further on
        rw [hbehind] at hnul
        have hnul₁ : heap₁.get (start + 48 + 48 * m) = some 0 := by
          rw [hwrites₁.get_above (by omega)]
          exact hnul
        obtain ⟨heap', hrest, hwrites'⟩ := ih hnul₁ (Nat.lt_of_succ_lt_succ hfuel)
        refine ⟨heap', ?_, ?_⟩
        · rw [clearEntries_next (by omega) hnul hempty, hclear, Option.bind_some, hrest]
        · rw [hbehind]
          exact (hwrites₁.mono le_rfl (by omega)).trans (hwrites'.mono (by omega) le_rfl)

/-- Without one up to the entry `n`, that entry is cleared as well. -/
theorem clearEntries_passes (hnames : ∀ i, i ≤ n → heap.get (start + 48 * i) ≠ some 0)
    (h : clearEntries fuel start heap = some heap') :
    start + 48 * n < heap.size ∧ heap'.byte (start + 48 * n) = 0 := by
  induction fuel generalizing n start heap with
  | zero => cases h
  | succ fuel ih =>
      rcases clearEntries_some h with ⟨hnul, -⟩ | ⟨hin, heap₁, hclear, hrest⟩
      · exact absurd hnul (hnames 0 (Nat.zero_le _))
      · have hwrites := clearEntry_writes hclear
        cases n with
        | zero =>
            refine ⟨hin, ?_⟩
            rw [Nat.mul_zero, Nat.add_zero, clearEntries_below hrest start (by omega)]
            exact clearEntry_nul hclear
        | succ n =>
            have hbehind : ∀ i, start + 48 * (i + 1) = start + 48 + 48 * i := fun i => by omega
            -- the names behind the entry are what they were before it was cleared
            rw [hbehind, ← hwrites.size]
            refine ih (fun i hi => ?_) hrest
            rw [← hbehind, hwrites.get_above (by omega)]
            exact hnames (i + 1) (Nat.succ_le_succ hi)

/-- With the size of the heap as fuel, the loop comes back if there is one in the heap at all. -/
theorem clearEntries_isSome_iff :
    (clearEntries heap.size start heap).isSome ↔ ∃ i, heap.get (start + 48 * i) = some 0 := by
  constructor
  · intro h
    obtain ⟨heap', hclear⟩ := Option.isSome_iff_exists.1 h
    by_contra hnone
    have hnames : ∀ i, i ≤ heap.size → heap.get (start + 48 * i) ≠ some 0 :=
      fun i _ hnul => hnone ⟨i, hnul⟩
    obtain ⟨hin, -⟩ := clearEntries_passes hnames hclear
    omega
  · rintro ⟨i, hnul⟩
    have hin := (LocalArray.get_eq_some_iff.1 hnul).1
    obtain ⟨heap', hclear, -⟩ := clearEntries_stops hnul (show i < heap.size by omega)
    exact Option.isSome_of_eq_some hclear

/-! ## `do_closedir` -/

theorem find_slot (slot : Fin 25) :
    ((List.finRange 25).find? fun i : Fin 25 => BitVec.ofNat 32 i = BitVec.ofNat 32 slot) =
      some slot := by
  revert slot
  decide

/-- With the descriptor of a slot in the first entry, the slot is emptied, and the loop runs. -/
theorem doClosedir_eq (hfd : s.heap.getInt (dirp + 32) = some (BitVec.ofNat 32 slot)) :
    s.doClosedir dirp = (clearEntries s.heap.size dirp s.heap).map fun heap =>
      (0, { s with files := s.files.setSlot slot none, heap }) := by
  rw [Caller.doClosedir, hfd, Option.bind_eq_bind, Option.bind_some]
  simp only [find_slot]
  exact Option.map_eq_bind.symm

/-- The loop stays inside the first `n` entries just if there is an empty name among them or right
behind them. -/
theorem closesOwn_iff
    (hfd : s.heap.getInt (dirp + 32) = some (BitVec.ofNat 32 slot)) :
    ClosesOwn s dirp n (s.doClosedir dirp) ↔
      ∃ i, i ≤ n ∧ s.heap.get (dirp + 48 * i) = some 0 := by
  rw [doClosedir_eq hfd]
  constructor
  · rintro ⟨r, slot', heap, hclose, hwrites⟩
    obtain ⟨heap', hclear, heq⟩ := Option.map_eq_some_iff.1 hclose
    have hheap : heap' = heap := congrArg Caller.heap (Prod.mk.inj heq).2
    subst hheap
    by_contra hnone
    have hnames : ∀ i, i ≤ n → s.heap.get (dirp + 48 * i) ≠ some 0 :=
      fun i hi hnul => hnone ⟨i, hi, hnul⟩
    obtain ⟨hin, hcleared⟩ := clearEntries_passes hnames hclear
    -- the first byte behind the array was not zero and is now
    rw [hwrites.above _ le_rfl] at hcleared
    exact hnames n le_rfl (LocalArray.get_eq_some_iff.2 ⟨hin, hcleared⟩)
  · rintro ⟨i, hi, hnul⟩
    have hin := (LocalArray.get_eq_some_iff.1 hnul).1
    obtain ⟨heap, hclear, hwrites⟩ := clearEntries_stops hnul (show i < s.heap.size by omega)
    refine ⟨0, slot, heap, ?_, hwrites.mono le_rfl (by omega)⟩
    rw [hclear, Option.map_some]

theorem DirentAt.get_eq_iff (h : DirentAt heap start e) :
    heap.get start = some 0 ↔ e.dName = [] := by
  have hname := string_nonempty_iff h.string
  rw [← List.length_eq_zero_iff]
  exact not_iff_not.1 (hname.symm.trans Nat.pos_iff_ne_zero)

/-- An array that has been kept has the descriptor and the names of `do_opendir`. -/
theorem OpenedDir.kept (h : OpenedDir s item slot dirptr s₁)
    (hkept : KeepsArray dirptr (s.files.totalfiles item) s₁.heap s₂.heap) {i : Nat}
    (hi : i < s.files.totalfiles item) :
    ∃ e, (s.files.dirNames item)[i]? = some e.dName ∧ e.fd = BitVec.ofNat 32 slot ∧
      DirentAt s₂.heap (dirptr + 48 * i) e := by
  have hlength := length_dirEntries s.files (BitVec.ofNat 32 slot) item
  have hentry := List.getElem?_eq_getElem (hi.trans_eq hlength.symm)
  obtain ⟨dNo, hat⟩ := hkept i hi _ (h.entries i _ hentry)
  have hfd := (dirEntries_fields (List.mem_of_getElem? hentry)).1
  refine ⟨{ (s.files.dirEntries (BitVec.ofNat 32 slot) item)[i] with dNo }, ?_, hfd, hat⟩
  rw [← map_dName_dirEntries s.files (BitVec.ofNat 32 slot), List.getElem?_map, hentry]
  rfl

/-- `do_closedir` on an array that `do_opendir` has made, with any heap around it by then, writes
nothing else just if one of the entries has an empty name or the byte behind them is zero. -/
theorem closes_own_iff (hstrings : Strings s.files)
    (hfind : Frame.findFile s.files.heap s.files.filefsRoot subName dirname = some (some item))
    (hopen : s.doOpendir subName dirname = some (dirptr, s₁)) (hn : 0 < s.files.totalfiles item)
    (hkept : KeepsArray dirptr (s.files.totalfiles item) s₁.heap s₂.heap) :
    ClosesOwn s₂ dirptr (s.files.totalfiles item) (s₂.doClosedir dirptr) ↔
      [] ∈ s.files.dirNames item ∨
        s₂.heap.get (dirptr + 48 * s.files.totalfiles item) = some 0 := by
  obtain ⟨slot, -, -, -, hopened⟩ := openedDir_of_doOpendir hstrings hfind hopen
  obtain ⟨first, -, hfd, hfirst⟩ := hopened.kept hkept hn
  -- the loop ends at the first name that is empty, which is to be one of the array or the byte
  -- behind it
  rw [closesOwn_iff (hfd ▸ hfirst.getFd)]
  constructor
  · rintro ⟨i, hi, hnul⟩
    rcases Nat.lt_or_eq_of_le hi with hlt | rfl
    · obtain ⟨e, hname, -, hat⟩ := hopened.kept hkept hlt
      rw [hat.get_eq_iff.1 hnul] at hname
      exact Or.inl (List.mem_of_getElem? hname)
    · exact Or.inr hnul
  · rintro (hempty | hnul)
    · obtain ⟨i, hname⟩ := List.getElem?_of_mem hempty
      have hi : i < s.files.totalfiles item := by
        have hlt := (List.getElem?_eq_some_iff.1 hname).1
        rwa [FileSystem.dirNames, List.length_map, length_dirEntries] at hlt
      obtain ⟨e, hname', -, hat⟩ := hopened.kept hkept hi
      rw [hname] at hname'
      exact ⟨i, hi.le, hat.get_eq_iff.2 (Option.some_inj.1 hname').symm⟩
    · exact ⟨_, le_rfl, hnul⟩

/-- A directory with one file, and a heap of bytes `c` from whose end one block has been taken. -/
def dirCaller (c : UInt8) : Caller where
  files := { emptyFileSystem with heap := sampleTree }
  arena := { header := fun _ => ⟨none, 251⟩, freelist := 0 }
  heap := ⟨4096, fun _ => c⟩

theorem strings_dirCaller (c : UInt8) : Strings (dirCaller c).files := by
  refine ⟨?_, ?_, fun _ => List.not_mem_nil⟩
  · rintro (_ | _ | x) node hnode
    · obtain rfl := List.mem_singleton.1 hnode
      decide
    · cases hnode
    · cases hnode
  · rintro (_ | _ | x) node hnode
    · cases hnode
    · obtain rfl := List.mem_singleton.1 hnode
      decide
    · cases hnode

/-- `"/b/"`. -/
theorem findFile_dirCaller (c : UInt8) :
    Frame.findFile (dirCaller c).files.heap (dirCaller c).files.filefsRoot (fun _ => 0)
      [47, 98, 47] = some (some ⟨[98, 47], 0, 1⟩) := by
  rfl

theorem keepsArray_refl (dirp n : Nat) (heap : LocalArray) : KeepsArray dirp n heap heap :=
  fun _ _ e he => ⟨e.dNo, he⟩

/-- On a heap of zeros it does stay inside. -/
theorem closes_own_dirCaller : ∃ s₁,
    (dirCaller 0).doOpendir (fun _ => 0) [47, 98, 47] = some (3968, s₁) ∧
      (ClosesOwn s₁ 3968 1 (s₁.doClosedir 3968) ↔
        [] ∈ (dirCaller 0).files.dirNames ⟨[98, 47], 0, 1⟩ ∨ s₁.heap.get 4016 = some 0) ∧
      ClosesOwn s₁ 3968 1 (s₁.doClosedir 3968) := by
  have hopen : ((dirCaller 0).doOpendir (fun _ => 0) [47, 98, 47]).map (fun r =>
      (r.1, r.2.heap.get 4016)) = some (3968, some 0) := by decide +kernel
  obtain ⟨⟨dirptr, s₁⟩, hopen, heq⟩ := Option.map_eq_some_iff.1 hopen
  obtain ⟨rfl, hbehind⟩ := Prod.mk.inj heq
  have hcloses := closes_own_iff (strings_dirCaller 0) (findFile_dirCaller 0) hopen (by decide)
    (keepsArray_refl _ _ _)
  exact ⟨s₁, hopen, hcloses, hcloses.2 (Or.inr hbehind)⟩

/-- With data behind the array, `do_closedir` clears 26 bytes of it and writes two integers. -/
theorem not_closes_own : ∃ s₁,
    (dirCaller 7).doOpendir (fun _ => 0) [47, 98, 47] = some (3968, s₁) ∧
      0 < (dirCaller 7).files.totalfiles ⟨[98, 47], 0, 1⟩ ∧
      ¬ ClosesOwn s₁ 3968 ((dirCaller 7).files.totalfiles ⟨[98, 47], 0, 1⟩)
        (s₁.doClosedir 3968) := by
  have hopen : ((dirCaller 7).doOpendir (fun _ => 0) [47, 98, 47]).map
      (fun r => (r.1, r.2.heap.getInt 4000, r.2.heap.get 3968, r.2.heap.get 4016)) =
      some (3968, some 0, some 120, some 7) := by decide +kernel
  obtain ⟨⟨dirptr, s₁⟩, hopen, heq⟩ := Option.map_eq_some_iff.1 hopen
  simp only [Prod.mk.injEq] at heq
  obtain ⟨rfl, hfd, hname, hbehind⟩ := heq
  refine ⟨s₁, hopen, by decide, fun h => ?_⟩
  have hslot : s₁.heap.getInt (3968 + 32) = some (BitVec.ofNat 32 (0 : Fin 25)) := hfd
  obtain ⟨i, hi, hnul⟩ := (closesOwn_iff hslot).1 h
  have hi' : i ≤ 1 := hi
  interval_cases i
  · exact absurd (hname.symm.trans hnul) (by decide)
  · exact absurd (hbehind.symm.trans hnul) (by decide)

end Files

end OswpKernel
