import OswpKernel.Allocator.Refinement
import OswpKernel.Files.Block
import OswpKernel.Files.Proc
import Mathlib.Data.List.DropRight

/-!
# Unlink — `sys_unlink` (`process.c`)

`sys_unlink` cuts the path at its last `/`, looks the directory up, and moves the entries behind
the one of that name down.  There is no test whether an entry has been found: without one the last
entry is dropped and `kfree` is called with NULL.  `sysUnlink_iff` says for which paths the call
removes the named entry, or fails without doing anything.
-/

namespace OswpKernel

namespace Files

open Allocator

/-! ## The call -/

/-- The tree, its root, and the pages. -/
structure Store where
  heap : Heap
  filefsRoot : Tnode
  alloc : Allocator

/-- `kstrcopy` into an array of `room` characters. -/
def copied (room : Nat) (array : Nat → UInt8) (string : List UInt8) : Option (Nat → UInt8) :=
  if string.length < room then
    some fun i => if i = string.length then 0 else (string[i]?).getD (array i)
  else none

/-- `for (j = kstrlength(pathname); parent_path[j] != '/'; j--) parent_path[j] = '\0';`. -/
def cutBack : Nat → (Nat → UInt8) → Option (Nat × (Nat → UInt8))
  | 0, parentPath => if parentPath 0 = slash then some (0, parentPath) else none
  | j + 1, parentPath =>
      if parentPath (j + 1) = slash then some (j + 1, parentPath)
      else cutBack j (Function.update parentPath (j + 1) 0)

namespace Store

variable (s : Store)

/-- From the search in the directory on.  With no entry the `memset` goes through NULL, or the
count becomes -1; behind a full page it leaves the array. -/
def removeEntry (dir : InodeRef) (nodeToUnlink : List UInt8) : Option (BitVec 32 × Store) := do
  let entries := (s.heap.inodes dir).subFilesList
  let i := entries.findIdx fun entry => entry.name = nodeToUnlink
  let killproci := (entries[i]?).elim 0 fun killproc => pageAddress killproc.linkToInode
  if entries = [] ∨ Heap.maxEntries ≤ max i (entries.length - 1) then none
  else
    let alloc ← s.alloc.kfree killproci
    return (0, { s with
      heap := s.heap.setInode dir { s.heap.inodes dir with
        subFilesList := (entries.eraseIdx i).take (entries.length - 1) }
      alloc := alloc })

/-- `sys_unlink`; `array` and `subName` are what the stack held. -/
def sysUnlink (array : Nat → UInt8) (subName : Bytes.Memory) (pathname : List UInt8) :
    Option (BitVec 32 × Store) := do
  let parentPath ← copied 50 array pathname
  let (j, parentPath) ← cutBack pathname.length parentPath
  let nodeToUnlink ← terminated 10 (pathname.drop (j + 1))
  let parent ← characters 50 parentPath
  match ← Frame.findFile s.heap s.filefsRoot subName parent with
  | none => return (-1, s)
  | some parentNode => s.removeEntry parentNode.linkToInode nodeToUnlink

end Store

/-! ## What it is for -/

/-- The directory part of a path, with its `/`. -/
def parentOf (path : List UInt8) : List UInt8 := path.rdropWhile (· ≠ slash)

/-- The part behind the last `/`. -/
def nameOf (path : List UInt8) : List UInt8 := path.rtakeWhile (· ≠ slash)

/-- The path leads to an entry of this directory, if there is one of the name. -/
def IsParent (s : Store) (path : List UInt8) (dir : Tnode) : Prop :=
  Leads s.heap s.filefsRoot (components (parentOf path)).tail dir

def HasEntry (s : Store) (path : List UInt8) (dir entry : Tnode) : Prop :=
  IsParent s path dir ∧ entry ∈ (s.heap.inodes dir.linkToInode).subFilesList ∧
    entry.name = nameOf path

/-- The store without the entry, whose inode is freed. -/
def Removed (s s' : Store) (path : List UInt8) (dir entry : Tnode) : Prop :=
  s'.filefsRoot = s.filefsRoot ∧
  s'.heap = s.heap.setInode dir.linkToInode { s.heap.inodes dir.linkToInode with
    subFilesList := (s.heap.inodes dir.linkToInode).subFilesList.filter
      fun other => other.name ≠ nameOf path } ∧
  s.alloc.kfree (pageAddress entry.linkToInode) = some s'.alloc

/-- The named entry is removed and 0 returned; without one, -1 is returned and nothing changes. -/
def Unlinks (s : Store) (path : List UInt8) (result : Option (BitVec 32 × Store)) : Prop :=
  (∀ dir entry, HasEntry s path dir entry →
    ∃ s', result = some (0, s') ∧ Removed s s' path dir entry) ∧
  ((∀ dir entry, ¬ HasEntry s path dir entry) → result = some (-1, s))

variable {s : Store} {path name front : List UInt8} {dir entry : Tnode} {array : Nat → UInt8}
  {subName : Bytes.Memory} {chain : List NodeRef} {r : SlotRing Word}

/-! ## The path -/

/-- A path with a `/`, cut at the last one. -/
structure CutAt (path front name : List UInt8) : Prop where
  eq : path = front ++ slash :: name
  noSlash : slash ∉ name
  parent : parentOf path = front ++ [slash]

theorem exists_cutAt (hmem : slash ∈ path) : ∃ front, CutAt path front (nameOf path) := by
  have hsplit : parentOf path ++ nameOf path = path := List.rdropWhile_append_rtakeWhile ..
  have hname : slash ∉ nameOf path := by
    intro hslash
    have hne := List.mem_rtakeWhile_imp hslash
    exact absurd rfl (of_decide_eq_true hne)
  rcases List.eq_nil_or_concat (parentOf path) with hnil | ⟨front, c, hparent⟩
  · rw [hnil, List.nil_append] at hsplit
    refine absurd ?_ hname
    rw [hsplit]
    exact hmem
  · -- what is not dropped ends in a `/`
    have hne : parentOf path ≠ [] := by
      rw [hparent, List.concat_eq_append]
      exact List.concat_ne_nil c front
    have hlast := List.rdropWhile_last_not (fun c => decide (c ≠ slash)) path hne
    have hc : c = slash := by
      have hget : (parentOf path).getLast hne = c := by
        simp only [hparent, List.concat_eq_append, List.getLast_append_singleton]
      change ¬ decide ((parentOf path).getLast hne ≠ slash) = true at hlast
      rw [hget] at hlast
      simpa using hlast
    rw [List.concat_eq_append, hc] at hparent
    refine ⟨front, ?_, hname, hparent⟩
    rw [hparent, List.append_assoc] at hsplit
    exact hsplit.symm

/-- The loop stops at the last `/` and has put NULs behind it. -/
theorem cutBack_eq {p n : Nat} {buffer : Nat → UInt8} (hslash : buffer p = slash)
    (hother : ∀ i, p < i → i ≤ p + n → buffer i ≠ slash) :
    cutBack (p + n) buffer = some (p, fun i => if p < i ∧ i ≤ p + n then 0 else buffer i) := by
  induction n generalizing buffer with
  | zero =>
      have hsame : (fun i => if p < i ∧ i ≤ p + 0 then 0 else buffer i) = buffer := by
        funext i
        exact if_neg fun h => absurd h.2 (Nat.not_le.2 h.1)
      rw [hsame]
      cases p with
      | zero => rw [cutBack, if_pos hslash]
      | succ p => rw [Nat.add_zero, cutBack, if_pos hslash]
  | succ n ih =>
      -- the last character is no `/`, so that it becomes a NUL and the loop goes on in front of it
      have hlast : buffer (p + n + 1) ≠ slash := hother _ (by omega) le_rfl
      have hkeep : ∀ i, i ≤ p + n → Function.update buffer (p + n + 1) 0 i = buffer i :=
        fun i hi => Function.update_of_ne (by omega) ..
      rw [← Nat.add_assoc, cutBack, if_neg hlast,
        ih (by rw [hkeep p (Nat.le_add_right p n), hslash]) fun i hi hle => by
          rw [hkeep i hle]
          exact hother i hi (by omega)]
      congr 2
      funext i
      by_cases hi : i = p + n + 1
      · rw [hi, if_neg (by omega), Function.update_self, if_pos (by omega)]
      · rw [Function.update_of_ne hi]
        exact if_congr (by omega) rfl rfl

/-- Without a `/` the loop leaves the array. -/
theorem cutBack_none {j : Nat} {buffer : Nat → UInt8} (h : ∀ i, i ≤ j → buffer i ≠ slash) :
    cutBack j buffer = none := by
  induction j generalizing buffer with
  | zero => exact if_neg (h 0 le_rfl)
  | succ j ih =>
      rw [cutBack, if_neg (h (j + 1) le_rfl)]
      refine ih fun i hi => ?_
      rw [Function.update_of_ne (Nat.ne_of_lt (Nat.lt_succ_of_le hi))]
      exact h i (Nat.le_succ_of_le hi)

/-- The part of the path that is looked up, and the place of the last `/`. -/
theorem CutAt.cutBack (h : CutAt path front name) (hnul : (0 : UInt8) ∉ path)
    (hlen : path.length < 50) (array : Nat → UInt8) :
    ∃ buffer buffer', copied 50 array path = some buffer ∧
      Files.cutBack path.length buffer = some (front.length, buffer') ∧
      characters 50 buffer' = some (parentOf path) := by
  have hlength : path.length = front.length + (name.length + 1) := by
    rw [h.eq, List.length_append, List.length_cons]
  have hparent : (parentOf path).length = front.length + 1 := by
    rw [h.parent, List.length_append, List.length_singleton]
  have hget : ∀ i (hi : i < path.length),
      (if i = path.length then 0 else (path[i]?).getD (array i)) = path[i] := by
    intro i hi
    rw [if_neg (Nat.ne_of_lt hi), List.getElem?_eq_getElem hi]
    rfl
  have hat : path[front.length]? = some slash := by
    rw [h.eq, List.getElem?_append_right le_rfl, Nat.sub_self]
    rfl
  let buffer : Nat → UInt8 := fun i => if i = path.length then 0 else (path[i]?).getD (array i)
  have hcut : Files.cutBack (front.length + (name.length + 1)) buffer = _ := cutBack_eq
    (by
      change (if front.length = path.length then 0 else _) = slash
      rw [if_neg (by omega), hat]
      rfl)
    (fun i hi hle => by
      change (if i = path.length then 0 else _) ≠ slash
      by_cases hend : i = path.length
      · rw [if_pos hend]
        decide
      · have hlt : i < path.length := by omega
        rw [hget i hlt]
        -- behind the last `/` there is no other
        intro hslash
        apply h.noSlash
        have hi' : front.length ≤ i := Nat.le_of_lt hi
        obtain ⟨k, rfl⟩ := Nat.exists_eq_add_of_lt hi
        have hmem : path[front.length + k + 1]? = name[k]? := by
          rw [h.eq, List.getElem?_append_right (by omega)]
          have hsub : front.length + k + 1 - front.length = k + 1 := by omega
          rw [hsub, List.getElem?_cons_succ]
        rw [List.getElem?_eq_getElem hlt, hslash] at hmem
        exact List.mem_of_getElem? hmem.symm)
  rw [← hlength] at hcut
  refine ⟨_, _, if_pos hlen, hcut, ?_⟩
  have hpre : parentOf path <+: path := List.rdropWhile_prefix _ _
  refine characters_eq ?_ (fun hmem => hnul (hpre.subset hmem)) ?_ (by omega)
  · apply List.ext_getElem
    · rw [List.length_map, List.length_range]
    · intro i hi hi'
      rw [List.getElem_map, List.getElem_range, if_neg (by omega)]
      exact (hget i (by omega)).trans (hpre.getElem hi').symm
  · rw [hparent, if_pos (by omega)]

/-! ## The entry -/

/-- With distinct names the first entry of a name is the only one. -/
theorem eraseIdx_findIdx_eq_filter {entries : List Tnode}
    (hnodup : (entries.map Tnode.name).Nodup) (name : List UInt8) :
    entries.eraseIdx (entries.findIdx fun entry => entry.name = name) =
      entries.filter fun entry => entry.name ≠ name := by
  induction entries with
  | nil => rfl
  | cons entry entries ih =>
      rw [List.map_cons, List.nodup_cons] at hnodup
      by_cases hentry : entry.name = name
      · -- no other entry has the name, so that the filter keeps all of them
        have hrest : ∀ other ∈ entries, decide (other.name ≠ name) = true := by
          intro other hother
          refine decide_eq_true fun heq => hnodup.1 ?_
          rw [hentry, ← heq]
          exact List.mem_map_of_mem hother
        rw [List.findIdx_cons, List.filter_cons_of_neg (by simp [hentry]),
          List.filter_eq_self.2 hrest]
        simp [hentry]
      · rw [List.findIdx_cons, List.filter_cons_of_pos (by simp [hentry]), ← ih hnodup.2]
        simp [hentry]

theorem getElem?_findIdx_eq {entries : List Tnode} (hnodup : (entries.map Tnode.name).Nodup)
    (hmem : entry ∈ entries) :
    entries[entries.findIdx fun other => other.name = entry.name]? = some entry := by
  have hlt : entries.findIdx (fun other => other.name = entry.name) < entries.length :=
    List.findIdx_lt_length.2 ⟨entry, hmem, decide_eq_true rfl⟩
  have hname := of_decide_eq_true (List.findIdx_getElem (w := hlt))
  rw [List.getElem?_eq_getElem hlt,
    List.inj_on_of_nodup_map hnodup (List.getElem_mem hlt) hmem hname]

/-- The entry is found, and the inode behind it freed. -/
theorem removeEntry_eq {inode : InodeRef} {alloc : Allocator}
    (hnodup : ((s.heap.inodes inode).subFilesList.map Tnode.name).Nodup)
    (hroom : (s.heap.inodes inode).subFilesList.length ≤ Heap.maxEntries)
    (hmem : entry ∈ (s.heap.inodes inode).subFilesList)
    (hkfree : s.alloc.kfree (pageAddress entry.linkToInode) = some alloc) :
    s.removeEntry inode entry.name = some (0, { s with
      heap := s.heap.setInode inode { s.heap.inodes inode with
        subFilesList := (s.heap.inodes inode).subFilesList.filter
          fun other => other.name ≠ entry.name }
      alloc := alloc }) := by
  generalize hentries : (s.heap.inodes inode).subFilesList = entries at *
  have hlt : entries.findIdx (fun other => other.name = entry.name) < entries.length :=
    List.findIdx_lt_length.2 ⟨entry, hmem, decide_eq_true rfl⟩
  -- the entries behind the found one move up by one place, inside the page
  have hwrites : ¬ (entries = [] ∨ Heap.maxEntries ≤
      max (entries.findIdx fun other => other.name = entry.name) (entries.length - 1)) := by
    rintro (rfl | hmax)
    · cases hmem
    · omega
  have htake : (entries.eraseIdx (entries.findIdx fun other => other.name = entry.name)).take
      (entries.length - 1) = entries.filter fun other => other.name ≠ entry.name := by
    rw [← eraseIdx_findIdx_eq_filter hnodup]
    exact List.take_of_length_le (List.length_eraseIdx_of_lt hlt).le
  rw [Store.removeEntry, hentries]
  dsimp only
  rw [if_neg hwrites, getElem?_findIdx_eq hnodup hmem, Option.elim_some, hkfree, htake]
  rfl

/-- From the search on, no path leads to an error. -/
theorem removeEntry_zero {inode : InodeRef} {code : BitVec 32} {s' : Store}
    (h : s.removeEntry inode name = some (code, s')) : code = 0 := by
  rw [Store.removeEntry] at h
  dsimp only at h
  split_ifs at h
  obtain ⟨alloc, -, h⟩ := Option.bind_eq_some_iff.1 h
  exact (Prod.mk.inj (Option.some_inj.1 h)).1.symm

/-! ## The directory -/

theorem FileTree.leads {heap : Heap} {t u : Tnode} {rest : List (List UInt8)}
    (htree : FileTree heap t) (hleads : Leads heap t rest u) : FileTree heap u := by
  induction hleads with
  | here => exact htree
  | step hc _ ih => exact ih (htree.child hc)

theorem FileTree.nodup_files {heap : Heap} {t : Tnode} (htree : FileTree heap t) :
    ((heap.inodes t.linkToInode).subFilesList.map Tnode.name).Nodup := by
  have hnodup : ((heap.entries t).map Tnode.name).Nodup := by
    cases htree with
    | file _ _ _ hentries =>
        rw [hentries]
        exact List.nodup_nil
    | directory _ _ _ _ hnodup _ => exact hnodup
  rw [Heap.entries, List.map_append] at hnodup
  exact (List.nodup_append.1 hnodup).2.1

theorem CutAt.drop (h : CutAt path front name) : path.drop (front.length + 1) = name := by
  rw [h.eq, List.drop_append, List.drop_eq_nil_of_le (Nat.le_succ _), List.nil_append,
    Nat.add_sub_cancel_left]
  rfl

theorem CutAt.head (h : CutAt path front name) (habs : path.head? = some slash) :
    (parentOf path).head? = some slash := by
  rw [h.parent]
  cases front with
  | nil => rfl
  | cons c cs =>
      rw [h.eq] at habs
      exact habs

theorem nul_parentOf (hnul : (0 : UInt8) ∉ path) : (0 : UInt8) ∉ parentOf path := fun hmem =>
  hnul ((List.rdropWhile_prefix _ _).subset hmem)

/-- With room for the path and the name, the call is the lookup and the removal. -/
theorem CutAt.sysUnlink (h : CutAt path front name) (hnul : (0 : UInt8) ∉ path)
    (hlen : path.length ≤ 49) (hname : name.length ≤ 9) :
    s.sysUnlink array subName path =
      (Frame.findFile s.heap s.filefsRoot subName (parentOf path)).bind fun found =>
        match found with
        | none => some (-1, s)
        | some parentNode => s.removeEntry parentNode.linkToInode name := by
  obtain ⟨buffer, buffer', hcopied, hcut, hparent⟩ :=
    h.cutBack hnul (Nat.lt_succ_of_le hlen) array
  have hterminated : terminated 10 name = some name := if_pos (Nat.lt_succ_of_le hname)
  rw [Store.sysUnlink, hcopied, Option.bind_eq_bind, Option.bind_some, hcut,
    Option.bind_eq_bind, Option.bind_some]
  dsimp only
  rw [h.drop, hterminated, Option.bind_eq_bind, Option.bind_some, hparent, Option.bind_eq_bind,
    Option.bind_some]
  rfl

/-- What has to fit for the call to stay inside its arrays. -/
theorem CutAt.fits (h : CutAt path front name) (hnul : (0 : UInt8) ∉ path)
    (hsome : (s.sysUnlink array subName path).isSome) :
    path.length ≤ 49 ∧ name.length ≤ 9 ∧ Frame.FitsFind (parentOf path) := by
  have hlen : path.length ≤ 49 := by
    by_contra hlong
    have hnone : copied 50 array path = none := if_neg (by omega)
    rw [Store.sysUnlink, hnone] at hsome
    cases hsome
  have hname : name.length ≤ 9 := by
    by_contra hlong
    obtain ⟨buffer, buffer', hcopied, hcut, -⟩ := h.cutBack hnul (Nat.lt_succ_of_le hlen) array
    have hnone : terminated 10 name = none := if_neg (by omega)
    rw [Store.sysUnlink, hcopied, Option.bind_eq_bind, Option.bind_some, hcut,
      Option.bind_eq_bind, Option.bind_some] at hsome
    dsimp only at hsome
    rw [h.drop, hnone] at hsome
    cases hsome
  refine ⟨hlen, hname, ?_⟩
  by_contra hfits
  rw [h.sysUnlink hnul hlen hname, Frame.findFile_eq_none (nul_parentOf hnul) hfits] at hsome
  cases hsome

/-! ## Every tree and every path -/

/-- `sys_unlink` removes the named entry, or fails without doing anything, just if the path, the
name and the directory part fit the arrays, and in an existing directory there is an entry of the
name and `kfree` has a page in the list to go on from. -/
theorem sysUnlink_iff (htree : FileTree s.heap s.filefsRoot) (hroot : s.filefsRoot.name = rootName)
    (hroom : ∀ x, (s.heap.inodes x).subFilesList.length ≤ Heap.maxEntries)
    (halloc : Represents s.alloc chain r) (hused : r.free < r.slots.length)
    (habs : path.head? = some slash) (hnul : (0 : UInt8) ∉ path) (array : Nat → UInt8)
    (subName : Bytes.Memory) :
    Unlinks s path (s.sysUnlink array subName path) ↔
      path.length ≤ 49 ∧ (nameOf path).length ≤ 9 ∧ Frame.FitsFind (parentOf path) ∧
        ∀ dir, IsParent s path dir →
          (∃ entry, HasEntry s path dir entry) ∧ 0 < s.alloc.numberOfFreePages := by
  have hslash : slash ∈ path := List.mem_of_mem_head? (by rw [habs]; rfl)
  obtain ⟨front, hcut⟩ := exists_cutAt hslash
  constructor
  · rintro ⟨hremoved, hunchanged⟩
    have hsome : (s.sysUnlink array subName path).isSome := by
      by_cases hentry : ∃ dir entry, HasEntry s path dir entry
      · obtain ⟨dir, entry, hentry⟩ := hentry
        obtain ⟨s', hresult, -⟩ := hremoved dir entry hentry
        rw [hresult]
        rfl
      · rw [hunchanged fun dir entry h => hentry ⟨dir, entry, h⟩]
        rfl
    obtain ⟨hlen, hname, hfits⟩ := hcut.fits hnul hsome
    refine ⟨hlen, hname, hfits, fun dir hdir => ?_⟩
    obtain ⟨found, hfind, hiff⟩ :=
      Frame.findFile_leads (hcut.head habs) (nul_parentOf hnul) hfits htree hroot subName
    -- the directory is the only one the path leads to
    have hfound := (hiff dir).2 hdir
    have honly : ∀ other, IsParent s path other → other = dir := by
      intro other hother
      have heq := (hiff other).2 hother
      rw [hfound] at heq
      exact (Option.some_inj.1 heq).symm
    have hcall : s.sysUnlink array subName path = _ := hcut.sysUnlink hnul hlen hname
    rw [hfind, hfound] at hcall
    by_cases hentry : ∃ entry, HasEntry s path dir entry
    · refine ⟨hentry, ?_⟩
      obtain ⟨entry, hentry⟩ := hentry
      obtain ⟨s', -, -, -, hkfree⟩ := hremoved dir entry hentry
      by_contra hexhausted
      have hfree : r.free = 0 := by
        rw [← halloc.count]
        omega
      rw [halloc.kfree_exhausted _ hfree] at hkfree
      cases hkfree
    · -- without an entry the call does not return -1
      have hresult := hunchanged fun other entry h => hentry ⟨entry, honly other h.1 ▸ h⟩
      rw [hcall] at hresult
      exact absurd (removeEntry_zero hresult) (by decide)
  · rintro ⟨hlen, hname, hfits, hparent⟩
    obtain ⟨found, hfind, hiff⟩ :=
      Frame.findFile_leads (hcut.head habs) (nul_parentOf hnul) hfits htree hroot subName
    have hcall : s.sysUnlink array subName path = _ := hcut.sysUnlink hnul hlen hname
    rw [hfind, Option.bind_some] at hcall
    constructor
    · intro dir entry hentry
      obtain ⟨-, hfree⟩ := hparent dir hentry.1
      rw [halloc.count] at hfree
      obtain ⟨alloc, hkfree, -⟩ :=
        halloc.kfree (pageAddress entry.linkToInode) hfree hused
      rw [(hiff dir).2 hentry.1] at hcall
      have hremove := removeEntry_eq (htree.leads hentry.1).nodup_files
        (hroom dir.linkToInode) hentry.2.1 hkfree
      rw [hentry.2.2] at hremove
      exact ⟨_, hcall.trans hremove, rfl, rfl, hkfree⟩
    · intro hnone
      rw [hcall]
      cases hfound : found with
      | none => rfl
      | some dir =>
          obtain ⟨⟨entry, hentry⟩, -⟩ := hparent dir ((hiff dir).1 hfound)
          exact absurd hentry (hnone dir entry)

/-- Two pages, the first of them free. -/
def twoPages : Allocator where
  node := fun x => if x = 0 then ⟨4096, some 1⟩ else ⟨8192, none⟩
  headFree := some 0
  headEnd := some 1
  headUnalloc := some 0
  numberOfFreePages := 1

/-- The file `x` in the directory `b/`. -/
def sampleStore : Store := ⟨sampleTree, ⟨[47], 0, 0⟩, twoPages⟩

theorem twoPages_represents : Represents twoPages [0, 1] ⟨[4096, 8192], 1, by decide⟩ where
  linked := ⟨rfl, rfl, rfl⟩
  nodup := by decide
  slots := rfl
  count := rfl
  last := rfl
  unalloc := rfl

/-- The directories hold one file each, if any. -/
theorem sampleStore_files (x : InodeRef) :
    (sampleStore.heap.inodes x).subFilesList = [] ∨
      (sampleStore.heap.inodes x).subFilesList = [⟨[120], 5, 2⟩] := by
  match x with
  | 0 => exact Or.inl rfl
  | 1 => exact Or.inr rfl
  | _ + 2 => exact Or.inl rfl

theorem sampleStore_room (x : InodeRef) :
    (sampleStore.heap.inodes x).subFilesList.length ≤ Heap.maxEntries := by
  rcases sampleStore_files x with hfiles | hfiles
  · rw [hfiles]
    decide
  · rw [hfiles]
    decide

/-- `/b/x` is there. -/
theorem sysUnlink_sampleStore :
    Unlinks sampleStore [47, 98, 47, 120]
      (sampleStore.sysUnlink (fun _ => 7) (fun _ => 7) [47, 98, 47, 120]) := by
  refine (sysUnlink_iff fileTree_sampleTree rfl sampleStore_room twoPages_represents (by decide)
    rfl (by decide) _ _).2 ⟨by decide, by decide, ?_, fun dir hdir => ⟨?_, by decide⟩⟩
  · exact fun _ => ⟨by decide, by decide, show 13 < 60 by decide⟩
  · -- the path leads to `b/`
    have hleads : Leads sampleTree ⟨[47], 0, 0⟩ [[98, 47]] dir := hdir
    have hfound : some ⟨[98, 47], 0, 1⟩ = some dir :=
      fileTree_sampleTree.findFileFromRoot_iff.2 ⟨rfl, hleads⟩
    refine ⟨⟨[120], 5, 2⟩, hdir, ?_, rfl⟩
    rw [← Option.some_inj.1 hfound]
    exact List.mem_cons_self

/-- There is no `/b/y`, and the call returns 0. -/
theorem not_sysUnlink :
    ¬ ∀ (s : Store) (chain : List NodeRef) (r : SlotRing Word) (path : List UInt8)
      (array : Nat → UInt8) (subName : Bytes.Memory),
      FileTree s.heap s.filefsRoot → s.filefsRoot.name = rootName →
      (∀ x, (s.heap.inodes x).subFilesList.length ≤ Heap.maxEntries) →
      Represents s.alloc chain r → r.free < r.slots.length → path.head? = some slash →
      (0 : UInt8) ∉ path → Unlinks s path (s.sysUnlink array subName path) := by
  intro h
  have hunlinks := h sampleStore _ _ [47, 98, 47, 121] (fun _ => 7) (fun _ => 7)
    fileTree_sampleTree rfl sampleStore_room twoPages_represents (by decide) rfl (by decide)
  have hmissing : ∀ dir entry, ¬ HasEntry sampleStore [47, 98, 47, 121] dir entry := by
    rintro dir entry ⟨-, hmem, hname⟩
    rcases sampleStore_files dir.linkToInode with hfiles | hfiles
    · rw [hfiles] at hmem
      cases hmem
    · rw [hfiles, List.mem_singleton] at hmem
      rw [hmem] at hname
      exact absurd hname (by decide)
  have hcode : (sampleStore.sysUnlink (fun _ => 7) (fun _ => 7) [47, 98, 47, 121]).map
      Prod.fst = some 0 := by
    decide +kernel
  rw [hunlinks.2 hmissing] at hcode
  exact absurd hcode (by decide)

end Files

end OswpKernel
