import OswpKernel.Files.Repeated

/-!
# Unique — the entries of a directory and their names (`fs.c`)

The entries of all directories are unique just if no node has been made twice, and that happens to
files alone: `loadTarfs_unique_iff` gives the archives after which no directory has two entries of a
kind with one name.
-/

namespace OswpKernel

namespace Files

/-- The root, and the directories below it. -/
inductive DirectoryAt (heap : Heap) (root : InodeRef) : InodeRef → Prop
  | root : DirectoryAt heap root root
  | entry {x : InodeRef} {t : Tnode} : DirectoryAt heap root x →
      t ∈ (heap.inodes x).subDirectoryList → DirectoryAt heap root t.linkToInode

/-- No directory has two entries of a kind with one name, and there are two new pages for each path
that the archive names, however often it does. -/
structure UniqueEntries (L L' : Loader) (root : InodeRef) (all : List Path) : Prop where
  directories : ∀ x, DirectoryAt L'.heap root x →
    ((L'.heap.inodes x).subDirectoryList.map Tnode.name).Nodup
  files : ∀ x, DirectoryAt L'.heap root x →
    ((L'.heap.inodes x).subFilesList.map Tnode.name).Nodup
  reuse : L.pages.length = 2 * all.eraseDups.length + L'.pages.length

variable {made : List Path} {p : Path} {node : Path → InodeRef} {L L' : Loader}
  {root x : InodeRef} {total : Nat} {subName : Word} {ms : List Member} {mem : Memory}
  {address : Word} {fuel : Nat}

/-! ## Unique entries -/

theorem Built.at_here (h : Built root subName total made L node)
    (hx : DirectoryAt L.heap root x) : ∃ p, Here made p ∧ x = node p := by
  induction hx with
  | root => exact ⟨[], Or.inl rfl, h.root.symm⟩
  | @entry x t _ ht ih =>
      obtain ⟨p, hp, rfl⟩ := ih
      have hview : (some t.name, t.linkToInode) ∈
          (directoriesIn made p).map fun q => (q.getLast?, node q) := by
        rw [← h.directories p hp]
        exact List.mem_map_of_mem ht
      obtain ⟨q, hq, heq⟩ := List.mem_map.1 hview
      exact ⟨q, Or.inr ⟨(mem_below.1 hq).1, (mem_below.1 hq).2.2⟩, (Prod.mk.inj heq).2.symm⟩

theorem Built.here_at (h : Built root subName total made L node) (hp : Here made p) :
    DirectoryAt L.heap root (node p) := by
  induction p using List.reverseRecOn with
  | nil =>
      rw [h.root]
      exact DirectoryAt.root
  | append_singleton p c ih =>
      obtain ⟨hmem, hdir⟩ := hp.resolve_left (List.concat_ne_nil c p)
      have hparent := h.closed _ hmem
      rw [List.dropLast_concat] at hparent
      have hview : ((p ++ [c]).getLast?, node (p ++ [c])) ∈
          (L.heap.inodes (node p)).subDirectoryList.map fun t => (some t.name, t.linkToInode) := by
        rw [h.directories p hparent]
        exact List.mem_map_of_mem (mem_below.2 ⟨hmem, List.dropLast_concat, hdir⟩)
      obtain ⟨t, ht, heq⟩ := List.mem_map.1 hview
      rw [← (Prod.mk.inj heq).2]
      exact (ih hparent).entry ht

/-- In one directory the last components tell the paths apart. -/
theorem nodup_getLast_iff (D : Path → Prop) [DecidablePred D] (made : List Path) (p : Path) :
    ((below D made p).map List.getLast?).Nodup ↔ (below D made p).Nodup := by
  refine ⟨List.Nodup.of_map _, List.Nodup.map_on fun q hq r hr hlast => ?_⟩
  have hparent : q.dropLast = r.dropLast := (mem_below.1 hq).2.1.trans (mem_below.1 hr).2.1.symm
  cases hc : q.getLast? with
  | none =>
      rw [hc] at hlast
      rw [List.getLast?_eq_none_iff.1 hc, List.getLast?_eq_none_iff.1 hlast.symm]
  | some c =>
      rw [hc] at hlast
      rw [← List.dropLast_append_getLast? c hc, ← List.dropLast_append_getLast? c hlast.symm,
        hparent]

theorem nodup_names_iff (entries : List Tnode) :
    (entries.map Tnode.name).Nodup ↔ (entries.map fun t => some t.name).Nodup := by
  have hmap : (entries.map fun t => some t.name) = (entries.map Tnode.name).map some := by
    rw [List.map_map]
    rfl
  rw [hmap, List.nodup_map_iff (Option.some_injective _)]

theorem Built.nodup_directories_iff (h : Built root subName total made L node)
    (hp : Here made p) : ((L.heap.inodes (node p)).subDirectoryList.map Tnode.name).Nodup ↔
      (directoriesIn made p).Nodup := by
  have hnames := congrArg (List.map Prod.fst) (h.directories p hp)
  rw [List.map_map, List.map_map] at hnames
  rw [nodup_names_iff, ← nodup_getLast_iff]
  exact iff_of_eq (congrArg List.Nodup hnames)

theorem Built.nodup_files_iff (h : Built root subName total made L node) (hp : Here made p) :
    ((L.heap.inodes (node p)).subFilesList.map Tnode.name).Nodup ↔ (filesIn made p).Nodup := by
  rw [nodup_names_iff, h.files p hp, nodup_getLast_iff]

/-- The entries of every directory are unique just if no node has been made twice. -/
theorem Built.unique_iff (h : Built root subName total made L node) :
    ((∀ x, DirectoryAt L.heap root x →
        ((L.heap.inodes x).subDirectoryList.map Tnode.name).Nodup) ∧
      ∀ x, DirectoryAt L.heap root x →
        ((L.heap.inodes x).subFilesList.map Tnode.name).Nodup) ↔ made.Nodup := by
  constructor
  · rintro ⟨hdirs, hfiles⟩
    refine List.nodup_iff_count_le_one.2 fun q => ?_
    by_cases hmem : q ∈ made
    · -- a path is counted in its directory
      have hparent := h.closed q hmem
      have hat := h.here_at hparent
      by_cases hdir : IsDirectory q
      · have hone := List.nodup_iff_count_le_one.1 ((h.nodup_directories_iff hparent).1
          (hdirs _ hat)) q
        rwa [directoriesIn, below, List.count_filter (by simp [hdir])] at hone
      · have hone := List.nodup_iff_count_le_one.1 ((h.nodup_files_iff hparent).1
          (hfiles _ hat)) q
        rwa [filesIn, below, List.count_filter (by simp [hdir])] at hone
    · rw [List.count_eq_zero.2 hmem]
      exact Nat.zero_le 1
  · intro hnodup
    refine ⟨fun x hx => ?_, fun x hx => ?_⟩
    · obtain ⟨p, hp, rfl⟩ := h.at_here hx
      exact (h.nodup_directories_iff hp).2 (hnodup.filter _)
    · obtain ⟨p, hp, rfl⟩ := h.at_here hx
      exact (h.nodup_files_iff hp).2 (hnodup.filter _)

/-- The root is as `create_t_node` leaves it, `bump` has pages for the six components of every name,
the buffer is not in them. -/
structure Prepared (L : Loader) (root : InodeRef) (subName : Word) (ms : List Member) : Prop where
  empty : (L.heap.inodes root).subDirectoryList = [] ∧ (L.heap.inodes root).subFilesList = [] ∧
    L.filesAt root = 0
  nodup : L.pages.Nodup
  root : root ∉ L.pages
  enough : 2 * (6 * ms.length) ≤ L.pages.length
  buffer : ∀ page ∈ L.pages, OffBuffer subName (pageAddress page)
  null : OffBuffer subName 0

theorem Prepared.built (h : Prepared L root subName ms) :
    Built root subName L.pages.length [] L fun _ => root where
  root := rfl
  closed := fun _ hp => absurd hp List.not_mem_nil
  apart := by
    rintro p q (rfl | hp) (rfl | hq) _
    · rfl
    · exact absurd hq.1 List.not_mem_nil
    · exact absurd hp.1 List.not_mem_nil
    · exact absurd hp.1 List.not_mem_nil
  directories := fun _ _ => by
    rw [h.empty.1]
    rfl
  files := fun _ _ => by
    rw [h.empty.2.1]
    rfl
  fits := fun _ => ⟨Nat.zero_le _, Nat.zero_le _⟩
  nodup := h.nodup
  fresh := by
    rintro x hx p _ rfl
    exact h.root hx
  pages := (Nat.zero_add _).symm
  arrays := fun _ _ => by
    rw [h.empty.2.2]
    exact h.null
  pagesOff := h.buffer
  null := h.null

/-- After `load_tarfs` the entries of every directory are unique, and a name that comes again has
led to the node that was there, just if no file is named twice and the arrays have room. -/
theorem loadTarfs_unique_iff (harchive : Archive mem address ms)
    (hnames : ∀ m ∈ ms, EntryName m.name) (hsize : ∀ m ∈ ms, m.size < 2 ^ 32)
    (hprepared : Prepared L root subName ms) (hfuel : ms.length < fuel)
    (rows : Nat → Nat → UInt8) :
    ∃ css, extractAll rows (ms.map Member.name) = some css ∧
      ((∃ L', loadTarfs mem root subName fuel address rows L = some L' ∧
          UniqueEntries L L' root (namedPaths css)) ↔
        FilesDiffer (namedPaths css) ∧ Room (namedPaths css)) := by
  obtain ⟨css, hcss⟩ := extractAll_isSome (List.forall_mem_map.2 hnames) rows
  have hpages : 2 * (([] : List Path).length + 6 * ms.length) ≤ L.pages.length := by
    rw [List.length_nil, Nat.zero_add]
    exact hprepared.enough
  refine ⟨css, hcss, ?_⟩
  rcases hprepared.built.loadTarfs harchive hnames hsize hfuel hcss hpages with
    ⟨L', node, hload, hbuilt⟩ | ⟨hload, hfull⟩
  · constructor
    · rintro ⟨L'', hload', hunique⟩
      obtain rfl : L' = L'' := Option.some_inj.1 (hload.symm.trans hload')
      have hdiffer : FilesDiffer (namedPaths css) :=
        nodup_foldl_iff.1 (hbuilt.unique_iff.1 ⟨hunique.directories, hunique.files⟩)
      exact ⟨hdiffer, (entriesFit_foldl_iff hdiffer).1 hbuilt.fits⟩
    · rintro ⟨hdiffer, -⟩
      obtain ⟨hdirs, hfiles⟩ := hbuilt.unique_iff.2 (nodup_foldl_iff.2 hdiffer)
      refine ⟨L', hload, hdirs, hfiles, ?_⟩
      rw [hbuilt.pages, (foldl_perm hdiffer).length_eq]
  · -- an entry would have been written behind the page
    refine iff_of_false ?_ fun hboth => hfull ((entriesFit_foldl_iff hboth.1).2 hboth.2)
    rintro ⟨L', hload', -⟩
    rw [hload] at hload'
    cases hload'

/-- A loader with 24 pages. -/
def wideLoader : Loader := ⟨⟨fun _ => blankInode, fun _ => 0⟩, List.range' 20 24, fun _ => 0⟩

theorem wideLoader_prepared (hms : ms.length ≤ 2) :
    Prepared wideLoader 10 0xffffffff80200000 ms := by
  refine ⟨⟨rfl, rfl, rfl⟩, by decide, by decide, ?_, ?_, ?_⟩
  · rw [wideLoader, List.length_range']
    omega
  · have hbelow : ∀ page ∈ wideLoader.pages,
        (pageAddress page).toNat + 4096 ≤ (0xffffffff80200000 : Word).toNat := by
      decide +kernel
    exact fun page hpage => offBuffer_of_le (hbelow page hpage) (by decide)
  · exact offBuffer_of_le (by decide) (by decide)

/-- The archive with `bin/` and `bin/sh`: `bin/` is named twice. -/
theorem loadTarfs_unique_bin :
    ∃ L', loadTarfs binArchive 10 0xffffffff80200000 3 0 (fun _ _ => 55) wideLoader = some L' ∧
      UniqueEntries wideLoader L' 10
        [[[98, 105, 110, 47]], [[98, 105, 110, 47]], [[98, 105, 110, 47], [115, 104]]] := by
  have hnames : ∀ m ∈ binMembers, EntryName m.name := fun m hm =>
    have hfits := binMembers_wellFormed.name m hm
    ⟨fun hnil => absurd hfits.slashes.1 (by rw [hnil]; decide), hfits.nul, hfits.slashes.2,
      hfits.directories, hfits.files⟩
  obtain ⟨css, hcss, hiff⟩ := loadTarfs_unique_iff binArchive_archive hnames
    binMembers_wellFormed.size (wideLoader_prepared (by decide)) (by decide : 2 < 3) fun _ _ => 55
  have hextract : extractAll (fun _ _ => 55) (binMembers.map Member.name) =
      some [[[98, 105, 110, 47]], [[98, 105, 110, 47], [115, 104]]] := by
    decide +kernel
  obtain rfl := Option.some_inj.1 (hcss.symm.trans hextract)
  have hlength : ∀ D [DecidablePred D] p,
      (below D (namedPaths [[[98, 105, 110, 47]], [[98, 105, 110, 47], [115, 104]]]).eraseDups
        p).length ≤ Heap.maxEntries :=
    fun D _ p => (List.length_filter_le ..).trans (by decide +kernel)
  exact hiff.2 ⟨by unfold FilesDiffer; decide +kernel, fun p => ⟨hlength _ p, hlength _ p⟩⟩

/-- `bin/sh`, and `bin/sh` again. -/
def twiceMembers : List Member :=
  [⟨[98, 105, 110, 47, 115, 104], 3, 0⟩, ⟨[98, 105, 110, 47, 115, 104], 3, 1024⟩]

def twiceArchive : Memory := fun address =>
  if address < 512 then headerByte [98, 105, 110, 47, 115, 104] 3 address.toNat
  else if 1024 ≤ address ∧ address < 1536 then
    headerByte [98, 105, 110, 47, 115, 104] 3 (address - 1024).toNat
  else 0

theorem twiceArchive_archive : Archive twiceArchive 0 twiceMembers := by
  have hend : Archive twiceArchive (Member.next ⟨[98, 105, 110, 47, 115, 104], 3, 1024⟩) [] :=
    Archive.marker (by decide +kernel)
  have hsecond : Archive twiceArchive (Member.next ⟨[98, 105, 110, 47, 115, 104], 3, 0⟩)
      [⟨[98, 105, 110, 47, 115, 104], 3, 1024⟩] :=
    Archive.member ⟨by decide +kernel, by decide +kernel, by decide +kernel⟩ hend
  exact Archive.member ⟨by decide +kernel, by decide +kernel, by decide +kernel⟩ hsecond

/-- The directory `bin/` has the file `sh` twice. -/
theorem not_loadTarfs_unique :
    ¬ ∀ (mem : Memory) (address : Word) (ms : List Member) (L : Loader) (root : InodeRef)
      (subName : Word) (fuel : Nat) (rows : Nat → Nat → UInt8), Archive mem address ms →
      (∀ m ∈ ms, EntryName m.name) → (∀ m ∈ ms, m.size < 2 ^ 32) → Prepared L root subName ms →
      ms.length < fuel → ∃ css, extractAll rows (ms.map Member.name) = some css ∧
        ∃ L', loadTarfs mem root subName fuel address rows L = some L' ∧
          UniqueEntries L L' root (namedPaths css) := by
  intro hall
  have hname : EntryName [98, 105, 110, 47, 115, 104] :=
    ⟨by decide, by decide, by decide, by decide, by decide⟩
  have hnames : ∀ m ∈ twiceMembers, EntryName m.name := by
    intro m hm
    rcases List.mem_cons.1 hm with rfl | hm
    · exact hname
    · rw [List.mem_singleton.1 hm]
      exact hname
  obtain ⟨css, -, L', hload, hunique⟩ := hall twiceArchive 0 twiceMembers wideLoader 10
    0xffffffff80200000 3 (fun _ _ => 55) twiceArchive_archive hnames (by decide)
    (wideLoader_prepared (by decide)) (by decide)
  -- `bin/` is the inode 21
  have hrun : (loadTarfs twiceArchive 10 0xffffffff80200000 3 0 (fun _ _ => 55) wideLoader).map
      (fun L' => ((L'.heap.inodes 10).subDirectoryList.map Tnode.linkToInode,
        (L'.heap.inodes 21).subFilesList.map Tnode.name)) =
      some ([21], [[115, 104], [115, 104]]) := by
    decide +kernel
  rw [hload, Option.map_some, Option.some_inj, Prod.mk.injEq] at hrun
  obtain ⟨hroot, hfiles⟩ := hrun
  obtain ⟨t, ht, hlink⟩ := List.mem_map.1 (hroot ▸ List.mem_singleton_self 21)
  have hat : DirectoryAt L'.heap 10 21 := hlink ▸ DirectoryAt.root.entry ht
  have hnodup := hunique.files 21 hat
  rw [hfiles] at hnodup
  exact absurd hnodup (by decide)

end Files

end OswpKernel
