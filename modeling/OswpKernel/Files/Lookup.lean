import OswpKernel.Files.Names

/-!
# Lookup — `find_file_from_root` follows the components of a path (`fs.c`)

`find_file` searches the tree for the components of a path, with all directories before all files.
In a tree whose siblings have distinct names the search finds just the node that the components
lead to.
-/

namespace OswpKernel

namespace Files

abbrev FS_MOUNTPOINT : Nat := 0x08

/-- `find_file_from_root`, for the components from `depth` on.  The branch for `FS_FILE` tests
`depth == total_depth` where that is not so. -/
def findFileFromRoot (h : Heap) : List (List UInt8) → Tnode → Option Tnode
  | [], _ => none
  | name :: rest, currentNode =>
      if currentNode.name = name then
        match rest with
        | [] => some currentNode
        | _ :: _ =>
            let currentInode := h.inodes currentNode.linkToInode
            if currentInode.flags = FS_DIRECTORY ∨ currentInode.flags = FS_MOUNTPOINT then
              (currentInode.subDirectoryList.findSome? fun t => findFileFromRoot h rest t).or
                (currentInode.subFilesList.findSome? fun t => findFileFromRoot h rest t)
            else none
      else none

/-- The entries of a node, directories first. -/
def Heap.entries (h : Heap) (t : Tnode) : List Tnode :=
  (h.inodes t.linkToInode).subDirectoryList ++ (h.inodes t.linkToInode).subFilesList

/-- The node is the root of a finite tree, in which the names of directories end in their only `/`,
those of files have none, and siblings have distinct names. -/
inductive FileTree (h : Heap) : Tnode → Prop
  | file {t : Tnode} : (h.inodes t.linkToInode).flags = FS_FILE → slash ∉ t.name →
      t.name.length ≤ 9 → h.entries t = [] → FileTree h t
  | directory {t : Tnode} {body : List UInt8} :
      (h.inodes t.linkToInode).flags = FS_DIRECTORY ∨
        (h.inodes t.linkToInode).flags = FS_MOUNTPOINT →
      t.name = body ++ [slash] → slash ∉ body → t.name.length ≤ 9 →
      ((h.entries t).map Tnode.name).Nodup → (∀ c ∈ h.entries t, FileTree h c) → FileTree h t

/-- What the search relies on: only directories have entries, and siblings have distinct names. -/
inductive Searchable (h : Heap) : Tnode → Prop
  | leaf {t : Tnode} : h.entries t = [] → Searchable h t
  | directory {t : Tnode} :
      (h.inodes t.linkToInode).flags = FS_DIRECTORY ∨
        (h.inodes t.linkToInode).flags = FS_MOUNTPOINT →
      ((h.entries t).map Tnode.name).Nodup → (∀ c ∈ h.entries t, Searchable h c) → Searchable h t

/-- The node that the names lead to, from entry to entry. -/
inductive Leads (h : Heap) : Tnode → List (List UInt8) → Tnode → Prop
  | here {t : Tnode} : Leads h t [] t
  | step {t c u : Tnode} {rest : List (List UInt8)} : c ∈ h.entries t → Leads h c rest u →
      Leads h t (c.name :: rest) u

variable {h : Heap} {t u root : Tnode} {n : List UInt8} {rest : List (List UInt8)}
  {cs : List UInt8}

theorem FileTree.name_length (htree : FileTree h t) : t.name.length ≤ 9 := by
  cases htree with
  | file _ _ hlen _ => exact hlen
  | directory _ _ _ hlen _ _ => exact hlen

theorem FileTree.child {c : Tnode} (htree : FileTree h t) (hc : c ∈ h.entries t) :
    FileTree h c := by
  cases htree with
  | file _ _ _ hentries =>
      rw [hentries] at hc
      cases hc
  | directory _ _ _ _ _ htrees => exact htrees c hc

/-! ## The search -/

/-- Among entries with distinct names, the search returns what it finds below the only entry it
can find anything below. -/
theorem findSome?_eq_some_iff_of_names {entries : List Tnode} {f : Tnode → Option Tnode}
    (hnodup : (entries.map Tnode.name).Nodup)
    (hname : ∀ c ∈ entries, ∀ v, f c = some v → c.name = n) :
    entries.findSome? f = some u ↔ ∃ c ∈ entries, f c = some u := by
  constructor
  · exact List.exists_of_findSome?_eq_some
  · rintro ⟨c, hc, hfound⟩
    cases hsearch : entries.findSome? f with
    | none =>
        rw [List.findSome?_eq_none_iff] at hsearch
        rw [hsearch c hc] at hfound
        cases hfound
    | some v =>
        -- whatever was found first was found below an entry of the same name
        obtain ⟨d, hd, hfirst⟩ := List.exists_of_findSome?_eq_some hsearch
        have hsame : d.name = c.name :=
          (hname d hd v hfirst).trans (hname c hc u hfound).symm
        have heq : d = c := List.inj_on_of_nodup_map hnodup hd hc hsame
        rw [heq, hfound] at hfirst
        exact hfirst.symm

/-- One level of the search: the directories, then the files. -/
theorem findFileFromRoot_directory {m : List UInt8} (hname : t.name = n)
    (hdir : (h.inodes t.linkToInode).flags = FS_DIRECTORY ∨
      (h.inodes t.linkToInode).flags = FS_MOUNTPOINT) :
    findFileFromRoot h (n :: m :: rest) t =
      (h.entries t).findSome? fun c => findFileFromRoot h (m :: rest) c := by
  rw [findFileFromRoot, if_pos hname]
  dsimp only
  rw [if_pos hdir, Heap.entries, List.findSome?_append]

theorem findFileFromRoot_name (hfound : findFileFromRoot h (n :: rest) t = some u) :
    t.name = n := by
  cases rest with
  | nil =>
      rw [findFileFromRoot] at hfound
      split_ifs at hfound with hname
      exact hname
  | cons m rest =>
      rw [findFileFromRoot] at hfound
      split_ifs at hfound with hname
      exact hname

theorem FileTree.searchable (htree : FileTree h t) : Searchable h t := by
  induction htree with
  | file _ _ _ hentries => exact .leaf hentries
  | directory hdir _ _ _ hnodup _ ih => exact .directory hdir hnodup ih

/-- The search finds the node that the components lead to. -/
theorem Searchable.findFileFromRoot_iff (htree : Searchable h t) :
    findFileFromRoot h (n :: rest) t = some u ↔ t.name = n ∧ Leads h t rest u := by
  induction rest generalizing t n with
  | nil =>
      rw [findFileFromRoot]
      constructor
      · intro hfound
        split_ifs at hfound with hname
        rw [← Option.some.inj hfound]
        exact ⟨hname, Leads.here⟩
      · rintro ⟨hname, hleads⟩
        cases hleads
        rw [if_pos hname]
  | cons m rest ih =>
      by_cases hname : t.name = n
      · cases htree with
        | leaf hentries =>
            -- there is nothing to search, whether the search looks for it or not
            have hnone : findFileFromRoot h (n :: m :: rest) t = none := by
              rw [findFileFromRoot, if_pos hname]
              dsimp only
              obtain ⟨hdirs, hfiles⟩ := List.append_eq_nil_iff.1 hentries
              rw [hdirs, hfiles]
              split_ifs <;> rfl
            rw [hnone]
            constructor
            · intro hnone
              cases hnone
            · rintro ⟨-, hleads⟩
              cases hleads with
              | step hc _ =>
                  rw [hentries] at hc
                  cases hc
        | directory hdir hnodup htrees =>
            have hnames : ∀ c ∈ h.entries t, ∀ v,
                findFileFromRoot h (m :: rest) c = some v → c.name = m :=
              fun c _ v hfound => findFileFromRoot_name hfound
            rw [findFileFromRoot_directory hname hdir,
              findSome?_eq_some_iff_of_names hnodup hnames]
            constructor
            · rintro ⟨c, hc, hfound⟩
              obtain ⟨rfl, hleads⟩ := (ih (htrees c hc)).1 hfound
              exact ⟨hname, Leads.step hc hleads⟩
            · rintro ⟨-, hleads⟩
              cases hleads with
              | @step _ c _ _ hc hleads => exact ⟨c, hc, (ih (htrees c hc)).2 ⟨rfl, hleads⟩⟩
      · rw [findFileFromRoot, if_neg hname]
        constructor
        · intro hnone
          cases hnone
        · intro hboth
          exact absurd hboth.1 hname

theorem FileTree.findFileFromRoot_iff (htree : FileTree h t) :
    findFileFromRoot h (n :: rest) t = some u ↔ t.name = n ∧ Leads h t rest u :=
  htree.searchable.findFileFromRoot_iff

/-! ## Absolute paths -/

theorem components_nonempty (hne : cs ≠ []) : components cs ≠ [] := by
  intro h
  apply hne
  rw [← flatten_components cs, h]
  rfl

/-- `"/"`. -/
def rootName : List UInt8 := [slash]

/-- `"rootfs/"`. -/
def rootfsName : List UInt8 := [114, 111, 111, 116, 102, 115, slash]

/-- The path of a member. -/
def memberPath (n : List UInt8) : List UInt8 := rootName ++ rootfsName ++ n

/-- The first component of an absolute path is the name of the root. -/
theorem components_absolute {path : List UInt8} (habs : path.head? = some slash) :
    components path = rootName :: (components path).tail := by
  cases path with
  | nil => cases habs
  | cons c cs =>
      have hc : c = slash := Option.some_inj.1 habs
      rw [components, if_pos hc, hc]
      rfl

/-- A path `find_file` has room for: after each `/` it is cut into at most 6 components of at most
8 bytes. -/
structure ShortPath (path : List UInt8) : Prop where
  absolute : path.head? = some slash
  nul : (0 : UInt8) ∉ path
  count : (components path).length ≤ 6
  length : ∀ c ∈ components path, c.length ≤ 8

theorem ShortPath.components_ne_nil {path : List UInt8} (h : ShortPath path) :
    components path ≠ [] := by
  apply components_nonempty
  rintro rfl
  cases h.absolute

/-- A root with one directory `b/`, in which there is one file `x`. -/
def sampleTree : Heap where
  inodes := fun x =>
    match x with
    | 0 => ⟨FS_MOUNTPOINT, 0, 0, [⟨[98, 47], 0, 1⟩], [], 0, false⟩
    | 1 => ⟨FS_DIRECTORY, 0, 0, [], [⟨[120], 5, 2⟩], 0, false⟩
    | _ => ⟨FS_FILE, 0, 0, [], [], 0, true⟩
  stale := fun _ => 0

theorem fileTree_sampleTree : FileTree sampleTree ⟨[47], 0, 0⟩ := by
  have hfile : FileTree sampleTree ⟨[120], 5, 2⟩ :=
    .file rfl (by decide) (by decide) rfl
  have hdir : FileTree sampleTree ⟨[98, 47], 0, 1⟩ := by
    refine @FileTree.directory _ _ [98] (Or.inl rfl) rfl (by decide) (by decide) (by decide) ?_
    rintro c (- | ⟨-, ⟨⟩⟩)
    exact hfile
  refine @FileTree.directory _ _ [] (Or.inr rfl) rfl (by decide) (by decide) (by decide) ?_
  rintro c (- | ⟨-, ⟨⟩⟩)
  exact hdir

end Files

end OswpKernel
