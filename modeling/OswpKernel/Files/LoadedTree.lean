import OswpKernel.Files.LoadTarfs
import OswpKernel.Files.Lookup

/-!
# LoadedTree — the tree of the archive as `find_file` searches it (`fs.c`)

`Made` follows the inodes that `load_tarfs` makes: each is on a page of its own, its entries lead to
such inodes only, and no other inode is written.  With the paths of `NodeArrays` the nodes below the
root form a tree that `find_file_from_root` searches, and components lead where the path of the
archive says.
-/

namespace OswpKernel

namespace Files

variable {L L' : Loader} {active root x y : InodeRef} {t u : Tnode} {flags : Nat}
  {name : List UInt8} {size header fileName subName : Word} {pages : List Nat}
  {old : InodeRef → Inode} {made : List InodeRef} {mem : Memory}

/-! ## One entry -/

/-- The node `t`, with an inode on a fresh page, has been entered below `active`. -/
structure Grown (L L' : Loader) (active : InodeRef) (t : Tnode) (flags : Nat) : Prop where
  pages : ∃ page, L.pages = page :: t.linkToInode :: L'.pages
  new : (L'.heap.inodes t.linkToInode).flags = flags ∧
    (L'.heap.inodes t.linkToInode).subDirectoryList = [] ∧
    (L'.heap.inodes t.linkToInode).subFilesList = []
  kept : ∀ y, y ≠ t.linkToInode → y ≠ active → L'.heap.inodes y = L.heap.inodes y
  flagsKept : (L'.heap.inodes active).flags = (L.heap.inodes active).flags
  directories : (L'.heap.inodes active).subDirectoryList =
    (L.heap.inodes active).subDirectoryList ++ if flags = FS_DIRECTORY then [t] else []
  files : (L'.heap.inodes active).subFilesList =
    (L.heap.inodes active).subFilesList ++ if flags = FS_DIRECTORY then [] else [t]

theorem bump_cases {page : Nat} (h : L.bump = some (page, L')) :
    L.pages = page :: L'.pages ∧ L'.heap = L.heap := by
  rw [Loader.bump] at h
  split at h
  · cases h
  · next hpages =>
    cases h
    exact ⟨hpages, rfl⟩

theorem createTNode_cases {page : Nat} (h : L.createTNode name = some (page, t, L')) :
    L.pages = page :: t.linkToInode :: L'.pages ∧ t.name = name ∧
      L'.heap = L.heap.createSysNode t.linkToInode := by
  rcases Option.bind_eq_some_iff.1 h with ⟨⟨page, L₁⟩, hfirst, h⟩
  rcases Option.bind_eq_some_iff.1 h with ⟨⟨inode, L₂⟩, hsecond, h⟩
  rcases Option.bind_eq_some_iff.1 h with ⟨⟨node, heap⟩, hnode, hret⟩
  cases hret
  rcases bump_cases hfirst with ⟨hpages₁, hheap₁⟩
  rcases bump_cases hsecond with ⟨hpages₂, hheap₂⟩
  rw [Heap.createTNode] at hnode
  split_ifs at hnode
  cases hnode
  refine ⟨?_, rfl, ?_⟩
  · rw [hpages₁, hpages₂]
  · rw [hheap₂, hheap₁]

theorem enterDirectory_cases (hactive : active ∉ L.pages)
    (h : L.enterDirectory active name size = some (y, L')) :
    (∃ t ∈ (L.heap.inodes active).subDirectoryList, y = t.linkToInode ∧ L' = L) ∨
      ∃ t, y = t.linkToInode ∧ Grown L L' active t FS_DIRECTORY := by
  rw [Loader.enterDirectory] at h
  split at h
  · next existNode hfound =>
    cases h
    exact Or.inl ⟨existNode, List.mem_of_find?_eq_some hfound, rfl, rfl⟩
  · rcases Option.bind_eq_some_iff.1 h with ⟨⟨page, t, L₁⟩, hcreate, h⟩
    rcases Option.bind_eq_some_iff.1 h with ⟨L₂, hpush, hret⟩
    cases hret
    rcases createTNode_cases hcreate with ⟨hpages, -, hheap⟩
    have hne : active ≠ t.linkToInode := by
      rintro rfl
      exact hactive (hpages ▸ List.mem_cons_of_mem _ List.mem_cons_self)
    rw [Loader.pushDirectory] at hpush
    simp only [Loader.setInode, hheap, Heap.createSysNode, Heap.setInode_self, setInode_setInode,
      Heap.setInode_of_ne _ _ hne] at hpush
    split_ifs at hpush
    cases hpush
    have hx : ∀ (h : Heap) (inode inode' : Inode), ((h.setInode t.linkToInode inode).setInode active
        inode').inodes t.linkToInode = inode := fun h inode inode' => by
      rw [Heap.setInode_of_ne _ _ hne.symm, Heap.setInode_self]
    refine Or.inr ⟨{ t with size }, rfl, ⟨page, hpages⟩, ?_, fun y hy hactive => ?_, ?_, ?_, ?_⟩
    · dsimp only
      rw [hx]
      exact ⟨rfl, rfl, rfl⟩
    · dsimp only at hy ⊢
      rw [Heap.setInode_of_ne _ _ hactive, Heap.setInode_of_ne _ _ hy]
    all_goals
      dsimp only
      rw [Heap.setInode_self]
    · rw [if_pos rfl]
    · rw [if_pos rfl, List.append_nil]

theorem enterFile_cases (hactive : active ∉ L.pages)
    (h : L.enterFile active name fileName size header = some (y, L')) :
    (∃ t ∈ (L.heap.inodes active).subFilesList, y = t.linkToInode ∧ L' = L) ∨
      ∃ t, y = t.linkToInode ∧ Grown L L' active t FS_FILE := by
  rw [Loader.enterFile] at h
  split at h
  · next i hfound =>
    rcases Option.map_eq_some_iff.1 h with ⟨existNode, hget, hret⟩
    cases hret
    exact Or.inl ⟨existNode, List.mem_of_getElem? hget, rfl, rfl⟩
  · rcases Option.bind_eq_some_iff.1 h with ⟨⟨page, t, L₁⟩, hcreate, h⟩
    rcases Option.bind_eq_some_iff.1 h with ⟨L₂, hpush, hret⟩
    cases hret
    rcases createTNode_cases hcreate with ⟨hpages, -, hheap⟩
    have hne : active ≠ t.linkToInode := by
      rintro rfl
      exact hactive (hpages ▸ List.mem_cons_of_mem _ List.mem_cons_self)
    rcases Option.bind_eq_some_iff.1 hpush with ⟨heap, hfile, hret⟩
    cases hret
    rw [Heap.pushFile] at hfile
    simp only [Loader.setInode, hheap, Heap.createSysNode, Heap.setInode_self, setInode_setInode,
      Heap.setInode_of_ne _ _ hne] at hfile
    split_ifs at hfile
    cases hfile
    have hx : ∀ (h : Heap) (inode inode' : Inode), ((h.setInode t.linkToInode inode).setInode active
        inode').inodes t.linkToInode = inode := fun h inode inode' => by
      rw [Heap.setInode_of_ne _ _ hne.symm, Heap.setInode_self]
    refine Or.inr ⟨{ t with size }, rfl, ⟨page, hpages⟩, ?_, fun y hy hactive => ?_, ?_, ?_, ?_⟩
    · dsimp only
      rw [hx]
      exact ⟨rfl, rfl, rfl⟩
    · dsimp only at hy ⊢
      rw [Heap.setInode_of_ne _ _ hactive, Heap.setInode_of_ne _ _ hy]
    all_goals
      dsimp only
      rw [Heap.setInode_self]
    · rw [if_neg (by decide), List.append_nil]
    · rw [if_neg (by decide)]

/-! ## The inodes that have been made -/

/-- The inodes `made` so far, with `pages` still to use when `root` was the only one: what they list
is one of them, and `old` is what the others held. -/
structure Made (root : InodeRef) (pages : List Nat) (old : InodeRef → Inode)
    (made : List InodeRef) (L : Loader) : Prop where
  nodup : L.pages.Nodup
  supply : ∀ x ∈ L.pages, x ∈ pages
  apart : ∀ x ∈ made, x ∉ L.pages
  base : root ∈ made
  within : ∀ x ∈ made, x = root ∨ x ∈ pages
  directories : ∀ x ∈ made, ∀ t ∈ (L.heap.inodes x).subDirectoryList,
    t.linkToInode ∈ made ∧ (L.heap.inodes t.linkToInode).flags = FS_DIRECTORY
  files : ∀ x ∈ made, ∀ t ∈ (L.heap.inodes x).subFilesList,
    t.linkToInode ∈ made ∧ (L.heap.inodes t.linkToInode).flags = FS_FILE
  flags : (L.heap.inodes root).flags = (old root).flags
  other : ∀ x, x ≠ root → x ∉ pages → L.heap.inodes x = old x

/-- The entries of a kind, when `t` has been entered below `active`. -/
theorem Grown.listed {array array' : InodeRef → List Tnode} {kind : Nat}
    (h : Grown L L' active t flags) (hactive : active ∈ made) (hnew : t.linkToInode ∉ made)
    (hlist : ∀ x ∈ made, ∀ u ∈ array x,
      u.linkToInode ∈ made ∧ (L.heap.inodes u.linkToInode).flags = kind)
    (hempty : array' t.linkToInode = [])
    (hkept : ∀ x, x ≠ t.linkToInode → x ≠ active → array' x = array x)
    (hat : array' active = array active ++ if flags = kind then [t] else []) :
    ∀ x ∈ t.linkToInode :: made, ∀ u ∈ array' x,
      u.linkToInode ∈ t.linkToInode :: made ∧ (L'.heap.inodes u.linkToInode).flags = kind := by
  have hflags : ∀ x ∈ made, (L'.heap.inodes x).flags = (L.heap.inodes x).flags := by
    intro x hx
    by_cases hxa : x = active
    · rw [hxa]
      exact h.flagsKept
    · rw [h.kept x (ne_of_mem_of_not_mem hx hnew) hxa]
  have hold : ∀ x ∈ made, ∀ u ∈ array x,
      u.linkToInode ∈ t.linkToInode :: made ∧ (L'.heap.inodes u.linkToInode).flags = kind := by
    intro x hx u hu
    rcases hlist x hx u hu with ⟨hmade, hkind⟩
    exact ⟨List.mem_cons_of_mem _ hmade, (hflags _ hmade).trans hkind⟩
  intro x hx u hu
  rcases List.mem_cons.1 hx with rfl | hx
  · rw [hempty] at hu
    cases hu
  · by_cases hxa : x = active
    · rw [hxa, hat, List.mem_append] at hu
      rcases hu with hu | hu
      · exact hold active hactive u hu
      · -- the new entry
        split_ifs at hu with hkind
        · rw [List.mem_singleton.1 hu]
          exact ⟨List.mem_cons_self, h.new.1.trans hkind⟩
        · cases hu
    · rw [hkept x (ne_of_mem_of_not_mem hx hnew) hxa] at hu
      exact hold x hx u hu

theorem Made.grown (h : Made root pages old made L) (hactive : active ∈ made)
    (hflags : flags = FS_DIRECTORY ∨ flags = FS_FILE) (hgrown : Grown L L' active t flags) :
    Made root pages old (t.linkToInode :: made) L' := by
  rcases hgrown.pages with ⟨page, hpages⟩
  have hnodup := h.nodup
  have hsupply := h.supply
  have hapart := h.apart
  rw [hpages] at hnodup hsupply hapart
  rw [List.nodup_cons, List.nodup_cons] at hnodup
  have hnew : t.linkToInode ∉ made := fun hmem =>
    hapart _ hmem (List.mem_cons_of_mem _ List.mem_cons_self)
  have hpage : t.linkToInode ∈ pages := hsupply _ (List.mem_cons_of_mem _ List.mem_cons_self)
  have hne : root ≠ t.linkToInode := ne_of_mem_of_not_mem h.base hnew
  refine ⟨hnodup.2.2, fun x hx => ?_, fun x hx => ?_, List.mem_cons_of_mem _ h.base, fun x hx => ?_,
    ?_, ?_, ?_, fun x hx hxp => ?_⟩
  · exact hsupply x (List.mem_cons_of_mem _ (List.mem_cons_of_mem _ hx))
  · rcases List.mem_cons.1 hx with rfl | hx
    · exact hnodup.2.1
    · exact fun hmem => hapart x hx (List.mem_cons_of_mem _ (List.mem_cons_of_mem _ hmem))
  · rcases List.mem_cons.1 hx with rfl | hx
    · exact Or.inr hpage
    · exact h.within x hx
  · refine hgrown.listed hactive hnew h.directories hgrown.new.2.1
      (fun x hx hxa => by rw [hgrown.kept x hx hxa]) hgrown.directories
  · refine hgrown.listed hactive hnew h.files hgrown.new.2.2
      (fun x hx hxa => by rw [hgrown.kept x hx hxa]) (hgrown.files.trans ?_)
    rcases hflags with rfl | rfl <;> rfl
  · by_cases hroot : root = active
    · rw [hroot, hgrown.flagsKept, ← hroot]
      exact h.flags
    · rw [hgrown.kept root hne hroot]
      exact h.flags
  · -- the inode is neither the new one nor that of the directory
    have hxt : x ≠ t.linkToInode := fun heq => hxp (heq ▸ hpage)
    have hxa : x ≠ active := by
      rintro rfl
      exact (h.within x hactive).elim hx hxp
    rw [hgrown.kept x hxt hxa]
    exact h.other x hx hxp

theorem Made.enterComponents {rows : Nat → Nat → UInt8} {ls : List Nat}
    (h : Made root pages old made L) (hactive : active ∈ made)
    (hrun : Loader.enterComponents rows subName size header ls active L = some L') :
    ∃ made', Made root pages old made' L' := by
  induction ls generalizing active L made with
  | nil =>
      cases hrun
      exact ⟨made, h⟩
  | cons l ls ih =>
      rcases Option.bind_eq_some_iff.1 hrun with ⟨name, -, hrun⟩
      split at hrun
      · cases hrun
        exact ⟨made, h⟩
      · have hfresh := h.apart active hactive
        -- the component was there, or it has been made
        dsimp only at hrun
        split_ifs at hrun
        · rcases Option.bind_eq_some_iff.1 hrun with ⟨⟨y, L₁⟩, henter, hrest⟩
          rcases enterDirectory_cases hfresh henter with ⟨t, ht, rfl, rfl⟩ | ⟨t, rfl, hgrown⟩
          · exact ih h (h.directories active hactive t ht).1 hrest
          · exact ih (h.grown hactive (Or.inl rfl) hgrown) List.mem_cons_self hrest
        · rcases Option.bind_eq_some_iff.1 hrun with ⟨⟨y, L₁⟩, henter, hrest⟩
          rcases enterFile_cases hfresh henter with ⟨t, ht, rfl, rfl⟩ | ⟨t, rfl, hgrown⟩
          · exact ih h (h.files active hactive t ht).1 hrest
          · exact ih (h.grown hactive (Or.inr rfl) hgrown) List.mem_cons_self hrest

/-- `load_tarfs` makes inodes below its root and touches no other one. -/
theorem Made.loadTarfs {fuel : Nat} {address : Word} {rows : Nat → Nat → UInt8}
    (h : Made root pages old made L)
    (hrun : loadTarfs mem root subName fuel address rows L = some L') :
    ∃ made', Made root pages old made' L' := by
  induction fuel generalizing address rows L made with
  | zero => cases hrun
  | succ fuel ih =>
      rw [Files.loadTarfs] at hrun
      split_ifs at hrun
      · cases hrun
        exact ⟨made, h⟩
      · rcases Option.bind_eq_some_iff.1 hrun with ⟨name, -, hrun⟩
        rcases Option.bind_eq_some_iff.1 hrun with ⟨s, -, hrun⟩
        rcases Option.bind_eq_some_iff.1 hrun with ⟨L₁, hcomponents, hrest⟩
        rcases h.enterComponents h.base hcomponents with ⟨made₁, h₁⟩
        exact ih h₁ hrest

/-! ## The tree of paths -/

variable {heap : Heap} {node : Path → Tnode} {ps : List Path} {p q : Path} {ms : List Member}
  {cs : List (List UInt8)}

theorem NodeArrays.prefix_mem (h : NodeArrays heap node ps) (hp : p ∈ [] :: ps) (hq : q <+: p) :
    q ∈ [] :: ps := by
  induction p using List.reverseRecOn with
  | nil =>
      rw [List.prefix_nil.1 hq]
      exact List.mem_cons_self
  | append_singleton p c ih =>
      rcases List.prefix_concat_iff.1 hq with rfl | hq
      · exact hp
      · have hmem : p ++ [c] ∈ ps := (List.mem_cons.1 hp).resolve_left
          (List.append_ne_nil_of_right_ne_nil _ (List.cons_ne_nil _ _))
        have hparent := h.closed _ hmem
        rw [List.dropLast_concat] at hparent
        exact ih hparent hq

/-- A path that is there is among the entries of its parent, under its last component. -/
theorem NodeArrays.mem_entries (h : NodeArrays heap node ps) {c : List UInt8}
    (hmem : p ++ [c] ∈ ps) :
    node (p ++ [c]) ∈ heap.entries (node p) ∧ (node (p ++ [c])).name = c := by
  have hparent := h.closed _ hmem
  have hname := h.name _ hmem
  rw [List.dropLast_concat] at hparent
  rw [List.getLast?_concat] at hname
  refine ⟨?_, (Option.some_inj.1 hname).symm⟩
  rw [Heap.entries, h.directories p hparent, h.files p hparent, List.mem_append]
  by_cases hdir : IsDirectory (p ++ [c])
  · exact Or.inl (List.mem_map_of_mem (mem_below.2 ⟨hmem, List.dropLast_concat, hdir⟩))
  · exact Or.inr (List.mem_map_of_mem (mem_below.2 ⟨hmem, List.dropLast_concat, hdir⟩))

theorem NodeArrays.of_mem_entries (h : NodeArrays heap node ps) (hp : p ∈ [] :: ps)
    (ht : t ∈ heap.entries (node p)) : p ++ [t.name] ∈ ps ∧ t = node (p ++ [t.name]) :=
  h.entry hp (List.mem_append.1 ht)

/-- Components lead to the node of the longer path. -/
theorem NodeArrays.leads_iff (h : NodeArrays heap node ps) (hp : p ∈ [] :: ps) :
    Leads heap (node p) cs u ↔ p ++ cs ∈ [] :: ps ∧ u = node (p ++ cs) := by
  induction cs generalizing p with
  | nil =>
      rw [List.append_nil]
      constructor
      · intro hleads
        cases hleads
        exact ⟨hp, rfl⟩
      · rintro ⟨-, rfl⟩
        exact Leads.here
  | cons c cs ih =>
      have hsplit : p ++ c :: cs = (p ++ [c]) ++ cs := List.append_cons p c cs
      rw [hsplit]
      constructor
      · intro hleads
        cases hleads with
        | @step _ t _ _ ht hrest =>
            rcases h.of_mem_entries hp ht with ⟨hmem, hnode⟩
            rw [hnode] at hrest
            exact (ih (List.mem_cons_of_mem _ hmem)).1 hrest
      · rintro ⟨hmem, rfl⟩
        have hchild := h.prefix_mem hmem (List.prefix_append _ cs)
        have hps : p ++ [c] ∈ ps := (List.mem_cons.1 hchild).resolve_left
          (List.append_ne_nil_of_right_ne_nil _ (List.cons_ne_nil _ _))
        rcases h.mem_entries hps with ⟨hentry, hname⟩
        have hstep := Leads.step hentry ((ih hchild).2 ⟨hmem, rfl⟩)
        rwa [hname] at hstep

/-- The entries of a node have distinct names. -/
theorem NodeArrays.names_nodup (h : NodeArrays heap node ps) (hnodup : ps.Nodup)
    (hp : p ∈ [] :: ps) : ((heap.entries (node p)).map Tnode.name).Nodup := by
  have hmem : ∀ r ∈ directoriesIn ps p ++ filesIn ps p, r ∈ ps ∧ r.dropLast = p := by
    intro r hr
    rcases List.mem_append.1 hr with hr | hr
    all_goals exact ⟨(mem_below.1 hr).1, (mem_below.1 hr).2.1⟩
  have hboth : (directoriesIn ps p ++ filesIn ps p).Nodup := by
    refine List.Nodup.append (hnodup.filter _) (hnodup.filter _) fun r hdir hfile => ?_
    exact (mem_below.1 hfile).2.2 (mem_below.1 hdir).2.2
  have hpath : ∀ r ∈ directoriesIn ps p ++ filesIn ps p, r = p ++ [(node r).name] := fun r hr =>
    h.eq_concat (hmem r hr).1 (hmem r hr).2 rfl
  rw [Heap.entries, h.directories p hp, h.files p hp, ← List.map_append, List.map_map]
  refine hboth.map_on fun r hr r' hr' heq => ?_
  have hname : (node r).name = (node r').name := heq
  rw [hpath r hr, hpath r' hr', hname]

/-- The tree below a path, where only directories have entries. -/
theorem NodeArrays.searchable (h : NodeArrays heap node ps) (hnodup : ps.Nodup)
    (hflags : ∀ p ∈ [] :: ps, heap.entries (node p) ≠ [] →
      (heap.inodes (node p).linkToInode).flags = FS_DIRECTORY ∨
        (heap.inodes (node p).linkToInode).flags = FS_MOUNTPOINT) (n : Nat)
    (hp : p ∈ [] :: ps) (hdepth : ∀ r ∈ ps, r.length ≤ p.length + n) :
    Searchable heap (node p) := by
  induction n generalizing p with
  | zero =>
      refine Searchable.leaf (List.eq_nil_iff_forall_not_mem.2 fun t ht => ?_)
      have hlength := hdepth _ (h.of_mem_entries hp ht).1
      rw [List.length_append, List.length_singleton] at hlength
      omega
  | succ n ih =>
      by_cases hempty : heap.entries (node p) = []
      · exact Searchable.leaf hempty
      · refine Searchable.directory (hflags p hp hempty) (h.names_nodup hnodup hp) fun t ht => ?_
        rcases h.of_mem_entries hp ht with ⟨hmem, hnode⟩
        rw [hnode]
        refine ih (List.mem_cons_of_mem _ hmem) fun r hr => ?_
        have hlength := hdepth r hr
        rw [List.length_append, List.length_singleton]
        omega

/-- In the tree of an archive only the root and the directories have entries. -/
theorem NodeArrays.isDirectory_of_entries (h : NodeArrays heap node (archivePaths ms).eraseDups)
    (hp : p ∈ [] :: (archivePaths ms).eraseDups) (hentries : heap.entries (node p) ≠ []) :
    p = [] ∨ IsDirectory p := by
  rcases List.exists_mem_of_ne_nil _ hentries with ⟨t, ht⟩
  have hmem := List.mem_eraseDups.1 (h.of_mem_entries hp ht).1
  rcases mem_archivePaths.1 hmem with ⟨m, -, -, hprefix⟩
  rcases List.eq_nil_or_concat p with rfl | ⟨q, c, rfl⟩
  · exact Or.inl rfl
  · right
    rw [List.concat_eq_append] at hprefix ⊢
    by_contra hfile
    -- below a file there is nothing
    have hsame := eq_of_file_prefix ((List.prefix_append _ [t.name]).trans hprefix)
      (List.concat_ne_nil _ _) hfile
    have hlength := hprefix.length_le
    rw [← hsame, List.length_append, List.length_singleton] at hlength
    omega

/-- Every node of the tree is one that `load_tarfs` has made, with the flags of its kind. -/
theorem NodeArrays.mem_made (h : NodeArrays heap node ps) (hheap : L.heap = heap)
    (hmade : Made (node []).linkToInode pages old made L) (hp : p ∈ [] :: ps) :
    (node p).linkToInode ∈ made ∧
      (IsDirectory p → (heap.inodes (node p).linkToInode).flags = FS_DIRECTORY) := by
  induction p using List.reverseRecOn with
  | nil => exact ⟨hmade.base, fun hdir => absurd hdir (by simp [IsDirectory])⟩
  | append_singleton p c ih =>
      have hmem : p ++ [c] ∈ ps := (List.mem_cons.1 hp).resolve_left
        (List.append_ne_nil_of_right_ne_nil _ (List.cons_ne_nil _ _))
      have hparent := h.closed _ hmem
      rw [List.dropLast_concat] at hparent
      have hin := (ih hparent).1
      subst hheap
      by_cases hdir : IsDirectory (p ++ [c])
      · have hentry : node (p ++ [c]) ∈ (L.heap.inodes (node p).linkToInode).subDirectoryList := by
          rw [h.directories p hparent]
          exact List.mem_map_of_mem (mem_below.2 ⟨hmem, List.dropLast_concat, hdir⟩)
        rcases hmade.directories _ hin _ hentry with ⟨hlink, hflags⟩
        exact ⟨hlink, fun _ => hflags⟩
      · have hentry : node (p ++ [c]) ∈ (L.heap.inodes (node p).linkToInode).subFilesList := by
          rw [h.files p hparent]
          exact List.mem_map_of_mem (mem_below.2 ⟨hmem, List.dropLast_concat, hdir⟩)
        exact ⟨(hmade.files _ hin _ hentry).1, fun h => absurd h hdir⟩

end Files

end OswpKernel
