import OswpKernel.Files.Names
import Mathlib.Data.Set.Function

/-!
# Tree — the tree that `load_tarfs` builds

The nodes below the root are given by their paths: the components of the name of a member, and the
directories on the way there.  `NodeArrays` says that the arrays of the inodes hold the nodes of a
list of paths, in the order of the list; entering a component adds one path to the list, or none
when the directory is there.
-/

namespace OswpKernel

namespace Files

abbrev Path := List (List UInt8)

/-- The last component is a directory. -/
def IsDirectory (p : Path) : Prop := ∃ c ∈ p.getLast?, EndsWithSlash c

instance (p : Path) : Decidable (IsDirectory p) :=
  match h : p.getLast? with
  | none => isFalse (by rintro ⟨c, hc, -⟩; rw [h] at hc; cases hc)
  | some c => decidable_of_iff (EndsWithSlash c) (by simp [IsDirectory, h])

/-- The paths in the directory `p` for which `D` holds. -/
def below (D : Path → Prop) [DecidablePred D] (ps : List Path) (p : Path) : List Path :=
  ps.filter fun q => q.dropLast = p ∧ D q

abbrev directoriesIn : List Path → Path → List Path := below IsDirectory

abbrev filesIn : List Path → Path → List Path := below fun p => ¬ IsDirectory p

variable {ps qs all : List Path} {total : Nat} {p q : Path} {c name : List UInt8}
  {node node' : Path → Tnode} {heap heap' : Heap} {t : Tnode} {L L' : Loader} {subName size : Word}
  {page : Nat} {x dir : InodeRef}

theorem isDirectory_concat : IsDirectory (p ++ [c]) ↔ EndsWithSlash c := by
  simp [IsDirectory]

/-! ## Paths in order of first appearance -/

theorem eraseDups_concat (qs : List Path) (q : Path) :
    (qs ++ [q]).eraseDups = if q ∈ qs then qs.eraseDups else qs.eraseDups ++ [q] := by
  rw [List.eraseDups_append]
  split_ifs with hmem
  · have hnone : [q].removeAll qs = [] := by
      rw [List.removeAll, List.filter_eq_nil_iff]
      intro r hr
      rw [List.mem_singleton.1 hr]
      simp [hmem]
    rw [hnone]
    exact List.append_nil _
  · have hall : [q].removeAll qs = [q] := by
      rw [List.removeAll, List.filter_eq_self]
      intro r hr
      rw [List.mem_singleton.1 hr]
      simp [hmem]
    rw [hall]
    rfl

theorem prefix_eraseDups (h : qs <+: all) : qs.eraseDups <+: all.eraseDups := by
  rcases h with ⟨rest, rfl⟩
  rw [List.eraseDups_append]
  exact List.prefix_append _ _

theorem nodup_eraseDups (all : List Path) : all.eraseDups.Nodup := by
  induction all using List.reverseRecOn with
  | nil => exact List.nodup_nil
  | append_singleton all p ih =>
      rw [eraseDups_concat]
      split_ifs with hmem
      · exact ih
      · refine ih.append (List.nodup_singleton p) fun q hq hqp => ?_
        rw [List.mem_singleton.1 hqp, List.mem_eraseDups] at hq
        exact hmem hq

theorem mem_below {D : Path → Prop} [DecidablePred D] :
    q ∈ below D ps p ↔ q ∈ ps ∧ q.dropLast = p ∧ D q := by
  rw [below, List.mem_filter, decide_eq_true_eq]

theorem below_concat (D : Path → Prop) [DecidablePred D] (ps : List Path) (q r : Path) :
    below D (ps ++ [r]) q = below D ps q ++ if r.dropLast = q ∧ D r then [r] else [] := by
  rw [below, below, List.filter_append]
  congr 1
  split_ifs with h
  · exact List.filter_cons_of_pos (decide_eq_true h)
  · exact List.filter_cons_of_neg (by simpa using h)

/-! ## The tree -/

/-- The arrays of the inodes hold the nodes of the paths `ps` in order; `node []` is the root. -/
structure NodeArrays (h : Heap) (node : Path → Tnode) (ps : List Path) : Prop where
  nonempty : [] ∉ ps
  closed : ∀ p ∈ ps, p.dropLast ∈ [] :: ps
  apart : ∀ p ∈ [] :: ps, ∀ q ∈ [] :: ps, (node p).linkToInode = (node q).linkToInode → p = q
  name : ∀ p ∈ ps, p.getLast? = some (node p).name
  directories : ∀ p ∈ [] :: ps,
    (h.inodes (node p).linkToInode).subDirectoryList = (directoriesIn ps p).map node
  files : ∀ p ∈ [] :: ps, (h.inodes (node p).linkToInode).subFilesList = (filesIn ps p).map node

/-- Nothing is entered below a path that is not there. -/
theorem NodeArrays.none_in (h : NodeArrays heap node ps) (hq : q ∉ [] :: ps) {r : Path}
    (hr : r ∈ ps) : r.dropLast ≠ q := fun heq => hq (heq ▸ h.closed r hr)

theorem NodeArrays.add (h : NodeArrays heap node ps) (hp : p ∈ [] :: ps) (hnew : p ++ [c] ∉ ps)
    (hname : t.name = c) (hfresh : ∀ q ∈ [] :: ps, (node q).linkToInode ≠ t.linkToInode)
    (hempty : (heap'.inodes t.linkToInode).subDirectoryList = [] ∧
      (heap'.inodes t.linkToInode).subFilesList = [])
    (hdirs : ∀ q ∈ [] :: ps, (heap'.inodes (node q).linkToInode).subDirectoryList =
      (heap.inodes (node q).linkToInode).subDirectoryList ++
        if q = p ∧ IsDirectory (p ++ [c]) then [t] else [])
    (hfiles : ∀ q ∈ [] :: ps, (heap'.inodes (node q).linkToInode).subFilesList =
      (heap.inodes (node q).linkToInode).subFilesList ++
        if q = p ∧ ¬ IsDirectory (p ++ [c]) then [t] else []) :
    NodeArrays heap' (Function.update node (p ++ [c]) t) (ps ++ [p ++ [c]]) := by
  have hne : p ++ [c] ≠ [] := List.append_ne_nil_of_right_ne_nil _ (List.cons_ne_nil _ _)
  have hnew' : p ++ [c] ∉ [] :: ps := by
    rw [List.mem_cons, not_or]
    exact ⟨hne, hnew⟩
  have hold : ∀ q ∈ [] :: ps, Function.update node (p ++ [c]) t q = node q := by
    intro q hq
    refine Function.update_of_ne ?_ ..
    rintro rfl
    exact hnew' hq
  have hself : Function.update node (p ++ [c]) t (p ++ [c]) = t := Function.update_self ..
  have hmem : ∀ q, q ∈ [] :: (ps ++ [p ++ [c]]) ↔ q ∈ [] :: ps ∨ q = p ++ [c] := fun q => by
    rw [← List.cons_append, List.mem_append, List.mem_singleton]
  have hnone : ∀ r ∈ ps, r.dropLast ≠ p ++ [c] := fun r hr => h.none_in hnew' hr
  have hparent : p ≠ p ++ [c] := fun heq => by
    have hlen := congrArg List.length heq
    rw [List.length_append, List.length_singleton] at hlen
    omega
  -- the two arrays of an inode change in the same way
  have hlist : ∀ (D : Path → Prop) [DecidablePred D] (array array' : InodeRef → List Tnode),
      (∀ q ∈ [] :: ps, array (node q).linkToInode = (below D ps q).map node) →
      array' t.linkToInode = [] →
      (∀ q ∈ [] :: ps, array' (node q).linkToInode =
        array (node q).linkToInode ++ if q = p ∧ D (p ++ [c]) then [t] else []) →
      ∀ q ∈ [] :: (ps ++ [p ++ [c]]),
        array' (Function.update node (p ++ [c]) t q).linkToInode =
          (below D (ps ++ [p ++ [c]]) q).map (Function.update node (p ++ [c]) t) := by
    intro D _ array array' hbefore hnil hafter q hq
    have hmap : (below D ps q).map (Function.update node (p ++ [c]) t) = (below D ps q).map node :=
      List.map_congr_left fun r hr => hold r (List.mem_cons_of_mem _ (mem_below.1 hr).1)
    rw [below_concat, List.map_append, List.dropLast_concat, hmap]
    rcases (hmem q).1 hq with hq | rfl
    · rw [hold q hq, hafter q hq, hbefore q hq]
      by_cases hand : p = q ∧ D (p ++ [c])
      · rw [if_pos ⟨hand.1.symm, hand.2⟩, if_pos hand, List.map_singleton, hself]
      · rw [if_neg fun h => hand ⟨h.1.symm, h.2⟩, if_neg hand, List.map_nil]
    · have hbelow : below D ps (p ++ [c]) = [] :=
        List.eq_nil_iff_forall_not_mem.2 fun r hr => hnone r (mem_below.1 hr).1 (mem_below.1 hr).2.1
      rw [hself, hnil, hbelow, if_neg fun hand => hparent hand.1]
      rfl
  refine ⟨?_, fun q hq => ?_, fun q hq r hr heq => ?_, fun q hq => ?_, fun q hq => ?_,
    fun q hq => ?_⟩
  · rw [List.mem_append, List.mem_singleton, not_or]
    exact ⟨h.nonempty, hne.symm⟩
  · rw [hmem]
    rcases List.mem_append.1 hq with hq | hq
    · exact Or.inl (h.closed q hq)
    · rw [List.mem_singleton.1 hq, List.dropLast_concat]
      exact Or.inl hp
  · rcases (hmem q).1 hq with hq | rfl <;> rcases (hmem r).1 hr with hr | rfl
    · rw [hold q hq, hold r hr] at heq
      exact h.apart q hq r hr heq
    · rw [hold q hq, hself] at heq
      exact absurd heq (hfresh q hq)
    · rw [hold r hr, hself] at heq
      exact absurd heq.symm (hfresh r hr)
    · rfl
  · rcases List.mem_append.1 hq with hq | hq
    · rw [hold q (List.mem_cons_of_mem _ hq)]
      exact h.name q hq
    · rw [List.mem_singleton.1 hq, hself, hname, List.getLast?_concat]
  · exact hlist IsDirectory (fun x => (heap.inodes x).subDirectoryList)
      (fun x => (heap'.inodes x).subDirectoryList) h.directories hempty.1 hdirs q hq
  · exact hlist (fun r => ¬ IsDirectory r) (fun x => (heap.inodes x).subFilesList)
      (fun x => (heap'.inodes x).subFilesList) h.files hempty.2 hfiles q hq

/-! ## Entering a component -/

/-- No entry of an array at `a` has its name where the buffer has a component. -/
def OffBuffer (subName a : Word) : Prop :=
  ∀ i, i < Heap.maxEntries → ∀ l, l < 6 →
    a + BitVec.ofNat 64 (32 * i) ≠ subName + BitVec.ofNat 64 (10 * l)

/-- A page below the buffer. -/
theorem offBuffer_of_le {a : Word} (hbelow : a.toNat + 4096 ≤ subName.toNat)
    (hend : subName.toNat + 60 ≤ 2 ^ 64) : OffBuffer subName a := by
  intro i hi l hl heq
  have hentry : 32 * i < 4096 := Nat.mul_lt_mul_of_pos_left hi (by decide)
  have hnat := congrArg BitVec.toNat heq
  rw [BitVec.toNat_add, BitVec.toNat_add, BitVec.toNat_ofNat, BitVec.toNat_ofNat,
    Nat.mod_eq_of_lt (a := 32 * i) (by omega), Nat.mod_eq_of_lt (a := 10 * l) (by omega),
    Nat.mod_eq_of_lt (by omega), Nat.mod_eq_of_lt (by omega)] at hnat
  omega

/-- What an inode says of a file, its arrays apart. -/
def Inode.file (inode : Inode) : Nat × Word × Word × Bool :=
  (inode.flags, inode.startingPosition, inode.offset, inode.read)

/-- The nodes `ps` of `total` nodes have been made. -/
structure Loading (subName : Word) (total : Nat) (ps : List Path) (L : Loader)
    (node : Path → Tnode) : Prop where
  mirrors : NodeArrays L.heap node ps
  nodup : L.pages.Nodup
  fresh : ∀ x ∈ L.pages, ∀ q ∈ [] :: ps, (node q).linkToInode ≠ x
  -- two pages for each node that is still to come
  enough : 2 * total ≤ 2 * ps.length + L.pages.length
  arrays : ∀ q ∈ [] :: ps, OffBuffer subName (L.filesAt (node q).linkToInode)
  pagesOff : ∀ page ∈ L.pages, OffBuffer subName (pageAddress page)
  null : OffBuffer subName 0

/-- Nodes that are there stay what they are. -/
structure Kept (ps : List Path) (L : Loader) (node : Path → Tnode) (L' : Loader)
    (node' : Path → Tnode) : Prop where
  nodes : ∀ q ∈ [] :: ps, node' q = node q
  file : ∀ q ∈ [] :: ps,
    (L'.heap.inodes (node q).linkToInode).file = (L.heap.inodes (node q).linkToInode).file

/-- The node `t` has been made and entered in the directory `dir`. -/
structure Pushed (L L' : Loader) (dir : InodeRef) (c : List UInt8) (t : Tnode) (page : Nat) :
    Prop where
  pages : L.pages = page :: t.linkToInode :: L'.pages
  name : t.name = c
  empty : (L'.heap.inodes t.linkToInode).subDirectoryList = [] ∧
    (L'.heap.inodes t.linkToInode).subFilesList = []
  directories : ∀ y, y ≠ t.linkToInode → (L'.heap.inodes y).subDirectoryList =
    (L.heap.inodes y).subDirectoryList ++ if y = dir ∧ EndsWithSlash c then [t] else []
  files : ∀ y, y ≠ t.linkToInode → (L'.heap.inodes y).subFilesList =
    (L.heap.inodes y).subFilesList ++ if y = dir ∧ ¬ EndsWithSlash c then [t] else []
  file : ∀ y, y ≠ t.linkToInode → (L'.heap.inodes y).file = (L.heap.inodes y).file
  filesAt : ∀ y, L'.filesAt y = L.filesAt y ∨ L'.filesAt y = 0 ∨ L'.filesAt y = pageAddress page
  newArray : L'.filesAt t.linkToInode = 0

theorem Pushed.link_mem (h : Pushed L L' dir c t page) : t.linkToInode ∈ L.pages := by
  rw [h.pages]
  exact List.mem_cons_of_mem _ List.mem_cons_self

theorem Pushed.mem_pages (h : Pushed L L' dir c t page) (hx : x ∈ L'.pages) : x ∈ L.pages := by
  rw [h.pages]
  exact List.mem_cons_of_mem _ (List.mem_cons_of_mem _ hx)

/-- The new array, if the directory gets one, is on a page of its own. -/
theorem Pushed.offBuffer (h : Pushed L L' dir c t page) (hnull : OffBuffer subName 0)
    (hpages : ∀ page ∈ L.pages, OffBuffer subName (pageAddress page)) {y : InodeRef}
    (hy : OffBuffer subName (L.filesAt y)) : OffBuffer subName (L'.filesAt y) := by
  rcases h.filesAt y with heq | heq | heq <;> rw [heq]
  · exact hy
  · exact hnull
  · exact hpages page (by rw [h.pages]; exact List.mem_cons_self)

theorem Kept.refl (ps : List Path) (L : Loader) (node : Path → Tnode) : Kept ps L node L node :=
  ⟨fun _ _ => rfl, fun _ _ => rfl⟩

theorem Kept.trans {L'' : Loader} {node'' : Path → Tnode} {ps' : List Path}
    (h : Kept ps L node L' node') (h' : Kept ps' L' node' L'' node'') (hsub : ps ⊆ ps') :
    Kept ps L node L'' node'' := by
  have hmem : ∀ q ∈ [] :: ps, q ∈ [] :: ps' := fun q hq =>
    List.cons_subset_cons [] hsub hq
  refine ⟨fun q hq => (h'.nodes q (hmem q hq)).trans (h.nodes q hq), fun q hq => ?_⟩
  have hfile := h'.file q (hmem q hq)
  rw [h.nodes q hq] at hfile
  exact hfile.trans (h.file q hq)

/-- The node of a new path. -/
theorem Loading.push (h : Loading subName total ps L node) (hp : p ∈ [] :: ps)
    (hnew : p ++ [c] ∉ ps) (hpush : Pushed L L' (node p).linkToInode c t page) :
    Loading subName total (ps ++ [p ++ [c]]) L' (Function.update node (p ++ [c]) t) ∧
      Kept ps L node L' (Function.update node (p ++ [c]) t) := by
  have hpages := h.nodup
  rw [hpush.pages] at hpages
  rw [List.nodup_cons, List.nodup_cons] at hpages
  have hfresh := h.fresh _ hpush.link_mem
  -- nodes on different pages are different entries, so the entry is added to the list of `p` alone
  have hat : ∀ q ∈ [] :: ps,
      ((node q).linkToInode = (node p).linkToInode ↔ q = p) := fun q hq =>
    ⟨h.mirrors.apart q hq p hp, fun heq => heq ▸ rfl⟩
  have hmem : ∀ q, q ∈ [] :: (ps ++ [p ++ [c]]) ↔ q ∈ [] :: ps ∨ q = p ++ [c] :=
    fun q => by rw [← List.cons_append, List.mem_append, List.mem_singleton]
  have hold : ∀ q ∈ [] :: ps, Function.update node (p ++ [c]) t q = node q := by
    intro q hq
    refine Function.update_of_ne ?_ ..
    rintro rfl
    rcases List.mem_cons.1 hq with hnil | hq
    · exact List.append_ne_nil_of_right_ne_nil _ (List.cons_ne_nil _ _) hnil
    · exact hnew hq
  have hboth : ∀ (P : Prop) [Decidable P], ∀ q ∈ [] :: ps,
      (if (node q).linkToInode = (node p).linkToInode ∧ P then [t] else []) =
        if q = p ∧ P then [t] else [] := fun P _ q hq =>
    if_congr (and_congr_left' (hat q hq)) rfl rfl
  refine ⟨⟨?_, hpages.2.2, fun x hx q hq => ?_, ?_, fun q hq => ?_,
    fun x hx => h.pagesOff x (hpush.mem_pages hx), h.null⟩,
    hold, fun q hq => hpush.file _ (hfresh q hq)⟩
  · refine h.mirrors.add hp hnew hpush.name (fun q hq => hfresh q hq) hpush.empty
      (fun q hq => ?_) fun q hq => ?_
    · rw [hpush.directories _ (hfresh q hq), hboth _ q hq]
      exact congrArg _ (if_congr (and_congr_right' isDirectory_concat.symm) rfl rfl)
    · rw [hpush.files _ (hfresh q hq), hboth _ q hq]
      exact congrArg _ (if_congr (and_congr_right' (not_congr isDirectory_concat.symm)) rfl rfl)
  · rw [hmem] at hq
    rcases hq with hq | rfl
    · rw [hold q hq]
      exact h.fresh x (hpush.mem_pages hx) q hq
    · rw [Function.update_self]
      rintro rfl
      exact hpages.2.1 hx
  · have henough := h.enough
    rw [hpush.pages, List.length_cons, List.length_cons] at henough
    rw [List.length_append, List.length_singleton]
    omega
  · rw [hmem] at hq
    rcases hq with hq | rfl
    · rw [hold q hq]
      exact hpush.offBuffer h.null h.pagesOff (h.arrays q hq)
    · rw [Function.update_self, hpush.newArray]
      exact h.null

theorem setInode_setInode (h : Heap) (x : InodeRef) (inode inode' : Inode) :
    (h.setInode x inode).setInode x inode' = h.setInode x inode' := by
  rw [Heap.setInode, Heap.setInode, Heap.setInode, Function.update_idem]

theorem createTNode_eq {rest : List Nat} (hpages : L.pages = page :: x :: rest)
    (hname : name.length ≤ 9) :
    L.createTNode name = some (page, ⟨name, L.heap.stale x, x⟩,
      { heap := L.heap.createSysNode x, pages := rest
        filesAt := Function.update L.filesAt x 0 }) := by
  have hfirst : L.bump = some (page, { L with pages := x :: rest }) := by
    rw [Loader.bump, hpages]
  have hsecond : ({ L with pages := x :: rest } : Loader).bump =
      some (x, { L with pages := rest }) := rfl
  have hnode : L.heap.createTNode x name =
      some (⟨name, L.heap.stale x, x⟩, L.heap.createSysNode x) := if_pos hname
  rw [Loader.createTNode, hfirst, Option.bind_eq_bind, Option.bind_some]
  dsimp only
  rw [hsecond, Option.bind_some, hnode]
  rfl

/-- An inode on the page `x`, then an entry in the directory `dir`. -/
theorem pushed_of {rest : List Nat} (new old : Inode) (filesAt : InodeRef → Word)
    (hpages : L.pages = page :: x :: rest) (hne : dir ≠ x)
    (hnew : new.subDirectoryList = [] ∧ new.subFilesList = [])
    (hold : old.file = (L.heap.inodes dir).file)
    (hdirs : old.subDirectoryList =
      (L.heap.inodes dir).subDirectoryList ++ if EndsWithSlash name then [⟨name, size, x⟩] else [])
    (hfiles : old.subFilesList =
      (L.heap.inodes dir).subFilesList ++ if ¬ EndsWithSlash name then [⟨name, size, x⟩] else [])
    (hat : ∀ y, y ≠ dir → filesAt y = Function.update L.filesAt x 0 y)
    (hdir : filesAt dir = L.filesAt dir ∨ filesAt dir = pageAddress page) :
    Pushed L ⟨(L.heap.setInode x new).setInode dir old, rest, filesAt⟩ dir name ⟨name, size, x⟩
      page := by
  have hx : ((L.heap.setInode x new).setInode dir old).inodes x = new := by
    rw [Heap.setInode_of_ne _ _ hne.symm, Heap.setInode_self]
  -- all inodes but the new one and that of the directory are as they were
  have hother : ∀ y, y ≠ x → y ≠ dir →
      ((L.heap.setInode x new).setInode dir old).inodes y = L.heap.inodes y := fun y hy hdir => by
    rw [Heap.setInode_of_ne _ _ hdir, Heap.setInode_of_ne _ _ hy]
  refine ⟨hpages, rfl, ?_, fun y hy => ?_, fun y hy => ?_, fun y hy => ?_, fun y => ?_, ?_⟩
  · rw [hx]
    exact hnew
  · by_cases hdir : y = dir
    · subst hdir
      rw [Heap.setInode_self, hdirs]
      simp only [true_and]
    · rw [hother y hy hdir, if_neg fun h => hdir h.1, List.append_nil]
  · by_cases hdir : y = dir
    · subst hdir
      rw [Heap.setInode_self, hfiles]
      simp only [true_and]
    · rw [hother y hy hdir, if_neg fun h => hdir h.1, List.append_nil]
  · by_cases hdir : y = dir
    · subst hdir
      rw [Heap.setInode_self, hold]
    · rw [hother y hy hdir]
  · by_cases hy : y = dir
    · subst hy
      rcases hdir with h | h
      · exact Or.inl h
      · exact Or.inr (Or.inr h)
    · dsimp only
      rw [hat y hy]
      by_cases hyx : y = x
      · rw [hyx, Function.update_self]
        exact Or.inr (Or.inl rfl)
      · exact Or.inl (Function.update_of_ne hyx ..)
  · dsimp only
    rw [hat x hne.symm, Function.update_self]

theorem enterDirectory_push {rest : List Nat} (size : Word) (hpages : L.pages = page :: x :: rest)
    (hname : name.length ≤ 9) (hslash : EndsWithSlash name) (hne : dir ≠ x)
    (hnone : folderExist (L.heap.inodes dir) name = none)
    (hroom : (L.heap.inodes dir).subDirectoryList.length < Heap.maxEntries) :
    ∃ L', L.enterDirectory dir name size = some (x, L') ∧
      Pushed L L' dir name ⟨name, size, x⟩ page := by
  refine ⟨_, ?_, pushed_of
    { L.heap.inodes x with flags := FS_DIRECTORY, subDirectoryList := [], subFilesList := [] }
    { L.heap.inodes dir with
      subDirectoryList := (L.heap.inodes dir).subDirectoryList ++ [⟨name, size, x⟩] }
    (Function.update L.filesAt x 0) hpages hne ⟨rfl, rfl⟩ rfl (by rw [if_pos hslash])
    (by rw [if_neg (not_not.2 hslash), List.append_nil])
    (fun y _ => rfl) (Or.inl (Function.update_of_ne hne ..))⟩
  rw [Loader.enterDirectory, hnone]
  dsimp only
  rw [createTNode_eq hpages hname, Option.bind_eq_bind, Option.bind_some]
  dsimp only [Loader.setInode, Loader.pushDirectory, Heap.createSysNode]
  rw [setInode_setInode, Heap.setInode_of_ne _ _ hne, if_pos hroom]
  simp only [Heap.setInode_self]
  rfl

theorem enterFile_push {rest : List Nat} {fileName : Word} (size header : Word)
    (hpages : L.pages = page :: x :: rest)
    (hname : name.length ≤ 9) (hslash : ¬ EndsWithSlash name) (hne : dir ≠ x)
    (hnone : fileExist (L.filesAt dir) fileName (L.heap.inodes dir).subDirectoryList.length = none)
    (hroom : (L.heap.inodes dir).subFilesList.length < Heap.maxEntries) :
    ∃ L', L.enterFile dir name fileName size header = some (x, L') ∧
      Pushed L L' dir name ⟨name, size, x⟩ page ∧
      (L'.heap.inodes x).file = (FS_FILE, header + 512, 0, true) := by
  refine ⟨_, ?_, pushed_of
    { L.heap.inodes x with
      flags := FS_FILE, read := true, startingPosition := header + 512, offset := 0
      subDirectoryList := [], subFilesList := [] }
    { L.heap.inodes dir with
      subFilesList := (L.heap.inodes dir).subFilesList ++ [⟨name, size, x⟩] }
    (if (L.heap.inodes dir).subFilesList = [] then
      Function.update (Function.update L.filesAt x 0) dir (pageAddress page)
      else Function.update L.filesAt x 0)
    hpages hne ⟨rfl, rfl⟩ rfl (by rw [if_neg hslash, List.append_nil]) (by rw [if_pos hslash])
    (fun y hy => ?_) ?_, ?_⟩
  · rw [Loader.enterFile, hnone]
    dsimp only
    rw [createTNode_eq hpages hname, Option.bind_eq_bind, Option.bind_some]
    dsimp only [Loader.setInode, Loader.pushFile, Heap.pushFile, Heap.createSysNode]
    rw [setInode_setInode, Heap.setInode_of_ne _ _ hne, if_pos hroom]
    simp only [Heap.setInode_self]
    rfl
  · split_ifs
    · exact Function.update_of_ne hy ..
    · rfl
  · split_ifs
    · exact Or.inr (Function.update_self ..)
    · exact Or.inl (Function.update_of_ne hne ..)
  · rw [Heap.setInode_of_ne _ _ hne.symm, Heap.setInode_self]
    rfl

/-- No directory has more entries of a kind than a page of tnodes holds. -/
def Room (all : List Path) : Prop :=
  ∀ p, (directoriesIn all.eraseDups p).length ≤ Heap.maxEntries ∧
    (filesIn all.eraseDups p).length ≤ Heap.maxEntries

theorem exists_twoPages (h : 2 ≤ L.pages.length) : ∃ page x rest, L.pages = page :: x :: rest := by
  rcases hpages : L.pages with _ | ⟨page, _ | ⟨x, rest⟩⟩
  · rw [hpages] at h
    exact absurd h (by decide)
  · rw [hpages] at h
    exact absurd h (by rw [List.length_singleton]; decide)
  · exact ⟨page, x, rest, rfl⟩

theorem Loading.twoPages (h : Loading subName all.eraseDups.length qs.eraseDups L node)
    (hnext : qs ++ [q] <+: all) (hnew : q ∉ qs) : ∃ page x rest, L.pages = page :: x :: rest := by
  have hle := (prefix_eraseDups hnext).length_le
  have henough := h.enough
  rw [eraseDups_concat, if_neg hnew, List.length_append, List.length_singleton] at hle
  exact exists_twoPages (by omega)

theorem length_below_lt {D : Path → Prop} [DecidablePred D] {n : Nat}
    (hall : (below D all.eraseDups p).length ≤ n) (hnext : qs ++ [p ++ [c]] <+: all)
    (hnew : p ++ [c] ∉ qs) (hD : D (p ++ [c])) : (below D qs.eraseDups p).length < n := by
  have hle := ((prefix_eraseDups hnext).sublist.filter fun q => q.dropLast = p ∧ D q).length_le
  rw [eraseDups_concat, if_neg hnew] at hle
  change (below D (qs.eraseDups ++ [p ++ [c]]) p).length ≤ _ at hle
  rw [below_concat, if_pos ⟨List.dropLast_concat, hD⟩, List.length_append,
    List.length_singleton] at hle
  exact Nat.lt_of_succ_le (hle.trans hall)

/-- A path is its parent and the name of its node. -/
theorem NodeArrays.eq_concat (h : NodeArrays heap node ps) {r : List (List UInt8)} (hr : r ∈ ps)
    (hparent : r.dropLast = p) (hlast : (node r).name = c) : r = p ++ [c] := by
  have hget := h.name r hr
  rw [hlast] at hget
  rcases List.getLast?_eq_some_iff.1 hget with ⟨init, rfl⟩
  rw [List.dropLast_concat] at hparent
  rw [hparent]

/-- A directory that has been entered before is found. -/
theorem NodeArrays.folderExist_some (h : NodeArrays heap node ps) (hp : p ∈ [] :: ps)
    (hmem : p ++ [c] ∈ ps) (hslash : EndsWithSlash c) :
    folderExist (heap.inodes (node p).linkToInode) c = some (node (p ++ [c])) := by
  have hself : (node (p ++ [c])).name = c := by
    have hget := h.name _ hmem
    rw [List.getLast?_concat] at hget
    exact (Option.some_inj.1 hget).symm
  have hin : node (p ++ [c]) ∈ (directoriesIn ps p).map node :=
    List.mem_map_of_mem (mem_below.2 ⟨hmem, List.dropLast_concat, isDirectory_concat.2 hslash⟩)
  rw [folderExist, h.directories p hp]
  cases hfind : ((directoriesIn ps p).map node).find? fun t => t.name = c with
  | none => exact absurd hself (by simpa using List.find?_eq_none.1 hfind _ hin)
  | some t =>
      rcases List.mem_map.1 (List.mem_of_find?_eq_some hfind) with ⟨r, hr, rfl⟩
      have hlast : (node r).name = c := by simpa using List.find?_some hfind
      rcases mem_below.1 hr with ⟨hr, hparent, -⟩
      rw [h.eq_concat hr hparent hlast]

theorem NodeArrays.folderExist_none (h : NodeArrays heap node ps) (hp : p ∈ [] :: ps)
    (hnew : p ++ [c] ∉ ps) : folderExist (heap.inodes (node p).linkToInode) c = none := by
  rw [folderExist, h.directories p hp, List.find?_eq_none]
  intro t ht
  rcases List.mem_map.1 ht with ⟨r, hr, rfl⟩
  rcases mem_below.1 hr with ⟨hr, hparent, -⟩
  rw [decide_eq_true_eq]
  intro hlast
  exact hnew (h.eq_concat hr hparent hlast ▸ hr)

/-- The addresses that `file_exist` compares are never equal. -/
theorem OffBuffer.fileExist {a : Word} (h : OffBuffer subName a) {l fileNum : Nat} (hl : l < 6)
    (hnum : fileNum ≤ Heap.maxEntries) :
    fileExist a (subName + BitVec.ofNat 64 (10 * l)) fileNum = none := by
  rw [Files.fileExist, List.find?_eq_none]
  intro i hi
  rw [decide_eq_true_eq]
  exact h i ((List.mem_range.1 hi).trans_le hnum) l hl

/-- One directory of a name. -/
theorem Loading.enterDirectory (size : Word)
    (h : Loading subName all.eraseDups.length qs.eraseDups L node) (hroom : Room all)
    (hp : p ∈ [] :: qs.eraseDups) (hnext : qs ++ [p ++ [c]] <+: all)
    (hslash : EndsWithSlash c) (hlen : c.length ≤ 9) :
    ∃ L' node', L.enterDirectory (node p).linkToInode c size =
        some ((node' (p ++ [c])).linkToInode, L') ∧
      Loading subName all.eraseDups.length (qs ++ [p ++ [c]]).eraseDups L' node' ∧
      Kept qs.eraseDups L node L' node' := by
  rw [eraseDups_concat]
  by_cases hmem : p ++ [c] ∈ qs
  · have hfound := h.mirrors.folderExist_some hp (List.mem_eraseDups.2 hmem) hslash
    refine ⟨L, node, ?_, ?_, Kept.refl _ _ _⟩
    · rw [Loader.enterDirectory, hfound]
    · rwa [if_pos hmem]
  · have hnew : p ++ [c] ∉ qs.eraseDups := fun h => hmem (List.mem_eraseDups.1 h)
    rcases h.twoPages hnext hmem with ⟨page, x, rest, hpages⟩
    have hx : (node p).linkToInode ≠ x := h.fresh x (by rw [hpages]; simp) p hp
    have hlt := length_below_lt (hroom p).1 hnext hmem (isDirectory_concat.2 hslash)
    rcases enterDirectory_push size hpages hlen hslash hx
      (h.mirrors.folderExist_none hp hnew)
      (by rwa [h.mirrors.directories p hp, List.length_map]) with ⟨L', henter, hpush⟩
    rcases h.push hp hnew hpush with ⟨hloading, hkept⟩
    refine ⟨L', _, ?_, ?_, hkept⟩
    · rw [Function.update_self]
      exact henter
    · rwa [if_neg hmem]

/-- The node of a file. -/
structure FileNode (heap : Heap) (t : Tnode) (size header : Word) : Prop where
  size : t.size = size
  file : (heap.inodes t.linkToInode).file = (FS_FILE, header + 512, 0, true)

/-- The file of a name. -/
theorem Loading.enterFile (size header : Word)
    (h : Loading subName all.eraseDups.length qs.eraseDups L node) (hroom : Room all)
    (hp : p ∈ [] :: qs.eraseDups) (hnext : qs ++ [p ++ [c]] <+: all)
    (hslash : ¬ EndsWithSlash c) (hlen : c.length ≤ 9) (hmem : p ++ [c] ∉ qs) {l : Nat}
    (hl : l < 6) :
    ∃ L' node',
      L.enterFile (node p).linkToInode c (subName + BitVec.ofNat 64 (10 * l)) size header =
        some ((node' (p ++ [c])).linkToInode, L') ∧
      Loading subName all.eraseDups.length (qs ++ [p ++ [c]]).eraseDups L' node' ∧
      Kept qs.eraseDups L node L' node' ∧ FileNode L'.heap (node' (p ++ [c])) size header := by
  rw [eraseDups_concat, if_neg hmem]
  have hnew : p ++ [c] ∉ qs.eraseDups := fun h => hmem (List.mem_eraseDups.1 h)
  rcases h.twoPages hnext hmem with ⟨page, x, rest, hpages⟩
  have hx : (node p).linkToInode ≠ x := h.fresh x (by rw [hpages]; simp) p hp
  have hlt := length_below_lt (hroom p).2 hnext hmem fun h => hslash (isDirectory_concat.1 h)
  have hdirs : (L.heap.inodes (node p).linkToInode).subDirectoryList.length ≤ Heap.maxEntries := by
    rw [h.mirrors.directories p hp, List.length_map]
    have hsub := (prefix_eraseDups ((List.prefix_append qs _).trans hnext)).sublist
    exact ((hsub.filter _).length_le).trans (hroom p).1
  rcases enterFile_push size header hpages hlen hslash hx
    ((h.arrays p hp).fileExist hl hdirs)
    (by rwa [h.mirrors.files p hp, List.length_map]) with ⟨L', henter, hpush, hfile⟩
  rcases h.push hp hnew hpush with ⟨hloading, hkept⟩
  refine ⟨L', _, ?_, hloading, hkept, ?_⟩
  · rw [Function.update_self]
    exact henter
  · rw [Function.update_self]
    exact ⟨rfl, hfile⟩

end Files

end OswpKernel
