import OswpKernel.Files.LoadTarfs
import OswpKernel.Files.Splitters
import Mathlib.Data.List.Find

/-!
# Repeated — `load_tarfs` on an archive that names nodes again (`fs.c`)

`folder_exist` compares strings, `file_exist` compares pointers: a directory that is named again is
found, a file that is named again is entered again.  `Built` says that the arrays of the directories
hold the nodes that this makes, and `Built.loadTarfs` that a run keeps to it until the array of some
directory is full.
-/

namespace OswpKernel

namespace Files

/-- A name whose components fit `sub_name`, a file at the top level included. -/
structure EntryName (name : List UInt8) : Prop where
  nonempty : name ≠ []
  nul : (0 : UInt8) ∉ name
  slashes : name.count slash ≤ 5
  directories : ∀ piece ∈ components name, EndsWithSlash piece → piece.length ≤ 9
  files : ∀ piece ∈ components name, ¬ EndsWithSlash piece → piece.length ≤ 8

/-- What `load_tarfs` extracts from one name after the other; the buffer is not cleared between. -/
def extractAll :
    (Nat → Nat → UInt8) → List (List UInt8) → Option (List (List (List UInt8)))
  | _, [] => some []
  | rows, name :: names => do
      let s ← SubName.split ⟨rows, 0, 0⟩ name
      let cs ← readRows s.rows (List.range (s.k + 1))
      let css ← extractAll s.rows names
      return cs :: css

/-- Every directory on the way to a member, then the member. -/
def namedPaths (css : List (List (List UInt8))) : List Path := css.flatMap prefixes

/-- No file is named twice. -/
def FilesDiffer (all : List Path) : Prop := (all.filter fun p => ¬ IsDirectory p).Nodup

variable {made made' all : List Path} {p q r : Path} {c name : List UInt8}
  {node : Path → InodeRef} {L L' : Loader} {t : Tnode} {root x dir : InodeRef} {page total l : Nat}
  {subName size header : Word} {rows : Nat → Nat → UInt8} {cs : List (List UInt8)}
  {css : List (List (List UInt8))} {names : List (List UInt8)} {s : SubName}
  {ns : List (Nat × List UInt8)} {ms : List Member} {m : Member} {mem : Memory} {address : Word}
  {fuel : Nat}

/-! ## The components of a name -/

/-- The buffer after the name, and what is read from it. -/
structure Extracted (rows : Nat → Nat → UInt8) (name : List UInt8) (s : SubName)
    (cs : List (List UInt8)) : Prop where
  split : SubName.split ⟨rows, 0, 0⟩ name = some s
  read : readRows s.rows (List.range (s.k + 1)) = some cs
  rows_lt : s.k < 6
  length : cs.length ≤ s.k + 1
  fits : ∀ c ∈ cs, c.length ≤ 9
  directories : ∀ c ∈ cs.dropLast, EndsWithSlash c

theorem EntryName.fitsBuffer (h : EntryName name) (hslash : slash ∈ name) : FitsBuffer name where
  nul := h.nul
  slashes := ⟨List.one_le_count_iff.2 hslash, h.slashes⟩
  directories := h.directories
  files := h.files

theorem EntryName.length_le (h : EntryName name) (hslash : slash ∉ name) : name.length ≤ 8 := by
  refine h.files name ?_ (not_endsWithSlash hslash)
  rw [components_of_notMem hslash, if_neg h.nonempty]
  exact List.mem_singleton_self name

theorem EntryName.length_lt (h : EntryName name) : name.length < 100 := by
  by_cases hslash : slash ∈ name
  · exact (h.fitsBuffer hslash).length_lt
  · exact (h.length_le hslash).trans_lt (by decide)

theorem EntryName.extracted (h : EntryName name) (rows : Nat → Nat → UInt8) :
    ∃ s cs, Extracted rows name s cs := by
  by_cases hslash : slash ∈ name
  · obtain ⟨s, tail, hsplit, hk, htail, hrows⟩ := split_components (h.fitsBuffer hslash) rows
    have hread := readRows_eq (fun _ hname => components_ne_nil hname) htail hrows
    have hlength := hrows.length_eq
    rw [List.length_range, List.length_append] at hlength
    refine ⟨s, components name, hsplit, hread, hk, by omega, fun c hc => ?_,
      fun c => components_dropLast⟩
    by_cases hdir : EndsWithSlash c
    · exact h.directories c hc hdir
    · exact (h.files c hc hdir).trans (by decide)
  · have hlength := h.length_le hslash
    obtain ⟨s, hsplit, hk, hread⟩ := split_file_reads hslash h.nonempty h.nul hlength rows
    refine ⟨s, _, hsplit, hread, by omega, ?_, fun c hc => ?_,
      fun c hc => absurd hc List.not_mem_nil⟩
    · rw [List.length_singleton]
      omega
    · rw [List.mem_singleton.1 hc, List.length_append]
      split_ifs
      · rw [List.length_nil]
        omega
      · rw [List.length_singleton]
        omega

theorem extractAll_cons (h : Extracted rows name s cs) (names : List (List UInt8)) :
    extractAll rows (name :: names) = (extractAll s.rows names).map (cs :: ·) := by
  rw [extractAll, h.split, Option.bind_eq_bind, Option.bind_some, h.read, Option.bind_eq_bind,
    Option.bind_some]
  cases extractAll s.rows names <;> rfl

/-- The names stay in the buffer. -/
theorem extractAll_isSome (hnames : ∀ name ∈ names, EntryName name) (rows : Nat → Nat → UInt8) :
    ∃ css, extractAll rows names = some css := by
  induction names generalizing rows with
  | nil => exact ⟨[], rfl⟩
  | cons name names ih =>
      rw [List.forall_mem_cons] at hnames
      obtain ⟨s, cs, hextracted⟩ := hnames.1.extracted rows
      obtain ⟨css, hcss⟩ := ih hnames.2 s.rows
      exact ⟨cs :: css, by rw [extractAll_cons hextracted, hcss]; rfl⟩

/-! ## The nodes that are made -/

/-- One more path: a directory gets a node once, a file each time. -/
def enterPath (made : List Path) (p : Path) : List Path :=
  if IsDirectory p ∧ p ∈ made then made else made ++ [p]

/-- No directory has more entries of a kind than a page of tnodes holds. -/
def EntriesFit (made : List Path) : Prop :=
  ∀ p, (directoriesIn made p).length ≤ Heap.maxEntries ∧
    (filesIn made p).length ≤ Heap.maxEntries

theorem mem_enterPath : q ∈ enterPath made p ↔ q ∈ made ∨ q = p := by
  rw [enterPath]
  split_ifs with h
  · refine (or_iff_left_of_imp ?_).symm
    rintro rfl
    exact h.2
  · rw [List.mem_append, List.mem_singleton]

theorem mem_foldl_enterPath : q ∈ all.foldl enterPath made ↔ q ∈ made ∨ q ∈ all := by
  induction all generalizing made with
  | nil => rw [List.foldl_nil, or_iff_left List.not_mem_nil]
  | cons p all ih => rw [List.foldl_cons, ih, mem_enterPath, List.mem_cons, or_assoc]

theorem prefix_foldl_enterPath (made all : List Path) : made <+: all.foldl enterPath made := by
  induction all generalizing made with
  | nil => exact List.prefix_refl made
  | cons p all ih =>
      refine List.IsPrefix.trans ?_ (ih (enterPath made p))
      rw [enterPath]
      split_ifs
      · exact List.prefix_refl made
      · exact List.prefix_append made [p]

theorem length_enterPath_le (made : List Path) (p : Path) :
    (enterPath made p).length ≤ made.length + 1 := by
  rw [enterPath]
  split_ifs
  · exact Nat.le_succ _
  · rw [List.length_append, List.length_singleton]

theorem length_foldl_enterPath_le (all made : List Path) :
    (all.foldl enterPath made).length ≤ made.length + all.length := by
  induction all generalizing made with
  | nil => exact Nat.le_refl _
  | cons p all ih =>
      have hrest := ih (enterPath made p)
      have hfirst := length_enterPath_le made p
      rw [List.foldl_cons, List.length_cons]
      omega

theorem EntriesFit.mono (h : EntriesFit made') (hpre : made <+: made') : EntriesFit made := fun p =>
  ⟨(hpre.sublist.filter _).length_le.trans (h p).1,
    (hpre.sublist.filter _).length_le.trans (h p).2⟩

/-- Files are never merged. -/
theorem filter_files_foldl :
    (all.foldl enterPath made).filter (fun p => ¬ IsDirectory p) =
      made.filter (fun p => ¬ IsDirectory p) ++ all.filter fun p => ¬ IsDirectory p := by
  induction all generalizing made with
  | nil => rw [List.foldl_nil, List.filter_nil, List.append_nil]
  | cons p all ih =>
      have hstep : (enterPath made p).filter (fun p => ¬ IsDirectory p) =
          made.filter (fun p => ¬ IsDirectory p) ++ [p].filter fun p => ¬ IsDirectory p := by
        rw [enterPath]
        split_ifs with h
        · rw [List.filter_singleton, decide_eq_false (not_not.2 h.1)]
          exact (List.append_nil _).symm
        · exact List.filter_append ..
      rw [List.foldl_cons, ih, hstep, List.append_assoc, ← List.filter_append,
        List.singleton_append]

/-- Directories are. -/
theorem nodup_directories_foldl (h : (made.filter fun p => IsDirectory p).Nodup) :
    ((all.foldl enterPath made).filter fun p => IsDirectory p).Nodup := by
  induction all generalizing made with
  | nil => exact h
  | cons p all ih =>
      refine ih ?_
      rw [enterPath]
      split_ifs with hboth
      · exact h
      · rw [List.filter_append]
        refine h.append ((List.nodup_singleton p).filter _) fun q hq hqp => ?_
        rw [List.mem_filter] at hq hqp
        rw [List.mem_singleton.1 hqp.1] at hq
        exact hboth ⟨of_decide_eq_true hq.2, hq.1⟩

theorem nodup_foldl_iff : (all.foldl enterPath []).Nodup ↔ FilesDiffer all := by
  have hfiles := @filter_files_foldl [] all
  rw [List.filter_nil, List.nil_append] at hfiles
  rw [FilesDiffer, ← hfiles]
  constructor
  · exact fun h => h.filter _
  · intro h
    have hperm := List.filter_append_perm (fun p => decide (IsDirectory p)) (all.foldl enterPath [])
    refine hperm.nodup_iff.1 ((@nodup_directories_foldl [] all List.nodup_nil).append ?_ ?_)
    · refine (congrArg List.Nodup (List.filter_congr fun q _ => ?_)).mp h
      simp
    · intro q hq hqp
      rw [List.mem_filter] at hq hqp
      simp [hq.2] at hqp

/-- Without a file that is named twice, the nodes are the paths, each once. -/
theorem foldl_perm (h : FilesDiffer all) : (all.foldl enterPath []).Perm all.eraseDups := by
  refine (List.perm_ext_iff_of_nodup (nodup_foldl_iff.2 h) (nodup_eraseDups all)).2 fun q => ?_
  rw [mem_foldl_enterPath, List.mem_eraseDups, or_iff_right List.not_mem_nil]

theorem entriesFit_foldl_iff (h : FilesDiffer all) :
    EntriesFit (all.foldl enterPath []) ↔ Room all := by
  refine forall_congr' fun p => ?_
  have hlength : ∀ (D : Path → Prop) [DecidablePred D],
      (below D (all.foldl enterPath []) p).length = (below D all.eraseDups p).length :=
    fun D _ => ((foldl_perm h).filter _).length_eq
  rw [hlength IsDirectory, hlength fun p => ¬ IsDirectory p]

/-! ## The tree while it is built -/

/-- The path of the root or of a directory that has been made. -/
def Here (made : List Path) (p : Path) : Prop := p = [] ∨ p ∈ made ∧ IsDirectory p

/-- The arrays of the directories hold the nodes `made` in order, a file as often as it was named;
`node` is where the directories are.  `total` counts the pages that there were in the beginning. -/
structure Built (root : InodeRef) (subName : Word) (total : Nat) (made : List Path) (L : Loader)
    (node : Path → InodeRef) : Prop where
  root : node [] = root
  closed : ∀ p ∈ made, Here made p.dropLast
  apart : ∀ p q, Here made p → Here made q → node p = node q → p = q
  directories : ∀ p, Here made p →
    (L.heap.inodes (node p)).subDirectoryList.map (fun t => (some t.name, t.linkToInode)) =
      (directoriesIn made p).map fun q => (q.getLast?, node q)
  files : ∀ p, Here made p → (L.heap.inodes (node p)).subFilesList.map (fun t => some t.name) =
    (filesIn made p).map List.getLast?
  fits : EntriesFit made
  nodup : L.pages.Nodup
  fresh : ∀ x ∈ L.pages, ∀ p, Here made p → node p ≠ x
  pages : total = 2 * made.length + L.pages.length
  arrays : ∀ p, Here made p → OffBuffer subName (L.filesAt (node p))
  pagesOff : ∀ page ∈ L.pages, OffBuffer subName (pageAddress page)
  null : OffBuffer subName 0

theorem here_concat : Here (made ++ [q]) r ↔ Here made r ∨ r = q ∧ IsDirectory q := by
  rw [Here, Here, List.mem_append, List.mem_singleton, or_and_right, or_assoc]
  refine or_congr_right (or_congr_right ?_)
  constructor
  · rintro ⟨rfl, hdir⟩
    exact ⟨rfl, hdir⟩
  · rintro ⟨rfl, hdir⟩
    exact ⟨rfl, hdir⟩

theorem not_here (hnew : EndsWithSlash c → p ++ [c] ∉ made) : ¬ Here made (p ++ [c]) := by
  rintro (hnil | ⟨hmem, hdir⟩)
  · exact List.concat_ne_nil c p hnil
  · exact hnew (isDirectory_concat.1 hdir) hmem

/-- One kind of array, when the node `t` has been entered in the directory `p`. -/
theorem Built.entries {α : Type*} (h : Built root subName total made L node) (hp : Here made p)
    (hnew : EndsWithSlash c → p ++ [c] ∉ made) (D : Path → Prop) [DecidablePred D]
    {f g : InodeRef → List Tnode} {view : Tnode → α} {want want' : Path → α}
    (hbefore : ∀ q, Here made q → (f (node q)).map view = (below D made q).map want)
    (hwant : ∀ r ∈ made, D r → want' r = want r) (hlast : want' (p ++ [c]) = view t)
    (hnil : g t.linkToInode = [])
    (hafter : ∀ q, Here made q → g (node q) =
      f (node q) ++ if node q = node p ∧ D (p ++ [c]) then [t] else [])
    (hq : Here (made ++ [p ++ [c]]) q) :
    (g (Function.update node (p ++ [c]) t.linkToInode q)).map view =
      (below D (made ++ [p ++ [c]]) q).map want' := by
  have hnone := not_here hnew
  have hmap : ∀ q, (below D made q).map want' = (below D made q).map want := fun q =>
    List.map_congr_left fun r hr => hwant r (mem_below.1 hr).1 (mem_below.1 hr).2.2
  rw [below_concat, List.map_append, hmap, List.dropLast_concat]
  rcases here_concat.1 hq with hq | ⟨rfl, -⟩
  · have hne : q ≠ p ++ [c] := fun heq => hnone (heq ▸ hq)
    rw [Function.update_of_ne hne, hafter q hq, List.map_append, hbefore q hq]
    by_cases hand : p = q ∧ D (p ++ [c])
    · rw [if_pos ⟨congrArg node hand.1.symm, hand.2⟩, if_pos hand, List.map_singleton,
        List.map_singleton, hlast]
    · rw [if_neg fun hboth => hand ⟨(h.apart q p hq hp hboth.1).symm, hboth.2⟩, if_neg hand,
        List.map_nil, List.map_nil]
  · -- nothing was below the new node
    have hbelow : below D made (p ++ [c]) = [] :=
      List.eq_nil_iff_forall_not_mem.2 fun r hr =>
        hnone ((mem_below.1 hr).2.1 ▸ h.closed r (mem_below.1 hr).1)
    have hparent : p ≠ p ++ [c] := fun heq => by
      have hlength := congrArg List.length heq
      rw [List.length_append, List.length_singleton] at hlength
      omega
    rw [Function.update_self, hnil, hbelow, if_neg fun hand => hparent hand.1]
    rfl

/-- The node of a directory that is new, or of a file. -/
theorem Built.push (h : Built root subName total made L node) (hp : Here made p)
    (hnew : EndsWithSlash c → p ++ [c] ∉ made) (hpush : Pushed L L' (node p) c t page)
    (hfits : EntriesFit (made ++ [p ++ [c]])) :
    Built root subName total (made ++ [p ++ [c]]) L'
      (Function.update node (p ++ [c]) t.linkToInode) := by
  have hpages := h.nodup
  rw [hpush.pages] at hpages
  rw [List.nodup_cons, List.nodup_cons] at hpages
  have hfresh := h.fresh _ hpush.link_mem
  have hnone := not_here hnew
  have hold : ∀ q, Here made q → Function.update node (p ++ [c]) t.linkToInode q = node q :=
    fun q hq => Function.update_of_ne (fun heq : q = p ++ [c] => hnone (heq ▸ hq)) ..
  have hself : Function.update node (p ++ [c]) t.linkToInode (p ++ [c]) = t.linkToInode :=
    Function.update_self ..
  refine ⟨?_, fun q hq => ?_, fun q r hq hr heq => ?_, fun q hq => ?_, fun q hq => ?_, hfits,
    hpages.2.2, fun x hx q hq => ?_, ?_, fun q hq => ?_,
    fun x hx => h.pagesOff x (hpush.mem_pages hx), h.null⟩
  · rw [hold [] (Or.inl rfl), h.root]
  · rw [here_concat]
    rcases List.mem_append.1 hq with hq | hq
    · exact Or.inl (h.closed q hq)
    · rw [List.mem_singleton.1 hq, List.dropLast_concat]
      exact Or.inl hp
  · rcases here_concat.1 hq with hq | ⟨rfl, -⟩ <;> rcases here_concat.1 hr with hr | ⟨rfl, -⟩
    · rw [hold q hq, hold r hr] at heq
      exact h.apart q r hq hr heq
    · rw [hold q hq, hself] at heq
      exact absurd heq (hfresh q hq)
    · rw [hold r hr, hself] at heq
      exact absurd heq.symm (hfresh r hr)
    · rfl
  · refine h.entries hp hnew IsDirectory (f := fun x => (L.heap.inodes x).subDirectoryList)
      (g := fun x => (L'.heap.inodes x).subDirectoryList) h.directories
      (fun r hr hdir => by rw [hold r (Or.inr ⟨hr, hdir⟩)])
      (by rw [hself, List.getLast?_concat, hpush.name]) hpush.empty.1 (fun q hq => ?_) hq
    rw [hpush.directories _ (hfresh q hq)]
    exact congrArg _ (if_congr (and_congr_right' isDirectory_concat.symm) rfl rfl)
  · refine h.entries hp hnew (fun r => ¬ IsDirectory r)
      (f := fun x => (L.heap.inodes x).subFilesList)
      (g := fun x => (L'.heap.inodes x).subFilesList) h.files (fun _ _ _ => rfl)
      (by rw [List.getLast?_concat, hpush.name]) hpush.empty.2 (fun q hq => ?_) hq
    rw [hpush.files _ (hfresh q hq)]
    exact congrArg _ (if_congr (and_congr_right' (not_congr isDirectory_concat.symm)) rfl rfl)
  · rcases here_concat.1 hq with hq | ⟨rfl, -⟩
    · rw [hold q hq]
      exact h.fresh x (hpush.mem_pages hx) q hq
    · rw [hself]
      rintro rfl
      exact hpages.2.1 hx
  · have hcount := h.pages
    rw [hpush.pages, List.length_cons, List.length_cons] at hcount
    rw [List.length_append, List.length_singleton, hcount]
    omega
  · rcases here_concat.1 hq with hq | ⟨rfl, -⟩
    · rw [hold q hq]
      exact hpush.offBuffer h.null h.pagesOff (h.arrays q hq)
    · rw [hself, hpush.newArray]
      exact h.null

/-! ## One component -/

/-- `folder_exist` finds a directory just if it has been made. -/
theorem Built.folderExist (h : Built root subName total made L node) (hp : Here made p)
    (hslash : EndsWithSlash c) :
    (folderExist (L.heap.inodes (node p)) c).map Tnode.linkToInode =
      if p ++ [c] ∈ made then some (node (p ++ [c])) else none := by
  have hpath : ∀ q ∈ directoriesIn made p, q.getLast? = some c ↔ q = p ++ [c] := by
    intro q hq
    constructor
    · intro hlast
      obtain ⟨init, rfl⟩ := List.getLast?_eq_some_iff.1 hlast
      rw [← (mem_below.1 hq).2.1, List.dropLast_concat]
    · rintro rfl
      exact List.getLast?_concat
  -- the entries are seen by the name and the inode, which the paths have, too
  have hfind : (Files.folderExist (L.heap.inodes (node p)) c).map
        (fun t => (some t.name, t.linkToInode)) =
      ((directoriesIn made p).find? fun q => q = p ++ [c]).map fun q => (q.getLast?, node q) := by
    calc
      (Files.folderExist (L.heap.inodes (node p)) c).map (fun t => (some t.name, t.linkToInode)) =
          ((L.heap.inodes (node p)).subDirectoryList.map fun t =>
            (some t.name, t.linkToInode)).find? fun e => e.1 = some c := by
        rw [List.find?_map, Files.folderExist]
        simp only [Function.comp_def, Option.some_inj]
      _ = ((directoriesIn made p).map fun q => (q.getLast?, node q)).find? fun e => e.1 = some c :=
        by rw [h.directories p hp]
      _ = _ := by
        rw [List.find?_map]
        refine congrArg _ (List.find?_congr fun q hq => ?_)
        exact decide_eq_decide.2 (hpath q hq)
  have hlink := congrArg (Option.map Prod.snd) hfind
  rw [Option.map_map, Option.map_map] at hlink
  refine hlink.trans ?_
  split_ifs with hmem
  · have hin : p ++ [c] ∈ directoriesIn made p :=
      mem_below.2 ⟨hmem, List.dropLast_concat, isDirectory_concat.2 hslash⟩
    cases hfirst : (directoriesIn made p).find? fun q => q = p ++ [c] with
    | none => exact absurd (decide_eq_true rfl) (List.find?_eq_none.1 hfirst _ hin)
    | some q =>
        have heq : q = p ++ [c] := by simpa using List.find?_some hfirst
        rw [heq]
        rfl
  · have hnone : ((directoriesIn made p).find? fun q => q = p ++ [c]) = none := by
      rw [List.find?_eq_none]
      intro q hq heq
      exact hmem (of_decide_eq_true heq ▸ (mem_below.1 hq).1)
    rw [hnone]
    rfl

theorem Built.twoPages (h : Built root subName total made L node)
    (hpages : 2 * (made.length + 1) ≤ total) : ∃ page x rest, L.pages = page :: x :: rest := by
  have hcount := h.pages
  exact exists_twoPages (by omega)

theorem length_below_concat (D : Path → Prop) [DecidablePred D] (made : List Path) (p q : Path)
    (c : List UInt8) : (below D (made ++ [p ++ [c]]) q).length =
      (below D made q).length + if p = q ∧ D (p ++ [c]) then 1 else 0 := by
  rw [below_concat, List.length_append, List.dropLast_concat]
  split_ifs <;> rfl

/-- One more directory fits just if the array of its kind is not full. -/
theorem entriesFit_directory_iff (h : EntriesFit made) (hslash : EndsWithSlash c) :
    EntriesFit (made ++ [p ++ [c]]) ↔ (directoriesIn made p).length < Heap.maxEntries := by
  have hdir : IsDirectory (p ++ [c]) := isDirectory_concat.2 hslash
  constructor
  · intro hfits
    have hle := (hfits p).1
    rwa [directoriesIn, length_below_concat, if_pos ⟨rfl, hdir⟩] at hle
  · intro hlt q
    refine ⟨?_, ?_⟩
    · rw [directoriesIn, length_below_concat]
      split_ifs with hboth
      · rw [← hboth.1]
        exact hlt
      · exact (h q).1
    · rw [filesIn, length_below_concat, if_neg fun hboth => hboth.2 hdir]
      exact (h q).2

theorem entriesFit_file_iff (h : EntriesFit made) (hslash : ¬ EndsWithSlash c) :
    EntriesFit (made ++ [p ++ [c]]) ↔ (filesIn made p).length < Heap.maxEntries := by
  have hfile : ¬ IsDirectory (p ++ [c]) := fun hdir => hslash (isDirectory_concat.1 hdir)
  constructor
  · intro hfits
    have hle := (hfits p).2
    rwa [filesIn, length_below_concat, if_pos ⟨rfl, hfile⟩] at hle
  · intro hlt q
    refine ⟨?_, ?_⟩
    · rw [directoriesIn, length_below_concat, if_neg fun hboth => hfile hboth.2]
      exact (h q).1
    · rw [filesIn, length_below_concat]
      split_ifs with hboth
      · rw [← hboth.1]
        exact hlt
      · exact (h q).2

/-- The array of directories of `dir` is full. -/
theorem enterDirectory_full {rest : List Nat} (size : Word)
    (hpages : L.pages = page :: x :: rest) (hname : c.length ≤ 9) (hne : dir ≠ x)
    (hnone : folderExist (L.heap.inodes dir) c = none)
    (hfull : ¬ (L.heap.inodes dir).subDirectoryList.length < Heap.maxEntries) :
    L.enterDirectory dir c size = none := by
  rw [Loader.enterDirectory, hnone]
  dsimp only
  rw [createTNode_eq hpages hname, Option.bind_eq_bind, Option.bind_some]
  dsimp only [Loader.setInode, Loader.pushDirectory, Heap.createSysNode]
  rw [setInode_setInode, Heap.setInode_of_ne _ _ hne, if_neg hfull]
  rfl

/-- The array of files of `dir` is full. -/
theorem enterFile_full {rest : List Nat} {fileName : Word} (size header : Word)
    (hpages : L.pages = page :: x :: rest) (hname : c.length ≤ 9) (hne : dir ≠ x)
    (hnone : fileExist (L.filesAt dir) fileName (L.heap.inodes dir).subDirectoryList.length = none)
    (hfull : ¬ (L.heap.inodes dir).subFilesList.length < Heap.maxEntries) :
    L.enterFile dir c fileName size header = none := by
  rw [Loader.enterFile, hnone]
  dsimp only
  rw [createTNode_eq hpages hname, Option.bind_eq_bind, Option.bind_some]
  dsimp only [Loader.setInode, Loader.pushFile, Heap.pushFile, Heap.createSysNode]
  rw [setInode_setInode, Heap.setInode_of_ne _ _ hne, if_neg hfull]
  rfl

/-- A directory of a name is found or made, or its array is full. -/
theorem Built.enterDirectory (h : Built root subName total made L node) (hp : Here made p)
    (hslash : EndsWithSlash c) (hlen : c.length ≤ 9) (hpages : 2 * (made.length + 1) ≤ total)
    (size : Word) :
    (∃ L' node', L.enterDirectory (node p) c size = some (node' (p ++ [c]), L') ∧
      Built root subName total (enterPath made (p ++ [c])) L' node') ∨
    L.enterDirectory (node p) c size = none ∧ ¬ EntriesFit (enterPath made (p ++ [c])) := by
  have hexist := h.folderExist hp hslash
  have hdir : IsDirectory (p ++ [c]) := isDirectory_concat.2 hslash
  by_cases hmem : p ++ [c] ∈ made
  · rw [if_pos hmem] at hexist
    obtain ⟨t, hfound, hlink⟩ := Option.map_eq_some_iff.1 hexist
    rw [enterPath, if_pos ⟨hdir, hmem⟩, Loader.enterDirectory, hfound]
    refine Or.inl ⟨L, node, ?_, h⟩
    dsimp only
    rw [hlink]
  · rw [if_neg hmem, Option.map_eq_none_iff] at hexist
    rw [enterPath, if_neg fun hboth => hmem hboth.2, entriesFit_directory_iff h.fits hslash]
    obtain ⟨page, x, rest, hlist⟩ := h.twoPages hpages
    have hx : node p ≠ x := h.fresh x (by rw [hlist]; simp) p hp
    have hlength : (L.heap.inodes (node p)).subDirectoryList.length =
        (directoriesIn made p).length := by
      have hmap := congrArg List.length (h.directories p hp)
      rwa [List.length_map, List.length_map] at hmap
    rw [← hlength]
    by_cases hroom : (L.heap.inodes (node p)).subDirectoryList.length < Heap.maxEntries
    · obtain ⟨L', henter, hpush⟩ := enterDirectory_push size hlist hlen hslash hx hexist hroom
      have hfits : EntriesFit (made ++ [p ++ [c]]) :=
        (entriesFit_directory_iff h.fits hslash).2 (hlength ▸ hroom)
      refine Or.inl ⟨L', _, ?_, h.push hp (fun _ => hmem) hpush hfits⟩
      rw [Function.update_self]
      exact henter
    · exact Or.inr ⟨enterDirectory_full size hlist hlen hx hexist hroom, hroom⟩

/-- A file of a name is made, or its array is full: no file is ever found. -/
theorem Built.enterFile (h : Built root subName total made L node) (hp : Here made p)
    (hslash : ¬ EndsWithSlash c) (hlen : c.length ≤ 9) (hpages : 2 * (made.length + 1) ≤ total)
    (hl : l < 6) (size header : Word) :
    (∃ L' node', L.enterFile (node p) c (subName + BitVec.ofNat 64 (10 * l)) size header =
        some (node' (p ++ [c]), L') ∧
      Built root subName total (enterPath made (p ++ [c])) L' node') ∨
    L.enterFile (node p) c (subName + BitVec.ofNat 64 (10 * l)) size header = none ∧
      ¬ EntriesFit (enterPath made (p ++ [c])) := by
  have hfile : ¬ IsDirectory (p ++ [c]) := fun hdir => hslash (isDirectory_concat.1 hdir)
  rw [enterPath, if_neg fun hboth => hfile hboth.1, entriesFit_file_iff h.fits hslash]
  obtain ⟨page, x, rest, hlist⟩ := h.twoPages hpages
  have hx : node p ≠ x := h.fresh x (by rw [hlist]; simp) p hp
  have hdirs : (L.heap.inodes (node p)).subDirectoryList.length ≤ Heap.maxEntries := by
    have hmap := congrArg List.length (h.directories p hp)
    rw [List.length_map, List.length_map] at hmap
    rw [hmap]
    exact (h.fits p).1
  have hexist := (h.arrays p hp).fileExist hl hdirs
  have hlength : (L.heap.inodes (node p)).subFilesList.length = (filesIn made p).length := by
    have hmap := congrArg List.length (h.files p hp)
    rwa [List.length_map, List.length_map] at hmap
  rw [← hlength]
  by_cases hroom : (L.heap.inodes (node p)).subFilesList.length < Heap.maxEntries
  · obtain ⟨L', henter, hpush, -⟩ :=
      enterFile_push size header hlist hlen hslash hx hexist hroom
    have hfits : EntriesFit (made ++ [p ++ [c]]) :=
      (entriesFit_file_iff h.fits hslash).2 (hlength ▸ hroom)
    refine Or.inl ⟨L', _, ?_, h.push hp (fun hdir => absurd hdir hslash) hpush hfits⟩
    rw [Function.update_self]
    exact henter
  · exact Or.inr ⟨enterFile_full size header hlist hlen hx hexist hroom, hroom⟩

/-! ## The archive -/

/-- The components of a name, one below the other. -/
theorem Built.enterNames (h : Built root subName total made L node) (hp : Here made p)
    (hns : ∀ n ∈ ns, n.1 < 6 ∧ n.2.length ≤ 9)
    (hdirs : ∀ c ∈ (ns.map Prod.snd).dropLast, EndsWithSlash c)
    (hpages : 2 * (made.length + ns.length) ≤ total) (size header : Word) :
    (∃ L' node', Loader.enterNames subName size header ns (node p) L = some L' ∧
      Built root subName total
        (((prefixes (ns.map Prod.snd)).map (p ++ ·)).foldl enterPath made) L' node') ∨
    Loader.enterNames subName size header ns (node p) L = none ∧
      ¬ EntriesFit (((prefixes (ns.map Prod.snd)).map (p ++ ·)).foldl enterPath made) := by
  induction ns generalizing p made L node with
  | nil => exact Or.inl ⟨L, node, rfl, h⟩
  | cons n ns ih =>
      obtain ⟨l, c⟩ := n
      rw [List.forall_mem_cons] at hns
      dsimp only at hns
      rw [List.length_cons] at hpages
      rw [List.map_cons, map_prefixes_cons, List.foldl_cons, Loader.enterNames]
      dsimp only
      by_cases hslash : EndsWithSlash c
      · rw [if_pos hslash]
        rcases h.enterDirectory hp hslash hns.1.2 (by omega) size with
          ⟨L₁, node₁, henter, h₁⟩ | ⟨henter, hfull⟩
        · -- the directory is there now, and the others are entered below it
          have hp₁ : Here (enterPath made (p ++ [c])) (p ++ [c]) :=
            Or.inr ⟨mem_enterPath.2 (Or.inr rfl), isDirectory_concat.2 hslash⟩
          have hdirs₁ : ∀ d ∈ (ns.map Prod.snd).dropLast, EndsWithSlash d := by
            intro d hd
            refine hdirs d ?_
            rw [List.map_cons]
            cases hrest : ns.map Prod.snd with
            | nil =>
                rw [hrest] at hd
                cases hd
            | cons e es =>
                rw [hrest] at hd
                exact List.mem_cons_of_mem _ hd
          have hlength := length_enterPath_le made (p ++ [c])
          rw [henter, Option.bind_eq_bind, Option.bind_some]
          exact ih h₁ hp₁ hns.2 hdirs₁ (by omega)
        · rw [henter]
          exact Or.inr ⟨rfl, fun hfits => hfull (hfits.mono (prefix_foldl_enterPath _ _))⟩
      · -- a file is the last component
        have hns' : ns = [] := by
          by_contra hne
          refine hslash (hdirs c ?_)
          rw [List.map_cons, List.dropLast_cons_of_ne_nil (by rwa [ne_eq, List.map_eq_nil_iff])]
          exact List.mem_cons_self
        subst hns'
        rw [if_neg hslash]
        rcases h.enterFile hp hslash hns.1.2 (by omega) hns.1.1 size header with
          ⟨L₁, node₁, henter, h₁⟩ | ⟨henter, hfull⟩
        · rw [henter]
          exact Or.inl ⟨L₁, node₁, rfl, h₁⟩
        · rw [henter]
          exact Or.inr ⟨rfl, hfull⟩

/-- From the header of the first of the members `ms` on. -/
theorem Built.loadTarfs (h : Built root subName total made L node)
    (harchive : Archive mem address ms) (hnames : ∀ m ∈ ms, EntryName m.name)
    (hsize : ∀ m ∈ ms, m.size < 2 ^ 32) (hfuel : ms.length < fuel)
    (hextract : extractAll rows (ms.map Member.name) = some css)
    (hpages : 2 * (made.length + 6 * ms.length) ≤ total) :
    (∃ L' node', Files.loadTarfs mem root subName fuel address rows L = some L' ∧
      Built root subName total ((namedPaths css).foldl enterPath made) L' node') ∨
    Files.loadTarfs mem root subName fuel address rows L = none ∧
      ¬ EntriesFit ((namedPaths css).foldl enterPath made) := by
  induction ms generalizing rows address L made node fuel css with
  | nil =>
      obtain ⟨fuel, rfl⟩ := Nat.exists_eq_succ_of_ne_zero (Nat.ne_of_gt hfuel)
      rw [← Option.some_inj.1 hextract]
      cases harchive with
      | marker hmarker => exact Or.inl ⟨L, node, by rw [Files.loadTarfs, if_pos hmarker], h⟩
  | cons m ms ih =>
      obtain ⟨fuel, rfl⟩ := Nat.exists_eq_succ_of_ne_zero (Nat.ne_of_gt (Nat.zero_lt_of_lt hfuel))
      rw [List.forall_mem_cons] at hnames hsize
      rw [List.length_cons] at hpages
      cases harchive with
      | member hheader hrest =>
          have hm := hnames.1
          obtain ⟨hfirst, hget, hchars⟩ :=
            hheader.read hm.nonempty hm.nul hm.length_lt hsize.1
          obtain ⟨s, cs, hs⟩ := hm.extracted rows
          rw [List.map_cons, extractAll_cons hs, Option.map_eq_some_iff] at hextract
          obtain ⟨css, hcss, rfl⟩ := hextract
          -- the components with the rows they are read from
          have hzip : ((List.range (s.k + 1)).zip cs).map Prod.snd = cs := by
            rw [List.map_snd_zip]
            rw [List.length_range]
            exact hs.length
          have hns : ∀ n ∈ (List.range (s.k + 1)).zip cs, n.1 < 6 ∧ n.2.length ≤ 9 :=
            fun n hn => ⟨(List.mem_range.1 (List.of_mem_zip hn).1).trans_le hs.rows_lt,
              hs.fits n.2 (List.of_mem_zip hn).2⟩
          have hcount : ((List.range (s.k + 1)).zip cs).length ≤ 6 := by
            rw [List.length_zip, List.length_range]
            have hrows := hs.rows_lt
            omega
          have hpaths : (prefixes cs).map (([] : Path) ++ ·) = prefixes cs := List.map_id _
          have hload : Files.loadTarfs mem root subName (fuel + 1) m.header rows L =
              (Loader.enterNames subName (BitVec.ofNat 64 m.size) m.header
                ((List.range (s.k + 1)).zip cs) (node []) L).bind fun L₁ =>
                  Files.loadTarfs mem root subName fuel m.next s.rows L₁ := by
            rw [Files.loadTarfs, if_neg hfirst]
            dsimp only
            rw [hget, hchars, nextHeader_eq _ hsize.1, Option.bind_eq_bind, Option.bind_some,
              hs.split, Option.bind_eq_bind, Option.bind_some,
              enterComponents_eq _ _ _ _ _ _ _ hs.read, h.root]
            rfl
          rw [hload, namedPaths, List.flatMap_cons, List.foldl_append]
          have hone := h.enterNames (Or.inl rfl) hns (by rw [hzip]; exact hs.directories)
            (by omega) (BitVec.ofNat 64 m.size) m.header
          rw [hzip, hpaths] at hone
          rcases hone with ⟨L₁, node₁, henter, h₁⟩ | ⟨henter, hfull⟩
          · rw [henter, Option.bind_some]
            refine ih h₁ hrest hnames.2 hsize.2 (Nat.lt_of_succ_lt_succ hfuel) hcss ?_
            have hlength := length_foldl_enterPath_le (prefixes cs) made
            have hprefixes : (prefixes cs).length = cs.length := by
              rw [prefixes, List.length_tail, List.length_inits, Nat.add_sub_cancel]
            have hle := hs.length
            have hrows := hs.rows_lt
            omega
          · rw [henter]
            exact Or.inr ⟨rfl, fun hfits => hfull (hfits.mono (prefix_foldl_enterPath _ _))⟩

end Files

end OswpKernel
