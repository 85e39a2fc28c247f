import OswpKernel.Files.Tree
import Mathlib.Algebra.Group.Action.Defs
import Mathlib.Algebra.Order.BigOperators.Group.List

/-!
# LoadTarfs — `load_tarfs` builds the tree of the archive

`loadTarfs_mirrors`: whatever archive of the right shape is in memory, the nodes below the root are
the members and the directories on the way to them, each once; what a file node says is what the
header says; and the entries of a directory are in the order in which the archive first names them.
-/

namespace OswpKernel

namespace Files

structure Member where
  name : List UInt8
  size : Nat
  header : Word

/-- The header at the address of the member, as far as `load_tarfs` reads it. -/
structure IsHeader (mem : Memory) (m : Member) : Prop where
  name : (List.range m.name.length).map (field mem m.header 0) = m.name
  terminated : field mem m.header 0 m.name.length = 0
  size : ∀ k, k < 11 → field mem m.header 124 (10 - k) = 48 + UInt8.ofNat (m.size / 8 ^ k % 8)

/-- The address behind the header and the data of a member, in blocks of 512 bytes. -/
def Member.next (m : Member) : Word := m.header + BitVec.ofNat 64 (512 + (m.size + 511) / 512 * 512)

/-- The members of the archive at an address, up to the end marker. -/
inductive Archive (mem : Memory) : Word → List Member → Prop
  | marker {address : Word} : mem address = 0 → Archive mem address []
  | member {m : Member} {ms : List Member} : IsHeader mem m → Archive mem m.next ms →
      Archive mem m.header (m :: ms)

/-- The paths that lead to a node of the given components. -/
def prefixes (cs : List (List UInt8)) : List Path := cs.inits.tail

/-- Every directory on the way to a member, then the member, for one member after the other. -/
def archivePaths (ms : List Member) : List Path := ms.flatMap fun m => prefixes (components m.name)

structure WellFormed (ms : List Member) : Prop where
  nodup : (ms.map Member.name).Nodup
  name : ∀ m ∈ ms, FitsBuffer m.name
  size : ∀ m ∈ ms, m.size < 2 ^ 32
  room : Room (archivePaths ms)

variable {ps qs all : List Path} {p q : Path} {c : List UInt8} {node node' : Path → Tnode}
  {heap heap' : Heap} {t u : Tnode} {L L' : Loader} {subName size header : Word}
  {rows : Nat → Nat → UInt8} {ls : List Nat} {cs tail : List (List UInt8)} {m : Member}
  {ms done : List Member} {mem : Memory} {root x : InodeRef}

/-! ## Paths -/

@[simp] theorem prefixes_nil : prefixes [] = [] := rfl

theorem prefixes_cons (c : List UInt8) (cs : List (List UInt8)) :
    prefixes (c :: cs) = [c] :: (prefixes cs).map (c :: ·) := by
  rw [prefixes, prefixes, List.inits_cons, List.tail_cons]
  cases cs <;> rfl

theorem map_prefixes_cons (p : Path) (c : List UInt8) (cs : List (List UInt8)) :
    (prefixes (c :: cs)).map (p ++ ·) =
      (p ++ [c]) :: (prefixes cs).map ((p ++ [c]) ++ ·) := by
  rw [prefixes_cons, List.map_cons, List.map_map]
  refine congrArg _ (List.map_congr_left fun r _ => ?_)
  rw [Function.comp_apply, List.append_assoc, List.singleton_append]

theorem mem_prefixes {r : Path} : r ∈ prefixes cs ↔ r ≠ [] ∧ r <+: cs := by
  induction cs generalizing r with
  | nil => simp
  | cons c cs ih =>
      rw [prefixes_cons, List.mem_cons, List.mem_map]
      constructor
      · rintro (rfl | ⟨r', hr', rfl⟩)
        · exact ⟨List.cons_ne_nil _ _, List.prefix_append [c] cs⟩
        · exact ⟨List.cons_ne_nil _ _, List.cons_prefix_cons.2 ⟨rfl, (ih.1 hr').2⟩⟩
      · rintro ⟨hne, hpre⟩
        cases r with
        | nil => exact absurd rfl hne
        | cons c' r =>
            rcases List.cons_prefix_cons.1 hpre with ⟨rfl, hrest⟩
            cases r with
            | nil => exact Or.inl rfl
            | cons d r => exact Or.inr ⟨d :: r, ih.2 ⟨List.cons_ne_nil _ _, hrest⟩, rfl⟩

/-! ## One member -/

/-- The loop stops at an empty row. -/
theorem enterComponents_end (htail : tail = [] ∨ tail = [[]])
    (hrows : List.Forall₂ (fun l piece => characters 10 (rows l) = some piece) ls tail) :
    Loader.enterComponents rows subName size header ls x L = some L := by
  rcases htail with rfl | rfl
  · rw [List.forall₂_nil_right_iff] at hrows
    rw [hrows]
    rfl
  · rcases List.forall₂_cons_right_iff.1 hrows with ⟨l, ls', hrow, -, rfl⟩
    rw [Loader.enterComponents, hrow]
    rfl

/-- The components `cs` of a name below the path `p`. -/
theorem Loading.enterComponents (size header : Word) (hroom : Room all)
    (htail : tail = [] ∨ tail = [[]])
    (h : Loading subName all.eraseDups.length qs.eraseDups L node) (hp : p ∈ [] :: qs.eraseDups)
    (hrows : List.Forall₂ (fun l piece => characters 10 (rows l) = some piece) ls (cs ++ tail))
    (hls : ∀ l ∈ ls, l < 6) (hnext : qs ++ (prefixes cs).map (p ++ ·) <+: all)
    (hdirs : ∀ piece ∈ cs.dropLast, EndsWithSlash piece)
    (hpieces : ∀ piece ∈ cs, piece ≠ [] ∧ piece.length ≤ 9)
    (hfile : cs ≠ [] → ¬ IsDirectory (p ++ cs) → p ++ cs ∉ qs) :
    ∃ L' node',
      Loader.enterComponents rows subName size header ls (node p).linkToInode L = some L' ∧
      Loading subName all.eraseDups.length (qs ++ (prefixes cs).map (p ++ ·)).eraseDups L' node' ∧
      Kept qs.eraseDups L node L' node' ∧
      (cs ≠ [] → ¬ IsDirectory (p ++ cs) → FileNode L'.heap (node' (p ++ cs)) size header) := by
  induction cs generalizing p qs L node ls with
  | nil =>
      refine ⟨L, node, enterComponents_end htail hrows, ?_, Kept.refl _ _ _,
        fun hne => absurd rfl hne⟩
      rwa [prefixes_nil, List.map_nil, List.append_nil]
  | cons c cs ih =>
      rw [List.cons_append] at hrows
      rcases List.forall₂_cons_right_iff.1 hrows with ⟨l, ls', hrow, hrows', rfl⟩
      rw [map_prefixes_cons, List.append_cons qs] at hnext ⊢
      have hfirst : qs ++ [p ++ [c]] <+: all := (List.prefix_append _ _).trans hnext
      -- the first component `c` is entered below `p`, and the induction goes on from `p ++ [c]`
      have hpc := hpieces c List.mem_cons_self
      have happend : p ++ c :: cs = (p ++ [c]) ++ cs := by
        rw [List.append_assoc, List.singleton_append]
      rcases hlast : c.getLast? with _ | last
      · exact absurd (List.getLast?_eq_none_iff.1 hlast) hpc.1
      by_cases hslash : EndsWithSlash c
      · have hlast' : last = slash := by
          rw [EndsWithSlash, hlast] at hslash
          exact Option.some_inj.1 hslash
        rcases h.enterDirectory size hroom hp hfirst hslash hpc.2 with
          ⟨L₁, node₁, henter, h₁, hkept₁⟩
        -- the node of the directory is there now, whether it was found or made
        have hp₁ : p ++ [c] ∈ [] :: (qs ++ [p ++ [c]]).eraseDups :=
          List.mem_cons_of_mem _ (List.mem_eraseDups.2 (List.mem_append_right _
            (List.mem_singleton_self _)))
        -- the entry of the file is longer than that of the directory, so it is still new
        have hfile₁ : cs ≠ [] → ¬ IsDirectory ((p ++ [c]) ++ cs) →
            (p ++ [c]) ++ cs ∉ qs ++ [p ++ [c]] := by
          intro hne hdir hmem
          rw [← happend] at hdir hmem
          rcases List.mem_append.1 hmem with hmem | hmem
          · exact hfile (List.cons_ne_nil _ _) hdir hmem
          · have hlen := congrArg List.length (List.mem_singleton.1 hmem)
            rw [happend, List.length_append] at hlen
            exact hne (List.length_eq_zero_iff.1 (by omega))
        have hdirs₁ : ∀ piece ∈ cs.dropLast, EndsWithSlash piece := by
          intro piece hpiece
          refine hdirs piece ?_
          cases cs with
          | nil => cases hpiece
          | cons d ds => exact List.mem_cons_of_mem _ hpiece
        rcases ih h₁ hp₁ hrows' (fun l hl => hls l (List.mem_cons_of_mem _ hl)) hnext hdirs₁
          (fun piece hpiece => hpieces piece (List.mem_cons_of_mem _ hpiece)) hfile₁ with
          ⟨L', node', hrest, h', hkept, hnode⟩
        refine ⟨L', node', ?_, h', hkept₁.trans hkept ?_, fun _ hdir => ?_⟩
        · rw [Loader.enterComponents, hrow, Option.bind_eq_bind, Option.bind_some, hlast]
          dsimp only
          rw [if_pos hlast', henter]
          exact hrest
        · intro r hr
          rw [List.mem_eraseDups] at hr ⊢
          exact List.mem_append_left _ hr
        · rw [happend] at hdir ⊢
          refine hnode ?_ hdir
          rintro rfl
          rw [List.append_nil] at hdir
          exact hdir (isDirectory_concat.2 hslash)
      · -- a file is the last component
        have hcs : cs = [] := by
          by_contra hne
          refine hslash (hdirs c ?_)
          rw [List.dropLast_cons_of_ne_nil hne]
          exact List.mem_cons_self
        subst hcs
        have hlast' : last ≠ slash := by
          rintro rfl
          exact hslash hlast
        -- no member before this one had the file
        have hmem : p ++ [c] ∉ qs :=
          hfile (List.cons_ne_nil _ _) fun h => hslash (isDirectory_concat.1 h)
        rcases h.enterFile size header hroom hp hfirst hslash hpc.2 hmem
          (hls l List.mem_cons_self) with ⟨L', node', henter, h', hkept, hnode⟩
        refine ⟨L', node', ?_, ?_, hkept, fun _ _ => hnode⟩
        · rw [Loader.enterComponents, hrow, Option.bind_eq_bind, Option.bind_some, hlast]
          dsimp only
          rw [if_neg hlast', henter]
          exact enterComponents_end htail hrows'
        · rwa [prefixes_nil, List.map_nil, List.append_nil]

/-! ## The archive -/

/-- The names fit `name[100]`. -/
theorem FitsBuffer.length_lt {name : List UInt8} (h : FitsBuffer name) : name.length < 100 := by
  have hle : ∀ piece ∈ components name, piece.length ≤ 9 := fun piece hpiece => by
    by_cases hslash : EndsWithSlash piece
    · exact h.directories piece hpiece hslash
    · exact (h.files piece hpiece hslash).trans (by decide)
  have hcount : (components name).length ≤ 6 := by
    rcases exists_pieces name with ⟨bodies, last, hpieces⟩
    have hcount := h.slashes.2
    rw [hpieces.count] at hcount
    rw [hpieces.components, List.length_append, List.length_map]
    split_ifs
    · exact hcount.trans (by decide)
    · exact Nat.succ_le_succ hcount
  have hsum : ((components name).map List.length).sum ≤ (components name).length * 9 := by
    have hcard := List.sum_le_card_nsmul ((components name).map List.length) 9 fun n hn => by
      rcases List.mem_map.1 hn with ⟨piece, hpiece, rfl⟩
      exact hle piece hpiece
    rwa [List.length_map, smul_eq_mul] at hcard
  rw [← flatten_components name, List.length_flatten]
  omega

theorem nextHeader_eq (address : Word) {size : Nat} (hsize : size < 2 ^ 32) :
    nextHeader address (BitVec.ofNat 64 size) =
      address + BitVec.ofNat 64 (512 + (size + 511) / 512 * 512) := by
  have hword : (BitVec.ofNat 64 size).toNat = size := by
    rw [BitVec.toNat_ofNat, Nat.mod_eq_of_lt (by omega)]
  have h512 : (512 : Word).toNat = 512 := rfl
  have hdiv : BitVec.ofNat 64 size / 512 = BitVec.ofNat 64 (size / 512) := by
    apply BitVec.eq_of_toNat_eq
    rw [BitVec.toNat_udiv, hword, h512, BitVec.toNat_ofNat, Nat.mod_eq_of_lt]
    omega
  have hmod : BitVec.ofNat 64 size % 512 = BitVec.ofNat 64 (size % 512) := by
    apply BitVec.eq_of_toNat_eq
    rw [BitVec.toNat_umod, hword, h512, BitVec.toNat_ofNat]
    omega
  have hfirst : (BitVec.ofNat 64 (size / 512) + 1) * (512 : Word) =
      BitVec.ofNat 64 ((size / 512 + 1) * 512) := by
    rw [BitVec.ofNat_mul, BitVec.ofNat_add]
    rfl
  rw [nextHeader, hdiv, hmod, hfirst]
  -- a last block that is not full is counted by the remainder
  by_cases hzero : size % 512 = 0
  · have hword_zero : ¬ BitVec.ofNat 64 (size % 512) ≠ 0 := by
      rw [hzero]
      exact not_not.2 rfl
    rw [if_neg hword_zero]
    congr 2
    omega
  · have hne : BitVec.ofNat 64 (size % 512) ≠ 0 := fun h => hzero (by
      have hnat := congrArg BitVec.toNat h
      rw [BitVec.toNat_ofNat, Nat.mod_eq_of_lt (by omega)] at hnat
      exact hnat)
    have hlast : (512 : Word) = BitVec.ofNat 64 512 := rfl
    rw [if_pos hne, BitVec.add_assoc, hlast, ← BitVec.ofNat_add]
    congr 2
    omega

/-- What a loop over the archive reads in the header of a member. -/
theorem IsHeader.read (h : IsHeader mem m) (hne : m.name ≠ []) (hnul : (0 : UInt8) ∉ m.name)
    (hlength : m.name.length < 100) (hsize : m.size < 2 ^ 32) :
    mem m.header ≠ 0 ∧ getSize (field mem m.header 124) = BitVec.ofNat 64 m.size ∧
      characters 100 (field mem m.header 0) = some m.name := by
  have hchars := characters_eq h.name hnul h.terminated hlength
  refine ⟨fun hzero => ?_, getSize_eq hsize h.size, hchars⟩
  have hfirst : field mem m.header 0 0 = 0 := (congrArg mem (BitVec.add_zero m.header)).trans hzero
  refine hnul ?_
  rw [← h.name, ← hfirst]
  exact List.mem_map_of_mem (List.mem_range.2 (List.length_pos_iff.2 hne))

theorem IsHeader.fields (h : IsHeader mem m) (hname : FitsBuffer m.name) (hsize : m.size < 2 ^ 32) :
    mem m.header ≠ 0 ∧ getSize (field mem m.header 124) = BitVec.ofNat 64 m.size ∧
      characters 100 (field mem m.header 0) = some m.name := by
  refine h.read ?_ hname.nul hname.length_lt hsize
  rintro hnil
  have hslashes := hname.slashes.1
  rw [hnil] at hslashes
  exact absurd hslashes (by decide)

theorem archivePaths_append (ms ms' : List Member) :
    archivePaths (ms ++ ms') = archivePaths ms ++ archivePaths ms' := List.flatMap_append

theorem components_mem_archivePaths (hm : m ∈ ms) (hname : FitsBuffer m.name) :
    components m.name ∈ archivePaths ms := by
  refine List.mem_flatMap.2 ⟨m, hm, mem_prefixes.2 ⟨fun hnil => ?_, List.prefix_refl _⟩⟩
  have hflat := flatten_components m.name
  have hslashes := hname.slashes.1
  rw [hnil] at hflat
  rw [← hflat] at hslashes
  exact absurd hslashes (by decide)

/-- Below a file there is nothing. -/
theorem eq_of_file_prefix {name : List UInt8} (hpre : cs <+: components name) (hne : cs ≠ [])
    (hfile : ¬ IsDirectory cs) : cs = components name := by
  rcases hpre with ⟨rest, hrest⟩
  by_cases hnil : rest = []
  · rw [← hrest, hnil, List.append_nil]
  · have hlast : cs.getLast hne ∈ (components name).dropLast := by
      rw [← hrest, List.dropLast_append_of_ne_nil hnil]
      exact List.mem_append_left _ (List.getLast_mem hne)
    exact absurd ⟨_, List.getLast?_eq_getLast_of_ne_nil hne, components_dropLast hlast⟩ hfile

/-- A file that is still to come is not there. -/
theorem file_notMem (hfile : ¬ IsDirectory (components m.name)) (hne : components m.name ≠ [])
    (hnodup : ((done ++ m :: ms).map Member.name).Nodup) :
    components m.name ∉ archivePaths done := by
  intro hmem
  rcases List.mem_flatMap.1 hmem with ⟨m', hm', hpre⟩
  have heq := eq_of_file_prefix (mem_prefixes.1 hpre).2 hne hfile
  have hname : m.name = m'.name := components_injective heq
  rw [List.map_append, List.nodup_append] at hnodup
  exact hnodup.2.2 _ (List.mem_map_of_mem hm') _ (List.mem_map_of_mem List.mem_cons_self) hname.symm

/-- From the header of the first of the members `ms` on, when `done` have been entered. -/
theorem loadTarfs_from {fuel : Nat} {address : Word} (rows : Nat → Nat → UInt8)
    (hroom : Room all)
    (hroot : (node []).linkToInode = root)
    (h : Loading subName all.eraseDups.length (archivePaths done).eraseDups L node)
    (hall : archivePaths (done ++ ms) = all) (harchive : Archive mem address ms)
    (hnodup : ((done ++ ms).map Member.name).Nodup) (hname : ∀ m ∈ done ++ ms, FitsBuffer m.name)
    (hsize : ∀ m ∈ ms, m.size < 2 ^ 32) (hfuel : ms.length < fuel)
    (hnodes : ∀ m ∈ done, ¬ IsDirectory (components m.name) →
      FileNode L.heap (node (components m.name)) (BitVec.ofNat 64 m.size) m.header) :
    ∃ L' node', loadTarfs mem root subName fuel address rows L = some L' ∧
      (node' []).linkToInode = root ∧ NodeArrays L'.heap node' all.eraseDups ∧
      ∀ m ∈ done ++ ms, ¬ IsDirectory (components m.name) →
        FileNode L'.heap (node' (components m.name)) (BitVec.ofNat 64 m.size) m.header := by
  induction ms generalizing done address L node rows fuel with
  | nil =>
      rcases Nat.exists_eq_succ_of_ne_zero (Nat.ne_of_gt hfuel) with ⟨fuel, rfl⟩
      rw [List.append_nil] at hall ⊢
      cases harchive with
      | marker hmarker =>
          refine ⟨L, node, ?_, hroot, hall ▸ h.mirrors, hnodes⟩
          rw [loadTarfs, if_pos hmarker]
  | cons m ms ih =>
      rcases Nat.exists_eq_succ_of_ne_zero (Nat.ne_of_gt (Nat.zero_lt_of_lt hfuel)) with ⟨fuel, rfl⟩
      cases harchive with
      | member hheader hrest =>
          have hm : FitsBuffer m.name := hname m (List.mem_append_right _ List.mem_cons_self)
          have hlt := hsize m List.mem_cons_self
          rcases hheader.fields hm hlt with ⟨hfirst, hget, hchars⟩
          rcases split_components hm rows with ⟨s, tail, hsplit, hk, htail, hrows⟩
          have hmap : (prefixes (components m.name)).map ([] ++ ·) = prefixes (components m.name) :=
            List.map_id _
          -- the paths that are there afterwards are the earlier ones with the prefixes of this name
          have hpaths : archivePaths (done ++ [m]) =
              archivePaths done ++ (prefixes (components m.name)).map ([] ++ ·) := by
            rw [archivePaths_append, hmap]
            exact congrArg _ (List.append_nil _)
          have hnext :
              archivePaths done ++ (prefixes (components m.name)).map ([] ++ ·) <+: all := by
            have hsplit : all = archivePaths (done ++ [m]) ++ archivePaths ms := by
              rw [← hall, List.append_cons, archivePaths_append]
            rw [← hpaths, hsplit]
            exact List.prefix_append _ _
          have hpieces : ∀ piece ∈ components m.name, piece ≠ [] ∧ piece.length ≤ 9 := by
            intro piece hpiece
            refine ⟨components_ne_nil hpiece, ?_⟩
            by_cases hslash : EndsWithSlash piece
            · exact hm.directories piece hpiece hslash
            · exact (hm.files piece hpiece hslash).trans (by decide)
          have hls : ∀ l ∈ List.range (s.k + 1), l < 6 := fun l hl =>
            (List.mem_range.1 hl).trans_le hk
          rcases h.enterComponents (BitVec.ofNat 64 m.size) m.header hroom htail
            List.mem_cons_self hrows hls hnext (fun piece => components_dropLast) hpieces
            (fun hne hfile => file_notMem hfile hne hnodup) with
            ⟨L₁, node₁, henter, h₁, hkept, hnode⟩
          rw [hroot] at henter
          rw [← hpaths] at h₁
          have hroot₁ : (node₁ []).linkToInode = root := by
            rw [hkept.nodes [] List.mem_cons_self, hroot]
          rw [List.append_cons] at hall hnodup hname ⊢
          -- the nodes of the files entered before are kept, and the new one is that of this member
          have hnodes₁ : ∀ m' ∈ done ++ [m], ¬ IsDirectory (components m'.name) →
              FileNode L₁.heap (node₁ (components m'.name)) (BitVec.ofNat 64 m'.size)
                m'.header := by
            intro m' hm' hfile
            rcases List.mem_append.1 hm' with hm' | hm'
            · have hthere : components m'.name ∈ [] :: (archivePaths done).eraseDups :=
                List.mem_cons_of_mem _ (List.mem_eraseDups.2 (components_mem_archivePaths hm'
                  (hname m' (List.mem_append_left _ (List.mem_append_left _ hm')))))
              have hbefore := hnodes m' hm' hfile
              rw [hkept.nodes _ hthere]
              exact ⟨hbefore.size, (hkept.file _ hthere).trans hbefore.file⟩
            · rw [List.mem_singleton.1 hm'] at hfile ⊢
              refine hnode (fun hnil => ?_) hfile
              have hthere := components_mem_archivePaths (List.mem_singleton_self m) hm
              rw [archivePaths, List.flatMap_singleton, hnil] at hthere
              cases hthere
          rcases ih s.rows hroot₁ h₁ hall hrest hnodup hname
            (fun m' hm' => hsize m' (List.mem_cons_of_mem _ hm')) (Nat.lt_of_succ_lt_succ hfuel)
            hnodes₁ with ⟨L', node', hload, hresult⟩
          refine ⟨L', node', ?_, hresult⟩
          rw [loadTarfs, if_neg hfirst]
          dsimp only
          rw [hget, hchars, nextHeader_eq _ hlt, Option.bind_eq_bind, Option.bind_some, hsplit]
          refine Option.bind_eq_some_iff.2 ⟨s, rfl, Option.bind_eq_some_iff.2 ⟨L₁, henter, ?_⟩⟩
          exact hload

/-! ## The nodes below the root -/

/-- The inode that the names of a path lead to. -/
inductive InodeAt (heap : Heap) (root : InodeRef) : Path → InodeRef → Prop
  | root : InodeAt heap root [] root
  | child {p : Path} {x : InodeRef} {t : Tnode} : InodeAt heap root p x →
      t ∈ (heap.inodes x).subDirectoryList ∨ t ∈ (heap.inodes x).subFilesList →
      InodeAt heap root (p ++ [t.name]) t.linkToInode

/-- The node that the names of a path lead to. -/
def NodeAt (heap : Heap) (root : InodeRef) (p : Path) (t : Tnode) : Prop :=
  ∃ q x, InodeAt heap root q x ∧
    (t ∈ (heap.inodes x).subDirectoryList ∨ t ∈ (heap.inodes x).subFilesList) ∧ p = q ++ [t.name]

/-- The nodes below the root are the members and the directories on the way to them. -/
structure MirrorsArchive (heap : Heap) (root : InodeRef) (ms : List Member) : Prop where
  nodes : ∀ p, (∃ t, NodeAt heap root p t) ↔ ∃ m ∈ ms, p ≠ [] ∧ p <+: components m.name
  unique : ∀ p t u, NodeAt heap root p t → NodeAt heap root p u → t = u
  apart : ∀ p q t u, NodeAt heap root p t → NodeAt heap root q u →
    t.linkToInode = u.linkToInode → p = q
  -- siblings are in the order of first appearance
  directories : ∀ p x, InodeAt heap root p x →
    (heap.inodes x).subDirectoryList.map (fun t => some t.name) =
      (directoriesIn (archivePaths ms).eraseDups p).map List.getLast?
  files : ∀ p x, InodeAt heap root p x →
    (heap.inodes x).subFilesList.map (fun t => some t.name) =
      (filesIn (archivePaths ms).eraseDups p).map List.getLast?
  contents : ∀ m ∈ ms, ¬ IsDirectory (components m.name) →
    ∀ t, NodeAt heap root (components m.name) t → t.size = BitVec.ofNat 64 m.size ∧
      (heap.inodes t.linkToInode).startingPosition = m.header + 512 ∧
      (heap.inodes t.linkToInode).offset = 0

/-- An entry of an array is the node of a path in that directory. -/
theorem NodeArrays.entry (h : NodeArrays heap node ps) (hp : p ∈ [] :: ps)
    (ht : t ∈ (heap.inodes (node p).linkToInode).subDirectoryList ∨
      t ∈ (heap.inodes (node p).linkToInode).subFilesList) :
    p ++ [t.name] ∈ ps ∧ t = node (p ++ [t.name]) := by
  have hpath : ∃ r ∈ ps, r.dropLast = p ∧ node r = t := by
    rw [h.directories p hp, h.files p hp] at ht
    rcases ht with ht | ht
    all_goals
      rcases List.mem_map.1 ht with ⟨r, hr, hnode⟩
      rcases mem_below.1 hr with ⟨hr, hparent, -⟩
      exact ⟨r, hr, hparent, hnode⟩
  rcases hpath with ⟨r, hr, hparent, rfl⟩
  rcases List.getLast?_eq_some_iff.1 (h.name r hr) with ⟨init, hinit⟩
  have heq : r = p ++ [(node r).name] := by
    rw [← hparent]
    nth_rewrite 2 [hinit]
    rw [List.dropLast_concat]
    exact hinit
  rw [← heq]
  exact ⟨hr, rfl⟩

theorem NodeArrays.inodeAt_iff (h : NodeArrays heap node ps) :
    InodeAt heap (node []).linkToInode p x ↔ p ∈ [] :: ps ∧ x = (node p).linkToInode := by
  constructor
  · intro hat
    induction hat with
    | root => exact ⟨List.mem_cons_self, rfl⟩
    | child _ ht ih =>
        rcases ih with ⟨hp, rfl⟩
        rcases h.entry hp ht with ⟨hmem, hnode⟩
        exact ⟨List.mem_cons_of_mem _ hmem, congrArg Tnode.linkToInode hnode⟩
  · rintro ⟨hp, rfl⟩
    induction p using List.reverseRecOn with
    | nil => exact InodeAt.root
    | append_singleton p c ih =>
        have hmem : p ++ [c] ∈ ps := (List.mem_cons.1 hp).resolve_left
          (List.append_ne_nil_of_right_ne_nil _ (List.cons_ne_nil _ _))
        have hparent := h.closed _ hmem
        rw [List.dropLast_concat] at hparent
        have hname := h.name _ hmem
        rw [List.getLast?_concat] at hname
        have hentry : node (p ++ [c]) ∈ (heap.inodes (node p).linkToInode).subDirectoryList ∨
            node (p ++ [c]) ∈ (heap.inodes (node p).linkToInode).subFilesList := by
          rw [h.directories p hparent, h.files p hparent]
          by_cases hdir : IsDirectory (p ++ [c])
          · exact Or.inl (List.mem_map_of_mem (mem_below.2 ⟨hmem, List.dropLast_concat, hdir⟩))
          · exact Or.inr (List.mem_map_of_mem (mem_below.2 ⟨hmem, List.dropLast_concat, hdir⟩))
        have hat := InodeAt.child (ih hparent) hentry
        rwa [← Option.some_inj.1 hname] at hat

theorem NodeArrays.nodeAt_iff (h : NodeArrays heap node ps) :
    NodeAt heap (node []).linkToInode p t ↔ p ∈ ps ∧ t = node p := by
  constructor
  · rintro ⟨q, x, hat, ht, rfl⟩
    rcases h.inodeAt_iff.1 hat with ⟨hq, rfl⟩
    exact h.entry hq ht
  · rintro ⟨hp, rfl⟩
    have hparent := h.closed p hp
    refine ⟨p.dropLast, _, h.inodeAt_iff.2 ⟨hparent, rfl⟩, ?_, ?_⟩
    · rw [h.directories _ hparent, h.files _ hparent]
      by_cases hdir : IsDirectory p
      · exact Or.inl (List.mem_map_of_mem (mem_below.2 ⟨hp, rfl, hdir⟩))
      · exact Or.inr (List.mem_map_of_mem (mem_below.2 ⟨hp, rfl, hdir⟩))
    · rcases List.getLast?_eq_some_iff.1 (h.name p hp) with ⟨init, hinit⟩
      nth_rewrite 2 [hinit]
      rw [List.dropLast_concat]
      exact hinit

theorem mem_archivePaths : p ∈ archivePaths ms ↔ ∃ m ∈ ms, p ≠ [] ∧ p <+: components m.name := by
  simp only [archivePaths, List.mem_flatMap, mem_prefixes]

theorem NodeArrays.mirrorsArchive
    (h : NodeArrays heap node (archivePaths ms).eraseDups)
    (hfiles : ∀ m ∈ ms, ¬ IsDirectory (components m.name) →
      FileNode heap (node (components m.name)) (BitVec.ofNat 64 m.size) m.header) :
    MirrorsArchive heap (node []).linkToInode ms := by
  refine ⟨fun p => ?_, fun p t u ht hu => ?_, fun p q t u ht hu heq => ?_, fun p x hat => ?_,
    fun p x hat => ?_, fun m hm hfile t ht => ?_⟩
  · rw [← mem_archivePaths, ← List.mem_eraseDups]
    constructor
    · rintro ⟨t, ht⟩
      exact (h.nodeAt_iff.1 ht).1
    · intro hp
      exact ⟨node p, h.nodeAt_iff.2 ⟨hp, rfl⟩⟩
  · rw [(h.nodeAt_iff.1 ht).2, (h.nodeAt_iff.1 hu).2]
  · rcases h.nodeAt_iff.1 ht with ⟨hp, rfl⟩
    rcases h.nodeAt_iff.1 hu with ⟨hq, rfl⟩
    exact h.apart p (List.mem_cons_of_mem _ hp) q (List.mem_cons_of_mem _ hq) heq
  · rcases h.inodeAt_iff.1 hat with ⟨hp, rfl⟩
    rw [h.directories p hp, List.map_map]
    exact List.map_congr_left fun r hr => (h.name r (mem_below.1 hr).1).symm
  · rcases h.inodeAt_iff.1 hat with ⟨hp, rfl⟩
    rw [h.files p hp, List.map_map]
    exact List.map_congr_left fun r hr => (h.name r (mem_below.1 hr).1).symm
  · rcases h.nodeAt_iff.1 ht with ⟨-, rfl⟩
    have hnode := hfiles m hm hfile
    have hfields := hnode.file
    rw [Inode.file, Prod.mk.injEq, Prod.mk.injEq, Prod.mk.injEq] at hfields
    exact ⟨hnode.size, hfields.2.1, hfields.2.2.1⟩

/-- The root is as `create_t_node` leaves it, `bump` has the pages, the buffer is not in them. -/
structure Ready (L : Loader) (root : InodeRef) (subName : Word) (ms : List Member) : Prop where
  empty : (L.heap.inodes root).subDirectoryList = [] ∧ (L.heap.inodes root).subFilesList = [] ∧
    L.filesAt root = 0
  nodup : L.pages.Nodup
  root : root ∉ L.pages
  enough : 2 * (archivePaths ms).eraseDups.length ≤ L.pages.length
  buffer : ∀ page ∈ L.pages, OffBuffer subName (pageAddress page)
  null : OffBuffer subName 0

/-- `load_tarfs` builds the tree of the archive. -/
theorem loadTarfs_mirrors {fuel : Nat} {address : Word} (harchive : Archive mem address ms)
    (hwf : WellFormed ms) (hready : Ready L root subName ms) (hfuel : ms.length < fuel) :
    ∃ L', loadTarfs mem root subName fuel address rows L = some L' ∧
      MirrorsArchive L'.heap root ms := by
  have hstart : Loading subName (archivePaths ms).eraseDups.length (archivePaths []).eraseDups L
      fun _ => ⟨[], 0, root⟩ := by
    have hpaths : (archivePaths []).eraseDups = [] := rfl
    rw [hpaths]
    refine ⟨⟨List.not_mem_nil, fun p hp => absurd hp List.not_mem_nil, ?_,
      fun p hp => absurd hp List.not_mem_nil, fun p _ => hready.empty.1,
      fun p _ => hready.empty.2.1⟩, hready.nodup, fun x hx _ _ => ?_, ?_, fun q _ => ?_,
      hready.buffer, hready.null⟩
    · intro p hp q hq _
      rw [List.mem_singleton.1 hp, List.mem_singleton.1 hq]
    · rintro rfl
      exact hready.root hx
    · rw [List.length_nil, Nat.mul_zero, Nat.zero_add]
      exact hready.enough
    · rw [hready.empty.2.2]
      exact hready.null
  rcases loadTarfs_from rows hwf.room rfl hstart rfl harchive hwf.nodup hwf.name hwf.size
    hfuel (fun m hm => absurd hm List.not_mem_nil) with ⟨L', node', hload, hroot, harrays, hfiles⟩
  have hmirrors := harrays.mirrorsArchive hfiles
  rw [hroot] at hmirrors
  exact ⟨L', hload, hmirrors⟩

/-- A header with this name and size, byte by byte. -/
def headerByte (name : List UInt8) (size i : Nat) : UInt8 :=
  if 124 ≤ i ∧ i < 135 then 48 + UInt8.ofNat (size / 8 ^ (134 - i) % 8) else name.getD i 0

/-- A directory `bin/` and a file `sh` of 3 bytes in it. -/
def binMembers : List Member :=
  [⟨[98, 105, 110, 47], 0, 0⟩, ⟨[98, 105, 110, 47, 115, 104], 3, 512⟩]

def binArchive : Memory := fun address =>
  if address < 512 then headerByte [98, 105, 110, 47] 0 address.toNat
  else if address < 1024 then headerByte [98, 105, 110, 47, 115, 104] 3 (address - 512).toNat
  else 0

def blankInode : Inode := ⟨FS_DIRECTORY, 0, 0, [], [], 0, false⟩

def binLoader : Loader := ⟨⟨fun _ => blankInode, fun _ => 0⟩, [20, 21, 22, 23], fun _ => 0⟩

theorem binArchive_archive : Archive binArchive 0 binMembers := by
  have hend : Archive binArchive (Member.next ⟨[98, 105, 110, 47, 115, 104], 3, 512⟩) [] :=
    Archive.marker (by decide +kernel)
  have hfile : Archive binArchive (Member.next ⟨[98, 105, 110, 47], 0, 0⟩)
      [⟨[98, 105, 110, 47, 115, 104], 3, 512⟩] :=
    Archive.member ⟨by decide +kernel, by decide +kernel, by decide +kernel⟩ hend
  exact Archive.member ⟨by decide +kernel, by decide +kernel, by decide +kernel⟩ hfile

theorem binMembers_wellFormed : WellFormed binMembers := by
  have hname : ∀ m ∈ binMembers, (0 : UInt8) ∉ m.name ∧
      (1 ≤ m.name.count slash ∧ m.name.count slash ≤ 5) ∧
      (∀ piece ∈ components m.name, EndsWithSlash piece → piece.length ≤ 9) ∧
      ∀ piece ∈ components m.name, ¬ EndsWithSlash piece → piece.length ≤ 8 := by
    decide +kernel
  refine ⟨by decide +kernel, fun m hm => ?_, by decide +kernel, fun p => ?_⟩
  · rcases hname m hm with ⟨hnul, hslashes, hdirs, hfiles⟩
    exact ⟨hnul, hslashes, hdirs, hfiles⟩
  · have hlength : (archivePaths binMembers).eraseDups.length ≤ Heap.maxEntries := by decide +kernel
    exact ⟨(List.length_filter_le ..).trans hlength, (List.length_filter_le ..).trans hlength⟩

theorem binLoader_ready : Ready binLoader 10 0xffffffff80200000 binMembers := by
  refine ⟨⟨rfl, rfl, rfl⟩, by decide, by decide, by decide +kernel, ?_, ?_⟩
  · have hbelow : ∀ page ∈ binLoader.pages,
        (pageAddress page).toNat + 4096 ≤ (0xffffffff80200000 : Word).toNat := by
      decide +kernel
    exact fun page hpage => offBuffer_of_le (hbelow page hpage) (by decide)
  · exact offBuffer_of_le (by decide) (by decide)

/-- The file `sh` is below `bin/`. -/
theorem loadTarfs_mirrors_bin :
    ∃ L', loadTarfs binArchive 10 0xffffffff80200000 3 0 (fun _ _ => 55) binLoader = some L' ∧
      ∃ t, NodeAt L'.heap 10 [[98, 105, 110, 47], [115, 104]] t ∧ t.size = 3 ∧
        (L'.heap.inodes t.linkToInode).startingPosition = 1024 := by
  have hfuel : binMembers.length < 3 := by decide
  rcases loadTarfs_mirrors binArchive_archive binMembers_wellFormed binLoader_ready
    hfuel with ⟨L', hload, hmirrors⟩
  refine ⟨L', hload, ?_⟩
  have hm : (⟨[98, 105, 110, 47, 115, 104], 3, 512⟩ : Member) ∈ binMembers :=
    List.mem_cons_of_mem _ List.mem_cons_self
  rcases (hmirrors.nodes _).2 ⟨_, hm, by decide, List.prefix_refl _⟩ with ⟨t, ht⟩
  rcases hmirrors.contents _ hm (by decide) t ht with ⟨hsize, hstart, -⟩
  exact ⟨t, ht, hsize, hstart⟩

end Files

end OswpKernel
