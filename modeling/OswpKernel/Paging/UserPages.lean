import OswpKernel.Paging.Duplicate

/-!
# User pages — the entries above the pages of a process

The pages below slot 510 of the top table are named by the four indices that lead to them
(`PagePath`).  A page can be written when all its entries are writable (`Writable`); else a fault on
it is one for `copy_page`, if the top entry has the copy-on-write bit (`Ready`).  `copy_page` and
`duplicate_page_table` keep the pages of the other processes as they are, and all pages ready.
-/

namespace OswpKernel

namespace Paging

open Machine

variable {m m' m₁ : Machine} {role role' : Frame → Role} {table q r t new : Frame} {va page : Word}
  {pdpt pdt pt : Frame} {i : Slot} {f p : Nat}

/-- A page below slot 510, named by the indices that lead to it. -/
structure PagePath where
  pml4 : Slot
  pdpt : Slot
  pdt : Slot
  pt : Slot
  user : (pml4 : Nat) < 510
  deriving DecidableEq

def PagePath.upper (k : PagePath) : List Slot := [k.pml4, k.pdpt, k.pdt]

def PagePath.path (k : PagePath) : List Slot := k.upper ++ [k.pt]

/-- The page of an address. -/
def pagePath (va : Word) (h : (pml4Index va : Nat) < 510) : PagePath :=
  ⟨pml4Index va, pdptIndex va, pdtIndex va, ptIndex va, h⟩

theorem PagePath.upper_indices (k : PagePath) : UserIndices k.upper := userIndices_cons k.user

theorem PagePath.path_indices (k : PagePath) : UserIndices k.path := userIndices_cons k.user

/-- The first address of a page. -/
def PagePath.address (k : PagePath) : Word :=
  BitVec.ofNat 64 (2 ^ 39 * k.pml4 + 2 ^ 30 * k.pdpt + 2 ^ 21 * k.pdt + 2 ^ 12 * k.pt)

theorem PagePath.pathOf_address (k : PagePath) : pathOf k.address = k.path := by
  rcases k with ⟨⟨a, ha⟩, ⟨b, hb⟩, ⟨c, hc⟩, ⟨d, hd⟩, huser⟩
  dsimp only at huser
  simp only [pathOf, path, upper, address, pml4Index, pdptIndex, pdtIndex, ptIndex,
    List.cons_append, List.nil_append, List.cons.injEq, Fin.ext_iff, Fin.val_ofNat,
    BitVec.toNat_ushiftRight,
    BitVec.toNat_ofNat, Nat.shiftRight_eq_div_pow, and_true]
  omega

theorem PagePath.address_user (k : PagePath) : (pml4Index k.address : Nat) < 510 := by
  have hpml4 : pml4Index k.address = k.pml4 :=
    Option.some_inj.1 (congrArg List.head? k.pathOf_address)
  rw [hpml4]
  exact k.user

theorem PagePath.translate_address (m : Machine) (q : Frame) (k : PagePath) :
    m.translate q k.address = m.walk q k.path := by
  rw [Machine.translate, k.pathOf_address]

theorem PagePath.path_injective {k k' : PagePath} (h : k.path = k'.path) : k = k' := by
  rcases k with ⟨a, b, c, d, huser⟩
  rcases k' with ⟨a', b', c', d', huser'⟩
  simp only [path, upper, List.cons_append, List.nil_append, List.cons.injEq, and_true] at h
  rcases h with ⟨rfl, rfl, rfl, rfl⟩
  rfl

variable {k : PagePath}

/-! ## Writable pages -/

/-- Ring 3 may write: the entries are present and writable at all four levels. -/
def Writable (m : Machine) (table : Frame) (va : Word) : Prop :=
  m.translate table va ≠ none ∧ ∀ e ∈ m.entries table (pathOf va), Has e writeBit

instance (m : Machine) (table : Frame) (va : Word) : Decidable (Writable m table va) :=
  have : Decidable (∀ e ∈ m.entries table (pathOf va), Has e writeBit) := List.decidableBAll _ _
  inferInstanceAs (Decidable (_ ∧ _))

/-- The addresses of a page are alike. -/
theorem writable_congr {va va' : Word} (h : pathOf va = pathOf va') :
    Writable m q va ↔ Writable m q va' := by
  rw [Writable, Writable, Machine.translate, Machine.translate, h]

/-- The entry for the page, in the page table. -/
def leafOf (m : Machine) (q : Frame) (k : PagePath) : Word := m.entryAt q k.upper k.pt

/-- Where the tables of a process stay as they are, so does what its pages show. -/
theorem Roles.page_congr (h : Roles m role) (hq : role q = .table q [])
    (hsame : ∀ t path, role t = .table q path → m'.mem t = m.mem t) (k : PagePath) :
    m'.walk q k.path = m.walk q k.path ∧ leafOf m' q k = leafOf m q k :=
  ⟨h.walk_congr hq hsame k.path_indices (le_refl 4),
    h.entryAt_congr hq hsame k.upper_indices (le_refl 3) k.pt⟩

theorem UserPath.walk_upper (hpath : UserPath m role table va pdpt pdt pt) :
    m.walk table (upperPath va) = some pt := by
  rw [upperPath, walk_cons hpath.toPdpt, walk_cons hpath.toPdt, walk_cons hpath.toPt, walk]

/-- The last of the entries above a mapped page is the one in the page table. -/
theorem leaf_mem_entries (h : Roles m role) (htable : role table = .table table [])
    (hi : (pml4Index va : Nat) < 510) (hmapped : m.translate table va ≠ none) :
    leafOf m table (pagePath va hi) ∈ m.entries table (pathOf va) := by
  rcases Option.ne_none_iff_exists'.1 hmapped with ⟨f, hf⟩
  rcases h.userPath htable hi hf with ⟨pdpt, pdt, pt, hpath, -⟩
  have hleaf : leafOf m table (pagePath va hi) = m.mem pt (ptIndex va) :=
    entryAt_of_walk hpath.walk_upper _
  rw [hpath.entries, hleaf]
  simp

/-- The flags of an entry that are set stay set. -/
def FlagsKept (m m' : Machine) (t : Frame) (i : Slot) : Prop :=
  ∀ flag, Has (m.mem t i) flag → Has (m'.mem t i) flag

theorem FlagsKept.trans (h : FlagsKept m m₁ t i) (h' : FlagsKept m₁ m' t i) : FlagsKept m m' t i :=
  fun flag hflag => h' flag (h flag hflag)

theorem FlagsKept.of_eq (h : m'.mem t i = m.mem t i) : FlagsKept m m' t i := by
  intro flag hflag
  rw [h]
  exact hflag

/-- Where the entries above a page keep their flags, it stays writable. -/
theorem Roles.writable_keep (h : Roles m role) (hq : role q = .table q [])
    (hva : (pml4Index va : Nat) < 510)
    (hchild : ∀ t path, role t = .table q path → path.length < 3 → ∀ i, m'.child t i = m.child t i)
    (hflags : ∀ t path i, role t = .table q path → path ++ [i] <+: pathOf va → FlagsKept m m' t i)
    (hmapped : m'.translate q va ≠ none) (hwritable : Writable m q va) : Writable m' q va := by
  refine ⟨hmapped, ?_⟩
  rcases Option.ne_none_iff_exists'.1 hwritable.1 with ⟨f, hf⟩
  rcases h.userPath hq hva hf with ⟨pdpt, pdt, pt, hpath, -⟩
  have hpath' : UserPath m' role q va pdpt pdt pt := hpath.congr (fun _ _ => rfl) hchild
  rcases hpath.roles with ⟨hr₀, hr₁, hr₂, hr₃⟩
  have hentries := hwritable.2
  rw [hpath.entries] at hentries
  rw [hpath'.entries]
  simp only [List.mem_cons, List.not_mem_nil, or_false, forall_eq_or_imp, forall_eq] at hentries ⊢
  rcases hentries with ⟨h₀, h₁, h₂, h₃⟩
  exact ⟨hflags _ _ _ hr₀ ⟨_, rfl⟩ _ h₀, hflags _ _ _ hr₁ ⟨_, rfl⟩ _ h₁,
    hflags _ _ _ hr₂ ⟨_, rfl⟩ _ h₂, hflags _ _ _ hr₃ ⟨_, rfl⟩ _ h₃⟩

/-- The process may write the page, or a fault on it goes to `copy_page`. -/
def Ready (m : Machine) (q : Frame) (k : PagePath) : Prop :=
  Writable m q k.address ∨ Has (m.mem q k.pml4) cowBit ∧ Present (m.mem q k.pml4)

theorem Ready.congr (h : Ready m q k) (hroles : Roles m role) (hq : role q = .table q [])
    (hsame : ∀ t path, role t = .table q path → m'.mem t = m.mem t) : Ready m' q k := by
  rcases h with hwritable | hcow
  · refine Or.inl (hroles.writable_keep hq k.address_user (fun t path ht _ i => ?_)
      (fun t path i ht _ => ?_) ?_ hwritable)
    · exact child_congr (congrFun (hsame t path ht) i)
    · exact FlagsKept.of_eq (congrFun (hsame t path ht) i)
    · have hwalk : m'.translate q k.address = m.translate q k.address :=
        hroles.walk_congr hq hsame (userIndices_cons k.address_user) (le_refl 4)
      rw [hwalk]
      exact hwritable.1
  · right
    rw [hsame q [] hq]
    exact hcow

/-! ## `copy_page` -/

theorem Data.not_mayWrite (h : Data m role f) : ¬ MayWrite m role f := by
  rintro (⟨path, hpath⟩ | ⟨level, hlevel⟩ | ⟨p, hp, hframe⟩)
  · rw [h.1] at hpath
    cases hpath
  · rw [h.1] at hlevel
    cases hlevel
  · exact h.2.2 p hp hframe

/-- The tables of the other processes are not written. -/
theorem Roles.not_mayWrite (h : Roles m role) {path : List Slot} (ht : role t = .table r path)
    (hne : r ≠ m.current) : ¬ MayWrite m role t := by
  rintro (⟨path', hpath⟩ | ⟨level, hlevel⟩ | ⟨p, hp, rfl⟩)
  · rw [ht] at hpath
    cases hpath
    exact hne rfl
  · rw [ht] at hlevel
    cases hlevel
  · rw [h.free.plain p hp] at ht
    cases ht

/-- Making the upper entries writable touches no page table. -/
theorem UserPath.raised_pageTable {path : List Slot}
    (hpath : UserPath m role table page pdpt pdt pt) (ht : role t = .table table path)
    (hlen : path.length = 3) : (Paging.raised m table pdpt pdt page).mem t = m.mem t := by
  rcases hpath.roles with ⟨hr₀, hr₁, hr₂, -⟩
  have hne : ∀ {s path'}, role s = .table table path' → path'.length ≠ 3 → t ≠ s := by
    rintro s path' hs hshort rfl
    rw [ht] at hs
    cases hs
    exact hshort hlen
  funext j
  rw [Paging.raised, raise, write_mem_of_ne _ _ (Or.inl (hne hr₂ (by simp))), raise,
    write_mem_of_ne _ _ (Or.inl (hne hr₁ (by simp))), raise,
    write_mem_of_ne _ _ (Or.inl (hne hr₀ (by simp)))]

/-- `copy_page` leaves the entries for the other pages as they are. -/
theorem PageCopied.leaf (h : Roles m role)
    (hpath : UserPath m role m.current page pdpt pdt pt) (hi : (pml4Index page : Nat) < 510)
    (hcopied : PageCopied m role m' role' page pdpt pdt pt p) (hne : k ≠ pagePath page hi) :
    leafOf m' m.current k = leafOf m m.current k := by
  rcases hpath.roles with ⟨hr₀, -, -, hr₃⟩
  rcases hpath.raised (S := fun _ => False) h hi with ⟨hraised, -, hchild⟩
  have hinstalled := hpath.installed_roles h hi p
  have hwalk : ∀ is, (Paging.raised m m.current pdpt pdt page).walk m.current is =
      m.walk m.current is := walk_of_child hchild _
  have hother : ¬ (k.upper = [pml4Index page, pdptIndex page, pdtIndex page] ∧
      k.pt = ptIndex page) := by
    rintro ⟨hupper, hpt⟩
    refine hne (PagePath.path_injective ?_)
    rw [PagePath.path, hupper, hpt]
    rfl
  calc leafOf m' m.current k
      = (installed m m.current pdpt pdt pt page p).entryAt m.current k.upper k.pt :=
        hinstalled.entryAt_congr hr₀ hcopied.tables k.upper_indices (le_refl 3) k.pt
    _ = (Paging.raised m m.current pdpt pdt page).entryAt m.current k.upper k.pt := by
        rw [installed, hraised.entryAt_write hr₀ hr₃ ((hwalk _).trans hpath.walk_upper) _
          k.upper_indices (le_refl 3) ?below k.pt, if_neg hother]
        intro hunder
        exact absurd hunder.length_le (by simp [PagePath.upper])
    _ = leafOf m m.current k := by
        rw [leafOf]
        cases hleaf : m.walk m.current k.upper with
        | none => rw [entryAt_of_none hleaf, entryAt_of_none ((hwalk _).trans hleaf)]
        | some s =>
            rw [entryAt_of_walk hleaf, entryAt_of_walk ((hwalk _).trans hleaf),
              hpath.raised_pageTable (h.walk_role hr₀ k.upper_indices (le_refl 3) hleaf) rfl]

theorem flagsKept_raise (m : Machine) (t : Frame) (i : Slot) (t' : Frame) (j : Slot) :
    FlagsKept m (m.raise t i) t' j := by
  by_cases hat : t' = t ∧ j = i
  · rcases hat with ⟨rfl, rfl⟩
    intro flag hflag
    rw [raise, write_mem_self]
    exact hflag.or_right 7
  · exact FlagsKept.of_eq (write_mem_of_ne m _ (not_and_or.1 hat))

theorem flagsKept_raised (m : Machine) (table pdpt pdt : Frame) (page : Word) (t : Frame)
    (i : Slot) : FlagsKept m (raised m table pdpt pdt page) t i :=
  ((flagsKept_raise m table _ t i).trans (flagsKept_raise _ pdpt _ t i)).trans
    (flagsKept_raise _ pdt _ t i)

/-- All entries but the one for the page keep their flags. -/
theorem PageCopied.flagsKept (hpath : UserPath m role m.current page pdpt pdt pt)
    (hcopied : PageCopied m role m' role' page pdpt pdt pt p) {path : List Slot}
    (ht : role t = .table m.current path) (hne : path ++ [i] ≠ pathOf page) :
    FlagsKept m m' t i := by
  have hother : t ≠ pt ∨ i ≠ ptIndex page := by
    refine not_and_or.1 ?_
    rintro ⟨rfl, rfl⟩
    rw [hpath.roles.2.2.2] at ht
    cases ht
    exact hne rfl
  refine (flagsKept_raised m m.current pdpt pdt page t i).trans (FlagsKept.of_eq ?_)
  rw [hcopied.tables t path ht, installed, write_mem_of_ne _ _ hother]

/-- Copying one page keeps the others ready. -/
theorem PageCopied.ready (h : Roles m role) (hpath : UserPath m role m.current page pdpt pdt pt)
    (hi : (pml4Index page : Nat) < 510) (hcopied : PageCopied m role m' role' page pdpt pdt pt p)
    (hne : k.path ≠ pathOf page) (hready : Ready m m.current k) : Ready m' m.current k := by
  have hsees := hpath.sees h hi hcopied.data.2.1 hcopied.tables
  have hq := hpath.roles.1
  rcases hready with hwritable | hcow
  · refine Or.inl (h.writable_keep hq k.address_user (fun t path ht hlen =>
      hpath.installed_child h hi hcopied.tables ht hlen) (fun t path i ht hunder => ?_) ?_
      hwritable)
    · refine hcopied.flagsKept hpath ht ?_
      rintro heq
      rw [heq] at hunder
      exact hne ((hunder.eq_of_length rfl).trans k.pathOf_address).symm
    · rw [hsees.others _ k.address_user (k.pathOf_address ▸ hne)]
      exact hwritable.1
  · have hkept : FlagsKept m m' m.current k.pml4 :=
      hcopied.flagsKept hpath hq fun heq => absurd (congrArg List.length heq) (by simp [pathOf])
    exact Or.inr ⟨hkept _ hcow.1, hkept _ hcow.2⟩

/-! ## `duplicate_page_table` -/

/-- Data is no entry of the source. -/
theorem Duplicates.data (h : Duplicates m role m' q new) (hroles : Roles m role)
    (hq : role q = .table q []) (ht : Data m role t) : m'.mem t = m.mem t := by
  funext i
  refine h.others t i ⟨ht.2.1, fun level => ?_, ht.2.2⟩ ?_
  · rw [ht.1]
    exact Role.noConfusion
  · rintro ⟨P, hP, hlen, hwalk⟩
    have hrole := hroles.walk_role hq hP.init hlen hwalk
    rw [ht.1] at hrole
    cases hrole

/-- Nor are the tables of the other processes. -/
theorem Duplicates.other (h : Duplicates m role m' q new) (hroles : Roles m role)
    (hq : role q = .table q []) {path : List Slot} (ht : role t = .table r path)
    (hne : r ≠ q) : m'.mem t = m.mem t := by
  have hin : InUse m role t := by
    refine ⟨hroles.low t (by rw [ht]; exact Role.noConfusion), fun level => ?_, ?_⟩
    · rw [ht]
      exact Role.noConfusion
    · rintro p hp rfl
      rw [hroles.free.plain p hp] at ht
      cases ht
  funext i
  refine h.others t i hin ?_
  rintro ⟨P, hP, hlen, hwalk⟩
  have hrole := hroles.walk_role hq hP.init hlen hwalk
  rw [ht] at hrole
  cases hrole
  exact hne rfl

/-- The page table entry for a mapped page of the source or of the copy is protected. -/
theorem Duplicates.leaf (h : Duplicates m role m' q new) (hr : r = new ∨ r = q)
    (hroles' : Roles m' role') (htable : role' r = .table r [])
    (hmapped : m.walk q k.path ≠ none) : ¬ Has (leafOf m' r k) writeBit := by
  have hkeep : m'.translate r k.address = m.translate q k.address := by
    rcases hr with rfl | rfl
    · exact h.copy _ k.address_user
    · exact h.kept _ k.address_user
  have hmapped' : m.translate q k.address ≠ none := by
    rw [k.translate_address]
    exact hmapped
  have hleaf := leaf_mem_entries hroles' htable k.address_user (hkeep ▸ hmapped')
  rw [show pagePath k.address k.address_user = k from
    PagePath.path_injective k.pathOf_address] at hleaf
  refine (h.guard _ k.address_user hmapped' _ ?_).readOnly
  rcases hr with rfl | rfl
  · exact Or.inl hleaf
  · exact Or.inr hleaf

/-- After a fork both processes fault on their pages. -/
theorem Duplicates.ready (h : Duplicates m role m' q new) (hr : r = new ∨ r = q)
    (hmapped : m.walk q k.path ≠ none) : Ready m' r k := by
  have hmapped' : m.translate q k.address ≠ none := by
    rw [k.translate_address]
    exact hmapped
  have hhead : m'.mem r k.pml4 ∈ m'.entries r (pathOf k.address) := by
    rw [k.pathOf_address, PagePath.path, PagePath.upper, List.cons_append, Machine.entries]
    exact List.mem_cons_self
  have hprotected : Protected (m'.mem r k.pml4) := by
    refine h.guard _ k.address_user hmapped' _ ?_
    rcases hr with rfl | rfl
    · exact Or.inl hhead
    · exact Or.inr hhead
  exact Or.inr ⟨hprotected.cow, hprotected.present⟩

end Paging

end OswpKernel
