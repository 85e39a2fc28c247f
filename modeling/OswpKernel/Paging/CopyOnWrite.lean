import OswpKernel.Paging.Fault
import OswpKernel.Paging.MapExact
import OswpKernel.Paging.TablePages

/-!
# Copy on write — which faults `copy_page` resolves

`copy_page` sets the three low bits of the entries it walks through before it looks at the present
bit, so an empty entry of one of the two middle levels leads it to physical page 0.
`copyPage_resolves_iff` says when the page of the faulting address gets a frame of its own with the
old contents, and nothing else changes: just when the page table for it is there, a page is free,
and, if there are contents to copy, the kernel has a page for the copy.
`KernelMap.hasTemporary_iff` says what the latter takes.
-/

namespace OswpKernel

namespace Paging

open Machine Execution

variable {m m' m₁ : Machine} {role role' : Frame → Role} {page va e v : Word} {t f p : Nat}
  {table pdpt pdt pt next : Frame} {i j : Slot} {path : List Slot}

/-! ## The tables of the process afterwards -/

/-- The entries above a page, from the top table down. -/
theorem UserPath.entries (hpath : UserPath m role table va pdpt pdt pt) :
    m.entries table (pathOf va) = [m.mem table (pml4Index va), m.mem pdpt (pdptIndex va),
      m.mem pdt (pdtIndex va), m.mem pt (ptIndex va)] := by
  have hleaf : m.entries pt [ptIndex va] = [m.mem pt (ptIndex va)] := by
    rw [Machine.entries]
    cases m.child pt (ptIndex va) <;> rfl
  rw [pathOf, Machine.entries, hpath.toPdpt, ← hleaf]
  dsimp only
  rw [Machine.entries, hpath.toPdt]
  dsimp only
  rw [Machine.entries, hpath.toPt]

/-- What a process sees when its tables are those of `installed`. -/
structure Installed (m m' : Machine) (table : Frame) (page : Word) (p : Nat) : Prop where
  path : ∀ e ∈ m'.entries table (pathOf page), Present e ∧ Has e writeBit ∧ Has e userBit
  mapped : m'.translate table page = some p
  others : ∀ va, (pml4Index va : Nat) < 510 → pathOf va ≠ pathOf page →
    m'.translate table va = m.translate table va

/-- The tables with the new entry are those of the process. -/
theorem UserPath.installed_roles (h : Roles m role)
    (hpath : UserPath m role table page pdpt pdt pt) (hi : (pml4Index page : Nat) < 510) (p : Nat) :
    Roles (installed m table pdpt pdt pt page p) role := by
  rcases hpath.raised (S := fun _ => False) h hi with ⟨hraised, -, -⟩
  have hentry : UserEntry role table [pml4Index page, pdptIndex page, pdtIndex page] (ptIndex page)
      (pageWord p ||| 7) := userEntry_leaf rfl (by decide) (by decide)
  exact (hraised.writeUser (S := fun _ => False) hpath.roles.2.2.2
    (fun hnil => absurd hnil (by simp)) (Or.inr hentry)).1

/-- The upper entries lead where they led. -/
theorem UserPath.installed_child (h : Roles m role)
    (hpath : UserPath m role table page pdpt pdt pt) (hi : (pml4Index page : Nat) < 510)
    (hsame : ∀ t path, role t = .table table path →
      m'.mem t = (installed m table pdpt pdt pt page p).mem t) {path : List Slot}
    (ht : role t = .table table path) (hlen : path.length < 3) (i : Slot) :
    m'.child t i = m.child t i := by
  rcases hpath.raised (S := fun _ => False) h hi with ⟨-, -, hchild⟩
  have hne : t ≠ pt := by
    rintro rfl
    rw [hpath.roles.2.2.2] at ht
    cases ht
    exact absurd hlen (by simp)
  calc m'.child t i = (installed m table pdpt pdt pt page p).child t i :=
        child_congr (congrFun (hsame t path ht) i)
    _ = (Paging.raised m table pdpt pdt page).child t i :=
        child_congr (write_mem_of_ne _ _ (Or.inl hne))
    _ = m.child t i := hchild t i

theorem UserPath.sees (h : Roles m role) (hpath : UserPath m role table page pdpt pdt pt)
    (hi : (pml4Index page : Nat) < 510) (hp : p < 2 ^ 19)
    (hsame : ∀ t path, role t = .table table path →
      m'.mem t = (installed m table pdpt pdt pt page p).mem t) : Installed m m' table page p := by
  rcases hpath.raised (S := fun _ => False) h hi with ⟨hraised, -, hchild⟩
  rcases hpath.roles with ⟨hr₀, hr₁, hr₂, hr₃⟩
  have hinstalled := hpath.installed_roles h hi p
  have hupper : UserPath m' role table page pdpt pdt pt :=
    hpath.congr (fun _ _ => rfl) fun t path ht hlen => hpath.installed_child h hi hsame ht hlen
  rcases hpath.installed_entries p with ⟨he₀, he₁, he₂, he₃⟩
  refine ⟨?_, ?_, fun va hva hother => ?_⟩
  · have hseven : ∀ e : Word, Present (e ||| 7) ∧ Has (e ||| 7) writeBit ∧ Has (e ||| 7) userBit :=
      fun e => ⟨has_of_or_left (by decide) e, has_of_or_left (by decide) e,
        has_of_or_left (by decide) e⟩
    rw [hupper.entries, hsame _ _ hr₀, hsame _ _ hr₁, hsame _ _ hr₂, hsame _ _ hr₃, he₀, he₁,
      he₂, he₃]
    intro e he
    simp only [List.mem_cons, List.not_mem_nil, or_false] at he
    rcases he with rfl | rfl | rfl | rfl <;> exact hseven _
  · rw [hupper.translate]
    refine child_eq_some.2 ?_
    rw [hsame _ _ hr₃, he₃, frameOf_link hp (by decide)]
    exact ⟨has_of_or_left (by decide) _, rfl⟩
  · have hindices : UserIndices (pathOf va) := userIndices_cons hva
    have hnot :
        ¬ ([pml4Index page, pdptIndex page, pdtIndex page] ++ [ptIndex page]) <+: pathOf va :=
      fun hunder => hother (hunder.eq_of_length rfl).symm
    calc m'.walk table (pathOf va) =
          (installed m table pdpt pdt pt page p).walk table (pathOf va) :=
          hinstalled.walk_congr hr₀ hsame hindices (le_refl 4)
      _ = (Paging.raised m table pdpt pdt page).walk table (pathOf va) :=
          hraised.walk_write hr₀ hr₃ _ hindices (le_refl 4) hnot
      _ = m.walk table (pathOf va) := walk_of_child hchild _ _

/-- What a call for the address `page` should do. -/
structure Resolves (m : Machine) (role : Frame → Role) (m' : Machine) (page : Word) : Prop where
  path : ∀ e ∈ m'.entries m.current (pathOf page), Present e ∧ Has e writeBit ∧ Has e userBit
  own : ∃ p ∈ m.ring.contents, m'.translate m.current page = some (frameOf p) ∧
    ∀ old, m.translate m.current page = some old → m'.mem (frameOf p) = m.mem old
  others : ∀ va, (pml4Index va : Nat) < 510 → pathOf va ≠ pathOf page →
    ∀ frame, m.translate m.current va = some frame → m'.translate m.current va = some frame
  walked : ∀ pdpt pdt pt m₁, copyWalk m.current page m = some (pdpt, pdt, pt, m₁) →
    MayWrite m role pdpt ∧ MayWrite m role pdt ∧ MayWrite m role pt
  written : ∀ t, ¬ MayWrite m role t → m'.mem t = m.mem t

/-- The tables above the page are tables of the process. -/
theorem UserPath.walked (h : Roles m role) (hpath : UserPath m role m.current page pdpt pdt pt)
    (hi : (pml4Index page : Nat) < 510) : ∀ pdpt pdt pt m₁,
    copyWalk m.current page m = some (pdpt, pdt, pt, m₁) →
      MayWrite m role pdpt ∧ MayWrite m role pdt ∧ MayWrite m role pt := by
  intro pdpt' pdt' pt' m₁ hwalk
  rw [copyWalk_present h hpath hi] at hwalk
  cases hwalk
  rcases hpath.roles with ⟨-, hr₁, hr₂, hr₃⟩
  exact ⟨Or.inl ⟨_, hr₁⟩, Or.inl ⟨_, hr₂⟩, Or.inl ⟨_, hr₃⟩⟩

/-- A copied page resolves the fault. -/
theorem PageCopied.resolves {role' : Frame → Role}
    (hcopied : PageCopied m role m' role' page pdpt pdt pt p)
    (h : Roles m role) (hpath : UserPath m role m.current page pdpt pdt pt)
    (hi : (pml4Index page : Nat) < 510)
    (hdata : ∀ old, m.translate m.current page = some old → ¬ MayWrite m role old) :
    Resolves m role m' page := by
  have hframe : frameOf (pageWord p) = p := frameOf_pageWord (hcopied.data.2.1.trans (by decide))
  have hsees := hpath.sees h hi hcopied.data.2.1 hcopied.tables
  refine ⟨hsees.path, ⟨pageWord p, hcopied.free, ?_, fun old hold => ?_⟩, ?_, hpath.walked h hi,
    hcopied.written⟩
  · rw [hframe]
    exact hsees.mapped
  · rw [hframe]
    exact hcopied.content old hold (hdata old hold)
  · intro va hva hother frame hframe
    rw [hsees.others va hva hother, hframe]

/-! ## When a call resolves the fault -/

/-- An empty entry is filled with 7, and then leads to page 0. -/
theorem copyDescend_empty {below : Frame → Machine → Machine} (hempty : m.mem t i = 0) :
    copyDescend t i below (m.raise t i) = some (0, below 0 (m.raise t i)) := by
  have hentry : (m.raise t i).mem t i = 7 := by
    rw [raise, write_mem_self, hempty]
    rfl
  have hseven : Present (7 : Word) ∧ tableAt 7 = some 0 := by decide
  rw [copyDescend, hentry, if_pos hseven.1, hseven.2]
  rfl

/-- A table that is not there is taken to be page 0. -/
theorem copyWalk_absent (h : Roles m role) (htable : role table = .table table [])
    (hi : (pml4Index page : Nat) < 510) (hpresent : Present (m.mem table (pml4Index page)))
    (habsent : m.walk table (upperPath page) = none) {m₁ : Machine}
    (hwalk : copyWalk table page m = some (pdpt, pdt, pt, m₁)) : pdt = 0 ∨ pt = 0 := by
  have hpdpt' : m.child table (pml4Index page) = some (frameOf (m.mem table (pml4Index page))) :=
    child_eq_some.2 ⟨hpresent, rfl⟩
  rcases h.userChild htable (fun _ => hi) (by simp) hpdpt' with ⟨-, -, hlow₁, hr₁⟩
  rcases Option.bind_eq_some_iff.1 hwalk with ⟨⟨pdpt₁, M₁⟩, hdown₁, hwalk⟩
  rcases Option.bind_eq_some_iff.1 hwalk with ⟨⟨pdt₁, M₂⟩, hdown₂, hwalk⟩
  rcases Option.bind_eq_some_iff.1 hwalk with ⟨⟨pt₁, M₃⟩, hdown₃, hret⟩
  cases hret
  -- the first level is there, so the walk goes down, and `raise` sets a bit of its entry only
  have hsame₁ := child_raise hpresent
  rw [copyDescend_present ((hsame₁ _ _).trans hpdpt') hlow₁] at hdown₁
  cases hdown₁
  generalize hpdpt : frameOf (m.mem table (pml4Index page)) = pdpt at *
  have hne : table ≠ pdpt := by
    rintro rfl
    rw [htable] at hr₁
    cases hr₁
  have hentry : (m.raise table (pml4Index page)).mem pdpt (pdptIndex page) =
      m.mem pdpt (pdptIndex page) := write_mem_of_ne m _ (Or.inl hne.symm)
  by_cases hempty : m.mem pdpt (pdptIndex page) = 0
  · -- the first missing table is the second-level one
    rw [copyDescend_empty (hentry.trans hempty)] at hdown₂
    cases hdown₂
    exact Or.inl rfl
  · have hused := h.user hr₁ (fun hnil => absurd hnil (by simp)) hempty
    have hpdt' : m.child pdpt (pdptIndex page) = some (frameOf (m.mem pdpt (pdptIndex page))) :=
      child_eq_some.2 ⟨hused.1, rfl⟩
    rcases h.userChild hr₁ (fun hnil => absurd hnil (by simp)) (by simp) hpdt' with
      ⟨-, -, hlow₂, hr₂⟩
    have hchild₂ : (m.raise table (pml4Index page)).child pdpt (pdptIndex page) = _ :=
      (hsame₁ _ _).trans hpdt'
    have hsame₂ := child_raise (child_eq_some.1 hchild₂).1
    rw [copyDescend_present ((hsame₂ _ _).trans hchild₂) hlow₂] at hdown₂
    cases hdown₂
    generalize hpdt : frameOf (m.mem pdpt (pdptIndex page)) = pdt at *
    have hne₁ : pdt ≠ table := by
      rintro rfl
      rw [htable] at hr₂
      cases hr₂
    have hne₂ : pdt ≠ pdpt := by
      rintro rfl
      rw [hr₁] at hr₂
      cases hr₂
    -- with the second level there it is the page table that is missing
    have hempty₂ : m.mem pdt (pdtIndex page) = 0 := by
      by_contra hfull
      have hused₂ := h.user hr₂ (fun hnil => absurd hnil (by simp)) hfull
      have hpt' : m.child pdt (pdtIndex page) = some (frameOf (m.mem pdt (pdtIndex page))) :=
        child_eq_some.2 ⟨hused₂.1, rfl⟩
      rw [upperPath, walk_cons hpdpt', walk_cons hpdt', walk_cons hpt', walk] at habsent
      cases habsent
    have hentry₂ : ((m.raise table (pml4Index page)).raise pdpt (pdptIndex page)).mem pdt
        (pdtIndex page) = 0 := by
      rw [raise, write_mem_of_ne _ _ (Or.inl hne₂), raise, write_mem_of_ne _ _ (Or.inl hne₁),
        hempty₂]
    rw [copyDescend_empty hentry₂] at hdown₃
    cases hdown₃
    exact Or.inr rfl

/-- What a call for the address needs: the page table for it, a free page, and, if the page is
there, another one for the copy. -/
structure CanCopy (m : Machine) (page : Word) : Prop where
  table : m.walk m.current (upperPath page) ≠ none
  free : 0 < m.ring.free
  temporary : m.translate m.current page ≠ none → HasTemporary m

/-- A fault on a copy-on-write address is resolved just when the page table for the address is
there, a page is free, and the kernel has a page for the copy if there is something to copy. -/
theorem copyPage_resolves_iff (h : Roles m role) (htable : role m.current = .table m.current [])
    (htop : m.mem m.current 511 = m.mem m.pml4t 511) (hi : (pml4Index page : Nat) < 510)
    (hcow : IsCowEnabled m (pml4Index page)) (hzero : ¬ MayWrite m role 0)
    (hdata : ∀ old, m.translate m.current page = some old → ¬ MayWrite m role old) :
    (∃ m', copyPage m.current page m = some m' ∧ Resolves m role m' page) ↔ CanCopy m page := by
  constructor
  · rintro ⟨m', hcopy, hresolves⟩
    have hpresent : m.walk m.current (upperPath page) ≠ none := by
      intro habsent
      rw [copyPage_eq] at hcopy
      rcases Option.bind_eq_some_iff.1 hcopy with ⟨⟨pdpt, pdt, pt, m₁⟩, hwalk, -⟩
      rcases hresolves.walked pdpt pdt pt m₁ hwalk with ⟨-, hpdt, hpt⟩
      rcases copyWalk_absent h htable hi hcow.2 habsent hwalk with rfl | rfl
      · exact hzero hpdt
      · exact hzero hpt
    refine ⟨hpresent, ?_, fun hmapped => ?_⟩
    · rcases hresolves.own with ⟨p, hp, -⟩
      rw [← m.ring.length_contents]
      exact List.length_pos_of_mem hp
    · rcases h.userPath_upper htable hi hpresent with ⟨pdpt, pdt, pt', hpath⟩
      rcases Option.ne_none_iff_exists'.1 hmapped with ⟨old, hold⟩
      exact (hpath.copies_iff h hi htop (hpath.translate.symm.trans hold)).1 ⟨m', hcopy⟩
  · rintro ⟨hpresent, hfree, htemporary⟩
    rcases h.userPath_upper htable hi hpresent with ⟨pdpt, pdt, pt', hpath⟩
    cases hleaf : m.child pt' (ptIndex page) with
    | none =>
        rcases hpath.copies_absent h hi hfree hleaf with ⟨m', hcopy⟩
        rcases hpath.copied_absent h hi hfree hleaf hcopy with ⟨role', p, hcopied⟩
        exact ⟨m', hcopy, hcopied.resolves h hpath hi hdata⟩
    | some old =>
        have hmapped : m.translate m.current page ≠ none := by
          rw [hpath.translate, hleaf]
          exact Option.some_ne_none old
        rcases (hpath.copies_iff h hi htop hleaf).2 (htemporary hmapped) with ⟨m', hcopy⟩
        rcases hpath.copied_mapped h hi htop hfree hleaf hcopy with ⟨role', p, hcopied⟩
        exact ⟨m', hcopy, hcopied.resolves h hpath hi hdata⟩

/-! ## The page for the copy -/

section Temporary

variable {K : Nat} {D T : Nat → Nat} {size : Word}

/-- Where the pages end in one table, a request that fits is served. -/
theorem KernelMap.bump_served (h : KernelMap m K D T) (hpos : 0 < Allocator.numOfPages size)
    (hfit : Allocator.numOfPages size ≤ m.ring.free) (hends : ∀ ret ∈ m.ring.slots.head?,
      ∀ abc ∈ (m.ring.slots.rotate (Allocator.numOfPages size)).head?, EndsInTable ret abc) :
    ∃ v m', Paging.bump size m = some (v, m') ∧ v ≠ 0 := by
  have hslots : m.ring.slots ≠ [] :=
    List.ne_nil_of_length_pos ((hpos.trans_le hfit).trans_le m.ring.free_le)
  rcases List.exists_cons_of_ne_nil hslots with ⟨ret, rest, hcons⟩
  have hhead : m.ring.slots.head? = some ret := by
    rw [hcons]
    rfl
  have hrotated : m.ring.slots.rotate (Allocator.numOfPages size) ≠ [] :=
    fun hnil => hslots (List.rotate_eq_nil_iff.1 hnil)
  rcases List.exists_cons_of_ne_nil hrotated with ⟨abc, rest', hcons'⟩
  have hhead' : (m.ring.slots.rotate (Allocator.numOfPages size)).head? = some abc := by
    rw [hcons']
    rfl
  have hret := h.pages ret (List.mem_of_mem_head? hhead)
  have hf := hret.frame_lt
  have h₁ := h.takePages .kernel (Allocator.numOfPages size)
  rcases h₁.low with ⟨hK, hD, hT⟩
  rcases mapAddress_eq (bumpFuel (m.ring.free + 1) 4096) hf h₁.pdpt
    (h₁.pdt (frameOf ret / 512 / 512) (by omega)) (h₁.pt (frameOf ret / 512) (by omega))
    ⟨hK, hD _, hT _⟩ hhead' with ⟨c, hpdpti, hpdti, hpti, -, -, heq⟩
  rw [kernelWord, ← hret.eq_pageWord] at heq
  have hroom : c.pti + turnsPositive (mapSize abc ret) ≤ 512 := by
    rw [hpti]
    exact hends ret hhead abc hhead'
  rcases times_mapStep_inside (bumpFuel (m.ring.free + 1) 4096) m.pml4t ⟨3, 3, 3⟩
    (m.takePages .kernel (Allocator.numOfPages size)) hpdpti hpdti hroom
    with ⟨c', m', hrun, -⟩
  rw [takePages_pml4t, hrun] at heq
  refine ⟨ret + KERNBASE, m', ?_, ne_zero_of_pointerFrame hret.pointerFrame⟩
  rw [Paging.bump, bumpFuel, bumpWith, if_neg (not_lt.2 hfit), hhead, Option.bind_eq_bind,
    Option.bind_some, heq]
  rfl

/-- The page is mapped in the kernel window, or `map_address` goes over it: the next free page lies
behind it. -/
def MappedWith (m : Machine) (ret abc : Word) : Prop :=
  Mapped m (ret + KERNBASE) ∨ 0 < turnsPositive (mapSize abc ret)

/-- When `map_address` has gone over the pages from `ret` on, `ret` is mapped if it was before, or
if there was a page to go over. -/
theorem KernelMap.translate_filled (h : KernelMap m K D T) (h' : KernelMap m' K D T)
    {m₁ : Machine} {ret abc : Word} (hret : LowPage ret)
    (hfilled : Filled m₁ m' (T (frameOf ret / 512)) (frameOf ret % 512)
      (turnsPositive (mapSize abc ret)) (pageWord (frameOf ret)) 3) (hmem : m₁.mem = m.mem) :
    m'.translate m'.current (kernelWord (frameOf ret)) ≠ none ↔ MappedWith m ret abc := by
  have hf := hret.frame_lt
  have hlt : frameOf ret % 512 < 512 := Nat.mod_lt _ (by decide)
  have htranslate : m'.translate m'.current (kernelWord (frameOf ret)) =
      m'.child (T (frameOf ret / 512)) (Fin.ofNat 512 (frameOf ret)) := by
    rw [← h'.translate_eq hf, Machine.translate, Machine.translate, pathOf_kernelWord hf,
      walk, walk, child, child, h'.current]
  have hword : ret + KERNBASE = kernelWord (frameOf ret) := by
    rw [kernelWord, ← hret.eq_pageWord]
  rw [htranslate, MappedWith, hword, h.mapped_iff hf]
  constructor
  · intro hsome
    by_cases hturns : 0 < turnsPositive (mapSize abc ret)
    · exact Or.inr hturns
    · -- nothing has been entered
      have hkept := hfilled.kept (T (frameOf ret / 512)) (Fin.ofNat 512 (frameOf ret))
        (Or.inr (Or.inr (Or.inl (by simp only [Fin.val_ofNat]; omega))))
      rcases Option.ne_none_iff_exists'.1 hsome with ⟨f', hf'⟩
      rw [hmem] at hkept
      have hbefore : m.child (T (frameOf ret / 512)) (Fin.ofNat 512 (frameOf ret)) = some f' :=
        (child_congr hkept).symm.trans hf'
      rw [hbefore, h.identity _ hf _ hbefore]
      exact Or.inl rfl
  · rintro (hmapped | hturns)
    · rw [← child_congr (congrFun (congrFun hmem _) _)] at hmapped
      rw [hfilled.keepsPresent.child hmapped]
      exact Option.some_ne_none _
    · have hpresent : Present (m'.mem (T (frameOf ret / 512)) (Fin.ofNat 512 (frameOf ret))) :=
        hfilled.present hturns hlt
      rw [child, if_pos hpresent]
      exact Option.some_ne_none _

/-- Where no further table is needed, the kernel has a page for the copy just when three pages are
free and the second of them is mapped, or is as soon as it is handed out. -/
theorem KernelMap.hasTemporary_iff (h : KernelMap m K D T)
    (hends : ∀ ret ∈ (m.ring.slots.rotate 1).head?, ∀ abc ∈ (m.ring.slots.rotate 2).head?,
      EndsInTable ret abc) :
    HasTemporary m ↔ 3 ≤ m.ring.free ∧ ∀ ret ∈ (m.ring.slots.rotate 1).head?,
      ∀ abc ∈ (m.ring.slots.rotate 2).head?, MappedWith m ret abc := by
  have h₁ := h.takePages (.process m.current) 1
  have hone : Allocator.numOfPages 4096 = 1 := by decide
  have hends₁ : ∀ ret ∈ (m.takePages (.process m.current) 1).ring.slots.head?,
      ∀ abc ∈ ((m.takePages (.process m.current) 1).ring.slots.rotate
        (Allocator.numOfPages 4096)).head?, EndsInTable ret abc := by
    rw [hone, takePages_ring, SlotRing.take_slots, List.rotate_rotate]
    exact hends
  -- after a request that is served
  have hserved : ∀ v m', Paging.bump 4096 (m.takePages (.process m.current) 1) = some (v, m') →
      v ≠ 0 →
      m'.ring.free + 2 = m.ring.free ∧ (m'.translate m'.current v ≠ none ↔
        ∀ ret ∈ (m.ring.slots.rotate 1).head?, ∀ abc ∈ (m.ring.slots.rotate 2).head?,
          MappedWith m ret abc) := by
    intro v m' hbump hv
    have hfit := fits_of_bump hbump hv
    rcases h₁.bump_filled hbump hfit hends₁ with
      ⟨ret, abc, hret, -, hhead, hhead', rfl, h', hfilled⟩
    rw [takePages_ring, SlotRing.take_slots] at hhead
    rw [hone, takePages_ring, SlotRing.take_slots, List.rotate_rotate] at hhead'
    have hfree : m'.ring.free = m.ring.free - 1 - 1 := by
      rw [hfilled.ring, hone]
      rfl
    rw [hone, takePages_ring, SlotRing.take_free] at hfit
    refine ⟨by omega, ?_⟩
    have hword : kernelWord (frameOf ret) = ret + KERNBASE := by
      rw [kernelWord, ← hret.eq_pageWord]
    have hmapped := h.translate_filled h' hret hfilled rfl
    rw [hword] at hmapped
    rw [hword, hhead, hhead']
    simpa using hmapped
  constructor
  · rintro ⟨v, m', hbump, hv, hmap, hleft⟩
    rcases hserved v m' hbump hv with ⟨hfree, hiff⟩
    exact ⟨by omega, hiff.1 hmap⟩
  · rintro ⟨hfree, hmapped⟩
    rcases h₁.bump_served (by decide)
      (by rw [hone, takePages_ring, SlotRing.take_free]; omega) hends₁ with ⟨v, m', hbump, hv⟩
    rcases hserved v m' hbump hv with ⟨hleft, hiff⟩
    exact ⟨v, m', hbump, hv, hiff.2 hmapped, by omega⟩

end Temporary

/-! ## A process after a fork -/

/-- A process after a `fork`: its page at address 0 is frame 9, write-protected at every level. -/
def sharedTables (t : Nat) (i : Slot) : Word :=
  if t = 5 ∧ i = 511 then pageWord 2 ||| 3
  else if t = 5 ∧ i = 0 then pageWord 6 ||| 0x205
  else if t = 6 ∧ i = 0 then pageWord 7 ||| 0x205
  else if t = 7 ∧ i = 0 then pageWord 8 ||| 0x205
  else if t = 8 ∧ i = 0 then pageWord 9 ||| 0x205
  else kernelTables t i

def sharedPage : Machine where
  mem := sharedTables
  ring := ⟨(List.range 20).map fun k => pageWord (10 + k), 20, by decide⟩
  owner := fun _ => none
  pml4t := 1
  current := 5

def sharedRole (t : Nat) : Role :=
  if t = 5 then .table 5 []
  else if t = 6 then .table 5 [0]
  else if t = 7 then .table 5 [0, 0]
  else if t = 8 then .table 5 [0, 0, 0]
  else kernelRole t

theorem sharedPage_pages :
    sharedPage.ring.contents = (List.range 20).map fun k => pageWord (10 + k) :=
  List.take_of_length_le (by decide)

/-- The frames with a role are the tables 1 to 8. -/
theorem sharedRole_plain {t : Nat} (ht : t = 0 ∨ 9 ≤ t) : sharedRole t = .plain := by
  rw [sharedRole, if_neg (by omega), if_neg (by omega), if_neg (by omega), if_neg (by omega),
    kernelRole, if_neg (by omega), if_neg (by omega), if_neg (by omega), if_neg (by omega)]

theorem sharedRole_kernel : ∀ t : Fin 9, t ≠ 1 → sharedRole t ≠ .kernel 0 := by
  decide

/-- The process has one table of each level. -/
theorem sharedRole_table {t r : Nat} {path : List Slot} (h : sharedRole t = .table r path) :
    (path = [] → t = r) ∧ path.length ≤ 3 := by
  rw [sharedRole] at h
  split_ifs at h with h₁ h₂ h₃ h₄
  · cases h
    exact ⟨fun _ => h₁, by decide⟩
  · cases h
    exact ⟨fun hnil => absurd hnil (by decide), by decide⟩
  · cases h
    exact ⟨fun hnil => absurd hnil (by decide), by decide⟩
  · cases h
    exact ⟨fun hnil => absurd hnil (by decide), by decide⟩
  · exact absurd h (kernelRole_table t r path)

theorem sharedTables_beyond {t : Nat} (ht : t = 0 ∨ 9 ≤ t) (i : Slot) : sharedTables t i = 0 := by
  rw [sharedTables, if_neg (by omega), if_neg (by omega), if_neg (by omega), if_neg (by omega),
    if_neg (by omega), kernelTables, if_neg (by omega), if_neg (by omega), if_neg (by omega)]

/-- The entries of the eight tables that are in use. -/
theorem sharedTables_entries : ∀ t : Fin 9, ∀ i : Slot, sharedTables t i ≠ 0 →
    (t, i) ∈ [((1 : Fin 9), (511 : Slot)), (2, 510), (3, 0), (5, 511), (5, 0), (6, 0), (7, 0),
      (8, 0)] := by
  decide +kernel

theorem sharedTables_entryOk {t : Fin 9} {i : Slot} (he : sharedTables t i ≠ 0) :
    EntryOk (pageWord 2 ||| 3) sharedRole (sharedRole t) i (sharedTables t i) := by
  have hlink : ∀ {level s e}, Present e → frameOf e = s → s < 2 ^ 19 →
      sharedRole s = .kernel (level + 1) → 0 < level → ∀ i,
      EntryOk (pageWord 2 ||| 3) sharedRole (.kernel level) i e := by
    rintro level s e - rfl hlow hrole hlevel i
    exact ⟨fun h => by omega, fun h => by omega, fun _ _ _ => ⟨hlow, hrole⟩⟩
  have hentries := sharedTables_entries t i he
  simp only [List.mem_cons, List.not_mem_nil, or_false, Prod.mk.injEq] at hentries
  rcases hentries with ⟨rfl, rfl⟩ | ⟨rfl, rfl⟩ | ⟨rfl, rfl⟩ | ⟨rfl, rfl⟩ | ⟨rfl, rfl⟩ | ⟨rfl, rfl⟩ |
    ⟨rfl, rfl⟩ | ⟨rfl, rfl⟩
  · exact ⟨fun _ h => absurd h (by decide), fun _ _ => rfl, fun _ _ _ => by decide⟩
  · exact hlink (s := 3) (by decide) (by decide) (by decide) rfl (by decide) _
  · exact hlink (s := 4) (by decide) (by decide) (by decide) rfl (by decide) _
  · exact Or.inr rfl
  · exact (entryOk_user fun _ => by decide).2 (Or.inr ⟨by decide, by decide, fun _ => by decide⟩)
  · exact (entryOk_user fun h => absurd h (by decide)).2
      (Or.inr ⟨by decide, by decide, fun _ => by decide⟩)
  · exact (entryOk_user fun h => absurd h (by decide)).2
      (Or.inr ⟨by decide, by decide, fun _ => by decide⟩)
  · exact (entryOk_user fun h => absurd h (by decide)).2
      (Or.inr ⟨by decide, by decide, fun h => absurd h (by decide)⟩)

theorem sharedPage_roles : Roles sharedPage sharedRole := by
  have hcases : ∀ t : Nat, (t = 0 ∨ 9 ≤ t) ∨ ∃ t' : Fin 9, (t' : Nat) = t := by
    intro t
    by_cases ht : 9 ≤ t
    · exact Or.inl (Or.inr ht)
    · exact Or.inr ⟨⟨t, by omega⟩, rfl⟩
  refine ⟨rfl, by decide, fun t i => ?entries, fun t ht => ?low, fun t r ht => ?root,
    fun t r path ht => ?depth, fun t ht i => ?beyond, ?freeLow, ?nodup, ?plain⟩
  case entries =>
    change EntryOk (pageWord 2 ||| 3) sharedRole (sharedRole t) i (sharedTables t i)
    rcases hcases t with ht | ⟨t, rfl⟩
    · rw [sharedRole_plain ht]
      trivial
    · by_cases he : sharedTables t i = 0
      · by_cases ht : t = 1
        · rw [ht] at he ⊢
          refine ⟨fun _ _ => he, fun _ hi => ?_, fun _ _ hpresent => absurd he hpresent.ne_zero⟩
          subst hi
          rfl
        · rw [he]
          exact EntryOk.zero (sharedRole_kernel t ht)
      · exact sharedTables_entryOk he
  case low =>
    by_contra hle
    exact ht (sharedRole_plain (Or.inr (by omega)))
  case root => exact (sharedRole_table ht).1 rfl
  case depth => exact (sharedRole_table ht).2
  case beyond => exact sharedTables_beyond (Or.inr (by omega)) i
  case freeLow =>
    intro p hp
    rw [sharedPage_pages] at hp
    exact (mem_pageWords (by decide) hp).1
  case nodup =>
    rw [sharedPage_pages]
    exact nodup_pageWords (by decide)
  case plain =>
    intro p hp
    rw [sharedPage_pages] at hp
    have hframe := (mem_pageWords (by decide) hp).2.1
    exact sharedRole_plain (Or.inr (by omega))

/-- Page 0 and the page that is mapped are neither tables nor free. -/
theorem sharedPage_data {t : Nat} (ht : t = 0 ∨ t = 9) : ¬ MayWrite sharedPage sharedRole t := by
  rintro (⟨path, hpath⟩ | ⟨level, hlevel⟩ | ⟨p, hp, hframe⟩)
  · rw [sharedRole_plain (by omega)] at hpath
    cases hpath
  · rw [sharedRole_plain (by omega)] at hlevel
    cases hlevel
  · rw [sharedPage_pages] at hp
    rcases List.mem_map.1 hp with ⟨k, hk, rfl⟩
    rw [List.mem_range] at hk
    rw [frameOf_pageWord (by omega)] at hframe
    omega

/-- The page at address 0 gets a frame of its own. -/
theorem copyPage_resolves_shared : ∃ m', copyPage 5 0 sharedPage = some m' ∧
    Resolves sharedPage sharedRole m' 0 := by
  have hbump : (bump 4096 (sharedPage.takePages (.process 5) 1)).map (fun r =>
      decide (r.1 ≠ 0 ∧ r.2.translate r.2.current r.1 ≠ none ∧ 0 < r.2.ring.free)) = some true := by
    decide +kernel
  have htemporary : HasTemporary sharedPage := by
    rcases Option.map_eq_some_iff.1 hbump with ⟨⟨v, m'⟩, hbump, hcheck⟩
    exact ⟨v, m', hbump, of_decide_eq_true hcheck⟩
  refine (copyPage_resolves_iff sharedPage_roles rfl rfl (by decide) (by decide)
    (sharedPage_data (Or.inl rfl)) fun old hold => ?_).2
    ⟨by decide +kernel, by decide, fun _ => htemporary⟩
  have hnine : sharedPage.translate 5 0 = some 9 := by decide +kernel
  rw [show sharedPage.current = 5 from rfl, hnine] at hold
  cases hold
  exact sharedPage_data (Or.inr rfl)

/-- The page at `0x200000` has no page table: physical page 0 is taken for it, and written. -/
theorem copyPage_not_resolves : Roles sharedPage sharedRole ∧
    IsCowEnabled sharedPage (pml4Index 0x200000) ∧ ∃ m', copyPage 5 0x200000 sharedPage = some m' ∧
      m'.mem 0 0 ≠ sharedPage.mem 0 0 ∧ ¬ Resolves sharedPage sharedRole m' 0x200000 := by
  have hruns : (copyPage 5 0x200000 sharedPage).map (fun m' => decide (m'.mem 0 0 ≠ 0)) =
    some true := by
    decide +kernel
  rcases Option.map_eq_some_iff.1 hruns with ⟨m', hcopy, hzero⟩
  refine ⟨sharedPage_roles, by decide, m', hcopy, of_decide_eq_true hzero, fun hresolves => ?_⟩
  have hkept := hresolves.written 0 (sharedPage_data (Or.inl rfl))
  exact of_decide_eq_true hzero (congrFun hkept 0)

end Paging

end OswpKernel
