import OswpKernel.Paging.BumpReads
import OswpKernel.Paging.Pages

/-!
# Copy page — `copy_page`, step by step

`copy_page` makes the upper entries writable, takes a page, and enters it in the page table; where
there was a page it takes the contents over, through a page of the kernel that it gives back
(`PageCopied`).  It tests neither whether `bump` had such a page nor whether that page is mapped;
`UserPath.copies_iff` says when the call comes to its end.
-/

namespace OswpKernel

namespace Paging

open Machine

variable {m m' m₁ : Machine} {role role' : Frame → Role} {page va e v : Word} {t f : Nat}
  {table pdpt pdt pt : Frame} {i j : Slot} {r : Frame} {path : List Slot} {S : Frame → Prop}

/-! ## The upper entries -/

theorem walk_of_child (hchild : ∀ t i, m'.child t i = m.child t i) (t : Frame) (is : List Slot) :
    m'.walk t is = m.walk t is := by
  induction is generalizing t with
  | nil => rfl
  | cons i is ih =>
      rw [walk, walk, hchild]
      exact congrArg _ (funext ih)

/-- `| 7` does not change where a present entry leads. -/
theorem child_raise (hpresent : Present (m.mem t i)) (t' : Frame) (j : Slot) :
    (m.raise t i).child t' j = m.child t' j := by
  by_cases hat : t' = t ∧ j = i
  · rcases hat with ⟨rfl, rfl⟩
    rw [child, child, Machine.raise, write_mem_self, if_pos hpresent,
      if_pos (hpresent.or_right 7), frameOf_or _ (by decide)]
  · exact child_congr (write_mem_of_ne m _ (by tauto))

/-- `| 7` on an entry in use. -/
theorem Roles.raise (h : Roles m role) {next : Frame} (ht : role t = .table r path)
    (hi : path = [] → (i : Nat) < 510) (hchild : m.child t i = some next) :
    Roles (m.raise t i) role ∧ Extends S m role (m.raise t i) role := by
  have hused := (child_eq_some.1 hchild).1.ne_zero
  exact h.writeUser ht hi (Or.inr ((h.user ht hi hused).or (by decide)))

theorem copyDescend_present {next : Frame} {below : Frame → Machine → Machine}
    (hchild : m.child t i = some next) (hlow : next < 2 ^ 19) :
    copyDescend t i below m = some (next, below next m) := by
  rcases child_eq_some.1 hchild with ⟨hpresent, rfl⟩
  rw [copyDescend, if_pos hpresent, tableAt_of_low hlow]
  rfl

/-- The machine when `copy_page` has made the upper tables writable. -/
def raised (m : Machine) (table pdpt pdt : Frame) (page : Word) : Machine :=
  ((m.raise table (pml4Index page)).raise pdpt (pdptIndex page)).raise pdt (pdtIndex page)

theorem UserPath.raised (h : Roles m role) (hpath : UserPath m role table va pdpt pdt pt)
    (hi : (pml4Index va : Nat) < 510) :
    Roles (raised m table pdpt pdt va) role ∧ Extends S m role (raised m table pdpt pdt va) role ∧
      ∀ t i, (raised m table pdpt pdt va).child t i = m.child t i := by
  rcases hpath.roles with ⟨hr₀, hr₁, hr₂, -⟩
  have hp₁ := (child_eq_some.1 hpath.toPdpt).1
  rcases h.raise (S := S) hr₀ (fun _ => hi) hpath.toPdpt with ⟨h₁, hg₁⟩
  have hsame₁ := child_raise hp₁
  have hpdt : (m.raise table (pml4Index va)).child pdpt (pdptIndex va) = some pdt :=
    (hsame₁ _ _).trans hpath.toPdt
  rcases h₁.raise (S := S) hr₁ (fun h => absurd h (by simp)) hpdt with ⟨h₂, hg₂⟩
  have hsame₂ := child_raise (child_eq_some.1 hpdt).1
  have hpt : ((m.raise table (pml4Index va)).raise pdpt (pdptIndex va)).child pdt (pdtIndex va) =
      some pt := (hsame₂ _ _).trans ((hsame₁ _ _).trans hpath.toPt)
  rcases h₂.raise (S := S) hr₂ (fun h => absurd h (by simp)) hpt with ⟨h₃, hg₃⟩
  have hsame₃ := child_raise (child_eq_some.1 hpt).1
  exact ⟨h₃, (hg₁.trans hg₂).trans hg₃, fun t i =>
    (hsame₃ t i).trans ((hsame₂ t i).trans (hsame₁ t i))⟩

/-- The machine when the old page is in the kernel's copy and the entry for the new one is in. -/
def saved (m : Machine) (copy source pt : Frame) (i : Slot) (e : Word) : Machine :=
  (m.setPage copy (m.mem source)).write pt i e

/-! ## The walk -/

/-- The walk at the head of `copy_page`, with the three tables it comes to. -/
def copyWalk (table : Frame) (page : Word) (m : Machine) :
    Option (Frame × Frame × Frame × Machine) := do
  let m := m.raise table (pml4Index page)
  let (pdpt, m) ← copyDescend table (pml4Index page) (fun t m => m.raise t (pdptIndex page)) m
  let (pdt, m) ← copyDescend pdpt (pdptIndex page) (fun t m => m.raise t (pdtIndex page)) m
  let (pt, m) ← copyDescend pdt (pdtIndex page) (fun _ m => m) m
  return (pdpt, pdt, pt, m)

/-- The rest of `copy_page`, in the page table `pt`. -/
def copyInto (table : Frame) (page : Word) (pt : Frame) (m : Machine) : Option Machine := do
  let (phys, m) ← bumpPhysical m table 4096
  if Present (m.mem pt (ptIndex page)) then do
    let (v, m) ← bump 4096 m
    let copy ← kernelPage v m
    let source ← m.translate m.current page
    let m := m.setPage copy (m.mem source)
    let m := m.write pt (ptIndex page) (phys ||| 7)
    let dest ← m.translate m.current page
    (m.setPage dest (m.mem copy)).kfree v
  else
    return m.write pt (ptIndex page) (phys ||| 7)

theorem copyPage_eq (table : Frame) (page : Word) (m : Machine) : copyPage table page m =
    (copyWalk table page m).bind fun w => copyInto table page w.2.2.1 w.2.2.2 := by
  simp only [copyPage, copyWalk, copyInto, Option.bind_eq_bind, Option.bind_assoc, Option.pure_def,
    Option.bind_some]

/-- Where the tables are there, the walk makes their entries writable. -/
theorem copyWalk_present {page : Word} (h : Roles m role)
    (hpath : UserPath m role table page pdpt pdt pt) (hi : (pml4Index page : Nat) < 510) :
    copyWalk table page m = some (pdpt, pdt, pt, raised m table pdpt pdt page) := by
  rcases hpath.roles with ⟨hr₀, hr₁, hr₂, hr₃⟩
  have hlow : ∀ {t}, role t ≠ .plain → t < 2 ^ 19 := fun ht => h.low _ ht
  have hp₁ := (child_eq_some.1 hpath.toPdpt).1
  have hdown₁ : ∀ below, copyDescend table (pml4Index page) below (m.raise table (pml4Index page)) =
      some (pdpt, below pdpt (m.raise table (pml4Index page))) := fun below =>
    copyDescend_present ((child_raise hp₁ _ _).trans hpath.toPdpt)
      (hlow (by rw [hr₁]; exact Role.noConfusion))
  have hpdt : (m.raise table (pml4Index page)).child pdpt (pdptIndex page) = some pdt :=
    (child_raise hp₁ _ _).trans hpath.toPdt
  have hdown₂ : ∀ below, copyDescend pdpt (pdptIndex page) below
      ((m.raise table (pml4Index page)).raise pdpt (pdptIndex page)) =
        some (pdt, below pdt ((m.raise table (pml4Index page)).raise pdpt (pdptIndex page))) :=
    fun below => copyDescend_present ((child_raise (child_eq_some.1 hpdt).1 _ _).trans hpdt)
      (hlow (by rw [hr₂]; exact Role.noConfusion))
  rcases hpath.raised (S := fun _ => False) h hi with ⟨-, -, hsame⟩
  have hdown₃ : copyDescend pdt (pdtIndex page) (fun _ m => m) (raised m table pdpt pdt page) =
      some (pt, raised m table pdpt pdt page) :=
    copyDescend_present ((hsame _ _).trans hpath.toPt) (hlow (by rw [hr₃]; exact Role.noConfusion))
  refine Option.bind_eq_some_iff.2 ⟨_, hdown₁ _, ?_⟩
  refine Option.bind_eq_some_iff.2 ⟨_, hdown₂ _, ?_⟩
  exact Option.bind_eq_some_iff.2 ⟨_, hdown₃, rfl⟩

/-- `copy_page` of a page that is mapped at all four levels, step by step. -/
theorem copyPage_cases {page : Word} {frame : Frame} (h : Roles m role)
    (hpath : UserPath m role table page pdpt pdt pt) (hi : (pml4Index page : Nat) < 510)
    (hmapped : m.child pt (ptIndex page) = some frame) (hcopy : copyPage table page m = some m') :
    ∃ phys m₄ v m₅ copy source dest m₆,
      bumpPhysical (raised m table pdpt pdt page) table 4096 = some (phys, m₄) ∧
      bump 4096 m₄ = some (v, m₅) ∧ kernelPage v m₅ = some copy ∧
      m₅.translate m₅.current page = some source ∧
      m₆ = saved m₅ copy source pt (ptIndex page) (phys ||| 7) ∧
      m₆.translate m₆.current page = some dest ∧
      (m₆.setPage dest (m₆.mem copy)).kfree v = some m' := by
  rcases hpath.raised (S := fun _ => False) h hi with ⟨-, -, hsame⟩
  rw [copyPage_eq, copyWalk_present h hpath hi, Option.bind_some, copyInto] at hcopy
  rcases Option.bind_eq_some_iff.1 hcopy with ⟨⟨phys, m₄⟩, hphys, hcopy⟩
  have hmem : m₄.mem = (raised m table pdpt pdt page).mem := by
    rcases bumpFrom_cases hphys with ⟨-, -, rfl⟩ | ⟨-, ret, -, -, rfl⟩ <;> rfl
  have hpresent : Present (m₄.mem pt (ptIndex page)) := by
    rw [hmem]
    exact (child_eq_some.1 ((hsame _ _).trans hmapped)).1
  simp only [if_pos hpresent] at hcopy
  rcases Option.bind_eq_some_iff.1 hcopy with ⟨⟨v, m₅⟩, hbump, hcopy⟩
  rcases Option.bind_eq_some_iff.1 hcopy with ⟨copy, hptr, hcopy⟩
  rcases Option.bind_eq_some_iff.1 hcopy with ⟨source, hsource, hcopy⟩
  rcases Option.bind_eq_some_iff.1 hcopy with ⟨dest, hdest, hfree⟩
  exact ⟨phys, m₄, v, m₅, copy, source, dest, _, hphys, hbump, hptr, hsource, rfl, hdest, hfree⟩

/-- A free page for a process. -/
theorem bumpPhysical_spec (h : Roles m role) (hfree : 0 < m.ring.free)
    (hbump : bumpPhysical m table 4096 = some (v, m')) :
    ∃ p, v = pageWord p ∧ m' = m.takePages (.process table) 1 ∧ Handed m role m' role 1 p := by
  rw [bumpPhysical, Machine.bumpFrom, numOfPages_table, if_neg (not_lt.2 hfree)] at hbump
  rcases Option.bind_eq_some_iff.1 hbump with ⟨ret, hhead, hret⟩
  rcases Prod.mk.inj (Option.some_inj.1 hret) with ⟨rfl, rfl⟩
  rcases h.handed (.process table) hhead (by decide) hfree with ⟨p, rfl, hhanded⟩
  exact ⟨p, BitVec.add_zero _, rfl, hhanded⟩

theorem bumpPhysical_eq_some (table : Frame) (hfree : 0 < m.ring.free) :
    ∃ ret, bumpPhysical m table 4096 = some (ret, m.takePages (.process table) 1) := by
  have hslots : m.ring.slots ≠ [] := List.ne_nil_of_length_pos (hfree.trans_le m.ring.free_le)
  rcases List.exists_cons_of_ne_nil hslots with ⟨ret, rest, hslots⟩
  rw [bumpPhysical, Machine.bumpFrom, numOfPages_table, if_neg (not_lt.2 hfree), hslots]
  exact ⟨ret + 0, rfl⟩

/-- A write to a page that is no table. -/
theorem Roles.setPageExtends (h : Roles m role) (hf : role f = .plain) (page : Slot → Word) :
    Extends S m role (m.setPage f page) role := by
  have hother : ∀ {t}, role t ≠ .plain → (m.setPage f page).mem t = m.mem t := by
    intro t ht
    refine setPage_mem_of_ne m page ?_
    rintro rfl
    exact ht hf
  refine Extends.of_tops (fun _ _ => rfl) (fun _ h => h) (fun t ht i _ => ?_) ?_ rfl rfl
  · exact congrFun (hother (by rw [ht]; exact Role.noConfusion)) i
  · exact congrFun (hother (by rw [h.top]; exact Role.noConfusion)) 511

/-- An absent page is entered, without a copy. -/
theorem copyInto_absent (habsent : ¬ Present (m.mem pt (ptIndex page)))
    (hcopy : copyInto table page pt m = some m') : ∃ phys m₁,
      bumpPhysical m table 4096 = some (phys, m₁) ∧
      m' = m₁.write pt (ptIndex page) (phys ||| 7) := by
  rw [copyInto] at hcopy
  rcases Option.bind_eq_some_iff.1 hcopy with ⟨⟨phys, m₁⟩, hphys, hcopy⟩
  have hmem : m₁.mem = m.mem := by
    rcases bumpFrom_cases hphys with ⟨-, -, rfl⟩ | ⟨-, ret, -, -, rfl⟩ <;> rfl
  dsimp only at hcopy
  rw [hmem] at hcopy
  rw [if_neg habsent] at hcopy
  exact ⟨phys, m₁, hphys, (Option.some_inj.1 hcopy).symm⟩

/-- The tables when the upper entries are writable and the page is mapped to the frame `p`. -/
def installed (m : Machine) (table pdpt pdt pt : Frame) (page : Word) (p : Nat) : Machine :=
  (raised m table pdpt pdt page).write pt (ptIndex page) (pageWord p ||| 7)

/-- The four tables above a page are four frames. -/
theorem UserPath.distinct (hpath : UserPath m role table va pdpt pdt pt) :
    table ≠ pdpt ∧ table ≠ pdt ∧ pdpt ≠ pdt ∧ table ≠ pt ∧ pdpt ≠ pt ∧ pdt ≠ pt := by
  rcases hpath.roles with ⟨hr₀, hr₁, hr₂, hr₃⟩
  refine ⟨?_, ?_, ?_, ?_, ?_, ?_⟩ <;> rintro rfl
  · rw [hr₀] at hr₁
    cases hr₁
  · rw [hr₀] at hr₂
    cases hr₂
  · rw [hr₁] at hr₂
    cases hr₂
  · rw [hr₀] at hr₃
    cases hr₃
  · rw [hr₁] at hr₃
    cases hr₃
  · rw [hr₂] at hr₃
    cases hr₃

/-- All four entries are present, writable and the user's. -/
theorem UserPath.installed_entries (hpath : UserPath m role table page pdpt pdt pt) (p : Nat) :
    (installed m table pdpt pdt pt page p).mem table (pml4Index page) =
        m.mem table (pml4Index page) ||| 7 ∧
      (installed m table pdpt pdt pt page p).mem pdpt (pdptIndex page) =
        m.mem pdpt (pdptIndex page) ||| 7 ∧
      (installed m table pdpt pdt pt page p).mem pdt (pdtIndex page) =
        m.mem pdt (pdtIndex page) ||| 7 ∧
      (installed m table pdpt pdt pt page p).mem pt (ptIndex page) = pageWord p ||| 7 := by
  rcases hpath.distinct with ⟨h₁, h₂, h₃, h₄, h₅, h₆⟩
  refine ⟨?_, ?_, ?_, write_mem_self _ _ _ _⟩
  · rw [installed, write_mem_of_ne _ _ (Or.inl h₄), Paging.raised, raise,
      write_mem_of_ne _ _ (Or.inl h₂),
      raise, write_mem_of_ne _ _ (Or.inl h₁), raise, write_mem_self]
  · rw [installed, write_mem_of_ne _ _ (Or.inl h₅), Paging.raised, raise,
      write_mem_of_ne _ _ (Or.inl h₃),
      raise, write_mem_self, raise, write_mem_of_ne _ _ (Or.inl h₁.symm)]
  · rw [installed, write_mem_of_ne _ _ (Or.inl h₆), Paging.raised, raise, write_mem_self, raise,
      write_mem_of_ne _ _ (Or.inl h₃.symm), raise, write_mem_of_ne _ _ (Or.inl h₂.symm)]

/-! ## What a call writes -/

/-- The frames a call may write: the tables of the current process, those of the kernel, and pages
that were free. -/
def MayWrite (m : Machine) (role : Frame → Role) (t : Frame) : Prop :=
  (∃ path, role t = .table m.current path) ∨ (∃ level, role t = .kernel level) ∨
    ∃ p ∈ m.ring.contents, frameOf p = t

/-- Making the upper entries writable touches three tables of the process. -/
theorem UserPath.raised_mem (hpath : UserPath m role m.current page pdpt pdt pt)
    (ht : ∀ path, role t ≠ .table m.current path) :
    (Paging.raised m m.current pdpt pdt page).mem t = m.mem t := by
  rcases hpath.roles with ⟨hr₀, hr₁, hr₂, -⟩
  have hne : ∀ {s path}, role s = .table m.current path → t ≠ s := by
    rintro s path hs rfl
    exact ht path hs
  funext k
  rw [Paging.raised, raise, write_mem_of_ne _ _ (Or.inl (hne hr₂)), raise,
    write_mem_of_ne _ _ (Or.inl (hne hr₁)), raise, write_mem_of_ne _ _ (Or.inl (hne hr₀))]

/-- Allocations for the kernel write only tables of the kernel, old ones and new ones. -/
theorem Grown.mem_of_not_mayWrite (hgrown : Grown m₁ role m' role')
    (hring : m₁.ring.contents <:+ m.ring.contents) (ht : ¬ MayWrite m role t) :
    m'.mem t = m₁.mem t := by
  refine hgrown.mem t fun level hlevel => ?_
  by_cases hsame : role' t = role t
  · exact ht (Or.inr (Or.inl ⟨level, hsame ▸ hlevel⟩))
  · rcases hgrown.grows t hsame with ⟨-, p, hp, hframe⟩
    exact ht (Or.inr (Or.inr ⟨p, hring.subset hp, hframe⟩))

/-- `kfree` of a page of the kernel window clears one entry of a page table of the kernel. -/
theorem KernelPath.kfree_mem (h : Roles m role) (hpath : KernelPath m role f pdpt pdt pt)
    (htop : m.mem m.current 511 = m.mem m.pml4t 511) (hlow : f < 2 ^ 19)
    (hkfree : m.kfree (pageWord f + KERNBASE) = some m') (ht : role t ≠ .kernel 3) :
    m'.mem t = m.mem t := by
  rcases Option.bind_eq_some_iff.1 hkfree with ⟨m₁, hunmap, hput⟩
  rcases Option.bind_eq_some_iff.1 hunmap with ⟨pt', hpt', hret⟩
  rw [hpath.unmapTable h hlow htop] at hpt'
  cases hpt'
  cases hret
  have hne : t ≠ pt := by
    rintro rfl
    exact ht hpath.roles.2.2
  dsimp only at hput
  split_ifs at hput with hroom
  cases hput
  exact funext fun k => write_mem_of_ne m 0 (Or.inl hne)

/-- What the current table translates a page of the kernel window to. -/
theorem KernelPath.translate (hpath : KernelPath m role f pdpt pdt pt) (hlow : f < 2 ^ 19)
    (htop : m.mem m.current 511 = m.mem m.pml4t 511) :
    m.translate m.current (pageWord f + KERNBASE) =
      m.child pt (ptIndex (pageWord f + KERNBASE)) := by
  have hindex : pml4Index (pageWord f + KERNBASE) = 511 := by
    have hwindow := pathOf_kernelWord hlow
    rw [pathOf, List.cons.injEq] at hwindow
    exact hwindow.1
  have hpdpt : m.child m.current 511 = some pdpt := by
    rw [child, htop]
    exact hpath.toPdpt
  rw [Machine.translate, pathOf, hindex, walk_cons hpdpt, walk_cons hpath.toPdt,
    walk_cons hpath.toPt, walk]
  exact Option.bind_fun_some _

/-- The tables above an address whose page table is there. -/
theorem Roles.userPath_upper (h : Roles m role) (htable : role table = .table table [])
    (hi : (pml4Index page : Nat) < 510) (hpresent : m.walk table (upperPath page) ≠ none) :
    ∃ pdpt pdt pt, UserPath m role table page pdpt pdt pt := by
  rcases Option.ne_none_iff_exists'.1 hpresent with ⟨pt, hpt⟩
  rcases Option.bind_eq_some_iff.1 hpt with ⟨pdpt, h₁, hpt⟩
  rcases Option.bind_eq_some_iff.1 hpt with ⟨pdt, h₂, hpt⟩
  rcases Option.bind_eq_some_iff.1 hpt with ⟨pt', h₃, hret⟩
  rcases Option.some_inj.1 hret with rfl
  rcases h.userChild htable (fun _ => hi) (by simp) h₁ with ⟨-, -, -, hr₁⟩
  rcases h.userChild hr₁ (fun hnil => absurd hnil (by simp)) (by simp) h₂ with ⟨-, -, -, hr₂⟩
  rcases h.userChild hr₂ (fun hnil => absurd hnil (by simp)) (by simp) h₃ with ⟨-, -, -, hr₃⟩
  exact ⟨pdpt, pdt, pt', h₁, h₂, h₃, htable, hr₁, hr₂, hr₃⟩

/-! ## The copy -/

/-- The new page `p`, the kernel's copy `f`, and the state in which the new entry is in; `m₄` is the
machine when `p` has been taken, `m₅` when `f` has. -/
structure Copying (m₄ : Machine) (role : Frame → Role) (page : Word) (pt : Frame) (p f : Nat)
    (m₅ : Machine) (role₅ : Frame → Role) (m₆ : Machine) : Prop where
  roles : Roles m₆ role₅
  extends_ : Extends (fun _ => False) m₄ role m₆ role₅
  translate : m₆.translate m₆.current page = some p
  data : Data m₆ role₅ p
  other : ∀ t, t ≠ f → t ≠ pt → m₆.mem t = m₅.mem t
  ring : m₆.ring = m₅.ring
  pml4t : m₆.pml4t = m₅.pml4t

theorem saved_copying {m₄ m₅ m₆ : Machine} {role₅ : Frame → Role} {p f source : Nat}
    (h : Roles m role) (hpath : UserPath m role m.current page pdpt pdt pt)
    (hi : (pml4Index page : Nat) < 510)
    (hm₄ : m₄ = (raised m m.current pdpt pdt page).takePages (.process m.current) 1)
    (hhanded₄ : Handed (raised m m.current pdpt pdt page) role m₄ role 1 p)
    (hhanded₅ : Handed m₄ role m₅ role₅ 1 f)
    (hm₆ : m₆ = saved m₅ f source pt (ptIndex page) (pageWord p ||| 7)) :
    Copying m₄ role page pt p f m₅ role₅ m₆ := by
  rcases hpath.raised (S := fun _ => False) h hi with ⟨h₃, hg₃, hsame₃⟩
  have hg₅ := hhanded₅.grown
  have hplain₅ := hhanded₅.plain_head
  have huser : ∀ {t path}, role t = .table m.current path → role₅ t = .table m.current path :=
    fun ht => (hg₅.keep _ (by rw [ht]; exact Role.noConfusion)).trans ht
  have hpt : role₅ pt = .table m.current [pml4Index page, pdptIndex page, pdtIndex page] :=
    huser hpath.roles.2.2.2
  have hother : ∀ t, t ≠ f → t ≠ pt → m₆.mem t = m₅.mem t := by
    intro t hf ht
    funext j
    rw [hm₆, saved, write_mem_of_ne _ _ (Or.inl ht), setPage_mem_of_ne _ _ hf]
  have h₅ := hhanded₅.roles.setPage hplain₅ hhanded₅.low (m₅.mem source)
  have hentry : UserEntry role₅ m.current [pml4Index page, pdptIndex page, pdtIndex page]
      (ptIndex page) (pageWord p ||| 7) := userEntry_leaf rfl (by decide) (by decide)
  rcases h₅.writeUser (S := fun _ => False) hpt (fun h => absurd h (by simp)) (Or.inr hentry) with
    ⟨h₆, hg₆⟩
  have hcurrent : m₆.current = m.current := by
    rw [hm₆, saved, write_current, setPage_current, hg₅.current, hm₄]
    rfl
  have hall : Extends (fun _ => False) m₄ role m₆ role₅ := by
    rw [hm₆]
    exact ((hg₅.extends hhanded₄.roles).trans
      (hhanded₅.roles.setPageExtends hplain₅ (m₅.mem source))).trans hg₆
  -- the upper tables lead where they led, the page table to the new page
  have hpath₆ : UserPath m₆ role₅ m.current page pdpt pdt pt := by
    refine hpath.congr hg₅.keep fun t path ht hlen i => ?_
    have hrole := huser ht
    have hf : t ≠ f := by
      rintro rfl
      rw [hplain₅] at hrole
      cases hrole
    have hne : t ≠ pt := by
      rintro rfl
      rw [hpath.roles.2.2.2] at ht
      cases ht
      exact absurd hlen (by simp)
    have hmem : m₆.mem t = (raised m m.current pdpt pdt page).mem t := by
      rw [hother t hf hne, hg₅.mem t fun level => by rw [hrole]; exact Role.noConfusion, hm₄]
      rfl
    exact (child_congr (congrFun hmem i)).trans (hsame₃ t i)
  refine ⟨hm₆ ▸ h₆, hall, ?_, hall.data p ⟨hhanded₄.plain_head, hhanded₄.low, hhanded₄.notFree⟩,
    hother,
    by rw [hm₆]; rfl, by rw [hm₆]; rfl⟩
  rw [hcurrent, hpath₆.translate]
  refine child_eq_some.2 ?_
  rw [hm₆, saved, write_mem_self, frameOf_or _ (by decide), hhanded₄.frame_eq]
  exact ⟨has_of_or_left (by decide) _, rfl⟩

/-- When the contents are in the new page, the tables above the kernel's copy are still there. -/
theorem Copying.kernelPath {m₄ m₅ m₆ : Machine} {role₅ : Frame → Role} {p f : Nat}
    {pdpt₅ pdt₅ pt₅ : Frame} (hcopying : Copying m₄ role page pt p f m₅ role₅ m₆)
    (hhanded₅ : Handed m₄ role m₅ role₅ 1 f) (hkernel : KernelPath m₅ role₅ f pdpt₅ pdt₅ pt₅)
    (hpt : role₅ pt = .table r path) :
    KernelPath (m₆.setPage p (m₆.mem f)) role₅ f pdpt₅ pdt₅ pt₅ := by
  refine hkernel.congr hhanded₅.roles hcopying.pml4t fun t level ht => ?_
  have hne : ∀ {t'}, (∀ level, role₅ t' ≠ .kernel level) → t ≠ t' := by
    rintro t' ht' rfl
    exact ht' level ht
  rw [setPage_mem_of_ne _ _ (hne fun _ => by rw [hcopying.data.1]; exact Role.noConfusion),
    hcopying.other t (hne fun _ => by rw [hhanded₅.plain_head]; exact Role.noConfusion)
      (hne fun _ => by rw [hpt]; exact Role.noConfusion)]

/-- Slot 511 of the current process stays that of the kernel. -/
theorem Extends.top (hextends : Extends (fun _ => False) m role m' role')
    (hrole : role m.current = .table m.current [])
    (htop : m.mem m.current 511 = m.mem m.pml4t 511) :
    m'.mem m'.current 511 = m'.mem m'.pml4t 511 := by
  rw [hextends.current, hextends.pml4t, hextends.tops _ (fun h => h) hrole 511 (by decide),
    hextends.kernel, htop]

/-- Making the upper entries writable and taking pages leaves the page where it is. -/
theorem UserPath.translate_bumped {m₄ m₅ : Machine} {role₅ : Frame → Role} {who : Owner}
    (h : Roles m role) (hpath : UserPath m role m.current page pdpt pdt pt)
    (hi : (pml4Index page : Nat) < 510)
    (hm₄ : m₄ = (Paging.raised m m.current pdpt pdt page).takePages who 1)
    (hgrown : Grown m₄ role m₅ role₅) :
    (∀ t path, role t = .table m.current path →
        m₅.mem t = (Paging.raised m m.current pdpt pdt page).mem t) ∧
      m₅.translate m₅.current page = m.translate m.current page := by
  rcases hpath.raised (S := fun _ => False) h hi with ⟨h₃, -, hchild₃⟩
  have htables : ∀ t path, role t = .table m.current path →
      m₅.mem t = (Paging.raised m m.current pdpt pdt page).mem t := by
    intro t path ht
    have hkept : role₅ t = .table m.current path :=
      (hgrown.keep _ (by rw [ht]; exact Role.noConfusion)).trans ht
    rw [hgrown.mem t fun level => by rw [hkept]; exact Role.noConfusion, hm₄]
    rfl
  have hcurrent : m₅.current = m.current := by
    rw [hgrown.current, hm₄]
    rfl
  refine ⟨htables, ?_⟩
  calc m₅.translate m₅.current page
      = (Paging.raised m m.current pdpt pdt page).walk m.current (pathOf page) := by
        rw [hcurrent]
        exact h₃.walk_congr hpath.roles.1 htables (userIndices_cons hi) (le_refl 4)
    _ = m.translate m.current page := walk_of_child hchild₃ _ _

/-- A page has been copied: `p` is the free page it got. -/
structure PageCopied (m : Machine) (role : Frame → Role) (m' : Machine) (role' : Frame → Role)
    (page : Word) (pdpt pdt pt : Frame) (p : Nat) : Prop where
  roles : Roles m' role'
  extends_ : Extends (fun _ => False) m role m' role'
  free : pageWord p ∈ m.ring.contents
  data : Data m' role' p
  tables : ∀ t path, role t = .table m.current path →
    m'.mem t = (installed m m.current pdpt pdt pt page p).mem t
  content : ∀ old, m.translate m.current page = some old → ¬ MayWrite m role old →
    m'.mem p = m.mem old
  written : ∀ t, ¬ MayWrite m role t → m'.mem t = m.mem t

/-- A page that is absent below its three tables is entered. -/
theorem UserPath.copied_absent (h : Roles m role)
    (hpath : UserPath m role m.current page pdpt pdt pt) (hi : (pml4Index page : Nat) < 510)
    (hfree : 0 < m.ring.free) (habsent : m.child pt (ptIndex page) = none)
    (hcopy : copyPage m.current page m = some m') :
    ∃ role' p, PageCopied m role m' role' page pdpt pdt pt p := by
  rcases hpath.raised (S := fun _ => False) h hi with ⟨hraised, hg, hchild⟩
  have hr₃ := hpath.roles.2.2.2
  have hnot : ¬ Present ((Paging.raised m m.current pdpt pdt page).mem pt (ptIndex page)) := by
    intro hpresent
    have hsome := (hchild pt (ptIndex page)).symm.trans (child_eq_some.2 ⟨hpresent, rfl⟩)
    rw [habsent] at hsome
    cases hsome
  rw [copyPage_eq, copyWalk_present h hpath hi, Option.bind_some] at hcopy
  rcases copyInto_absent hnot hcopy with ⟨phys, m₁, hphys, rfl⟩
  rcases bumpPhysical_spec hraised hfree hphys with ⟨p, rfl, rfl, hhanded⟩
  have hentry : UserEntry role m.current [pml4Index page, pdptIndex page, pdtIndex page]
      (ptIndex page) (pageWord p ||| 7) := userEntry_leaf rfl (by decide) (by decide)
  rcases hhanded.roles.writeUser (S := fun _ => False) hr₃ (fun hnil => absurd hnil (by simp))
    (Or.inr hentry) with ⟨h', hg'⟩
  have hmem : (((Paging.raised m m.current pdpt pdt page).takePages (.process m.current) 1).write pt
      (ptIndex page) (pageWord p ||| 7)).mem = (installed m m.current pdpt pdt pt page p).mem := by
    simp only [installed, write, setPage, takePages_mem]
  refine ⟨role, p, h', (hg.trans (hhanded.grown.extends hraised)).trans hg',
    List.mem_of_mem_take hhanded.head,
    hg'.data p ⟨hhanded.plain_head, hhanded.low, hhanded.notFree⟩,
    fun t path _ => congrFun hmem t, fun old hold => ?_, fun t ht => ?_⟩
  · rw [hpath.translate, habsent] at hold
    cases hold
  · have hne : t ≠ pt := by
      rintro rfl
      exact ht (Or.inl ⟨_, hr₃⟩)
    rw [← hpath.raised_mem fun path hpath => ht (Or.inl ⟨path, hpath⟩), hmem]
    exact funext fun k => write_mem_of_ne _ _ (Or.inl hne)

/-- A page that is mapped is copied, through a page of the kernel that is given back. -/
theorem UserPath.copied_mapped {old : Frame} (h : Roles m role)
    (hpath : UserPath m role m.current page pdpt pdt pt) (hi : (pml4Index page : Nat) < 510)
    (htop : m.mem m.current 511 = m.mem m.pml4t 511) (hfree : 0 < m.ring.free)
    (hmapped : m.child pt (ptIndex page) = some old) (hcopy : copyPage m.current page m = some m') :
    ∃ role' p, PageCopied m role m' role' page pdpt pdt pt p := by
  rcases copyPage_cases h hpath hi hmapped hcopy with
    ⟨phys, m₄, v, m₅, copy, source, dest, m₆, hphys, hbump, hused, hsource, hm₆, hdest, hkfree⟩
  have hptr := (kernelPage_eq_some.1 hused).1
  rcases hpath.raised (S := fun _ => False) h hi with ⟨h₃, hg₃, -⟩
  rcases bumpPhysical_spec h₃ hfree hphys with ⟨p, rfl, hm₄, hhanded₄⟩
  rcases bumpFuel_spec hhanded₄.roles (by decide) hbump with
    ⟨rfl, -⟩ | ⟨role₅, f, pdpt₅, pdt₅, pt₅, rfl, hhanded₅, hkernel⟩
  · rw [pointerFrame_null] at hptr
    cases hptr
  rw [numOfPages_table] at hhanded₅
  rw [hhanded₅.pointerFrame] at hptr
  rcases Option.some_inj.1 hptr with rfl
  have hcopying := saved_copying h hpath hi hm₄ hhanded₄ hhanded₅ hm₆
  rw [hcopying.translate] at hdest
  rcases Option.some_inj.1 hdest with rfl
  have hg₅ := hhanded₅.grown
  have hplain := hcopying.data.1
  have hring₄ : m₄.ring.contents <:+ m.ring.contents := hhanded₄.grown.ring
  have hkeep : ∀ {t path}, role t = .table m.current path → role₅ t = .table m.current path :=
    fun ht => (hg₅.keep _ (by rw [ht]; exact Role.noConfusion)).trans ht
  have hr₃ := hpath.roles.2.2.2
  -- the tables of the process, before the copy and at the end
  rcases hpath.translate_bumped h hi hm₄ hg₅ with ⟨htables₅, htranslate⟩
  have hsource' : source = old := by
    rw [hsource, hpath.translate, hmapped] at htranslate
    exact Option.some_inj.1 htranslate
  subst hsource'
  have hsaved : ∀ t, ¬ MayWrite m role t → m₅.mem t = m.mem t := by
    intro t ht
    rw [hg₅.mem_of_not_mayWrite hring₄ ht, hm₄]
    exact hpath.raised_mem fun path hpath => ht (Or.inl ⟨path, hpath⟩)
  -- the last step clears an entry of a page table of the kernel
  have h₇ := hcopying.roles.setPage hplain hcopying.data.2.1 (m₆.mem f)
  have hg₇ := hcopying.extends_.trans (hcopying.roles.setPageExtends hplain (m₆.mem f))
  have hfrom : Extends (fun _ => False) m role m₄ role := hg₃.trans (hhanded₄.grown.extends h₃)
  have hall₇ := hfrom.trans hg₇
  have htop₇ := hall₇.top hpath.roles.1 htop
  have hkernel₇ := hcopying.kernelPath hhanded₅ hkernel (hkeep hr₃)
  have hfree₇ : ∀ q ∈ (m₆.setPage p (m₆.mem f)).ring.contents, frameOf q ≠ f := by
    rw [setPage_ring, hcopying.ring]
    exact hhanded₅.notFree
  rcases hhanded₅.wasFree with ⟨q, hq, hframe⟩
  rcases kfree_spec h₇ hall₇ ⟨q, hring₄.subset hq, hframe⟩ hkernel₇ htop₇ hhanded₅.plain_head
    hhanded₅.low hfree₇ hkfree with ⟨h', hg'⟩
  have hdata : Data m' role₅ p :=
    (kfree_spec h₇ hg₇ ⟨q, hq, hframe⟩ hkernel₇ htop₇ hhanded₅.plain_head hhanded₅.low hfree₇
      hkfree).2.data p ⟨hhanded₄.plain_head, hhanded₄.low, hhanded₄.notFree⟩
  have hend : ∀ t, role₅ t ≠ .kernel 3 → m'.mem t = (m₆.setPage p (m₆.mem f)).mem t := fun t ht =>
    hkernel₇.kfree_mem h₇ htop₇ hhanded₅.low hkfree ht
  have hfp : f ≠ pt := by
    rintro rfl
    have hplain := hhanded₅.plain_head
    rw [hkeep hr₃] at hplain
    cases hplain
  refine ⟨role₅, p, h', hg', List.mem_of_mem_take hhanded₄.head, hdata, fun t path ht => ?_,
    fun old' hold' hnot => ?_, fun t ht => ?_⟩
  · have htp : t ≠ p := by
      rintro rfl
      rw [hkeep ht] at hplain
      cases hplain
    have htf : t ≠ f := by
      rintro rfl
      have hplain := hhanded₅.plain_head
      rw [hkeep ht] at hplain
      cases hplain
    rw [hend t (by rw [hkeep ht]; exact Role.noConfusion), setPage_mem_of_ne _ _ htp]
    funext k
    by_cases hat : t = pt ∧ k = ptIndex page
    · rcases hat with ⟨rfl, rfl⟩
      rw [(hpath.installed_entries p).2.2.2, hm₆]
      exact write_mem_self _ _ _ _
    · have hother : t ≠ pt ∨ k ≠ ptIndex page := not_and_or.1 hat
      rw [hm₆, saved, write_mem_of_ne _ _ hother, setPage_mem_of_ne _ _ htf, htables₅ t path ht,
        installed, write_mem_of_ne _ _ hother]
  · rw [hpath.translate, hmapped] at hold'
    rcases Option.some_inj.1 hold' with rfl
    calc m'.mem p = m₆.mem f := by
          rw [hend p (by rw [hplain]; exact Role.noConfusion), setPage_mem_self]
      _ = m₅.mem source := by
          rw [hm₆, saved]
          funext k
          rw [write_mem_of_ne _ _ (Or.inl hfp), setPage_mem_self]
      _ = m.mem source := hsaved source hnot
  · have hfreed : ∀ {q : Nat}, pageWord q ∈ m.ring.contents → frameOf (pageWord q) = q → t ≠ q := by
      rintro q hq hframe rfl
      exact ht (Or.inr (Or.inr ⟨pageWord t, hq, hframe⟩))
    have hp : t ≠ p := hfreed (List.mem_of_mem_take hhanded₄.head) hhanded₄.frame_eq
    have hf : t ≠ f :=
      hfreed (hring₄.subset (List.mem_of_mem_take hhanded₅.head)) hhanded₅.frame_eq
    have hpt : t ≠ pt := by
      rintro rfl
      exact ht (Or.inl ⟨_, hr₃⟩)
    have hlevel : role₅ t ≠ .kernel 3 := by
      intro hlevel
      by_cases hsame : role₅ t = role t
      · exact ht (Or.inr (Or.inl ⟨3, hsame ▸ hlevel⟩))
      · rcases hg₅.grows t hsame with ⟨-, q, hq, hframe⟩
        exact ht (Or.inr (Or.inr ⟨q, hring₄.subset hq, hframe⟩))
    rw [hend t hlevel, setPage_mem_of_ne _ _ hp, hcopying.other t hf hpt, hsaved t ht]

/-! ## When a call comes to its end -/

/-- A page that is absent is entered whatever `bump_physical` returns. -/
theorem UserPath.copies_absent (h : Roles m role)
    (hpath : UserPath m role m.current page pdpt pdt pt) (hi : (pml4Index page : Nat) < 510)
    (hfree : 0 < m.ring.free) (habsent : m.child pt (ptIndex page) = none) :
    ∃ m', copyPage m.current page m = some m' := by
  rcases hpath.raised (S := fun _ => False) h hi with ⟨-, -, hchild⟩
  have hnot : ¬ Present ((Paging.raised m m.current pdpt pdt page).mem pt (ptIndex page)) := by
    intro hpresent
    have hsome := (hchild pt (ptIndex page)).symm.trans (child_eq_some.2 ⟨hpresent, rfl⟩)
    rw [habsent] at hsome
    cases hsome
  rcases bumpPhysical_eq_some (m := Paging.raised m m.current pdpt pdt page) m.current hfree
    with ⟨ret, hphys⟩
  rw [copyPage_eq, copyWalk_present h hpath hi, Option.bind_some, copyInto, hphys,
    Option.bind_eq_bind, Option.bind_some]
  dsimp only
  rw [takePages_mem, if_neg hnot]
  exact ⟨_, rfl⟩

/-- A page that is mapped is copied only if there is a page for the process. -/
theorem UserPath.copy_free {old : Frame} (h : Roles m role)
    (hpath : UserPath m role m.current page pdpt pdt pt) (hi : (pml4Index page : Nat) < 510)
    (hmapped : m.child pt (ptIndex page) = some old) (hcopy : copyPage m.current page m = some m') :
    0 < m.ring.free := by
  rcases copyPage_cases h hpath hi hmapped hcopy with
    ⟨phys, m₄, v, m₅, copy, -, -, -, hphys, hbump, hused, -⟩
  rcases bumpFrom_cases hphys with ⟨-, -, rfl⟩ | ⟨hfit, -⟩
  -- without one, `bump` finds none for the kernel either
  · rw [bump, bumpFuel] at hbump
    rcases bumpWith_cases hbump with ⟨-, rfl, -⟩ | ⟨hfit, -⟩
    · have hptr := (kernelPage_eq_some.1 hused).1
      rw [pointerFrame_null] at hptr
      cases hptr
    · rw [numOfPages_table] at hfit
      exact hfit
  · rw [numOfPages_table] at hfit
    exact hfit

/-- When a page has been taken for the process, `bump` still finds one; that page is mapped, and
another one is left behind which `kfree` can put it back. -/
def HasTemporary (m : Machine) : Prop :=
  ∃ v m', bump 4096 (m.takePages (.process m.current) 1) = some (v, m') ∧ v ≠ 0 ∧
    m'.translate m'.current v ≠ none ∧ 0 < m'.ring.free

/-- What `bump` hands out leaves the tables of the processes alone. -/
theorem AllocSpec.extends {alloc : Machine → Option (Word × Machine)} (hspec : AllocSpec alloc)
    (h : Roles m role) (halloc : alloc m = some (v, m')) (hv : v ≠ 0) :
    ∃ role', Extends S m role m' role' := by
  rcases hspec h halloc with ⟨rfl, -⟩ | ⟨role', f, -, hhanded⟩
  · exact absurd rfl hv
  · exact ⟨role', hhanded.grown.extends h⟩

theorem kfree_room (h : m.kfree v = some m') : 0 < m.ring.free := by
  rcases Option.bind_eq_some_iff.1 h with ⟨m₁, hunmap, hput⟩
  rcases Option.bind_eq_some_iff.1 hunmap with ⟨pt, -, hret⟩
  cases hret
  dsimp only at hput
  split_ifs at hput with hroom
  exact hroom.1

theorem kfree_of_room (hpt : m.unmapTable v = some pt) (hpos : 0 < m.ring.free)
    (hroom : m.ring.free < m.ring.slots.length) : ∃ m', m.kfree v = some m' := by
  rw [Machine.kfree, unmapPage, hpt]
  exact ⟨_, dif_pos ⟨hpos, hroom⟩⟩

/-- On machines that differ in tables of processes only, a page that `bump` hands out is mapped to
the same frame. -/
theorem translate_bump_same {U : Frame → Prop} {n' : Machine} (h : Roles m role)
    (hU : UserTables U role) (hbump : bump 4096 m = some (v, m')) (hv : v ≠ 0)
    (hsame : SameBut U m' n') (htop : m'.mem m'.current 511 = m'.mem m'.pml4t 511)
    (htop' : n'.mem n'.current 511 = n'.mem n'.pml4t 511) :
    n'.translate n'.current v = m'.translate m'.current v := by
  rcases bumpFuel_spec h (by decide) hbump with
    ⟨rfl, -⟩ | ⟨role₁, f, pdpt, pdt, pt, rfl, hhanded, hkernel⟩
  · exact absurd rfl hv
  have hU₁ := hU.grown hhanded.grown
  have hkernel' : KernelPath n' role₁ f pdpt pdt pt :=
    hkernel.congr hhanded.roles hsame.pml4t fun t level ht => hsame.mem t (hU₁.notKernel ht)
  rw [hkernel'.translate hhanded.low htop', hkernel.translate hhanded.low htop]
  exact hsame.child (hU₁.notKernel hkernel.roles.2.2) _

/-- The tables of the current process, which are all that the walk has changed. -/
theorem UserPath.raised_same (hpath : UserPath m role m.current page pdpt pdt pt) :
    UserTables (fun t => ∃ path, role t = .table m.current path) role ∧
    SameBut (fun t => ∃ path, role t = .table m.current path)
      (m.takePages (.process m.current) 1)
      ((Paging.raised m m.current pdpt pdt page).takePages (.process m.current) 1) := by
  have hraised : SameBut (fun t => ∃ path, role t = .table m.current path) m
      (Paging.raised m m.current pdpt pdt page) :=
    ⟨fun t ht => hpath.raised_mem fun path hp => ht ⟨path, hp⟩, rfl, rfl, rfl, rfl⟩
  exact ⟨fun t ⟨path, ht⟩ => ⟨m.current, path, ht⟩, hraised.takePages _ 1⟩

section Completes

variable {old : Frame} (h : Roles m role) (hpath : UserPath m role m.current page pdpt pdt pt)
  (hi : (pml4Index page : Nat) < 510) (htop : m.mem m.current 511 = m.mem m.pml4t 511)
  (hmapped : m.child pt (ptIndex page) = some old)

include h hpath hi htop hmapped

theorem UserPath.temporary_of_copies (hcopy : copyPage m.current page m = some m') :
    HasTemporary m := by
  rcases hpath.raised (S := fun _ => False) h hi with ⟨h₃, hg₃, -⟩
  rcases hpath.raised_same with ⟨hU, hsame⟩
  have hfree := hpath.copy_free h hi hmapped hcopy
  rcases copyPage_cases h hpath hi hmapped hcopy with
    ⟨phys, m₄, v, m₅, copy, source, dest, m₆, hphys, hbump, hused, -, hm₆, -, hkfree⟩
  rcases bumpPhysical_spec h₃ hfree hphys with ⟨p, -, rfl, hhanded₄⟩
  rcases kernelPage_eq_some.1 hused with ⟨hptr, hmap⟩
  have hv : v ≠ 0 := by
    rintro rfl
    rw [pointerFrame_null] at hptr
    cases hptr
  rcases bump_reads hhanded₄.roles hU hsame.symm (by decide) hbump with ⟨n', hbump', hsame'⟩
  have htaken : Roles (m.takePages (.process m.current) 1) role := h.takePages hfree
  rcases bump_allocSpec.extends hhanded₄.roles hbump hv with ⟨role₅, hg₅⟩
  rcases bump_allocSpec.extends htaken hbump' hv with ⟨role₆, hg₆⟩
  refine ⟨v, n', hbump', hv, ?_, ?_⟩
  · rw [translate_bump_same hhanded₄.roles hU hbump hv hsame'
      (((hg₃.trans (hhanded₄.grown.extends h₃)).trans hg₅).top hpath.roles.1 htop)
      (hg₆.top hpath.roles.1 htop)]
    exact hmap
  · have hroom := kfree_room hkfree
    rw [setPage_ring, hm₆] at hroom
    rw [hsame'.ring]
    exact hroom

theorem UserPath.copies_of_temporary (htemporary : HasTemporary m) :
    ∃ m', copyPage m.current page m = some m' := by
  rcases htemporary with ⟨v, n', hbump', hv, hmap, hleft⟩
  rcases hpath.raised (S := fun _ => False) h hi with ⟨h₃, hg₃, hchild₃⟩
  rcases hpath.raised_same with ⟨hU, hsame⟩
  have hfree : 0 < m.ring.free := by
    have hfit := fits_of_bump hbump' hv
    rw [takePages_ring, SlotRing.take_free, numOfPages_table] at hfit
    omega
  have htaken : Roles (m.takePages (.process m.current) 1) role := h.takePages hfree
  -- the page for the process
  rcases bumpPhysical_eq_some (m := Paging.raised m m.current pdpt pdt page) m.current hfree
    with ⟨phys, hphys⟩
  rcases bumpPhysical_spec h₃ hfree hphys with ⟨p, rfl, -, hhanded₄⟩
  -- the kernel's page for the copy
  rcases bump_reads htaken hU hsame (by decide) hbump' with ⟨m₅, hbump, hsame₅⟩
  rcases bumpFuel_spec hhanded₄.roles (by decide) hbump with
    ⟨rfl, -⟩ | ⟨role₅, f, pdpt₅, pdt₅, pt₅, rfl, hhanded₅, hkernel₅⟩
  · exact absurd rfl hv
  rw [numOfPages_table] at hhanded₅
  rcases bump_allocSpec.extends htaken hbump' hv with ⟨role₆, hg₆⟩
  have hfrom := hg₃.trans (hhanded₄.grown.extends h₃)
  have hused : kernelPage (pageWord f + KERNBASE) m₅ = some f := by
    refine kernelPage_eq_some.2 ⟨hhanded₅.pointerFrame, ?_⟩
    rw [translate_bump_same htaken hU hbump' hv hsame₅ (hg₆.top hpath.roles.1 htop)
      ((hfrom.trans (hhanded₅.grown.extends hhanded₄.roles)).top hpath.roles.1 htop)]
    exact hmap
  have hsource : m₅.translate m₅.current page = some old := by
    rw [(hpath.translate_bumped h hi rfl hhanded₅.grown).2, hpath.translate]
    exact hmapped
  let m₆ := saved m₅ f old pt (ptIndex page) (pageWord p ||| 7)
  have hcopying : Copying _ role page pt p f m₅ role₅ m₆ :=
    saved_copying h hpath hi rfl hhanded₄ hhanded₅ rfl
  have hpt : role₅ pt = .table m.current [pml4Index page, pdptIndex page, pdtIndex page] :=
    (hhanded₅.grown.keep _ (by rw [hpath.roles.2.2.2]; exact Role.noConfusion)).trans
      hpath.roles.2.2.2
  -- its way back onto the list
  have htop₇ := (hfrom.trans (hcopying.extends_.trans
    (hcopying.roles.setPageExtends hcopying.data.1 (m₆.mem f)))).top hpath.roles.1 htop
  have htable := (hcopying.kernelPath hhanded₅ hkernel₅ hpt).unmapTable
    (hcopying.roles.setPage hcopying.data.1 hcopying.data.2.1 (m₆.mem f)) hhanded₅.low htop₇
  have hring : (m₆.setPage p (m₆.mem f)).ring = m₅.ring := rfl
  have hroom : m₅.ring.free < m₅.ring.slots.length := by
    have hlist := hhanded₅.grown.ring.length_le
    have hnodes := hhanded₅.grown.slots
    have hle := m.ring.free_le
    rw [SlotRing.length_contents, SlotRing.length_contents, takePages_ring,
      SlotRing.take_free] at hlist
    rw [takePages_ring, SlotRing.take_slots, List.length_rotate] at hnodes
    change m₅.ring.free ≤ m.ring.free - 1 at hlist
    change m₅.ring.slots.length = m.ring.slots.length at hnodes
    omega
  rcases kfree_of_room htable (by rw [hring, hsame₅.ring]; exact hleft)
    (by rw [hring]; exact hroom) with ⟨m', hkfree⟩
  refine ⟨m', ?_⟩
  have hpresent : Present ((Paging.raised m m.current pdpt pdt page).mem pt (ptIndex page)) :=
    (child_eq_some.1 ((hchild₃ _ _).trans hmapped)).1
  rw [copyPage_eq, copyWalk_present h hpath hi, Option.bind_some, copyInto, hphys,
    Option.bind_eq_bind, Option.bind_some]
  dsimp only
  rw [takePages_mem, if_pos hpresent]
  refine Option.bind_eq_some_iff.2 ⟨_, hbump, ?_⟩
  refine Option.bind_eq_some_iff.2 ⟨_, hused, ?_⟩
  refine Option.bind_eq_some_iff.2 ⟨_, hsource, ?_⟩
  exact Option.bind_eq_some_iff.2 ⟨_, hcopying.translate, hkfree⟩

/-- The call for a page that is mapped comes to its end just when the kernel has a page for the
copy. -/
theorem UserPath.copies_iff : (∃ m', copyPage m.current page m = some m') ↔ HasTemporary m :=
  ⟨fun ⟨_, hcopy⟩ => hpath.temporary_of_copies h hi htop hmapped hcopy,
    hpath.copies_of_temporary h hi htop hmapped⟩

end Completes

/-- `copy_page` of a user page of the current process that is mapped at all four levels, with a
free page for the copy. -/
theorem copyPage_spec {frame : Frame} (h : Roles m role)
    (htable : role m.current = .table m.current [])
    (htop : m.mem m.current 511 = m.mem m.pml4t 511) (hi : (pml4Index page : Nat) < 510)
    (hmapped : m.translate m.current page = some frame) (hfree : 0 < m.ring.free)
    (hcopy : copyPage m.current page m = some m') :
    ∃ role', Roles m' role' ∧ Extends (fun _ => False) m role m' role' := by
  rcases h.userPath htable hi hmapped with ⟨pdpt, pdt, pt, hpath, hlast⟩
  rcases hpath.copied_mapped h hi htop hfree hlast hcopy with ⟨role', p, hcopied⟩
  exact ⟨role', hcopied.roles, hcopied.extends_⟩

end Paging

end OswpKernel
