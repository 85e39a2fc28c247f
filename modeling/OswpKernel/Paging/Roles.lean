import OswpKernel.Paging.Process

/-!
# Paging roles — which frame is which table

A role is given to every frame: a table of the kernel, a table of one process under one path from
its top table, or neither (`plain`: free, or data).  `Roles` says that the tables are consistent
with the roles: what a table leads to is the table of its role, one level down, and the free pages
are plain.  Every write of the mapping routines is checked against it in one place (`Roles.write`),
and a free page becomes a table in one place (`Roles.claim`).

The last section is the specification of `bump`: it changes tables of the kernel only.
-/

namespace OswpKernel

namespace Paging

open Machine

inductive Role
  | plain
  | kernel (level : Nat)
  | table (root : Frame) (path : List Slot)
  deriving DecidableEq, Repr

/-- An entry of a process' own tables that is in use. -/
def UserEntry (role : Frame → Role) (root : Frame) (path : List Slot) (i : Slot) (e : Word) :
    Prop :=
  Present e ∧ Has e userBit ∧
    (path.length < 3 → frameOf e < 2 ^ 19 ∧ role (frameOf e) = .table root (path ++ [i]))

/-- What an entry of a table with the given role may be.  `top` is the entry of the kernel in slot
511; slot 510 of a process leads to its top table, or beyond the memory the kernel uses where
`map_user_pml4` has filled it in. -/
def EntryOk (top : Word) (role : Frame → Role) : Role → Slot → Word → Prop
  | .plain, _, _ => True
  | .kernel level, i, e =>
      (level = 0 → (i : Nat) < 510 → e = 0) ∧ (level = 0 → i = 511 → e = top) ∧
        (level < 3 → (level = 0 → i = 511) → Present e →
          frameOf e < 2 ^ 19 ∧ role (frameOf e) = .kernel (level + 1))
  | .table root path, i, e =>
      if path = [] ∧ i = 511 then e = 0 ∨ e = top
      else if path = [] ∧ i = 510 then e = 0 ∨ e = pageWord root ||| 3 ∨ e = 0x80000007
      else e = 0 ∨ UserEntry role root path i e

/-- The frames of the free list. -/
structure FreePages (m : Machine) (role : Frame → Role) : Prop where
  low : ∀ p ∈ m.ring.contents, LowPage p
  nodup : m.ring.contents.Nodup
  plain : ∀ p ∈ m.ring.contents, role (frameOf p) = .plain

structure Roles (m : Machine) (role : Frame → Role) : Prop where
  top : role m.pml4t = .kernel 0
  present : Present (m.mem m.pml4t 511)
  entries : ∀ t i, EntryOk (m.mem m.pml4t 511) role (role t) i (m.mem t i)
  low : ∀ t : Nat, role t ≠ .plain → t < 2 ^ 19
  root : ∀ t r, role t = .table r [] → t = r
  depth : ∀ t r path, role t = .table r path → path.length ≤ 3
  -- where the entry 0x80000007 leads, nothing is mapped
  beyond : ∀ t : Nat, 2 ^ 19 ≤ t → ∀ i, m.mem t i = 0
  free : FreePages m role

variable {m m' m₁ : Machine} {role role' role₁ : Frame → Role} {top e : Word} {t f : Nat} {i : Slot}

/-! ## Entries -/

theorem EntryOk.mono {R : Role} (h : EntryOk top role R i e)
    (hkeep : ∀ t, role t ≠ .plain → role' t = role t) : EntryOk top role' R i e := by
  cases R with
  | plain => trivial
  | kernel level =>
      rcases h with ⟨hlower, htop, hchild⟩
      refine ⟨hlower, htop, fun hlevel hslot hpresent => ?_⟩
      rcases hchild hlevel hslot hpresent with ⟨hlow, hrole⟩
      exact ⟨hlow, (hkeep _ (by rw [hrole]; exact Role.noConfusion)).trans hrole⟩
  | table root path =>
      simp only [EntryOk] at h ⊢
      split_ifs at h ⊢ with h₁ h₂
      · exact h
      · exact h
      · rcases h with h | ⟨hpresent, huser, hchild⟩
        · exact Or.inl h
        · refine Or.inr ⟨hpresent, huser, fun hlen => ?_⟩
          rcases hchild hlen with ⟨hlow, hrole⟩
          exact ⟨hlow, (hkeep _ (by rw [hrole]; exact Role.noConfusion)).trans hrole⟩

theorem EntryOk.zero {R : Role} (hR : R ≠ .kernel 0) : EntryOk top role R i 0 := by
  cases R with
  | plain => trivial
  | kernel level =>
      have hlevel : level ≠ 0 := fun h => hR (h ▸ rfl)
      exact ⟨fun _ _ => rfl, fun h => absurd h hlevel, fun _ _ h => absurd rfl h.ne_zero⟩
  | table root path => simp [EntryOk]

/-- The entries of a process' own tables, slots 510 and 511 of the top table apart. -/
theorem entryOk_user {r : Frame} {path : List Slot} (hi : path = [] → (i : Nat) < 510) :
    EntryOk top role (.table r path) i e ↔ e = 0 ∨ UserEntry role r path i e := by
  have h₁ : ¬ (path = [] ∧ i = 511) := by
    rintro ⟨hpath, rfl⟩
    exact absurd (hi hpath) (by decide)
  have h₂ : ¬ (path = [] ∧ i = 510) := by
    rintro ⟨hpath, rfl⟩
    exact absurd (hi hpath) (by decide)
  simp only [EntryOk, if_neg h₁, if_neg h₂]

theorem Roles.user (h : Roles m role) {r : Frame} {path : List Slot} (ht : role t = .table r path)
    (hi : path = [] → (i : Nat) < 510) (he : m.mem t i ≠ 0) :
    UserEntry role r path i (m.mem t i) := by
  have hok := h.entries t i
  rw [ht] at hok
  exact ((entryOk_user hi).1 hok).resolve_left he

/-- A table below the top level of the kernel leads to tables one level down. -/
theorem Roles.kernelChild (h : Roles m role) {level : Nat} (ht : role t = .kernel level)
    (hlevel : level < 3) (hslot : level = 0 → i = 511) (hpresent : Present (m.mem t i)) :
    frameOf (m.mem t i) < 2 ^ 19 ∧ role (frameOf (m.mem t i)) = .kernel (level + 1) := by
  have hok := h.entries t i
  rw [ht] at hok
  exact hok.2.2 hlevel hslot hpresent

/-! ## Writes -/

/-- A write that is in order for the role of its table. -/
theorem Roles.write (h : Roles m role) (hlow : t < 2 ^ 19)
    (hok : EntryOk (m.mem m.pml4t 511) role (role t) i e) : Roles (m.write t i e) role := by
  have htop : (m.write t i e).mem m.pml4t 511 = m.mem m.pml4t 511 := by
    by_cases hat : m.pml4t = t ∧ (511 : Slot) = i
    · rcases hat with ⟨rfl, rfl⟩
      rw [h.top] at hok
      rw [write_mem_self]
      exact hok.2.1 rfl rfl
    · exact write_mem_of_ne m e (by tauto)
  refine ⟨h.top, ?_, ?_, h.low, h.root, h.depth, ?_, h.free.low, h.free.nodup, h.free.plain⟩
  · rw [write_pml4t, htop]
    exact h.present
  · intro t' j
    rw [write_pml4t, htop]
    by_cases hat : t' = t ∧ j = i
    · rcases hat with ⟨rfl, rfl⟩
      rw [write_mem_self]
      exact hok
    · rw [write_mem_of_ne m e (by tauto)]
      exact h.entries t' j
  · intro t' ht' j
    rw [write_mem_of_ne m e (Or.inl (Nat.ne_of_gt (hlow.trans_le ht')))]
    exact h.beyond t' ht' j

/-- A write to a page that is no table. -/
theorem Roles.setPage (h : Roles m role) (hf : role f = .plain) (hlow : f < 2 ^ 19)
    (page : Slot → Word) : Roles (m.setPage f page) role := by
  have hother : ∀ t, role t ≠ .plain → (m.setPage f page).mem t = m.mem t := by
    intro t ht
    refine setPage_mem_of_ne m page ?_
    rintro rfl
    exact ht hf
  have htop : (m.setPage f page).mem m.pml4t = m.mem m.pml4t :=
    hother _ (by rw [h.top]; exact Role.noConfusion)
  refine ⟨h.top, ?_, ?_, h.low, h.root, h.depth, ?_, h.free.low, h.free.nodup, h.free.plain⟩
  · rw [setPage_pml4t, htop]
    exact h.present
  · intro t j
    rw [setPage_pml4t, htop]
    by_cases ht : role t = .plain
    · rw [ht]
      trivial
    · rw [hother t ht]
      exact h.entries t j
  · intro t ht j
    have hne : t ≠ f := by omega
    rw [setPage_mem_of_ne m page hne]
    exact h.beyond t ht j

/-- A page that is not on the free list and whose entries are in order becomes a table. -/
theorem Roles.claim (h : Roles m role) {R : Role} (hf : role f = .plain) (hlow : f < 2 ^ 19)
    (hfree : ∀ p ∈ m.ring.contents, frameOf p ≠ f)
    (hentries : ∀ i, EntryOk (m.mem m.pml4t 511) role R i (m.mem f i))
    (hroot : ∀ r, R = .table r [] → f = r)
    (hdepth : ∀ r path, R = .table r path → path.length ≤ 3) :
    Roles m (Function.update role f R) := by
  have hkeep : ∀ t, role t ≠ .plain → Function.update role f R t = role t := by
    intro t ht
    refine Function.update_of_ne ?_ _ _
    rintro rfl
    exact ht hf
  -- the top table has a role already, so it is not the frame that is claimed
  have hpml4t : Function.update role f R m.pml4t = .kernel 0 :=
    (hkeep _ (by rw [h.top]; exact Role.noConfusion)).trans h.top
  refine ⟨hpml4t, h.present, ?_, ?_, ?_, ?_, h.beyond, h.free.low, h.free.nodup, ?_⟩
  · intro t i
    by_cases ht : t = f
    · subst ht
      rw [Function.update_self]
      exact (hentries i).mono hkeep
    · rw [Function.update_of_ne ht]
      exact (h.entries t i).mono hkeep
  · intro t ht
    by_cases heq : t = f
    · exact heq ▸ hlow
    · rw [Function.update_of_ne heq] at ht
      exact h.low t ht
  · intro t r ht
    by_cases heq : t = f
    · subst heq
      rw [Function.update_self] at ht
      exact hroot r ht
    · rw [Function.update_of_ne heq] at ht
      exact h.root t r ht
  · intro t r path ht
    by_cases heq : t = f
    · subst heq
      rw [Function.update_self] at ht
      exact hdepth r path ht
    · rw [Function.update_of_ne heq] at ht
      exact h.depth t r path ht
  · intro p hp
    rw [Function.update_of_ne (hfree p hp)]
    exact h.free.plain p hp

/-- A zeroed page becomes a table. -/
theorem Roles.claimZero (h : Roles m role) {R : Role} (hf : role f = .plain) (hlow : f < 2 ^ 19)
    (hfree : ∀ p ∈ m.ring.contents, frameOf p ≠ f) (hR : R ≠ .kernel 0)
    (hroot : ∀ r, R = .table r [] → f = r)
    (hdepth : ∀ r path, R = .table r path → path.length ≤ 3) :
    Roles (m.clear f) (Function.update role f R) := by
  refine (h.setPage hf hlow fun _ => 0).claim hf hlow hfree (fun i => ?_) hroot hdepth
  rw [setPage_mem_self]
  exact EntryOk.zero hR

/-! ## The free list -/

theorem take_contents_suffix (r : SlotRing Word) {n : Nat} (hn : n ≤ r.free) :
    (r.take n).contents <:+ r.contents := by
  rw [r.contents_take hn]
  exact List.drop_suffix n _

theorem Roles.takePages (h : Roles m role) {who : Owner} {n : Nat} (hn : n ≤ m.ring.free) :
    Roles (m.takePages who n) role := by
  have hsuffix := take_contents_suffix m.ring hn
  refine ⟨h.top, h.present, h.entries, h.low, h.root, h.depth, h.beyond, ?_, ?_, ?_⟩
  · exact fun p hp => h.free.low p (hsuffix.subset hp)
  · exact hsuffix.sublist.nodup h.free.nodup
  · exact fun p hp => h.free.plain p (hsuffix.subset hp)

/-- What a request for `n` pages takes off the list is on it no longer. -/
theorem Roles.taken_notMem (h : Roles m role) {n : Nat} (hn : n ≤ m.ring.free) {p q : Word}
    (hp : p ∈ m.ring.contents.take n) (hq : q ∈ (m.ring.take n).contents) :
    frameOf q ≠ frameOf p := by
  have hp' : p ∈ m.ring.contents := List.mem_of_mem_take hp
  have hq' : q ∈ m.ring.contents := (take_contents_suffix m.ring hn).subset hq
  intro heq
  have hsame : q = p := (h.free.low q hq').frame_inj (h.free.low p hp') heq
  rw [m.ring.contents_take hn] at hq
  exact List.disjoint_take_drop h.free.nodup le_rfl hp (hsame ▸ hq)

/-- The head of the list is the first free page. -/
theorem head_mem_take {r : SlotRing Word} {ret : Word} {n : Nat} (hhead : r.slots.head? = some ret)
    (hpos : 0 < n) (hn : n ≤ r.free) : ret ∈ r.contents.take n := by
  rcases r with ⟨slots, free, hfree⟩
  cases slots with
  | nil => cases hhead
  | cons x xs =>
      cases hhead
      cases n with
      | zero => exact absurd hpos (lt_irrefl 0)
      | succ n =>
          cases free with
          | zero => exact absurd hn (Nat.not_succ_le_zero n)
          | succ free => simp [SlotRing.contents]

/-! ## `bump` -/

/-- What the kernel's own allocations do to the rest: only tables of the kernel change, and what
becomes one was free. -/
structure Grown (m : Machine) (role : Frame → Role) (m' : Machine) (role' : Frame → Role) :
    Prop where
  keep : ∀ t, role t ≠ .plain → role' t = role t
  grows : ∀ t, role' t ≠ role t →
    (∃ level, role' t = .kernel level) ∧ ∃ p ∈ m.ring.contents, frameOf p = t
  mem : ∀ t, (∀ level, role' t ≠ .kernel level) → m'.mem t = m.mem t
  kept : ∀ t level i, role t = .kernel level → level < 2 → Present (m.mem t i) →
    m'.mem t i = m.mem t i
  present : ∀ t i, role t = .kernel 2 → Present (m.mem t i) → Present (m'.mem t i)
  ring : m'.ring.contents <:+ m.ring.contents
  slots : m'.ring.slots.length = m.ring.slots.length
  pml4t : m'.pml4t = m.pml4t
  current : m'.current = m.current

theorem Grown.refl (m : Machine) (role : Frame → Role) : Grown m role m role :=
  ⟨fun _ _ => rfl, fun _ h => absurd rfl h, fun _ _ => rfl, fun _ _ _ _ _ _ => rfl,
    fun _ _ _ h => h, List.suffix_refl _, rfl, rfl, rfl⟩

theorem Grown.trans (h : Grown m role m₁ role₁) (h' : Grown m₁ role₁ m' role') :
    Grown m role m' role' := by
  have hkeep : ∀ t, role t ≠ .plain → role' t = role t := by
    intro t ht
    have h₁ := h.keep t ht
    exact (h'.keep t (h₁ ▸ ht)).trans h₁
  have hkernel : ∀ t level, role t = .kernel level → role₁ t = .kernel level := fun t level ht =>
    (h.keep t (by rw [ht]; exact Role.noConfusion)).trans ht
  refine ⟨hkeep, ?_, ?_, ?_, ?_, h'.ring.trans h.ring, h'.slots.trans h.slots,
    h'.pml4t.trans h.pml4t, h'.current.trans h.current⟩
  · intro t ht
    by_cases h₁ : role₁ t = role t
    · rcases h'.grows t (h₁ ▸ ht) with ⟨hlevel, p, hp, hframe⟩
      exact ⟨hlevel, p, h.ring.subset hp, hframe⟩
    · rcases h.grows t h₁ with ⟨⟨level, hlevel⟩, hpage⟩
      refine ⟨⟨level, ?_⟩, hpage⟩
      exact (h'.keep t (by rw [hlevel]; exact Role.noConfusion)).trans hlevel
  · intro t ht
    have h₁ : ∀ level, role₁ t ≠ .kernel level := by
      intro level hlevel
      exact ht level ((h'.keep t (by rw [hlevel]; exact Role.noConfusion)).trans hlevel)
    exact (h'.mem t ht).trans (h.mem t h₁)
  · intro t level i ht hlevel hpresent
    have heq := h.kept t level i ht hlevel hpresent
    exact (h'.kept t level i (hkernel t level ht) hlevel (heq ▸ hpresent)).trans heq
  · exact fun t i ht hpresent => h'.present t i (hkernel t 2 ht) (h.present t i ht hpresent)

/-- A new table below the first level of the kernel, entered into the table above it. -/
theorem Roles.linkKernel (h : Roles m role) {level : Nat} (ht : role t = .kernel level)
    (hpos : level ≠ 0) (hf : role f = .plain) (hlow : f < 2 ^ 19)
    (hfree : ∀ p ∈ m.ring.contents, frameOf p ≠ f) :
    Roles ((m.clear f).write t i (pageWord f ||| 3))
    (Function.update role f (.kernel (level + 1))) := by
  have hne : t ≠ f := by
    rintro rfl
    rw [hf] at ht
    cases ht
  have hclaim : Roles (m.clear f) (Function.update role f (.kernel (level + 1))) :=
    h.claimZero hf hlow hfree (by simp) (by simp) (by simp)
  have hframe : frameOf (pageWord f ||| 3) = f := by
    rw [frameOf_or _ (by decide), frameOf_pageWord (by omega)]
  refine hclaim.write (h.low t (by rw [ht]; exact Role.noConfusion)) ?_
  rw [Function.update_of_ne hne, ht]
  refine ⟨fun h => absurd h hpos, fun h => absurd h hpos, fun _ _ _ => ?_⟩
  rw [hframe, Function.update_self]
  exact ⟨hlow, rfl⟩

theorem write_clear_comm (m : Machine) (hne : t ≠ f) (i : Slot) (e : Word) :
    (m.write t i e).clear f = (m.clear f).write t i e := by
  have hmem : ((m.write t i e).clear f).mem = ((m.clear f).write t i e).mem := by
    funext t' j
    by_cases hf : t' = f
    · subst hf
      rw [clear_mem_self, write_mem_of_ne _ _ (Or.inl hne.symm), clear_mem_self]
    · rw [clear_mem_of_ne _ hf]
      by_cases hat : t' = t ∧ j = i
      · rcases hat with ⟨rfl, rfl⟩
        rw [write_mem_self, write_mem_self]
      · rw [write_mem_of_ne _ _ (by tauto), write_mem_of_ne _ _ (by tauto), clear_mem_of_ne _ hf]
  exact congrArg (fun mem => { m with mem }) hmem

/-- A request for `n` pages that has been served: the pages, from the frame `f` on, are plain and
off the list. -/
structure Handed (m : Machine) (role : Frame → Role) (m' : Machine) (role' : Frame → Role)
    (n : Nat) (f : Nat) : Prop where
  roles : Roles m' role'
  grown : Grown m role m' role'
  low : f < 2 ^ 19
  head : pageWord f ∈ m.ring.contents.take n
  plain : ∀ p ∈ m.ring.contents.take n, role' (frameOf p) = .plain
  taken : ∀ p ∈ m.ring.contents.take n, ∀ q ∈ m'.ring.contents, frameOf q ≠ frameOf p

section Handed

variable {n : Nat} (h : Handed m role m' role' n f)

include h

theorem Handed.frame_eq : frameOf (pageWord f) = f := by
  have := h.low
  exact frameOf_pageWord (by omega)

theorem Handed.plain_head : role' f = .plain := by
  have hplain := h.plain _ h.head
  rwa [h.frame_eq] at hplain

theorem Handed.notFree : ∀ q ∈ m'.ring.contents, frameOf q ≠ f := by
  have htaken := h.taken _ h.head
  rwa [h.frame_eq] at htaken

theorem Handed.wasFree : ∃ p ∈ m.ring.contents, frameOf p = f :=
  ⟨pageWord f, List.mem_of_mem_take h.head, h.frame_eq⟩

theorem Handed.wasPlain (hroles : Roles m role) : role f = .plain := by
  have hplain := hroles.free.plain _ (List.mem_of_mem_take h.head)
  rwa [h.frame_eq] at hplain

theorem Handed.pointerFrame : pointerFrame (pageWord f + KERNBASE) = some f := by
  rw [(lowPage_pageWord h.low).pointerFrame, h.frame_eq]

theorem Handed.linkTo (flags : Word) :
    linkTo (pageWord f + KERNBASE) flags = pageWord f ||| flags :=
  (lowPage_pageWord h.low).linkTo flags

/-- The page becomes a table of the kernel. -/
theorem Handed.linkKernel {level : Nat} (ht : role' t = .kernel level) (hpos : level ≠ 0) (i : Slot)
    (hnew : level = 2 ∨ ¬ Present (m'.mem t i)) :
    Roles ((m'.clear f).write t i (pageWord f ||| 3))
    (Function.update role' f (.kernel (level + 1))) ∧
      Grown m role ((m'.clear f).write t i (pageWord f ||| 3))
        (Function.update role' f (.kernel (level + 1))) := by
  have hplain := h.plain_head
  have hne : ∀ {t'}, role' t' ≠ .plain → t' ≠ f := by
    rintro t' ht' rfl
    exact ht' hplain
  have hgrown := h.grown
  have hkernel : ∀ t' level', role t' = .kernel level' → role' t' = .kernel level' :=
    fun t' level' ht' => (hgrown.keep t' (by rw [ht']; exact Role.noConfusion)).trans ht'
  refine ⟨h.roles.linkKernel ht hpos hplain h.low h.notFree, ?_, ?_, ?_, ?_, ?_, hgrown.ring,
    hgrown.slots, hgrown.pml4t, hgrown.current⟩
  · intro t' ht'
    have hsame := hgrown.keep t' ht'
    exact (Function.update_of_ne (hne (hsame ▸ ht')) _ _).trans hsame
  · intro t' ht'
    by_cases heq : t' = f
    · subst heq
      exact ⟨⟨level + 1, Function.update_self _ _ _⟩, h.wasFree⟩
    · rw [Function.update_of_ne heq] at ht' ⊢
      exact hgrown.grows t' ht'
  · intro t' ht'
    have h₁ : t' ≠ f := by
      rintro rfl
      exact ht' (level + 1) (Function.update_self _ _ _)
    rw [Function.update_of_ne h₁] at ht'
    have h₂ : t' ≠ t := by
      rintro rfl
      exact ht' level ht
    funext j
    rw [write_mem_of_ne _ _ (Or.inl h₂), clear_mem_of_ne _ h₁, hgrown.mem t' ht']
  -- in a table whose entries are kept, the entry that is written was not present
  · intro t' level' j ht' hlevel' hpresent
    have hrole := hkernel t' level' ht'
    have h₁ : t' ≠ f := hne (by rw [hrole]; exact Role.noConfusion)
    have heq := hgrown.kept t' level' j ht' hlevel' hpresent
    have hother : t' ≠ t ∨ j ≠ i := by
      by_cases hat : t' = t ∧ j = i
      · rcases hat with ⟨rfl, rfl⟩
        rw [ht] at hrole
        cases hrole
        rcases hnew with rfl | hnew
        · exact absurd hlevel' (lt_irrefl 2)
        · exact absurd (heq ▸ hpresent) hnew
      · tauto
    rw [write_mem_of_ne _ _ hother, clear_mem_of_ne _ h₁, heq]
  · intro t' j ht' hpresent
    have h₁ : t' ≠ f := hne (by rw [hkernel t' 2 ht']; exact Role.noConfusion)
    by_cases hat : t' = t ∧ j = i
    · rcases hat with ⟨rfl, rfl⟩
      rw [write_mem_self]
      exact has_of_or_left (by decide) _
    · rw [write_mem_of_ne _ _ (by tauto), clear_mem_of_ne _ h₁]
      exact hgrown.present t' j ht' hpresent

end Handed

/-- The list half of a request that fits. -/
theorem Roles.handed (h : Roles m role) {ret : Word} {n : Nat} (who : Owner)
    (hhead : m.ring.slots.head? = some ret) (hpos : 0 < n) (hfit : n ≤ m.ring.free) :
    ∃ f, ret = pageWord f ∧ Handed m role (m.takePages who n) role n f := by
  have hmem := head_mem_take hhead hpos hfit
  have hlow := h.free.low ret (List.mem_of_mem_take hmem)
  have hret := hlow.eq_pageWord
  refine ⟨frameOf ret, hret, h.takePages hfit, ?_, hlow.frame_lt, hret ▸ hmem, ?_, ?_⟩
  · exact ⟨fun _ _ => rfl, fun _ hne => absurd rfl hne, fun _ _ => rfl, fun _ _ _ _ _ _ => rfl,
      fun _ _ _ hp => hp, take_contents_suffix m.ring hfit, List.length_rotate _ _, rfl, rfl⟩
  · exact fun p hp => h.free.plain p (List.mem_of_mem_take hp)
  · exact fun p hp q hq => h.taken_notMem hfit hp hq

theorem bumpFrom_spec (h : Roles m role) {base v size : Word} {who : Owner}
    (hpos : 0 < Allocator.numOfPages size) (hbump : m.bumpFrom base who size = some (v, m')) :
    (v = 0 ∧ m' = m) ∨
    ∃ f, v = pageWord f + base ∧ m' = m.takePages who (Allocator.numOfPages size) ∧
      Handed m role m' role (Allocator.numOfPages size) f := by
  rcases bumpFrom_cases hbump with ⟨-, rfl, rfl⟩ | ⟨hfit, ret, hhead, rfl, rfl⟩
  · exact Or.inl ⟨rfl, rfl⟩
  · rcases h.handed who hhead hpos hfit with ⟨f, rfl, hhanded⟩
    exact Or.inr ⟨f, rfl, rfl, hhanded⟩

/-- What is asked of the `alloc` of a mapping routine. -/
def AllocSpec (alloc : Machine → Option (Word × Machine)) : Prop :=
  ∀ {m role v m'}, Roles m role → alloc m = some (v, m') →
    (v = 0 ∧ m' = m) ∨ ∃ role' f, v = pageWord f + KERNBASE ∧ Handed m role m' role' 1 f

theorem numOfPages_table : Allocator.numOfPages 4096 = 1 := by decide

theorem pointerFrame_null : pointerFrame 0 = none := by decide

/-- One level down in the tables of the kernel. -/
theorem descend_kernel (h : Roles m role) {level : Nat} {next : Frame} (ht : role t = .kernel level)
    (hlevel : level < 3) (hslot : level = 0 → i = 511)
    (hdescend : descend (fun m => bumpInitial m 4096) 3 t i m = some (next, m')) :
    ∃ role', Roles m' role' ∧ Grown m role m' role' ∧ role' next = .kernel (level + 1) ∧
      m'.child t i = some next := by
  rcases descend_cases hdescend with ⟨hpresent, hnext, rfl⟩ | ⟨habsent, v, m₁, halloc, hnext, rfl⟩
  · rcases h.kernelChild ht hlevel hslot hpresent with ⟨hlow, hrole⟩
    rw [tableAt_of_low hlow] at hnext
    cases hnext
    exact ⟨role, h, Grown.refl m' role, hrole, child_eq_some.2 ⟨hpresent, rfl⟩⟩
  · have hpos : level ≠ 0 := by
      -- the entry in slot 511 is there
      rintro rfl
      have hok := h.entries t i
      rw [ht, hslot rfl] at hok
      rw [hslot rfl, hok.2.1 rfl rfl] at habsent
      exact habsent h.present
    rcases bumpFrom_spec h (by decide) halloc with ⟨rfl, -⟩ | ⟨f, rfl, rfl, hhanded⟩
    · rw [pointerFrame_null] at hnext
      cases hnext
    · rw [hhanded.pointerFrame] at hnext
      rcases Option.some_inj.1 hnext with rfl
      have hne : t ≠ f := by
        rintro rfl
        rw [hhanded.plain_head] at ht
        cases ht
      rcases hhanded.linkKernel ht hpos i (Or.inr habsent) with ⟨hroles, hgrown⟩
      rw [hhanded.linkTo, write_clear_comm _ hne]
      refine ⟨_, hroles, hgrown, Function.update_self _ _ _, child_eq_some.2 ?_⟩
      rw [write_mem_self]
      refine ⟨has_of_or_left (by decide) _, ?_⟩
      rw [frameOf_or _ (by decide), hhanded.frame_eq]

/-- A write into a page table of the kernel. -/
theorem Roles.writeKernelPage (h : Roles m role) (ht : role t = .kernel 3) :
    Roles (m.write t i e) role ∧ Grown m role (m.write t i e) role := by
  constructor
  · refine h.write (h.low t (by rw [ht]; exact Role.noConfusion)) ?_
    rw [ht]
    exact ⟨fun h => absurd h (by decide), fun h => absurd h (by decide),
      fun h => absurd h (lt_irrefl 3)⟩
  · have hother : ∀ t', role t' ≠ .kernel 3 → (m.write t i e).mem t' = m.mem t' := by
      intro t' ht'
      funext j
      refine write_mem_of_ne m e (Or.inl ?_)
      rintro rfl
      exact ht' ht
    refine ⟨fun _ _ => rfl, fun _ hne => absurd rfl hne, fun t' ht' => hother t' (ht' 3), ?_, ?_,
      List.suffix_refl _, rfl, rfl, rfl⟩
    · intro t' level j ht' hlevel hpresent
      refine congrFun (hother t' ?_) j
      rw [ht']
      rintro ⟨⟩
      exact absurd hlevel (by decide)
    · intro t' j ht' hpresent
      rw [hother t' (by rw [ht']; simp)]
      exact hpresent

/-- Where the loop of `map_address` stands. -/
structure KernelCursor (c : Cursor) (role : Frame → Role) : Prop where
  pdpti : c.pdpti ≠ 512
  pdti : c.pdti ≠ 512
  pdt : role c.pdt = .kernel 2
  pt : role c.pt = .kernel 3

theorem KernelCursor.congr {c c' : Cursor} (h : KernelCursor c role) (hpdpti : c'.pdpti = c.pdpti)
    (hpdti : c'.pdti = c.pdti) (hpdt : c'.pdt = c.pdt) (hpt : c'.pt = c.pt) :
    KernelCursor c' role :=
  ⟨hpdpti ▸ h.pdpti, hpdti ▸ h.pdti, hpdt ▸ h.pdt, hpt ▸ h.pt⟩

theorem enterPage_kernel {c c' : Cursor} {flags : MapFlags} (h : Roles m role)
    (hc : KernelCursor c role) (henter : enterPage flags (c, m) = some (c', m')) :
    Roles m' role ∧ Grown m role m' role ∧ KernelCursor c' role := by
  rcases enterPage_cases henter with ⟨hi, ⟨-, rfl, rfl⟩ | ⟨-, rfl, rfl⟩⟩
  · exact ⟨h, Grown.refl m' role, hc.congr rfl rfl rfl rfl⟩
  · rcases h.writeKernelPage hc.pt with ⟨hroles, hgrown⟩
    exact ⟨hroles, hgrown, hc.congr rfl rfl rfl rfl⟩

/-- One turn of the loop of `map_address`. -/
theorem mapStep_kernel {alloc : Machine → Option (Word × Machine)} (halloc : AllocSpec alloc)
    {c c' : Cursor} {root : Frame} (h : Roles m role) (hc : KernelCursor c role)
    (hstep : mapStep alloc root ⟨3, 3, 3⟩ (c, m) = some (c', m')) :
    ∃ role', (Roles m' role' ∧ KernelCursor c' role') ∧ Grown m role m' role' := by
  rcases mapStep_cases hc.pdpti hc.pdti hstep with
    ⟨-, henter⟩ | ⟨-, v, next, m₁, hi, hbump, hnext, henter⟩
  · rcases enterPage_kernel h hc henter with ⟨hroles, hgrown, hc'⟩
    exact ⟨role, ⟨hroles, hc'⟩, hgrown⟩
  · rcases halloc h hbump with ⟨rfl, -⟩ | ⟨role₁, f, rfl, hhanded⟩
    · rw [pointerFrame_null] at hnext
      cases hnext
    · rw [hhanded.pointerFrame] at hnext
      rcases Option.some_inj.1 hnext with rfl
      have hpdt : role₁ c.pdt = .kernel 2 :=
        (hhanded.grown.keep _ (by rw [hc.pdt]; exact Role.noConfusion)).trans hc.pdt
      have hne : c.pdt ≠ f := by
        intro heq
        rw [heq, hhanded.plain_head] at hpdt
        cases hpdt
      rcases hhanded.linkKernel hpdt (by decide) ⟨c.pdti + 1, hi⟩ (Or.inl rfl) with ⟨hroles, hgrown⟩
      rw [hhanded.linkTo] at henter
      have hc₁ : KernelCursor { c with pti := 0, pdti := c.pdti + 1, pt := f }
          (Function.update role₁ f (.kernel 3)) :=
        ⟨hc.pdpti, hi.ne, (Function.update_of_ne hne _ _).trans hpdt, Function.update_self _ _ _⟩
      rcases enterPage_kernel hroles hc₁ henter with ⟨hroles', hgrown', hc'⟩
      exact ⟨_, ⟨hroles', hc'⟩, hgrown.trans hgrown'⟩

/-- The tables of the kernel above the page `f` are there. -/
structure KernelPath (m : Machine) (role : Frame → Role) (f : Nat) (pdpt pdt pt : Frame) :
    Prop where
  toPdpt : m.child m.pml4t 511 = some pdpt
  toPdt : m.child pdpt (pdptIndex (pageWord f + KERNBASE)) = some pdt
  toPt : m.child pdt (pdtIndex (pageWord f + KERNBASE)) = some pt
  roles : role pdpt = .kernel 1 ∧ role pdt = .kernel 2 ∧ role pt = .kernel 3

/-- Tables above a page stay, though the page table may be replaced by another. -/
theorem KernelPath.grown {pdpt pdt pt : Frame} (h : Roles m role) (h' : Roles m' role')
    (hgrown : Grown m role m' role') (hpath : KernelPath m role f pdpt pdt pt) :
    ∃ pt', KernelPath m' role' f pdpt pdt pt' := by
  rcases hpath.roles with ⟨hr₁, hr₂, hr₃⟩
  have hkernel : ∀ {t level}, role t = .kernel level → role' t = .kernel level := fun ht =>
    (hgrown.keep _ (by rw [ht]; exact Role.noConfusion)).trans ht
  have hp₀ := (child_eq_some.1 hpath.toPdpt).1
  have hp₁ := (child_eq_some.1 hpath.toPdt).1
  have hp₂ := (child_eq_some.1 hpath.toPt).1
  have hlast := hgrown.present _ _ hr₂ hp₂
  refine ⟨_, ?_, ?_, child_eq_some.2 ⟨hlast, rfl⟩, hkernel hr₁, hkernel hr₂, ?_⟩
  · rw [hgrown.pml4t, child_congr (hgrown.kept _ 0 _ h.top (by decide) hp₀)]
    exact hpath.toPdpt
  · rw [child_congr (hgrown.kept _ 1 _ hr₁ (by decide) hp₁)]
    exact hpath.toPdt
  · exact (h'.kernelChild (hkernel hr₂) (by decide) (fun h => absurd h (by decide)) hlast).2

/-- `map_address` for a page of the kernel window. -/
theorem mapAddress_spec {alloc : Machine → Option (Word × Machine)} (halloc : AllocSpec alloc)
    (h : Roles m role) (hf : f < 2 ^ 19) {phys : Word}
    (hmap : mapAddress alloc (pageWord f + KERNBASE) phys m = some m') :
    ∃ role' pdpt pdt pt, Roles m' role' ∧ Grown m role m' role' ∧
      KernelPath m' role' f pdpt pdt pt := by
  have htop : pml4Index (pageWord f + KERNBASE) = 511 := by
    have hpath := pathOf_kernelWord hf
    rw [pathOf, List.cons.injEq] at hpath
    exact hpath.1
  rcases Option.bind_eq_some_iff.1 hmap with ⟨⟨pdpt, m₁⟩, hdown₁, hmap⟩
  rcases Option.bind_eq_some_iff.1 hmap with ⟨⟨pdt, m₂⟩, hdown₂, hmap⟩
  rcases Option.bind_eq_some_iff.1 hmap with ⟨⟨pt, m₃⟩, hdown₃, hmap⟩
  rcases Option.bind_eq_some_iff.1 hmap with ⟨abc, -, hmap⟩
  rcases Option.bind_eq_some_iff.1 hmap with ⟨⟨c', m'⟩, hloop, hret⟩
  cases hret
  rcases descend_kernel h h.top (by decide) (fun _ => htop) hdown₁ with
    ⟨role₁, h₁, hg₁, hr₁, hc₁⟩
  rcases descend_kernel h₁ hr₁ (by decide) (fun h => absurd h (by decide)) hdown₂ with
    ⟨role₂, h₂, hg₂, hr₂, hc₂⟩
  rcases descend_kernel h₂ hr₂ (by decide) (fun h => absurd h (by decide)) hdown₃ with
    ⟨role₃, h₃, hg₃, hr₃, hc₃⟩
  have hkernel : ∀ {t level role role' m m'}, Grown m role m' role' → role t = .kernel level →
      role' t = .kernel level := fun hg ht =>
    (hg.keep _ (by rw [ht]; exact Role.noConfusion)).trans ht
  have hpath : KernelPath m₃ role₃ f pdpt pdt pt := by
    rw [htop] at hc₁
    have hkept₁ := hg₂.trans hg₃
    refine ⟨?_, ?_, hc₃, hkernel hkept₁ hr₁, hkernel hg₃ hr₂, hr₃⟩
    · rw [hkept₁.pml4t, hg₁.pml4t]
      have htop₁ : role₁ m.pml4t = .kernel 0 := hkernel hg₁ h.top
      rw [child_congr (hkept₁.kept _ 0 _ htop₁ (by decide) (child_eq_some.1 hc₁).1)]
      exact hc₁
    · rw [child_congr (hg₃.kept _ 1 _ (hkernel hg₂ hr₁) (by decide) (child_eq_some.1 hc₂).1)]
      exact hc₂
  -- the loop
  let c := cursorAt (pageWord f + KERNBASE) phys pdpt pdt pt
  have hc : KernelCursor c role₃ := by
    refine ⟨?_, ?_, hkernel hg₃ hr₂, hr₃⟩
    · exact (pdptIndex (pageWord f + KERNBASE)).isLt.ne
    · exact (pdtIndex (pageWord f + KERNBASE)).isLt.ne
  have hrun : ∃ role', (Roles m' role' ∧ KernelCursor c' role') ∧ Grown m₃ role₃ m' role' :=
    Loop.times_rule (I := fun s role => Roles s.2 role ∧ KernelCursor s.1 role)
      (R := fun s role s' role' => Grown s.2 role s'.2 role') (fun s role => Grown.refl s.2 role)
      Grown.trans (fun hI hturn => mapStep_kernel halloc hI.1 hI.2 hturn) hloop
      ⟨h₃, hc⟩
  rcases hrun with ⟨role', ⟨h', -⟩, hg'⟩
  rcases hpath.grown h₃ h' hg' with ⟨pt', hpath'⟩
  exact ⟨role', pdpt, pdt, pt', h', ((hg₁.trans hg₂).trans hg₃).trans hg', hpath'⟩

/-- `bump` for at least one page: only tables of the kernel change, and the tables above the first
page are there afterwards. -/
theorem bumpFuel_spec {fuel : Nat} {size v : Word} (h : Roles m role)
    (hpos : 0 < Allocator.numOfPages size) (hbump : bumpFuel fuel size m = some (v, m')) :
    (v = 0 ∧ m' = m) ∨
    ∃ role' f pdpt pdt pt, v = pageWord f + KERNBASE ∧
      Handed m role m' role' (Allocator.numOfPages size) f ∧ KernelPath m' role' f pdpt pdt pt := by
  induction fuel generalizing m role m' size v with
  | zero => cases hbump
  | succ fuel ih =>
      rcases bumpWith_cases hbump with ⟨-, rfl, rfl⟩ | ⟨hfit, ret, hhead, rfl, hmap⟩
      · exact Or.inl ⟨rfl, rfl⟩
      · have halloc : AllocSpec (bumpFuel fuel 4096) := by
          intro m role v m' h hbump
          rcases ih h (by decide) hbump with hfail | ⟨role', f, _, _, _, hv, hhanded, -⟩
          · exact Or.inl hfail
          · exact Or.inr ⟨role', f, hv, numOfPages_table ▸ hhanded⟩
        rcases h.handed .kernel hhead hpos hfit with ⟨f, rfl, hhanded⟩
        rcases mapAddress_spec halloc hhanded.roles hhanded.low hmap with
          ⟨role', pdpt, pdt, pt, h', hgrown, hpath⟩
        refine Or.inr ⟨role', f, pdpt, pdt, pt, rfl, ⟨h', hhanded.grown.trans hgrown, hhanded.low,
          hhanded.head, ?_, ?_⟩, hpath⟩
        · intro p hp
          by_contra hne
          have hplain := hhanded.plain p hp
          rcases hgrown.grows (frameOf p) (by rw [hplain]; exact hne) with ⟨-, q, hq, hframe⟩
          exact hhanded.taken p hp q hq hframe
        · exact fun p hp q hq => hhanded.taken p hp q (hgrown.ring.subset hq)

theorem bumpFuel_allocSpec (fuel : Nat) : AllocSpec (bumpFuel fuel 4096) := by
  intro m role v m' h hbump
  rcases bumpFuel_spec h (by decide) hbump with hfail | ⟨role', f, _, _, _, hv, hhanded, -⟩
  · exact Or.inl hfail
  · exact Or.inr ⟨role', f, hv, numOfPages_table ▸ hhanded⟩

theorem bump_allocSpec : AllocSpec (bump 4096) := by
  intro m role v m' h hbump
  exact bumpFuel_allocSpec _ h hbump

end Paging

end OswpKernel
