import OswpKernel.Paging.CopyOnWrite

/-!
# Duplicate — the tables `duplicate_page_table` makes

The source is any top table whose user entries in use are present at every level; tables may be
shared below it.  Its entries are only marked, so every walk leads where it led (`Marks`), while the
copy grows out of frames that were free (`Copied`).  Each of the four loops has one turn lemma, and
one lemma makes a loop of it (`TurnSpec.loop`).
-/

namespace OswpKernel

namespace Paging

open Machine

variable {m m' m₀ m₁ : Machine} {role role' role₁ : Frame → Role} {e v : Word}
  {t u f source new : Frame} {i j : Slot} {n : Nat} {path : List Slot} {S : Frame → Slot → Prop}
  {W W' F F' : Frame → Prop}

/-! ## Frames in use -/

/-- A frame the kernel's window shows, neither a table of the kernel nor free. -/
structure InUse (m : Machine) (role : Frame → Role) (t : Frame) : Prop where
  low : t < 2 ^ 19
  notKernel : ∀ level, role t ≠ .kernel level
  notFree : ∀ p ∈ m.ring.contents, frameOf p ≠ t

theorem InUse.write (h : InUse m role u) (t : Frame) (i : Slot) (e : Word) :
    InUse (m.write t i e) role u :=
  ⟨h.low, h.notKernel, h.notFree⟩

theorem InUse.frameOf_pageWord (h : InUse m role t) : frameOf (pageWord t) = t :=
  Paging.frameOf_pageWord (h.low.trans (by decide))

/-- Only the tables of the kernel are told apart from the other frames. -/
structure KernelRoles (m : Machine) (role : Frame → Role) : Prop where
  roles : Roles m role
  only : ∀ t r path, role t ≠ .table r path

theorem KernelRoles.plain (h : KernelRoles m role) (ht : InUse m role t) : role t = .plain := by
  cases hrole : role t with
  | plain => rfl
  | kernel level => exact absurd hrole (ht.notKernel level)
  | table r path => exact absurd hrole (h.only t r path)

theorem KernelRoles.write (h : KernelRoles m role) (ht : InUse m role t) (i : Slot) (e : Word) :
    KernelRoles (m.write t i e) role := by
  refine ⟨h.roles.write ht.low ?_, h.only⟩
  rw [h.plain ht]
  trivial

/-- The tables of the processes are taken for data. -/
def kernelPart (role : Frame → Role) (t : Frame) : Role :=
  match role t with
  | .kernel level => .kernel level
  | _ => .plain

theorem kernelPart_eq_kernel {level : Nat} :
    kernelPart role t = .kernel level ↔ role t = .kernel level := by
  unfold kernelPart
  split
  case h_1 level' hrole => rw [hrole]
  case h_2 hother => exact ⟨fun h => Role.noConfusion h, fun h => absurd h (hother level)⟩

theorem kernelPart_ne_table (t r : Frame) (path : List Slot) :
    kernelPart role t ≠ .table r path := by
  unfold kernelPart
  split <;> exact Role.noConfusion

theorem inUse_kernelPart : InUse m (kernelPart role) t ↔ InUse m role t :=
  ⟨fun h => ⟨h.low, fun level hlevel => h.notKernel level (kernelPart_eq_kernel.2 hlevel),
      h.notFree⟩,
    fun h => ⟨h.low, fun level hlevel => h.notKernel level (kernelPart_eq_kernel.1 hlevel),
      h.notFree⟩⟩

theorem Roles.kernelRoles (h : Roles m role) : KernelRoles m (kernelPart role) := by
  have hplain : ∀ {t}, kernelPart role t ≠ .plain → role t ≠ .plain := by
    intro t ht hrole
    exact ht (by rw [kernelPart, hrole])
  refine ⟨⟨kernelPart_eq_kernel.2 h.top, h.present, fun t i => ?_, fun t ht => h.low t (hplain ht),
    fun t r ht => absurd ht (kernelPart_ne_table t r []),
    fun t r path ht => absurd ht (kernelPart_ne_table t r path), h.beyond, h.free.low, h.free.nodup,
    fun p hp => ?_⟩, kernelPart_ne_table⟩
  · cases hrole : kernelPart role t with
    | plain => trivial
    | table r path => exact absurd hrole (kernelPart_ne_table t r path)
    | kernel level =>
        have hok := h.entries t i
        rw [kernelPart_eq_kernel.1 hrole] at hok
        rcases hok with ⟨hlower, htop, hchild⟩
        refine ⟨hlower, htop, fun hlevel hslot hpresent => ?_⟩
        rcases hchild hlevel hslot hpresent with ⟨hlow, hrole'⟩
        exact ⟨hlow, kernelPart_eq_kernel.2 hrole'⟩
  · rw [kernelPart, h.free.plain p hp]

/-! ## Marks -/

theorem marked_marked (e : Word) : marked (marked e) = marked e := by
  have hkeeps : cowBit &&& 0xfffffffffffffffd#64 = cowBit := by decide
  rw [marked, marked, BitVec.and_or_distrib_right, BitVec.and_assoc, BitVec.and_self, hkeeps,
    BitVec.or_assoc, BitVec.or_self]

theorem present_marked : Present (marked e) ↔ Present e := by
  refine ⟨fun h => ?_, marked_present⟩
  rcases has_or.1 h with h | h
  · rwa [Has, BitVec.and_assoc,
      show 0xfffffffffffffffd#64 &&& presentBit = presentBit by decide] at h
  · exact absurd h (by decide)

/-- The entries in `S` are as they were, or marked where they are in use. -/
def Marks (S : Frame → Slot → Prop) (m m' : Machine) : Prop :=
  ∀ t i, S t i → m'.mem t i = m.mem t i ∨ m.mem t i ≠ 0 ∧ m'.mem t i = marked (m.mem t i)

theorem Marks.trans (h : Marks S m m₁) (h' : Marks S m₁ m') : Marks S m m' := by
  intro t i hS
  rcases h t i hS with h₁ | ⟨hused, h₁⟩ <;> rcases h' t i hS with h₂ | ⟨hused₂, h₂⟩
  · exact Or.inl (h₂.trans h₁)
  · rw [h₁] at hused₂ h₂
    exact Or.inr ⟨hused₂, h₂⟩
  · exact Or.inr ⟨hused, h₂.trans h₁⟩
  · rw [h₁, marked_marked] at h₂
    exact Or.inr ⟨hused, h₂⟩

theorem Marks.eq_zero (h : Marks S m m') (hS : S t i) : m'.mem t i = 0 ↔ m.mem t i = 0 := by
  rcases h t i hS with h₁ | ⟨hused, h₁⟩
  · rw [h₁]
  · rw [h₁]
    exact ⟨fun hzero => absurd hzero (marked_ne_zero _), fun hzero => absurd hzero hused⟩

theorem Marks.marked (h : Marks S m m') (hS : S t i) :
    Paging.marked (m'.mem t i) = Paging.marked (m.mem t i) := by
  rcases h t i hS with h₁ | ⟨-, h₁⟩
  · rw [h₁]
  · rw [h₁, marked_marked]

/-- An entry that is marked stays so. -/
theorem Marks.stays (h : Marks S m m') (hS : S t i) (he : m.mem t i = Paging.marked e) :
    m'.mem t i = Paging.marked e := by
  rcases h t i hS with h₁ | ⟨-, h₁⟩
  · rw [h₁, he]
  · rw [h₁, he, marked_marked]

theorem Marks.child (h : Marks S m m') (hS : S t i) : m'.child t i = m.child t i := by
  rcases h t i hS with h₁ | ⟨-, h₁⟩
  · exact child_congr h₁
  · by_cases hpresent : Present (m.mem t i)
    · rw [Machine.child, Machine.child, h₁, if_pos hpresent, if_pos (marked_present hpresent),
        frameOf_marked]
    · rw [Machine.child, Machine.child, h₁, if_neg hpresent,
        if_neg fun hmarked => hpresent (present_marked.1 hmarked)]

/-! ## What a part of the call does to memory -/

/-- The entries in `S` are marked, the frames in `W` are written, and what else is in use
is kept. -/
structure Duplicating (S : Frame → Slot → Prop) (W : Frame → Prop) (m : Machine)
    (role : Frame → Role) (m' : Machine) (role' : Frame → Role) : Prop where
  kernel : KernelRoles m' role'
  inUse : ∀ t, InUse m role t → InUse m' role' t
  marks : Marks S m m'
  other : ∀ t i, InUse m role t → ¬ S t i → ¬ W t → m'.mem t i = m.mem t i

theorem Duplicating.refl (h : KernelRoles m role) : Duplicating S W m role m role :=
  ⟨h, fun _ ht => ht, fun _ _ _ => Or.inl rfl, fun _ _ _ _ _ => rfl⟩

/-- What the second part writes may be new. -/
theorem Duplicating.trans (h : Duplicating S W m role m₁ role₁)
    (h' : Duplicating S W' m₁ role₁ m' role') (hW : ∀ t, W' t → InUse m role t → W t) :
    Duplicating S W m role m' role' := by
  refine ⟨h'.kernel, fun t ht => h'.inUse t (h.inUse t ht), h.marks.trans h'.marks, ?_⟩
  intro t i ht hS hnot
  have h₂ := h'.other t i (h.inUse t ht) hS fun hW' => hnot (hW t hW' ht)
  exact h₂.trans (h.other t i ht hS hnot)

/-- An entry of the source is marked. -/
theorem Duplicating.mark (h : KernelRoles m role) (ht : InUse m role t) (hS : S t i)
    (hused : m.mem t i ≠ 0) :
    Duplicating S W m role (m.write t i (marked (m.mem t i))) role := by
  have hwrite : ∀ t' j, ¬ (t' = t ∧ j = i) →
      (m.write t i (marked (m.mem t i))).mem t' j = m.mem t' j :=
    fun t' j hne => write_mem_of_ne m _ (not_and_or.1 hne)
  refine ⟨h.write ht i _, fun _ ht' => ht'.write t i _, fun t' j _ => ?_,
    fun t' j _ hS' _ => ?_⟩
  · by_cases hat : t' = t ∧ j = i
    · rcases hat with ⟨rfl, rfl⟩
      exact Or.inr ⟨hused, write_mem_self m t' j _⟩
    · exact Or.inl (hwrite t' j hat)
  · refine hwrite t' j ?_
    rintro ⟨rfl, rfl⟩
    exact hS' hS

/-- An entry of the copy is written. -/
theorem Duplicating.enter (h : KernelRoles m role) (ht : InUse m role t) (hS : ∀ i, ¬ S t i)
    (hW : W t) (i : Slot) (e : Word) : Duplicating S W m role (m.write t i e) role := by
  have hwrite : ∀ t' j, t' ≠ t → (m.write t i e).mem t' j = m.mem t' j :=
    fun t' j hne => write_mem_of_ne m e (Or.inl hne)
  refine ⟨h.write ht i e, fun _ ht' => ht'.write t i e, fun t' j hS' => ?_, fun t' j _ _ hW' => ?_⟩
  · refine Or.inl (hwrite t' j ?_)
    rintro rfl
    exact hS j hS'
  · refine hwrite t' j ?_
    rintro rfl
    exact hW' hW

/-- A new table comes from the free pages. -/
theorem newTable_duplicating (h : KernelRoles m role) (hsources : ∀ t i, S t i → InUse m role t)
    (hnew : newTable m = some (v, f, m')) : v = pageWord f + KERNBASE ∧ ∃ role',
      Duplicating S W m role m' role' ∧ InUse m' role' f ∧ ¬ InUse m role f ∧
        ∀ i, m'.mem f i = 0 := by
  rcases newTable_spec h.roles hnew with ⟨hv, m₁, role₁, hhanded, rfl⟩
  -- a table in use is no free page, so the new table was not in use
  have hwas : ¬ InUse m role f := fun hf => by
    rcases hhanded.wasFree with ⟨p, hp, hframe⟩
    exact hf.notFree p hp hframe
  have hrole : ∀ t, InUse m role t → role₁ t = role t := by
    intro t ht
    by_contra hne
    rcases hhanded.grown.grows t hne with ⟨-, p, hp, hframe⟩
    exact ht.notFree p hp hframe
  have hmem : ∀ t, InUse m role t → (m₁.clear f).mem t = m.mem t := by
    intro t ht
    have hne : t ≠ f := by
      rintro rfl
      exact hwas ht
    rw [clear_mem_of_ne _ hne]
    exact hhanded.grown.mem t fun level => by rw [hrole t ht]; exact ht.notKernel level
  have hkernel : KernelRoles (m₁.clear f) role₁ := by
    refine ⟨hhanded.roles.setPage hhanded.plain_head hhanded.low _, fun t r path ht => ?_⟩
    by_cases hsame : role₁ t = role t
    · exact h.only t r path (hsame ▸ ht)
    · rcases hhanded.grown.grows t hsame with ⟨⟨level, hlevel⟩, -⟩
      rw [hlevel] at ht
      cases ht
  refine ⟨hv, role₁, ⟨hkernel, fun t ht => ?_, fun t i hS => Or.inl ?_, fun t i ht _ _ => ?_⟩, ?_,
    hwas, clear_mem_self m₁ f⟩
  · refine ⟨ht.low, fun level => ?_, fun p hp => ht.notFree p (hhanded.grown.ring.subset hp)⟩
    rw [hrole t ht]
    exact ht.notKernel level
  · exact congrFun (hmem t (hsources t i hS)) i
  · exact congrFun (hmem t ht) i
  · refine ⟨hhanded.low, fun level => ?_, hhanded.notFree⟩
    rw [hhanded.plain_head]
    exact Role.noConfusion

/-! ## Sources and copies -/

/-- A table with `n` levels of tables below it, all its entries in `S`; with `n = 0` a page. -/
def Sourced (S : Frame → Slot → Prop) (m₀ : Machine) : Nat → Frame → Prop
  | 0, _ => True
  | n + 1, t => ∀ i, S t i ∧
      (m₀.mem t i ≠ 0 → Present (m₀.mem t i) ∧ Sourced S m₀ n (frameOf (m₀.mem t i)))

/-- An entry of the copy: present, not writable, to be copied on a write. -/
structure Protected (e : Word) : Prop where
  present : Present e
  readOnly : ¬ Has e writeBit
  cow : Has e cowBit

/-- Entry `i` of the table `t`, as it was in `m₀`, has been copied to `u`; `below` relates what the
two entries lead to. -/
structure CopiedEntry (below : Frame → Frame → Prop) (m₀ m : Machine) (t u : Frame) (i : Slot) :
    Prop where
  empty : m₀.mem t i = 0 → m.mem u i = 0
  mark : m₀.mem t i ≠ 0 → m.mem t i = marked (m₀.mem t i)
  guard : m₀.mem t i ≠ 0 → Protected (m.mem u i)
  below : m₀.mem t i ≠ 0 → below (frameOf (m₀.mem t i)) (frameOf (m.mem u i))

/-- The table `t` has been copied to `u`, in frames of `F`; the pages are the same. -/
def Copied (m₀ m : Machine) (F : Frame → Prop) : Nat → Frame → Frame → Prop
  | 0, t, u => u = t
  | n + 1, t, u => F u ∧ ∀ i, CopiedEntry (Copied m₀ m F n) m₀ m t u i

/-- What is written later, outside the copy, leaves it a copy. -/
theorem Copied.keep (hmarks : Marks S m m') (hF : ∀ u, F u → F' u ∧ m'.mem u = m.mem u)
    (ht : Sourced S m₀ n t) (h : Copied m₀ m F n t u) : Copied m₀ m' F' n t u := by
  induction n generalizing t u with
  | zero => exact h
  | succ n ih =>
      rcases h with ⟨hu, hentries⟩
      rcases hF u hu with ⟨hu', hmem⟩
      refine ⟨hu', fun i => ?_⟩
      have hi := hentries i
      refine ⟨fun hzero => ?_, fun hused => hmarks.stays (ht i).1 (hi.mark hused), fun hused => ?_,
        fun hused => ?_⟩
      · rw [hmem]
        exact hi.empty hzero
      · rw [hmem]
        exact hi.guard hused
      · rw [hmem]
        exact ih ((ht i).2 hused).2 (hi.below hused)

theorem CopiedEntry.keep (hmarks : Marks S m m') (hF : ∀ u, F u → F' u ∧ m'.mem u = m.mem u)
    (hS : S t i) (ht : m₀.mem t i ≠ 0 → Sourced S m₀ n (frameOf (m₀.mem t i)))
    (hu : m'.mem u i = m.mem u i) (h : CopiedEntry (Copied m₀ m F n) m₀ m t u i) :
    CopiedEntry (Copied m₀ m' F' n) m₀ m' t u i := by
  refine ⟨fun hzero => hu.trans (h.empty hzero), fun hused => hmarks.stays hS (h.mark hused),
    fun hused => ?_, fun hused => ?_⟩
  · rw [hu]
    exact h.guard hused
  · rw [hu]
    exact (h.below hused).keep hmarks hF (ht hused)

/-- Where the call stands: the entries of the source, in tables in use, are as in `m₀` or marked. -/
structure Stage (S : Frame → Slot → Prop) (m₀ m : Machine) (role : Frame → Role) : Prop where
  kernel : KernelRoles m role
  sources : ∀ t i, S t i → InUse m role t
  marks : Marks S m₀ m

theorem Stage.next (h : Stage S m₀ m role) (hd : Duplicating S W m role m' role') :
    Stage S m₀ m' role' :=
  ⟨hd.kernel, fun t i hS => hd.inUse t (h.sources t i hS), h.marks.trans hd.marks⟩

/-- The frames that have been taken into use between two states. -/
def Taken (m : Machine) (role : Frame → Role) (m' : Machine) (role' : Frame → Role) (u : Frame) :
    Prop :=
  InUse m' role' u ∧ ¬ InUse m role u

/-! ## The loops -/

/-- What is asked of one turn of a loop, for an entry with `n` levels below it. -/
def TurnSpec (S : Frame → Slot → Prop) (m₀ : Machine) (n : Nat)
    (body : Frame → Frame → Slot → Machine → Option Machine) : Prop :=
  ∀ {m role source new i m'}, Stage S m₀ m role → S source i →
    (m₀.mem source i ≠ 0 → Present (m₀.mem source i) ∧ Sourced S m₀ n (frameOf (m₀.mem source i))) →
    InUse m role new → (∀ i, ¬ S new i) → m.mem new i = 0 → body source new i m = some m' →
    ∃ role', Duplicating S (· = new) m role m' role' ∧
      CopiedEntry (Copied m₀ m' (Taken m role m' role') n) m₀ m' source new i ∧
      ∀ j, j ≠ i → m'.mem new j = m.mem new j

/-- What is asked of the copying of a table with `n` levels below its entries. -/
def TableSpec (S : Frame → Slot → Prop) (m₀ : Machine) (n : Nat)
    (duplicate : Frame → Frame → Machine → Option Machine) : Prop :=
  ∀ {m role source new m'}, Stage S m₀ m role → Sourced S m₀ (n + 1) source → InUse m role new →
    (∀ i, ¬ S new i) → (∀ i, m.mem new i = 0) → duplicate source new m = some m' →
    ∃ role', Duplicating S (· = new) m role m' role' ∧
      ∀ i, CopiedEntry (Copied m₀ m' (Taken m role m' role') n) m₀ m' source new i

/-- An entry of an earlier turn: its copy lies in frames taken since the loop began, and later turns
write none of them. -/
theorem CopiedEntry.later {m₂ : Machine} {role₂ : Frame → Role} (h : Stage S m₀ m role)
    (hnew : InUse m role new) (hd : Duplicating S (· = new) m₁ role₁ m₂ role₂)
    (hS : S source i) (hsource : m₀.mem source i ≠ 0 → Sourced S m₀ n (frameOf (m₀.mem source i)))
    (hsame : m₂.mem new i = m₁.mem new i)
    (he : CopiedEntry (Copied m₀ m₁ (Taken m role m₁ role₁) n) m₀ m₁ source new i) :
    CopiedEntry (Copied m₀ m₂ (Taken m role m₂ role₂) n) m₀ m₂ source new i := by
  refine he.keep hd.marks (fun u hu => ⟨⟨hd.inUse u hu.1, hu.2⟩, ?_⟩) hS hsource hsame
  funext k
  refine hd.other u k hu.1 (fun hk => hu.2 (h.sources u k hk)) ?_
  rintro rfl
  exact hu.2 hnew

/-- The entry of the turn that has just been made. -/
theorem CopiedEntry.earlier {m₂ : Machine} {role₂ : Frame → Role}
    (hd : Duplicating S W m role m₁ role₁)
    (hS : S source i) (hsource : m₀.mem source i ≠ 0 → Sourced S m₀ n (frameOf (m₀.mem source i)))
    (he : CopiedEntry (Copied m₀ m₂ (Taken m₁ role₁ m₂ role₂) n) m₀ m₂ source new i) :
    CopiedEntry (Copied m₀ m₂ (Taken m role m₂ role₂) n) m₀ m₂ source new i := by
  refine he.keep (S := S) (fun _ _ _ => Or.inl rfl) (fun u hu => ?_) hS hsource rfl
  exact ⟨⟨hu.1, fun hm => hu.2 (hd.inUse u hm)⟩, rfl⟩

theorem TurnSpec.loop {body : Frame → Frame → Slot → Machine → Option Machine}
    (hbody : TurnSpec S m₀ n body) :
    TableSpec S m₀ n fun source new => Loop.forEach (body source new) slots := by
  intro m role source new m' h hsource hnew hS hzero hrun
  -- the entries that are done have been copied, the others of the new table are still zero
  rcases Loop.forEach_progress (I := fun done m₁ role₁ => Duplicating S (· = new) m role m₁ role₁ ∧
      ∀ i, (i ∈ done →
          CopiedEntry (Copied m₀ m₁ (Taken m role m₁ role₁) n) m₀ m₁ source new i) ∧
        (i ∉ done → m₁.mem new i = 0))
    (fun {done i rest m₁ role₁ m₂} hslots hI hturn => by
      rcases hI with ⟨hd, hdone⟩
      have hi : i ∉ done := by
        have hnodup : (done ++ i :: rest).Nodup := hslots ▸ List.nodup_finRange 512
        exact fun hmem => (List.nodup_append.1 hnodup).2.2 i hmem i List.mem_cons_self rfl
      rcases hbody (h.next hd) (hsource i).1 (hsource i).2 (hd.inUse new hnew) hS ((hdone i).2 hi)
        hturn with ⟨role₂, hd₂, hentry, hothers⟩
      refine ⟨role₂, hd.trans hd₂ fun _ hW _ => hW, fun j => ⟨fun hj => ?_, fun hj => ?_⟩⟩
      · rcases List.mem_append.1 hj with hj | hj
        · have hne : j ≠ i := fun heq => hi (heq ▸ hj)
          exact ((hdone j).1 hj).later h hnew hd₂ (hsource j).1 (fun hu => ((hsource j).2 hu).2)
            (hothers j hne)
        · rcases List.mem_singleton.1 hj with rfl
          exact hentry.earlier hd (hsource j).1 fun hu => ((hsource j).2 hu).2
      · rw [List.mem_append, not_or, List.mem_singleton] at hj
        exact (hothers j hj.2).trans ((hdone j).2 hj.1))
    hrun ⟨Duplicating.refl h.kernel, fun i =>
      ⟨fun hi => absurd hi (by simp), fun _ => hzero i⟩⟩ with
    ⟨role', hd, hdone⟩
  exact ⟨role', hd, fun i => (hdone i).1 (List.mem_finRange i)⟩

/-- An entry of a page table. -/
theorem duplicatePage_turn : TurnSpec S m₀ 0 duplicatePage := by
  intro m role source new i m' h hS hentry hnew hnot hzero hrun
  rw [duplicatePage] at hrun
  have hne : source ≠ new := by
    rintro rfl
    exact hnot i hS
  split_ifs at hrun with hused
  · cases hrun
    have hused₀ : m₀.mem source i ≠ 0 := fun h₀ => hused ((h.marks.eq_zero hS).2 h₀)
    have hmark : Duplicating S (· = new) m role (m.write source i (marked (m.mem source i))) role :=
      Duplicating.mark h.kernel (h.sources _ _ hS) hS hused
    have henter := Duplicating.enter (W := (· = new)) hmark.kernel (hmark.inUse new hnew) hnot rfl i
      (marked (m.mem source i) ||| 0x205)
    rw [h.marks.marked hS] at hmark henter ⊢
    refine ⟨role, hmark.trans henter fun _ hW _ => hW, ⟨fun h₀ => absurd h₀ hused₀, fun _ => ?_,
      fun _ => ?_, fun _ => ?_⟩, fun j hj => ?_⟩
    · rw [write_mem_of_ne _ _ (Or.inl hne), write_mem_self]
    · rw [write_mem_self]
      refine ⟨has_of_or_left (by decide) _, ?_, has_of_or_left (by decide) _⟩
      rw [has_or, not_or]
      exact ⟨marked_not_writable _, by decide⟩
    · rw [write_mem_self]
      exact (frameOf_or _ (by decide)).trans (frameOf_marked _)
    · rw [write_mem_of_ne _ _ (Or.inr hj), write_mem_of_ne _ _ (Or.inl hne.symm)]
  · cases hrun
    have hused₀ : m₀.mem source i = 0 := (h.marks.eq_zero hS).1 (not_not.1 hused)
    exact ⟨role, Duplicating.refl h.kernel, ⟨fun _ => hzero, fun h₀ => absurd hused₀ h₀,
      fun h₀ => absurd hused₀ h₀, fun h₀ => absurd hused₀ h₀⟩, fun _ _ => rfl⟩

theorem duplicatePt_table : TableSpec S m₀ 0 duplicatePt := duplicatePage_turn.loop

/-- An entry of a table whose children are copied as well. -/
theorem TableSpec.turn {duplicate : Frame → Frame → Machine → Option Machine}
    (hrec : TableSpec S m₀ n duplicate) : TurnSpec S m₀ (n + 1) (duplicateEntry duplicate) := by
  intro m role source new i m' h hS hentry hnew hnot hzero hrun
  rw [duplicateEntry] at hrun
  have hne : source ≠ new := by
    rintro rfl
    exact hnot i hS
  split_ifs at hrun with hused
  · have hused₀ : m₀.mem source i ≠ 0 := fun h₀ => hused ((h.marks.eq_zero hS).2 h₀)
    rcases hentry hused₀ with ⟨-, hchild⟩
    rcases Option.bind_eq_some_iff.1 hrun with ⟨child, htable, hrun⟩
    rcases Option.bind_eq_some_iff.1 hrun with ⟨⟨v, newChild, m₂⟩, hfresh, hrun⟩
    -- the mark, the new table, its entry
    have hmark : Duplicating S (· = new) m role (m.write source i (marked (m.mem source i))) role :=
      Duplicating.mark h.kernel (h.sources _ _ hS) hS hused
    have h₁ := h.next hmark
    rcases newTable_duplicating (W := fun _ => False) h₁.kernel h₁.sources hfresh with
      ⟨rfl, role₂, hgrow, hin, hwas, hclear⟩
    have h₂ := h₁.next hgrow
    have hnewChild : newChild ≠ new := by
      rintro rfl
      exact hwas (hmark.inUse newChild hnew)
    have hin' : InUse m₂ role₂ new := hgrow.inUse new (hmark.inUse new hnew)
    have henter := Duplicating.enter (W := (· = new)) h₂.kernel hin' hnot rfl i
      (copyLink (pageWord newChild + KERNBASE))
    have h₃ := h₂.next henter
    have hlink : copyLink (pageWord newChild + KERNBASE) = pageWord newChild ||| 0x205 := by
      rw [copyLink, BitVec.add_sub_cancel, (lowPage_pageWord hin.low).aligned]
    have hd₃ := (hmark.trans hgrow fun _ hW _ => hW.elim).trans henter fun _ hW _ => hW
    -- the child is copied into the new table
    have hlow : frameOf (m₀.mem source i) < 2 ^ 19 := (h.sources _ _ (hchild 0).1).low
    rw [h.marks.marked hS, tableAt_of_low (by rwa [frameOf_marked]), frameOf_marked] at htable
    rcases Option.some_inj.1 htable with rfl
    have hnotChild : ∀ j, ¬ S newChild j := fun j hj => hwas (h₁.sources _ _ hj)
    have hclear' : ∀ j,
        (m₂.write new i (copyLink (pageWord newChild + KERNBASE))).mem newChild j = 0 :=
      fun j => (write_mem_of_ne m₂ _ (Or.inl hnewChild)).trans (hclear j)
    rcases hrec h₃ hchild (henter.inUse _ hin) hnotChild hclear' hrun with ⟨role', hd₄, hcopied⟩
    have hfresh' : ∀ u, InUse m role u → u ≠ newChild := by
      rintro u hu rfl
      exact hwas (hmark.inUse u hu)
    have hnew' : m'.mem new i = pageWord newChild ||| 0x205 := by
      rw [hd₄.other new i (henter.inUse _ hin') (hnot i) hnewChild.symm, write_mem_self, hlink]
    refine ⟨role', hd₃.trans hd₄ fun u hW hu => absurd hW (hfresh' u hu),
      ⟨fun h₀ => absurd h₀ hused₀, fun _ => ?_, fun _ => ?_, fun _ => ?_⟩, fun j hj => ?_⟩
    · have hmarked : (m.write source i (marked (m.mem source i))).mem source i =
          marked (m₀.mem source i) := by
        rw [write_mem_self, h.marks.marked hS]
      exact ((hgrow.marks.trans henter.marks).trans hd₄.marks).stays hS hmarked
    · rw [hnew']
      refine ⟨has_of_or_left (by decide) _, ?_, has_of_or_left (by decide) _⟩
      rw [has_or, not_or]
      exact ⟨pageWord_not_has hin.low (by decide), by decide⟩
    · rw [hnew', frameOf_or _ (by decide), hin.frameOf_pageWord]
      refine ⟨⟨hd₄.inUse _ (henter.inUse _ hin), fun hu => hfresh' _ hu rfl⟩, fun j => ?_⟩
      exact (hcopied j).earlier hd₃ (hchild j).1 fun hu => ((hchild j).2 hu).2
    · rw [hd₄.other new j (henter.inUse _ hin') (hnot j) hnewChild.symm,
        write_mem_of_ne _ _ (Or.inr hj), hgrow.other new j (hmark.inUse new hnew) (hnot j) id,
        write_mem_of_ne _ _ (Or.inl hne.symm)]
  · cases hrun
    have hused₀ : m₀.mem source i = 0 := (h.marks.eq_zero hS).1 (not_not.1 hused)
    exact ⟨role, Duplicating.refl h.kernel, ⟨fun _ => hzero, fun h₀ => absurd hused₀ h₀,
      fun h₀ => absurd hused₀ h₀, fun h₀ => absurd hused₀ h₀⟩, fun _ _ => rfl⟩

theorem duplicatePdt_table : TableSpec S m₀ 1 duplicatePdt :=
  TurnSpec.loop duplicatePt_table.turn

theorem duplicatePdpt_table : TableSpec S m₀ 2 duplicatePdpt :=
  TurnSpec.loop duplicatePdt_table.turn

/-- The entries of the top table that belong to the process, as `Sourced` has them for
the others. -/
def SourcedTop (S : Frame → Slot → Prop) (m₀ : Machine) (source : Frame) : Prop :=
  ∀ i : Slot, (i : Nat) < 510 → S source i ∧
    (m₀.mem source i ≠ 0 → Present (m₀.mem source i) ∧ Sourced S m₀ 3 (frameOf (m₀.mem source i)))

/-- A turn of the outermost loop. -/
theorem duplicateTop_turn (h : Stage S m₀ m role) (hsource : SourcedTop S m₀ source)
    (hnew : InUse m role new) (hnot : ∀ i, ¬ S new i) (hzero : m.mem new i = 0)
    (hrun : duplicateTop source new i m = some m') :
    ∃ role', Duplicating S (· = new) m role m' role' ∧
      ((i : Nat) < 510 →
        CopiedEntry (Copied m₀ m' (Taken m role m' role') 3) m₀ m' source new i) ∧
      (i = 511 → m'.mem new 511 = m'.mem source 511) ∧ ∀ j, j ≠ i → m'.mem new j = m.mem new j := by
  have hne : source ≠ new := by
    rintro rfl
    exact hnot 0 (hsource 0 (by decide)).1
  by_cases hi : (i : Nat) < 510
  · have h510 : i ≠ 510 := by
      rintro rfl
      exact absurd hi (by decide)
    have h511 : i ≠ 511 := by
      rintro rfl
      exact absurd hi (by decide)
    -- below 510 the turn is that of a lower level
    have hentry : duplicateEntry duplicatePdpt source new i m = some m' := by
      rw [duplicateTop] at hrun
      split_ifs at hrun with hused
      · exact hrun
      · rw [duplicateEntry, if_neg hused]
        exact hrun
    rcases duplicatePdpt_table.turn h (hsource i hi).1 (hsource i hi).2 hnew hnot hzero hentry with
      ⟨role', hd, hcopied, hothers⟩
    exact ⟨role', hd, fun _ => hcopied, fun heq => absurd heq h511, hothers⟩
  · rw [duplicateTop] at hrun
    split_ifs at hrun with hused h510 h511
    · cases hrun
      exact ⟨role, Duplicating.refl h.kernel, fun hlt => absurd hlt hi,
        fun heq => absurd (h510.symm.trans heq) (by decide), fun _ _ => rfl⟩
    · cases hrun
      subst h511
      refine ⟨role, Duplicating.enter (W := (· = new)) h.kernel hnew hnot rfl 511
        (m.mem source 511),
        fun hlt => absurd hlt hi, fun _ => ?_, fun j hj => write_mem_of_ne m _ (Or.inr hj)⟩
      rw [write_mem_self, write_mem_of_ne _ _ (Or.inl hne)]
    · exact absurd (slot_lt h510 h511) hi
    · cases hrun
      refine ⟨role, Duplicating.refl h.kernel, fun hlt => absurd hlt hi, ?_, fun _ _ => rfl⟩
      rintro rfl
      rw [hzero, not_not.1 hused]

/-- The outermost loop; slot 511 comes last. -/
theorem duplicateTop_loop (h : Stage S m₀ m role) (hsource : SourcedTop S m₀ source)
    (hnew : InUse m role new) (hnot : ∀ i, ¬ S new i) (hzero : ∀ i, m.mem new i = 0)
    (hrun : Loop.forEach (duplicateTop source new) slots m = some m') :
    ∃ role', Duplicating S (· = new) m role m' role' ∧
      (∀ i : Slot, (i : Nat) < 510 →
        CopiedEntry (Copied m₀ m' (Taken m role m' role') 3) m₀ m' source new i) ∧
      m'.mem new 511 = m'.mem source 511 := by
  rcases Loop.forEach_progress (I := fun done m₁ role₁ => Duplicating S (· = new) m role m₁ role₁ ∧
      (511 ∈ done → m₁.mem new 511 = m₁.mem source 511) ∧
      ∀ i : Slot, (i ∈ done → (i : Nat) < 510 →
          CopiedEntry (Copied m₀ m₁ (Taken m role m₁ role₁) 3) m₀ m₁ source new i) ∧
        (i ∉ done → m₁.mem new i = 0))
    (fun {done i rest m₁ role₁ m₂} hslots hI hturn => by
      -- the slots come in ascending order, so slot 511 is in `done` only at the end
      rcases hI with ⟨hd, hlast, hdone⟩
      have hbefore : ∀ j ∈ done, j < i := by
        have hsorted : (done ++ i :: rest).Pairwise (· < ·) :=
          hslots ▸ List.pairwise_lt_finRange 512
        exact fun j hj => (List.pairwise_append.1 hsorted).2.2 j hj i List.mem_cons_self
      have hi : i ∉ done := fun hmem => lt_irrefl i (hbefore i hmem)
      rcases duplicateTop_turn (h.next hd) hsource (hd.inUse new hnew) hnot
        ((hdone i).2 hi) hturn with
        ⟨role₂, hd₂, hentry, hkernel, hothers⟩
      refine ⟨role₂, hd.trans hd₂ fun _ hW _ => hW, fun hmem => ?_,
        fun j => ⟨fun hj hlt => ?_, fun hj => ?_⟩⟩
      · rcases List.mem_append.1 hmem with hmem | hmem
        · have hover : 511 < (i : Nat) := hbefore 511 hmem
          have hlt := i.isLt
          omega
        · exact hkernel (List.mem_singleton.1 hmem).symm
      · rcases List.mem_append.1 hj with hj | hj
        · have hne : j ≠ i := fun heq => hi (heq ▸ hj)
          exact ((hdone j).1 hj hlt).later h hnew hd₂ (hsource j hlt).1
            (fun hu => ((hsource j hlt).2 hu).2) (hothers j hne)
        · rcases List.mem_singleton.1 hj with rfl
          exact (hentry hlt).earlier hd (hsource j hlt).1 fun hu => ((hsource j hlt).2 hu).2
      · rw [List.mem_append, not_or, List.mem_singleton] at hj
        exact (hothers j hj.2).trans ((hdone j).2 hj.1))
    hrun ⟨Duplicating.refl h.kernel, fun hmem => absurd hmem (by simp),
      fun i => ⟨fun hi => absurd hi (by simp), fun _ => hzero i⟩⟩ with ⟨role', hd, hlast, hdone⟩
  exact ⟨role', hd, fun i => (hdone i).1 (List.mem_finRange i), hlast (List.mem_finRange 511)⟩

/-! ## Walks through the copy -/

/-- What a path from `t` shows, in the source and in the copy `u`. -/
structure Alike (m₀ m : Machine) (t u : Frame) (is : List Slot) : Prop where
  copy : m.walk u is = m₀.walk t is
  guard : m₀.walk t is ≠ none → ∀ e ∈ m.entries u is, Protected e
  mark : m₀.walk t is ≠ none → ∀ e ∈ m.entries t is, Protected e

theorem protected_marked (h : Present e) : Protected (marked e) :=
  ⟨marked_present h, marked_not_writable e, has_of_or_left (by decide) _⟩

theorem entries_cons {next : Frame} {is : List Slot} (h : m.child t i = some next) :
    m.entries t (i :: is) = m.mem t i :: m.entries next is := by
  rw [Machine.entries, h]

theorem walk_empty {is : List Slot} (h : m.mem t i = 0) : m.walk t (i :: is) = none := by
  rw [walk, Machine.child, h, if_neg fun hpresent => hpresent.ne_zero rfl]
  rfl

/-- One level more. -/
theorem Alike.cons {below : Frame → Frame → Prop} {is : List Slot}
    (he : CopiedEntry below m₀ m t u i) (hmarks : Marks S m₀ m) (hS : S t i)
    (hpresent : m₀.mem t i ≠ 0 → Present (m₀.mem t i))
    (hbelow : m₀.mem t i ≠ 0 → Alike m₀ m (frameOf (m₀.mem t i)) (frameOf (m.mem u i)) is) :
    Alike m₀ m t u (i :: is) := by
  by_cases hzero : m₀.mem t i = 0
  · have hnone : m₀.walk t (i :: is) = none := walk_empty hzero
    refine ⟨?_, fun h => absurd hnone h, fun h => absurd hnone h⟩
    rw [hnone, walk_empty (he.empty hzero)]
  · have hnext := hbelow hzero
    have hchild₀ : m₀.child t i = some (frameOf (m₀.mem t i)) :=
      child_eq_some.2 ⟨hpresent hzero, rfl⟩
    have hchild : m.child t i = some (frameOf (m₀.mem t i)) := (hmarks.child hS).trans hchild₀
    have hcopy : m.child u i = some (frameOf (m.mem u i)) :=
      child_eq_some.2 ⟨(he.guard hzero).present, rfl⟩
    refine ⟨?_, fun hsome => ?_, fun hsome => ?_⟩
    · rw [walk_cons hcopy, walk_cons hchild₀, hnext.copy]
    · rw [walk_cons hchild₀] at hsome
      rw [entries_cons hcopy, List.forall_mem_cons]
      exact ⟨he.guard hzero, hnext.guard hsome⟩
    · rw [walk_cons hchild₀] at hsome
      rw [entries_cons hchild, List.forall_mem_cons, he.mark hzero]
      exact ⟨protected_marked (hpresent hzero), hnext.mark hsome⟩

theorem Copied.alike {is : List Slot} (hmarks : Marks S m₀ m) (ht : Sourced S m₀ n t)
    (h : Copied m₀ m F n t u) (hlen : is.length = n) : Alike m₀ m t u is := by
  induction is generalizing n t u with
  | nil =>
      subst hlen
      have hsame : u = t := h
      subst hsame
      refine ⟨rfl, fun _ e he => ?_, fun _ e he => ?_⟩ <;> cases he
  | cons i is ih =>
      subst hlen
      have hi := h.2 i
      exact Alike.cons hi hmarks (ht i).1 (fun hused => ((ht i).2 hused).1)
        fun hused => ih ((ht i).2 hused).2 (hi.below hused) rfl

/-- The tables of the copy lie in the frames it was given. -/
theorem Copied.tables {is : List Slot} {s : Frame} (h : Copied m₀ m F n t u) (hlen : is.length < n)
    (hwalk : m.walk u is = some s) : F s := by
  induction is generalizing n t u with
  | nil =>
      cases n with
      | zero => exact absurd hlen (lt_irrefl 0)
      | succ n =>
          cases hwalk
          exact h.1
  | cons i is ih =>
      cases n with
      | zero => exact absurd hlen (Nat.not_lt_zero _)
      | succ n =>
          have hused : m₀.mem t i ≠ 0 := by
            intro hzero
            rw [walk_empty ((h.2 i).empty hzero)] at hwalk
            cases hwalk
          have hchild : m.child u i = some (frameOf (m.mem u i)) :=
            child_eq_some.2 ⟨((h.2 i).guard hused).present, rfl⟩
          rw [walk_cons hchild] at hwalk
          exact ih ((h.2 i).below hused) (Nat.lt_of_succ_lt_succ hlen) hwalk

/-! ## `duplicate_page_table` -/

/-- An entry of a table of the source, slots 510 and 511 of the top table apart. -/
def SourceEntry (m : Machine) (source t : Frame) (i : Slot) : Prop :=
  ∃ P, UserIndices (P ++ [i]) ∧ P.length ≤ 3 ∧ m.walk source P = some t

/-- A table that can be duplicated: what its paths below slot 510 lead to are tables in use, and the
entries of these that are not zero are present. -/
structure Duplicable (m : Machine) (role : Frame → Role) (source : Frame) : Prop where
  tables : ∀ t i, SourceEntry m source t i → InUse m role t
  present : ∀ t i, SourceEntry m source t i → m.mem t i ≠ 0 → Present (m.mem t i)

theorem UserIndices.concat (h : UserIndices path) (hne : path ≠ []) (i : Slot) :
    UserIndices (path ++ [i]) := by
  cases path with
  | nil => exact absurd rfl hne
  | cons k ks => exact h

/-- A path can be continued below slot 510. -/
theorem UserIndices.concat_zero (h : UserIndices path) : UserIndices (path ++ [0]) := by
  cases path with
  | nil => exact userIndices_cons (by decide)
  | cons k ks => exact h

theorem Duplicable.inUse (h : Duplicable m role source) (hpath : UserIndices path)
    (hlen : path.length ≤ 3) (hwalk : m.walk source path = some t) : InUse m role t :=
  h.tables t 0 ⟨path, hpath.concat_zero, hlen, hwalk⟩

/-- Marks change no walk. -/
theorem Marks.walk (h : Marks (SourceEntry m source) m m') (hpath : UserIndices path)
    (hlen : path.length ≤ 4) : m'.walk source path = m.walk source path := by
  induction path using List.reverseRecOn with
  | nil => rfl
  | append_singleton path i ih =>
      rw [List.length_append, List.length_singleton] at hlen
      rw [walk_concat, walk_concat, ih hpath.init (by omega)]
      cases hwalk : m.walk source path with
      | none => rfl
      | some s => exact h.child ⟨path, hpath, by omega, hwalk⟩

theorem Duplicable.sourced (h : Duplicable m role source) (hpath : UserIndices path)
    (hne : path ≠ []) (hlen : path.length + n = 4) (hwalk : m.walk source path = some t) :
    Sourced (SourceEntry m source) m n t := by
  induction n generalizing path t with
  | zero => trivial
  | succ n ih =>
      intro i
      have hS : SourceEntry m source t i := ⟨path, hpath.concat hne i, by omega, hwalk⟩
      refine ⟨hS, fun hused => ⟨h.present t i hS hused, ?_⟩⟩
      have hchild : m.child t i = some (frameOf (m.mem t i)) :=
        child_eq_some.2 ⟨h.present t i hS hused, rfl⟩
      refine ih (hpath.concat hne i) (by simp) ?_ ?_
      · rw [List.length_append, List.length_singleton]
        omega
      · rw [walk_concat, hwalk, Option.bind_some, hchild]

theorem Duplicable.sourcedTop (h : Duplicable m role source) :
    SourcedTop (SourceEntry m source) m source := by
  intro i hi
  have hS : SourceEntry m source source i := ⟨[], userIndices_cons hi, by decide, rfl⟩
  refine ⟨hS, fun hused => ⟨h.present source i hS hused, ?_⟩⟩
  have hchild : m.child source i = some (frameOf (m.mem source i)) :=
    child_eq_some.2 ⟨h.present source i hS hused, rfl⟩
  exact h.sourced (userIndices_cons hi) (List.cons_ne_nil i []) rfl (walk_cons hchild)

/-- The tables of a process can be duplicated. -/
theorem Roles.duplicable (h : Roles m role) (hsource : role source = .table source []) :
    Duplicable m role source := by
  have hrole : ∀ {t i P}, UserIndices (P ++ [i]) → P.length ≤ 3 → m.walk source P = some t →
      role t = .table source P := fun hP hlen hwalk => h.walk_role hsource hP.init hlen hwalk
  refine ⟨?_, ?_⟩
  · rintro t i ⟨P, hP, hlen, hwalk⟩
    have ht := hrole hP hlen hwalk
    refine ⟨h.low t (by rw [ht]; exact Role.noConfusion), fun level => ?_, ?_⟩
    · rw [ht]
      exact Role.noConfusion
    · rintro p hp rfl
      rw [h.free.plain p hp] at ht
      cases ht
  · rintro t i ⟨P, hP, hlen, hwalk⟩ hused
    exact (h.user (hrole hP hlen hwalk) (fun hnil => hP.top hnil) hused).1

/-- What a call should do: the copy and the source translate as the source did, all entries above a
mapped page are protected in both, and the tables of the copy are its own. -/
structure Duplicates (m : Machine) (role : Frame → Role) (m' : Machine) (source new : Frame) :
    Prop where
  copy : ∀ va, (pml4Index va : Nat) < 510 → m'.translate new va = m.translate source va
  kept : ∀ va, (pml4Index va : Nat) < 510 → m'.translate source va = m.translate source va
  guard : ∀ va, (pml4Index va : Nat) < 510 → m.translate source va ≠ none →
    ∀ e, e ∈ m'.entries new (pathOf va) ∨ e ∈ m'.entries source (pathOf va) → Protected e
  separate : ∀ P Q t, UserIndices P → UserIndices Q → P.length ≤ 3 → Q.length ≤ 3 →
    m'.walk new P = some t → m'.walk source Q ≠ some t
  kernel : m'.mem new 511 = m'.mem source 511
  self : m'.mem new 510 = pageWord new ||| 3
  others : ∀ t i, InUse m role t → ¬ SourceEntry m source t i → m'.mem t i = m.mem t i

theorem duplicatePageTable_copies (h : Roles m role) (hsource : Duplicable m role source)
    (hdup : duplicatePageTable source m = some (new, m')) : Duplicates m role m' source new := by
  rw [duplicatePageTable] at hdup
  rcases Option.bind_eq_some_iff.1 hdup with ⟨⟨v, user, m₂⟩, htable, hdup⟩
  rcases Option.bind_eq_some_iff.1 hdup with ⟨m₃, hloop, hret⟩
  rcases Prod.mk.inj (Option.some_inj.1 hret) with ⟨rfl, rfl⟩
  have hstage : Stage (SourceEntry m source) m m (kernelPart role) :=
    ⟨h.kernelRoles, fun t i hS => inUse_kernelPart.2 (hsource.tables t i hS),
      fun _ _ _ => Or.inl rfl⟩
  rcases newTable_duplicating (W := fun _ => False) hstage.kernel hstage.sources htable with
    ⟨rfl, role₂, hgrow, hin, hwas, hzero⟩
  have hnot : ∀ i, ¬ SourceEntry m source user i := fun i hi => hwas (hstage.sources user i hi)
  have htop := hsource.sourcedTop
  have hstage₂ := hstage.next hgrow
  rcases duplicateTop_loop hstage₂ htop hin hnot hzero hloop with ⟨role₃, hd, hentries, hkernel⟩
  -- slot 510 is written last
  have hlink : linkTo (pageWord user + KERNBASE) 3 = pageWord user ||| 3 :=
    (lowPage_pageWord hin.low).linkTo 3
  have hlast : Duplicating (SourceEntry m source) (· = user) m₃ role₃
      (m₃.write user 510 (linkTo (pageWord user + KERNBASE) 3)) role₃ :=
    Duplicating.enter (W := (· = user)) hd.kernel (hd.inUse user hin) hnot rfl 510 _
  generalize hm' : m₃.write user 510 (linkTo (pageWord user + KERNBASE) 3) = m' at hlast
  have hall : Duplicating (SourceEntry m source) (fun _ => False) m (kernelPart role) m' role₃ := by
    refine (hgrow.trans hd ?_).trans hlast ?_ <;> rintro t rfl ht <;> exact hwas ht
  have hmem : ∀ t i, ¬ (t = user ∧ i = 510) → m'.mem t i = m₃.mem t i := by
    intro t i hne
    rw [← hm']
    exact write_mem_of_ne m₃ _ (not_and_or.1 hne)
  have hcopied : ∀ i : Slot, (i : Nat) < 510 →
      CopiedEntry (Copied m m' (Taken m₂ role₂ m' role₃) 3) m m' source user i := by
    intro i hi
    refine (hentries i hi).later hstage₂ hin hlast (htop i hi).1 (fun hu => ((htop i hi).2 hu).2) ?_
    refine hmem user i ?_
    rintro ⟨-, rfl⟩
    exact absurd hi (by decide)
  have halike : ∀ va, (pml4Index va : Nat) < 510 → Alike m m' source user (pathOf va) := by
    intro va hva
    refine Alike.cons (hcopied _ hva) hall.marks (htop _ hva).1 (fun hu => ((htop _ hva).2 hu).1) ?_
    exact fun hu => ((hcopied _ hva).below hu).alike hall.marks ((htop _ hva).2 hu).2 rfl
  have hwalks : ∀ Q, UserIndices Q → Q.length ≤ 4 → m'.walk source Q = m.walk source Q :=
    fun Q hQ hlen => hall.marks.walk hQ hlen
  have hown : ∀ P t, UserIndices P → P.length ≤ 3 → m'.walk user P = some t →
      ¬ InUse m (kernelPart role) t := by
    intro P t hP hlen hwalk
    cases P with
    | nil =>
        cases hwalk
        exact hwas
    | cons i is =>
        have hi : (i : Nat) < 510 := hP i rfl
        have hused : m.mem source i ≠ 0 := by
          intro h₀
          rw [walk_empty ((hcopied i hi).empty h₀)] at hwalk
          cases hwalk
        have hchild : m'.child user i = some (frameOf (m'.mem user i)) :=
          child_eq_some.2 ⟨((hcopied i hi).guard hused).present, rfl⟩
        rw [walk_cons hchild] at hwalk
        have htaken := ((hcopied i hi).below hused).tables (Nat.lt_of_succ_le hlen) hwalk
        exact fun ht => htaken.2 (hgrow.inUse t ht)
  refine ⟨fun va hva => (halike va hva).copy,
    fun va hva => hwalks _ (userIndices_cons hva) (le_refl 4),
    fun va hva hmapped e he => ?_, fun P Q t hP hQ hlenP hlenQ hwalk hshared => ?_, ?_, ?_,
    fun t i ht hS => hall.other t i (inUse_kernelPart.2 ht) hS id⟩
  · rcases he with he | he
    · exact (halike va hva).guard hmapped e he
    · exact (halike va hva).mark hmapped e he
  · rw [hwalks Q hQ (by omega)] at hshared
    exact hown P t hP hlenP hwalk (inUse_kernelPart.2 (hsource.inUse hQ hlenQ hshared))
  · rw [hmem user 511 fun hat => absurd hat.2 (by decide),
      hmem source 511 fun hat => absurd hat.2 (by decide), hkernel]
  · rw [← hm', write_mem_self, hlink]

/-- The tables of a process with one page. -/
theorem duplicatePageTable_copies_shared : ∃ new m',
    duplicatePageTable 5 sharedPage = some (new, m') ∧
      Duplicates sharedPage sharedRole m' 5 new := by
  have hruns : (duplicatePageTable 5 sharedPage).isSome := by decide +kernel
  rcases Option.isSome_iff_exists.1 hruns with ⟨⟨new, m'⟩, hdup⟩
  exact ⟨new, m', hdup,
    duplicatePageTable_copies sharedPage_roles (sharedPage_roles.duplicable rfl) hdup⟩

end Paging

end OswpKernel
