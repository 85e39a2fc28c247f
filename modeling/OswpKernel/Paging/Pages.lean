import OswpKernel.Paging.UserTables

/-!
# Pages — the tables of a process seen from above

`entryAt` names an entry of a process' tables by the indices that lead to it, so that the frames the
tables lie in no longer matter.  A write changes the entry with its path and what lies below it
(`entryAt_write`); a table that is linked in is empty at first (`Handed.entryAt_link`); what the
kernel allocates for itself changes no entry (`Grown.entryAt`).
-/

namespace OswpKernel

namespace Paging

open Machine

variable {m m' m₁ : Machine} {role role' role₁ : Frame → Role} {e v : Word} {t f r : Frame}
  {i j : Slot} {path Q : List Slot} {va : Word} {n : Nat}

/-! ## Walks, entry by entry -/

theorem walk_append (m : Machine) (t : Frame) (is js : List Slot) :
    m.walk t (is ++ js) = (m.walk t is).bind fun next => m.walk next js := by
  induction is generalizing t with
  | nil => rfl
  | cons i is ih =>
      rw [List.cons_append, walk, walk, Option.bind_assoc]
      exact congrArg _ (funext fun next => ih next)

theorem walk_concat (m : Machine) (t : Frame) (is : List Slot) (i : Slot) :
    m.walk t (is ++ [i]) = (m.walk t is).bind fun next => m.child next i := by
  rw [walk_append]
  exact congrArg _ (funext fun next => Option.bind_fun_some _)

/-- The three upper indices of an address. -/
def upperPath (address : Word) : List Slot :=
  [pml4Index address, pdptIndex address, pdtIndex address]

/-- The path of an address, split before its last index. -/
theorem pathOf_eq (va : Word) : pathOf va = upperPath va ++ [ptIndex va] := rfl

/-- Entry `i` of the table at `path`, zero where there is no table. -/
def Machine.entryAt (m : Machine) (root : Frame) (path : List Slot) (i : Slot) : Word :=
  match m.walk root path with
  | some t => m.mem t i
  | none => 0

/-- The entry of the page that an address lies in. -/
def Machine.leafAt (m : Machine) (root : Frame) (va : Word) : Word :=
  m.entryAt root (upperPath va) (ptIndex va)

theorem entryAt_of_walk (h : m.walk r path = some t) (i : Slot) :
    m.entryAt r path i = m.mem t i := by
  rw [entryAt, h]

theorem entryAt_of_none (h : m.walk r path = none) (i : Slot) : m.entryAt r path i = 0 := by
  rw [entryAt, h]

/-- A walk goes on where the entry is present. -/
theorem walk_concat_entryAt (m : Machine) (r : Frame) (path : List Slot) (i : Slot) :
    m.walk r (path ++ [i]) =
      if Present (m.entryAt r path i) then some (frameOf (m.entryAt r path i)) else none := by
  rw [walk_concat]
  cases hwalk : m.walk r path with
  | none =>
      rw [entryAt_of_none hwalk, if_neg fun h => h.ne_zero rfl]
      rfl
  | some t =>
      rw [entryAt_of_walk hwalk]
      rfl

theorem translate_leafAt (m : Machine) (r : Frame) (va : Word) : m.translate r va =
    if Present (m.leafAt r va) then some (frameOf (m.leafAt r va)) else none := by
  rw [Machine.translate, pathOf_eq, walk_concat_entryAt]
  rfl

theorem translate_eq_none_iff : m.translate r va = none ↔ ¬ Present (m.leafAt r va) := by
  rw [translate_leafAt]
  split_ifs with h <;> simp [h]

theorem translate_eq_some_iff {frame : Frame} : m.translate r va = some frame ↔
    Present (m.leafAt r va) ∧ frameOf (m.leafAt r va) = frame := by
  rw [translate_leafAt]
  split_ifs with h <;> simp [h]

/-! ## Paths of a process -/

/-- The path is empty or starts below slot 510. -/
def UserIndices (path : List Slot) : Prop := ∀ i ∈ path.head?, (i : Nat) < 510

theorem userIndices_nil : UserIndices [] := fun _ h => absurd h (by simp)

theorem userIndices_cons {is : List Slot} (hi : (i : Nat) < 510) : UserIndices (i :: is) := by
  intro k hk
  cases hk
  exact hi

theorem UserIndices.init (h : UserIndices (path ++ [i])) : UserIndices path := by
  cases path with
  | nil => exact userIndices_nil
  | cons k ks => exact h

/-- The index that is taken from the top table is below 510. -/
theorem UserIndices.top (h : UserIndices (path ++ [i])) (hpath : path = []) : (i : Nat) < 510 := by
  subst hpath
  exact h i rfl

theorem UserIndices.prefix_of (h : UserIndices Q) (hunder : path <+: Q) : UserIndices path := by
  rcases hunder with ⟨rest, rfl⟩
  cases path with
  | nil => exact userIndices_nil
  | cons k ks => exact h

/-- A path of a process leads to the table with that path. -/
theorem Roles.walk_role (h : Roles m role) (hr : role r = .table r []) (hpath : UserIndices path)
    (hlen : path.length ≤ 3) (hwalk : m.walk r path = some t) : role t = .table r path := by
  induction path using List.reverseRecOn generalizing t with
  | nil =>
      cases hwalk
      exact hr
  | append_singleton path i ih =>
      rw [List.length_append, List.length_singleton] at hlen
      rw [walk_concat] at hwalk
      rcases Option.bind_eq_some_iff.1 hwalk with ⟨s, hs, hchild⟩
      have hrole := ih hpath.init (by omega) hs
      exact (h.userChild hrole hpath.top (by omega) hchild).2.2.2

/-- Where the tables of a process stay as they are, its walks do. -/
theorem Roles.walk_congr (h : Roles m role) (hr : role r = .table r [])
    (hsame : ∀ t path, role t = .table r path → m'.mem t = m.mem t) (hpath : UserIndices path)
    (hlen : path.length ≤ 4) : m'.walk r path = m.walk r path := by
  induction path using List.reverseRecOn with
  | nil => rfl
  | append_singleton path i ih =>
      rw [List.length_append, List.length_singleton] at hlen
      rw [walk_concat, walk_concat, ih hpath.init (by omega)]
      cases hwalk : m.walk r path with
      | none => rfl
      | some s =>
          have hrole := h.walk_role hr hpath.init (by omega) hwalk
          exact child_congr (congrFun (hsame s path hrole) i)

theorem Roles.entryAt_congr (h : Roles m role) (hr : role r = .table r [])
    (hsame : ∀ t path, role t = .table r path → m'.mem t = m.mem t) (hpath : UserIndices path)
    (hlen : path.length ≤ 3) (i : Slot) : m'.entryAt r path i = m.entryAt r path i := by
  have hwalks := h.walk_congr hr hsame hpath (by omega)
  cases hwalk : m.walk r path with
  | none => rw [entryAt_of_none hwalk, entryAt_of_none (hwalks.trans hwalk)]
  | some s =>
      rw [entryAt_of_walk hwalk, entryAt_of_walk (hwalks.trans hwalk)]
      exact congrFun (hsame s path (h.walk_role hr hpath hlen hwalk)) i

/-- What the kernel allocates for itself changes no table of a process. -/
theorem Grown.entryAt (hgrown : Grown m role m' role') (h : Roles m role)
    (hr : role r = .table r [])
    (hpath : UserIndices path) (hlen : path.length ≤ 3) :
    m'.walk r path = m.walk r path ∧ ∀ i, m'.entryAt r path i = m.entryAt r path i := by
  have hsame : ∀ t path, role t = .table r path → m'.mem t = m.mem t := by
    intro t path ht
    have ht' : role' t = .table r path :=
      (hgrown.keep t (by rw [ht]; exact Role.noConfusion)).trans ht
    exact hgrown.mem t fun level => by rw [ht']; exact Role.noConfusion
  exact ⟨h.walk_congr hr hsame hpath (by omega), h.entryAt_congr hr hsame hpath hlen⟩

/-! ## Writes -/

/-- A write changes no walk but those through its entry. -/
theorem Roles.walk_write (h : Roles m role) (hr : role r = .table r []) {P : List Slot}
    (ht : role t = .table r P) (e : Word) (hQ : UserIndices Q) (hlen : Q.length ≤ 4)
    (hnot : ¬ (P ++ [i]) <+: Q) : (m.write t i e).walk r Q = m.walk r Q := by
  induction Q using List.reverseRecOn with
  | nil => rfl
  | append_singleton Q j ih =>
      rw [List.length_append, List.length_singleton] at hlen
      rw [List.prefix_concat_iff, not_or] at hnot
      rw [walk_concat, walk_concat, ih hQ.init (by omega) hnot.2]
      cases hwalk : m.walk r Q with
      | none => rfl
      | some s =>
          have hrole := h.walk_role hr hQ.init (by omega) hwalk
          refine child_congr (write_mem_of_ne m e ?_)
          by_contra hsame
          simp only [not_or, not_not] at hsame
          rcases hsame with ⟨rfl, rfl⟩
          rw [ht] at hrole
          cases hrole
          exact hnot.1 rfl

/-- The entry that is written, and all entries that are not below it. -/
theorem Roles.entryAt_write (h : Roles m role) (hr : role r = .table r []) {P : List Slot}
    (ht : role t = .table r P) (hwalk : m.walk r P = some t) (e : Word) (hQ : UserIndices Q)
    (hlen : Q.length ≤ 3) (hnot : ¬ (P ++ [i]) <+: Q) (j : Slot) :
    (m.write t i e).entryAt r Q j = if Q = P ∧ j = i then e else m.entryAt r Q j := by
  have hwalks := h.walk_write hr ht e hQ (by omega) hnot
  by_cases hat : Q = P ∧ j = i
  · rcases hat with ⟨rfl, rfl⟩
    rw [if_pos ⟨rfl, rfl⟩, entryAt_of_walk (hwalks.trans hwalk), write_mem_self]
  · rw [if_neg hat]
    cases hq : m.walk r Q with
    | none => rw [entryAt_of_none hq, entryAt_of_none (hwalks.trans hq)]
    | some s =>
        rw [entryAt_of_walk hq, entryAt_of_walk (hwalks.trans hq)]
        refine write_mem_of_ne m e ?_
        by_contra hsame
        simp only [not_or, not_not] at hsame
        rcases hsame with ⟨rfl, rfl⟩
        have hrole := h.walk_role hr hQ hlen hq
        rw [ht] at hrole
        cases hrole
        exact hat ⟨rfl, rfl⟩

theorem not_prefix_concat_self (P : List Slot) (i : Slot) : ¬ (P ++ [i]) <+: P := by
  intro hunder
  have hlen := hunder.length_le
  rw [List.length_append, List.length_singleton] at hlen
  omega

/-- Below a table that is all zero there is nothing. -/
theorem entryAt_below_zero (hwalk : m.walk r path = some t) (hzero : ∀ i, m.mem t i = 0)
    (hunder : path <+: Q) (j : Slot) : m.entryAt r Q j = 0 := by
  rcases hunder with ⟨rest, rfl⟩
  cases rest with
  | nil =>
      rw [List.append_nil, entryAt_of_walk hwalk]
      exact hzero j
  | cons k ks =>
      refine entryAt_of_none ?_ j
      have hchild : m.child t k = none := by
        rw [child, hzero]
        exact if_neg fun h => h.ne_zero rfl
      rw [walk_append, hwalk, Option.bind_some, walk, hchild]
      rfl

theorem entryAt_below_none (hwalk : m.walk r path = none) (hunder : path <+: Q) (j : Slot) :
    m.entryAt r Q j = 0 := by
  rcases hunder with ⟨rest, rfl⟩
  refine entryAt_of_none ?_ j
  rw [walk_append, hwalk]
  rfl

/-- A page that has been handed out is linked in as an empty table. -/
theorem Handed.entryAt_link (hhanded : Handed m role m₁ role₁ n f) (h : Roles m role)
    (hr : role r = .table r []) (ht : role t = .table r path) (hwalk : m.walk r path = some t)
    (hpath : UserIndices (path ++ [i])) (hlen : path.length < 3) {flags : Word}
    (hflags : TableFlags flags) :
    ((m₁.clear f).write t i (pageWord f ||| flags)).walk r (path ++ [i]) = some f ∧
      (∀ Q, UserIndices Q → Q.length ≤ 4 → ¬ (path ++ [i]) <+: Q →
        ((m₁.clear f).write t i (pageWord f ||| flags)).walk r Q = m.walk r Q) ∧
      ∀ Q, UserIndices Q → Q.length ≤ 3 → ∀ j,
        ((m₁.clear f).write t i (pageWord f ||| flags)).entryAt r Q j =
          if (path ++ [i]) <+: Q then 0
          else if Q = path ∧ j = i then pageWord f ||| flags else m.entryAt r Q j := by
  have hplain := hhanded.plain_head
  have hkeep : ∀ {t path}, role t = .table r path → role₁ t = .table r path := fun ht =>
    (hhanded.grown.keep _ (by rw [ht]; exact Role.noConfusion)).trans ht
  have hne : ∀ {t path}, role t = .table r path → t ≠ f := by
    rintro t path ht rfl
    have htable := hkeep ht
    rw [hplain] at htable
    cases htable
  have hcleared : Roles (m₁.clear f) role₁ := hhanded.roles.setPage hplain hhanded.low _
  -- up to the link nothing has changed
  have hsame : ∀ t path, role t = .table r path → (m₁.clear f).mem t = m.mem t := by
    intro t path ht
    rw [clear_mem_of_ne _ (hne ht)]
    exact hhanded.grown.mem t fun level => by rw [hkeep ht]; exact Role.noConfusion
  have hwalk₁ : (m₁.clear f).walk r path = some t :=
    (h.walk_congr hr hsame hpath.init (by omega)).trans hwalk
  have hwalks : ∀ Q, UserIndices Q → Q.length ≤ 4 → ¬ (path ++ [i]) <+: Q →
      ((m₁.clear f).write t i (pageWord f ||| flags)).walk r Q = m.walk r Q := by
    intro Q hQ hlenQ hnot
    rw [hcleared.walk_write (hkeep hr) (hkeep ht) _ hQ hlenQ hnot, h.walk_congr hr hsame hQ hlenQ]
  have hlinked : ((m₁.clear f).write t i (pageWord f ||| flags)).walk r (path ++ [i]) = some f := by
    rw [walk_concat, hwalks path hpath.init (by omega) (not_prefix_concat_self path i), hwalk,
      Option.bind_some]
    refine child_eq_some.2 ?_
    rw [write_mem_self, frameOf_or _ hflags.low, hhanded.frame_eq]
    exact ⟨has_of_or_left hflags.present _, rfl⟩
  refine ⟨hlinked, hwalks, fun Q hQ hlenQ j => ?_⟩
  by_cases hbelow : (path ++ [i]) <+: Q
  · rw [if_pos hbelow]
    refine entryAt_below_zero hlinked (fun k => ?_) hbelow j
    rw [write_mem_of_ne _ _ (Or.inl (hne ht).symm), clear_mem_self]
  · rw [if_neg hbelow, hcleared.entryAt_write (hkeep hr) (hkeep ht) hwalk₁ _ hQ hlenQ hbelow,
      h.entryAt_congr hr hsame hQ hlenQ]

end Paging

end OswpKernel
