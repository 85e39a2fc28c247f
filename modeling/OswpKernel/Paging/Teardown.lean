import OswpKernel.Paging.CopyPage
import OswpKernel.Lib.Execution

/-!
# Teardown — `clear_uptentries` leaves the other processes alone

`clear_uptentries` follows the entries with the user bit and clears them on the way.  By `Roles` it
only ever reaches tables of the process it was called for, and a walk through the tables of another
process never does.
-/

namespace OswpKernel

namespace Paging

open Machine Execution

variable {m m' : Machine} {role : Frame → Role} {t : Nat} {i : Slot} {r : Frame} {path : List Slot}
  {k : Nat}

/-! ## `clear_uptentries` -/

/-- Only tables of the process `r` at level `k` and below have changed. -/
structure ClearedBelow (r : Frame) (k : Nat) (role : Frame → Role) (m m' : Machine) : Prop where
  mem : ∀ t, (∀ path, role t = .table r path → path.length < k) → m'.mem t = m.mem t
  ring : m'.ring = m.ring
  pml4t : m'.pml4t = m.pml4t
  current : m'.current = m.current

theorem ClearedBelow.refl (r : Frame) (k : Nat) (role : Frame → Role) (m : Machine) :
    ClearedBelow r k role m m := ⟨fun _ _ => rfl, rfl, rfl, rfl⟩

theorem ClearedBelow.trans {m₁ : Machine} (h : ClearedBelow r k role m m₁)
    (h' : ClearedBelow r k role m₁ m') : ClearedBelow r k role m m' :=
  ⟨fun t ht => (h'.mem t ht).trans (h.mem t ht), h'.ring.trans h.ring, h'.pml4t.trans h.pml4t,
    h'.current.trans h.current⟩

theorem ClearedBelow.mono {k' : Nat} (h : ClearedBelow r k role m m') (hk : k' ≤ k) :
    ClearedBelow r k' role m m' :=
  ⟨fun t ht => h.mem t fun path hpath => (ht path hpath).trans_le hk, h.ring, h.pml4t, h.current⟩

/-- Clearing an entry of a table of the process. -/
theorem Roles.clearEntry (h : Roles m role) (ht : role t = .table r path) (hk : k ≤ path.length)
    (hi : path = [] → (i : Nat) < 510) :
    Roles (m.write t i 0) role ∧ ClearedBelow r k role m (m.write t i 0) := by
  refine ⟨(h.writeUser (S := fun _ => False) ht hi (Or.inl rfl)).1, ?_, rfl, rfl, rfl⟩
  intro t' ht'
  funext j
  refine write_mem_of_ne m 0 (Or.inl ?_)
  rintro rfl
  exact absurd (ht' path ht) (not_lt.2 hk)

/-- What is asked of the clearing of a table at level `k`. -/
def ClearSpec (k : Nat) (clearTable : Frame → Machine → Option Machine) : Prop :=
  ∀ {m role t r path}, Roles m role → role t = .table r path → path.length = k →
    ∃ m', clearTable t m = some m' ∧ Roles m' role ∧ ClearedBelow r k role m m'

theorem clearPt_spec : ClearSpec 3 clearPt := by
  intro m role t r path h ht hlen
  have hrun := Loop.forEach_total (clearPage t) slots (s := m)
    (I := fun m => Roles m role) (R := ClearedBelow r 3 role) (D := fun _ _ => True)
    (ClearedBelow.refl r 3 role) ClearedBelow.trans (fun _ _ => trivial)
    (fun {i m} _ h => by
      rw [clearPage]
      refine ⟨_, rfl, ?_⟩
      split_ifs
      · rcases h.clearEntry (i := i) ht hlen.ge (by rintro rfl; exact absurd hlen (by decide)) with
          ⟨h', hcleared⟩
        exact ⟨h', hcleared, trivial⟩
      · exact ⟨h, ClearedBelow.refl r 3 role m, trivial⟩) h
  rcases hrun with ⟨m', hloop, h', hcleared, -⟩
  exact ⟨m', hloop, h', hcleared⟩

/-- An entry of an upper table: what it leads to is cleared one level down. -/
theorem clearEntry_spec {clearTable : Frame → Machine → Option Machine}
    (hrec : ClearSpec (k + 1) clearTable) (h : Roles m role) (ht : role t = .table r path)
    (hlen : path.length = k) (hk : k < 3) (hi : path = [] → (i : Nat) < 510) :
    ∃ m', Machine.clearEntry clearTable t i m = some m' ∧ Roles m' role ∧
      ClearedBelow r k role m m' ∧ m'.mem t i = 0 ∧
      ∀ j, j ≠ i → m'.mem t j = m.mem t j := by
  rw [Machine.clearEntry]
  by_cases hused : m.mem t i = 0
  · have hnot : ¬ Has (m.mem t i) userBit := by
      rw [hused]
      decide
    rw [if_neg hnot]
    exact ⟨m, rfl, h, ClearedBelow.refl r k role m, hused, fun _ _ => rfl⟩
  · have hentry := h.user ht hi hused
    rcases hentry.2.2 (by omega) with ⟨hlow, hrole⟩
    rcases h.clearEntry (i := i) ht hlen.ge hi with ⟨h₁, hcleared₁⟩
    rcases hrec h₁ hrole (by rw [List.length_append, hlen]; rfl) with ⟨m', hclear, h', hcleared'⟩
    -- the table itself is above the level that is cleared
    have hsame : m'.mem t = (m.write t i 0).mem t := by
      refine hcleared'.mem t fun path' hpath' => ?_
      rw [ht] at hpath'
      cases hpath'
      omega
    refine ⟨m', ?_, h', hcleared₁.trans (hcleared'.mono (Nat.le_succ k)), ?_, fun j hj => ?_⟩
    · rw [if_pos hentry.2.1]
      exact Option.bind_eq_some_iff.2 ⟨_, tableAt_of_low hlow, hclear⟩
    · rw [hsame]
      exact write_mem_self m t i 0
    · rw [hsame]
      exact write_mem_of_ne m 0 (Or.inr hj)

theorem clearTable_spec {clearTable : Frame → Machine → Option Machine}
    (hrec : ClearSpec (k + 1) clearTable) (hpos : k ≠ 0) (hk : k < 3) :
    ClearSpec k fun t => Loop.forEach (Machine.clearEntry clearTable t) slots := by
  intro m role t r path h ht hlen
  have hrun := Loop.forEach_total (Machine.clearEntry clearTable t) slots (s := m)
    (I := fun m => Roles m role) (R := ClearedBelow r k role) (D := fun _ _ => True)
    (ClearedBelow.refl r k role) ClearedBelow.trans (fun _ _ => trivial)
    (fun {i m} _ h => by
      have hi : path = [] → (i : Nat) < 510 := by
        rintro rfl
        exact absurd hlen.symm hpos
      rcases clearEntry_spec hrec h ht hlen hk hi with ⟨m', hbody, h', hcleared, -⟩
      exact ⟨m', hbody, h', hcleared, trivial⟩) h
  rcases hrun with ⟨m', hloop, h', hcleared, -⟩
  exact ⟨m', hloop, h', hcleared⟩

theorem clearPdt_spec : ClearSpec 2 clearPdt :=
  clearTable_spec clearPt_spec (by decide) (by decide)

theorem clearPdpt_spec : ClearSpec 1 clearPdpt :=
  clearTable_spec clearPdt_spec (by decide) (by decide)

/-- `clear_uptentries` on the tables of the current process. -/
theorem clearUptentries_spec (h : Roles m role) (ht : role m.current = .table m.current []) :
    ∃ m', m.clearUptentries = some m' ∧ Roles m' role ∧ ClearedBelow m.current 0 role m m' ∧
      ∀ i : Slot, m'.mem m.current i = if (i : Nat) < 510 then 0 else m.mem m.current i := by
  -- an entry that was cleared stays cleared, so at the end of the loop all of them are
  have hrun := Loop.forEach_total (fun i m' => if i = 510 ∨ i = 511 then some m'
      else Machine.clearEntry clearPdpt m.current i m') slots (s := m)
    (I := fun m' => Roles m' role ∧ ∀ i : Slot, m'.mem m.current i = m.mem m.current i ∨
      (i : Nat) < 510 ∧ m'.mem m.current i = 0)
    (R := fun m₁ m₂ => ClearedBelow m.current 0 role m₁ m₂ ∧
      ∀ i : Slot, m₁.mem m.current i = 0 → m₂.mem m.current i = 0)
    (D := fun i m' => (i : Nat) < 510 → m'.mem m.current i = 0)
    (fun m' => ⟨ClearedBelow.refl _ 0 role m', fun _ h => h⟩)
    (fun h h' => ⟨h.1.trans h'.1, fun i hi => h'.2 i (h.2 i hi)⟩)
    (fun hR hdone hi => hR.2 _ (hdone hi)) ?body ⟨h, fun _ => Or.inl rfl⟩
  case body =>
    rintro i m' - ⟨h', htop⟩
    split_ifs with hskip
    · refine ⟨m', rfl, ⟨h', htop⟩, ⟨ClearedBelow.refl _ 0 role m', fun _ h => h⟩, fun hi => ?_⟩
      rcases hskip with rfl | rfl <;> exact absurd hi (by decide)
    · have hi : (i : Nat) < 510 := slot_lt (fun heq => hskip (Or.inl heq)) fun heq =>
        hskip (Or.inr heq)
      rcases clearEntry_spec clearPdpt_spec h' ht rfl (by decide) (fun _ => hi) with
        ⟨m₁, hbody, h₁, hcleared, hzero, hothers⟩
      have hstep : ∀ j, m₁.mem m.current j = m'.mem m.current j ∨
          (j : Nat) < 510 ∧ m₁.mem m.current j = 0 := by
        intro j
        by_cases hj : j = i
        · subst hj
          exact Or.inr ⟨hi, hzero⟩
        · exact Or.inl (hothers j hj)
      refine ⟨m₁, hbody, ⟨h₁, fun j => ?_⟩, ⟨hcleared, fun j hj => ?_⟩, fun _ => hzero⟩
      · rcases hstep j with hsame | hcl
        · rw [hsame]
          exact htop j
        · exact Or.inr hcl
      · rcases hstep j with hsame | hcl
        · rw [hsame, hj]
        · exact hcl.2
  rcases hrun with ⟨m', hloop, ⟨h', htop⟩, ⟨hcleared, -⟩, hdone⟩
  refine ⟨m', hloop, h', hcleared, fun i => ?_⟩
  split_ifs with hi
  · exact hdone i (List.mem_finRange i) hi
  · exact (htop i).resolve_right fun hlow => hi hlow.1

theorem ClearedBelow.extends {S : Frame → Prop} (h : ClearedBelow m.current 0 role m m')
    (hroles : Roles m role)
    (htop : ∀ i : Slot, m'.mem m.current i = if (i : Nat) < 510 then 0 else m.mem m.current i) :
    Extends S m role m' role := by
  refine Extends.of_tops (fun _ _ => rfl)
    (fun t ht => ⟨ht.1, ht.2.1, h.ring ▸ ht.2.2⟩) ?_ ?_ h.pml4t
    h.current
  · intro t ht i hi
    by_cases heq : t = m.current
    · rw [heq, htop, if_neg (not_lt.2 hi)]
    · refine congrFun (h.mem t fun path hpath => ?_) i
      rw [ht] at hpath
      cases hpath
      exact absurd rfl heq
  · refine congrFun (h.mem _ fun path hpath => ?_) 511
    rw [hroles.top] at hpath
    cases hpath

/-! ## Walks of another process -/

/-- A frame that a walk of the process `q` can reach when `level` entries have been used up: its own
tables, those of the kernel, and the memory beyond the kernel's window. -/
def Reaches (role : Frame → Role) (q : Frame) (level : Nat) (t : Nat) : Prop :=
  (∃ path, role t = .table q path ∧ path.length ≤ level) ∨
    (∃ level', role t = .kernel level' ∧ level' ≠ 0 ∧ level' ≤ level) ∨ 2 ^ 19 ≤ t

theorem frameOf_link {f : Nat} (hf : f < 2 ^ 19) {flags : Word} (hflags : flags >>> 12 = 0#64) :
    frameOf (pageWord f ||| flags) = f := by
  rw [frameOf_or _ hflags, frameOf_pageWord (by omega)]

/-- Where the walk of a process goes on. -/
theorem Reaches.child (h : Roles m role) {q next : Frame} {level : Nat}
    (ht : Reaches role q level t) (hlevel : level < 3) (hchild : m.child t i = some next) :
    Reaches role q (level + 1) next := by
  rcases child_eq_some.1 hchild with ⟨hpresent, rfl⟩
  rcases ht with ⟨path, hrole, hlen⟩ | ⟨level', hrole, hpos, hle⟩ | hbeyond
  · have hok := h.entries t i
    rw [hrole] at hok
    simp only [EntryOk] at hok
    split_ifs at hok with h511 h510
    · -- the kernel's half
      rcases hok with hzero | htop
      · exact absurd hzero hpresent.ne_zero
      · rw [htop]
        have hkernel := (h.kernelChild h.top (by decide) (fun _ => rfl) h.present).2
        exact Or.inr (Or.inl ⟨1, hkernel, by decide, by omega⟩)
    · rcases hok with hzero | hself | hbeyond
      · exact absurd hzero hpresent.ne_zero
      · -- the table itself
        rw [h510.1] at hrole
        have hq : t = q := h.root t q hrole
        have hlow : t < 2 ^ 19 := h.low t (by rw [hrole]; exact Role.noConfusion)
        rw [hself, ← hq, frameOf_link hlow (by decide)]
        exact Or.inl ⟨[], hq ▸ hrole, Nat.zero_le _⟩
      · rw [hbeyond]
        exact Or.inr (Or.inr (by decide))
    · rcases hok with hzero | hentry
      · exact absurd hzero hpresent.ne_zero
      · refine Or.inl ⟨_, (hentry.2.2 (by omega)).2, ?_⟩
        rw [List.length_append, List.length_singleton]
        omega
  · have hkernel := (h.kernelChild hrole (by omega) (fun h => absurd h hpos) hpresent).2
    exact Or.inr (Or.inl ⟨level' + 1, hkernel, by omega, by omega⟩)
  · exact absurd (h.beyond t hbeyond i) hpresent.ne_zero

/-- Frames that a walk of one process reaches do not change when tables of another do. -/
theorem Reaches.mem {p q : Frame} {level : Nat} (ht : Reaches role q level t) (hne : q ≠ p)
    (hcleared : ClearedBelow p 0 role m m') (h : Roles m role) : m'.mem t = m.mem t := by
  refine hcleared.mem t fun path hpath => ?_
  rcases ht with ⟨path', hrole, -⟩ | ⟨level', hrole, -⟩ | hbeyond
  · rw [hrole] at hpath
    cases hpath
    exact absurd rfl hne
  · rw [hrole] at hpath
    cases hpath
  · have hlow := h.low t (by rw [hpath]; exact Role.noConfusion)
    exact absurd hbeyond (not_le.2 hlow)

/-- A walk of at most four entries is the same before and after. -/
theorem walk_other {p q : Frame} (h : Roles m role) (hcleared : ClearedBelow p 0 role m m')
    (hne : q ≠ p) {is : List Slot} {level : Nat} (hlen : is.length + level ≤ 4)
    (ht : Reaches role q level t) :
    m'.walk t is = m.walk t is ∧ m'.entries t is = m.entries t is := by
  induction is generalizing t level with
  | nil => exact ⟨rfl, rfl⟩
  | cons i is ih =>
      have hmem := ht.mem hne hcleared h
      have hchild : m'.child t i = m.child t i := child_congr (congrFun hmem i)
      rw [List.length_cons] at hlen
      rw [walk, walk, entries, entries, hchild, hmem]
      cases hc : m.child t i with
      | none => exact ⟨rfl, rfl⟩
      | some next =>
          cases is with
          | nil => exact ⟨rfl, rfl⟩
          | cons j js =>
              -- an entry is left, so the next frame is a table
              rw [List.length_cons] at hlen
              have hnext := ht.child h (by omega) hc
              rcases ih (by rw [List.length_cons]; omega) hnext with ⟨hwalk, hentries⟩
              exact ⟨hwalk, congrArg (m.mem t i :: ·) hentries⟩

/-! ## Page tables of several processes -/

/-- The machine and the top tables of the processes. -/
structure Processes where
  machine : Machine
  tables : List Frame

/-- What builds and takes apart page tables. -/
inductive TableEvent
  /-- `map_user_pml4`, for a process that is not forked -/
  | create
  /-- the scheduler makes another process current -/
  | switch (table : Frame)
  /-- `map_user_address` with flags 7 -/
  | map (table : Frame) (address phys : Word) (size : Int)
  /-- `duplicate_page_table` -/
  | fork (table : Frame)
  /-- `copy_page` in the current process -/
  | copy (page : Word)
  /-- `clear_uptentries` in the current process -/
  | exec

def tableStep (s : Processes) : TableEvent → Option Processes
  | .create => do
      let (new, m) ← s.machine.mapUserPml4
      return ⟨m, s.tables ++ [new]⟩
  | .switch table => some ⟨{ s.machine with current := table }, s.tables⟩
  | .map table address phys size => do
      let (_, m) ← mapUserAddress address phys size table 7 s.machine
      return ⟨m, s.tables⟩
  | .fork table => do
      let (new, m) ← duplicatePageTable table s.machine
      return ⟨m, s.tables ++ [new]⟩
  | .copy page => do
      let m ← copyPage s.machine.current page s.machine
      return ⟨m, s.tables⟩
  | .exec => do
      let m ← s.machine.clearUptentries
      return ⟨m, s.tables⟩

/-- The pages the loop of `map_user_address` goes over are in one second-level table's reach: they
do not cross a 1 GiB boundary. -/
def InGiB (address : Word) (size : Int) : Prop :=
  (pdtIndex address : Nat) * 512 + (ptIndex address : Nat) + turnsNonneg (userMapSize size) ≤ 2 ^ 18

instance (address : Word) (size : Int) : Decidable (InGiB address size) :=
  inferInstanceAs (Decidable (_ ≤ _))

/-- The routines are called for tables of processes, `map_user_address` below slot 510 and inside
1 GiB, `copy_page` for a user page that is mapped at all four levels, with a page left for it. -/
def TableAllowed (s : Processes) : TableEvent → Prop
  | .create => True
  | .switch table => table ∈ s.tables
  | .map table address _ size => table ∈ s.tables ∧ (pml4Index address : Nat) < 510 ∧
      InGiB address size
  | .fork table => table ∈ s.tables
  | .copy page => s.machine.current ∈ s.tables ∧ (pml4Index page : Nat) < 510 ∧
      s.machine.translate s.machine.current page ≠ none ∧ 0 < s.machine.ring.free
  | .exec => s.machine.current ∈ s.tables

instance (s : Processes) (e : TableEvent) : Decidable (TableAllowed s e) := by
  cases e <;> unfold TableAllowed <;> infer_instance

/-- The kernel's tables lead to tables of the kernel, and the free pages are apart from them. -/
def Consistent (m : Machine) : Prop := ∃ role, Roles m role

/-- The tables of the processes, and slot 511 of each is the kernel's. -/
structure ProcessTables (s : Processes) (role : Frame → Role) : Prop where
  roles : Roles s.machine role
  tops : ∀ q ∈ s.tables, role q = .table q [] ∧
    s.machine.mem q 511 = s.machine.mem s.machine.pml4t 511

variable {s s' : Processes} {e : TableEvent}

/-- The tables there are stay tables of their processes. -/
theorem ProcessTables.extend {role' : Frame → Role} (h : ProcessTables s role)
    (hroles : Roles m' role') (hextends : Extends (fun _ => False) s.machine role m' role') :
    ProcessTables ⟨m', s.tables⟩ role' := by
  refine ⟨hroles, fun q hq => ?_⟩
  rcases h.tops q hq with ⟨hrole, htop⟩
  refine ⟨hextends.table hrole, ?_⟩
  rw [hextends.tops q (fun h => h) hrole 511 (by decide), hextends.pml4t, hextends.kernel, htop]

theorem ProcessTables.add {role' : Frame → Role} {new : Frame} (h : ProcessTables s role)
    (hmade : MadeTop s.machine role m' role' new) :
    ProcessTables ⟨m', s.tables ++ [new]⟩ role' := by
  have hold := h.extend hmade.roles hmade.extends_
  refine ⟨hmade.roles, fun q hq => ?_⟩
  rcases List.mem_append.1 hq with hq | hq
  · exact hold.tops q hq
  · rw [List.mem_singleton.1 hq]
    exact ⟨hmade.top, hmade.kernel⟩

/-- Which table is loaded does not matter for the tables. -/
theorem ProcessTables.switch (h : ProcessTables s role) (table : Frame) :
    ProcessTables ⟨{ s.machine with current := table }, s.tables⟩ role := by
  have hroles := h.roles
  exact ⟨⟨hroles.top, hroles.present, hroles.entries, hroles.low, hroles.root, hroles.depth,
    hroles.beyond, hroles.free.low, hroles.free.nodup, hroles.free.plain⟩, h.tops⟩

/-- One step. -/
theorem ProcessTables.step (h : ProcessTables s role) (hallowed : TableAllowed s e)
    (hstep : tableStep s e = some s') : ∃ role', ProcessTables s' role' := by
  cases e with
  | create =>
      rw [tableStep] at hstep
      rcases Option.bind_eq_some_iff.1 hstep with ⟨⟨new, m'⟩, hcreate, hret⟩
      cases hret
      rcases mapUserPml4_spec h.roles hcreate with ⟨role', hmade⟩
      exact ⟨role', h.add hmade⟩
  | switch table =>
      cases hstep
      exact ⟨role, h.switch table⟩
  | map table address phys size =>
      rw [tableStep] at hstep
      rcases Option.bind_eq_some_iff.1 hstep with ⟨⟨mapped, m'⟩, hmap, hret⟩
      cases hret
      rcases mapUserAddress_spec h.roles (h.tops table hallowed.1).1 hallowed.2.1 hmap with
        ⟨role', hroles, hextends⟩
      exact ⟨role', h.extend hroles hextends⟩
  | fork table =>
      rw [tableStep] at hstep
      rcases Option.bind_eq_some_iff.1 hstep with ⟨⟨new, m'⟩, hdup, hret⟩
      cases hret
      rcases h.tops table hallowed with ⟨hrole, htop⟩
      rcases duplicatePageTable_spec h.roles hrole htop hdup with ⟨role', hmade⟩
      exact ⟨role', h.add hmade⟩
  | copy page =>
      rw [tableStep] at hstep
      rcases Option.bind_eq_some_iff.1 hstep with ⟨m', hcopy, hret⟩
      cases hret
      rcases hallowed with ⟨hcurrent, hi, hmapped, hfree⟩
      rcases h.tops _ hcurrent with ⟨hrole, htop⟩
      rcases Option.ne_none_iff_exists'.1 hmapped with ⟨frame, hframe⟩
      rcases copyPage_spec h.roles hrole htop hi hframe hfree hcopy with ⟨role', hroles, hextends⟩
      exact ⟨role', h.extend hroles hextends⟩
  | exec =>
      rw [tableStep] at hstep
      rcases Option.bind_eq_some_iff.1 hstep with ⟨m', hclear, hret⟩
      cases hret
      rcases h.tops _ hallowed with ⟨hrole, -⟩
      rcases clearUptentries_spec h.roles hrole with ⟨m'', hclear', hroles, hcleared, htop⟩
      rw [hclear] at hclear'
      cases hclear'
      exact ⟨role, h.extend hroles (hcleared.extends h.roles htop)⟩

/-- In every run from a consistent state the tables of the processes are apart. -/
theorem processTables_of_run {m₀ : Machine} {es : List TableEvent} (hboot : Consistent m₀)
    (hrun : Run tableStep TableAllowed ⟨m₀, []⟩ es s) : ∃ role, ProcessTables s role := by
  refine hrun.invariant (fun s => ∃ role, ProcessTables s role) ?_ ?_
  · rcases hboot with ⟨role, hroles⟩
    exact ⟨role, hroles, fun q hq => absurd hq List.not_mem_nil⟩
  · rintro s e s' ⟨role, h⟩ hallowed hstep
    exact h.step hallowed hstep

/-- Whatever tables have been built, `clear_uptentries` on one of them leaves no user address
translated in it, keeps its slots 510 and 511, and leaves the translation and the flags of every
address in every other table as they were. -/
theorem clearUptentries_isolated {m₀ : Machine} {es : List TableEvent} (hboot : Consistent m₀)
    (hrun : Run tableStep TableAllowed ⟨m₀, []⟩ es s) (hcurrent : s.machine.current ∈ s.tables) :
    ∃ m', s.machine.clearUptentries = some m' ∧
      (∀ va, (pml4Index va : Nat) < 510 → m'.translate s.machine.current va = none) ∧
      (∀ i : Slot, i = 510 ∨ i = 511 →
        m'.mem s.machine.current i = s.machine.mem s.machine.current i) ∧
      ∀ q ∈ s.tables, q ≠ s.machine.current → ∀ va,
        m'.translate q va = s.machine.translate q va ∧
          m'.entries q (pathOf va) = s.machine.entries q (pathOf va) := by
  rcases processTables_of_run hboot hrun with ⟨role, h⟩
  rcases clearUptentries_spec h.roles (h.tops _ hcurrent).1 with ⟨m', hclear, -, hcleared, htop⟩
  refine ⟨m', hclear, fun va hva => ?_, fun i hi => ?_, fun q hq hne va => ?_⟩
  · have hzero : m'.mem s.machine.current (pml4Index va) = 0 := by
      rw [htop, if_pos hva]
    have hchild : m'.child s.machine.current (pml4Index va) = none := by
      rw [child, hzero]
      exact if_neg (by decide)
    rw [Machine.translate, pathOf, walk, hchild]
    rfl
  · rw [htop, if_neg]
    rcases hi with rfl | rfl <;> decide
  · have hreach : Reaches role q 0 q := Or.inl ⟨[], (h.tops q hq).1, le_rfl⟩
    exact walk_other h.roles hcleared hne (le_of_eq rfl) hreach

/-- The kernel's tables before the first process is made: tables 1 to 4, and free pages
after them. -/
def kernelTables (t : Nat) (i : Slot) : Word :=
  if t = 1 ∧ i = 511 then pageWord 2 ||| 3
  else if t = 2 ∧ i = 510 then pageWord 3 ||| 3
  else if t = 3 ∧ i = 0 then pageWord 4 ||| 3
  else 0

def kernelOnly : Machine where
  mem := kernelTables
  ring := ⟨(List.range 20).map fun k => pageWord (5 + k), 20, by decide⟩
  owner := fun _ => none
  pml4t := 1
  current := 1

def kernelRole (t : Nat) : Role :=
  if t = 1 then .kernel 0
  else if t = 2 then .kernel 1
  else if t = 3 then .kernel 2
  else if t = 4 then .kernel 3
  else .plain

theorem kernelRole_table (t r : Frame) (path : List Slot) : kernelRole t ≠ .table r path := by
  unfold kernelRole
  split_ifs <;> exact Role.noConfusion

/-- An entry in use leads one level down. -/
theorem kernelTables_entry {t : Nat} {i : Slot} (h : kernelTables t i ≠ 0) :
    (t = 1 ∧ i = 511 ∧ kernelTables t i = pageWord 2 ||| 3) ∨
      (t = 2 ∧ kernelTables t i = pageWord 3 ||| 3) ∨
      (t = 3 ∧ kernelTables t i = pageWord 4 ||| 3) := by
  rw [kernelTables] at h ⊢
  split_ifs at h ⊢ with h₁ h₂ h₃
  · exact Or.inl ⟨h₁.1, h₁.2, rfl⟩
  · exact Or.inr (Or.inl ⟨h₂.1, rfl⟩)
  · exact Or.inr (Or.inr ⟨h₃.1, rfl⟩)
  · exact absurd rfl h

theorem kernelOnly_pages :
    kernelOnly.ring.contents = (List.range 20).map fun k => pageWord (5 + k) :=
  List.take_of_length_le (by decide)

theorem kernelOnly_consistent : Consistent kernelOnly := by
  refine ⟨kernelRole, rfl, by decide, ?entries, ?low, ?root, ?depth, ?beyond, ?freeLow, ?nodup,
    ?plain⟩
  case entries =>
    intro t i
    change EntryOk (pageWord 2 ||| 3) kernelRole (kernelRole t) i (kernelTables t i)
    -- only the self entry and the entries for the kernel are not zero
    by_cases hzero : kernelTables t i = 0
    · by_cases ht : t = 1
      · subst ht
        refine ⟨fun _ _ => hzero, fun _ hi => ?_, fun _ _ hpresent => absurd hzero hpresent.ne_zero⟩
        subst hi
        rfl
      · rw [hzero]
        refine EntryOk.zero ?_
        rw [kernelRole, if_neg ht]
        split_ifs <;> simp
    · rcases kernelTables_entry hzero with ⟨rfl, rfl, -⟩ | ⟨rfl, he⟩ | ⟨rfl, he⟩
      · exact ⟨fun _ h => absurd h (by decide), fun _ _ => rfl, fun _ _ _ => by decide⟩
      · rw [he]
        exact ⟨fun h => absurd h (by decide), fun h => absurd h (by decide), fun _ _ _ => by decide⟩
      · rw [he]
        exact ⟨fun h => absurd h (by decide), fun h => absurd h (by decide), fun _ _ _ => by decide⟩
  case low =>
    intro t ht
    by_contra hle
    refine ht ?_
    rw [kernelRole, if_neg (by omega), if_neg (by omega), if_neg (by omega), if_neg (by omega)]
  case root =>
    intro t r h
    exact absurd h (kernelRole_table t r [])
  case depth =>
    intro t r path h
    exact absurd h (kernelRole_table t r path)
  case beyond =>
    intro t ht i
    change kernelTables t i = 0
    rw [kernelTables, if_neg (by omega), if_neg (by omega), if_neg (by omega)]
  case freeLow =>
    intro p hp
    rw [kernelOnly_pages] at hp
    exact (mem_pageWords (by decide) hp).1
  case nodup =>
    rw [kernelOnly_pages]
    exact nodup_pageWords (by decide)
  case plain =>
    intro p hp
    rw [kernelOnly_pages] at hp
    have hframe := (mem_pageWords (by decide) hp).2.1
    rw [kernelRole, if_neg (by omega), if_neg (by omega), if_neg (by omega), if_neg (by omega)]

/-- A process and its child have the page at `0x400000` mapped to one frame; what the parent clears
leaves the child's mapping. -/
theorem clearUptentries_isolated_pair :
    ∃ s m', Run tableStep TableAllowed ⟨kernelOnly, []⟩
        [.create, .switch 5, .map 5 0x400000 0x12000 4096, .fork 5] s ∧
      s.machine.clearUptentries = some m' ∧ m'.translate 5 0x400000 = none ∧
      m'.translate 9 0x400000 = some 0x12 := by
  have hreplay : (replay tableStep TableAllowed
      [.create, .switch 5, .map 5 0x400000 0x12000 4096, .fork 5] ⟨kernelOnly, []⟩).map
        (fun s => decide (s.tables = [5, 9] ∧ s.machine.current = 5 ∧
          s.machine.translate 9 0x400000 = some 0x12)) = some true := by
    decide +kernel
  rcases Option.map_eq_some_iff.1 hreplay with ⟨s, hs, hcheck⟩
  rcases of_decide_eq_true hcheck with ⟨htables, hcurrent, hchild⟩
  have hrun := run_of_replay hs
  rcases clearUptentries_isolated kernelOnly_consistent hrun
    (by rw [htables, hcurrent]; decide) with
    ⟨m', hclear, hnone, -, hother⟩
  rw [hcurrent] at hnone hother
  refine ⟨s, m', hrun, hclear, hnone _ (by decide), ?_⟩
  rw [(hother 9 (by rw [htables]; decide) (by decide) _).1, hchild]

end Paging

end OswpKernel
