import OswpKernel.Paging.CopyOnWrite
import OswpKernel.Paging.Isolation

/-!
# Kernel half — slot 511 of every process

Slot 511 of a top table leads to the tables of the kernel.  Slot 510 of a forked process leads to
its top table, and `interrupt4` lets a process name that slot: the second turn of
`map_user_address` then stores a new table behind the last entry, which is slot 511
(`not_kernelHalf_shared`).  In runs in which no fault writes through slot 510, every copy-on-write
fault finds the page table it looks for, and no mapping call goes over the end of its 1 GiB, all
slots 511 stay the kernel's (`kernelHalf_shared`).
-/

namespace OswpKernel

namespace Paging

open Machine Execution

variable {m m' : Machine} {role role' : Frame → Role} {table : Frame} {address phys v size : Word}
  {mapped : List Frame} {s s' : System} {e : SystemEvent} {S : Frame → Prop}

/-! ## The routines of `exec` -/

/-- Taking pages off the list touches no table. -/
theorem bumpFrom_extends {base : Word} {who : Owner} (h : Roles m role)
    (hbump : m.bumpFrom base who size = some (v, m')) :
    Roles m' role ∧ Extends S m role m' role := by
  rcases bumpFrom_cases hbump with ⟨-, -, rfl⟩ | ⟨hfit, ret, -, -, rfl⟩
  · exact ⟨h, Extends.refl S m' role⟩
  · refine ⟨h.takePages hfit, Extends.of_tops (fun _ _ => rfl) (fun t ht => ?_)
      (fun _ _ _ _ => rfl) rfl
      rfl rfl⟩
    exact ⟨ht.1, ht.2.1, fun p hp => ht.2.2 p ((take_contents_suffix m.ring hfit).subset hp)⟩

theorem bump_extends (h : Roles m role) (hpos : 0 < Allocator.numOfPages size)
    (hbump : bump size m = some (v, m')) :
    ∃ role', Roles m' role' ∧ Extends S m role m' role' := by
  rcases bumpFuel_spec h hpos hbump with ⟨-, rfl⟩ | ⟨role', f, _, _, _, -, hhanded, -⟩
  · exact ⟨role, h, Extends.refl S m' role⟩
  · exact ⟨role', hhanded.roles, hhanded.grown.extends h⟩

theorem allocate_extends (h : Roles m role) (hpos : 0 < Allocator.numOfPages size)
    (halloc : allocate size m = some m') : ∃ role', Roles m' role' ∧ Extends S m role m' role' := by
  rw [allocate] at halloc
  rcases Option.bind_eq_some_iff.1 halloc with ⟨⟨v, m₁⟩, hbump, hptr⟩
  rcases Option.bind_eq_some_iff.1 hptr with ⟨f, -, hret⟩
  cases hret
  exact bump_extends h hpos hbump

/-- The allocations for a segment, and the call that maps it. -/
theorem mapSegment_cases {phdr : ProgramHeader} (h : Roles m role)
    (hmap : mapSegment table phdr m = some m') :
    ∃ role₁ m₁ phy mapped, Roles m₁ role₁ ∧ Extends S m role m₁ role₁ ∧
      mapUserAddress phdr.pVaddr phy (toInt32 phdr.pMemsz) table 7 m₁ = some (mapped, m') := by
  rw [mapSegment] at hmap
  rcases Option.bind_eq_some_iff.1 hmap with ⟨m₁, hvma, hmap⟩
  rcases Option.bind_eq_some_iff.1 hmap with ⟨m₂, hfile, hmap⟩
  rcases Option.bind_eq_some_iff.1 hmap with ⟨⟨phy, m₃⟩, hpages, hmap⟩
  rcases Option.bind_eq_some_iff.1 hmap with ⟨⟨mapped, m₄⟩, hpage, hret⟩
  cases hret
  rcases allocate_extends (S := S) h (by decide) hvma with ⟨role₁, h₁, hg₁⟩
  have hfile' : ∃ role₂, Roles m₂ role₂ ∧ Extends S m₁ role₁ m₂ role₂ := by
    rw [allocateFile] at hfile
    split_ifs at hfile
    · exact allocate_extends h₁ (by decide) hfile
    · cases hfile
      exact ⟨role₁, h₁, Extends.refl S m₁ role₁⟩
  rcases hfile' with ⟨role₂, h₂, hg₂⟩
  rcases bumpFrom_extends (S := S) h₂ hpages with ⟨h₃, hg₃⟩
  exact ⟨role₂, m₃, phy, mapped, h₃, (hg₁.trans hg₂).trans hg₃, hpage⟩

theorem mapSegment_extends {phdr : ProgramHeader} (h : Roles m role)
    (htable : role table = .table table []) (hi : (pml4Index phdr.pVaddr : Nat) < 510)
    (hmap : mapSegment table phdr m = some m') :
    ∃ role', Roles m' role' ∧ Extends S m role m' role' := by
  rcases mapSegment_cases (S := S) h hmap with ⟨role₁, m₁, phy, mapped, h₁, hg₁, hpage⟩
  rcases mapUserAddress_spec (S := S) h₁ (hg₁.table htable) hi hpage with ⟨role', h', hg'⟩
  exact ⟨role', h', hg₁.trans hg'⟩

/-- The heap and the stack: pages for the process, and an area. -/
theorem area_extends {who : Owner} {base : Word} (h : Roles m role) {m₁ : Machine}
    (hpages : m.bumpFrom base who size = some (v, m₁)) (halloc : allocate 48 m₁ = some m') :
    ∃ role', Roles m' role' ∧ Extends S m role m' role' := by
  rcases bumpFrom_extends (S := S) h hpages with ⟨h₁, hg₁⟩
  rcases allocate_extends (S := S) h₁ (by decide) halloc with ⟨role', h', hg'⟩
  exact ⟨role', h', hg₁.trans hg'⟩

/-! ## The routines of the fault handler -/

/-- A copy-on-write fault for an address whose page table is there. -/
theorem copyPage_extends {page : Word} (h : Roles m role)
    (htable : role m.current = .table m.current [])
    (htop : m.mem m.current 511 = m.mem m.pml4t 511) (hi : (pml4Index page : Nat) < 510)
    (hpresent : m.walk m.current (upperPath page) ≠ none)
    (hcopy : copyPage m.current page m = some m') :
    ∃ role', Roles m' role' ∧ Extends (fun _ => False) m role m' role' := by
  rcases h.userPath_upper htable hi hpresent with ⟨pdpt, pdt, pt, hpath⟩
  rcases hpath.raised (S := fun _ => False) h hi with ⟨hraised, hg, hchild⟩
  cases hleaf : m.child pt (ptIndex page) with
  | none =>
      -- the page is entered, whatever page it is
      have habsent : ¬ Present ((raised m m.current pdpt pdt page).mem pt (ptIndex page)) := by
        intro hp
        have hsome := (hchild pt (ptIndex page)).symm.trans (child_eq_some.2 ⟨hp, rfl⟩)
        rw [hleaf] at hsome
        cases hsome
      rw [copyPage_eq, copyWalk_present h hpath hi, Option.bind_some] at hcopy
      rcases copyInto_absent habsent hcopy with ⟨phys, m₁, hphys, rfl⟩
      rcases bumpFrom_extends (S := fun _ => False) hraised hphys with ⟨h₁, hg₁⟩
      have hentry : UserEntry role m.current [pml4Index page, pdptIndex page, pdtIndex page]
          (ptIndex page) (phys ||| 7) := userEntry_leaf rfl (by decide) (by decide)
      rcases h₁.writeUser (S := fun _ => False) hpath.roles.2.2.2
        (fun hnil => absurd hnil (by simp))
        (Or.inr hentry) with ⟨h', hg'⟩
      exact ⟨role, h', (hg.trans hg₁).trans hg'⟩
  | some old =>
      exact copyPage_spec h htable htop hi (hpath.translate.trans hleaf)
        (hpath.copy_free h hi hleaf hcopy) hcopy

/-- A page that is there is left alone. -/
theorem enterPage_present {c c' : Cursor} {flags : MapFlags} {i : Slot} (hi : c.pti = i)
    (hpresent : Present (m.mem c.pt i)) (henter : enterPage flags (c, m) = some (c', m')) :
    c' = c.advance ∧ m' = m := by
  rcases enterPage_cases henter with ⟨hlt, ⟨-, rfl, rfl⟩ | ⟨habsent, -, -⟩⟩
  · exact ⟨rfl, rfl⟩
  · rw [show (⟨c.pti, hlt⟩ : Slot) = i from Fin.ext hi] at habsent
    exact absurd hpresent habsent

/-- Where the page of the address and the page behind it are mapped, nothing is written. -/
theorem mapUserAddress_mapped {flag : Word} (hmapped : m.translate table address ≠ none)
    (hbehind : BehindMapped m table address)
    (h : mapUserAddress address phys 4096 table flag m = some (mapped, m')) : m' = m := by
  rcases mapUserAddress_turns h with ⟨pdpt, pdt, pt, m₃, c₁, m₅, c, hpt, henter, hturn₂, -⟩
  have hfirst := (hpt.present_iff (ptIndex address)).2 hmapped
  rcases hbehind with ⟨hlt, hnext⟩
  have hsecond := (hpt.present_iff ⟨_, hlt⟩).2 hnext
  -- the walk found all three tables
  have hsame : m₃ = m := by
    rcases hpt with ⟨hm, -⟩ | ⟨-, hzero⟩
    · exact hm
    · exact absurd (hzero (ptIndex address)) hfirst.ne_zero
  subst hsame
  have hpti : (cursorAt address phys pdpt pdt pt).pti = ptIndex address := rfl
  rcases enterPage_present hpti hfirst henter with ⟨rfl, rfl⟩
  rcases mapStep_cases (pdptIndex address).isLt.ne (pdtIndex address).isLt.ne hturn₂ with
    ⟨-, henter⟩ | ⟨hroll, -⟩
  · exact (enterPage_present (i := ⟨_, hlt⟩) rfl hsecond henter).2
  · exact absurd hroll hlt.ne

/-! ## Runs -/

/-- What a process may ask for: `exec` maps segments in the lower half, and faults come from
addresses outside slot 511. -/
def SystemAllowed (s : System) : SystemEvent → Prop
  | .create => True
  | .switch table => table ∈ s.tables
  | .bump size => 0 < Allocator.numOfPages size
  | .segment _ phdr => s.machine.current ∈ s.tables ∧ (pml4Index phdr.pVaddr : Nat) < 256
  | .fault arg1 => s.machine.current ∈ s.tables ∧ pml4Index arg1 ≠ 511
  | _ => s.machine.current ∈ s.tables

instance (s : System) (e : SystemEvent) : Decidable (SystemAllowed s e) :=
  match e with
  | .create => inferInstanceAs (Decidable True)
  | .switch _ => inferInstanceAs (Decidable (_ ∈ _))
  | .bump _ => inferInstanceAs (Decidable (_ < _))
  | .segment _ _ => inferInstanceAs (Decidable (_ ∈ _ ∧ _ < _))
  | .fault _ => inferInstanceAs (Decidable (_ ∈ _ ∧ _ ≠ _))
  | .fork _ | .clearUptentries | .heap | .stack =>
      inferInstanceAs (Decidable (s.machine.current ∈ s.tables))

/-- A copy-on-write fault finds the page table of the address; another one in slot 510 finds both
pages that `map_user_address` goes over. -/
def FaultOrderly (s : System) : SystemEvent → Prop
  | .fault arg1 =>
      if IsCowEnabled s.machine (pml4Index arg1) then
        s.machine.walk s.machine.current (upperPath arg1) ≠ none
      else pml4Index arg1 = 510 → s.machine.translate s.machine.current arg1 ≠ none ∧
        BehindMapped s.machine s.machine.current arg1
  | _ => True

instance (s : System) (e : SystemEvent) : Decidable (FaultOrderly s e) :=
  match e with
  | .fault arg1 => inferInstanceAs (Decidable (if IsCowEnabled s.machine (pml4Index arg1) then
      s.machine.walk s.machine.current (upperPath arg1) ≠ none
      else pml4Index arg1 = 510 → s.machine.translate s.machine.current arg1 ≠ none ∧
        BehindMapped s.machine s.machine.current arg1))
  | .create | .switch _ | .bump _ | .fork _ | .clearUptentries | .segment _ _ | .heap
  | .stack => inferInstanceAs (Decidable True)

def System.processes (s : System) : Processes := ⟨s.machine, s.tables⟩

/-- Slots 510 and 511 are not copy-on-write. -/
theorem ProcessTables.cow_lt (h : ProcessTables s.processes role)
    (hcurrent : s.machine.current ∈ s.tables) {i : Slot} (hi : i ≠ 511)
    (hcow : IsCowEnabled s.machine i) : (i : Nat) < 510 := by
  by_contra hge
  have h510 : i = 510 := by
    have h₁ : (i : Nat) ≠ 511 := fun heq => hi (Fin.ext heq)
    have h₂ := i.isLt
    exact Fin.ext (by omega)
  subst h510
  have hrole : role s.machine.current = .table s.machine.current [] := (h.tops _ hcurrent).1
  have hlow : s.machine.current < 2 ^ 19 := h.roles.low _ (by rw [hrole]; exact Role.noConfusion)
  have hok := h.roles.entries s.machine.current 510
  rw [show s.processes.machine = s.machine from rfl, hrole] at hok
  simp only [EntryOk] at hok
  rw [if_neg (by decide), if_pos (by decide)] at hok
  rcases hok with hzero | hself | hbeyond
  · rw [IsCowEnabled, hzero] at hcow
    exact absurd hcow.1 (by decide)
  · rw [IsCowEnabled, hself, has_or] at hcow
    exact hcow.1.elim (pageWord_not_has hlow (by decide)) (by decide)
  · rw [IsCowEnabled, hbeyond] at hcow
    exact absurd hcow.1 (by decide)

/-- The tables of the processes of a system. -/
def SystemTables (s : System) : Prop := ∃ role, ProcessTables s.processes role

theorem SystemTables.machine (hmachine : s'.machine = m') (htables : s'.tables = s.tables)
    (h : ProcessTables s.processes role)
    (hextends : ∃ role', Roles m' role' ∧ Extends (fun _ => False) s.machine role m' role') :
    SystemTables s' := by
  rcases hextends with ⟨role', hroles, hextends⟩
  have hnext := h.extend hroles hextends
  subst hmachine
  refine ⟨role', ?_⟩
  rw [System.processes, htables]
  exact hnext

/-- The fault handler. -/
theorem SystemTables.fault {arg1 : Word} (h : ProcessTables s.processes role)
    (hcurrent : s.machine.current ∈ s.tables) (hslot : pml4Index arg1 ≠ 511)
    (horderly : FaultOrderly s (.fault arg1)) (hfault : interrupt4 arg1 s = some (mapped, s')) :
    SystemTables s' := by
  rcases h.tops _ hcurrent with ⟨hrole, htop⟩
  rw [FaultOrderly] at horderly
  rw [interrupt4] at hfault
  split_ifs at hfault horderly with hcow
  · rcases Option.bind_eq_some_iff.1 hfault with ⟨m', hcopy, hret⟩
    cases hret
    exact SystemTables.machine (s := s) rfl rfl h
      (copyPage_extends h.roles hrole htop (h.cow_lt hcurrent hslot hcow) horderly hcopy)
  · rcases Option.bind_eq_some_iff.1 hfault with ⟨⟨mapped', m'⟩, hmap, hret⟩
    cases hret
    refine SystemTables.machine (s := s) rfl rfl h ?_
    by_cases h510 : pml4Index arg1 = 510
    · rcases horderly h510 with ⟨hmapped, hbehind⟩
      rw [mapUserAddress_mapped hmapped hbehind hmap]
      exact ⟨role, h.roles, Extends.refl _ s.machine role⟩
    · have hi : (pml4Index arg1 : Nat) < 510 := by
        have h₁ : (pml4Index arg1 : Nat) ≠ 510 := fun heq => h510 (Fin.ext heq)
        have h₂ : (pml4Index arg1 : Nat) ≠ 511 := fun heq => hslot (Fin.ext heq)
        have h₃ := (pml4Index arg1).isLt
        omega
      exact mapUserAddress_spec h.roles hrole hi hmap

theorem SystemTables.step (h : SystemTables s) (hallowed : SystemAllowed s e)
    (horderly : FaultOrderly s e) (hstep : systemStep s e = some s') : SystemTables s' := by
  rcases h with ⟨role, h⟩
  cases e with
  | create =>
      rw [systemStep] at hstep
      rcases Option.bind_eq_some_iff.1 hstep with ⟨⟨new, m'⟩, hcreate, hret⟩
      cases hret
      -- the new top table gets the entry for the kernel when it is made
      rcases mapUserPml4_spec h.roles hcreate with ⟨role', hmade⟩
      exact ⟨role', (h.add hmade).switch new⟩
  | switch table =>
      cases hstep
      exact ⟨role, h.switch table⟩
  | bump size =>
      rw [systemStep] at hstep
      rcases Option.bind_eq_some_iff.1 hstep with ⟨⟨v, m'⟩, hbump, hret⟩
      cases hret
      exact SystemTables.machine (s := s) rfl rfl h (bump_extends h.roles hallowed hbump)
  | fork vmas =>
      rw [systemStep] at hstep
      rcases Option.bind_eq_some_iff.1 hstep with ⟨⟨new, m'⟩, hdup, hret⟩
      cases hret
      rcases h.tops _ hallowed with ⟨hrole, htop⟩
      -- the child's top table is a new one too; the parent's keeps its entry for the kernel
      rcases duplicatePageTable_spec h.roles hrole htop hdup with ⟨role', hmade⟩
      exact ⟨role', h.add hmade⟩
  | clearUptentries =>
      rw [systemStep] at hstep
      rcases Option.bind_eq_some_iff.1 hstep with ⟨m', hclear, hret⟩
      cases hret
      rcases h.tops _ hallowed with ⟨hrole, -⟩
      rcases clearUptentries_spec h.roles hrole with ⟨m'', hclear', hroles, hcleared, htop⟩
      have hsame : m'' = m' := Option.some_inj.1 (hclear'.symm.trans hclear)
      subst hsame
      exact SystemTables.machine (s := s) rfl rfl h ⟨role, hroles, hcleared.extends h.roles htop⟩
  | segment first phdr =>
      rw [systemStep] at hstep
      rcases Option.bind_eq_some_iff.1 hstep with ⟨m', hmap, hret⟩
      cases hret
      -- a segment lies below slot 510, so the loop writes below it
      have hextends := mapSegment_extends (S := fun _ => False) h.roles (h.tops _ hallowed.1).1
        (lt_trans hallowed.2 (by decide)) hmap
      refine SystemTables.machine (s := s) ?_ ?_ h hextends <;> split_ifs <;> rfl
  | heap =>
      rw [systemStep] at hstep
      rcases Option.bind_eq_some_iff.1 hstep with ⟨⟨vma, m'⟩, hheap, hret⟩
      cases hret
      rw [createheap] at hheap
      rcases Option.bind_eq_some_iff.1 hheap with ⟨⟨heap, m₁⟩, hpages, hheap⟩
      rcases Option.bind_eq_some_iff.1 hheap with ⟨m₂, halloc, hret⟩
      cases hret
      exact SystemTables.machine (s := s) rfl rfl h (area_extends h.roles hpages halloc)
  | stack =>
      rw [systemStep] at hstep
      rcases Option.bind_eq_some_iff.1 hstep with ⟨⟨vma, m'⟩, hstack, hret⟩
      cases hret
      rw [createStack] at hstack
      rcases Option.bind_eq_some_iff.1 hstack with ⟨⟨stack, m₁⟩, hpages, hstack⟩
      rcases Option.bind_eq_some_iff.1 hstack with ⟨m₂, halloc, hret⟩
      rcases Prod.mk.inj (Option.some_inj.1 hret) with ⟨-, rfl⟩
      exact SystemTables.machine (s := s) rfl rfl h (area_extends h.roles hpages halloc)
  | fault arg1 =>
      rw [systemStep] at hstep
      rcases Option.bind_eq_some_iff.1 hstep with ⟨⟨mapped, s₁⟩, hfault, hret⟩
      cases hret
      -- the fault is the one event that may write above, which `FaultOrderly` excludes
      exact SystemTables.fault h hallowed.1 hallowed.2 horderly hfault

/-- A step that leaves slot 511 alone. -/
def KeepsKernelHalf (s : System) (e : SystemEvent) : Prop := FaultOrderly s e ∧ StaysInGiB s e

instance (s : System) (e : SystemEvent) : Decidable (KeepsKernelHalf s e) :=
  inferInstanceAs (Decidable (_ ∧ _))

theorem systemTables_of_run {m₀ : Machine} {vmas : Frame → List Vma} {es : List SystemEvent}
    (hboot : Consistent m₀)
    (hrun : Run systemStep (fun s e => SystemAllowed s e ∧ KeepsKernelHalf s e) ⟨m₀, [], vmas⟩
      es s) : SystemTables s := by
  refine hrun.invariant SystemTables ?_ fun s e s' h hallowed => h.step hallowed.1 hallowed.2.1
  rcases hboot with ⟨role, hroles⟩
  exact ⟨role, hroles, fun q hq => absurd hq List.not_mem_nil⟩

/-- In every run whose faults are orderly, and whose mapping calls stay in their 1 GiB, slot 511 of
every process is that of the kernel. -/
theorem kernelHalf_shared {m₀ : Machine} {vmas : Frame → List Vma} {es : List SystemEvent}
    (hboot : Consistent m₀)
    (hrun : Run systemStep (fun s e => SystemAllowed s e ∧ KeepsKernelHalf s e) ⟨m₀, [], vmas⟩
      es s) :
    ∀ q ∈ s.tables, s.machine.mem q 511 = s.machine.mem s.machine.pml4t 511 := by
  rcases systemTables_of_run hboot hrun with ⟨role, h⟩
  exact fun q hq => (h.tops q hq).2

/-- The address with the indices 510, 510, 510 and 511: slot 511 of the top table, seen through slot
510. -/
def lastSlotAddress : Word := 0xffffff7fbfdff000

/-- A process, its child, a fault in the child, and a fault on a page the two share. -/
def forkAndFault : List SystemEvent :=
  [.create, .segment true textSegment, .heap, .stack, .fork [segmentVma textSegment], .switch 5,
    .fault 0x400000]

/-- The slots 511 of a process and its child. -/
theorem kernelHalf_shared_forked : ∃ s,
    Run systemStep (fun s e => SystemAllowed s e ∧ KeepsKernelHalf s e) beforeInit forkAndFault s ∧
      s.tables.length = 2 ∧
      ∀ q ∈ s.tables, s.machine.mem q 511 = s.machine.mem s.machine.pml4t 511 := by
  have hreplay : (replay systemStep (fun s e => SystemAllowed s e ∧ KeepsKernelHalf s e)
      forkAndFault beforeInit).map (fun s => s.tables.length) = some 2 := by
    decide +kernel
  rcases Option.map_eq_some_iff.1 hreplay with ⟨s, hs, hlength⟩
  have hrun := run_of_replay hs
  exact ⟨s, hrun, hlength, kernelHalf_shared kernelOnly_consistent hrun⟩

/-- A forked process names slot 510 in all three upper levels: the page behind the last one is
entered in a new table, and that table is stored in slot 511. -/
theorem not_kernelHalf_shared : ∃ es s, Run systemStep SystemAllowed beforeInit es s ∧
    ∃ q ∈ s.tables, s.machine.mem q 511 ≠ s.machine.mem s.machine.pml4t 511 := by
  have hreplay : ((replay systemStep SystemAllowed [.create, .fork []] beforeInit).bind fun s =>
      s.tables.getLast?.bind fun child =>
      (replay systemStep SystemAllowed [.switch child, .fault lastSlotAddress] s).map fun s' =>
        decide (child ∈ s'.tables ∧
          s'.machine.mem child 511 ≠ s'.machine.mem s'.machine.pml4t 511)) = some true := by
    decide +kernel
  rcases Option.bind_eq_some_iff.1 hreplay with ⟨s, hs, hreplay⟩
  rcases Option.bind_eq_some_iff.1 hreplay with ⟨child, -, hreplay⟩
  rcases Option.map_eq_some_iff.1 hreplay with ⟨s', hs', hcheck⟩
  rcases of_decide_eq_true hcheck with ⟨hchild, hslot⟩
  exact ⟨_, s', (run_of_replay hs).trans (run_of_replay hs'), child, hchild, hslot⟩

end Paging

end OswpKernel
