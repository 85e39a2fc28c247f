import OswpKernel.Paging.Fault
import OswpKernel.Paging.Pages
import OswpKernel.Paging.Teardown

/-!
# Isolation — which frames a page fault maps

`interrupt4` computes a frame from the address alone, and `map_user_address` goes over one page more
than it is asked to.  `interrupt4_isolated_iff` says for which addresses every frame that is newly
mapped has been handed out to the process; `not_interrupt4_isolated` is the first access to a heap.
For the last page of a 1 GiB the second turn stores past the end of a table
(`interrupt4_lastPage`).
-/

namespace OswpKernel

namespace Paging

open Machine Execution

variable {m m' m₁ : Machine} {table t next : Frame} {is : List Slot} {i : Slot}
  {address phys flags : Word} {mapped : List Frame} {s s' : System} {arg1 : Word}

/-! ## The walk of `map_user_address` -/

/-- After a part of the walk: all of it was there and nothing has changed, or the last
table is new. -/
def Reached (m₀ : Machine) (table : Frame) (is : List Slot) (t : Frame) (m : Machine) : Prop :=
  (m = m₀ ∧ m₀.walk table is = some t) ∨ (m₀.walk table is = none ∧ ∀ i, m.mem t i = 0)

theorem Reached.descend {m₀ : Machine} {alloc : Machine → Option (Word × Machine)}
    (h : Reached m₀ table is t m) (hdown : descend alloc flags t i m = some (next, m')) :
    Reached m₀ table (is ++ [i]) next m' := by
  have hfresh : ∀ {v : Word} {m₁ : Machine}, m' = (m₁.write t i (linkTo v flags)).clear next →
      ∀ j, m'.mem next j = 0 := by
    rintro v m₁ rfl j
    exact clear_mem_self ..
  rcases h with ⟨rfl, hwalk⟩ | ⟨hwalk, hzero⟩
  · rcases descend_cases hdown with ⟨hpresent, htable, rfl⟩ | ⟨habsent, v, m₁, -, -, hm'⟩
    · refine Or.inl ⟨rfl, ?_⟩
      rw [walk_concat, hwalk, Option.bind_some, frameOf_of_tableAt htable]
      exact if_pos hpresent
    · refine Or.inr ⟨?_, hfresh hm'⟩
      rw [walk_concat, hwalk, Option.bind_some]
      exact if_neg habsent
  · rcases descend_cases hdown with ⟨hpresent, -, -⟩ | ⟨-, v, m₁, -, -, hm'⟩
    · exact absurd (hzero i) hpresent.ne_zero
    · refine Or.inr ⟨?_, hfresh hm'⟩
      rw [walk_concat, hwalk]
      rfl

/-- The entry of the last table is present just when the walk was complete. -/
theorem Reached.present_iff {m₀ : Machine} (h : Reached m₀ table is t m) (i : Slot) :
    Present (m.mem t i) ↔ m₀.walk table (is ++ [i]) ≠ none := by
  rw [walk_concat]
  rcases h with ⟨rfl, hwalk⟩ | ⟨hwalk, hzero⟩
  · rw [hwalk, Option.bind_some, child]
    split_ifs with hpresent <;> simp [hpresent]
  · rw [hwalk, hzero]
    constructor
    · exact fun h => absurd rfl h.ne_zero
    · exact fun h => absurd rfl h

/-! ## The two pages -/

/-- The page behind that of the address, in the same page table, is mapped. -/
def BehindMapped (m : Machine) (table : Frame) (address : Word) : Prop :=
  ∃ hi : (ptIndex address : Nat) + 1 < 512, m.walk table (upperPath address ++ [⟨_, hi⟩]) ≠ none

instance (m : Machine) (table : Frame) (address : Word) :
    Decidable (BehindMapped m table address) :=
  if hi : (ptIndex address : Nat) + 1 < 512 then
    decidable_of_iff (m.walk table (upperPath address ++ [⟨_, hi⟩]) ≠ none)
      ⟨fun h => ⟨hi, h⟩, fun ⟨_, h⟩ => h⟩
  else isFalse fun ⟨h, _⟩ => hi h

/-- A request for one page goes over two. -/
theorem turnsNonneg_page : turnsNonneg (userMapSize 4096) = 2 := by decide

/-- The end of a turn of the loop. -/
structure Entered (c c' : Cursor) (m m' : Machine) (page : Slot) : Prop where
  next : c' = { c.advance with mapped := c'.mapped }
  mapped : c'.mapped = c.mapped ++ if Present (m.mem c.pt page) then [] else [frameOf c.phys]
  kept : ∀ j, j ≠ page → m'.mem c.pt j = m.mem c.pt j

theorem enterPage_entered {c c' : Cursor} {flags : MapFlags} (page : Slot) (hpage : c.pti = page)
    (h : enterPage flags (c, m) = some (c', m')) : Entered c c' m m' page := by
  rcases enterPage_cases h with ⟨hi, ⟨hpresent, rfl, rfl⟩ | ⟨habsent, rfl, rfl⟩⟩
  all_goals
    have heq : (⟨c.pti, hi⟩ : Slot) = page := Fin.ext hpage
  · rw [heq] at hpresent
    refine ⟨rfl, ?_, fun _ _ => rfl⟩
    rw [if_pos hpresent, List.append_nil]
    rfl
  · rw [heq] at habsent ⊢
    refine ⟨rfl, ?_, fun j hj => write_mem_of_ne _ _ (Or.inr hj)⟩
    rw [if_neg habsent]

/-- The two turns of a request for one page: the first one stays in the page table that the walk
ends in. -/
theorem mapUserAddress_turns
    (h : mapUserAddress address phys 4096 table flags m = some (mapped, m')) :
    ∃ pdpt pdt pt m₁ c₁ m₂ c, Reached m table (upperPath address) pt m₁ ∧
      enterPage ⟨flags, 7, 7⟩ (cursorAt address phys pdpt pdt pt, m₁) = some (c₁, m₂) ∧
      mapStep (bump 4096) table ⟨flags, 7, 7⟩ (c₁, m₂) = some (c, m') ∧ mapped = c.mapped := by
  rcases Option.bind_eq_some_iff.1 h with ⟨⟨pdpt, m₃⟩, hdown₁, h⟩
  rcases Option.bind_eq_some_iff.1 h with ⟨⟨pdt, m₄⟩, hdown₂, h⟩
  rcases Option.bind_eq_some_iff.1 h with ⟨⟨pt, m₁⟩, hdown₃, h⟩
  rcases Option.bind_eq_some_iff.1 h with ⟨⟨c₂, m₅⟩, hloop, hret⟩
  rcases Prod.mk.inj (Option.some_inj.1 hret) with ⟨rfl, rfl⟩
  have hstart : Reached m table [] table m := Or.inl ⟨rfl, rfl⟩
  have hpt : Reached m table (upperPath address) pt m₁ :=
    ((hstart.descend hdown₁).descend hdown₂).descend hdown₃
  rw [turnsNonneg_page] at hloop
  rcases Option.bind_eq_some_iff.1 hloop with ⟨⟨c₁, m₂⟩, hturn₁, hloop⟩
  rcases Option.bind_eq_some_iff.1 hloop with ⟨⟨c, m₆⟩, hturn₂, hlast⟩
  rcases Prod.mk.inj (Option.some_inj.1 hlast) with ⟨rfl, rfl⟩
  refine ⟨pdpt, pdt, pt, m₁, c₁, m₂, c, hpt, ?_, hturn₂, rfl⟩
  rcases mapStep_cases (pdptIndex address).isLt.ne (pdtIndex address).isLt.ne hturn₁ with
    ⟨-, henter⟩ | ⟨hroll, -⟩
  · exact henter
  · exact absurd hroll (ptIndex address).isLt.ne

/-- What a request for one page maps: the page itself and the page behind it, so far as they are not
mapped; in the last entry of a page table the page behind it is taken to be in a new table, and that
table must have an entry left in the table above. -/
theorem mapUserAddress_page
    (h : mapUserAddress address phys 4096 table flags m = some (mapped, m')) :
    InGiB address 4096 ∧
      mapped = (if m.translate table address = none then [frameOf (phys &&& physMask)] else []) ++
        if BehindMapped m table address then [] else [frameOf ((phys &&& physMask) + 4096)] := by
  rcases mapUserAddress_turns h with ⟨pdpt, pdt, pt, m₃, c₁, m₅, c, hpt, henter, hturn₂, rfl⟩
  -- the first turn enters the page itself
  have hfirst : Entered (cursorAt address phys pdpt pdt pt) c₁ m₃ m₅ (ptIndex address) :=
    enterPage_entered _ rfl henter
  have hgib : InGiB address 4096 ↔ (pdtIndex address : Nat) * 512 + ptIndex address + 2 ≤ 2 ^ 18 :=
    by rw [InGiB, turnsNonneg_page]
  have hdown := (pdtIndex address).isLt
  rw [hgib]
  have hmapped₁ : c₁.mapped =
      if m.translate table address = none then [frameOf (phys &&& physMask)] else [] := by
    rw [hfirst.mapped]
    by_cases hnone : m.translate table address = none
    · have habsent : ¬ Present (m₃.mem pt (ptIndex address)) := fun hpresent =>
        (hpt.present_iff _).1 hpresent hnone
      rw [if_pos hnone]
      exact congrArg _ (if_neg habsent)
    · rw [if_neg hnone]
      exact congrArg _ (if_pos ((hpt.present_iff _).2 hnone))
  rw [← hmapped₁]
  rw [hfirst.next] at hturn₂
  rcases mapStep_cases (pdptIndex address).isLt.ne (pdtIndex address).isLt.ne hturn₂ with
    ⟨hin, henter⟩ | ⟨hroll, v, next, m₇, hi, -, -, henter⟩
  · -- the second one enters the page behind it
    have hlt : (ptIndex address : Nat) + 1 < 512 :=
      lt_of_le_of_ne (Nat.succ_le_of_lt (ptIndex address).isLt) hin
    refine ⟨by omega, ?_⟩
    have hsecond := enterPage_entered ⟨_, hlt⟩ rfl henter
    have hother : m₅.mem pt ⟨_, hlt⟩ = m₃.mem pt ⟨_, hlt⟩ :=
      hfirst.kept _ fun heq => Nat.succ_ne_self _ (congrArg Fin.val heq)
    have hiff : BehindMapped m table address ↔ Present (m₅.mem pt ⟨_, hlt⟩) := by
      rw [hother, hpt.present_iff]
      exact ⟨fun ⟨_, h⟩ => h, fun h => ⟨hlt, h⟩⟩
    rw [hsecond.mapped]
    by_cases hbehind : BehindMapped m table address
    · rw [if_pos hbehind]
      exact congrArg _ (if_pos (hiff.1 hbehind))
    · rw [if_neg hbehind]
      exact congrArg _ (if_neg fun h => hbehind (hiff.2 h))
  · -- or, behind the last entry of the page table, a page in a new one
    have hlast : (ptIndex address : Nat) + 1 = 512 := hroll
    have hnext : (pdtIndex address : Nat) + 1 < 512 := hi
    refine ⟨by omega, ?_⟩
    have hsecond := enterPage_entered 0 rfl henter
    have hbehind : ¬ BehindMapped m table address := fun ⟨hlt, _⟩ => Nat.ne_of_lt hlt hroll
    have hzero : ¬ Present (((m₇.clear next).write pdt ⟨_, hi⟩ (linkTo v 7)).mem next 0) := by
      rw [write_mem_of_ne _ _ (Or.inr fun h => absurd (congrArg Fin.val h)
        (Nat.succ_ne_zero _).symm),
        clear_mem_self]
      exact fun h => absurd rfl h.ne_zero
    rw [hsecond.mapped, if_neg hbehind]
    exact congrArg _ (if_neg hzero)

/-! ## Isolation -/

/-- The frame has been handed out for the current process, and is not free. -/
def HandedOut (m : Machine) (f : Frame) : Prop :=
  m.owner f = some (.process m.current) ∧ ∀ p ∈ m.ring.contents, frameOf p ≠ f

instance (m : Machine) (f : Frame) : Decidable (HandedOut m f) :=
  -- over the list, not over all words
  have : Decidable (∀ p ∈ m.ring.contents, frameOf p ≠ f) := List.decidableBAll _ _
  inferInstanceAs (Decidable (_ ∧ _))

/-- The physical address that the handler maps the page of `arg1` to. -/
def targetPage (s : System) (arg1 : Word) : Word :=
  (faultTarget (s.vmas s.machine.current) arg1).1 &&& physMask

/-- The page is not the last one of its 1 GiB; it, and the page behind it, are mapped, or the frame
for them has been handed out. -/
def FaultClean (s : System) (arg1 : Word) : Prop :=
  InGiB arg1 4096 ∧
  (s.machine.translate s.machine.current arg1 = none →
    HandedOut s.machine (frameOf (targetPage s arg1))) ∧
  (¬ BehindMapped s.machine s.machine.current arg1 →
    HandedOut s.machine (frameOf (targetPage s arg1 + 4096)))

instance (s : System) (arg1 : Word) : Decidable (FaultClean s arg1) :=
  inferInstanceAs (Decidable (_ ∧ _))

/-- Which frames a fault maps. -/
theorem interrupt4_mapped (hslot : pml4Index arg1 ≠ 511)
    (hcow : ¬ IsCowEnabled s.machine (pml4Index arg1))
    (h : interrupt4 arg1 s = some (mapped, s')) :
    InGiB arg1 4096 ∧
      mapped = (if s.machine.translate s.machine.current arg1 = none
          then [frameOf (targetPage s arg1)] else []) ++
        if BehindMapped s.machine s.machine.current arg1 then []
          else [frameOf (targetPage s arg1 + 4096)] := by
  rw [interrupt4, if_neg hcow, if_neg hslot] at h
  rcases Option.bind_eq_some_iff.1 h with ⟨⟨mapped₁, m⟩, hmap, hret⟩
  rcases Prod.mk.inj (Option.some_inj.1 hret) with ⟨rfl, -⟩
  exact mapUserAddress_page hmap

/-- A fault on the last page of a 1 GiB stores past the end of a second-level table. -/
theorem interrupt4_lastPage (hslot : pml4Index arg1 ≠ 511)
    (hcow : ¬ IsCowEnabled s.machine (pml4Index arg1)) (hlast : ¬ InGiB arg1 4096) :
    interrupt4 arg1 s = none := by
  rw [Option.eq_none_iff_forall_ne_some]
  rintro ⟨mapped, s'⟩ h
  exact hlast (interrupt4_mapped hslot hcow h).1

/-- A fault maps only frames that have been handed out to the process, just when the computed frames
have been, for the page and for the page behind it. -/
theorem interrupt4_isolated_iff (hslot : pml4Index arg1 ≠ 511)
    (hcow : ¬ IsCowEnabled s.machine (pml4Index arg1))
    (h : interrupt4 arg1 s = some (mapped, s')) :
    (∀ f ∈ mapped, HandedOut s.machine f) ↔ FaultClean s arg1 := by
  rcases interrupt4_mapped hslot hcow h with ⟨hgib, rfl⟩
  simp only [List.mem_append]
  constructor
  · intro hall
    refine ⟨hgib, fun hnone => hall _ (Or.inl ?_), fun hbehind => hall _ (Or.inr ?_)⟩
    · rw [if_pos hnone]
      exact List.mem_singleton_self _
    · rw [if_neg hbehind]
      exact List.mem_singleton_self _
  · rintro ⟨-, hfirst, hsecond⟩ f (hf | hf)
    · split_ifs at hf with hnone
      · rw [List.mem_singleton.1 hf]
        exact hfirst hnone
      · cases hf
    · split_ifs at hf with hbehind
      · cases hf
      · rw [List.mem_singleton.1 hf]
        exact hsecond hbehind

/-- No mapping call of the step goes over the end of its 1 GiB. -/
def StaysInGiB (s : System) : SystemEvent → Prop
  | .segment _ phdr => InGiB phdr.pVaddr (toInt32 phdr.pMemsz)
  | .fault arg1 => pml4Index arg1 ≠ 511 → ¬ IsCowEnabled s.machine (pml4Index arg1) →
      InGiB arg1 4096
  | _ => True

instance (s : System) (e : SystemEvent) : Decidable (StaysInGiB s e) := by
  cases e <;> unfold StaysInGiB <;> infer_instance

/-- In a run from `start` over the events `es`, in which no call went over the end of its 1 GiB yet,
the address `arg1` faults in the state `before`. -/
structure FaultIn (start : System) (es : List SystemEvent) (before : System) (arg1 : Word) :
    Prop where
  reached : ∃ es₁ es₂, es = es₁ ++ .fault arg1 :: es₂ ∧ Run systemStep StaysInGiB start es₁ before
  slot : pml4Index arg1 ≠ 511
  notCow : ¬ IsCowEnabled before.machine (pml4Index arg1)

/-- The kernel before the first process is made. -/
def beforeInit : System := ⟨kernelOnly, [], fun _ => []⟩

/-- A segment of 100 bytes at `0x400000`. -/
def textSegment : ProgramHeader := ⟨1, 5, 0, 0x400000, 100, 100⟩

/-- A process with the tables 1 to 4; its heap is the pages 6 and 7, and none of it is mapped. -/
def heapReady : System where
  machine :=
    { mem := fun t i =>
        if t = 1 ∧ i = pml4Index USERBASE then pageWord 2 ||| 7
        else if t = 2 ∧ i = pdptIndex USERBASE then pageWord 3 ||| 7
        else if t = 3 ∧ i = pdtIndex USERBASE then pageWord 4 ||| 7
        else 0
      ring := ⟨[], 0, le_refl 0⟩
      owner := fun f => if f = 6 ∨ f = 7 then some (.process 1) else none
      pml4t := 0
      current := 1 }
  tables := [1]
  vmas := fun _ => [⟨USERBASE + pageWord 6, USERBASE + pageWord 8 - 1, .heap⟩]

/-- The first access to a heap of two pages is clean, and maps both of them. -/
example : (interrupt4 (USERBASE + pageWord 6) heapReady).map Prod.fst = some [6, 7] ∧
    FaultClean heapReady (USERBASE + pageWord 6) := by
  decide +kernel

end Paging

end OswpKernel
