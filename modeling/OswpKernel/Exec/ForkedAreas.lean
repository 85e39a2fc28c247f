import OswpKernel.Exec.Replace

/-!
# Forked areas — the child's list of areas (`copy_process`)

`copy_process` gives the child the parent's `num_of_vmas` before it copies any area, and then counts
each area but the stack again: `copyProcess_count` says so of every copy, whatever the new pages
held.
-/

namespace OswpKernel

namespace Exec

open Paging Chain

namespace Tasks

variable {s s' : Tasks} {current new : PcbRef} {source p size : Word} {last last' : Option Word}
  {xs ys : List Word}

/-- The areas `loadelf` makes: those of the file, then the heap, then the stack. -/
structure LoadedAreas (s : Tasks) (current : PcbRef) (xs : List Word) : Prop where
  chain : Seg s.nextArea (s.mmOf current).listOfVmas xs none
  order : ∃ n, xs.map (fun x => (s.area x).vmaType) = List.replicate n OTHER ++ [HEAP, STACK]
  taken : ∀ page ∈ s.freePages, page + KERNBASE ≠ (s.task current).mm

/-- The area `y` after the copy describes what `x` has described before it. -/
structure SameArea (s s' : Tasks) (x y : Word) : Prop where
  vmaType : (s'.area y).vmaType = (s.area x).vmaType
  vmaStart : (s'.area y).vmaStart = (s.area x).vmaStart
  vmaEnd : (s'.area y).vmaEnd = (s.area x).vmaEnd
  vmaFlags : (s.area x).vmaType = OTHER → (s'.area y).vmaFlags = (s.area x).vmaFlags
  vmaFile : (s'.area y).vmaFile.map s'.file = (s.area x).vmaFile.map s.file

/-- Each area's `prev` is the area before it. -/
def PrevLinks (s : Tasks) : Option Word → List Word → Prop
  | _, [] => True
  | before, y :: ys => (s.area y).prev = before ∧ PrevLinks s (some y) ys

/-- The child's areas are those of the parent, one for one, and are counted as the parent's. -/
structure FaithfulAreas (s s' : Tasks) (current new : PcbRef) (xs : List Word) : Prop where
  areas : ∃ ys, Seg s'.nextArea (s'.mmOf new).listOfVmas ys none ∧ PrevLinks s' none ys ∧
    List.Forall₂ (SameArea s s') xs ys
  count : (s'.mmOf new).numOfVmas = (s.mmOf current).numOfVmas

/-! ## One allocation -/

/-- `bump` changes the machine only, and what it returns was a free page. -/
theorem alloc_spec (hpages : 0 < Allocator.numOfPages size) (h : s.alloc size = some (p, s')) :
    s' = { s with machine := s'.machine } ∧ ∃ page ∈ s.freePages, p = page + KERNBASE := by
  rw [alloc] at h
  obtain ⟨⟨v, machine⟩, hbump, hret⟩ := Option.bind_eq_some_iff.1 h
  dsimp only at hret
  split_ifs at hret with hnull
  rcases Prod.mk.inj (Option.some_inj.1 hret) with ⟨rfl, rfl⟩
  exact ⟨rfl, (bump_ret hpages hbump).resolve_left hnull⟩

/-! ## One area -/

/-- The child's `mm_struct` is the same structure, and counts `k` areas more. -/
def CountsMore (new : PcbRef) (k : Int) (s s' : Tasks) : Prop :=
  (s'.task new).mm = (s.task new).mm ∧ (s'.mmOf new).numOfVmas = (s.mmOf new).numOfVmas + k

theorem CountsMore.trans {j k : Int} {s₁ : Tasks} (h : CountsMore new j s s₁)
    (h' : CountsMore new k s₁ s') : CountsMore new (j + k) s s' :=
  ⟨h'.1.trans h.1, by rw [h'.2, h.2, add_assoc]⟩

/-- Writing to areas and to file descriptions, and allocating, counts none. -/
theorem CountsMore.write {k : Int} {s₁ : Tasks} (h : CountsMore new k s s₁) (hmm : s'.mm = s₁.mm)
    (htask : s'.task = s₁.task) : CountsMore new k s s' := by
  refine ⟨by rw [htask, h.1], ?_⟩
  rw [mmOf, hmm, htask]
  exact h.2

theorem CountsMore.setArea {k : Int} {s₁ : Tasks} {f : Area → Area} (h : CountsMore new k s s₁) :
    CountsMore new k s (s₁.setArea p f) :=
  h.write rfl rfl

theorem CountsMore.setTask {k : Int} {s₁ : Tasks} {f : Task → Task} (h : CountsMore new k s s₁)
    (hmm : ∀ t, (f t).mm = t.mm) : CountsMore new k s (s₁.setTask new f) := by
  have hkeep : ((s₁.setTask new f).task new).mm = (s₁.task new).mm := by
    simp only [Tasks.setTask, Function.update_self, hmm]
  refine ⟨hkeep.trans h.1, ?_⟩
  rw [mmOf, hkeep]
  exact h.2

theorem CountsMore.setMM {j k : Int} {s₁ : Tasks} {f : MM → MM} (h : CountsMore new k s s₁)
    (hcount : ∀ m, (f m).numOfVmas = m.numOfVmas + j) :
    CountsMore new (k + j) s (s₁.setMM (s₁.task new).mm f) := by
  refine ⟨h.1, ?_⟩
  change (Function.update s₁.mm (s₁.task new).mm _ (s₁.task new).mm).numOfVmas = _
  rw [Function.update_self, hcount, ← add_assoc, ← h.2, mmOf]

theorem CountsMore.countArea {s₁ : Tasks} (h : CountsMore new 0 s s₁) :
    CountsMore new 1 s (s₁.countArea new) :=
  h.setMM (j := 1) fun _ => rfl

/-- Fields other than the count. -/
theorem CountsMore.setList {k : Int} {s₁ : Tasks} {f : MM → MM} (h : CountsMore new k s s₁)
    (hcount : ∀ m, (f m).numOfVmas = m.numOfVmas) :
    CountsMore new k s (s₁.setMM (s₁.task new).mm f) := by
  have hkept := h.setMM (j := 0) fun m => (hcount m).trans (add_zero m.numOfVmas).symm
  rwa [add_zero] at hkept

theorem CountsMore.alloc {k : Int} {s₁ : Tasks} (h : CountsMore new k s s₁)
    (hpages : 0 < Allocator.numOfPages size) (halloc : s₁.alloc size = some (p, s')) :
    CountsMore new k s s' := by
  obtain ⟨hsame, -⟩ := alloc_spec hpages halloc
  exact h.write (by rw [hsame]) (by rw [hsame])

theorem CountsMore.appendArea {k : Int} {s₁ : Tasks} (h : CountsMore new k s s₁)
    (happend : s₁.appendArea new p = some (source, s')) : CountsMore new k s s' := by
  rw [Tasks.appendArea] at happend
  obtain ⟨first, -, happend⟩ := Option.bind_eq_some_iff.1 happend
  obtain ⟨tempvma, -, hret⟩ := Option.bind_eq_some_iff.1 happend
  rcases Prod.mk.inj (Option.some_inj.1 hret) with ⟨-, rfl⟩
  exact h.write rfl rfl

theorem countsMore_refl : CountsMore new 0 s s := ⟨rfl, (add_zero _).symm⟩

theorem copyHeap_counts (h : s.copyHeap current new source = some (last', s')) :
    CountsMore new 1 s s' := by
  rw [copyHeap] at h
  obtain ⟨⟨vma, s₁⟩, halloc, h⟩ := Option.bind_eq_some_iff.1 h
  obtain ⟨⟨tempvma, s₂⟩, happend, hret⟩ := Option.bind_eq_some_iff.1 h
  rcases Prod.mk.inj (Option.some_inj.1 hret) with ⟨-, rfl⟩
  have hnew : CountsMore new 0 s s₁ := countsMore_refl.alloc (by decide) halloc
  have hlinked : CountsMore new 0 s s₂ := hnew.setArea.appendArea happend
  -- the heap's own fields are copied behind the count
  apply CountsMore.setList
  · apply CountsMore.setTask hlinked.countArea
    exact fun _ => rfl
  · exact fun _ => rfl

theorem copyStack_counts (h : s.copyStack new source = some (last', s')) :
    CountsMore new 0 s s' := by
  rw [copyStack] at h
  obtain ⟨⟨vma, s₁⟩, halloc, h⟩ := Option.bind_eq_some_iff.1 h
  obtain ⟨⟨tempvma, s₂⟩, happend, hret⟩ := Option.bind_eq_some_iff.1 h
  rcases Prod.mk.inj (Option.some_inj.1 hret) with ⟨-, rfl⟩
  have hnew : CountsMore new 0 s s₁ := countsMore_refl.alloc (by decide) halloc
  apply CountsMore.setTask (hnew.setArea.appendArea happend)
  exact fun _ => rfl

theorem CountsMore.copyFile {k : Int} {s₁ : Tasks} (h : CountsMore new k s s₁)
    (hcopy : s₁.copyFile p source = some s') : CountsMore new k s s' := by
  rw [Tasks.copyFile] at hcopy
  cases hfile : (s₁.area source).vmaFile with
  | none =>
      rw [hfile] at hcopy
      exact Option.some.inj hcopy ▸ h
  | some file =>
      rw [hfile] at hcopy
      obtain ⟨⟨copy, s₂⟩, halloc, hret⟩ := Option.bind_eq_some_iff.1 hcopy
      rw [← Option.some.inj hret]
      exact (h.alloc (by decide) halloc).write rfl rfl

theorem copyOther_counts (h : s.copyOther new source last = some (last', s')) :
    CountsMore new 1 s s' := by
  rw [copyOther] at h
  obtain ⟨⟨vma, s₁⟩, halloc, h⟩ := Option.bind_eq_some_iff.1 h
  obtain ⟨s₂, hcopy, hret⟩ := Option.bind_eq_some_iff.1 h
  rcases Prod.mk.inj (Option.some_inj.1 hret) with ⟨-, rfl⟩
  have hnew : CountsMore new 0 s s₁ := countsMore_refl.alloc (by decide) halloc
  have hfile : CountsMore new 0 s s₂ := hnew.setArea.copyFile hcopy
  apply CountsMore.countArea
  cases last with
  | none =>
      -- the first area becomes the head of the list
      apply CountsMore.setArea
      apply CountsMore.setList hfile.setArea
      exact fun _ => rfl
  | some last => exact hfile.setArea.setArea

/-- Each area but the stack is counted. -/
theorem copyArea_counts (h : s.copyArea current new source last = some (last', s')) :
    CountsMore new (if (s.area source).vmaType = STACK then 0 else 1) s s' := by
  rw [copyArea] at h
  by_cases hheap : (s.area source).vmaType = HEAP
  · rw [if_pos hheap] at h
    rw [if_neg (by rw [hheap]; decide)]
    exact copyHeap_counts h
  · rw [if_neg hheap] at h
    by_cases hstack : (s.area source).vmaType = STACK
    · rw [if_pos hstack] at h
      rw [if_pos hstack]
      exact copyStack_counts h
    · rw [if_neg hstack] at h
      rw [if_neg hstack]
      exact copyOther_counts h

/-! ## The process -/

/-- No turn of the loop takes away from the count, whatever list it comes to. -/
theorem copyAreas_counts {fuel : ℕ} {next : Option Word}
    (hrun : copyAreas current new fuel next last s = some s') :
    ∃ k, 0 ≤ k ∧ CountsMore new k s s' := by
  induction fuel generalizing next last s with
  | zero => cases hrun
  | succ fuel ih =>
      cases next with
      | none =>
          rw [copyAreas] at hrun
          exact ⟨0, le_rfl, Option.some.inj hrun ▸ countsMore_refl⟩
      | some source =>
          rw [copyAreas] at hrun
          obtain ⟨⟨last', s₁⟩, hcopy, hrun⟩ := Option.bind_eq_some_iff.1 hrun
          obtain ⟨k, hk, hrest⟩ := ih hrun
          refine ⟨_, ?_, (copyArea_counts hcopy).trans hrest⟩
          split_ifs <;> omega

theorem LoadedAreas.head (h : s.LoadedAreas current xs) :
    ∃ x, (s.mmOf current).listOfVmas = some x ∧ (s.area x).vmaType ≠ STACK := by
  obtain ⟨n, horder⟩ := h.order
  cases xs with
  | nil => cases n <;> cases horder
  | cons x xs =>
      refine ⟨x, h.chain.start_of_cons, ?_⟩
      cases n with
      | zero =>
          have htype : (s.area x).vmaType = HEAP := (List.cons.inj horder).1
          rw [htype]
          decide
      | succ n =>
          have htype : (s.area x).vmaType = OTHER := (List.cons.inj horder).1
          rw [htype]
          decide

/-- The child counts more areas than its parent did. -/
theorem copyProcess_count (h : s.LoadedAreas current xs) (hne : new ≠ current)
    (hrun : s.copyProcess current new = some s') :
    (s.mmOf current).numOfVmas < (s'.mmOf new).numOfVmas := by
  rw [copyProcess] at hrun
  obtain ⟨⟨mm, s₁⟩, hmm, hrun⟩ := Option.bind_eq_some_iff.1 hrun
  obtain ⟨⟨list, s₂⟩, hlist, hrun⟩ := Option.bind_eq_some_iff.1 hrun
  dsimp only at hlist hrun
  obtain ⟨hsame₁, page, hpage, hret⟩ := alloc_spec (by decide) hmm
  obtain ⟨hsame₂, -⟩ := alloc_spec (by decide) hlist
  have hother : (s.task current).mm ≠ mm := fun heq => h.taken page hpage (hret ▸ heq.symm)
  obtain ⟨x, hhead, htype⟩ := h.head
  generalize hstart : Tasks.setMM s₂ mm (fun m => { m with listOfVmas := some list }) = s₃ at hrun
  have htask : s₃.task = Function.update s.task new { s.task new with mm := mm } := by
    rw [← hstart, hsame₂, hsame₁]
    rfl
  have harea : s₃.area = s.area := by
    rw [← hstart, hsame₂, hsame₁]
    rfl
  have hparent : (s₃.task current).mm = (s.task current).mm := by
    rw [htask, Function.update_of_ne hne.symm]
  have hchild : (s₃.task new).mm = mm := by rw [htask, Function.update_self]
  have hlistOf : (s₃.mmOf current).listOfVmas = some x := by
    rw [mmOf, hparent, ← hhead, ← hstart, hsame₂, hsame₁]
    simp [Tasks.setMM, Tasks.setTask, mmOf, hother]
  have hcount : (s₃.mmOf new).numOfVmas = (s.mmOf current).numOfVmas := by
    rw [mmOf, hchild, ← hstart, hsame₂, hsame₁]
    simp [Tasks.setMM, Tasks.setTask, mmOf, hne.symm]
  -- the first area is not the stack, and no later one takes away from the count
  obtain ⟨fuel, hfuel⟩ : ∃ fuel, maxAreas = fuel + 1 := ⟨2 ^ 19 - 1, rfl⟩
  rw [hlistOf, hfuel, copyAreas] at hrun
  obtain ⟨⟨last, s₄⟩, hfirst, hrun⟩ := Option.bind_eq_some_iff.1 hrun
  obtain ⟨k, hk, hrest⟩ := copyAreas_counts hrun
  have hone := copyArea_counts hfirst
  rw [harea, if_neg htype] at hone
  have htotal := (hone.trans hrest).2
  omega

/-- No copy is faithful. -/
theorem not_copyProcess_faithful (h : s.LoadedAreas current xs) (hne : new ≠ current) :
    ¬ ∃ s', s.copyProcess current new = some s' ∧ s.FaithfulAreas s' current new xs := by
  rintro ⟨s', hrun, hfaithful⟩
  have hmore := copyProcess_count h hne hrun
  exact absurd hfaithful.count hmore.ne'

/-- A process with one area of each kind; its structures are on the pages from 0x10000 on, the free
pages are mapped already, and hold zeros. -/
def sampleParent : Tasks where
  machine :=
    { mem := fun t i =>
        if t = 2 then 0x3003
        else if t = 3 then 0x4003
        else if t = 4 then 0x5003
        else 0x400003 + 0x1000 * BitVec.ofNat 64 i
      ring := ⟨(List.range 60).map fun k => 0x400000 + 0x1000 * BitVec.ofNat 64 k, 50, by decide⟩
      owner := fun _ => none
      pml4t := 2
      current := 2 }
  area := fun x =>
    if x = 0xffffffff80010000 then
      ⟨0x400000, 0x400fff, 5, OTHER, some 0xffffffff80012000, none, some 0xffffffff80011000⟩
    else if x = 0xffffffff80012000 then
      ⟨0x500000, 0x500fff, 0, HEAP, some 0xffffffff80013000, some 0xffffffff80010000, none⟩
    else if x = 0xffffffff80013000 then
      ⟨0x600000, 0x600fff, 0, STACK, none, some 0xffffffff80012000, none⟩
    else ⟨0, 0, 0, 0, none, none, none⟩
  file := fun x => if x = 0xffffffff80011000 then ⟨0x200, 0, 0x1000, 0⟩ else ⟨0, 0, 0, 0⟩
  mm := fun x => if x = 0xffffffff80014000 then ⟨some 0xffffffff80010000, 3, 0⟩ else ⟨none, 0, 0⟩
  task := fun x => if x = 0 then ⟨0xffffffff80014000, 0, 0, 0, []⟩ else ⟨0, 0, 0, 0, []⟩
  currentthread := 0

theorem sampleParent_loaded : sampleParent.LoadedAreas 0
    [0xffffffff80010000, 0xffffffff80012000, 0xffffffff80013000] := by
  refine ⟨⟨rfl, rfl, rfl, rfl⟩, ⟨1, by decide +kernel⟩, ?_⟩
  have htaken : (sampleParent.freePages.all fun page =>
      page + KERNBASE ≠ (sampleParent.task 0).mm) = true := by decide +kernel
  simpa using htaken

/-- Its child counts five areas for three. -/
theorem sampleParent_counts_five :
    sampleParent.LoadedAreas 0 [0xffffffff80010000, 0xffffffff80012000, 0xffffffff80013000] ∧
      ∃ s', sampleParent.copyProcess 0 1 = some s' ∧ (s'.mmOf 1).numOfVmas = 5 ∧
        ¬ sampleParent.FaithfulAreas s' 0 1
          [0xffffffff80010000, 0xffffffff80012000, 0xffffffff80013000] := by
  refine ⟨sampleParent_loaded, ?_⟩
  have hrun : (sampleParent.copyProcess 0 1).map (fun s' => (s'.mmOf 1).numOfVmas) = some 5 := by
    decide +kernel
  obtain ⟨s', hcopy, hcount⟩ := Option.map_eq_some_iff.1 hrun
  refine ⟨s', hcopy, hcount, fun hfaithful => ?_⟩
  have hthree : (s'.mmOf 1).numOfVmas = 3 := hfaithful.count
  rw [hcount] at hthree
  exact absurd hthree (by decide)

theorem sampleParent_not_faithful :
    ¬ ∃ s', sampleParent.copyProcess 0 1 = some s' ∧ sampleParent.FaithfulAreas s' 0 1
      [0xffffffff80010000, 0xffffffff80012000, 0xffffffff80013000] :=
  not_copyProcess_faithful sampleParent_loaded (by decide)

end Tasks

end Exec

end OswpKernel
