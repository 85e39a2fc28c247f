import OswpKernel.Files.Sessions
import OswpKernel.Paging.TablePages

/-!
# Leaks — the pages behind the descriptors

`copytnode` takes two pages from the allocator, one for the tnode and one for its inode, and nothing
in `fs.c` calls `kfree`: neither `do_fopen`, when it finds no empty slot for the copy, nor
`do_close`.  `Balanced` says that a run holds two pages for each descriptor it has open;
`balanced_iff_tidy` says in which runs it stays so.  A `bump` that has to map its page over the end
of a page table takes a further page, which no descriptor accounts for.
-/

namespace OswpKernel

namespace Files

open Execution Paging

/-- The file system and the memory; `opened` are the descriptors that `do_fopen` has returned and
nobody has closed since. -/
structure OpenFiles where
  files : FileSystem
  machine : Machine
  opened : Finset (BitVec 32)

namespace OpenFiles

variable (s : OpenFiles)

/-- `number_of_free_pages`. -/
abbrev free : Nat := s.machine.ring.free

/-- `bump`, for a pointer that is written through at once: the store faults at NULL, and at a page
that is not mapped. -/
def bumpPage (size : Word) (m : Machine) : Option (Word × Machine) := do
  let (ret, m) ← bump size m
  if ret ≠ 0 ∧ Mapped m ret then return (ret, m) else none

/-- The pages of `copytnode`: `sizeof(struct filesys_tnode)` and `sizeof(struct filesys_node)`. -/
def bumpCopy (m : Machine) : Option (Word × Machine) := do
  let (_, m) ← bumpPage 32 m
  bumpPage 280 m

/-- `do_fopen`. -/
def doFopen (subName : Bytes.Memory) (fileName : List UInt8) :
    Option (BitVec 32 × OpenFiles) := do
  match ← Frame.findFile s.files.heap s.files.filefsRoot subName fileName with
  | none => return (-1, s)
  | some _ =>
      let (inode, machine) ← bumpCopy s.machine
      let (fd, files) ← s.files.doFopen subName fileName ((inode - KERNBASE).toNat / 4096)
      return (fd, ⟨files, machine, if fd = -1 then s.opened else insert fd s.opened⟩)

/-- `do_close`. -/
def doClose (fd : BitVec 32) : BitVec 32 × OpenFiles :=
  let (r, files) := s.files.doClose fd
  (r, { s with files := files, opened := s.opened.erase fd })

end OpenFiles

inductive OpenEvent
  | fopen (subName : Bytes.Memory) (fileName : List UInt8)
  | close (fd : BitVec 32)

def openStep (s : OpenFiles) : OpenEvent → Option OpenFiles
  | .fopen subName fileName => (s.doFopen subName fileName).map Prod.snd
  | .close fd => some (s.doClose fd).2

/-- Any call. -/
abbrev AnyCall (_ : OpenFiles) (_ : OpenEvent) : Prop := True

/-- The pages taken since `s₀` are two for each descriptor that is open. -/
def Balanced (s₀ s : OpenFiles) : Prop := s₀.free = s.free + 2 * s.opened.card

/-- A request for a page after `n` others needs no new page table: `p` is handed out, and `q` is the
next free page then. -/
def NeedsNoTable (m : Machine) (n : Nat) : Prop :=
  ∀ p ∈ (m.ring.slots.rotate n).head?, ∀ q ∈ (m.ring.slots.rotate (n + 1)).head?, EndsInTable p q

instance (m : Machine) (n : Nat) : Decidable (NeedsNoTable m n) :=
  inferInstanceAs (Decidable (∀ _ ∈ _, ∀ _ ∈ _, EndsInTable _ _))

/-- A file is opened while a slot is empty and neither of its two pages needs a page table, and what
is closed was not opened by `do_fopen`. -/
def Tidy (s : OpenFiles) : OpenEvent → Prop
  | .fopen subName fileName =>
      (∃ item, Frame.findFile s.files.heap s.files.filefsRoot subName fileName =
        some (some item)) →
      (s.files.emptySlot 3).isSome ∧ NeedsNoTable s.machine 0 ∧ NeedsNoTable s.machine 1
  | .close fd => fd ∉ s.opened

/-! ## The allocator -/

variable {s s' s₀ : OpenFiles} {m m' : Machine} {size inode v : Word} {subName : Bytes.Memory}
  {fileName : List UInt8} {fd r : BitVec 32} {e : OpenEvent} {K : Nat} {D T : Nat → Nat}

theorem bumpPage_some (h : OpenFiles.bumpPage size m = some (v, m')) :
    bump size m = some (v, m') ∧ v ≠ 0 := by
  rcases Option.bind_eq_some_iff.1 h with ⟨⟨ret, m₁⟩, hbump, hret⟩
  dsimp only at hret
  split_ifs at hret with hstore
  rcases Prod.mk.inj (Option.some_inj.1 hret) with ⟨rfl, rfl⟩
  exact ⟨hbump, hstore.1⟩

theorem numOfPages_node : Allocator.numOfPages 32 = 1 ∧ Allocator.numOfPages 280 = 1 := by
  decide +kernel

theorem bumpPage_free (hone : Allocator.numOfPages size = 1)
    (h : OpenFiles.bumpPage size m = some (v, m')) : m'.ring.free + 1 ≤ m.ring.free := by
  rcases bumpPage_some h with ⟨hbump, hv⟩
  have htaken := (bump_free hbump).2 hv
  rwa [hone] at htaken

/-- `copytnode` takes two pages or more. -/
theorem bumpCopy_free (h : OpenFiles.bumpCopy m = some (inode, m')) :
    m'.ring.free + 2 ≤ m.ring.free := by
  rw [OpenFiles.bumpCopy] at h
  rcases Option.bind_eq_some_iff.1 h with ⟨⟨tnode, m₁⟩, htnode, hinode⟩
  have hfirst := bumpPage_free numOfPages_node.1 htnode
  have hsecond := bumpPage_free numOfPages_node.2 hinode
  omega

/-- One request takes one page just when it needs no page table, and then the kernel map stays
complete. -/
theorem bumpPage_takes (hmap : KernelMap m K D T) (hone : Allocator.numOfPages size = 1)
    (h : OpenFiles.bumpPage size m = some (v, m')) :
    (m'.ring.free + 1 = m.ring.free ↔ NeedsNoTable m 0) ∧
      (NeedsNoTable m 0 → KernelMap m' K D T ∧ m'.ring = m.ring.take 1) := by
  rcases bumpPage_some h with ⟨hbump, hv⟩
  have htakes := hmap.bump_takes_iff hbump hv
  have hfilled := hmap.bump_filled hbump (fits_of_bump hbump hv)
  rw [hone] at htakes hfilled
  rw [NeedsNoTable, List.rotate_zero, Nat.zero_add]
  refine ⟨htakes, fun hends => ?_⟩
  rcases hfilled hends with ⟨_, _, -, -, -, -, -, hmap', hfill⟩
  exact ⟨hmap', hfill.ring⟩

theorem bumpCopy_takes (hmap : KernelMap m K D T)
    (h : OpenFiles.bumpCopy m = some (inode, m')) :
    (m'.ring.free + 2 = m.ring.free ↔ NeedsNoTable m 0 ∧ NeedsNoTable m 1) ∧
      (NeedsNoTable m 0 ∧ NeedsNoTable m 1 → KernelMap m' K D T) := by
  rw [OpenFiles.bumpCopy] at h
  rcases Option.bind_eq_some_iff.1 h with ⟨⟨tnode, m₁⟩, htnode, hinode⟩
  have hfirst := bumpPage_free numOfPages_node.1 htnode
  have hsecond := bumpPage_free numOfPages_node.2 hinode
  rcases bumpPage_takes hmap numOfPages_node.1 htnode with ⟨hiff₁, hkeep₁⟩
  by_cases hnone : NeedsNoTable m 0
  · -- the second request starts from the ring without its first page
    rcases hkeep₁ hnone with ⟨hmap₁, hring⟩
    have hnext : NeedsNoTable m₁ 0 ↔ NeedsNoTable m 1 := by
      rw [NeedsNoTable, NeedsNoTable, hring, SlotRing.take_slots, List.rotate_rotate,
        List.rotate_rotate]
    rcases bumpPage_takes hmap₁ numOfPages_node.2 hinode with ⟨hiff₂, hkeep₂⟩
    have hfree := hiff₁.2 hnone
    rw [← hnext, and_iff_right hnone, ← hiff₂]
    exact ⟨by omega, fun hfree₂ => (hkeep₂ (hiff₂.1 hfree₂)).1⟩
  · have htable : m₁.ring.free + 1 ≠ m.ring.free := fun heq => hnone (hiff₁.1 heq)
    refine ⟨iff_of_false ?_ fun hboth => hnone hboth.1, fun hboth => absurd hboth.1 hnone⟩
    omega

/-! ## One call -/

/-- A descriptor that is open has its slot. -/
def Slotted (s : OpenFiles) : Prop :=
  ∀ i : Fin 25, BitVec.ofNat 32 i ∈ s.opened → s.files.fileDescriptors i ≠ none

/-- The ways `do_fopen` can end, after the copy or before it. -/
theorem OpenFiles.doFopen_cases (hcall : s.doFopen subName fileName = some (r, s')) :
    (Frame.findFile s.files.heap s.files.filefsRoot subName fileName = some none ∧ r = -1 ∧
      s' = s) ∨
    ((∃ item, Frame.findFile s.files.heap s.files.filefsRoot subName fileName =
        some (some item)) ∧
      (∃ inode, OpenFiles.bumpCopy s.machine = some (inode, s'.machine)) ∧
      ((s.files.emptySlot 3 = none ∧ r = -1 ∧ s'.opened = s.opened ∧
          s'.files.fileDescriptors = s.files.fileDescriptors) ∨
        ∃ i copy, s.files.emptySlot 3 = some i ∧ r = BitVec.ofNat 32 i ∧
          s'.opened = insert r s.opened ∧
          s'.files.fileDescriptors = Function.update s.files.fileDescriptors i (some copy))) := by
  rcases Option.bind_eq_some_iff.1 hcall with ⟨found, hfind, hcall⟩
  cases found with
  | none =>
      rcases Prod.mk.inj (Option.some_inj.1 hcall) with ⟨rfl, rfl⟩
      exact Or.inl ⟨hfind, rfl, rfl⟩
  | some item =>
      -- the copy is made before the search for a slot
      rcases Option.bind_eq_some_iff.1 hcall with ⟨⟨inode, m⟩, hbump, hcall⟩
      rcases Option.bind_eq_some_iff.1 hcall with ⟨⟨fd, files⟩, hopen, hcall⟩
      rcases Prod.mk.inj (Option.some_inj.1 hcall) with ⟨rfl, rfl⟩
      refine Or.inr ⟨⟨item, hfind⟩, ⟨inode, hbump⟩, ?_⟩
      dsimp only
      rcases Files.doFopen_cases hopen with ⟨hmissing, -, -⟩ |
        ⟨_, -, -, -, ⟨hnone, hr, htable⟩ | ⟨i, hi, hr, htable⟩⟩
      · cases hfind.symm.trans hmissing
      · rw [if_pos hr]
        exact Or.inl ⟨hnone, hr, rfl, htable⟩
      · have hne : fd ≠ -1 := by
          rw [hr]
          exact ofNat_ne_minusOne i
        rw [if_neg hne]
        exact Or.inr ⟨i, _, hi, hr, rfl, htable⟩

theorem Slotted.fopen (hslotted : Slotted s) (hcall : s.doFopen subName fileName = some (r, s')) :
    Slotted s' := by
  rcases OpenFiles.doFopen_cases hcall with ⟨-, -, rfl⟩ |
    ⟨-, -, ⟨-, -, hopened, htable⟩ | ⟨i, copy, -, rfl, hopened, htable⟩⟩
  · exact hslotted
  · intro j hj
    rw [htable]
    exact hslotted j (hopened ▸ hj)
  · intro j hj
    rw [hopened, Finset.mem_insert] at hj
    rw [htable]
    by_cases hji : j = i
    · rw [hji, Function.update_self]
      exact Option.some_ne_none copy
    · rw [Function.update_of_ne hji]
      exact hslotted j (hj.resolve_left fun heq => hji (ofNat_inj heq))

theorem Slotted.close (hslotted : Slotted s) (fd : BitVec 32) : Slotted (s.doClose fd).2 := by
  intro j hj
  rcases Finset.mem_erase.1 hj with ⟨hne, hj⟩
  have hstill := hslotted j hj
  rcases doClose_closed s.files fd with ⟨i, rfl, -, htable⟩ | ⟨-, -, hsame⟩
  · change (s.files.doClose (BitVec.ofNat 32 i)).2.fileDescriptors j ≠ none
    rw [htable, Function.update_of_ne fun hji => hne (congrArg _ (congrArg _ hji))]
    exact hstill
  · change (s.files.doClose fd).2.fileDescriptors j ≠ none
    rwa [hsame]

theorem free_of_copy (hbump : OpenFiles.bumpCopy s.machine = some (inode, s'.machine)) :
    s'.free + 2 ≤ s.free :=
  bumpCopy_free hbump

/-- The free pages and those behind the open descriptors. -/
def held (s : OpenFiles) : Nat := s.free + 2 * s.opened.card

theorem card_insert_slot (hslotted : Slotted s) {i : Fin 25} (hi : s.files.emptySlot 3 = some i) :
    (insert (BitVec.ofNat 32 i) s.opened).card = s.opened.card + 1 := by
  refine Finset.card_insert_of_notMem fun hin => ?_
  exact hslotted i hin (emptySlot_eq_some hi).2

theorem not_tidy_of_full
    (hfind : ∃ item, Frame.findFile s.files.heap s.files.filefsRoot subName fileName =
      some (some item))
    (hfull : s.files.emptySlot 3 = none) : ¬ Tidy s (.fopen subName fileName) := by
  intro htidy
  have hslot := (htidy hfind).1
  rw [hfull] at hslot
  cases hslot

theorem openStep_slotted (hslotted : Slotted s) (hstep : openStep s e = some s') : Slotted s' := by
  cases e with
  | fopen subName fileName =>
      rcases Option.map_eq_some_iff.1 hstep with ⟨⟨r, t⟩, hcall, rfl⟩
      exact hslotted.fopen hcall
  | close fd =>
      rcases Option.some_inj.1 hstep with rfl
      exact hslotted.close fd

theorem held_close (s : OpenFiles) (fd : BitVec 32) :
    held (s.doClose fd).2 = s.free + 2 * (s.opened.erase fd).card := rfl

/-- No call adds to what is held. -/
theorem held_le (hslotted : Slotted s) (hstep : openStep s e = some s') : held s' ≤ held s := by
  cases e with
  | fopen subName fileName =>
      rcases Option.map_eq_some_iff.1 hstep with ⟨⟨r, t⟩, hcall, rfl⟩
      rcases OpenFiles.doFopen_cases hcall with ⟨-, -, rfl⟩ |
        ⟨-, ⟨inode, hbump⟩, ⟨-, -, hopened, -⟩ | ⟨i, copy, hi, rfl, hopened, -⟩⟩
      · exact le_rfl
      · have hfree := free_of_copy hbump
        rw [held, held, hopened]
        dsimp only
        omega
      · have hfree := free_of_copy hbump
        have hcard := card_insert_slot hslotted hi
        rw [held, held, hopened, hcard]
        dsimp only
        omega
  | close fd =>
      rcases Option.some_inj.1 hstep with rfl
      have hcard := Finset.card_erase_le (s := s.opened) (a := fd)
      rw [held_close, held]
      omega

/-- A tidy call takes two pages for each descriptor it opens, and leaves the kernel map complete. -/
theorem held_of_tidy (hslotted : Slotted s) (hboot : AfterBoot s.machine) (htidy : Tidy s e)
    (hstep : openStep s e = some s') : AfterBoot s'.machine ∧ held s' = held s := by
  rcases hboot with ⟨K, D, T, hmap⟩
  cases e with
  | fopen subName fileName =>
      rcases Option.map_eq_some_iff.1 hstep with ⟨⟨r, t⟩, hcall, rfl⟩
      rcases OpenFiles.doFopen_cases hcall with ⟨-, -, rfl⟩ |
        ⟨hfind, ⟨inode, hbump⟩, ⟨hfull, -, -, -⟩ | ⟨i, copy, hi, rfl, hopened, -⟩⟩
      · exact ⟨⟨K, D, T, hmap⟩, rfl⟩
      · exact absurd htidy (not_tidy_of_full hfind hfull)
      · rcases bumpCopy_takes hmap hbump with ⟨hiff, hkeep⟩
        have hnone := (htidy hfind).2
        have hfree : t.free + 2 = s.free := hiff.2 hnone
        have hcard := card_insert_slot hslotted hi
        refine ⟨⟨K, D, T, hkeep hnone⟩, ?_⟩
        rw [held, held, hopened, hcard]
        dsimp only
        omega
  | close fd =>
      rcases Option.some_inj.1 hstep with rfl
      have hsame : s.opened.erase fd = s.opened := Finset.erase_eq_of_notMem htidy
      refine ⟨⟨K, D, T, hmap⟩, ?_⟩
      rw [held_close, hsame, held]

/-- Any other call loses pages. -/
theorem held_of_not_tidy (hslotted : Slotted s) (hboot : AfterBoot s.machine) (htidy : ¬ Tidy s e)
    (hstep : openStep s e = some s') : held s' < held s := by
  rcases hboot with ⟨K, D, T, hmap⟩
  cases e with
  | fopen subName fileName =>
      rcases Option.map_eq_some_iff.1 hstep with ⟨⟨r, t⟩, hcall, rfl⟩
      rcases Classical.not_imp.1 htidy with ⟨⟨item, hitem⟩, huntidy⟩
      rcases OpenFiles.doFopen_cases hcall with ⟨hmissing, -, -⟩ |
        ⟨-, ⟨inode, hbump⟩, ⟨-, -, hopened, -⟩ | ⟨i, copy, hi, rfl, hopened, -⟩⟩
      · cases hitem.symm.trans hmissing
      -- the table is full: the copy is in nobody's hands
      · have hfree := free_of_copy hbump
        rw [held, held, hopened]
        dsimp only
        omega
      -- there is a slot, so that a page went into a page table
      · have htable : ¬ (NeedsNoTable s.machine 0 ∧ NeedsNoTable s.machine 1) := by
          rw [hi] at huntidy
          exact fun hnone => huntidy ⟨rfl, hnone⟩
        have hfree := free_of_copy hbump
        have hmore : t.free + 2 ≠ s.free := mt (bumpCopy_takes hmap hbump).1.1 htable
        have hcard := card_insert_slot hslotted hi
        rw [held, held, hopened, hcard]
        dsimp only
        omega
  | close fd =>
      rcases Option.some_inj.1 hstep with rfl
      have hcard : (s.opened.erase fd).card + 1 = s.opened.card :=
        Finset.card_erase_add_one (not_not.1 htidy)
      rw [held_close, held]
      omega

/-! ## Every run -/

theorem slotted_start (hstart : s₀.opened = ∅) : Slotted s₀ := by
  intro i hi
  rw [hstart] at hi
  cases hi

theorem balanced_iff_held (hstart : s₀.opened = ∅) : Balanced s₀ s ↔ held s = held s₀ := by
  have hheld : held s₀ = s₀.free := by
    rw [held, hstart, Finset.card_empty, Nat.mul_zero, Nat.add_zero]
  rw [hheld, Balanced, held, eq_comm]

variable {es : List OpenEvent}

theorem balanced_run_iff (hboot : AfterBoot s₀.machine) (hstart : s₀.opened = ∅)
    (hrun : Run openStep AnyCall s₀ es s) : Balanced s₀ s ↔ Run openStep Tidy s₀ es s := by
  rw [balanced_iff_held hstart]
  refine hrun.measure_eq_iff Slotted (fun s => AfterBoot s.machine) held
    ⟨slotted_start hstart, hboot⟩ ?_ ?_ ?_
  · exact fun _ _ _ hs _ hstep => ⟨openStep_slotted hs hstep, held_le hs hstep⟩
  · exact fun _ _ _ hs hmap htidy hstep => held_of_tidy hs hmap htidy hstep
  · exact fun _ _ _ hs hmap htidy hstep => held_of_not_tidy hs hmap htidy hstep

/-- In every run of the two calls from a state that boot has left, what was taken from the allocator
is two pages for each open descriptor just when every call was tidy.  A `do_fopen` that returns -1
takes nothing just when it is, and no `do_close` of an open descriptor gives its pages back. -/
theorem balanced_iff_tidy (hboot : AfterBoot s₀.machine) (hstart : s₀.opened = ∅)
    (hrun : Run openStep AnyCall s₀ es s) :
    (Balanced s₀ s ↔ Run openStep Tidy s₀ es s) ∧
    (∀ subName fileName s', s.doFopen subName fileName = some (-1, s') →
      (s'.free = s.free ↔ Tidy s (.fopen subName fileName))) ∧
    ∀ fd ∈ s.opened, (s.doClose fd).2.free ≠ s.free + 2 := by
  refine ⟨balanced_run_iff hboot hstart hrun, ?_,
    fun fd _ => Nat.ne_of_lt (Nat.lt_add_of_pos_right ?_)⟩
  · intro subName fileName s' hcall
    rcases OpenFiles.doFopen_cases hcall with ⟨hmissing, -, rfl⟩ |
      ⟨hfind, ⟨inode, hbump⟩, ⟨hfull, -, -, -⟩ | ⟨i, copy, -, hr, -, -⟩⟩
    · refine ⟨fun _ hfind => ?_, fun _ => rfl⟩
      rcases hfind with ⟨item, hitem⟩
      cases hmissing.symm.trans hitem
    · have hfree := free_of_copy hbump
      have htaken : s'.free ≠ s.free := by omega
      exact iff_of_false htaken (not_tidy_of_full hfind hfull)
    · exact absurd hr.symm (ofNat_ne_minusOne i)
  · exact Nat.two_pos

/-- The file `/a`, and three free pages. -/
def threeFree : OpenFiles := ⟨oneFile, booted, ∅⟩

/-- A missing file and then `/a`, which gets the descriptor 3. -/
theorem balanced_iff_tidy_threeFree : ∃ s, Run openStep AnyCall threeFree
      [.fopen (fun _ => 0) [slash, 98], .fopen (fun _ => 0) [slash, 97]] s ∧
    s.opened = {3} ∧ s.free = 1 ∧
    Run openStep Tidy threeFree
      [.fopen (fun _ => 0) [slash, 98], .fopen (fun _ => 0) [slash, 97]] s := by
  have hreplay : (replay openStep AnyCall
      [.fopen (fun _ => 0) [slash, 98], .fopen (fun _ => 0) [slash, 97]] threeFree).map
        (fun s => (s.opened, s.free)) = some ({3}, 1) := by
    decide +kernel
  rcases Option.map_eq_some_iff.1 hreplay with ⟨s, hs, hopened⟩
  rcases Prod.mk.inj hopened with ⟨hopened, hfree⟩
  have hrun := run_of_replay hs
  have hbalanced : Balanced threeFree s := by
    rw [Balanced, hopened, hfree]
    rfl
  exact ⟨s, hrun, hopened, hfree, (balanced_iff_tidy booted_afterBoot rfl hrun).1.1 hbalanced⟩

/-- The file is opened and closed, and two of the three pages are gone. -/
theorem not_balanced : ∃ s, Run openStep AnyCall threeFree
      [.fopen (fun _ => 0) [slash, 97], .close 3] s ∧ s.opened = ∅ ∧ ¬ Balanced threeFree s := by
  have hreplay : (replay openStep AnyCall
      [.fopen (fun _ => 0) [slash, 97], .close 3] threeFree).map
        (fun s => (s.opened, s.free)) = some (∅, 1) := by
    decide +kernel
  rcases Option.map_eq_some_iff.1 hreplay with ⟨s, hs, hopened⟩
  rcases Prod.mk.inj hopened with ⟨hopened, hfree⟩
  refine ⟨s, run_of_replay hs, hopened, ?_⟩
  rw [Balanced, hopened, hfree]
  decide

end Files

end OswpKernel
