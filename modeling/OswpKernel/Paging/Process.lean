import OswpKernel.Paging.Mapping

/-!
# Paging process — the page tables of a process (`sys/virtualmem.c`, `sys/process.c`)

Making a process' top table (`map_user_pml4`), duplicating all its tables for `fork`
(`duplicate_page_table`), giving a process its own copy of a page (`copy_page`) and taking a table
apart for `exec` (`clear_uptentries`).
-/

namespace OswpKernel

namespace Paging

namespace Machine

/-- The indices of a table, in the order of the source's loops. -/
def slots : List Slot := List.finRange 512

/-! ## `map_user_pml4` -/

/-- `bump(sizeof(struct ..))` and the loop that zeroes the table, as `freshTable`, for a table that
is used through its pointer. -/
def newTable (m : Machine) : Option (Word × Frame × Machine) := freshTable (bump 4096) m

def mapUserPml4 (m : Machine) : Option (Frame × Machine) := do
  let (_, user, m) ← newTable m
  -- the kernel's entries are copied one by one; slots it does not use stay 0
  let m ← Loop.forEach (fun i m =>
    some (if m.mem m.pml4t i ≠ 0 then m.write user i (m.mem m.pml4t i) else m)) slots m
  -- `user_table->PML4Entry->page_value` is the entry at 0, not the address of the table
  return (user, m.write user 510 (linkTo (m.mem user 0) 7))

/-! ## `duplicate_page_table` -/

/-- The entry for a table of the copy, `((new - KERNBASE) & 0xfffffffffffff000) | 0x205`. -/
def copyLink (v : Word) : Word := (v - KERNBASE) &&& frameMask ||| 0x205

/-- An entry of a page table: both pages lose the write bit and get the copy-on-write bit.  The
store to the new table that the next one overwrites is left out. -/
def duplicatePage (source new : Frame) (i : Slot) (m : Machine) : Option Machine :=
  let e := m.mem source i
  if e ≠ 0 then
    some ((m.write source i (marked e)).write new i (marked e ||| 0x205))
  else some m

def duplicatePt (source new : Frame) (m : Machine) : Option Machine :=
  Loop.forEach (duplicatePage source new) slots m

/-- An entry of a table whose children `duplicate` copies. -/
def duplicateEntry (duplicate : Frame → Frame → Machine → Option Machine) (source new : Frame)
    (i : Slot) (m : Machine) : Option Machine :=
  let e := m.mem source i
  if e ≠ 0 then do
    let m := m.write source i (marked e)
    let child ← tableAt (marked e)
    let (v, newChild, m) ← newTable m
    duplicate child newChild (m.write new i (copyLink v))
  else some m

def duplicatePdt (source new : Frame) (m : Machine) : Option Machine :=
  Loop.forEach (duplicateEntry duplicatePt source new) slots m

def duplicatePdpt (source new : Frame) (m : Machine) : Option Machine :=
  Loop.forEach (duplicateEntry duplicatePdt source new) slots m

/-- An entry of the top table. -/
def duplicateTop (source new : Frame) (i : Slot) (m : Machine) : Option Machine :=
  let e := m.mem source i
  if e ≠ 0 then
    -- the self link of the source is not copied, the kernel's table is shared as it is
    if i = 510 then some m
    else if i = 511 then some (m.write new i e)
    else duplicateEntry duplicatePdpt source new i m
  else some m

def duplicatePageTable (source : Frame) (m : Machine) : Option (Frame × Machine) := do
  let (v, user, m) ← newTable m
  let m ← Loop.forEach (duplicateTop source user) slots m
  -- the self link of the copy comes last
  return (user, m.write user 510 (linkTo v 3))

/-! ## `copy_page` -/

/-- `page_value | 7`. -/
def raise (t : Frame) (i : Slot) (m : Machine) : Machine := m.write t i (m.mem t i ||| 7)

/-- A level of the walk in `copy_page`; `below` is what it does to the table it finds. -/
def copyDescend (t : Frame) (i : Slot) (below : Frame → Machine → Machine) (m : Machine) :
    Option (Frame × Machine) :=
  -- the caller's `| 7` has set this bit, so nothing is ever allocated below
  if Present (m.mem t i) then do
    let next ← tableAt (m.mem t i)
    return (next, below next m)
  else do
    let (v, next, m) ← newTable m
    return (next, m.write t i (linkTo v 7))

/-- The page behind a pointer of `bump` when it is used.  The source tests neither for NULL nor
whether `bump` has mapped the page; the access faults. -/
def kernelPage (v : Word) (m : Machine) : Option Frame := do
  let f ← pointerFrame v
  let _ ← m.translate m.current v
  return f

def copyPage (table : Frame) (page : Word) (m : Machine) : Option Machine := do
  let m := m.raise table (pml4Index page)
  let (pdpt, m) ← copyDescend table (pml4Index page) (fun t m => m.raise t (pdptIndex page)) m
  let (pdt, m) ← copyDescend pdpt (pdptIndex page) (fun t m => m.raise t (pdtIndex page)) m
  let (pt, m) ← copyDescend pdt (pdtIndex page) (fun _ m => m) m
  -- the page is taken whether or not there is anything to copy
  let (phys, m) ← bumpPhysical m table 4096
  if Present (m.mem pt (ptIndex page)) then do
    let (v, m) ← bump 4096 m
    let copy ← kernelPage v m
    -- the two `kmemcpychar` calls go through the current page table
    let source ← m.translate m.current page
    -- the contents go through the kernel's page, since both pages have the same address
    let m := m.setPage copy (m.mem source)
    let m := m.write pt (ptIndex page) (phys ||| 7)
    let dest ← m.translate m.current page
    (m.setPage dest (m.mem copy)).kfree v
  else
    return m.write pt (ptIndex page) (phys ||| 7)

/-! ## `clear_uptentries` -/

/-- An entry of a page table with the user bit is cleared. -/
def clearPage (t : Frame) (i : Slot) (m : Machine) : Option Machine :=
  some (if Has (m.mem t i) userBit then m.write t i 0 else m)

def clearPt (t : Frame) (m : Machine) : Option Machine := Loop.forEach (clearPage t) slots m

/-- An entry with the user bit is cleared, and then the table it led to. -/
def clearEntry (clearTable : Frame → Machine → Option Machine) (t : Frame) (i : Slot)
    (m : Machine) : Option Machine :=
  if Has (m.mem t i) userBit then do
    -- the pointer is read before the entry is cleared
    let next ← tableAt (m.mem t i)
    clearTable next (m.write t i 0)
  else some m

def clearPdt (t : Frame) (m : Machine) : Option Machine :=
  Loop.forEach (clearEntry clearPt t) slots m

def clearPdpt (t : Frame) (m : Machine) : Option Machine :=
  Loop.forEach (clearEntry clearPdt t) slots m

def clearUptentries (m : Machine) : Option Machine :=
  Loop.forEach (fun i m' =>
    -- the self link and the kernel's half stay
    if i = 510 ∨ i = 511 then some m' else clearEntry clearPdpt m.current i m') slots m

theorem kernelPage_eq_some {m : Machine} {v : Word} {f : Frame} : kernelPage v m = some f ↔
    pointerFrame v = some f ∧ m.translate m.current v ≠ none := by
  rw [kernelPage]
  cases pointerFrame v with
  | none => simp
  | some g =>
      cases m.translate m.current v with
      | none => simp
      | some h => simp

/-! ## The free pages -/

/-- `kfree` puts the page behind the free ones. -/
theorem kfree_contents {m m' : Machine} {v : Word} (h : m.kfree v = some m') :
    m'.ring.contents = m.ring.contents ++ [Allocator.physAddress v] := by
  rw [kfree] at h
  obtain ⟨m₁, hunmap, hput⟩ := Option.bind_eq_some_iff.1 h
  have hring : m₁.ring = m.ring := by
    rw [unmapPage] at hunmap
    obtain ⟨pt, -, hwrite⟩ := Option.bind_eq_some_iff.1 hunmap
    rw [← Option.some.inj hwrite]
    rfl
  dsimp only at hput
  split_ifs at hput with hroom
  rw [← Option.some.inj hput, SlotRing.contents_put, hring]

theorem clearEntry_ring {below : Frame → Machine → Option Machine} {t : Frame} {i : Slot}
    {m m' : Machine} (hbelow : ∀ t m m', below t m = some m' → m'.ring = m.ring)
    (h : clearEntry below t i m = some m') : m'.ring = m.ring := by
  rw [clearEntry] at h
  split_ifs at h with huser
  · obtain ⟨next, -, hnext⟩ := Option.bind_eq_some_iff.1 h
    exact hbelow next (m.write t i 0) m' hnext
  · rw [← Option.some.inj h]

theorem forEach_ring {body : Slot → Machine → Option Machine} {is : List Slot} {m m' : Machine}
    (hbody : ∀ i m m', body i m = some m' → m'.ring = m.ring)
    (h : Loop.forEach body is m = some m') : m'.ring = m.ring :=
  Loop.forEach_invariant (I := fun n => n.ring = m.ring)
    (fun hkeep hturn => (hbody _ _ _ hturn).trans hkeep) h rfl

/-- `clear_uptentries` frees nothing. -/
theorem clearUptentries_ring {m m' : Machine} (h : m.clearUptentries = some m') :
    m'.ring = m.ring := by
  have hpt : ∀ t n n', clearPt t n = some n' → n'.ring = n.ring := by
    intro t n n' hrun
    refine forEach_ring (fun i k k' hturn => ?_) hrun
    rw [clearPage] at hturn
    rw [← Option.some.inj hturn]
    split_ifs <;> rfl
  have hpdt : ∀ t n n', clearPdt t n = some n' → n'.ring = n.ring := fun t n n' =>
    forEach_ring fun i k k' => clearEntry_ring hpt
  have hpdpt : ∀ t n n', clearPdpt t n = some n' → n'.ring = n.ring := fun t n n' =>
    forEach_ring fun i k k' => clearEntry_ring hpdt
  refine forEach_ring (fun i k k' hturn => ?_) h
  split_ifs at hturn
  · rw [← Option.some.inj hturn]
  · exact clearEntry_ring hpdpt hturn

end Machine

end Paging

end OswpKernel
