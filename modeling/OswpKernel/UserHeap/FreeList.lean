import OswpKernel.UserHeap.Invariant

/-!
# User heap free list — one call of `do_malloc` or `do_free`, on any free list

Here the free list may be of any length, lie anywhere, and be empty, as it is before `createheap`.
`doFree_keeps_iff` says on which lists `do_free` returns a list in order that covers the freed block
as well, `doMalloc_outcome_iff` for which requests `do_malloc` returns a block that is large enough
and no longer free.
-/

namespace OswpKernel

open Chain Tiling

namespace UserHeap

/-- What every unit holds, and `mm->freelist`. -/
structure FreeList where
  header : Nat → Header
  freelist : Option Nat

namespace FreeList

/-- `do_malloc`; `none` is an access through NULL, or a list of more than `fuel` blocks. -/
def doMalloc (fuel : Nat) (size : Word) (s : FreeList) : Option (Nat × FreeList) := do
  -- the loop reads `current->s.size` before it has compared anything with NULL
  let first ← s.freelist
  let m : Arena := ⟨s.header, first⟩
  let (prev, current) ← m.firstFit (Arena.numOfStructs size) first (follow m.next fuel (some first))
  let (block, m) := m.takeFrom (Arena.numOfStructs size) prev current
  return (block + 1, ⟨m.header, some m.freelist⟩)

def doFree (fuel : Nat) (ptr : Nat) (s : FreeList) : Option FreeList :=
  match s.freelist with
  | none => some { s with freelist := some (ptr - 1) }
  | some first =>
      let m : Arena := ⟨s.header, first⟩
      match (follow m.next fuel (some first)).findSome? (m.freeAt (ptr - 1)) with
      | some m' => some ⟨m'.header, some m'.freelist⟩
      | none => if (follow m.next fuel (some first)).length < fuel then some s else none

variable (s : FreeList)

def next (i : Nat) : Option Nat := (s.header i).next

def size (i : Nat) : Nat := (s.header i).size

/-- The blocks of a list of headers. -/
def spans (xs : List Nat) : List (Nat × Nat) := xs.map fun x => (x, s.size x)

/-- The units of the blocks `fs`. -/
def Free (fs : List Nat) (u : Nat) : Prop := Covers (s.spans fs) u

/-- The list ends with NULL, and its blocks are in order and do not overlap. -/
structure Proper (fs : List Nat) : Prop where
  chain : Seg s.next s.freelist fs none
  inOrder : InOrder (s.spans fs)

/-- `b` is the header of a block that is not free, and no free block touches another one. -/
structure Freeing (fs : List Nat) (b : Nat) : Prop where
  proper : s.Proper fs
  gaps : fs.Pairwise fun x y => x + s.size x ≠ y
  positive : 0 < s.size b
  outside : ∀ x ∈ fs, Apart (x, s.size x) (b, s.size b)

end FreeList

open FreeList

variable {s s' : FreeList} {fs ys zs : List Nat} {a b c n ptr q fuel : Nat} {size : Word}

/-- An arena as a free list. -/
def Arena.freeList (m : Arena) : FreeList := ⟨m.header, some m.freelist⟩

/-- On the page that `createheap` has set up the two calls are those of the arena. -/
theorem freeList_doMalloc (m : Arena) (size : Word) :
    FreeList.doMalloc pageUnits size m.freeList =
      (m.doMalloc size).map fun taken => (taken.1, taken.2.freeList) := by
  rw [Arena.doMalloc, Option.map_map]
  change (m.firstFit (Arena.numOfStructs size) m.freelist m.blocks).bind _ = _
  cases m.firstFit (Arena.numOfStructs size) m.freelist m.blocks with
  | none => rfl
  | some found => rfl

theorem freeList_doFree (m : Arena) (ptr : Nat) :
    FreeList.doFree pageUnits ptr m.freeList = (m.doFree ptr).map Arena.freeList := by
  have hblocks : follow m.next pageUnits (some m.freelist) = m.blocks := rfl
  rw [Arena.doFree]
  change (match (follow m.next pageUnits (some m.freelist)).findSome? (m.freeAt (ptr - 1)) with
    | some m' => some m'.freeList
    | none => if (follow m.next pageUnits (some m.freelist)).length < pageUnits then
        some m.freeList else none) = _
  rw [hblocks]
  cases m.blocks.findSome? (m.freeAt (ptr - 1)) with
  | some m' => rfl
  | none =>
      by_cases hend : m.blocks.length < pageUnits
      · simp only [if_pos hend, Option.map_some]
      · simp only [if_neg hend, Option.map_none]

/-! ## The free list -/

namespace FreeList.Proper

theorem blocks_eq (h : s.Proper fs) (hfuel : fs.length < fuel) :
    follow s.next fuel s.freelist = fs :=
  h.chain.follow_eq hfuel.le

theorem positive (h : s.Proper fs) (ha : a ∈ fs) : 0 < s.size a :=
  h.inOrder.positive (a, s.size a) (List.mem_map_of_mem ha)

theorem ascending (h : s.Proper fs) : fs.Pairwise (· < ·) := by
  have hbefore := List.pairwise_map.1 h.inOrder.before
  refine hbefore.imp_of_mem fun {x y} hx _ hxy => ?_
  have hpositive := h.positive hx
  simp only at hxy
  omega

end FreeList.Proper

namespace FreeList

@[simp] theorem spans_append (ys zs : List Nat) :
    s.spans (ys ++ zs) = s.spans ys ++ s.spans zs :=
  List.map_append

@[simp] theorem spans_nil : s.spans [] = [] := rfl

@[simp] theorem spans_cons (x : Nat) (xs : List Nat) :
    s.spans (x :: xs) = (x, s.size x) :: s.spans xs := rfl

theorem spans_congr {xs : List Nat} (h : ∀ x ∈ xs, s'.size x = s.size x) :
    s'.spans xs = s.spans xs :=
  List.map_congr_left fun x hx => by rw [h x hx]

end FreeList

/-! ## `do_free` -/

theorem FreeList.Freeing.notMem (h : s.Freeing fs b) : b ∉ fs := by
  intro hb
  have hfree := h.proper.positive hb
  rcases h.outside b hb with hleft | hright
  · simp only at hleft
    omega
  · simp only at hright
    omega

/-- The freed block in its place among the free ones. -/
theorem FreeList.Freeing.inOrder_insert (h : s.Freeing (ys ++ c :: zs) b)
    (hys : ∀ y ∈ ys ++ [c], y < b) (hzs : ∀ z ∈ zs, b < z) :
    InOrder (s.spans ys ++ (c, s.size c) :: (b, s.size b) :: s.spans zs) := by
  have hordered := h.proper.inOrder
  rw [List.append_cons] at h hordered
  rw [spans_append] at hordered
  -- what is below the block ends where it starts, or before, and it ends where what is above starts
  have hinsert : InOrder (s.spans (ys ++ [c]) ++ (b, s.size b) :: s.spans zs) := by
    refine hordered.insert h.positive ?_ ?_
    · rintro _ hx
      obtain ⟨y, hy, rfl⟩ := List.mem_map.1 hx
      have hbelow := hys y hy
      have hpositive := h.positive
      rcases h.outside y (List.mem_append_left _ hy) with hleft | hright
      · exact hleft
      · simp only at hright
        omega
    · rintro _ hx
      obtain ⟨z, hz, rfl⟩ := List.mem_map.1 hx
      have habove := hzs z hz
      have hpositive := h.proper.positive (List.mem_append_right _ hz)
      rcases h.outside z (List.mem_append_right _ hz) with hleft | hright
      · simp only at hleft
        omega
      · exact hright
  simpa using hinsert

theorem free_insert (s : FreeList) (ys zs : List Nat) (b c u : Nat) :
    Covers (s.spans ys ++ (c, s.size c) :: (b, s.size b) :: s.spans zs) u ↔
      s.Free (ys ++ c :: zs) u ∨ (b ≤ u ∧ u < b + s.size b) := by
  simp only [Free, spans_append, spans_cons, covers_append, covers_cons]
  tauto

/-- The list after the call is in order, and covers the freed block and what it has covered
before. -/
def FreeList.TakesBack (s s' : FreeList) (fs : List Nat) (b : Nat) : Prop :=
  ∃ fs', s'.Proper fs' ∧ ∀ u, s'.Free fs' u ↔ s.Free fs u ∨ (b ≤ u ∧ u < b + s.size b)

section Shapes

variable {m m' : Arena} {d : Nat}

theorem MergesLeft.takesBack (hm : MergesLeft m m' b c) (h : m.freeList.Freeing (ys ++ c :: zs) b)
    (hfreelist : m'.freelist = m.freelist) (hys : ∀ y ∈ ys ++ [c], y < b)
    (hzs : ∀ z ∈ zs, b < z) : m.freeList.TakesBack m'.freeList (ys ++ c :: zs) b := by
  have hb := h.notMem
  -- only the block in front has a new size
  have hother : ∀ x ∈ ys ++ zs, m'.freeList.size x = m.freeList.size x := by
    have hnodup := List.perm_middle.nodup_iff.1 h.proper.chain.nodup
    exact fun x hx => hm.sizes x fun heq => (List.nodup_cons.1 hnodup).1 (heq ▸ hx)
  have hspans : m'.freeList.spans (ys ++ c :: zs) = m.freeList.spans ys ++
      (c, m.freeList.size c + m.freeList.size b) :: m.freeList.spans zs := by
    rw [spans_append, spans_cons,
      spans_congr fun x hx => hother x (List.mem_append_left _ hx),
      spans_congr fun x hx => hother x (List.mem_append_right _ hx)]
    exact congrArg (fun n => m.freeList.spans ys ++ (c, n) :: m.freeList.spans zs) hm.size
  have hordered := h.inOrder_insert hys hzs
  have hcovers := free_insert m.freeList ys zs b c
  -- inserted, the block would stand right behind that one: merging the two is what the code does
  obtain rfl : c + m.freeList.size c = b := hm.touches
  refine ⟨ys ++ c :: zs, ⟨?_, ?_⟩, fun u => ?_⟩
  · change Seg m'.next (some m'.freelist) (ys ++ c :: zs) none
    rw [hfreelist]
    exact h.proper.chain.congr fun x hx => hm.next x fun heq => hb (heq ▸ hx)
  · rw [hspans]
    exact hordered.merge
  · rw [Free, hspans, covers_merge]
    exact hcovers u

theorem Inserts.takesBack (hm : Inserts m m' b c) (h : m.freeList.Freeing (ys ++ c :: zs) b)
    (hfreelist : m'.freelist = m.freelist) (hys : ∀ y ∈ ys ++ [c], y < b)
    (hzs : ∀ z ∈ zs, b < z) : m.freeList.TakesBack m'.freeList (ys ++ c :: zs) b := by
  have hspans : m'.freeList.spans (ys ++ c :: b :: zs) = m.freeList.spans (ys ++ c :: b :: zs) :=
    spans_congr fun x _ => hm.sizes x
  refine ⟨ys ++ c :: b :: zs, ⟨?_, ?_⟩, fun u => ?_⟩
  · change Seg m'.next (some m'.freelist) (ys ++ c :: b :: zs) none
    rw [hfreelist]
    exact h.proper.chain.insert_after h.proper.chain.nodup h.notMem hm.link hm.next hm.others
  · rw [hspans, spans_append]
    exact h.inOrder_insert hys hzs
  · rw [Free, hspans, spans_append]
    exact free_insert m.freeList ys zs b c u

theorem MergesRight.takesBack (hm : MergesRight m m' b c d)
    (h : m.freeList.Freeing (ys ++ c :: d :: zs) b) (hfreelist : m'.freelist = m.freelist)
    (hys : ∀ y ∈ ys ++ [c], y < b) (hzs : ∀ z ∈ d :: zs, b < z) :
    m.freeList.TakesBack m'.freeList (ys ++ c :: d :: zs) b := by
  have hb := h.notMem
  have hsize : m'.freeList.size b = m.freeList.size b + m.freeList.size d := hm.size
  -- the size of the freed block is the only new one, and its successor leaves the list
  have hother : ∀ x ∈ ys ++ c :: d :: zs, m'.freeList.size x = m.freeList.size x :=
    fun x hx => hm.sizes x fun heq => hb (heq ▸ hx)
  have hspans : m'.freeList.spans (ys ++ c :: b :: zs) = m.freeList.spans ys ++
      [(c, m.freeList.size c)] ++ (b, m.freeList.size b + m.freeList.size d) ::
        m.freeList.spans zs := by
    rw [spans_append, spans_cons, spans_cons, hsize, hother c (by simp),
      spans_congr fun x hx => hother x (by simp [hx] : x ∈ ys ++ c :: d :: zs),
      spans_congr fun x hx => hother x (by simp [hx] : x ∈ ys ++ c :: d :: zs), List.append_assoc]
    rfl
  have hordered := h.inOrder_insert hys hzs
  have hcovers := free_insert m.freeList ys (d :: zs) b c
  rw [List.append_cons, spans_cons] at hordered hcovers
  obtain rfl : b + m.freeList.size b = d := hm.touches
  refine ⟨ys ++ c :: b :: zs, ⟨?_, ?_⟩, fun u => ?_⟩
  · change Seg m'.next (some m'.freelist) (ys ++ c :: b :: zs) none
    rw [hfreelist]
    exact h.proper.chain.replace_after h.proper.chain.nodup hb hm.link hm.next hm.others
  · rw [hspans]
    exact hordered.merge
  · rw [Free, hspans, covers_merge]
    exact hcovers u

/-- Between two blocks that both touch it, the freed block is added to the one before it, which then
reaches over the one behind it. -/
theorem freeAt_both {d : Nat} (htouch : c + m.size c = b) (hnext : m.next c = some d)
    (hright : b + m.size b = d) (hc : 0 < m.size c) (hb : 0 < m.size b) :
    ∃ m', m.freeAt b c = some m' ∧ m'.freelist = m.freelist ∧
      (∀ x, x ≠ b → m'.next x = m.next x) ∧ c + m'.size c = d + m.size d := by
  have hcb : c ≠ b := by omega
  have hbetween : c < b ∧ b < d := by omega
  have hkept : ((m.setSize b (m.size b + m.size d)).setNext b (m.next d)).size c = m.size c := by
    rw [Arena.setNext_size, Arena.setSize_size_of_ne _ hcb]
  have hgrown : ((m.setSize b (m.size b + m.size d)).setNext b (m.next d)).size b =
      m.size b + m.size d := by
    rw [Arena.setNext_size, Arena.setSize_size_self]
  refine ⟨((m.setSize b (m.size b + m.size d)).setNext b (m.next d)).setSize c
    (m.size c + (m.size b + m.size d)), ?_, rfl, fun x hx => ?_, ?_⟩
  · simp only [Arena.freeAt, hnext, if_pos hbetween, if_pos hright, hkept, hgrown, if_pos htouch]
  · rw [Arena.setSize_next, Arena.setNext_next_of_ne _ hx, Arena.setSize_next]
  · rw [Arena.setSize_size_self]
    omega

end Shapes

/-- A list that is not empty starts somewhere. -/
theorem FreeList.Proper.exists_arena (h : s.Proper fs) (hne : fs ≠ []) :
    ∃ m : Arena, s = m.freeList := by
  obtain ⟨first, rest, rfl⟩ := List.exists_cons_of_ne_nil hne
  refine ⟨⟨s.header, first⟩, ?_⟩
  rw [Arena.freeList, ← h.chain.start_of_cons]

theorem doFree_freeList {m m' : Arena} (h : m.freeList.Proper fs) (hfuel : fs.length < fuel)
    (hfound : fs.findSome? (m.freeAt b) = some m') :
    FreeList.doFree fuel (b + 1) m.freeList = some m'.freeList := by
  have hblocks : follow m.next fuel (some m.freelist) = fs := h.blocks_eq hfuel
  change (match (follow m.next fuel (some m.freelist)).findSome? (m.freeAt (b + 1 - 1)) with
    | some m' => some m'.freeList
    | none => if (follow m.next fuel (some m.freelist)).length < fuel then
        some m.freeList else none) = _
  rw [hblocks, Nat.add_sub_cancel, hfound]

/-- Above a free block, and not between two that touch it, the freed block is taken back. -/
theorem FreeList.Freeing.above (h : s.Freeing fs b) (hfuel : fs.length < fuel)
    (hbelow : ∃ a ∈ fs, a < b)
    (hapart : ∀ a ∈ fs, a + s.size a = b → s.next a ≠ some (b + s.size b)) :
    ∃ s', FreeList.doFree fuel (b + 1) s = some s' ∧ s.TakesBack s' fs b := by
  obtain ⟨a, ha, hab⟩ := hbelow
  obtain ⟨m, rfl⟩ := h.proper.exists_arena (List.ne_nil_of_mem ha)
  obtain ⟨ys, zs, rfl, hys, hzs⟩ := split_at h.proper.ascending h.notMem
  rcases List.eq_nil_or_concat ys with rfl | ⟨us, c, rfl⟩
  · exact absurd (hzs a ha) (by omega)
  · rw [List.concat_eq_append] at hys
    rw [List.concat_eq_append, List.append_assoc, List.singleton_append] at h hapart hfuel ⊢
    obtain ⟨r, -, -, hback⟩ := seg_append.1 h.proper.chain
    -- the block in front of the freed one is where the loop stops, and the list goes on behind it
    have hnext : ∀ d, m.next c = some d → ∃ rest, zs = d :: rest := by
      intro d hd
      cases zs with
      | nil => exact absurd (hd.symm.trans hback) (Option.some_ne_none d)
      | cons z zs =>
          obtain rfl : d = z := Option.some.inj (hd.symm.trans hback.start_of_cons)
          exact ⟨zs, rfl⟩
    have hbehind : ∀ d, m.next c = some d → b < d := by
      intro d hd
      obtain ⟨rest, rfl⟩ := hnext d hd
      exact hzs d List.mem_cons_self
    have hnot : ¬ (c + m.size c = b ∧ m.next c = some (b + m.size b)) := fun hboth =>
      hapart c (by simp) hboth.1 hboth.2
    obtain ⟨m', hfree, hfreelist, hshape⟩ := freeAt_above (hys c (by simp)) hbehind hnot
    have hfound : (us ++ c :: zs).findSome? (m.freeAt b) = some m' :=
      (findSome_skip h.proper.chain (.inl hys)).trans (by rw [List.findSome?_cons, hfree])
    refine ⟨m'.freeList, doFree_freeList h.proper hfuel hfound, ?_⟩
    rcases hshape with hm | hm | ⟨d, hm⟩
    · exact hm.takesBack h hfreelist hys hzs
    · exact hm.takesBack h hfreelist hys hzs
    · obtain ⟨rest, rfl⟩ := hnext d hm.succ
      exact hm.takesBack h hfreelist hys hzs

/-- The first unit of the freed block belongs to no free block. -/
theorem FreeList.Freeing.not_free (h : s.Freeing fs b) : ¬ s.Free fs b := by
  rintro ⟨x, hx, hstart, hend⟩
  obtain ⟨a, ha, rfl⟩ := List.mem_map.1 hx
  have hpositive := h.positive
  rcases h.outside a ha with hleft | hright
  · simp only at hleft hend
    omega
  · simp only at hright hstart
    omega

/-- A block below the whole list is not linked in. -/
theorem FreeList.Freeing.not_below (h : s.Freeing fs b) (hfuel : fs.length < fuel) (hne : fs ≠ [])
    (hbelow : ∀ a ∈ fs, b < a) :
    ¬ ∃ s', FreeList.doFree fuel (b + 1) s = some s' ∧ s.TakesBack s' fs b := by
  rintro ⟨s', hrun, fs', hproper, hfree⟩
  obtain ⟨m, rfl⟩ := h.proper.exists_arena hne
  obtain ⟨us, c, rfl⟩ := (List.eq_nil_or_concat fs).resolve_left hne
  rw [List.concat_eq_append] at h hfuel hbelow hfree
  -- the loop ends at the last block
  have hlast : m.next c = none := (seg_snoc.1 h.proper.chain).2
  obtain ⟨m', hat, hfreelist, hsame⟩ := freeAt_below hlast (hbelow c (by simp))
  have hfound : (us ++ [c]).findSome? (m.freeAt b) = some m' :=
    (findSome_skip h.proper.chain (.inr hbelow)).trans (by rw [List.findSome?_cons, hat])
  rw [doFree_freeList h.proper hfuel hfound] at hrun
  obtain rfl : m'.freeList = s' := Option.some.inj hrun
  have hheader : ∀ x ∈ us ++ [c], m'.header x = m.header x := fun x hx =>
    hsame x fun heq => h.notMem (heq ▸ hx)
  have hchain : Seg m'.freeList.next m'.freeList.freelist (us ++ [c]) none := by
    change Seg m'.next (some m'.freelist) (us ++ [c]) none
    rw [hfreelist]
    exact h.proper.chain.congr fun x hx => congrArg Header.next (hheader x hx)
  have hspans : m'.freeList.spans (us ++ [c]) = m.freeList.spans (us ++ [c]) :=
    spans_congr fun x hx => congrArg Header.size (hheader x hx)
  have hin : m'.freeList.Free fs' b := (hfree b).2 (.inr ⟨le_rfl, by have := h.positive; omega⟩)
  rw [hproper.chain.unique hchain, Free, hspans] at hin
  exact h.not_free hin

/-- Between two blocks that both touch it, the freed block leaves the list overlapping. -/
theorem FreeList.Freeing.not_both (h : s.Freeing fs b) (hfuel : fs.length < fuel) (ha : a ∈ fs)
    (htouch : a + s.size a = b) (hright : s.next a = some (b + s.size b)) :
    ¬ ∃ s', FreeList.doFree fuel (b + 1) s = some s' ∧ s.TakesBack s' fs b := by
  rintro ⟨s', hrun, fs', hproper, -⟩
  obtain ⟨m, rfl⟩ := h.proper.exists_arena (List.ne_nil_of_mem ha)
  obtain ⟨us, zs, rfl⟩ := List.append_of_mem ha
  have hpositive : 0 < m.size a := h.proper.positive ha
  change a + m.size a = b at htouch
  change m.next a = some (b + m.size b) at hright
  obtain ⟨m', hat, hfreelist, hnext, hgrown⟩ := freeAt_both htouch hright rfl hpositive h.positive
  have hascending := h.proper.ascending
  have hside : ∀ x ∈ us ++ [a], x < b := by
    intro x hx
    rcases List.mem_append.1 hx with hx | hx
    · have hlt := (List.pairwise_append.1 hascending).2.2 x hx a List.mem_cons_self
      omega
    · rw [List.mem_singleton.1 hx]
      omega
  have hfound : (us ++ a :: zs).findSome? (m.freeAt b) = some m' :=
    (findSome_skip h.proper.chain (.inl hside)).trans (by rw [List.findSome?_cons, hat])
  rw [doFree_freeList h.proper hfuel hfound] at hrun
  obtain rfl : m'.freeList = s' := Option.some.inj hrun
  -- the link of the freed block is the only one that changes, so the list has the blocks it had
  have hchain : Seg m'.freeList.next m'.freeList.freelist (us ++ a :: zs) none := by
    change Seg m'.next (some m'.freelist) (us ++ a :: zs) none
    rw [hfreelist]
    exact h.proper.chain.congr fun x hx => hnext x fun heq => h.notMem (heq ▸ hx)
  obtain ⟨r, -, -, hback⟩ := seg_append.1 h.proper.chain
  cases zs with
  | nil => exact absurd (hright.symm.trans hback) (Option.some_ne_none _)
  | cons d zs =>
      -- the block in front ends where the one behind ends, which is not where that one starts
      have hd : b + m.size b = d := Option.some.inj (hright.symm.trans hback.start_of_cons)
      have hordered := hproper.inOrder
      rw [hproper.chain.unique hchain, spans_append] at hordered
      obtain ⟨-, hordered, -⟩ := inOrder_append.1 hordered
      obtain ⟨-, -, hafter⟩ := inOrder_cons.1 hordered
      have hend : a + m'.size a ≤ d := hafter (d, m'.size d) List.mem_cons_self
      have hdpositive : 0 < m.size d := h.proper.positive (a := d) (by simp)
      rw [hd] at hgrown
      omega

theorem FreeList.Freeing.empty (h : s.Freeing [] b) :
    (∃ s', FreeList.doFree fuel (b + 1) s = some s' ∧ s.TakesBack s' [] b) ↔ s.next b = none := by
  have hnull : s.freelist = none := h.proper.chain
  have hrun : FreeList.doFree fuel (b + 1) s = some ⟨s.header, some b⟩ := by
    rw [FreeList.doFree, hnull]
    rfl
  rw [hrun]
  constructor
  · rintro ⟨s', hs', fs', hproper, hfree⟩
    obtain rfl : (⟨s.header, some b⟩ : FreeList) = s' := Option.some.inj hs'
    cases fs' with
    | nil => exact absurd hproper.chain (Option.some_ne_none b)
    | cons x rest =>
        obtain rfl : b = x := Option.some.inj hproper.chain.start_of_cons
        cases rest with
        | nil => exact hproper.chain.2
        | cons c rest =>
            -- the unit of a second header would be covered, and was not before
            obtain ⟨-, -, hafter⟩ := inOrder_cons.1 hproper.inOrder
            have hstart : b + s.size b ≤ c := hafter (c, s.size c) List.mem_cons_self
            have hpositive : 0 < s.size c := hproper.positive (a := c) (by simp)
            have hc := (hfree c).1 ⟨(c, s.size c), List.mem_map_of_mem (by simp), le_rfl, by
              simp only
              omega⟩
            rcases hc with hnone | hblock
            · exact absurd hnone covers_nil
            · omega
  · intro hnext
    refine ⟨_, rfl, [b], ⟨⟨rfl, hnext⟩, ?_⟩, fun u => ?_⟩
    · exact inOrder_cons.2 ⟨h.positive, ⟨List.Pairwise.nil, by simp⟩, by simp⟩
    · simp [Free, FreeList.spans, FreeList.size]

/-- When `do_free` keeps a proper list: above a free block, and not between two that touch the freed
one. -/
theorem doFree_takesBack_iff (h : s.Freeing fs b) (hfuel : fs.length < fuel) :
    (∃ s', FreeList.doFree fuel (b + 1) s = some s' ∧ s.TakesBack s' fs b) ↔
      (fs = [] ∧ s.next b = none) ∨
        ((∃ a ∈ fs, a < b) ∧ ∀ a ∈ fs, a + s.size a = b → s.next a ≠ some (b + s.size b)) := by
  constructor
  · intro hkeeps
    by_cases hempty : fs = []
    · subst hempty
      exact Or.inl ⟨rfl, h.empty.1 hkeeps⟩
    · refine Or.inr ⟨?_, fun a ha htouch hright => h.not_both hfuel ha htouch hright hkeeps⟩
      by_contra hnone
      refine h.not_below hfuel hempty (fun a ha => ?_) hkeeps
      have hle : ¬ a < b := fun hlt => hnone ⟨a, ha, hlt⟩
      have hne : a ≠ b := fun heq => h.notMem (heq ▸ ha)
      omega
  · rintro (⟨rfl, hnext⟩ | ⟨hbelow, hapart⟩)
    · exact h.empty.2 hnext
    · exact h.above hfuel hbelow hapart

/-- Free blocks at 10 and 20, and live blocks at 5, 13, between them without a gap, and 26. -/
def sampleList : FreeList where
  header := fun i =>
    if i = 10 then ⟨some 20, 3⟩
    else if i = 20 then ⟨none, 4⟩
    else if i = 13 then ⟨none, 7⟩
    else ⟨none, 2⟩
  freelist := some 10

theorem sampleList_proper : sampleList.Proper [10, 20] :=
  ⟨⟨rfl, rfl, rfl⟩, by decide, by decide⟩

/-- The block at 5 is below the list, the one at 13 touches both blocks. -/
theorem sampleList_not_takesBack :
    (sampleList.Freeing [10, 20] 5 ∧
      ¬ ∃ s', FreeList.doFree 256 6 sampleList = some s' ∧
        sampleList.TakesBack s' [10, 20] 5) ∧
    (sampleList.Freeing [10, 20] 13 ∧
      ¬ ∃ s', FreeList.doFree 256 14 sampleList = some s' ∧
        sampleList.TakesBack s' [10, 20] 13) := by
  have hbelow : sampleList.Freeing [10, 20] 5 :=
    ⟨sampleList_proper, by decide, by decide, by decide⟩
  have hboth : sampleList.Freeing [10, 20] 13 :=
    ⟨sampleList_proper, by decide, by decide, by decide⟩
  refine ⟨⟨hbelow, hbelow.not_below (by decide) (List.cons_ne_nil _ _) (by decide)⟩, hboth, ?_⟩
  exact hboth.not_both (by decide) (a := 10) List.mem_cons_self rfl rfl

/-- The block at 26 is above the list. -/
theorem sampleList_takesBack : ∃ s', FreeList.doFree 256 27 sampleList = some s' ∧
    sampleList.TakesBack s' [10, 20] 26 := by
  have habove : sampleList.Freeing [10, 20] 26 :=
    ⟨sampleList_proper, by decide, by decide, by decide⟩
  exact (doFree_takesBack_iff habove (by decide)).2 (.inr (by decide))

/-! ## `do_malloc` -/

/-- `ptr` points to `size` bytes in a block, of the size its header says, that was part of a free
block and is free no more. -/
structure FreeList.Serves (s s' : FreeList) (fs : List Nat) (size : Word) (ptr : Nat) : Prop where
  pointer : ptr ≠ 0
  room : 16 * ptr + size.toNat ≤ 16 * (ptr - 1 + s'.size (ptr - 1))
  inside : ∃ a ∈ fs, a ≤ ptr - 1 ∧ ptr - 1 + s'.size (ptr - 1) ≤ a + s.size a
  taken : ∃ fs', s'.Proper fs' ∧ ∀ u, s'.Free fs' u →
    s.Free fs u ∧ ¬ (ptr - 1 ≤ u ∧ u < ptr - 1 + s'.size (ptr - 1))

/-- The call returns, with a block, or with NULL if no block is large enough. -/
def FreeList.Answers (s : FreeList) (fs : List Nat) (fuel : Nat) (size : Word) : Prop :=
  ∃ ptr s', FreeList.doMalloc fuel size s = some (ptr, s') ∧
    (s.Serves s' fs size ptr ∨ (ptr = 0 ∧ s' = s ∧ ∀ a ∈ fs, s.size a < needed size))

/-- A request that wraps around is for one unit. -/
theorem numOfStructs_wrap (hsize : ¬ Representable size) : Arena.numOfStructs size = 1 := by
  have hsum : (size + 16 - 1 : Word) = size + 15 := by
    rw [BitVec.sub_eq_add_neg, BitVec.add_assoc]
    rfl
  have hlt := size.isLt
  rw [Representable] at hsize
  have hsmall : (size + 15 : Word).toNat = size.toNat + 15 - 2 ^ 64 := by
    rw [BitVec.toNat_add]
    change (size.toNat + 15) % 2 ^ 64 = _
    omega
  have hzero : ((size + 15 : Word) / 16).toNat = 0 := by
    rw [BitVec.toNat_udiv, hsmall]
    exact Nat.div_eq_of_lt (by
      change _ < 16
      omega)
  rw [Arena.numOfStructs, hsum, BitVec.toNat_add, hzero]
  rfl

theorem doMalloc_freeList {m : Arena} (h : m.freeList.Proper fs) (hfuel : fs.length < fuel)
    (size : Word) :
    FreeList.doMalloc fuel size m.freeList =
      (m.firstFit (Arena.numOfStructs size) m.freelist fs).map fun found =>
        ((m.takeFrom (Arena.numOfStructs size) found.1 found.2).1 + 1,
          (m.takeFrom (Arena.numOfStructs size) found.1 found.2).2.freeList) := by
  have hblocks : follow m.next fuel (some m.freelist) = fs := h.blocks_eq hfuel
  change (m.firstFit (Arena.numOfStructs size) m.freelist
    (follow m.next fuel (some m.freelist))).bind _ = _
  rw [hblocks]
  cases m.firstFit (Arena.numOfStructs size) m.freelist fs with
  | none => rfl
  | some found => rfl

/-- The block handed out is the end of the fit, and its header says its size. -/
theorem takeFrom_end {m : Arena} (hfit : n ≤ m.size a) :
    a ≤ (m.takeFrom n q a).1 ∧ (m.takeFrom n q a).1 + n = a + m.size a ∧
      (m.takeFrom n q a).2.freeList.size (m.takeFrom n q a).1 = n := by
  by_cases hexact : m.size a = n
  · rw [takeFrom_exact hexact]
    refine ⟨le_rfl, by rw [hexact], ?_⟩
    exact (Arena.setNext_size q a _).trans hexact
  · rw [takeFrom_split hexact]
    refine ⟨Nat.le_add_right _ _, by simp only; omega, ?_⟩
    exact Arena.setSize_size_self _ n

theorem firstFit_of_fit {m : Arena} {prev : Nat} (ha : a ∈ fs) (hfit : n ≤ m.size a) :
    ∃ found, m.firstFit n prev fs = some found := by
  induction fs generalizing prev with
  | nil => cases ha
  | cons x fs ih =>
      rw [Arena.firstFit]
      by_cases hx : n ≤ m.size x
      · exact ⟨_, if_pos hx⟩
      · rw [if_neg hx]
        rcases List.mem_cons.1 ha with rfl | ha
        · exact absurd hfit hx
        · exact ih ha

/-- An exact fit with a block in front of it is unlinked; the list then starts at that block. -/
theorem exact_taken {m : Arena} {us : List Nat} (h : m.freeList.Proper (us ++ q :: a :: zs)) :
    let m' : Arena := { m.setNext q (m.next a) with freelist := q }
    m'.freeList.Proper (q :: zs) ∧ ∀ u, m'.freeList.Free (q :: zs) u →
      m.freeList.Free (us ++ q :: a :: zs) u ∧ ¬ (a ≤ u ∧ u < a + m.size a) := by
  intro m'
  obtain ⟨r, -, hstart, hback⟩ := seg_append.1 h.chain
  have hqnotin : q ∉ a :: zs :=
    (List.nodup_cons.1 (List.nodup_append.1 h.chain.nodup).2.1).1
  have hspans : ∀ xs, m'.freeList.spans xs = m.freeList.spans xs := fun xs =>
    spans_congr fun x _ => Arena.setNext_size q x _
  -- what lies in front of the block `q` is lost, and the rest stays in order
  have hordered := h.inOrder
  rw [spans_append] at hordered
  obtain ⟨-, hordered, -⟩ := inOrder_append.1 hordered
  refine ⟨⟨⟨rfl, ?_⟩, ?_⟩, fun u hu => ?_⟩
  · -- the block in front now leads to what was behind the fit
    change Seg (m.setNext q (m.next a)).next ((m.setNext q (m.next a)).next q) zs none
    rw [Arena.setNext_next_self]
    exact hback.2.congr fun x hx => Arena.setNext_next_of_ne _ fun heq =>
      hqnotin (heq ▸ List.mem_cons_of_mem a hx)
  · rw [hspans]
    exact hordered.sublist ((List.sublist_cons_self _ _).cons_cons _)
  · rw [Free, hspans] at hu
    refine ⟨?_, fun hblock => ?_⟩
    · rw [Free, spans_append, covers_append]
      right
      rw [spans_cons, covers_cons] at hu ⊢
      exact hu.imp id fun hzs => covers_cons.2 (.inr hzs)
    · have hsplit : InOrder ([(q, m.freeList.size q)] ++ (a, m.freeList.size a) ::
          m.freeList.spans zs) := hordered
      exact hsplit.not_covers hblock hu

/-- A larger fit keeps its front; the list then starts at the block in front of it, if it has
one. -/
theorem split_taken {m : Arena} (us ws : List Nat) (h : m.freeList.Proper (us ++ (ws ++ a :: zs)))
    (hq : (ws ++ a :: zs).head? = some q) (hn : 0 < n) (hfit : n < m.size a) :
    let b := a + (m.size a - n)
    let m' : Arena := { (m.setSize a (m.size a - n)).setSize b n with freelist := q }
    m'.freeList.Proper (ws ++ a :: zs) ∧ ∀ u, m'.freeList.Free (ws ++ a :: zs) u →
      m.freeList.Free (us ++ (ws ++ a :: zs)) u ∧ ¬ (b ≤ u ∧ u < b + n) := by
  intro b m'
  obtain ⟨r, -, hback⟩ := seg_append.1 h.chain
  have hordered := h.inOrder
  rw [spans_append] at hordered
  obtain ⟨-, hordered, -⟩ := inOrder_append.1 hordered
  rw [spans_append, spans_cons] at hordered
  have hb : a < b ∧ b < a + m.size a := by omega
  -- no other block starts inside the fit
  have hother : ∀ x ∈ ws ++ zs, m'.freeList.size x = m.freeList.size x := by
    intro x hx
    have hcover : ∀ u, x = u → Covers (m.freeList.spans ws ++ m.freeList.spans zs) u := by
      rintro u rfl
      rw [← spans_append]
      have hxmem : x ∈ us ++ (ws ++ a :: zs) := by
        rcases List.mem_append.1 hx with hx | hx <;> simp [hx]
      have hpositive := h.positive hxmem
      exact ⟨_, List.mem_map_of_mem hx, le_rfl, Nat.lt_add_of_pos_right hpositive⟩
    have hxa : x ≠ a := fun heq =>
      hordered.not_covers (u := a) ⟨le_rfl, by change a < a + m.size a; omega⟩ (hcover a heq)
    have hxb : x ≠ b := fun heq =>
      hordered.not_covers (u := b) ⟨hb.1.le, hb.2⟩ (hcover b heq)
    exact (Arena.setSize_size_of_ne _ hxb).trans (Arena.setSize_size_of_ne _ hxa)
  have hkept : m'.freeList.size a = m.size a - n :=
    (Arena.setSize_size_of_ne _ hb.1.ne).trans (Arena.setSize_size_self a _)
  have hspans : m'.freeList.spans (ws ++ a :: zs) =
      m.freeList.spans ws ++ (a, m.size a - n) :: m.freeList.spans zs := by
    rw [spans_append, spans_cons, hkept,
      spans_congr fun x hx => hother x (List.mem_append_left _ hx),
      spans_congr fun x hx => hother x (List.mem_append_right _ hx)]
  have hcut : InOrder (m.freeList.spans ws ++ (a, m.size a - n) :: (b, n) ::
      m.freeList.spans zs) := by
    refine InOrder.split ?_ (Nat.sub_pos_of_lt hfit) hn
    rw [Nat.sub_add_cancel hfit.le]
    exact hordered
  refine ⟨⟨?_, ?_⟩, fun u hu => ?_⟩
  · have hstart : r = some q := by
      cases hws : ws ++ a :: zs with
      | nil => exact absurd hws (by simp)
      | cons x xs =>
          rw [hws] at hq hback
          exact hback.start_of_cons.trans hq
    rw [hstart] at hback
    exact hback.congr fun x _ => (Arena.setSize_next b x n).trans (Arena.setSize_next a x _)
  · rw [hspans]
    refine hcut.sublist (List.Sublist.append_left ?_ _)
    exact (List.sublist_cons_self _ _).cons_cons _
  · rw [Free, hspans] at hu
    refine ⟨?_, fun hblock => ?_⟩
    · rw [Free, spans_append, spans_append, spans_cons, covers_append, covers_append, covers_cons]
      rw [covers_append, covers_cons] at hu
      right
      refine hu.imp_right (Or.imp_left ?_)
      rintro ⟨hleft, hright⟩
      exact ⟨hleft, hright.trans_le (Nat.add_le_add_left (Nat.sub_le _ _) a)⟩
    · have hapart : ¬ Covers (m.freeList.spans ws ++ [(a, m.size a - n)] ++
          m.freeList.spans zs) u := by
        refine InOrder.not_covers (x := (b, n)) ?_ hblock
        rw [List.append_assoc]
        exact hcut
      rw [List.append_assoc] at hapart
      exact hapart hu

/-- A request that some block is large enough for, and that is not an exact fit at the head. -/
theorem FreeList.Proper.serves (h : s.Proper fs) (hfuel : fs.length < fuel)
    (hsize : Representable size) (hfit : ∃ a ∈ fs, needed size ≤ s.size a)
    (hhead : ∀ a, s.freelist = some a → s.size a ≠ needed size) : s.Answers fs fuel size := by
  obtain ⟨x, hx, hroom⟩ := hfit
  obtain ⟨m, rfl⟩ := h.exists_arena (List.ne_nil_of_mem hx)
  obtain ⟨⟨q, a⟩, hfound⟩ : ∃ found, m.firstFit (needed size) m.freelist fs = some found :=
    firstFit_of_fit hx hroom
  have hrun := doMalloc_freeList h hfuel size
  rw [numOfStructs_eq hsize, hfound] at hrun
  obtain ⟨ys, zs, rfl, -, hfit, hq⟩ := firstFit_eq hfound
  obtain ⟨hstart, hend, hsizeOf⟩ := takeFrom_end (q := q) hfit
  have hn : 0 < needed size := Nat.succ_pos _
  -- an exact fit is not at the head, so it is unlinked; a larger block is cut
  have htaken : ∃ fs', (m.takeFrom (needed size) q a).2.freeList.Proper fs' ∧
      ∀ u, (m.takeFrom (needed size) q a).2.freeList.Free fs' u →
        m.freeList.Free (ys ++ a :: zs) u ∧ ¬ ((m.takeFrom (needed size) q a).1 ≤ u ∧
          u < (m.takeFrom (needed size) q a).1 + needed size) := by
    by_cases hexact : m.size a = needed size
    · rw [takeFrom_exact hexact]
      rcases List.eq_nil_or_concat ys with rfl | ⟨us, y, rfl⟩
      · exact absurd hexact (hhead a h.chain.start_of_cons)
      · obtain rfl : q = y := by simpa using hq
        rw [List.concat_eq_append, List.append_assoc] at h ⊢
        rw [← hexact]
        exact ⟨_, exact_taken h⟩
    · rw [takeFrom_split hexact]
      have hlt : needed size < m.size a := Nat.lt_of_le_of_ne hfit (Ne.symm hexact)
      rcases List.eq_nil_or_concat ys with rfl | ⟨us, y, rfl⟩
      · obtain rfl : m.freelist = a := Option.some.inj h.chain.start_of_cons
        obtain rfl : q = m.freelist := by simpa using hq
        exact ⟨_, split_taken [] [] h rfl hn hlt⟩
      · obtain rfl : q = y := by simpa using hq
        rw [List.concat_eq_append, List.append_assoc] at h ⊢
        exact ⟨_, split_taken us [q] h rfl hn hlt⟩
  refine ⟨_, _, hrun, .inl ⟨Nat.succ_ne_zero _, ?_, ⟨a, by simp, hstart, ?_⟩, ?_⟩⟩
  · simp only [Nat.add_sub_cancel, hsizeOf]
    rw [needed]
    omega
  · simp only [Nat.add_sub_cancel, hsizeOf]
    exact hend.le
  · simp only [Nat.add_sub_cancel, hsizeOf]
    exact htaken

/-- What an answer says about the request. -/
theorem FreeList.Proper.answers (h : s.Proper fs) (hfuel : fs.length < fuel)
    (hanswers : s.Answers fs fuel size) :
    Representable size ∧ (∃ a ∈ fs, needed size ≤ s.size a) ∧
      ∀ a, s.freelist = some a → s.size a ≠ needed size := by
  obtain ⟨ptr, s', hrun, hcase⟩ := hanswers
  have hne : fs ≠ [] := by
    rintro rfl
    have hnull : s.freelist = none := h.chain
    rw [FreeList.doMalloc, hnull] at hrun
    cases hrun
  obtain ⟨m, rfl⟩ := h.exists_arena hne
  rw [doMalloc_freeList h hfuel] at hrun
  obtain ⟨⟨q, a⟩, hfound, hret⟩ := Option.map_eq_some_iff.1 hrun
  obtain ⟨rfl, rfl⟩ := Prod.mk.inj hret
  obtain ⟨ys, zs, hfs, -, hfit, -⟩ := firstFit_eq hfound
  obtain ⟨hstart, hend, hsizeOf⟩ := takeFrom_end (q := q) hfit
  have hserves := hcase.resolve_right fun hnull => Nat.succ_ne_zero _ hnull.1
  -- the bytes asked for fit behind the header of the block
  have hroom := hserves.room
  rw [Nat.add_sub_cancel, hsizeOf] at hroom
  have hsize : Representable size := by
    by_contra hwrap
    rw [numOfStructs_wrap hwrap] at hroom
    rw [Representable] at hwrap
    omega
  have hneeded := numOfStructs_eq hsize
  refine ⟨hsize, ⟨a, hfs ▸ by simp, hneeded ▸ hfit⟩, fun first hfirst hexact => ?_⟩
  obtain rfl : m.freelist = first := Option.some.inj hfirst
  obtain ⟨rest, hrest⟩ : ∃ rest, fs = m.freelist :: rest := by
    cases fs with
    | nil => exact absurd rfl hne
    | cons x rest => exact ⟨rest, by rw [Option.some.inj h.chain.start_of_cons]⟩
  -- an exact fit at the head is handed out, and stays the head
  have hhead : (q, a) = (m.freelist, m.freelist) := by
    rw [hrest, Arena.firstFit, hneeded, if_pos (by exact hexact.ge)] at hfound
    exact (Option.some.inj hfound).symm
  obtain ⟨rfl, rfl⟩ := Prod.mk.inj hhead
  obtain ⟨fs', hproper, htaken⟩ := hserves.taken
  rw [hneeded, takeFrom_exact hexact] at hproper htaken
  cases fs' with
  | nil => exact absurd hproper.chain (Option.some_ne_none _)
  | cons x rest' =>
      obtain rfl : m.freelist = x := Option.some.inj hproper.chain.start_of_cons
      have hpositive := hproper.positive (a := m.freelist) List.mem_cons_self
      have hinside := Nat.lt_add_of_pos_right (n := m.freelist) hpositive
      exact (htaken m.freelist ⟨_, List.mem_map_of_mem List.mem_cons_self, le_rfl, hinside⟩).2
        ⟨le_rfl, hinside⟩

/-- When `do_malloc` answers: the request can be rounded up, some block is large enough, and the
head is not of exactly that size. -/
theorem doMalloc_answers_iff (h : s.Proper fs) (hfuel : fs.length < fuel) :
    s.Answers fs fuel size ↔ Representable size ∧ (∃ a ∈ fs, needed size ≤ s.size a) ∧
      ∀ a, s.freelist = some a → s.size a ≠ needed size :=
  ⟨h.answers hfuel, fun hall => h.serves hfuel hall.1 hall.2.1 hall.2.2⟩

/-- No block has the eight units that a request of 100 bytes needs, and the head has exactly the
three units that one of 20 needs. -/
theorem sampleList_not_answers : sampleList.Proper [10, 20] ∧
    FreeList.doMalloc 256 100 sampleList = none ∧ ¬ sampleList.Answers [10, 20] 256 100 ∧
    ¬ sampleList.Answers [10, 20] 256 20 := by
  have hnone : FreeList.doMalloc 256 100 sampleList = none := by rfl
  refine ⟨sampleList_proper, hnone, ?_, fun hanswers => ?_⟩
  · rintro ⟨ptr, s', hrun, -⟩
    exact absurd (hnone.symm.trans hrun) (Option.some_ne_none _).symm
  · exact (sampleList_proper.answers (by decide) hanswers).2.2 10 rfl (by decide)

/-- A request of 40 bytes is served from the second block. -/
theorem sampleList_answers : sampleList.Answers [10, 20] 256 40 := by
  have hsize : Representable 40 := by
    rw [Representable]
    decide
  refine (doMalloc_answers_iff sampleList_proper (by decide)).2 ⟨hsize, by decide, fun a ha => ?_⟩
  obtain rfl : 10 = a := Option.some.inj ha
  decide

end UserHeap

end OswpKernel
