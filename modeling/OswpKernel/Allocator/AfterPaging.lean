import OswpKernel.Allocator.Boot

/-!
# Allocator after paging — from the boot list to the list of the running kernel

Once the window at `KERNBASE` is mapped, `init_after_paging` goes over the list that the requests of
the boot have left and moves every pointer of it into the window (`sys/allocator.c`).  The nodes lie
in the memory that is managed; `boot_establishes` says what the list is then, and that no page
overlaps a node.
-/

namespace OswpKernel

namespace Allocator

open Chain

/-! ## `init_after_paging` -/

/-- A pointer plus `KERNBASE`. -/
def relocated (x : NodeRef) : NodeRef := (x + KERNBASE.toNat) % 2 ^ 64

/-- The nodes as the window shows them. -/
def window (node : NodeRef → FreeNode) : NodeRef → FreeNode := fun x => node (x - KERNBASE.toNat)

/-- The loop `while (temp_free->next != NULL)`. -/
def relocateFrom : Nat → NodeRef → (NodeRef → FreeNode) → Option (NodeRef × (NodeRef → FreeNode))
  | 0, _, _ => none
  | fuel + 1, temp, node =>
      match (node temp).next with
      | none => some (temp, node)
      | some x => relocateFrom fuel (relocated x)
          (Function.update node temp { node temp with next := some (relocated x) })

def initAfterPaging (fuel : Nat) (s : Allocator) : Option Allocator := do
  let head ← s.headFree
  let (last, node) ← relocateFrom fuel (relocated head) (window s.node)
  return { s with
    node := node
    headFree := some (relocated head)
    headEnd := some last
    headUnalloc := some last }

/-- `bump_initial` for each of the sizes. -/
def bumpInitials : List Word → Allocator → Option (List Word × Allocator)
  | [], s => some ([], s)
  | size :: sizes, s => do
      let (ret, s) ← s.bumpInitial size
      let (rets, s) ← bumpInitials sizes s
      return (ret :: rets, s)

/-! ## Relocation -/

variable {s : Allocator} {page : Word} {nodes xs : List NodeRef} {x y : NodeRef}
  {node node' heap : NodeRef → FreeNode} {physfree physend : Word} {sizes : List Word}

theorem relocated_eq (hx : x < directMapLimit) : relocated x = x + KERNBASE.toNat := by
  have hbase : directMapLimit + KERNBASE.toNat = 2 ^ 64 := by decide
  rw [relocated, Nat.mod_eq_of_lt (hbase ▸ Nat.add_lt_add_right hx _)]

theorem relocated_inj (hx : x < directMapLimit) (hy : y < directMapLimit)
    (h : relocated x = relocated y) : x = y := by
  rw [relocated_eq hx, relocated_eq hy] at h
  exact Nat.add_right_cancel h

theorem window_relocated (hx : x < directMapLimit) : window node (relocated x) = node x := by
  rw [window, relocated_eq hx, Nat.add_sub_cancel]

/-- Every pointer of the list is relocated once; `node` is the list before the loop. -/
theorem relocateFrom_spec (hlinked : Seg (fun y => (node y).next) (some x) (x :: xs) none)
    (hnodup : (x :: xs).Nodup) (hlow : ∀ y ∈ x :: xs, y < directMapLimit)
    (hsame : ∀ y ∈ x :: xs, node' (relocated y) = node y) :
    ∃ after, (∀ fuel, xs.length < fuel → relocateFrom fuel (relocated x) node' =
        some (relocated ((x :: xs).getLast (List.cons_ne_nil x xs)), after)) ∧
      Seg (fun v => (after v).next) (some (relocated x)) ((x :: xs).map relocated) none ∧
      (∀ v, v ∉ (x :: xs).map relocated → after v = node' v) ∧
      ∀ y ∈ x :: xs, (after (relocated y)).current = (node y).current := by
  induction xs generalizing x node' with
  | nil =>
      have hend : (node' (relocated x)).next = none := by
        rw [hsame x List.mem_cons_self]
        exact hlinked.2
      refine ⟨node', fun fuel hfuel => ?_, ⟨rfl, hend⟩, fun _ _ => rfl, fun y hy => ?_⟩
      · cases fuel with
        | zero => exact absurd hfuel (Nat.not_lt_zero _)
        | succ fuel =>
            rw [relocateFrom, hend]
            rfl
      · rw [hsame y hy]
  | cons z zs ih =>
      rcases hlinked with ⟨-, hz, hzs⟩
      rcases List.nodup_cons.1 hnodup with ⟨hx, hrest⟩
      have hlink : (node' (relocated x)).next = some z := by
        rw [hsame x List.mem_cons_self]
        exact hz
      have hne : ∀ y ∈ z :: zs, relocated y ≠ relocated x := by
        intro y hy heq
        have hyx := relocated_inj (hlow y (List.mem_cons_of_mem x hy))
          (hlow x List.mem_cons_self) heq
        exact hx (hyx ▸ hy)
      -- the node of `x` is written before the loop goes on to `z`
      let written := Function.update node' (relocated x)
        { node' (relocated x) with next := some (relocated z) }
      have hsame' : ∀ y ∈ z :: zs, written (relocated y) = node y := by
        intro y hy
        exact (Function.update_of_ne (hne y hy) _ _).trans (hsame y (List.mem_cons_of_mem x hy))
      rcases @ih z written ⟨rfl, hzs⟩ hrest
          (fun y hy => hlow y (List.mem_cons_of_mem x hy)) hsame' with
        ⟨after, hloop, hseg, hother, hcurrent⟩
      have hat : after (relocated x) = { node' (relocated x) with next := some (relocated z) } := by
        rw [hother]
        · exact Function.update_self ..
        · intro hmem
          rcases List.mem_map.1 hmem with ⟨y, hy, heq⟩
          exact hne y hy heq
      refine ⟨after, fun fuel hfuel => ?_, ⟨rfl, ?_⟩, fun v hv => ?_, fun y hy => ?_⟩
      · cases fuel with
        | zero => exact absurd hfuel (Nat.not_lt_zero _)
        | succ fuel =>
            rw [relocateFrom, hlink]
            exact hloop fuel (Nat.lt_of_succ_lt_succ hfuel)
      · change Seg _ (after (relocated x)).next _ none
        rw [hat]
        exact hseg
      · rw [List.map_cons, List.mem_cons, not_or] at hv
        rw [hother v hv.2]
        exact Function.update_of_ne hv.1 _ _
      · rcases List.mem_cons.1 hy with rfl | hy
        · rw [hat, hsame y List.mem_cons_self]
        · exact hcurrent y hy

/-! ## The requests of the boot -/

theorem addPages (page : Word) (n : Nat) :
    page + 4096 + BitVec.ofNat 64 (4096 * n) = page + BitVec.ofNat 64 (4096 * (n + 1)) := by
  rw [BitVec.add_assoc, show (4096 : Word) = BitVec.ofNat 64 4096 from rfl, ← BitVec.ofNat_add,
    Nat.mul_succ, Nat.add_comm]

/-- Requests for one page each get the pages in address order. -/
theorem BootList.bumpInitials (h : BootList s page nodes)
    (hclosed : Seg s.next s.headFree nodes none) (hone : ∀ size ∈ sizes, numOfPages size = 1)
    (hroom : sizes.length ≤ nodes.length) :
    ∃ s', Allocator.bumpInitials sizes s = some ((List.range sizes.length).map
        (fun n => page + BitVec.ofNat 64 (4096 * n) + KERNBASE), s') ∧
      BootList s' (page + BitVec.ofNat 64 (4096 * sizes.length)) (nodes.drop sizes.length) ∧
      Seg s'.next s'.headFree (nodes.drop sizes.length) none := by
  induction sizes generalizing s page nodes with
  | nil => exact ⟨s, rfl, by simpa using h, hclosed⟩
  | cons size sizes ih =>
      cases nodes with
      | nil => simp at hroom
      | cons x rest =>
          rcases h.moveHead with ⟨s₁, hmove, h₁, hclosed₁⟩
          have hfirst := h.bumpInitial_moveHead (hone size List.mem_cons_self) hmove
          rcases ih h₁ (hclosed₁ hclosed) (fun t ht => hone t (List.mem_cons_of_mem size ht))
              (by simpa using hroom) with ⟨s₂, hrest, h₂, hclosed₂⟩
          refine ⟨s₂, ?_, ?_, hclosed₂⟩
          · rw [Allocator.bumpInitials, hfirst, Option.bind_eq_bind, Option.bind_some]
            dsimp only
            rw [hrest, List.length_cons, List.range_succ_eq_map]
            simp only [Option.bind_eq_bind, Option.bind_some, List.map_cons, List.map_map,
              Function.comp_def, addPages, Nat.mul_zero, BitVec.add_zero, Nat.succ_eq_add_one]
            rfl
          · rw [addPages] at h₂
            exact h₂

/-! ## The list of the running kernel -/

/-- The page addresses from `a` on below `b`. -/
def pagesUpTo (a b : Nat) : List Word :=
  (List.range' a ((b - a) / 4096) 4096).map fun p => BitVec.ofNat 64 p

/-- The first page behind the nodes. -/
def firstPage (physfree physend : Word) : Nat :=
  physfree.toNat + 4096 * nodePages (pagesBetween physfree physend)

/-- All nodes that `initbump` writes. -/
def allNodes (physfree physend : Word) : List NodeRef :=
  List.range' physfree.toNat (pagesBetween physfree physend) 16

/-- The list from `head_free` on is closed and carries `pages`; the other globals fit it. -/
structure FreeList (s : Allocator) (nodes : List NodeRef) (pages : List Word) : Prop where
  linked : Seg s.next s.headFree nodes none
  carry : nodes.map (fun x => (s.node x).current) = pages
  count : s.numberOfFreePages = nodes.length
  last : s.headEnd = nodes.getLast?
  unalloc : s.headUnalloc = nodes.getLast?

theorem Carries.map_current (h : Carries node page nodes) : nodes.map (fun x => (node x).current) =
    (List.range nodes.length).map fun n => page + BitVec.ofNat 64 (4096 * n) := by
  induction nodes generalizing page with
  | nil => rfl
  | cons x xs ih =>
      rw [List.map_cons, ih h.2, List.length_cons, List.range_succ_eq_map, List.map_cons,
        List.map_map]
      simp only [Function.comp_def, addPages, h.1, Nat.mul_zero, BitVec.add_zero,
        Nat.succ_eq_add_one]

/-- The pages between two page addresses that are `n` pages apart. -/
theorem pagesUpTo_eq {a b n : Nat} (hab : b = a + 4096 * n) :
    pagesUpTo a b = (List.range n).map fun t => BitVec.ofNat 64 a + BitVec.ofNat 64 (4096 * t) := by
  have hcount : (b - a) / 4096 = n := by omega
  rw [pagesUpTo, hcount]
  apply List.ext_getElem
  · simp
  · intro i hi hi'
    simp [BitVec.ofNat_add]

/-- The pages that hold `k` nodes are large enough for them. -/
theorem nodes_fit (k : Nat) : 16 * k ≤ 4096 * nodePages k := by
  simp only [nodePages]
  split_ifs <;> omega

/-- A closed boot list of low nodes becomes the list of the running kernel. -/
theorem BootList.initAfterPaging (h : BootList s page nodes)
    (hclosed : Seg s.next s.headFree nodes none) (hne : nodes ≠ [])
    (hlow : ∀ x ∈ nodes, x < directMapLimit) :
    ∃ s', (∀ fuel, s.numberOfFreePages ≤ fuel → Allocator.initAfterPaging fuel s = some s') ∧
      FreeList s' (nodes.map relocated)
        ((List.range nodes.length).map fun n => page + BitVec.ofNat 64 (4096 * n)) := by
  cases nodes with
  | nil => exact absurd rfl hne
  | cons x xs =>
      have hhead : s.headFree = some x := hclosed.1
      have hlinked : Seg (fun y => (s.node y).next) (some x) (x :: xs) none :=
        ⟨rfl, hclosed.2⟩
      -- the loop runs over the links as they were; the relocated nodes are not on the list
      rcases relocateFrom_spec hlinked h.nodup hlow
          (fun y hy => window_relocated (hlow y hy)) with ⟨after, hloop, hseg, -, hcurrent⟩
      let last := relocated ((x :: xs).getLast (List.cons_ne_nil x xs))
      have hlast : some last = ((x :: xs).map relocated).getLast? := by
        rw [List.getLast?_map, List.getLast?_eq_some_getLast (List.cons_ne_nil x xs)]
        rfl
      let s' : Allocator :=
        { s with
          node := after
          headFree := some (relocated x)
          headEnd := some last
          headUnalloc := some last }
      refine ⟨s', fun fuel hfuel => ?_, hseg, ?_, ?_, hlast, hlast⟩
      · have hsteps : xs.length < fuel := by
          rw [h.count, List.length_cons] at hfuel
          exact hfuel
        rw [Allocator.initAfterPaging, hhead, Option.bind_eq_bind, Option.bind_some,
          hloop fuel hsteps]
        rfl
      · rw [← h.carry.map_current, List.map_map]
        exact List.map_congr_left hcurrent
      · rw [List.length_map]
        exact h.count

/-- The memory from the page `physfree` to the page `physend` is the list of the running kernel
after `initbump`, requests for one page each that leave one, and `init_after_paging`. -/
theorem boot_establishes (heap : NodeRef → FreeNode) (hfree : physfree.toNat % 4096 = 0)
    (hend : physend.toNat % 4096 = 0)
    (hlt : physfree.toNat < physend.toNat) (hlow : physend.toNat ≤ directMapLimit)
    (hone : ∀ size ∈ sizes, numOfPages size = 1)
    (hroom : sizes.length < (pagesUpTo (firstPage physfree physend) physend.toNat).length) :
    ∃ s₀ s₁ s₂ nodes, initbump heap physfree physend = some s₀ ∧
      bumpInitials sizes s₀ = some (((pagesUpTo (firstPage physfree physend) physend.toNat).take
        sizes.length).map (fun p => p + KERNBASE), s₁) ∧
      (∀ fuel, s₁.numberOfFreePages ≤ fuel → initAfterPaging fuel s₁ = some s₂) ∧
      FreeList s₂ nodes
        (pagesUpTo (firstPage physfree physend + 4096 * sizes.length) physend.toNat) ∧
      (∀ v ∈ nodes, ∃ x ∈ allNodes physfree physend, v = relocated x) ∧
      ∀ p ∈ pagesUpTo (firstPage physfree physend) physend.toNat,
        ∀ x ∈ allNodes physfree physend, x + 16 ≤ p.toNat := by
  let k := pagesBetween physfree physend
  let l := nodePages k
  have hk : physend.toNat = physfree.toNat + 4096 * k := by
    change physend.toNat = physfree.toNat + 4096 * ((physend.toNat - physfree.toNat) / 4096)
    omega
  have hkpos : 0 < k := by omega
  have hlk : l ≤ k := nodePages_le k
  -- the `k` nodes of 16 bytes fill the first `l` pages, the free pages start behind them
  have hfit : 16 * k ≤ 4096 * l := nodes_fit k
  have hlimit : physend.toNat ≤ 2 ^ 31 := hlow
  have hfirst : firstPage physfree physend = physfree.toNat + 4096 * l := rfl
  have hpages := pagesUpTo_eq (a := firstPage physfree physend) (b := physend.toNat) (n := k - l)
    (by omega)
  have hlength : (pagesUpTo (firstPage physfree physend) physend.toNat).length = k - l := by
    rw [hpages, List.length_map, List.length_range]
  rw [hlength] at hroom
  have hpage : physfree + BitVec.ofNat 64 (4096 * l) =
      BitVec.ofNat 64 (firstPage physfree physend) := by
    rw [hfirst, BitVec.ofNat_add, BitVec.ofNat_toNat, BitVec.setWidth_eq]
  have hnodes : (bootNodes physfree physend).length = k - l := by
    rw [bootNodes, List.length_drop, List.length_range']
  rcases initbump_list heap physfree physend with ⟨s₀, hinit, hlist, hclosed⟩
  rcases hlist.bumpInitials (hclosed hkpos (by omega)) hone (by omega) with
    ⟨s₁, hbumps, hlist₁, hclosed₁⟩
  have hmem : ∀ x ∈ (bootNodes physfree physend).drop sizes.length,
      x ∈ allNodes physfree physend :=
    fun x hx => List.mem_of_mem_drop (List.mem_of_mem_drop hx)
  -- every node lies in front of the first free page
  have hnode : ∀ x ∈ allNodes physfree physend, x + 16 ≤ physfree.toNat + 16 * k := by
    intro x hx
    have harith : ∀ i : Nat, i < k →
        physfree.toNat + 16 * i + 16 ≤ physfree.toNat + 16 * k := by
      intro i hi
      omega
    rcases List.mem_range'.1 hx with ⟨i, hi, rfl⟩
    exact harith i hi
  -- so it is in the range that the boot map covers, and stays readable when it is relocated
  have hlowNodes : ∀ x ∈ (bootNodes physfree physend).drop sizes.length, x < directMapLimit := by
    intro x hx
    have hend' : physfree.toNat + 16 * k ≤ physend.toNat := by omega
    exact Nat.lt_of_lt_of_le (Nat.lt_of_lt_of_le (Nat.lt_add_of_pos_right (by decide))
      (hnode x (hmem x hx))) (hend'.trans hlow)
  have hrest : ((bootNodes physfree physend).drop sizes.length).length = k - l - sizes.length := by
    rw [List.length_drop, hnodes]
  rcases hlist₁.initAfterPaging hclosed₁ (List.ne_nil_of_length_pos (by omega)) hlowNodes with
    ⟨s₂, hafter, hfreeList⟩
  refine ⟨s₀, s₁, s₂, ((bootNodes physfree physend).drop sizes.length).map relocated, hinit, ?_,
    hafter, ?_, ?_, ?_⟩
  -- each early request takes one page, from the front of the list
  · rw [hbumps, hpages, ← List.map_take, List.map_map, List.take_range, hpage,
      Nat.min_eq_left (by omega)]
    rfl
  · rw [pagesUpTo_eq (n := k - l - sizes.length) (by omega), BitVec.ofNat_add, ← hpage, ← hrest]
    exact hfreeList
  · intro v hv
    rcases List.mem_map.1 hv with ⟨x, hx, rfl⟩
    exact ⟨x, hmem x hx, rfl⟩
  · intro p hp x hx
    rw [pagesUpTo] at hp
    rcases List.mem_map.1 hp with ⟨a, ha, rfl⟩
    have harith : ∀ t : Nat, t < (physend.toNat - firstPage physfree physend) / 4096 →
        physfree.toNat + 16 * k ≤ (BitVec.ofNat 64
          (firstPage physfree physend + 4096 * t)).toNat := by
      intro t ht
      rw [BitVec.toNat_ofNat, Nat.mod_eq_of_lt (by omega)]
      omega
    rcases List.mem_range'.1 ha with ⟨t, ht, rfl⟩
    exact (hnode x hx).trans (harith t ht)

/-- Three pages at 2 MiB: the first holds the nodes, one is handed out, one is left. -/
theorem boot_establishes_threePages : ∃ s₀ s₁ s₂ nodes,
    initbump (fun _ => ⟨0, none⟩) 0x200000 0x203000 = some s₀ ∧
      bumpInitials [4096] s₀ = some ([0xffffffff80201000], s₁) ∧
      (∀ fuel, s₁.numberOfFreePages ≤ fuel → initAfterPaging fuel s₁ = some s₂) ∧
      FreeList s₂ nodes [0x202000] := by
  have hone : ∀ size ∈ [(4096 : Word)], numOfPages size = 1 := by
    intro size hsize
    rw [List.mem_singleton.1 hsize]
    decide +kernel
  have hroom : [(4096 : Word)].length <
      (pagesUpTo (firstPage 0x200000 0x203000) (0x203000 : Word).toNat).length := by
    decide +kernel
  rcases boot_establishes (fun _ => ⟨0, none⟩) rfl rfl (by decide +kernel) (by decide +kernel) hone
      hroom with ⟨s₀, s₁, s₂, nodes, hinit, hbumps, hafter, hfree, -, -⟩
  have hhanded : ((pagesUpTo (firstPage 0x200000 0x203000) (0x203000 : Word).toNat).take 1).map
      (fun p => p + KERNBASE) = [0xffffffff80201000] := by
    decide +kernel
  have hleft : pagesUpTo (firstPage 0x200000 0x203000 + 4096 * 1) (0x203000 : Word).toNat =
      [0x202000] := by
    decide +kernel
  rw [List.length_singleton, hhanded] at hbumps
  rw [List.length_singleton, hleft] at hfree
  exact ⟨s₀, s₁, s₂, nodes, hinit, hbumps, hafter, hfree⟩

end Allocator

end OswpKernel
