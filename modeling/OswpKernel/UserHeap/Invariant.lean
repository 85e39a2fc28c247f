import OswpKernel.UserHeap.Basic

/-!
# User heap invariant — the free list and the live blocks tile the page

`WellFormed p fs` says that the free list is the ascending list `fs`, and that its blocks and the
live blocks are disjoint parts of the page.  `malloc_step` and `free_step` show that the calls keep
this as long as no block is taken exactly at the head of the list and no block is freed between two
neighbours that both touch it, and how many units get lost.
-/

namespace OswpKernel

open Chain Tiling

open scoped List

namespace UserHeap

variable {p p' : Process} {m : Arena} {fs ys zs : List Nat} {a b c n q : Nat} {size : Word}

namespace Arena

@[simp] theorem setHeader_next_self (i : Nat) (x : Header) : (m.setHeader i x).next i = x.next := by
  simp [setHeader, next]

@[simp] theorem setHeader_size_self (i : Nat) (x : Header) : (m.setHeader i x).size i = x.size := by
  simp [setHeader, Arena.size]

theorem setHeader_next_of_ne {i j : Nat} (x : Header) (hj : j ≠ i) :
    (m.setHeader i x).next j = m.next j := by
  simp [setHeader, next, hj]

theorem setHeader_size_of_ne {i j : Nat} (x : Header) (hj : j ≠ i) :
    (m.setHeader i x).size j = m.size j := by
  simp [setHeader, Arena.size, hj]

@[simp] theorem setNext_next_self (i : Nat) (x : Option Nat) : (m.setNext i x).next i = x :=
  setHeader_next_self i _

theorem setNext_next_of_ne {i j : Nat} (x : Option Nat) (hj : j ≠ i) :
    (m.setNext i x).next j = m.next j :=
  setHeader_next_of_ne _ hj

@[simp] theorem setNext_size (i j : Nat) (x : Option Nat) : (m.setNext i x).size j = m.size j := by
  by_cases hj : j = i
  · subst hj
    exact setHeader_size_self j _
  · exact setHeader_size_of_ne _ hj

@[simp] theorem setSize_next (i j s : Nat) : (m.setSize i s).next j = m.next j := by
  by_cases hj : j = i
  · subst hj
    exact setHeader_next_self j _
  · exact setHeader_next_of_ne _ hj

@[simp] theorem setSize_size_self (i s : Nat) : (m.setSize i s).size i = s :=
  setHeader_size_self i _

theorem setSize_size_of_ne {i j : Nat} (s : Nat) (hj : j ≠ i) :
    (m.setSize i s).size j = m.size j :=
  setHeader_size_of_ne _ hj

/-- The blocks of a list of headers. -/
def spans (m : Arena) (xs : List Nat) : List (Nat × Nat) := xs.map fun x => (x, m.size x)

@[simp] theorem spans_nil : m.spans [] = [] := rfl

@[simp] theorem spans_cons (x : Nat) (xs : List Nat) :
    m.spans (x :: xs) = (x, m.size x) :: m.spans xs := rfl

@[simp] theorem spans_append (xs ys : List Nat) : m.spans (xs ++ ys) = m.spans xs ++ m.spans ys :=
  List.map_append

theorem spans_congr {m' : Arena} {xs : List Nat} (h : ∀ x ∈ xs, m'.size x = m.size x) :
    m'.spans xs = m.spans xs :=
  List.map_congr_left fun x hx => by rw [h x hx]

theorem mem_spans {xs : List Nat} (ha : a ∈ xs) : (a, m.size a) ∈ m.spans xs :=
  List.mem_map_of_mem ha

end Arena

open Arena

/-- The free list is `fs`, and the free and the live blocks tile the page. -/
structure WellFormed (p : Process) (fs : List Nat) : Prop where
  chain : Seg p.arena.next (some p.arena.freelist) fs none
  ascending : fs.Pairwise (· < ·)
  tiled : Tiled 255 (p.arena.spans fs ++ p.live)
  sizes : ∀ l ∈ p.live, p.arena.size l.1 = l.2

namespace WellFormed

theorem length_lt (h : WellFormed p fs) : fs.length < pageUnits := by
  have hsub : fs ⊆ List.range 255 := by
    intro x hx
    have hspan : (x, p.arena.size x) ∈ p.arena.spans fs ++ p.live :=
      List.mem_append_left _ (mem_spans hx)
    have hinside := h.tiled.inside _ hspan
    have hpositive := h.tiled.positive _ hspan
    simp only at hinside hpositive
    exact List.mem_range.2 (by omega)
  have hnodup : fs.Nodup := h.ascending.imp fun hlt => hlt.ne
  have hle := (hnodup.subperm hsub).length_le
  rw [List.length_range] at hle
  exact Nat.lt_succ_of_le hle

theorem blocks_eq (h : WellFormed p fs) : p.arena.blocks = fs := h.chain.follow_eq h.length_lt.le

/-- A free block and a live one do not overlap. -/
theorem apart_live (h : WellFormed p fs) (ha : a ∈ fs) {l : Nat × Nat} (hl : l ∈ p.live) :
    Apart (a, p.arena.size a) l :=
  (List.pairwise_append.1 h.tiled.apart).2.2 _ (mem_spans ha) l hl

theorem positive_free (h : WellFormed p fs) (ha : a ∈ fs) : 0 < p.arena.size a :=
  h.tiled.positive _ (List.mem_append_left _ (mem_spans ha))

theorem positive_live (h : WellFormed p fs) {l : Nat × Nat} (hl : l ∈ p.live) : 0 < l.2 :=
  h.tiled.positive _ (List.mem_append_right _ hl)

theorem ne_live (h : WellFormed p fs) (ha : a ∈ fs) {l : Nat × Nat} (hl : l ∈ p.live) :
    a ≠ l.1 := by
  have hfree := h.positive_free ha
  have hlive := h.positive_live hl
  rcases h.apart_live ha hl with hleft | hright
  · simp only at hleft
    omega
  · simp only at hright
    omega

end WellFormed

/-- `createheap` leaves one free block. -/
theorem start_wellFormed (header : Nat → Header) : WellFormed (Process.start header) [0] := by
  have hnext : (createheap header).next 0 = none := by simp [createheap, next]
  have hsize : (createheap header).size 0 = 255 := by simp [createheap, Arena.size]
  refine ⟨⟨rfl, hnext⟩, List.pairwise_singleton _ _, ?_, ?_⟩
  · change Tiled 255 [(0, (createheap header).size 0)]
    rw [hsize]
    refine ⟨List.pairwise_singleton _ _, ?_, ?_⟩
    · simp
    · simp
  · exact fun l hl => absurd hl List.not_mem_nil

/-! ## `do_malloc` -/

theorem firstFit_eq {prev : Nat} {xs : List Nat} (h : m.firstFit n prev xs = some (q, a)) :
    ∃ ys zs, xs = ys ++ a :: zs ∧ (∀ y ∈ ys, m.size y < n) ∧ n ≤ m.size a ∧
      q = ys.getLast?.getD (if ys = [] then prev else a) := by
  induction xs generalizing prev with
  | nil => cases h
  | cons x xs ih =>
      rw [firstFit] at h
      split_ifs at h with hfit
      · cases h
        exact ⟨[], xs, rfl, by simp, hfit, rfl⟩
      · rcases ih h with ⟨ys, zs, rfl, hsmall, ha, hq⟩
        refine ⟨x :: ys, zs, rfl, ?_, ha, ?_⟩
        · rintro y (- | ⟨-, hy⟩)
          · exact Nat.lt_of_not_le hfit
          · exact hsmall y hy
        · cases ys with
          | nil => simpa using hq
          | cons y ys => simpa [List.getLast?_cons] using hq

/-- A request that `uint64_t` can round up. -/
def Representable (size : Word) : Prop := size.toNat + 15 < 2 ^ 64

theorem numOfStructs_eq (hsize : Representable size) : numOfStructs size = needed size := by
  have hsum : (size + 16 - 1 : Word).toNat = size.toNat + 15 := by
    have hassoc : size + 16 - 1 = size + 15 := by
      rw [BitVec.sub_eq_add_neg, BitVec.add_assoc]
      rfl
    rw [hassoc, BitVec.toNat_add]
    exact Nat.mod_eq_of_lt hsize
  have hquotient : ((size + 16 - 1) / 16 : Word).toNat = (size.toNat + 15) / 16 := by
    rw [BitVec.toNat_udiv, hsum]
    rfl
  rw [numOfStructs, BitVec.toNat_add, hquotient, needed]
  refine Nat.mod_eq_of_lt ?_
  have hbound : size.toNat + 15 < 2 ^ 64 := hsize
  change (size.toNat + 15) / 16 + 1 < 2 ^ 64
  omega

/-- In a well formed heap with the free block `a`, the other blocks are apart from it. -/
theorem WellFormed.around (h : WellFormed p (ys ++ a :: zs)) :
    Tiled 255 ((a, p.arena.size a) ::
      (p.arena.spans ys ++ (p.arena.spans zs ++ p.live))) := by
  refine h.tiled.perm ?_
  rw [spans_append, spans_cons, List.append_assoc, List.cons_append]
  exact List.perm_middle

/-- An exact fit `a` that has the free block `q` in front of it. -/
theorem exact_wellFormed {us : List Nat} (h : WellFormed p (us ++ q :: a :: zs)) :
    WellFormed ⟨{ p.arena.setNext q (p.arena.next a) with freelist := q },
      (a, p.arena.size a) :: p.live⟩ (q :: zs) := by
  rcases seg_append.1 h.chain with ⟨r, -, -, -, hzs⟩
  have hascending := List.pairwise_cons.1 (List.pairwise_append.1 h.ascending).2.1
  have hqzs : ∀ x ∈ zs, x ≠ q := fun x hx => (hascending.1 x (List.mem_cons_of_mem _ hx)).ne'
  refine ⟨⟨rfl, ?_⟩, ?_, ?_, ?_⟩
  · change Seg (p.arena.setNext q (p.arena.next a)).next
      ((p.arena.setNext q (p.arena.next a)).next q) zs none
    rw [setNext_next_self]
    exact hzs.congr fun x hx => setNext_next_of_ne _ (hqzs x hx)
  · exact List.pairwise_cons.2 ⟨fun x hx => hascending.1 x (List.mem_cons_of_mem _ hx),
      (List.pairwise_cons.1 hascending.2).2⟩
  · have hspans : ∀ xs, Arena.spans { p.arena.setNext q (p.arena.next a) with freelist := q } xs =
        p.arena.spans xs := fun xs => spans_congr fun x _ => setNext_size q x _
    rw [hspans]
    have hsuffix : Tiled 255 (p.arena.spans (q :: a :: zs) ++ p.live) :=
      h.tiled.sublist (by
        rw [spans_append, List.append_assoc]
        exact List.sublist_append_right _ _)
    refine hsuffix.perm (.cons _ ?_)
    exact List.perm_middle.symm
  · rintro l (- | ⟨-, hl⟩)
    · exact setNext_size q a _
    · exact (setNext_size q l.1 _).trans (h.sizes l hl)

/-- The end of a free block is cut off. -/
theorem split_wellFormed {us ws : List Nat} (h : WellFormed p (us ++ (ws ++ a :: zs)))
    (hq : (ws ++ a :: zs).head? = some q) (hn : 0 < n) (hfit : n < p.arena.size a) :
    WellFormed ⟨{ (p.arena.setSize a (p.arena.size a - n)).setSize (a + (p.arena.size a - n)) n
        with freelist := q }, (a + (p.arena.size a - n), n) :: p.live⟩ (ws ++ a :: zs) ∧
      Arena.spans { (p.arena.setSize a (p.arena.size a - n)).setSize (a + (p.arena.size a - n)) n
        with freelist := q } (ws ++ a :: zs) =
        p.arena.spans ws ++ (a, p.arena.size a - n) :: p.arena.spans zs := by
  have haround : Tiled 255 ((a, p.arena.size a) ::
      (p.arena.spans (us ++ ws) ++ (p.arena.spans zs ++ p.live))) := by
    rw [← List.append_assoc] at h
    exact h.around
  generalize hs : p.arena.size a = s at *
  generalize hb : a + (s - n) = b
  have hbs : a < b ∧ b < a + s := by omega
  -- nothing else starts inside `a`, so the new header hits no other block
  have hother : ∀ x, x ∈ ws ∨ x ∈ zs ∨ (∃ l ∈ p.live, x = l.1) → x ≠ a ∧ x ≠ b := by
    intro x hx
    have hspan : ∃ t, 0 < t ∧ (x + t ≤ a ∨ a + s ≤ x) := by
      rcases hx with hws | hzs | ⟨l, hl, rfl⟩
      · have hmem : (x, p.arena.size x) ∈
            p.arena.spans (us ++ ws) ++ (p.arena.spans zs ++ p.live) :=
          List.mem_append_left _ (mem_spans (List.mem_append_right _ hws))
        exact ⟨_, haround.positive _ (List.mem_cons_of_mem _ hmem), haround.start_outside hmem⟩
      · have hmem : (x, p.arena.size x) ∈
            p.arena.spans (us ++ ws) ++ (p.arena.spans zs ++ p.live) :=
          List.mem_append_right _ (List.mem_append_left _ (mem_spans hzs))
        exact ⟨_, haround.positive _ (List.mem_cons_of_mem _ hmem), haround.start_outside hmem⟩
      · have hmem : l ∈ p.arena.spans (us ++ ws) ++ (p.arena.spans zs ++ p.live) :=
          List.mem_append_right _ (List.mem_append_right _ hl)
        exact ⟨_, haround.positive _ (List.mem_cons_of_mem _ hmem), haround.start_outside hmem⟩
    rcases hspan with ⟨t, ht, hside⟩
    omega
  have hsize : ∀ x, x ≠ a ∧ x ≠ b →
      ((p.arena.setSize a (s - n)).setSize b n).size x = p.arena.size x := fun x hx =>
    (setSize_size_of_ne _ hx.2).trans (setSize_size_of_ne _ hx.1)
  have hspans : Arena.spans { (p.arena.setSize a (s - n)).setSize b n with freelist := q }
      (ws ++ a :: zs) = p.arena.spans ws ++ (a, s - n) :: p.arena.spans zs := by
    have hsa : ((p.arena.setSize a (s - n)).setSize b n).size a = s - n :=
      (setSize_size_of_ne _ hbs.1.ne).trans (setSize_size_self a _)
    rw [spans_append, spans_cons]
    congr 1
    · exact spans_congr fun x hx => hsize x (hother x (.inl hx))
    · congr 1
      · exact congrArg (Prod.mk a) hsa
      · exact spans_congr fun x hx => hsize x (hother x (.inr (.inl hx)))
  refine ⟨⟨?_, ?_, ?_, ?_⟩, hspans⟩
  · rcases seg_append.1 h.chain with ⟨r, -, hsuffix⟩
    have hr : r = some q := by
      cases hws : ws ++ a :: zs with
      | nil => exact absurd hws (by simp)
      | cons x xs =>
          rw [hws] at hq hsuffix
          rw [hsuffix.start_of_cons]
          exact hq
    rw [hr] at hsuffix
    exact hsuffix.congr fun x _ => (setSize_next b x n).trans (setSize_next a x _)
  · exact (List.pairwise_append.1 h.ascending).2.1
  · have hcut : Tiled 255 ((a, s - n + n) ::
        (p.arena.spans ws ++ (p.arena.spans zs ++ p.live))) := by
      rw [Nat.sub_add_cancel hfit.le]
      refine haround.sublist (.cons_cons _ ?_)
      rw [spans_append, List.append_assoc]
      exact List.sublist_append_right _ _
    have hsplit := hcut.split (Nat.sub_pos_of_lt hfit) hn
    rw [hb] at hsplit
    rw [hspans]
    refine hsplit.perm ?_
    calc (a, s - n) :: (b, n) :: (p.arena.spans ws ++ (p.arena.spans zs ++ p.live))
        = (a, s - n) :: (b, n) :: (p.arena.spans ws ++ p.arena.spans zs ++ p.live) := by
          rw [List.append_assoc]
      _ ~ (a, s - n) :: (p.arena.spans ws ++ p.arena.spans zs ++ (b, n) :: p.live) :=
          .cons _ List.perm_middle.symm
      _ ~ p.arena.spans ws ++ (a, s - n) :: (p.arena.spans zs ++ (b, n) :: p.live) := by
          rw [List.append_assoc]
          exact List.perm_middle.symm
      _ = p.arena.spans ws ++ (a, s - n) :: p.arena.spans zs ++ (b, n) :: p.live := by
          rw [List.append_assoc, List.cons_append]
  · rintro l (- | ⟨-, hl⟩)
    · exact setSize_size_self b n
    · exact (hsize l.1 (hother l.1 (.inr (.inr ⟨l, hl, rfl⟩)))).trans (h.sizes l hl)

theorem takeFrom_exact (hfit : m.size a = n) :
    m.takeFrom n q a = (a, { m.setNext q (m.next a) with freelist := q }) :=
  if_pos hfit

theorem takeFrom_split (hfit : m.size a ≠ n) :
    m.takeFrom n q a = (a + (m.size a - n),
      { (m.setSize a (m.size a - n)).setSize (a + (m.size a - n)) n with freelist := q }) := by
  rw [takeFrom, if_neg hfit]
  simp only [setSize_size_self]

/-- Taking `n` units from the fit `a`, with at most the block `q` kept in front of it. -/
theorem takeFrom_wellFormed {us ws : List Nat} (h : WellFormed p (us ++ (ws ++ a :: zs)))
    (hq : (ws ++ a :: zs).head? = some q) (hws : ws = [] ∨ ws = [q]) (hn : 0 < n)
    (hfit : n ≤ p.arena.size a) (hhead : ws = [] → p.arena.size a ≠ n) :
    ∃ fs', WellFormed ⟨(p.arena.takeFrom n q a).2, ((p.arena.takeFrom n q a).1, n) :: p.live⟩ fs' ∧
      total ((p.arena.takeFrom n q a).2.spans fs' ++ ((p.arena.takeFrom n q a).1, n) :: p.live) +
        total (p.arena.spans us) = total (p.arena.spans (us ++ (ws ++ a :: zs)) ++ p.live) := by
  by_cases hexact : p.arena.size a = n
  · rcases hws with rfl | rfl
    · exact absurd hexact (hhead rfl)
    · rw [takeFrom_exact hexact]
      have hwell := exact_wellFormed h
      rw [hexact] at hwell
      have hspans : ∀ xs, Arena.spans { p.arena.setNext q (p.arena.next a) with freelist := q } xs =
          p.arena.spans xs := fun xs => spans_congr fun x _ => setNext_size q x _
      refine ⟨q :: zs, hwell, ?_⟩
      rw [hspans]
      simp only [total_append, spans_append, spans_cons, total_cons, hexact, List.nil_append,
        List.cons_append]
      omega
  · rw [takeFrom_split hexact]
    rcases split_wellFormed h hq hn (Nat.lt_of_le_of_ne hfit (Ne.symm hexact)) with ⟨hwell, hspans⟩
    refine ⟨ws ++ a :: zs, hwell, ?_⟩
    rw [hspans]
    simp only [total_append, spans_append, spans_cons, total_cons]
    omega

/-- A request that is not an exact fit at the head.  The blocks in front of the one before the fit
are lost. -/
theorem malloc_step (h : WellFormed p fs) (hsize : Representable size)
    (hhead : p.arena.size p.arena.freelist ≠ needed size)
    (hexec : p.exec (.malloc size) = some p') :
    ∃ us ws a zs fs', fs = us ++ (ws ++ a :: zs) ∧ (us ≠ [] → ws ≠ []) ∧
      (∀ y ∈ us ++ ws, p.arena.size y < needed size) ∧ WellFormed p' fs' ∧
      total (p'.arena.spans fs' ++ p'.live) + total (p.arena.spans us) =
        total (p.arena.spans fs ++ p.live) := by
  rcases Option.map_eq_some_iff.1 hexec with ⟨result, hresult, rfl⟩
  rcases Option.map_eq_some_iff.1 hresult with ⟨⟨q, a⟩, hfound, rfl⟩
  rw [numOfStructs_eq hsize, h.blocks_eq] at hfound
  rw [numOfStructs_eq hsize]
  have hn : 0 < needed size := Nat.succ_pos _
  generalize needed size = n at *
  rcases firstFit_eq hfound with ⟨ys, zs, rfl, hsmall, hfit, hq⟩
  rcases List.eq_nil_or_concat ys with rfl | ⟨us, y, rfl⟩
  · have hfreelist : p.arena.freelist = a := Option.some.inj h.chain.start_of_cons
    have hqa : q = a := by simpa [hfreelist] using hq
    subst hqa
    have h' : WellFormed p ([] ++ ([] ++ q :: zs)) := h
    rcases takeFrom_wellFormed h' rfl (.inl rfl) hn hfit
      (fun _ => hfreelist ▸ hhead) with ⟨fs', hwell, htotal⟩
    exact ⟨[], [], q, zs, fs', rfl, id, fun y hy => absurd hy List.not_mem_nil, hwell, htotal⟩
  · have hqy : q = y := by simpa using hq
    subst hqy
    rw [List.concat_eq_append, List.append_assoc] at h ⊢
    rw [List.concat_eq_append] at hsmall
    rcases takeFrom_wellFormed h rfl (.inr rfl) hn hfit (fun hnil => absurd hnil (by simp)) with
      ⟨fs', hwell, htotal⟩
    exact ⟨us, [q], a, zs, fs', rfl, fun _ => by simp, hsmall, hwell, htotal⟩

/-! ## `do_free` -/

theorem WellFormed.live_perm (h : WellFormed p fs) (hl : (b, n) ∈ p.live) :
    p.live ~ (b, n) :: p.live.filter fun l => l.1 + 1 ≠ b + 1 := by
  have htiled : Tiled 255 p.live := h.tiled.sublist (List.sublist_append_right _ _)
  have herase : p.live.erase (b, n) = p.live.filter fun l => l.1 + 1 ≠ b + 1 := by
    rw [htiled.nodup.erase_eq_filter]
    refine List.filter_congr fun l hmem => ?_
    by_cases heq : l = (b, n)
    · simp [heq]
    · have hne : l.1 ≠ b := fun hstart => heq (htiled.start_inj hmem hl hstart)
      simp [heq, hne]
  rw [← herase]
  exact List.perm_cons_erase hl

/-- The loop passes the blocks whose successor is on the same side of the freed block. -/
theorem findSome_skip {us rest : List Nat} {start : Option Nat}
    (hchain : Seg m.next start (us ++ c :: rest) none)
    (hside : (∀ x ∈ us ++ [c], x < b) ∨ ∀ x ∈ us ++ [c], b < x) :
    (us ++ c :: rest).findSome? (m.freeAt b) = (c :: rest).findSome? (m.freeAt b) := by
  induction us generalizing start with
  | nil => rfl
  | cons x us ih =>
      have hrest := ih hchain.2 (hside.imp
        (fun hall y hy => hall y (List.mem_cons_of_mem _ hy))
        fun hall y hy => hall y (List.mem_cons_of_mem _ hy))
      have hsucc : ∃ y ∈ us ++ [c], m.next x = some y := by
        cases us with
        | nil => exact ⟨c, List.mem_cons_self, hchain.2.start_of_cons⟩
        | cons y us => exact ⟨y, List.mem_cons_self, hchain.2.start_of_cons⟩
      rcases hsucc with ⟨y, hy, hnext⟩
      have hpass : ¬ (x < b ∧ b < y) := by
        rcases hside with hall | hall
        · have := hall y (List.mem_cons_of_mem _ hy)
          omega
        · have := hall x List.mem_cons_self
          omega
      have hnone : m.freeAt b x = none := by
        simp only [freeAt, hnext, if_neg hpass]
      rw [List.cons_append, List.findSome?_cons, hnone]
      exact hrest

/-- A block below the whole list is not linked in. -/
theorem freeAt_below (hnext : m.next c = none) (hlt : b < c) :
    ∃ m', m.freeAt b c = some m' ∧ m'.freelist = m.freelist ∧
      ∀ x, x ≠ b → m'.header x = m.header x := by
  have hnot : ¬ c < b := by omega
  simp only [freeAt, hnext, if_neg hnot, if_pos hlt]
  split_ifs
  · refine ⟨_, rfl, rfl, fun x hx => ?_⟩
    simp [setNext, setSize, setHeader, hx]
  · refine ⟨_, rfl, rfl, fun x hx => ?_⟩
    simp [setNext, setHeader, hx]

/-- The freed block becomes part of `c`, which ends where it starts. -/
structure MergesLeft (m m' : Arena) (b c : Nat) : Prop where
  touches : c + m.size c = b
  next : ∀ x, x ≠ b → m'.next x = m.next x
  size : m'.size c = m.size c + m.size b
  sizes : ∀ x, x ≠ c → m'.size x = m.size x

/-- The freed block is linked in behind `c`. -/
structure Inserts (m m' : Arena) (b c : Nat) : Prop where
  link : m'.next c = some b
  next : m'.next b = m.next c
  others : ∀ x, x ≠ c → x ≠ b → m'.next x = m.next x
  sizes : ∀ x, m'.size x = m.size x

/-- The freed block takes in its successor `d` and is linked in behind `c`. -/
structure MergesRight (m m' : Arena) (b c d : Nat) : Prop where
  succ : m.next c = some d
  touches : b + m.size b = d
  link : m'.next c = some b
  next : m'.next b = m.next d
  others : ∀ x, x ≠ c → x ≠ b → m'.next x = m.next x
  size : m'.size b = m.size b + m.size d
  sizes : ∀ x, x ≠ b → m'.size x = m.size x

/-- A block between `c` and its successor that does not touch both. -/
theorem freeAt_above (hlt : c < b) (hnext : ∀ d, m.next c = some d → b < d)
    (htriple : ¬ (c + m.size c = b ∧ m.next c = some (b + m.size b))) :
    ∃ m', m.freeAt b c = some m' ∧ m'.freelist = m.freelist ∧
      (MergesLeft m m' b c ∨ Inserts m m' b c ∨ ∃ d, MergesRight m m' b c d) := by
  have hcb : c ≠ b := hlt.ne
  cases hsucc : m.next c with
  | none =>
      by_cases htouch : c + m.size c = b
      · refine ⟨m.setSize c (m.size c + m.size b), ?_, rfl, .inl ⟨htouch, ?_, ?_, ?_⟩⟩
        · simp only [freeAt, hsucc, if_pos hlt, if_pos htouch]
        · exact fun x _ => setSize_next c x _
        · exact setSize_size_self c _
        · exact fun x hx => setSize_size_of_ne _ hx
      · refine ⟨(m.setNext c (some b)).setNext b none, ?_, rfl, .inr (.inl ⟨?_, ?_, ?_, ?_⟩)⟩
        · simp only [freeAt, hsucc, if_pos hlt, if_neg htouch]
        · rw [setNext_next_of_ne _ hcb, setNext_next_self]
        · rw [setNext_next_self, hsucc]
        · exact fun x hxc hxb => (setNext_next_of_ne _ hxb).trans (setNext_next_of_ne _ hxc)
        · exact fun x => (setNext_size b x _).trans (setNext_size c x _)
  | some d =>
      have hbd : c < b ∧ b < d := ⟨hlt, hnext d hsucc⟩
      have hdb : d ≠ b := hbd.2.ne'
      by_cases htouch : c + m.size c = b
      · have hapart : b + m.size b ≠ d := fun heq => htriple ⟨htouch, by rw [hsucc, heq]⟩
        refine ⟨(m.setNext b (some d)).setSize c (m.size c + m.size b), ?_, rfl,
          .inl ⟨htouch, ?_, ?_, ?_⟩⟩
        · simp only [freeAt, hsucc, if_pos hbd, if_neg hapart, setNext_size, if_pos htouch]
        · exact fun x hx => (setSize_next c x _).trans (setNext_next_of_ne _ hx)
        · exact setSize_size_self c _
        · exact fun x hx => (setSize_size_of_ne _ hx).trans (setNext_size b x _)
      · by_cases hright : b + m.size b = d
        · refine ⟨((m.setSize b (m.size b + m.size d)).setNext b (m.next d)).setNext c (some b),
            ?_, rfl, .inr (.inr ⟨d, hsucc, hright, ?_, ?_, ?_, ?_, ?_⟩)⟩
          · have htouch' : ¬ c + ((m.setSize b (m.size b + m.size d)).setNext b
                (m.next d)).size c = b := by
              rw [setNext_size, setSize_size_of_ne _ hcb]
              exact htouch
            simp only [freeAt, hsucc, if_pos hbd, if_pos hright, if_neg htouch']
          · exact setNext_next_self c _
          · rw [setNext_next_of_ne _ hcb.symm, setNext_next_self]
          · intro x hxc hxb
            rw [setNext_next_of_ne _ hxc, setNext_next_of_ne _ hxb, setSize_next]
          · rw [setNext_size, setNext_size, setSize_size_self]
          · intro x hx
            rw [setNext_size, setNext_size, setSize_size_of_ne _ hx]
        · refine ⟨(m.setNext b (some d)).setNext c (some b), ?_, rfl,
            .inr (.inl ⟨?_, ?_, ?_, ?_⟩)⟩
          · simp only [freeAt, hsucc, if_pos hbd, if_neg hright, setNext_size, if_neg htouch]
          · exact setNext_next_self c _
          · rw [setNext_next_of_ne _ hcb.symm, setNext_next_self, hsucc]
          · exact fun x hxc hxb => (setNext_next_of_ne _ hxc).trans (setNext_next_of_ne _ hxb)
          · exact fun x => (setNext_size c x _).trans (setNext_size b x _)

/-- The live blocks but the one at `b`. -/
def Process.othersLive (p : Process) (b : Nat) : List (Nat × Nat) :=
  p.live.filter fun l => l.1 + 1 ≠ b + 1

theorem WellFormed.tiled_freed (h : WellFormed p fs) (hl : (b, n) ∈ p.live) :
    Tiled 255 ((b, n) :: (p.arena.spans fs ++ p.othersLive b)) :=
  h.tiled.perm (((h.live_perm hl).append_left _).trans List.perm_middle)

theorem WellFormed.total_freed (h : WellFormed p fs) (hl : (b, n) ∈ p.live) :
    total (p.arena.spans fs ++ p.live) = total (p.arena.spans fs) + n + total (p.othersLive b) := by
  rw [total_append, total_perm (h.live_perm hl), total_cons, Nat.add_assoc]
  rfl

theorem WellFormed.mem_live {l : Nat × Nat} (hl : l ∈ p.othersLive b) : l ∈ p.live ∧ l.1 ≠ b := by
  rcases List.mem_filter.1 hl with ⟨hmem, hne⟩
  exact ⟨hmem, fun heq => absurd heq (by simpa using hne)⟩

theorem WellFormed.notMem_live (h : WellFormed p fs) (hl : (b, n) ∈ p.live) : b ∉ fs :=
  fun hb => h.ne_live hb hl rfl

theorem MergesLeft.wellFormed {m' : Arena} (hm : MergesLeft p.arena m' b c)
    (h : WellFormed p (ys ++ c :: zs)) (hl : (b, n) ∈ p.live)
    (hfreelist : m'.freelist = p.arena.freelist) :
    WellFormed ⟨m', p.othersLive b⟩ (ys ++ c :: zs) ∧
      total (m'.spans (ys ++ c :: zs) ++ p.othersLive b) =
        total (p.arena.spans (ys ++ c :: zs) ++ p.live) := by
  have hb : b ∉ ys ++ c :: zs := h.notMem_live hl
  have hsize : p.arena.size b = n := h.sizes _ hl
  have hc : ∀ x ∈ ys ++ zs, x ≠ c := by
    have hnodup : (ys ++ c :: zs).Nodup := h.ascending.imp fun hlt => hlt.ne
    have hnotMem := (List.nodup_cons.1 (List.perm_middle.nodup_iff.1 hnodup)).1
    exact fun x hx heq => hnotMem (heq ▸ hx)
  have hspans : m'.spans (ys ++ c :: zs) =
      p.arena.spans ys ++ (c, p.arena.size c + n) :: p.arena.spans zs := by
    rw [spans_append, spans_cons, hm.size, hsize,
      spans_congr fun x hx => hm.sizes x (hc x (List.mem_append_left _ hx)),
      spans_congr fun x hx => hm.sizes x (hc x (List.mem_append_right _ hx))]
  refine ⟨⟨?_, h.ascending, ?_, ?_⟩, ?_⟩
  · change Seg m'.next (some m'.freelist) (ys ++ c :: zs) none
    rw [hfreelist]
    exact h.chain.congr fun x hx => hm.next x fun heq => hb (heq ▸ hx)
  · have htiled := h.tiled_freed hl
    rw [spans_append, spans_cons] at htiled
    have hmerged : Tiled 255 ((c, p.arena.size c + n) ::
        (p.arena.spans ys ++ (p.arena.spans zs ++ p.othersLive b))) := by
      refine Tiled.merge ?_
      rw [hm.touches]
      refine htiled.perm ?_
      calc (b, n) :: (p.arena.spans ys ++ (c, p.arena.size c) :: p.arena.spans zs ++
            p.othersLive b)
          ~ (b, n) :: (c, p.arena.size c) :: (p.arena.spans ys ++
              (p.arena.spans zs ++ p.othersLive b)) := by
            rw [List.append_assoc, List.cons_append]
            exact .cons _ List.perm_middle
        _ ~ (c, p.arena.size c) :: (b, n) :: (p.arena.spans ys ++
              (p.arena.spans zs ++ p.othersLive b)) := .swap _ _ _
    change Tiled 255 (m'.spans (ys ++ c :: zs) ++ p.othersLive b)
    rw [hspans, List.append_assoc, List.cons_append]
    exact hmerged.perm List.perm_middle.symm
  · intro l hmem
    have hlive := (WellFormed.mem_live hmem).1
    exact (hm.sizes _ fun heq => h.ne_live (List.mem_append_right _ List.mem_cons_self) hlive
      heq.symm).trans (h.sizes l hlive)
  · rw [h.total_freed hl, hspans]
    simp only [total_append, spans_append, spans_cons, total_cons]
    omega

/-- A block put in between the smaller and the larger ones. -/
theorem WellFormed.ascending_insert (h : WellFormed p (ys ++ c :: zs))
    (hys : ∀ y ∈ ys ++ [c], y < b) (hzs : ∀ z ∈ zs, b < z) :
    (ys ++ c :: b :: zs).Pairwise (· < ·) := by
  have hascending := h.ascending
  rw [List.append_cons, List.pairwise_append] at hascending ⊢
  refine ⟨hascending.1, List.pairwise_cons.2 ⟨hzs, hascending.2.1⟩, fun y hy z hz => ?_⟩
  rcases List.mem_cons.1 hz with rfl | hz'
  · exact hys y hy
  · exact (hys y hy).trans (hzs z hz')

theorem Inserts.wellFormed {m' : Arena} (hm : Inserts p.arena m' b c)
    (h : WellFormed p (ys ++ c :: zs)) (hl : (b, n) ∈ p.live)
    (hfreelist : m'.freelist = p.arena.freelist) (hys : ∀ y ∈ ys ++ [c], y < b)
    (hzs : ∀ z ∈ zs, b < z) :
    WellFormed ⟨m', p.othersLive b⟩ (ys ++ c :: b :: zs) ∧
      total (m'.spans (ys ++ c :: b :: zs) ++ p.othersLive b) =
        total (p.arena.spans (ys ++ c :: zs) ++ p.live) := by
  have hb : b ∉ ys ++ c :: zs := h.notMem_live hl
  have hsize : p.arena.size b = n := h.sizes _ hl
  have hnodup : (ys ++ c :: zs).Nodup := h.ascending.imp fun hlt => hlt.ne
  have hspans : m'.spans (ys ++ c :: b :: zs) = p.arena.spans (ys ++ c :: b :: zs) :=
    spans_congr fun x _ => hm.sizes x
  refine ⟨⟨?_, ?_, ?_, ?_⟩, ?_⟩
  · change Seg m'.next (some m'.freelist) (ys ++ c :: b :: zs) none
    rw [hfreelist]
    exact h.chain.insert_after hnodup hb hm.link hm.next hm.others
  · exact h.ascending_insert hys hzs
  · have htiled := h.tiled_freed hl
    rw [spans_append, spans_cons] at htiled
    change Tiled 255 (m'.spans (ys ++ c :: b :: zs) ++ p.othersLive b)
    rw [hspans, spans_append, spans_cons, spans_cons, hsize]
    refine htiled.perm ?_
    calc (b, n) :: (p.arena.spans ys ++ (c, p.arena.size c) :: p.arena.spans zs ++
          p.othersLive b)
        = (b, n) :: (p.arena.spans ys ++ [(c, p.arena.size c)] ++ (p.arena.spans zs ++
            p.othersLive b)) := by simp
      _ ~ p.arena.spans ys ++ [(c, p.arena.size c)] ++ (b, n) :: (p.arena.spans zs ++
            p.othersLive b) := List.perm_middle.symm
      _ = p.arena.spans ys ++ (c, p.arena.size c) :: (b, n) :: p.arena.spans zs ++
            p.othersLive b := by simp
  · intro l hmem
    exact (hm.sizes _).trans (h.sizes l (WellFormed.mem_live hmem).1)
  · rw [h.total_freed hl, hspans]
    simp only [total_append, spans_append, spans_cons, total_cons, hsize]
    omega

theorem MergesRight.wellFormed {m' : Arena} {d : Nat} (hm : MergesRight p.arena m' b c d)
    (h : WellFormed p (ys ++ c :: d :: zs)) (hl : (b, n) ∈ p.live)
    (hfreelist : m'.freelist = p.arena.freelist) (hys : ∀ y ∈ ys ++ [c], y < b)
    (hzs : ∀ z ∈ d :: zs, b < z) :
    WellFormed ⟨m', p.othersLive b⟩ (ys ++ c :: b :: zs) ∧
      total (m'.spans (ys ++ c :: b :: zs) ++ p.othersLive b) =
        total (p.arena.spans (ys ++ c :: d :: zs) ++ p.live) := by
  have hb : b ∉ ys ++ c :: d :: zs := h.notMem_live hl
  have hsize : p.arena.size b = n := h.sizes _ hl
  have hsame : ∀ x ∈ ys ++ c :: d :: zs, m'.size x = p.arena.size x :=
    fun x hx => hm.sizes x fun heq => hb (heq ▸ hx)
  have hspans : m'.spans (ys ++ c :: b :: zs) = p.arena.spans ys ++ (c, p.arena.size c) ::
      (b, n + p.arena.size d) :: p.arena.spans zs := by
    rw [spans_append, spans_cons, spans_cons, hm.size, hsize,
      hsame c (List.mem_append_right _ List.mem_cons_self),
      spans_congr fun x hx => hsame x (List.mem_append_left _ hx),
      spans_congr fun x hx => hsame x (List.mem_append_right _
        (List.mem_cons_of_mem _ (List.mem_cons_of_mem _ hx)))]
  have hascending : (ys ++ c :: b :: zs).Pairwise (· < ·) := by
    have hinsert := h.ascending_insert hys hzs
    refine hinsert.sublist (List.Sublist.append_left ?_ ys)
    exact ((List.sublist_cons_self d zs).cons_cons b).cons_cons c
  refine ⟨⟨?_, hascending, ?_, ?_⟩, ?_⟩
  · change Seg m'.next (some m'.freelist) (ys ++ c :: b :: zs) none
    rw [hfreelist]
    have hnodup : (ys ++ c :: d :: zs).Nodup := h.ascending.imp fun hlt => hlt.ne
    exact h.chain.replace_after hnodup hb hm.link hm.next hm.others
  · have htiled := h.tiled_freed hl
    rw [spans_append, spans_cons, spans_cons] at htiled
    have hmerged : Tiled 255 ((b, n + p.arena.size d) ::
        (p.arena.spans ys ++ [(c, p.arena.size c)] ++ (p.arena.spans zs ++ p.othersLive b))) := by
      refine Tiled.merge ?_
      rw [← hsize, hm.touches, hsize]
      refine htiled.perm (.cons _ ?_)
      calc p.arena.spans ys ++ (c, p.arena.size c) :: (d, p.arena.size d) :: p.arena.spans zs ++
            p.othersLive b
          = p.arena.spans ys ++ [(c, p.arena.size c)] ++ (d, p.arena.size d) ::
              (p.arena.spans zs ++ p.othersLive b) := by simp
        _ ~ (d, p.arena.size d) :: (p.arena.spans ys ++ [(c, p.arena.size c)] ++
              (p.arena.spans zs ++ p.othersLive b)) := List.perm_middle
    change Tiled 255 (m'.spans (ys ++ c :: b :: zs) ++ p.othersLive b)
    rw [hspans]
    refine hmerged.perm ?_
    calc (b, n + p.arena.size d) :: (p.arena.spans ys ++ [(c, p.arena.size c)] ++
          (p.arena.spans zs ++ p.othersLive b))
        ~ p.arena.spans ys ++ [(c, p.arena.size c)] ++ (b, n + p.arena.size d) ::
            (p.arena.spans zs ++ p.othersLive b) := List.perm_middle.symm
      _ = p.arena.spans ys ++ (c, p.arena.size c) :: (b, n + p.arena.size d) ::
            p.arena.spans zs ++ p.othersLive b := by simp
  · intro l hmem
    rcases WellFormed.mem_live hmem with ⟨hlive, hne⟩
    exact (hm.sizes _ hne).trans (h.sizes l hlive)
  · rw [h.total_freed hl, hspans]
    simp only [total_append, spans_append, spans_cons, total_cons]
    omega

theorem doFree_eq {m' : Arena} (h : m.blocks.findSome? (m.freeAt b) = some m') :
    m.doFree (b + 1) = some m' := by
  rw [doFree, Nat.add_sub_cancel, h]

/-- An ascending list falls apart at a number that is not in it. -/
theorem split_at {fs : List Nat} (h : fs.Pairwise (· < ·)) (hb : b ∉ fs) :
    ∃ ys zs, fs = ys ++ zs ∧ (∀ y ∈ ys, y < b) ∧ ∀ z ∈ zs, b < z := by
  induction fs with
  | nil => exact ⟨[], [], rfl, by simp, by simp⟩
  | cons x fs ih =>
      rcases List.pairwise_cons.1 h with ⟨hx, hfs⟩
      rcases Nat.lt_or_gt_of_ne (List.ne_of_not_mem_cons hb).symm with hlt | hgt
      · rcases ih hfs (List.not_mem_of_not_mem_cons hb) with ⟨ys, zs, rfl, hys, hzs⟩
        refine ⟨x :: ys, zs, rfl, ?_, hzs⟩
        rintro y (- | ⟨-, hy⟩)
        · exact hlt
        · exact hys y hy
      · refine ⟨[], x :: fs, rfl, by simp, ?_⟩
        intro z hz
        rcases List.mem_cons.1 hz with rfl | hz'
        · exact hgt
        · exact Nat.lt_trans hgt (hx z hz')

/-- The free block `c` and its successor both touch the block `b`. -/
def TouchesBoth (m : Arena) (b c : Nat) : Prop :=
  c + m.size c = b ∧ m.next c = some (b + m.size b)

instance (m : Arena) (b c : Nat) : Decidable (TouchesBoth m b c) :=
  inferInstanceAs (Decidable (_ ∧ _))

/-- A block that does not touch two neighbours is freed.  It is lost if it lies below the list. -/
theorem free_step (h : WellFormed p fs) (hl : (b, n) ∈ p.live)
    (hapart : ∀ c ∈ p.arena.blocks, ¬ TouchesBoth p.arena b c) :
    ∃ p' fs', p.exec (.free (b + 1)) = some p' ∧ WellFormed p' fs' ∧
      (p.arena.freelist < b → total (p'.arena.spans fs' ++ p'.live) =
        total (p.arena.spans fs ++ p.live)) := by
  have hb : b ∉ fs := h.notMem_live hl
  rw [h.blocks_eq] at hapart
  rcases split_at h.ascending hb with ⟨ys, zs, rfl, hys, hzs⟩
  rcases List.eq_nil_or_concat ys with rfl | ⟨us, c, rfl⟩
  · -- the whole list is above the block: its last entry is where the loop stops
    rcases List.eq_nil_or_concat zs with rfl | ⟨us, c, rfl⟩
    · exact absurd h.chain (by simp)
    · rw [List.concat_eq_append, List.nil_append] at *
      have hlast : p.arena.next c = none := (seg_snoc.1 h.chain).2
      rcases freeAt_below hlast (hzs c (by simp)) with ⟨m', hfree, hfreelist, hsame⟩
      have hfound : p.arena.blocks.findSome? (p.arena.freeAt b) = some m' := by
        rw [h.blocks_eq, findSome_skip h.chain (.inr hzs), List.findSome?_cons, hfree]
      have hsizes : ∀ x ∈ us ++ [c], m'.size x = p.arena.size x := fun x hx =>
        congrArg Header.size (hsame x fun heq => hb (heq ▸ hx))
      refine ⟨_, us ++ [c], Option.map_eq_some_iff.2 ⟨m', doFree_eq hfound, rfl⟩,
        ⟨?_, h.ascending, ?_, ?_⟩, ?_⟩
      · change Seg m'.next (some m'.freelist) (us ++ [c]) none
        rw [hfreelist]
        exact h.chain.congr fun x hx => congrArg Header.next (hsame x fun heq => hb (heq ▸ hx))
      · change Tiled 255 (m'.spans (us ++ [c]) ++ p.othersLive b)
        rw [spans_congr hsizes]
        exact (h.tiled_freed hl).sublist (List.sublist_cons_self _ _)
      · intro l hmem
        rcases WellFormed.mem_live hmem with ⟨hlive, hne⟩
        exact (congrArg Header.size (hsame _ hne)).trans (h.sizes l hlive)
      · intro hhead
        have hfirst : p.arena.freelist ∈ us ++ [c] := by
          cases hus : us ++ [c] with
          | nil => exact absurd hus (by simp)
          | cons x xs =>
              have hchain := h.chain
              rw [hus] at hchain
              rw [Option.some.inj hchain.start_of_cons]
              exact List.mem_cons_self
        exact absurd (hzs _ hfirst) (by omega)
  · rw [List.concat_eq_append] at hys
    rw [List.concat_eq_append, List.append_assoc] at h hapart hb ⊢
    have hchain := seg_append.1 h.chain
    rcases hchain with ⟨r, -, -, hback⟩
    have hnext : ∀ d, p.arena.next c = some d → b < d := by
      intro d hd
      cases zs with
      | nil =>
          rw [hd] at hback
          cases hback
      | cons z zs =>
          have hz : d = z := Option.some.inj (hd.symm.trans hback.start_of_cons)
          exact hz ▸ hzs z List.mem_cons_self
    rcases freeAt_above (hys c (by simp)) hnext (hapart c (by simp)) with
      ⟨m', hfree, hfreelist, hshape⟩
    have hfound : p.arena.blocks.findSome? (p.arena.freeAt b) = some m' := by
      rw [h.blocks_eq]
      exact (findSome_skip h.chain (.inl hys)).trans (by rw [List.findSome?_cons, hfree])
    have hexec : p.exec (.free (b + 1)) = some ⟨m', p.othersLive b⟩ :=
      Option.map_eq_some_iff.2 ⟨m', doFree_eq hfound, rfl⟩
    rcases hshape with hm | hm | ⟨d, hm⟩
    · have hwell := hm.wellFormed h hl hfreelist
      exact ⟨_, _, hexec, hwell.1, fun _ => hwell.2⟩
    · have hwell := hm.wellFormed h hl hfreelist hys hzs
      exact ⟨_, _, hexec, hwell.1, fun _ => hwell.2⟩
    · cases zs with
      | nil =>
          rw [hm.succ] at hback
          cases hback
      | cons z zs =>
          have hz : z = d := Option.some.inj (hback.start_of_cons.symm.trans hm.succ)
          subst hz
          have hwell := hm.wellFormed h hl hfreelist hys hzs
          exact ⟨_, _, hexec, hwell.1, fun _ => hwell.2⟩

/-! ## Writes of the process -/

/-- The payload of a live block holds no header. -/
theorem store_step (h : WellFormed p fs) {l : Nat × Nat} (hl : l ∈ p.live) {i : Nat}
    (hi : l.1 < i ∧ i < l.1 + l.2) (x : Header) :
    WellFormed { p with arena := p.arena.setHeader i x } fs ∧
      (p.arena.setHeader i x).spans fs = p.arena.spans fs := by
  have hfree : ∀ a ∈ fs, a ≠ i := by
    intro a ha heq
    have hpositive := h.positive_free ha
    rcases h.apart_live ha hl with hleft | hright
    · simp only at hleft
      omega
    · simp only at hright
      omega
  have hlive : ∀ l' ∈ p.live, l'.1 ≠ i := by
    intro l' hl' heq
    have htiled : Tiled 255 p.live := h.tiled.sublist (List.sublist_append_right _ _)
    have hpositive := h.positive_live hl'
    by_cases hsame : l' = l
    · subst hsame
      omega
    · rcases htiled.apart.forall hl' hl hsame with hleft | hright
      · omega
      · omega
  have hspans : (p.arena.setHeader i x).spans fs = p.arena.spans fs :=
    spans_congr fun a ha => setHeader_size_of_ne _ (hfree a ha)
  refine ⟨⟨?_, h.ascending, ?_, ?_⟩, hspans⟩
  · exact h.chain.congr fun a ha => setHeader_next_of_ne _ (hfree a ha)
  · change Tiled 255 ((p.arena.setHeader i x).spans fs ++ p.live)
    rw [hspans]
    exact h.tiled
  · exact fun l' hl' => (setHeader_size_of_ne _ (hlive l' hl')).trans (h.sizes l' hl')

end UserHeap

end OswpKernel
