import OswpKernel.Paging.Machine
import Mathlib.Tactic.Ring

/-!
# Paging mapping — what a call of a mapping routine can do

One inversion lemma per routine of `Paging.Machine`: how a walk goes down one level, what one turn
of the mapping loop writes, how `bump` splits into its list half and its `map_address` call.  The
last section computes how many turns `map_address` makes.
-/

namespace OswpKernel

namespace Paging

open Machine

variable {alloc : Machine → Option (Word × Machine)} {root : Frame} {flags : MapFlags}
  {m m' : Machine} {c c' : Cursor} {n : Nat} {v : Word}

namespace Machine

theorem child_eq_some {t next : Frame} {i : Slot} :
    m.child t i = some next ↔ Present (m.mem t i) ∧ frameOf (m.mem t i) = next := by
  rw [child]
  split_ifs with h <;> simp [h]

theorem child_congr {t : Frame} {i : Slot} (h : m'.mem t i = m.mem t i) :
    m'.child t i = m.child t i := by
  rw [child, child, h]

theorem walk_cons {t next : Frame} {i : Slot} {is : List Slot} (h : m.child t i = some next) :
    m.walk t (i :: is) = m.walk next is := by
  rw [walk, h, Option.bind_some]

/-- One level down: the table is there, or it is allocated, entered and zeroed. -/
theorem descend_cases {flag : Word} {t next : Frame} {i : Slot}
    (h : descend alloc flag t i m = some (next, m')) :
    (Present (m.mem t i) ∧ tableAt (m.mem t i) = some next ∧ m' = m) ∨
    (¬ Present (m.mem t i) ∧ ∃ v m₁, alloc m = some (v, m₁) ∧ pointerFrame v = some next ∧
      m' = (m₁.write t i (linkTo v flag)).clear next) := by
  rw [descend] at h
  split_ifs at h with hpresent
  · rcases Option.bind_eq_some_iff.1 h with ⟨f, hf, hret⟩
    cases hret
    exact Or.inl ⟨hpresent, hf, rfl⟩
  · rcases Option.bind_eq_some_iff.1 h with ⟨⟨v, m₁⟩, halloc, h⟩
    rcases Option.bind_eq_some_iff.1 h with ⟨f, hf, hret⟩
    cases hret
    exact Or.inr ⟨hpresent, v, m₁, halloc, hf, rfl⟩

/-- A present entry that leads below 2 GiB is followed. -/
theorem descend_present {flag : Word} {t next : Frame} {i : Slot}
    (h : m.child t i = some next) (hlow : frameOf (m.mem t i) < 2 ^ 19) :
    descend alloc flag t i m = some (next, m) := by
  rcases child_eq_some.1 h with ⟨hpresent, rfl⟩
  rw [descend, if_pos hpresent, tableAt_of_low hlow]
  rfl

theorem freshTable_eq_some {next : Frame} (h : freshTable alloc m = some (v, next, m')) :
    ∃ m₁, alloc m = some (v, m₁) ∧ pointerFrame v = some next ∧ m' = m₁.clear next := by
  rcases Option.bind_eq_some_iff.1 h with ⟨⟨w, m₁⟩, halloc, h⟩
  rcases Option.bind_eq_some_iff.1 h with ⟨f, hf, hret⟩
  cases hret
  exact ⟨m₁, halloc, hf, rfl⟩

/-- The end of a turn: the page is present, or it is entered. -/
theorem enterPage_cases (h : enterPage flags (c, m) = some (c', m')) :
    ∃ hi : c.pti < 512,
      (Present (m.mem c.pt ⟨c.pti, hi⟩) ∧ m' = m ∧ c' = c.advance) ∨
      (¬ Present (m.mem c.pt ⟨c.pti, hi⟩) ∧
        m' = m.write c.pt ⟨c.pti, hi⟩ (c.phys ||| flags.page) ∧
        c' = { c.advance with mapped := c.mapped ++ [frameOf c.phys] }) := by
  rcases Option.bind_eq_some_iff.1 h with ⟨e, hload, h⟩
  rcases m.load_eq_some hload with ⟨hi, rfl⟩
  refine ⟨hi, ?_⟩
  split_ifs at h with hpresent
  · cases h
    exact Or.inl ⟨hpresent, rfl, rfl⟩
  · rcases Option.bind_eq_some_iff.1 h with ⟨m₁, hstore, hret⟩
    rcases m.store_eq_some hstore with ⟨_, rfl⟩
    cases hret
    exact Or.inr ⟨hpresent, rfl, rfl⟩

theorem mapStep_inside (hpdpt : c.pdpti ≠ 512) (hpdt : c.pdti ≠ 512) (hpt : c.pti ≠ 512) :
    mapStep alloc root flags (c, m) = enterPage flags (c, m) := by
  simp [mapStep, nextPdpt, nextPdt, nextPt, hpdpt, hpdt, hpt]

theorem mapStep_roll {next : Frame} {m₁ : Machine} (hpdpt : c.pdpti ≠ 512) (hpdt : c.pdti ≠ 512)
    (hpt : c.pti = 512) (halloc : alloc m = some (v, m₁)) (hnext : pointerFrame v = some next)
    (hi : c.pdti + 1 < 512) : mapStep alloc root flags (c, m) =
      enterPage flags ({ c with pti := 0, pdti := c.pdti + 1, pt := next },
        (m₁.clear next).write c.pdt ⟨c.pdti + 1, hi⟩ (linkTo v flags.table)) := by
  simp [mapStep, nextPdpt, nextPdt, nextPt, hpdpt, hpdt, hpt, freshTable, halloc, hnext,
    store_of_lt _ hi]

/-- One turn: inside a page table, or after the roll-over into a freshly allocated one.  The other
two roll-overs would need an index that an earlier store has already refused. -/
theorem mapStep_cases (hpdpt : c.pdpti ≠ 512) (hpdt : c.pdti ≠ 512)
    (h : mapStep alloc root flags (c, m) = some (c', m')) :
    (c.pti ≠ 512 ∧ enterPage flags (c, m) = some (c', m')) ∨
    (c.pti = 512 ∧ ∃ v next m₁, ∃ hi : c.pdti + 1 < 512,
      alloc m = some (v, m₁) ∧ pointerFrame v = some next ∧
      enterPage flags ({ c with pti := 0, pdti := c.pdti + 1, pt := next },
        (m₁.clear next).write c.pdt ⟨c.pdti + 1, hi⟩ (linkTo v flags.table)) = some (c', m')) := by
  have hskip : (nextPdpt alloc root flags (c, m)).bind (nextPdt alloc flags) = some (c, m) := by
    simp [nextPdpt, nextPdt, hpdpt, hpdt]
  have hstep : ((nextPdpt alloc root flags (c, m)).bind (nextPdt alloc flags)).bind
      (fun s => (nextPt alloc flags s).bind (enterPage flags)) = some (c', m') := by
    rw [← h, Option.bind_assoc]
    rfl
  rw [hskip, Option.bind_some] at hstep
  rcases Option.bind_eq_some_iff.1 hstep with ⟨s, hnext, henter⟩
  by_cases hpt : c.pti = 512
  · rw [nextPt, if_pos hpt] at hnext
    rcases Option.bind_eq_some_iff.1 hnext with ⟨⟨v, next, m₂⟩, hfresh, hnext⟩
    rcases freshTable_eq_some hfresh with ⟨m₁, halloc, hptr, rfl⟩
    rcases Option.bind_eq_some_iff.1 hnext with ⟨m₃, hstore, hret⟩
    rcases Machine.store_eq_some _ hstore with ⟨hi, rfl⟩
    cases hret
    exact Or.inr ⟨hpt, v, next, m₁, hi, halloc, hptr, henter⟩
  · rw [nextPt, if_neg hpt] at hnext
    cases hnext
    exact Or.inl ⟨hpt, henter⟩

theorem bumpFrom_cases {base size : Word} {who : Owner}
    (h : m.bumpFrom base who size = some (v, m')) :
    (m.ring.free < Allocator.numOfPages size ∧ v = 0 ∧ m' = m) ∨
    (Allocator.numOfPages size ≤ m.ring.free ∧ ∃ ret, m.ring.slots.head? = some ret ∧
      v = ret + base ∧ m' = m.takePages who (Allocator.numOfPages size)) := by
  rw [bumpFrom] at h
  split_ifs at h with hfull
  · cases h
    exact Or.inl ⟨hfull, rfl, rfl⟩
  · rcases Option.bind_eq_some_iff.1 h with ⟨ret, hret, heq⟩
    cases heq
    exact Or.inr ⟨not_lt.1 hfull, ret, hret, rfl, rfl⟩

end Machine

theorem bumpWith_cases {map : Word → Word → Machine → Option Machine} {size : Word}
    (h : bumpWith map size m = some (v, m')) :
    (m.ring.free < Allocator.numOfPages size ∧ v = 0 ∧ m' = m) ∨
    (Allocator.numOfPages size ≤ m.ring.free ∧ ∃ ret, m.ring.slots.head? = some ret ∧
      v = ret + KERNBASE ∧
      map (ret + KERNBASE) ret (m.takePages .kernel (Allocator.numOfPages size)) = some m') := by
  rw [bumpWith] at h
  split_ifs at h with hfull
  · cases h
    exact Or.inl ⟨hfull, rfl, rfl⟩
  · rcases Option.bind_eq_some_iff.1 h with ⟨ret, hret, h⟩
    rcases Option.bind_eq_some_iff.1 h with ⟨m₁, hmap, heq⟩
    rcases Prod.mk.inj (Option.some_inj.1 heq) with ⟨rfl, rfl⟩
    exact Or.inr ⟨not_lt.1 hfull, ret, hret, rfl, hmap⟩

theorem fits_of_bump {size : Word} (hbump : bump size m = some (v, m')) (hv : v ≠ 0) :
    Allocator.numOfPages size ≤ m.ring.free := by
  rcases bumpWith_cases hbump with ⟨-, rfl, -⟩ | ⟨hfit, -⟩
  · exact absurd rfl hv
  · exact hfit

/-- What `bump` returns is NULL or the address of a page that was free. -/
theorem bump_ret {size : Word} (hpages : 0 < Allocator.numOfPages size)
    (h : bump size m = some (v, m')) :
    v = 0 ∨ ∃ page ∈ m.ring.contents, v = page + KERNBASE := by
  rw [bump, bumpFuel] at h
  rcases bumpWith_cases h with ⟨-, hzero, -⟩ | ⟨hroom, ret, hhead, hret, -⟩
  · exact Or.inl hzero
  · refine Or.inr ⟨ret, ?_, hret⟩
    -- with a page to hand out, the first slot is among the contents
    obtain ⟨rest, hslots⟩ := List.head?_eq_some_iff.1 hhead
    obtain ⟨k, hk⟩ := Nat.exists_eq_succ_of_ne_zero (show m.ring.free ≠ 0 by omega)
    rw [SlotRing.contents, hslots, hk, List.take_succ_cons]
    exact List.mem_cons_self

/-! ## The loop inside one page table -/

/-- The absent ones among the `k` entries of the page table `pt` from index `i` on have been filled
with consecutive pages from `phys` on, and nothing else has changed. -/
structure Filled (m m' : Machine) (pt : Frame) (i k : Nat) (phys flag : Word) : Prop where
  ring : m'.ring = m.ring
  owner : m'.owner = m.owner
  pml4t : m'.pml4t = m.pml4t
  current : m'.current = m.current
  kept : ∀ t (j : Slot), (t ≠ pt ∨ (j : Nat) < i ∨ i + k ≤ j ∨ Present (m.mem t j)) →
    m'.mem t j = m.mem t j
  filled : ∀ d (hd : i + d < 512), d < k → ¬ Present (m.mem pt ⟨i + d, hd⟩) →
    m'.mem pt ⟨i + d, hd⟩ = phys + pageWord d ||| flag

theorem Filled.refl (m : Machine) (pt : Frame) (i : Nat) (phys flag : Word) :
    Filled m m pt i 0 phys flag :=
  ⟨rfl, rfl, rfl, rfl, fun _ _ _ => rfl, fun _ _ h => absurd h (Nat.not_lt_zero _)⟩

theorem Filled.kept_or_filled {pt : Frame} {i k : Nat} {phys flag : Word}
    (h : Filled m m' pt i k phys flag) (t : Frame) (j : Slot) : m'.mem t j = m.mem t j ∨
      ∃ d < k, t = pt ∧ (j : Nat) = i + d ∧ m'.mem t j = phys + pageWord d ||| flag := by
  by_cases hkept : t ≠ pt ∨ (j : Nat) < i ∨ i + k ≤ j ∨ Present (m.mem t j)
  · exact Or.inl (h.kept t j hkept)
  · simp only [not_or, not_not, not_lt, not_le] at hkept
    rcases hkept with ⟨rfl, hi, hk, habsent⟩
    rcases Nat.exists_eq_add_of_le hi with ⟨d, hd⟩
    have hj : j = ⟨i + d, hd ▸ j.isLt⟩ := Fin.ext hd
    rw [hj] at habsent ⊢
    exact Or.inr ⟨d, by omega, rfl, rfl, h.filled d _ (by omega) habsent⟩

/-- One more entry in front. -/
theorem Filled.cons {m₁ : Machine} {pt : Frame} {i k : Nat} {phys flag : Word} (hi : i < 512)
    (hfirst : (Present (m.mem pt ⟨i, hi⟩) ∧ m₁ = m) ∨
      (¬ Present (m.mem pt ⟨i, hi⟩) ∧ m₁ = m.write pt ⟨i, hi⟩ (phys ||| flag)))
    (h : Filled m₁ m' pt (i + 1) k (phys + 4096) flag) : Filled m m' pt i (k + 1) phys flag := by
  have hword : ∀ d, phys + 4096 + pageWord d = phys + pageWord (d + 1) := by
    intro d
    have hone : (4096 : Word) = pageWord 1 := by decide
    rw [hone, BitVec.add_assoc, pageWord_add, Nat.add_comm 1 d]
  have hzero : phys + pageWord 0 = phys := by simp [pageWord]
  -- the first turn touches at most the entry at `i`
  have hother : ∀ t (j : Slot), (t ≠ pt ∨ j ≠ ⟨i, hi⟩) → m₁.mem t j = m.mem t j := by
    intro t j hne
    rcases hfirst with ⟨-, rfl⟩ | ⟨-, rfl⟩
    · rfl
    · exact write_mem_of_ne m _ hne
  have hsame : m₁.ring = m.ring ∧ m₁.owner = m.owner ∧ m₁.pml4t = m.pml4t ∧
      m₁.current = m.current := by
    rcases hfirst with ⟨-, rfl⟩ | ⟨-, rfl⟩ <;> exact ⟨rfl, rfl, rfl, rfl⟩
  refine ⟨h.ring.trans hsame.1, h.owner.trans hsame.2.1, h.pml4t.trans hsame.2.2.1,
    h.current.trans hsame.2.2.2, ?_, ?_⟩
  · intro t j hj
    by_cases hat : t = pt ∧ j = ⟨i, hi⟩
    · rcases hat with ⟨rfl, rfl⟩
      have hpresent : Present (m.mem t ⟨i, hi⟩) := by
        rcases hj with hj | hj | hj | hj
        · exact absurd rfl hj
        · exact absurd hj (lt_irrefl i)
        · exact absurd hj (by simp)
        · exact hj
      rcases hfirst with ⟨-, rfl⟩ | ⟨habsent, -⟩
      · exact h.kept _ _ (Or.inr (Or.inl (Nat.lt_succ_self i)))
      · exact absurd hpresent habsent
    · have hne : t ≠ pt ∨ j ≠ ⟨i, hi⟩ := by tauto
      rw [← hother t j hne] at hj ⊢
      refine h.kept t j ?_
      rcases hj with hj | hj | hj | hj
      · exact Or.inl hj
      · exact Or.inr (Or.inl (Nat.lt_succ_of_lt hj))
      · exact Or.inr (Or.inr (Or.inl (by omega)))
      · exact Or.inr (Or.inr (Or.inr hj))
  · intro d hd hdk habsent
    cases d with
    | zero =>
        rcases hfirst with ⟨hpresent, -⟩ | ⟨-, rfl⟩
        · exact absurd hpresent habsent
        · rw [hzero, h.kept _ _ (Or.inr (Or.inl (Nat.lt_succ_self i)))]
          exact write_mem_self m pt ⟨i, hi⟩ _
    | succ d =>
        have hne : (⟨i + (d + 1), hd⟩ : Slot) ≠ ⟨i, hi⟩ := by
          intro heq
          have := Fin.mk.inj_iff.1 heq
          omega
        have hindex : (⟨i + (d + 1), hd⟩ : Slot) = ⟨i + 1 + d, by omega⟩ :=
          Fin.ext (by simp only; omega)
        rw [← hother pt _ (Or.inr hne)] at habsent
        rw [hindex] at habsent ⊢
        rw [h.filled d (by omega) (by omega) habsent, hword]

variable (alloc root flags m) in
/-- While the index stays inside the page table, the loop fills it and allocates nothing. -/
theorem times_mapStep_inside {k : Nat} (hpdpt : c.pdpti ≠ 512) (hpdt : c.pdti ≠ 512)
    (hroom : c.pti + k ≤ 512) :
    ∃ c' m', Loop.times (mapStep alloc root flags) k (c, m) = some (c', m') ∧
      Filled m m' c.pt c.pti k c.phys flags.page := by
  induction k generalizing c m with
  | zero => exact ⟨c, m, rfl, Filled.refl m _ _ _ _⟩
  | succ k ih =>
      have hi : c.pti < 512 := by omega
      have hskip : mapStep alloc root flags (c, m) = enterPage flags (c, m) :=
        mapStep_inside hpdpt hpdt hi.ne
      by_cases hpresent : Present (m.mem c.pt ⟨c.pti, hi⟩)
      · have henter : enterPage flags (c, m) = some (c.advance, m) := by
          simp [enterPage, load_of_lt m hi, hpresent]
        rcases ih (c := c.advance) (m := m) hpdpt hpdt (by simp [Cursor.advance]; omega)
          with ⟨c', m', hrun, hfilled⟩
        refine ⟨c', m', ?_, hfilled.cons hi (Or.inl ⟨hpresent, rfl⟩)⟩
        rw [Loop.times, hskip, henter]
        exact hrun
      · let c₁ : Cursor := { c.advance with mapped := c.mapped ++ [frameOf c.phys] }
        let m₁ := m.write c.pt ⟨c.pti, hi⟩ (c.phys ||| flags.page)
        have henter : enterPage flags (c, m) = some (c₁, m₁) := by
          simp [enterPage, load_of_lt m hi, store_of_lt m hi, hpresent, c₁, m₁]
        rcases ih (c := c₁) (m := m₁) hpdpt hpdt (by simp [c₁, Cursor.advance]; omega)
          with ⟨c', m', hrun, hfilled⟩
        refine ⟨c', m', ?_, hfilled.cons hi (Or.inr ⟨hpresent, rfl⟩)⟩
        rw [Loop.times, hskip, henter]
        exact hrun

/-! ## The number of turns of `map_address` -/

section Turns

variable {a r k : Nat}

theorem turnsPositive_pages (k : Nat) : turnsPositive (4096 * k) = k := by
  rw [turnsPositive]
  omega

theorem turnsPositive_nonpos {size : Int} (h : size ≤ 0) : turnsPositive size = 0 := by
  rw [turnsPositive]
  omega

theorem bmod_of_congr {x z : Int} (hx : x % 2 ^ 32 = z % 2 ^ 32) (hlow : -2 ^ 31 ≤ z)
    (hhigh : z < 2 ^ 31) : Int.bmod x 4294967296 = z := by
  rw [Int.bmod_def]
  omega

theorem toInt32_of_toNat {w : Word} {z : Int} (hw : (w.toNat : Int) % 2 ^ 32 = z % 2 ^ 32)
    (hlow : -2 ^ 31 ≤ z) (hhigh : z < 2 ^ 31) : toInt32 w = z :=
  bmod_of_congr hw hlow hhigh

theorem structsFor_one (hpos : 0 < k) (hk : k ≤ 512) : structsFor k = 1 := by
  rw [structsFor, Int.tdiv_eq_ediv_of_nonneg (by omega), Int.tmod_eq_emod_of_nonneg (by omega)]
  split_ifs <;> omega

theorem structsFor_neg (k : Nat) : structsFor (-k) = -(k / 512 : Nat) := by
  rw [structsFor, Int.neg_tdiv, Int.neg_tmod, Int.tdiv_eq_ediv_of_nonneg (by omega),
    Int.tmod_eq_emod_of_nonneg (by omega), if_neg (by omega)]
  omega

/-- Towards a higher page of the same page table the loop runs up to that page. -/
theorem mapSize_up (hra : r < a) (hspan : a - r ≤ 512) :
    mapSize (pageWord a) (pageWord r) = 4096 * (a - r : Nat) := by
  have hdiff : pageWord a - pageWord r = pageWord (a - r) := by
    have hsum := pageWord_add (a - r) r
    rw [Nat.sub_add_cancel hra.le] at hsum
    rw [← hsum, BitVec.add_sub_cancel]
  have htoNat : (pageWord (a - r)).toNat = 4096 * (a - r) := pageWord_toNat (by omega)
  have hentries : toInt32 (pageWord (a - r) / 4096) = (a - r : Nat) := by
    refine toInt32_of_toNat ?_ (by omega) (by omega)
    rw [BitVec.toNat_udiv, htoNat, show (4096 : Word).toNat = 4096 by decide]
    omega
  have hrest : ¬ pageWord (a - r) % 512 > 0 := by
    rw [gt_iff_lt, BitVec.lt_def, BitVec.toNat_umod, htoNat,
      show (512 : Word).toNat = 512 by decide]
    simp
    omega
  simp only [mapSize, hdiff, hentries, if_neg hrest, add_zero]
  rw [structsFor_one (by omega) hspan]
  refine toInt32_of_toNat ?_ (by omega) (by omega)
  simp [htoNat]

/-- Towards a lower page the size is negative, until it wraps around for pages 2 GiB apart. -/
theorem mapSize_down (har : a ≤ r) (hspan : r - a ≤ 2 ^ 19 - 2 ^ 10) (hr : r < 2 ^ 19) :
    mapSize (pageWord a) (pageWord r) ≤ 0 := by
  rcases Nat.eq_or_lt_of_le har with rfl | har
  · have hzero : pageWord a - pageWord a = 0 := BitVec.sub_self _
    rw [mapSize, hzero]
    decide
  · let k := r - a
    have hk : k = r - a := rfl
    have hdiff : (pageWord a - pageWord r).toNat = 2 ^ 64 - 4096 * k := by
      rw [BitVec.toNat_sub, pageWord_toNat (by omega), pageWord_toNat (by omega),
        Nat.mod_eq_of_lt (by omega)]
      omega
    have hentries : toInt32 ((pageWord a - pageWord r) / 4096) = -k := by
      refine toInt32_of_toNat ?_ (by omega) (by omega)
      rw [BitVec.toNat_udiv, hdiff, show (4096 : Word).toNat = 4096 by decide]
      omega
    have hrest : ¬ (pageWord a - pageWord r) % 512 > 0 := by
      rw [gt_iff_lt, BitVec.lt_def, BitVec.toNat_umod, hdiff,
        show (512 : Word).toNat = 512 by decide]
      simp
      omega
    simp only [mapSize, hentries, if_neg hrest, add_zero, structsFor_neg]
    have hsize : toInt32 (pageWord a - pageWord r +
        BitVec.ofInt 64 ((-((k / 512 : Nat) : Int) - 1) * 4096)) =
        -(4096 * (k + (k / 512 : Nat) + 1)) := by
      refine toInt32_of_toNat ?_ (by omega) (by omega)
      rw [BitVec.toNat_add, hdiff, BitVec.toNat_ofInt]
      omega
    rw [hsize]
    omega

end Turns

end Paging

end OswpKernel
