import OswpKernel.Base
import Mathlib.Data.Nat.Bitwise

/-!
# Paging entries — table entries, pointers and index fields

A table entry is a word: a frame number in the bits from 12 on and flags below
(`include/sys/virtualmem.h`).  The kernel reaches a frame through the window at `KERNBASE`; a table
pointer outside that window, NULL among them, is not a pointer to a table (`pointerFrame`).
-/

namespace OswpKernel

/-- A physical page frame. -/
abbrev Frame := Nat

/-- An index into one of the four kinds of tables. -/
abbrev Slot := Fin 512

/-- For the numerals among the slots. -/
instance neZero_slots : NeZero (512 : Nat) := ⟨by decide⟩

namespace Paging

/-- The slots of a top table that are neither the self link nor the kernel's. -/
theorem slot_lt {i : Slot} (h510 : i ≠ 510) (h511 : i ≠ 511) : (i : Nat) < 510 := by
  have hne : (i : Nat) ≠ 510 := fun heq => h510 (Fin.ext heq)
  have hne' : (i : Nat) ≠ 511 := fun heq => h511 (Fin.ext heq)
  have hlt := i.isLt
  omega

/-- The mask that keeps the frame of an entry. -/
def frameMask : Word := 0xfffffffffffff000#64

/-- The mask `map_address` and `map_user_address` put over a physical address. -/
def physMask : Word := 0xfffff000#64

/-- The frame an entry, or a physical address, lies in. -/
def frameOf (e : Word) : Nat := (e >>> 12).toNat

/-- Some of the bits of `flag` are set. -/
def Has (e flag : Word) : Prop := e &&& flag ≠ 0#64

instance (e flag : Word) : Decidable (Has e flag) := inferInstanceAs (Decidable (_ ≠ _))

def presentBit : Word := 1
def writeBit : Word := 2
def userBit : Word := 4
def cowBit : Word := 0x200

abbrev Present (e : Word) : Prop := Has e presentBit

/-- The frame a kernel pointer points into. -/
def pointerFrame (v : Word) : Option Frame :=
  if KERNBASE ≤ v then some (frameOf (v - KERNBASE)) else none

/-- The table an entry leads to, `KERNBASE + (page_value & 0xfffffffffffff000)`. -/
def tableAt (e : Word) : Option Frame := pointerFrame (KERNBASE + (e &&& frameMask))

/-- The entry for a freshly allocated table,
`((pointer & 0xfffffffffffff000) - KERNBASE) | flags`. -/
def linkTo (v flags : Word) : Word := (v &&& frameMask) - KERNBASE ||| flags

/-- The entry `duplicate_*` leaves in a source table. -/
def marked (e : Word) : Word := e &&& 0xfffffffffffffffd#64 ||| cowBit

def pml4Index (va : Word) : Slot := Fin.ofNat 512 (va >>> 39).toNat
def pdptIndex (va : Word) : Slot := Fin.ofNat 512 (va >>> 30).toNat
def pdtIndex (va : Word) : Slot := Fin.ofNat 512 (va >>> 21).toNat
def ptIndex (va : Word) : Slot := Fin.ofNat 512 (va >>> 12).toNat

/-- The four indices of an address, from the top table down. -/
def pathOf (va : Word) : List Slot := [pml4Index va, pdptIndex va, pdtIndex va, ptIndex va]

/-! ## Flags -/

section Flags

variable {e f flag : Word}

theorem has_or : Has (e ||| f) flag ↔ Has e flag ∨ Has f flag := by
  simp only [Has, BitVec.and_or_distrib_right, ne_eq, BitVec.or_eq_zero_iff]
  tauto

theorem Has.or_right (h : Has e flag) (f : Word) : Has (e ||| f) flag := has_or.2 (Or.inl h)

theorem has_of_or_left (h : Has f flag) (e : Word) : Has (e ||| f) flag := has_or.2 (Or.inr h)

theorem Present.ne_zero (h : Present e) : e ≠ 0 := by
  rintro rfl
  exact h (by decide)

theorem marked_has (h : Has e flag) (hflag : 0xfffffffffffffffd#64 &&& flag = flag) :
    Has (marked e) flag := by
  refine has_or.2 (Or.inl ?_)
  rwa [Has, BitVec.and_assoc, hflag]

theorem marked_present (h : Present e) : Present (marked e) := marked_has h (by decide)

theorem marked_not_writable (e : Word) : ¬ Has (marked e) writeBit := by
  rw [marked, has_or]
  rintro (h | h)
  · have hcleared : 0xfffffffffffffffd#64 &&& writeBit = 0#64 := by decide
    exact h (by rw [BitVec.and_assoc, hcleared, BitVec.and_zero])
  · exact h (by decide)

theorem marked_ne_zero (e : Word) : marked e ≠ 0 := by
  intro h
  have hcow : Has (marked e) cowBit := has_of_or_left (by decide) _
  exact hcow (by rw [h]; decide)

end Flags

/-! ## Frames -/

section Frames

variable {e f : Word}

theorem frameOf_eq (e : Word) : frameOf e = e.toNat / 4096 := by
  simp [frameOf, BitVec.toNat_ushiftRight, Nat.shiftRight_eq_div_pow]

theorem frameOf_or (e : Word) (hf : f >>> 12 = 0#64) : frameOf (e ||| f) = frameOf e := by
  rw [frameOf, BitVec.ushiftRight_or_distrib, hf, BitVec.or_zero, frameOf]

theorem frameOf_and (e : Word) (hf : f >>> 12 = BitVec.allOnes 64 >>> 12) :
    frameOf (e &&& f) = frameOf e := by
  rw [frameOf, BitVec.ushiftRight_and_distrib, hf, ← BitVec.ushiftRight_and_distrib,
    BitVec.and_allOnes, frameOf]

theorem frameOf_marked (e : Word) : frameOf (marked e) = frameOf e := by
  rw [marked, frameOf_or _ (by decide), frameOf_and _ (by decide)]

theorem frameOf_mask (e : Word) : frameOf (e &&& frameMask) = frameOf e := frameOf_and e (by decide)

theorem frameOf_of_tableAt {t : Frame} (h : tableAt e = some t) : t = frameOf e := by
  rw [tableAt, pointerFrame] at h
  split_ifs at h
  rw [← Option.some_inj.1 h, BitVec.add_comm, BitVec.add_sub_cancel, frameOf_mask]

/-- A page address in the part of memory the kernel window shows. -/
structure LowPage (p : Word) : Prop where
  low : p.toNat < directMapLimit
  aligned : p &&& frameMask = p

variable {p q : Word}

theorem LowPage.add_eq_or (hp : LowPage p) : p + KERNBASE = p ||| KERNBASE :=
  BitVec.add_eq_or_of_and_eq_zero _ _ (low_and_KERNBASE hp.low)

theorem LowPage.toNat_add (hp : LowPage p) : (p + KERNBASE).toNat = p.toNat + KERNBASE.toNat := by
  have hbase : KERNBASE.toNat = 2 ^ 64 - 2 ^ 31 := by decide
  have hlow : p.toNat < 2 ^ 31 := hp.low
  rw [BitVec.toNat_add, hbase, Nat.mod_eq_of_lt (by omega)]

theorem LowPage.pointerFrame (hp : LowPage p) : pointerFrame (p + KERNBASE) = some (frameOf p) := by
  have hle : KERNBASE ≤ p + KERNBASE := by
    rw [BitVec.le_def, hp.toNat_add]
    exact Nat.le_add_left _ _
  rw [Paging.pointerFrame, if_pos hle, BitVec.add_sub_cancel]

theorem LowPage.linkTo (hp : LowPage p) (flags : Word) :
    linkTo (p + KERNBASE) flags = p ||| flags := by
  have hbase : KERNBASE &&& frameMask = KERNBASE := by decide
  rw [Paging.linkTo, hp.add_eq_or, BitVec.and_or_distrib_right, hp.aligned, hbase, ← hp.add_eq_or,
    BitVec.add_sub_cancel]

theorem LowPage.frame_lt (hp : LowPage p) : frameOf p < 2 ^ 19 := by
  have hlow : p.toNat < 2 ^ 31 := hp.low
  rw [frameOf_eq]
  omega

theorem toNat_of_aligned (h : e &&& frameMask = e) : e.toNat = 4096 * frameOf e := by
  have hmod : e.toNat % 4096 = 0 := by
    have hand : e &&& 0xfff#64 = 0#64 := by
      have hsplit : frameMask &&& 0xfff#64 = 0#64 := by decide
      rw [← h, BitVec.and_assoc, hsplit, BitVec.and_zero]
    have := congrArg BitVec.toNat hand
    rwa [BitVec.toNat_and, show (0xfff#64 : Word).toNat = 2 ^ 12 - 1 by decide,
      Nat.and_two_pow_sub_one_eq_mod] at this
  rw [frameOf_eq]
  omega

theorem LowPage.toNat_eq (hp : LowPage p) : p.toNat = 4096 * frameOf p :=
  toNat_of_aligned hp.aligned

theorem LowPage.frame_inj (hp : LowPage p) (hq : LowPage q) (h : frameOf p = frameOf q) :
    p = q := by
  apply BitVec.eq_of_toNat_eq
  rw [hp.toNat_eq, hq.toNat_eq, h]

theorem lowPage_of_toNat {f : Nat} (hlow : f < 2 ^ 19) (h : p.toNat = 4096 * f) : LowPage p := by
  refine ⟨by rw [h, directMapLimit]; omega, ?_⟩
  have hdigits : p &&& 0xfff#64 = 0#64 := by
    apply BitVec.eq_of_toNat_eq
    rw [BitVec.toNat_and, show (0xfff#64 : Word).toNat = 2 ^ 12 - 1 by decide,
      Nat.and_two_pow_sub_one_eq_mod, h]
    simp
  calc p &&& frameMask = p &&& frameMask ||| p &&& 0xfff#64 := by rw [hdigits, BitVec.or_zero]
    _ = p &&& (frameMask ||| 0xfff#64) := by rw [BitVec.and_or_distrib_left]
    _ = p := by rw [show frameMask ||| 0xfff#64 = BitVec.allOnes 64 by decide, BitVec.and_allOnes]

theorem tableAt_of_low (h : frameOf e < 2 ^ 19) : tableAt e = some (frameOf e) := by
  have hpage : LowPage (e &&& frameMask) := by
    refine ⟨?_, by rw [BitVec.and_assoc, BitVec.and_self]⟩
    rw [← frameOf_mask, frameOf_eq] at h
    rw [directMapLimit]
    omega
  rw [tableAt, BitVec.add_comm, hpage.pointerFrame, frameOf_mask]

/-- The address of a page frame. -/
def pageWord (f : Nat) : Word := BitVec.ofNat 64 (4096 * f)

theorem pageWord_add (f k : Nat) : pageWord f + pageWord k = pageWord (f + k) := by
  rw [pageWord, pageWord, ← BitVec.ofNat_add, ← Nat.mul_add, pageWord]

theorem LowPage.eq_pageWord (hp : LowPage p) : p = pageWord (frameOf p) := by
  rw [pageWord, ← hp.toNat_eq, BitVec.ofNat_toNat, BitVec.setWidth_eq]

theorem pageWord_toNat {f : Nat} (h : f < 2 ^ 52) : (pageWord f).toNat = 4096 * f := by
  rw [pageWord, BitVec.toNat_ofNat, Nat.mod_eq_of_lt (by omega)]

theorem lowPage_pageWord {f : Nat} (h : f < 2 ^ 19) : LowPage (pageWord f) :=
  lowPage_of_toNat h (pageWord_toNat (by omega))

/-- A page address has none of the flags. -/
theorem pageWord_not_has {f : Nat} (h : f < 2 ^ 19) {flag : Word}
    (hflag : frameMask &&& flag = 0#64) :
    ¬ Has (pageWord f) flag := by
  rw [Has, not_not, ← (lowPage_pageWord h).aligned, BitVec.and_assoc, hflag, BitVec.and_zero]

theorem frameOf_pageWord {f : Nat} (h : f < 2 ^ 52) : frameOf (pageWord f) = f := by
  rw [frameOf_eq, pageWord_toNat h]
  omega

/-- The addresses of the `n` page frames from `a` on. -/
theorem mem_pageWords {a n : Nat} (hlow : a + n ≤ 2 ^ 19)
    (hp : p ∈ (List.range n).map fun k => pageWord (a + k)) :
    LowPage p ∧ a ≤ frameOf p ∧ frameOf p < a + n := by
  rcases List.mem_map.1 hp with ⟨k, hk, rfl⟩
  rw [List.mem_range] at hk
  rw [frameOf_pageWord (by omega)]
  exact ⟨lowPage_pageWord (by omega), by omega, by omega⟩

theorem nodup_pageWords {a n : Nat} (hlow : a + n ≤ 2 ^ 19) :
    ((List.range n).map fun k => pageWord (a + k)).Nodup := by
  refine List.Nodup.map_on ?_ List.nodup_range
  intro k hk k' hk' heq
  rw [List.mem_range] at hk hk'
  have hframe := congrArg frameOf heq
  rw [frameOf_pageWord (by omega), frameOf_pageWord (by omega)] at hframe
  omega

theorem LowPage.physMask (hp : LowPage p) : p &&& physMask = p := by
  have hmask : Paging.physMask = frameMask &&& 0xffffffff#64 := by decide
  have hlow : p.toNat < 2 ^ 31 := hp.low
  have hword : p &&& 0xffffffff#64 = p := by
    apply BitVec.eq_of_toNat_eq
    rw [BitVec.toNat_and, show (0xffffffff#64 : Word).toNat = 2 ^ 32 - 1 by decide,
      Nat.and_two_pow_sub_one_eq_mod, Nat.mod_eq_of_lt (by omega)]
  rw [hmask, ← BitVec.and_assoc, hp.aligned, hword]

end Frames

/-! ## Index fields of the kernel window -/

section Indices

variable {f : Nat}

theorem kernelWord_toNat (h : f < 2 ^ 19) :
    (pageWord f + KERNBASE).toNat = 4096 * f + (2 ^ 64 - 2 ^ 31) := by
  rw [(lowPage_pageWord h).toNat_add, pageWord_toNat (by omega)]
  rfl

theorem kernelWord_shift (h : f < 2 ^ 19) (k : Nat) :
    ((pageWord f + KERNBASE) >>> k).toNat = (4096 * f + (2 ^ 64 - 2 ^ 31)) / 2 ^ k := by
  rw [BitVec.toNat_ushiftRight, kernelWord_toNat h, Nat.shiftRight_eq_div_pow]

theorem ofNat_eq_ofNat {a b : Nat} (h : a % 512 = b % 512) :
    Fin.ofNat 512 a = Fin.ofNat 512 b := Fin.ext h

/-- The window takes up the last two entries of the last second-level table. -/
theorem pathOf_kernelWord (h : f < 2 ^ 19) : pathOf (pageWord f + KERNBASE) =
    [511, Fin.ofNat 512 (510 + f / 512 / 512), Fin.ofNat 512 (f / 512), Fin.ofNat 512 f] := by
  simp only [pathOf, pml4Index, pdptIndex, pdtIndex, ptIndex, kernelWord_shift h]
  refine List.cons_eq_cons.2 ⟨ofNat_eq_ofNat (b := 511) (by omega), ?_⟩
  refine List.cons_eq_cons.2 ⟨ofNat_eq_ofNat (by omega), ?_⟩
  refine List.cons_eq_cons.2 ⟨ofNat_eq_ofNat (by omega), ?_⟩
  exact List.cons_eq_cons.2 ⟨ofNat_eq_ofNat (by omega), rfl⟩

end Indices

end Paging

end OswpKernel
