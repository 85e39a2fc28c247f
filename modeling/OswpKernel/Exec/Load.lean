import OswpKernel.Files.Archive
import OswpKernel.Lib.Bytes
import OswpKernel.Paging.FreePages
import OswpKernel.Paging.KernelHalf
import OswpKernel.Paging.KernelMap
import OswpKernel.Paging.MapExact

/-!
# Load — what `loadelf` makes of an executable (`tarfs.c`)

`loadelf` goes over the program headers with an index `i`, and the loop that copies a segment page
by page counts the bytes in the same `i`.  `loadelf_eq` says what comes out of that: the first
segment is loaded, and no other one.  The source of the copy is computed on a pointer to the header
of the file, so that all offsets are multiplied by the size of the header.

Memory is bytes at virtual addresses; a page of the process holds what its frame held before.  The
pages of the heap and of the stack are not mapped when they are handed out: the first store to each
goes through the page-fault handler, whose page tables are taken before the next allocation.
-/

namespace OswpKernel

namespace Exec

open Paging Execution

/-! ## The file -/

/-- `n` bytes at `a` as a number, the lowest first. -/
def readBytes (mem : Files.Memory) (a : Word) (n : Nat) : Nat :=
  Bytes.ofBytes ((List.range n).map fun i => mem (a + BitVec.ofNat 64 i))

def readWord (mem : Files.Memory) (a : Word) : Word := BitVec.ofNat 64 (readBytes mem a 8)

/-- `sizeof(struct Elf64_Ehdr)`. -/
def sizeofEhdr : Word := 64

/-- `sizeof(struct Elf64_Phdr)`. -/
def sizeofPhdr : Word := 56

def eEntry (mem : Files.Memory) (elf : Word) : Word := readWord mem (elf + 24)

def ePhoff (mem : Files.Memory) (elf : Word) : Word := readWord mem (elf + 32)

def ePhnum (mem : Files.Memory) (elf : Word) : BitVec 16 :=
  BitVec.ofNat 16 (readBytes mem (elf + 56) 2)

def readPhdr (mem : Files.Memory) (phdr : Word) : ProgramHeader where
  pType := BitVec.ofNat 32 (readBytes mem phdr 4)
  pFlags := BitVec.ofNat 32 (readBytes mem (phdr + 4) 4)
  pOffset := readWord mem (phdr + 8)
  pVaddr := readWord mem (phdr + 16)
  pFilesz := readWord mem (phdr + 32)
  pMemsz := readWord mem (phdr + 40)

/-! ## Accesses -/

/-- The page of the address is there. -/
def Accessible (m : Machine) (a : Word) : Prop := m.translate m.current a ≠ none

instance (m : Machine) (a : Word) : Decidable (Accessible m a) :=
  inferInstanceAs (Decidable (¬ _))

/-- An access of the kernel, for the process that runs.  Where the page is not there the fault
handler is called; in front of the first area it would follow a `list_of_vmas` that nothing has set.
The kernel runs without write protection, so that a page that is there can be written. -/
def touch (a : Word) (s : System) : Option System :=
  if Accessible s.machine a then some s
  else if s.vmas s.machine.current = [] ∧ ¬ IsCowEnabled s.machine (pml4Index a) then none
  else do
    let (_, s) ← interrupt4 a s
    -- the process was closed, or the access faults again
    if Accessible s.machine a then some s else none

/-- The machine with the areas at `list_of_vmas`, and the bytes. -/
structure Image where
  system : System
  mem : Files.Memory

/-- The eight bytes of a word. -/
def storedWord (mem : Files.Memory) (a w : Word) : Files.Memory := fun x =>
  if (x - a).toNat < 8 then UInt8.ofNat (w.toNat / 256 ^ (x - a).toNat % 256) else mem x

/-- A store to a word, which may lie in two pages. -/
def storeWord (a w : Word) (image : Image) : Option Image := do
  let s ← touch a image.system
  let s ← touch (a + 7) s
  return ⟨s, storedWord image.mem a w⟩

/-! ## The loops -/

/-- `*(dest + i) = *(source + i)`. -/
def copyByte (source dest : Word) (i : Nat) (image : Image) : Option Image := do
  let s ← touch (source + BitVec.ofNat 64 i) image.system
  let s ← touch (dest + BitVec.ofNat 64 i) s
  return ⟨s, Function.update image.mem (dest + BitVec.ofNat 64 i)
    (image.mem (source + BitVec.ofNat 64 i))⟩

/-- `kmemcpychar`; no caller passes a size that its `int` index does not reach. -/
def kmemcpychar (source dest : Word) (size : Nat) : Image → Option Image :=
  Loop.forEach (copyByte source dest) (List.range size)

/-- `for (addr = phdr->p_vaddr, i = 0; addr < phdr->p_vaddr + phdr->p_memsz; ...)`, with the `i` it
leaves. -/
def copyPages (elf phdr : Word) : Nat → Word → BitVec 32 → Image → Option (BitVec 32 × Image)
  | 0, _, _, _ => none
  | fuel + 1, addr, i, image =>
      let header := readPhdr image.mem phdr
      if addr < header.pVaddr + header.pMemsz then do
        let rest := header.pMemsz - i.signExtend 64
        let sizetocopy : Word := if rest > 4096 then 4096 else rest
        -- `elf + phdr->p_offset + i`, on a `struct Elf64_Ehdr *`
        let source := elf + sizeofEhdr * header.pOffset + sizeofEhdr * i.signExtend 64
        let image ← kmemcpychar source addr sizetocopy.toNat image
        copyPages elf phdr fuel (addr + 4096) (i + 4096) image
      else some (i, image)

/-- `list_of_vmas` of the process with this table. -/
def linkVmas (s : System) (table : OswpKernel.Frame) (vmas : List Vma) : System :=
  { s with vmas := Function.update s.vmas table vmas }

/-- `for (i = 0; i < elf->e_phnum; i++)`. -/
def loadSegments (elf : Word) : Nat → BitVec 32 → Word → Image → Option Image
  | 0, _, _, _ => none
  | fuel + 1, i, phdr, image =>
      if i.toInt < (ePhnum image.mem elf).toNat then
        let header := readPhdr image.mem phdr
        if header.pType = 1 then do
          let table := image.system.machine.current
          let machine ← mapSegment table header image.system.machine
          let (i, image) ← copyPages elf phdr (fuel + 1) header.pVaddr 0
            ⟨{ image.system with machine }, image.mem⟩
          -- a further area is linked only backwards
          let s := if image.system.vmas table = [] then
              linkVmas image.system table [segmentVma header]
            else image.system
          loadSegments elf fuel (i + 1) (phdr + sizeofPhdr) ⟨s, image.mem⟩
        else loadSegments elf fuel (i + 1) (phdr + sizeofPhdr) image
      else some image

/-! ## `loadelf` -/

/-- What `loadelf` leaves: `gotoaddr` and `ursp` are fields of the process. -/
structure Loaded where
  system : System
  mem : Files.Memory
  gotoaddr : Word
  ursp : Word

/-- The heap and the stack behind the segments.  `createheap` makes one block of the heap page;
`completion` is `on_completion_pointer`. -/
def loadAreas (completion entry : Word) (image : Image) : Option Loaded := do
  let s := image.system
  let table := s.machine.current
  -- both areas go behind the last one, and the list is not set without a segment
  if s.vmas table = [] then none
  else
    let (heap, machine) ← createheap 4096 table s.machine
    -- the area is linked after the stores, so that a fault does not find it
    let image ← storeWord (heap.vmaStart + 8) 255 ⟨{ s with machine }, image.mem⟩
    let image ← storeWord heap.vmaStart 0 image
    let s := linkVmas image.system table (image.system.vmas table ++ [heap])
    let (stack, machine) ← createStack table s.machine
    let s := linkVmas { s with machine } table (s.vmas table ++ [stack])
    let ursp := stack.vmaStart + 4087
    let image ← storeWord ursp completion ⟨s, image.mem⟩
    return { system := image.system, mem := image.mem, gotoaddr := entry, ursp }

/-- `loadelf`, for the process that runs and the file behind its header in the archive.  The headers
lie in the kernel's half, where the pages are there. -/
def loadelf (fuel : Nat) (completion elf : Word) (s : System) (mem : Files.Memory) :
    Option Loaded := do
  -- `p1->mm`
  let machine ← allocate 24 s.machine
  let image ← loadSegments elf fuel 0 (elf + ePhoff mem elf) ⟨s.setVmas machine [], mem⟩
  loadAreas completion (eEntry mem elf) image

variable {elf phdr source dest a : Word} {seg : ProgramHeader} {mem : Files.Memory}
  {n k o fuel : Nat} {s s' : System} {m m' : Machine} {table : OswpKernel.Frame}
  {image image' : Image} {completion entry : Word}

theorem touch_accessible (h : Accessible s.machine a) : touch a s = some s := if_pos h

/-! ## The copy of a segment -/

/-- Where the byte `o` of a segment is copied from. -/
def sourceOf (elf : Word) (seg : ProgramHeader) (o : Nat) : Word :=
  elf + sizeofEhdr * seg.pOffset + sizeofEhdr * BitVec.ofNat 64 (4096 * (o / 4096)) +
    BitVec.ofNat 64 (o % 4096)

/-- The memory with the first `n` bytes of the segment. -/
def copied (elf : Word) (seg : ProgramHeader) (n : Nat) (mem : Files.Memory) : Files.Memory :=
  fun a =>
    if (a - seg.pVaddr).toNat < n then mem (sourceOf elf seg (a - seg.pVaddr).toNat) else mem a

/-- The `n` bytes at `a` do not lie in the segment. -/
def Outside (seg : ProgramHeader) (a : Word) (n : Nat) : Prop :=
  ∀ i < n, seg.pMemsz.toNat ≤ (a + BitVec.ofNat 64 i - seg.pVaddr).toNat

/-- What is read does not lie in the segment. -/
def Apart (elf : Word) (seg : ProgramHeader) : Prop :=
  ∀ o < seg.pMemsz.toNat, seg.pMemsz.toNat ≤ (sourceOf elf seg o - seg.pVaddr).toNat

theorem toNat_ofNat_word (hn : n < 2 ^ 64) : (BitVec.ofNat 64 n).toNat = n := by
  rw [BitVec.toNat_ofNat, Nat.mod_eq_of_lt hn]

/-- Where both pages are there, a byte is moved. -/
theorem copyByte_accessible (hsource : Accessible s.machine (source + BitVec.ofNat 64 k))
    (hdest : Accessible s.machine (dest + BitVec.ofNat 64 k)) :
    copyByte source dest k ⟨s, mem⟩ = some ⟨s, Function.update mem (dest + BitVec.ofNat 64 k)
      (mem (source + BitVec.ofNat 64 k))⟩ := by
  rw [copyByte, touch_accessible hsource, Option.bind_eq_bind, Option.bind_some,
    touch_accessible hdest]
  rfl

/-- The bytes moved so far. -/
theorem foldl_update (hapart : ∀ i < n, n ≤ (source + BitVec.ofNat 64 i - dest).toNat)
    {j : Nat} (hj : j ≤ n) :
    (List.range j).foldl (fun mem i => Function.update mem (dest + BitVec.ofNat 64 i)
        (mem (source + BitVec.ofNat 64 i))) mem =
      fun a => if (a - dest).toNat < j then mem (source + (a - dest)) else mem a := by
  induction j with
  | zero =>
      funext a
      rw [if_neg (Nat.not_lt_zero _)]
      rfl
  | succ j ih =>
      have hread := hapart j hj
      rw [List.range_succ, List.foldl_append, ih (Nat.le_of_succ_le hj)]
      rw [List.foldl_cons, List.foldl_nil]
      funext a
      have hcancel : dest + BitVec.ofNat 64 j - dest = BitVec.ofNat 64 j := by
        rw [BitVec.add_comm, BitVec.add_sub_cancel]
      have hlast : (BitVec.ofNat 64 j).toNat = j := toNat_ofNat_word (by omega)
      by_cases ha : a = dest + BitVec.ofNat 64 j
      · rw [ha, Function.update_self, hcancel, hlast, if_pos (Nat.lt_succ_self j)]
        exact if_neg (by omega)
      · have hne : (a - dest).toNat ≠ j := by
          intro heq
          refine ha ?_
          rw [← heq, BitVec.ofNat_toNat, BitVec.setWidth_eq, BitVec.add_comm,
            BitVec.sub_add_cancel]
        rw [Function.update_of_ne ha]
        have hiff : (a - dest).toNat < j ↔ (a - dest).toNat < j + 1 := by omega
        simp only [hiff]

theorem kmemcpychar_eq
    (hsource : ∀ i < n, Accessible s.machine (source + BitVec.ofNat 64 i))
    (hdest : ∀ i < n, Accessible s.machine (dest + BitVec.ofNat 64 i))
    (hapart : ∀ i < n, n ≤ (source + BitVec.ofNat 64 i - dest).toNat) :
    kmemcpychar source dest n ⟨s, mem⟩ = some ⟨s,
      fun a => if (a - dest).toNat < n then mem (source + (a - dest)) else mem a⟩ := by
  rw [kmemcpychar, Loop.forEach_eq_foldl (f := fun image i => ⟨s, Function.update image.mem
    (dest + BitVec.ofNat 64 i) (image.mem (source + BitVec.ofNat 64 i))⟩)
    (I := fun image => image.system = s) ?_ rfl]
  · -- the fold is one over the memory
    rw [← foldl_update hapart le_rfl]
    exact congrArg some (List.foldl_hom (Image.mk s) fun _ _ => rfl)
  · rintro i ⟨_, mem⟩ hi rfl
    rw [List.mem_range] at hi
    exact ⟨copyByte_accessible (hsource i hi) (hdest i hi), rfl⟩

/-- The `int` that counts the bytes, where it is added to a `uint64_t`. -/
theorem signExtend_ofNat (hn : n < 2 ^ 31) :
    (BitVec.ofNat 32 n).signExtend 64 = BitVec.ofNat 64 n := by
  apply BitVec.eq_of_toNat_eq
  have hlow : (BitVec.ofNat 32 n).toNat = n := by
    rw [BitVec.toNat_ofNat, Nat.mod_eq_of_lt (by omega)]
  have hmsb : (BitVec.ofNat 32 n).msb = false := by
    rw [BitVec.msb_eq_false_iff_two_mul_lt, hlow]
    omega
  rw [BitVec.signExtend_eq_setWidth_of_msb_false hmsb, BitVec.toNat_setWidth, hlow,
    BitVec.toNat_ofNat]

/-- The pages of the segment are there, and those it is copied from. -/
structure CopyAccessible (m : Machine) (elf : Word) (seg : ProgramHeader) : Prop where
  source : ∀ o < seg.pMemsz.toNat, Accessible m (sourceOf elf seg o)
  dest : ∀ o < seg.pMemsz.toNat, Accessible m (seg.pVaddr + BitVec.ofNat 64 o)

/-- One page more. -/
theorem kmemcpychar_copied (hreach : CopyAccessible s.machine elf seg) (hapart : Apart elf seg)
    {p size : Nat} (hsize : size ≤ 4096) (hin : 4096 * p + size ≤ seg.pMemsz.toNat) :
    kmemcpychar (elf + sizeofEhdr * seg.pOffset + sizeofEhdr * BitVec.ofNat 64 (4096 * p))
        (seg.pVaddr + BitVec.ofNat 64 (4096 * p)) size ⟨s, copied elf seg (4096 * p) mem⟩ =
      some ⟨s, copied elf seg (4096 * p + size) mem⟩ := by
  have hword := seg.pMemsz.isLt
  have hsource : ∀ i < size, elf + sizeofEhdr * seg.pOffset +
      sizeofEhdr * BitVec.ofNat 64 (4096 * p) + BitVec.ofNat 64 i =
        sourceOf elf seg (4096 * p + i) := by
    intro i hi
    rw [sourceOf, Nat.mul_add_div (by decide), Nat.mul_add_mod, Nat.div_eq_of_lt (by omega),
      Nat.mod_eq_of_lt (by omega), Nat.add_zero]
  have hsub : ∀ a : Word, a - (seg.pVaddr + BitVec.ofNat 64 (4096 * p)) =
      a - seg.pVaddr - BitVec.ofNat 64 (4096 * p) := fun a => by bv_omega
  have htoNat : ∀ d : Word, (d - BitVec.ofNat 64 (4096 * p)).toNat =
      if 4096 * p ≤ d.toNat then d.toNat - 4096 * p else d.toNat + 2 ^ 64 - 4096 * p := by
    intro d
    have hd := d.isLt
    rw [BitVec.toNat_sub, toNat_ofNat_word (by omega)]
    split_ifs <;> omega
  rw [kmemcpychar_eq]
  · congr 2
    funext a
    rw [hsub, htoNat]
    have hd := (a - seg.pVaddr).isLt
    by_cases hpage : 4096 * p ≤ (a - seg.pVaddr).toNat
    · rw [if_pos hpage]
      by_cases hlt : (a - seg.pVaddr).toNat - 4096 * p < size
      · -- a byte of this page; what is read has not been written
        have hsrc := hsource _ hlt
        rw [Nat.add_sub_cancel' hpage] at hsrc
        have hread := hapart _ (by omega : (a - seg.pVaddr).toNat < seg.pMemsz.toNat)
        have hdiff : a - seg.pVaddr - BitVec.ofNat 64 (4096 * p) =
            BitVec.ofNat 64 ((a - seg.pVaddr).toNat - 4096 * p) := by
          apply BitVec.eq_of_toNat_eq
          rw [htoNat, if_pos hpage, toNat_ofNat_word (by omega)]
        rw [if_pos hlt, hdiff, hsrc, copied, if_neg (by omega), copied, if_pos (by omega)]
      · rw [if_neg hlt, copied, if_neg (by omega), copied, if_neg (by omega)]
    · rw [if_neg hpage, if_neg (by omega), copied, if_pos (by omega), copied, if_pos (by omega)]
  · intro i hi
    rw [hsource i hi]
    exact hreach.source _ (by omega)
  · intro i hi
    rw [BitVec.add_assoc, ← BitVec.ofNat_add]
    exact hreach.dest _ (by omega)
  · intro i hi
    have hread := hapart (4096 * p + i) (by omega)
    rw [hsource i hi, hsub, htoNat]
    split_ifs <;> omega

/-! ### The headers while the segment is copied -/

theorem Outside.part (h : Outside seg a n) (b k : Nat) (hk : b + k ≤ n) :
    Outside seg (a + BitVec.ofNat 64 b) k := by
  intro i hi
  rw [BitVec.add_assoc, ← BitVec.ofNat_add]
  exact h (b + i) (by omega)

theorem Outside.readBytes_copied (h : Outside seg a n) (hk : k ≤ seg.pMemsz.toNat) :
    readBytes (copied elf seg k mem) a n = readBytes mem a n := by
  rw [readBytes, readBytes]
  refine congrArg Bytes.ofBytes (List.map_congr_left fun i hi => ?_)
  have hout := h i (List.mem_range.1 hi)
  rw [copied, if_neg (by omega)]

theorem Outside.readPhdr_copied (h : Outside seg phdr 56) (hk : k ≤ seg.pMemsz.toNat) :
    readPhdr (copied elf seg k mem) phdr = readPhdr mem phdr := by
  have hzero : phdr + BitVec.ofNat 64 0 = phdr := BitVec.add_zero phdr
  have htype : readBytes (copied elf seg k mem) (phdr + BitVec.ofNat 64 0) 4 =
      readBytes mem (phdr + BitVec.ofNat 64 0) 4 :=
    (h.part 0 4 (by decide)).readBytes_copied hk
  rw [hzero] at htype
  simp only [readPhdr, readWord, htype]
  refine congr (congr (congr (congr (congrArg _ ?_) ?_) ?_) ?_) ?_
  all_goals refine congrArg _ (Outside.readBytes_copied ?_ hk)
  · exact h.part 4 4 (by decide)
  · exact h.part 8 8 (by decide)
  · exact h.part 16 8 (by decide)
  · exact h.part 32 8 (by decide)
  · exact h.part 40 8 (by decide)

/-- The segment has bytes, and neither the `int` that counts them nor its addresses go round; it
lies in one entry of the top table below slot 510, and `map_user_address` goes over all its pages.
The headers and what is read for it lie outside. -/
structure Loadable (elf phdr : Word) (seg : ProgramHeader) : Prop where
  pos : 0 < seg.pMemsz.toNat
  size : seg.pMemsz.toNat + 4096 < 2 ^ 31
  below : seg.pVaddr.toNat + seg.pMemsz.toNat + 4096 ≤ 2 ^ 64
  slot : (pml4Index seg.pVaddr : Nat) < 510
  inSlot : seg.pVaddr.toNat % 2 ^ 39 + seg.pMemsz.toNat ≤ 2 ^ 39
  covered : requestedPages seg.pVaddr seg.pMemsz.toNat ≤ loopPages seg.pMemsz.toNat
  apart : Apart elf seg
  header : Outside seg phdr 56
  count : Outside seg (elf + 56) 2

/-- The pages from number `p` on. -/
theorem copyPages_eq (hseg : Loadable elf phdr seg) (hreach : CopyAccessible s.machine elf seg)
    (hheader : readPhdr mem phdr = seg) {p : Nat} (hp : 4096 * p < seg.pMemsz.toNat + 4096)
    (hfuel : seg.pMemsz.toNat + 4096 ≤ 4096 * (p + fuel)) :
    copyPages elf phdr fuel (seg.pVaddr + BitVec.ofNat 64 (4096 * p)) (BitVec.ofNat 32 (4096 * p))
        ⟨s, copied elf seg (min (4096 * p) seg.pMemsz.toNat) mem⟩ =
      some (BitVec.ofNat 32 (4096 * ((seg.pMemsz.toNat + 4095) / 4096)),
        ⟨s, copied elf seg seg.pMemsz.toNat mem⟩) := by
  have hsize := hseg.size
  have hend := hseg.below
  induction fuel generalizing p with
  | zero => omega
  | succ fuel ih =>
      have hcount : (BitVec.ofNat 64 (4096 * p)).toNat = 4096 * p := toNat_ofNat_word (by omega)
      have hmore : seg.pVaddr + BitVec.ofNat 64 (4096 * p) < seg.pVaddr + seg.pMemsz ↔
          4096 * p < seg.pMemsz.toNat := by
        rw [BitVec.lt_def, BitVec.toNat_add, BitVec.toNat_add, hcount, Nat.mod_eq_of_lt (by omega),
          Nat.mod_eq_of_lt (by omega)]
        omega
      rw [copyPages]
      dsimp only
      -- the header is still the one in the file
      rw [hseg.header.readPhdr_copied (Nat.min_le_right _ _), hheader]
      by_cases hlt : 4096 * p < seg.pMemsz.toNat
      · have hrest : (seg.pMemsz - BitVec.ofNat 64 (4096 * p)).toNat =
            seg.pMemsz.toNat - 4096 * p := by
          rw [BitVec.toNat_sub_of_le (by rw [BitVec.le_def, hcount]; omega), hcount]
        have hpage : (if seg.pMemsz - BitVec.ofNat 64 (4096 * p) > 4096 then (4096 : Word)
            else seg.pMemsz - BitVec.ofNat 64 (4096 * p)).toNat =
              min 4096 (seg.pMemsz.toNat - 4096 * p) := by
          have h4096 : (4096 : Word).toNat = 4096 := rfl
          by_cases hfull : seg.pMemsz - BitVec.ofNat 64 (4096 * p) > 4096
          · rw [if_pos hfull]
            rw [gt_iff_lt, BitVec.lt_def, hrest, h4096] at hfull
            omega
          · rw [if_neg hfull, hrest]
            rw [gt_iff_lt, BitVec.lt_def, hrest, h4096] at hfull
            omega
        have hnext : seg.pVaddr + BitVec.ofNat 64 (4096 * p) + 4096 =
            seg.pVaddr + BitVec.ofNat 64 (4096 * (p + 1)) := by
          rw [Nat.mul_succ, BitVec.ofNat_add, BitVec.add_assoc]
          rfl
        have hcounter : BitVec.ofNat 32 (4096 * p) + 4096 = BitVec.ofNat 32 (4096 * (p + 1)) := by
          rw [Nat.mul_succ, BitVec.ofNat_add]
          rfl
        have hsum : 4096 * p + min 4096 (seg.pMemsz.toNat - 4096 * p) =
            min (4096 * (p + 1)) seg.pMemsz.toNat := by omega
        rw [if_pos (hmore.2 hlt), signExtend_ofNat (by omega), hpage, Nat.min_eq_left hlt.le,
          kmemcpychar_copied hreach hseg.apart (Nat.min_le_left _ _) (by omega), hnext, hcounter,
          hsum]
        exact ih (by omega) (by omega)
      · -- `i` has gone over all pages
        have hdone : p = (seg.pMemsz.toNat + 4095) / 4096 := by omega
        rw [if_neg fun h => hlt (hmore.1 h), Nat.min_eq_right (by omega), ← hdone]

/-! ## The pages of the segment -/

/-- `map_user_address` goes over all the pages of the segment. -/
theorem mapSegment_covers (h : ProcessTable m table) (hseg : Loadable elf phdr seg)
    (hmap : mapSegment table seg m = some m') :
    m'.current = m.current ∧
      ∀ o < seg.pMemsz.toNat, m'.translate table (seg.pVaddr + BitVec.ofNat 64 o) ≠ none := by
  rcases h with ⟨role, hroles, htable⟩
  rcases mapSegment_cases (S := fun _ => False) hroles hmap with
    ⟨role₁, m₁, phy, mapped, h₁, hg₁, hpage⟩
  have hprocess : ProcessTable m₁ table := ⟨role₁, h₁, hg₁.table htable⟩
  have hsize := hseg.size
  have hint : toInt32 seg.pMemsz = (seg.pMemsz.toNat : Nat) :=
    toInt32_of_toNat rfl (by omega) (by omega)
  constructor
  · rcases mapUserAddress_spec (S := fun _ => False) h₁ (hg₁.table htable) hseg.slot hpage with
      ⟨role', -, hg'⟩
    exact (hg₁.trans hg').current
  · intro o ho
    refine mapUserAddress_covers hprocess hseg.slot hpage ?_
    rcases (touches_iff hseg.pos hseg.inSlot).1 ⟨o, ho, rfl⟩ with ⟨hpml4, hfrom, hto⟩
    have hcovered := hseg.covered
    rw [hint, turnsNonneg_userMapSize]
    exact ⟨hpml4, hfrom, by omega⟩

/-! ## The loop over the headers -/

/-- Program header number `j`. -/
def phdrAt (mem : Files.Memory) (elf : Word) (j : Nat) : Word :=
  elf + ePhoff mem elf + sizeofPhdr * BitVec.ofNat 64 j

/-- The first segment is that of header number `k`. -/
structure FirstSegment (mem : Files.Memory) (elf : Word) (k : Nat) (seg : ProgramHeader) :
    Prop where
  index : k < (ePhnum mem elf).toNat
  header : readPhdr mem (phdrAt mem elf k) = seg
  load : seg.pType = 1
  before : ∀ j < k, (readPhdr mem (phdrAt mem elf j)).pType ≠ 1

theorem phdrAt_succ (mem : Files.Memory) (elf : Word) (j : Nat) :
    phdrAt mem elf j + sizeofPhdr = phdrAt mem elf (j + 1) := by
  rw [phdrAt, phdrAt, sizeofPhdr, BitVec.ofNat_add]
  bv_omega

theorem toInt_ofNat (hn : n < 2 ^ 31) : (BitVec.ofNat 32 n).toInt = n := by
  have hlow : (BitVec.ofNat 32 n).toNat = n := by
    rw [BitVec.toNat_ofNat, Nat.mod_eq_of_lt (by omega)]
  rw [BitVec.toInt_eq_toNat_of_lt (by omega), hlow]

/-- The headers in front of the first segment are passed over. -/
theorem FirstSegment.skip (h : FirstSegment image.mem elf k seg) {j : Nat} (hj : j ≤ k) :
    loadSegments elf (fuel + j) 0 (phdrAt image.mem elf 0) image =
      loadSegments elf fuel (BitVec.ofNat 32 j) (phdrAt image.mem elf j) image := by
  induction j generalizing fuel with
  | zero => rfl
  | succ j ih =>
      have hindex := h.index
      have hphnum := (ePhnum image.mem elf).isLt
      have hmore : (BitVec.ofNat 32 j).toInt < (ePhnum image.mem elf).toNat := by
        rw [toInt_ofNat (by omega)]
        omega
      rw [← Nat.add_assoc, Nat.add_right_comm, ih (Nat.le_of_succ_le hj), loadSegments,
        if_pos hmore]
      dsimp only
      rw [if_neg (h.before j hj), phdrAt_succ, BitVec.ofNat_add]
      rfl

/-- The bytes that are copied for the segment are there when it has been mapped. -/
def SourceAccessible (elf : Word) (seg : ProgramHeader) (m : Machine) : Prop :=
  ∀ machine, mapSegment m.current seg m = some machine →
    ∀ o < seg.pMemsz.toNat, Accessible machine (sourceOf elf seg o)

/-- The index is past the headers when the first segment has been copied. -/
theorem FirstSegment.loadSegments (h : FirstSegment mem elf k seg)
    (hseg : Loadable elf (phdrAt mem elf k) seg) (hnum : (ePhnum mem elf).toNat ≤ 4096)
    (hfuel : 2 ^ 20 ≤ fuel) (htable : ProcessTable s.machine s.machine.current)
    (hsource : SourceAccessible elf seg s.machine) (hvmas : s.vmas s.machine.current = []) :
    loadSegments elf fuel 0 (phdrAt mem elf 0) ⟨s, mem⟩ =
      (mapSegment s.machine.current seg s.machine).map fun machine =>
        ⟨s.setVmas machine [segmentVma seg], copied elf seg seg.pMemsz.toNat mem⟩ := by
  have hindex := h.index
  have hsize := hseg.size
  have hpos := hseg.pos
  obtain ⟨rest, rfl⟩ : ∃ rest, fuel = rest + 1 + 1 + k := ⟨fuel - 2 - k, by omega⟩
  have hmore : (BitVec.ofNat 32 k).toInt < (ePhnum mem elf).toNat := by
    rw [toInt_ofNat (by omega)]
    omega
  have hstart : FirstSegment (Image.mk s mem).mem elf k seg := h
  rw [hstart.skip le_rfl, Exec.loadSegments, if_pos hmore]
  dsimp only
  rw [h.header, if_pos h.load]
  cases hmap : mapSegment s.machine.current seg s.machine with
  | none => rfl
  | some machine =>
      rcases mapSegment_covers htable hseg hmap with ⟨hcurrent, hdest⟩
      have hreach : CopyAccessible ({ s with machine } : System).machine elf seg := by
        refine ⟨hsource machine hmap, fun o ho => ?_⟩
        rw [Accessible, hcurrent]
        exact hdest o ho
      have hcopy : copyPages elf (phdrAt mem elf k) (rest + 1 + 1)
          (seg.pVaddr + BitVec.ofNat 64 (4096 * 0)) (BitVec.ofNat 32 (4096 * 0))
          ⟨{ s with machine }, copied elf seg (min (4096 * 0) seg.pMemsz.toNat) mem⟩ = _ :=
        copyPages_eq hseg hreach h.header (by omega) (by omega)
      have hzero : copied elf seg 0 mem = mem := by
        funext a
        rw [copied, if_neg (Nat.not_lt_zero _)]
      rw [Nat.mul_zero, Nat.zero_min, hzero, BitVec.add_zero] at hcopy
      change copyPages elf (phdrAt mem elf k) (rest + 1 + 1) seg.pVaddr 0 _ = _ at hcopy
      rw [Option.bind_eq_bind, Option.bind_some, hcopy, Option.bind_eq_bind, Option.bind_some]
      dsimp only
      -- `i` has counted the bytes of at least one page
      have hover : ¬ (BitVec.ofNat 32 (4096 * ((seg.pMemsz.toNat + 4095) / 4096)) + 1).toInt <
          (ePhnum (copied elf seg seg.pMemsz.toNat mem) elf).toNat := by
        have hsucc : BitVec.ofNat 32 (4096 * ((seg.pMemsz.toNat + 4095) / 4096)) + 1 =
            BitVec.ofNat 32 (4096 * ((seg.pMemsz.toNat + 4095) / 4096) + 1) := by
          rw [BitVec.ofNat_add]
          rfl
        have hcount : ePhnum (copied elf seg seg.pMemsz.toNat mem) elf = ePhnum mem elf :=
          congrArg _ (hseg.count.readBytes_copied le_rfl)
        rw [hsucc, toInt_ofNat (by omega), hcount]
        omega
      rw [Exec.loadSegments, if_neg hover, if_pos hvmas]
      rfl

/-! ## The heap and the stack -/

theorem touch_keeps (h : touch a s = some s') : KeepsList s.machine s'.machine := by
  rw [touch] at h
  split_ifs at h
  · cases h
    exact KeepsList.refl _
  · rcases Option.bind_eq_some_iff.1 h with ⟨⟨mapped, s₁⟩, hfault, hret⟩
    dsimp only at hret
    split_ifs at hret
    cases hret
    exact interrupt4_keeps hfault

/-- A fault for an access leaves the areas, but for the start of the stack. -/
theorem touch_vmas (h : touch a s = some s') (table : OswpKernel.Frame) :
    s'.vmas table = s.vmas table ∨ s'.vmas table = growStack (s.vmas table) := by
  rw [touch] at h
  split_ifs at h with hmapped hlist
  · cases h
    exact Or.inl rfl
  · rcases Option.bind_eq_some_iff.1 h with ⟨⟨mapped, s₁⟩, hfault, hret⟩
    dsimp only at hret
    split_ifs at hret with hthere
    cases hret
    rw [interrupt4] at hfault
    split_ifs at hfault with hcow hkernel
    · rcases Option.bind_eq_some_iff.1 hfault with ⟨m', hcopy, hret⟩
      cases hret
      exact Or.inl rfl
    · cases hfault
      exact Or.inl rfl
    · rcases htarget : faultTarget (s.vmas s.machine.current) a with ⟨phys, grows⟩
      rw [htarget] at hfault
      rcases Option.bind_eq_some_iff.1 hfault with ⟨⟨mapped', m'⟩, hmap, hret⟩
      cases hret
      by_cases hcurrent : table = s.machine.current
      · subst hcurrent
        simp only [Function.update_self]
        split_ifs with hgrows
        · exact Or.inr rfl
        · exact Or.inl rfl
      · exact Or.inl (Function.update_of_ne hcurrent _ _)

/-- What no growth of the stack changes about the areas, no store changes. -/
theorem storeWord_cases (table : OswpKernel.Frame) {w : Word} {P : List Vma → Prop}
    (h : storeWord a w image = some image') (hgrow : ∀ vmas, P vmas → P (growStack vmas))
    (hvmas : P (image.system.vmas table)) :
    P (image'.system.vmas table) ∧ image'.mem = storedWord image.mem a w := by
  rw [storeWord] at h
  rcases Option.bind_eq_some_iff.1 h with ⟨s₁, hfirst, h⟩
  rcases Option.bind_eq_some_iff.1 h with ⟨s₂, hlast, hret⟩
  cases hret
  have htouch : ∀ {b s s'}, touch b s = some s' → P (s.vmas table) → P (s'.vmas table) := by
    intro b s s' htouch hP
    rcases touch_vmas htouch table with heq | heq
    · rw [heq]
      exact hP
    · rw [heq]
      exact hgrow _ hP
  exact ⟨htouch hlast (htouch hfirst hvmas), rfl⟩

theorem storeWord_keeps {w : Word} (h : storeWord a w image = some image') :
    KeepsList image.system.machine image'.system.machine := by
  rw [storeWord] at h
  rcases Option.bind_eq_some_iff.1 h with ⟨s₁, hfirst, h⟩
  rcases Option.bind_eq_some_iff.1 h with ⟨s₂, hlast, hret⟩
  cases hret
  exact (touch_keeps hfirst).trans (touch_keeps hlast)

/-- An address of the heap or of the stack: behind `USERBASE`, and not in the last page. -/
def InUserWindow (a : Word) : Prop := USERBASE.toNat ≤ a.toNat ∧ a.toNat + 4096 ≤ 2 ^ 64

theorem inUserWindow_add {p : Word} (hp : LowPage p) {d : Word} (hd : d.toNat < 2 ^ 40) :
    InUserWindow (p + USERBASE + d) := by
  have hlow : p.toNat < 2 ^ 31 := hp.low
  have hbase : USERBASE.toNat = 0xFFFFCCCC00000000 := rfl
  rw [InUserWindow, BitVec.toNat_add, BitVec.toNat_add, Nat.mod_eq_of_lt (by omega),
    Nat.mod_eq_of_lt (by omega)]
  omega

theorem createheap_spec {heap : Vma} (h : createheap 4096 table m = some (heap, m')) :
    heap = ⟨heap.vmaStart, heap.vmaStart + 4095, .heap⟩ ∧ KeepsList m m' ∧
      ∃ p ∈ m.ring.contents, heap.vmaStart = p + USERBASE := by
  rw [createheap] at h
  rcases Option.bind_eq_some_iff.1 h with ⟨⟨start, m₁⟩, hpages, h⟩
  rcases Option.bind_eq_some_iff.1 h with ⟨m₂, halloc, hret⟩
  cases hret
  refine ⟨?_, area_keeps hpages halloc⟩
  dsimp only
  rw [Vma.mk.injEq]
  exact ⟨rfl, by bv_omega, rfl⟩

theorem createStack_spec {stack : Vma} (h : createStack table m = some (stack, m')) :
    stack = ⟨stack.vmaStart, stack.vmaStart + 4095, .stack⟩ ∧ KeepsList m m' ∧
      ∃ p ∈ m.ring.contents, stack.vmaStart = p + USERBASE + 8 * stackOffset := by
  rw [createStack] at h
  rcases Option.bind_eq_some_iff.1 h with ⟨⟨start, m₁⟩, hpages, h⟩
  rcases Option.bind_eq_some_iff.1 h with ⟨m₂, halloc, hret⟩
  rcases Prod.mk.inj (Option.some_inj.1 hret) with ⟨rfl, rfl⟩
  rcases area_keeps hpages halloc with ⟨hkeeps, p, hp, rfl⟩
  exact ⟨rfl, hkeeps, p, hp, rfl⟩

/-- The areas of a process with one segment; a fault may have moved the start of the stack. -/
def LaidOut (seg : ProgramHeader) (heap stackEnd : Word) (vmas : List Vma) : Prop :=
  ∃ start, vmas = [segmentVma seg, ⟨heap, heap + 4095, .heap⟩, ⟨start, stackEnd, .stack⟩]

theorem LaidOut.grow {heap stackEnd : Word} {vmas : List Vma} (h : LaidOut seg heap stackEnd vmas) :
    LaidOut seg heap stackEnd (growStack vmas) := by
  rcases h with ⟨start, rfl⟩
  exact ⟨start - 4096, rfl⟩

/-- The areas, and the words that are stored into the heap and on the stack. -/
structure LoadedFrom (table : OswpKernel.Frame) (seg : ProgramHeader) (completion entry : Word)
    (mem : Files.Memory) (loaded : Loaded) : Prop where
  gotoaddr : loaded.gotoaddr = entry
  stack : InUserWindow loaded.ursp
  areas : ∃ heap, InUserWindow heap ∧
    LaidOut seg heap (loaded.ursp + 8) (loaded.system.vmas table) ∧
    loaded.mem =
      storedWord (storedWord (storedWord mem (heap + 8) 255) heap 0) loaded.ursp completion

theorem loadAreas_loadedFrom {loaded : Loaded}
    (hlow : ∀ p ∈ image.system.machine.ring.contents, LowPage p)
    (hvmas : image.system.vmas image.system.machine.current = [segmentVma seg])
    (h : loadAreas completion entry image = some loaded) :
    LoadedFrom image.system.machine.current seg completion entry image.mem loaded := by
  rw [loadAreas] at h
  dsimp only at h
  rw [if_neg (by rw [hvmas]; exact List.cons_ne_nil _ _)] at h
  rcases Option.bind_eq_some_iff.1 h with ⟨⟨heap, m₁⟩, hheap, h⟩
  rcases Option.bind_eq_some_iff.1 h with ⟨image₁, hsize, h⟩
  rcases Option.bind_eq_some_iff.1 h with ⟨image₂, hnext, h⟩
  rcases Option.bind_eq_some_iff.1 h with ⟨⟨stack, m₂⟩, hstack, h⟩
  rcases Option.bind_eq_some_iff.1 h with ⟨image₃, htop, hret⟩
  cases hret
  -- while the heap is made there is no stack that could grow
  have hnone : ∀ vmas, vmas = [segmentVma seg] → growStack vmas = [segmentVma seg] := by
    rintro _ rfl
    rfl
  rcases storeWord_cases _ hsize hnone hvmas with ⟨hvmas₁, hmem₁⟩
  rcases storeWord_cases _ hnext hnone hvmas₁ with ⟨hvmas₂, hmem₂⟩
  rcases createheap_spec hheap with ⟨hheap', hkeeps₁, p, hp, hstart⟩
  rcases createStack_spec hstack with ⟨hstack', -, q, hq, hbottom⟩
  -- the free pages are low ones when the stack is made
  have hlow₂ := (storeWord_keeps hnext).low ((storeWord_keeps hsize).low (hkeeps₁.low hlow))
  have hwindow : InUserWindow heap.vmaStart := by
    rw [hstart, ← BitVec.add_zero (p + USERBASE)]
    exact inUserWindow_add (hlow p hp) (by decide)
  have hursp : InUserWindow (stack.vmaStart + 4087) := by
    rw [hbottom, BitVec.add_assoc]
    exact inUserWindow_add (hlow₂ q hq) (by decide)
  have hlinked : LaidOut seg heap.vmaStart (stack.vmaStart + 4095)
      ([segmentVma seg] ++ [heap] ++ [stack]) := by
    refine ⟨stack.vmaStart, ?_⟩
    rw [← hheap', ← hstack']
    rfl
  rcases storeWord_cases (P := LaidOut seg heap.vmaStart (stack.vmaStart + 4095))
    image.system.machine.current htop (fun _ h => h.grow)
    (by simpa only [linkVmas, Function.update_self, hvmas₂] using hlinked) with ⟨hareas, hmem⟩
  have hend : stack.vmaStart + 4087 + 8 = stack.vmaStart + 4095 := by
    rw [BitVec.add_assoc]
    rfl
  refine ⟨rfl, hursp, heap.vmaStart, hwindow, ?_, ?_⟩
  · dsimp only
    rw [hend]
    exact hareas
  · dsimp only
    rw [hmem, hmem₂, hmem₁]

/-! ## What is loaded -/

theorem eq_zero_of_scaled (h : sizeofEhdr * a = a) : a = 0 := by
  rw [sizeofEhdr] at h
  grind

/-- The bytes are copied from where the header says just for a segment of one page that starts with
the file. -/
theorem sourceOf_iff (hpos : 0 < seg.pMemsz.toNat) :
    (∀ o < seg.pMemsz.toNat, sourceOf elf seg o = elf + seg.pOffset + BitVec.ofNat 64 o) ↔
      seg.pOffset = 0 ∧ seg.pMemsz.toNat ≤ 4096 := by
  have hzero : BitVec.ofNat 64 0 = 0#64 := rfl
  constructor
  · intro h
    have hfirst := h 0 hpos
    rw [sourceOf, Nat.zero_div, Nat.zero_mod, Nat.mul_zero, hzero, BitVec.mul_zero,
      BitVec.add_zero, BitVec.add_zero, BitVec.add_zero, BitVec.add_right_inj] at hfirst
    have hoffset := eq_zero_of_scaled hfirst
    refine ⟨hoffset, ?_⟩
    by_contra hlarge
    -- the second page is taken from 64 pages further on
    have hsecond := h 4096 (by omega)
    rw [sourceOf, hoffset, BitVec.add_assoc, BitVec.add_assoc, BitVec.add_assoc,
      BitVec.add_right_inj] at hsecond
    exact absurd hsecond (by decide)
  · rintro ⟨hoffset, hsmall⟩ o ho
    rw [sourceOf, hoffset, Nat.mod_eq_of_lt (by omega), Nat.div_eq_of_lt (by omega), Nat.mul_zero,
      hzero, BitVec.mul_zero, BitVec.add_zero]
    rfl

theorem copied_byte (ho : o < seg.pMemsz.toNat) :
    copied elf seg seg.pMemsz.toNat mem (seg.pVaddr + BitVec.ofNat 64 o) =
      mem (sourceOf elf seg o) := by
  have hcancel : seg.pVaddr + BitVec.ofNat 64 o - seg.pVaddr = BitVec.ofNat 64 o := by
    rw [BitVec.add_comm, BitVec.add_sub_cancel]
  have hword := seg.pMemsz.isLt
  rw [copied, hcancel, toNat_ofNat_word (by omega), if_pos ho]

/-- The machine for the loop: `p1->mm` has been taken, and its list is not set. -/
theorem ProcessTable.allocate {size : Word} (h : ProcessTable m m.current)
    (hpos : 0 < Allocator.numOfPages size) (halloc : allocate size m = some m') :
    m'.current = m.current ∧ ProcessTable m' m'.current := by
  rcases h with ⟨role, hroles, htable⟩
  rcases allocate_extends (S := fun _ => False) hroles hpos halloc with ⟨role', hroles', hextends⟩
  refine ⟨hextends.current, role', hroles', ?_⟩
  rw [hextends.current]
  exact hextends.table htable

section FirstSegment

variable (h : FirstSegment mem elf k seg) (hseg : Loadable elf (phdrAt mem elf k) seg)
  (hnum : (ePhnum mem elf).toNat ≤ 4096) (hfuel : 2 ^ 20 ≤ fuel)
  (htable : ProcessTable s.machine s.machine.current)
  (hsource : ∀ m, allocate 24 s.machine = some m → SourceAccessible elf seg m)

include h hseg hnum hfuel htable hsource

theorem FirstSegment.loadelf (completion : Word) : loadelf fuel completion elf s mem =
    ((allocate 24 s.machine).bind (mapSegment s.machine.current seg)).bind fun machine =>
      loadAreas completion (eEntry mem elf)
        ⟨s.setVmas machine [segmentVma seg], copied elf seg seg.pMemsz.toNat mem⟩ := by
  have hstart : elf + ePhoff mem elf = phdrAt mem elf 0 := by
    rw [phdrAt, show BitVec.ofNat 64 0 = 0#64 from rfl, BitVec.mul_zero, BitVec.add_zero]
  rw [Exec.loadelf, Option.bind_assoc]
  refine Option.bind_congr fun machine halloc => ?_
  rcases ProcessTable.allocate htable (by decide) halloc with ⟨hcurrent, hprocess⟩
  have hvmas : (s.setVmas machine []).vmas machine.current = [] := by
    rw [System.setVmas, hcurrent]
    exact Function.update_self _ _ _
  have hsegments := h.loadSegments (s := s.setVmas machine []) hseg hnum hfuel hprocess
    (hsource machine halloc) hvmas
  have hset : ∀ m vmas, (s.setVmas machine []).setVmas m vmas = s.setVmas m vmas := by
    intro m vmas
    simp only [System.setVmas, hcurrent, Function.update_idem]
  rw [hstart, hsegments, Option.bind_eq_bind, Option.bind_map]
  simp only [hset]
  rw [← hcurrent]
  rfl

theorem FirstSegment.loadedFrom {loaded : Loaded}
    (hloaded : Exec.loadelf fuel completion elf s mem = some loaded) :
    LoadedFrom s.machine.current seg completion (eEntry mem elf)
      (copied elf seg seg.pMemsz.toNat mem) loaded := by
  rw [h.loadelf hseg hnum hfuel htable hsource] at hloaded
  rcases Option.bind_eq_some_iff.1 hloaded with ⟨machine, hmapped, hareas⟩
  rcases Option.bind_eq_some_iff.1 hmapped with ⟨m, halloc, hmap⟩
  rcases ProcessTable.allocate htable (by decide) halloc with ⟨hcurrent, hprocess⟩
  rw [← hcurrent] at hmap ⊢
  rcases mapSegment_covers hprocess hseg hmap with ⟨hsame, -⟩
  rw [← hsame]
  refine loadAreas_loadedFrom ?_ ?_ hareas
  · rcases hprocess with ⟨role, hroles, -⟩
    exact (mapSegment_keeps hmap).low hroles.free.low
  · rw [System.setVmas, ← hcurrent, ← hsame]
    exact Function.update_self _ _ _

end FirstSegment

/-- The header of an executable with `n` program headers behind it, for the entry `0x400001`. -/
def fileHeader (n : Nat) : List UInt8 :=
  [127, 69, 76, 70, 2, 1, 1] ++ List.replicate 9 0 ++ Bytes.toBytes 2 2 ++ Bytes.toBytes 2 62 ++
    Bytes.toBytes 4 1 ++ Bytes.toBytes 8 0x400001 ++ Bytes.toBytes 8 64 ++ Bytes.toBytes 8 0 ++
    Bytes.toBytes 4 0 ++ Bytes.toBytes 2 64 ++ Bytes.toBytes 2 56 ++ Bytes.toBytes 2 n ++
    Bytes.toBytes 2 64 ++ Bytes.toBytes 2 0 ++ Bytes.toBytes 2 0

/-- The program header of a segment of 3 bytes. -/
def phdrBytes (offset vaddr : Nat) : List UInt8 :=
  Bytes.toBytes 4 1 ++ Bytes.toBytes 4 5 ++ Bytes.toBytes 8 offset ++ Bytes.toBytes 8 vaddr ++
    Bytes.toBytes 8 0 ++ Bytes.toBytes 8 3 ++ Bytes.toBytes 8 3 ++ Bytes.toBytes 8 4096

/-- Where the files below are, in a page of the kernel. -/
def sampleElf : Word := 0xffffffff80005000

/-- A file with two segments: the first one starts with the file, the other one at byte 16. -/
def twoSegments : Files.Memory := fun a =>
  (fileHeader 2 ++ phdrBytes 0 0x400000 ++ phdrBytes 16 0x500010).getD (a - sampleElf).toNat 0

def firstSegment : ProgramHeader := ⟨1, 5, 0, 0x400000, 3, 3⟩

def secondSegment : ProgramHeader := ⟨1, 5, 16, 0x500010, 3, 3⟩

theorem twoSegments_headers : (ePhnum twoSegments sampleElf).toNat = 2 ∧
    phdrAt twoSegments sampleElf 0 = sampleElf + 64 ∧
    readPhdr twoSegments (phdrAt twoSegments sampleElf 0) = firstSegment ∧
    readPhdr twoSegments (phdrAt twoSegments sampleElf 1) = secondSegment := by
  decide +kernel

theorem twoSegments_first : FirstSegment twoSegments sampleElf 0 firstSegment where
  index := by
    rw [twoSegments_headers.1]
    decide
  header := twoSegments_headers.2.2.1
  load := rfl
  before := fun j hj => absurd hj (Nat.not_lt_zero j)

theorem firstSegment_loadable : Loadable sampleElf (sampleElf + 64) firstSegment where
  pos := by decide
  size := by decide
  below := by decide
  slot := by decide
  inSlot := by decide
  covered := by decide
  apart := by
    have hbound : firstSegment.pMemsz.toNat = 3 := rfl
    rw [Apart, hbound]
    decide
  header := by
    rw [Outside]
    decide
  count := by
    rw [Outside]
    decide

/-- A process is made and loads the file, whose first segment is `firstSegment`. -/
def sampleLoads (file : Files.Memory) : Option Bool :=
  (replay systemStep (fun s e => SystemAllowed s e ∧ KeepsKernelHalf s e)
      [.bump 4096, .create] beforeInit).bind fun s =>
    ((allocate 24 s.machine).bind (mapSegment s.machine.current firstSegment)).bind fun machine =>
    (loadelf (2 ^ 20) 0x1234 sampleElf s file).map fun _ =>
      decide ((s : System).machine.current ∈ s.tables ∧ ∀ o : Nat, o < 3 →
        Accessible machine (sourceOf sampleElf firstSegment o))

theorem loads_of_sampleLoads {file : Files.Memory} (h : sampleLoads file = some true) :
    ∃ s loaded, Run systemStep (fun s e => SystemAllowed s e ∧ KeepsKernelHalf s e) beforeInit
        [.bump 4096, .create] s ∧
      ProcessTable s.machine s.machine.current ∧
      (∀ m, allocate 24 s.machine = some m → SourceAccessible sampleElf firstSegment m) ∧
      loadelf (2 ^ 20) 0x1234 sampleElf s file = some loaded := by
  rcases Option.bind_eq_some_iff.1 h with ⟨s, hs, h⟩
  rcases Option.bind_eq_some_iff.1 h with ⟨machine, hmachine, h⟩
  rcases Option.map_eq_some_iff.1 h with ⟨loaded, hloaded, hcheck⟩
  rcases of_decide_eq_true hcheck with ⟨hcurrent, hmapped⟩
  have hrun := run_of_replay hs
  rcases systemTables_of_run kernelOnly_consistent hrun with ⟨role, htables⟩
  have htable : ProcessTable s.machine s.machine.current :=
    ⟨role, htables.roles, (htables.tops _ hcurrent).1⟩
  refine ⟨s, loaded, hrun, htable, fun m halloc machine' hmap => ?_, hloaded⟩
  rw [halloc, Option.bind_some, ← (ProcessTable.allocate htable (by decide) halloc).1] at hmachine
  cases hmachine.symm.trans hmap
  exact hmapped

theorem twoSegments_loads : sampleLoads twoSegments = some true := by
  decide +kernel

end Exec

end OswpKernel
