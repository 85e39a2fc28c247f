import OswpKernel.Exec.Load

/-!
# ELF image — does `loadelf` build what the file describes?

The image that a file describes has every segment at its address, with the bytes of the file and
zeros behind them, an area for each of them, and starts at the entry of the file.  `loadelf` links
the area of one segment only, so that no file with two of them gets its image; it multiplies all
offsets by the size of the file's header and copies `p_memsz` bytes, without zeros.
`loadelf_describes_iff` says for which files the image is right all the same.
-/

namespace OswpKernel

namespace Exec

open Paging Execution

variable {elf a source dest : Word} {mem : Files.Memory} {seg : ProgramHeader} {i j k fuel n : Nat}
  {s s' : System} {table : OswpKernel.Frame} {image image' : Image} {loaded : Loaded}
  {completion entry w : Word} {count count' : BitVec 32} {phdr addr : Word}

/-! ## The image -/

/-- Program header number `j`. -/
def segmentAt (mem : Files.Memory) (elf : Word) (j : Nat) : ProgramHeader :=
  readPhdr mem (phdrAt mem elf j)

/-- Header number `j` is that of a segment. -/
def IsSegment (mem : Files.Memory) (elf : Word) (j : Nat) : Prop :=
  j < (ePhnum mem elf).toNat ∧ (segmentAt mem elf j).pType = 1

/-- Byte `o` of a segment. -/
def fileByte (mem : Files.Memory) (elf : Word) (seg : ProgramHeader) (o : Nat) : UInt8 :=
  if o < seg.pFilesz.toNat then mem (elf + seg.pOffset + BitVec.ofNat 64 o) else 0

/-- The segments are in memory and have their areas, and the process starts at the entry. -/
structure Describes (elf : Word) (mem : Files.Memory) (table : OswpKernel.Frame)
    (loaded : Loaded) : Prop where
  bytes : ∀ j, IsSegment mem elf j → ∀ o < (segmentAt mem elf j).pMemsz.toNat,
    loaded.mem ((segmentAt mem elf j).pVaddr + BitVec.ofNat 64 o) =
      fileByte mem elf (segmentAt mem elf j) o
  areas : ∀ j, IsSegment mem elf j → segmentVma (segmentAt mem elf j) ∈ loaded.system.vmas table
  gotoaddr : loaded.gotoaddr = eEntry mem elf

/-- An executable: the part of a segment in the file is no longer than the segment, and the segments
lie apart in the lower half. -/
structure Executable (mem : Files.Memory) (elf : Word) : Prop where
  filesz : ∀ j, IsSegment mem elf j →
    (segmentAt mem elf j).pFilesz.toNat ≤ (segmentAt mem elf j).pMemsz.toNat
  lower : ∀ j, IsSegment mem elf j →
    (segmentAt mem elf j).pVaddr.toNat + (segmentAt mem elf j).pMemsz.toNat ≤ 2 ^ 47
  apart : ∀ i j, IsSegment mem elf i → IsSegment mem elf j → i ≠ j →
    (segmentAt mem elf i).pVaddr.toNat + (segmentAt mem elf i).pMemsz.toNat ≤
        (segmentAt mem elf j).pVaddr.toNat ∨
      (segmentAt mem elf j).pVaddr.toNat + (segmentAt mem elf j).pMemsz.toNat ≤
        (segmentAt mem elf i).pVaddr.toNat

/-- The segment can be loaded, and lies in no more pages than `bump_physical` hands out for it: all
its frames are its own. -/
structure OwnPages (elf phdr : Word) (seg : ProgramHeader) : Prop
    extends Loadable elf phdr seg where
  own : requestedPages seg.pVaddr seg.pMemsz.toNat ≤ Allocator.numOfPages seg.pMemsz

/-! ## One area -/

/-- At most one area is that of a segment. -/
def OneArea (vmas : List Vma) : Prop :=
  ∀ a ∈ vmas, ∀ b ∈ vmas, a.vmaType = .other → b.vmaType = .other → a = b

theorem mem_of_mem_growStack {vma : Vma} {vmas : List Vma} (htype : vma.vmaType = .other)
    (h : vma ∈ growStack vmas) : vma ∈ vmas := by
  induction vmas with
  | nil => exact h
  | cons first rest ih =>
      rw [growStack] at h
      split_ifs at h with hstack
      · rcases List.mem_cons.1 h with rfl | hrest
        · -- the area that grows is the stack
          have hother : first.vmaType = .other := htype
          rw [hother] at hstack
          cases hstack
        · exact List.mem_cons_of_mem first hrest
      · rcases List.mem_cons.1 h with rfl | hrest
        · exact List.mem_cons_self
        · exact List.mem_cons_of_mem first (ih hrest)

theorem OneArea.grow {vmas : List Vma} (h : OneArea vmas) : OneArea (growStack vmas) := by
  intro a ha b hb hatype hbtype
  exact h a (mem_of_mem_growStack hatype ha) b (mem_of_mem_growStack hbtype hb) hatype hbtype

/-- An area of another kind does not count. -/
theorem OneArea.concat {vmas : List Vma} {vma : Vma} (h : OneArea vmas)
    (htype : vma.vmaType ≠ .other) : OneArea (vmas ++ [vma]) := by
  have hold : ∀ a ∈ vmas ++ [vma], a.vmaType = .other → a ∈ vmas := by
    intro a ha hatype
    rcases List.mem_append.1 ha with ha | ha
    · exact ha
    · rw [List.mem_singleton.1 ha] at hatype
      exact absurd hatype htype
  intro a ha b hb hatype hbtype
  exact h a (hold a ha hatype) b (hold b hb hbtype) hatype hbtype

theorem oneArea_singleton (vma : Vma) : OneArea [vma] := by
  intro a ha b hb _ _
  rw [List.mem_singleton.1 ha, List.mem_singleton.1 hb]

/-- The process with this table runs, and has the area of one segment at most. -/
def Linked (table : OswpKernel.Frame) (s : System) : Prop :=
  s.machine.current = table ∧ OneArea (s.vmas table)

theorem touch_linked (h : touch a s = some s') (hlinked : Linked table s) : Linked table s' := by
  rcases hlinked with ⟨hcurrent, harea⟩
  refine ⟨(touch_keeps h).current.trans hcurrent, ?_⟩
  rcases touch_vmas h table with heq | heq
  · rw [heq]
    exact harea
  · rw [heq]
    exact harea.grow

theorem copyByte_linked (h : copyByte source dest n image = some image')
    (hlinked : Linked table image.system) : Linked table image'.system := by
  rcases Option.bind_eq_some_iff.1 h with ⟨s₁, hsource, h⟩
  rcases Option.bind_eq_some_iff.1 h with ⟨s₂, hdest, hret⟩
  cases hret
  exact touch_linked hdest (touch_linked hsource hlinked)

theorem kmemcpychar_linked (h : kmemcpychar source dest n image = some image')
    (hlinked : Linked table image.system) : Linked table image'.system :=
  Loop.forEach_invariant (I := fun image => Linked table image.system)
    (fun hI hbyte => copyByte_linked hbyte hI) h hlinked

theorem copyPages_linked (h : copyPages elf phdr fuel addr count image = some (count', image'))
    (hlinked : Linked table image.system) : Linked table image'.system := by
  induction fuel generalizing addr count image with
  | zero => cases h
  | succ fuel ih =>
      rw [copyPages] at h
      dsimp only at h
      by_cases hmore : addr < (readPhdr image.mem phdr).pVaddr + (readPhdr image.mem phdr).pMemsz
      · rw [if_pos hmore] at h
        rcases Option.bind_eq_some_iff.1 h with ⟨image₁, hpage, hrest⟩
        exact ih hrest (kmemcpychar_linked hpage hlinked)
      · rw [if_neg hmore] at h
        cases h
        exact hlinked

/-- However many segments are loaded, only the area of the first one is linked. -/
theorem loadSegments_linked (h : loadSegments elf fuel count phdr image = some image')
    (hlinked : Linked table image.system) : Linked table image'.system := by
  induction fuel generalizing count phdr image with
  | zero => cases h
  | succ fuel ih =>
      rw [loadSegments] at h
      dsimp only at h
      split_ifs at h
      · rcases Option.bind_eq_some_iff.1 h with ⟨machine, hmap, h⟩
        rcases Option.bind_eq_some_iff.1 h with ⟨⟨count', image₁⟩, hcopy, hrest⟩
        refine ih hrest ?_
        rcases hlinked with ⟨hcurrent, harea⟩
        have hmapped : Linked table ({ image.system with machine } : System) :=
          ⟨(mapSegment_keeps hmap).current.trans hcurrent, harea⟩
        rcases copyPages_linked hcopy hmapped with ⟨hcurrent₁, harea₁⟩
        dsimp only
        split_ifs
        · refine ⟨hcurrent₁, ?_⟩
          simp only [linkVmas, hcurrent, Function.update_self]
          exact oneArea_singleton _
        · exact ⟨hcurrent₁, harea₁⟩
      · exact ih h hlinked
      · cases h
        exact hlinked

theorem storeWord_linked (h : storeWord a w image = some image')
    (hlinked : Linked table image.system) : Linked table image'.system := by
  rw [storeWord] at h
  rcases Option.bind_eq_some_iff.1 h with ⟨s₁, hfirst, h⟩
  rcases Option.bind_eq_some_iff.1 h with ⟨s₂, hlast, hret⟩
  cases hret
  exact touch_linked hlast (touch_linked hfirst hlinked)

/-- An area of the kernel's making is linked behind the others. -/
theorem Linked.link (h : Linked table s) (machine : Machine) (vma : Vma)
    (hcurrent : machine.current = s.machine.current) (htype : vma.vmaType ≠ .other) :
    Linked table (linkVmas { s with machine } table (s.vmas table ++ [vma])) := by
  refine ⟨hcurrent.trans h.1, ?_⟩
  simp only [linkVmas, Function.update_self]
  exact h.2.concat htype

theorem loadAreas_linked (h : loadAreas completion entry image = some loaded)
    (hlinked : Linked table image.system) : OneArea (loaded.system.vmas table) := by
  have htable := hlinked.1
  subst htable
  rw [loadAreas] at h
  dsimp only at h
  split_ifs at h
  rcases Option.bind_eq_some_iff.1 h with ⟨⟨heap, m₁⟩, hheap, h⟩
  rcases Option.bind_eq_some_iff.1 h with ⟨image₁, hsize, h⟩
  rcases Option.bind_eq_some_iff.1 h with ⟨image₂, hnext, h⟩
  rcases Option.bind_eq_some_iff.1 h with ⟨⟨stack, m₂⟩, hstack, h⟩
  rcases Option.bind_eq_some_iff.1 h with ⟨image₃, htop, hret⟩
  cases hret
  rcases createheap_spec hheap with ⟨hheap', hkeeps₁, -⟩
  rcases createStack_spec hstack with ⟨hstack', hkeeps₂, -⟩
  have hmade : Linked image.system.machine.current ({ image.system with machine := m₁ } : System) :=
    ⟨hkeeps₁.current, hlinked.2⟩
  have hstored := storeWord_linked hnext (storeWord_linked hsize hmade)
  -- first the heap is linked, then the stack
  have hlinked₁ := hstored.link image₂.system.machine heap rfl
    (by rw [hheap']; exact VmaType.noConfusion)
  have hlinked₂ := hlinked₁.link m₂ stack hkeeps₂.current
    (by rw [hstack']; exact VmaType.noConfusion)
  exact (storeWord_linked htop hlinked₂).2

/-- A process has the area of one segment, whatever the file says. -/
theorem loadelf_oneArea (h : loadelf fuel completion elf s mem = some loaded) :
    OneArea (loaded.system.vmas s.machine.current) := by
  rw [loadelf] at h
  rcases Option.bind_eq_some_iff.1 h with ⟨machine, halloc, h⟩
  rcases Option.bind_eq_some_iff.1 h with ⟨image, hsegments, hareas⟩
  refine loadAreas_linked hareas (loadSegments_linked hsegments ⟨?_, ?_⟩)
  · exact (allocate_keeps halloc).current
  · simp only [System.setVmas, Function.update_self]
    exact fun a ha => absurd ha List.not_mem_nil

/-! ## The bytes -/

theorem storedWord_below (hx : addr.toNat < 2 ^ 47) (hfrom : USERBASE.toNat ≤ a.toNat)
    (hto : a.toNat + 8 ≤ 2 ^ 64) : storedWord mem a w addr = mem addr := by
  have hbase : USERBASE.toNat = 0xFFFFCCCC00000000 := rfl
  rw [storedWord, if_neg]
  rw [BitVec.toNat_sub]
  omega

/-- The words on the heap and on the stack lie above all segments. -/
theorem LoadedFrom.mem_below (h : LoadedFrom table seg completion entry mem loaded)
    (hx : addr.toNat < 2 ^ 47) : loaded.mem addr = mem addr := by
  rcases h.areas with ⟨heap, ⟨hfrom, hto⟩, -, hmem⟩
  have hnext : (heap + 8).toNat = heap.toNat + 8 := by
    rw [BitVec.toNat_add]
    exact Nat.mod_eq_of_lt (by change heap.toNat + 8 < 2 ^ 64; omega)
  rw [hmem, storedWord_below hx h.stack.1 (by have := h.stack.2; omega),
    storedWord_below hx hfrom (by omega), storedWord_below hx (by omega) (by omega)]

/-- Segments that lie apart do not have the same area. -/
theorem Executable.eq_of_area (h : Executable mem elf) (hi : IsSegment mem elf i)
    (hk : IsSegment mem elf k) (hpos : 0 < (segmentAt mem elf k).pMemsz.toNat)
    (harea : segmentVma (segmentAt mem elf i) = segmentVma (segmentAt mem elf k)) : i = k := by
  by_contra hne
  rcases Vma.mk.inj harea with ⟨hvaddr, hend, -⟩
  rw [hvaddr, BitVec.add_right_inj] at hend
  have hapart := h.apart i k hi hk hne
  rw [hvaddr, hend] at hapart
  omega

theorem FirstSegment.isSegment (h : FirstSegment mem elf k seg) : IsSegment mem elf k := by
  refine ⟨h.index, ?_⟩
  rw [segmentAt, h.header]
  exact h.load

/-- A file with one segment, its first three bytes. -/
def oneSegment : Files.Memory := fun a =>
  (fileHeader 1 ++ phdrBytes 0 0x400000).getD (a - sampleElf).toNat 0

theorem oneSegment_headers : (ePhnum oneSegment sampleElf).toNat = 1 ∧
    phdrAt oneSegment sampleElf 0 = sampleElf + 64 ∧
    segmentAt oneSegment sampleElf 0 = firstSegment := by
  decide +kernel

theorem oneSegment_isSegment (hj : IsSegment oneSegment sampleElf j) : j = 0 := by
  have hlt := hj.1
  rw [oneSegment_headers.1] at hlt
  omega

theorem oneSegment_executable : Executable oneSegment sampleElf where
  filesz := by
    rintro j hj
    rw [oneSegment_isSegment hj, oneSegment_headers.2.2]
    exact le_rfl
  lower := by
    rintro j hj
    rw [oneSegment_isSegment hj, oneSegment_headers.2.2]
    decide
  apart := by
    rintro i j hi hj hne
    exact absurd ((oneSegment_isSegment hi).trans (oneSegment_isSegment hj).symm) hne

theorem oneSegment_first : FirstSegment oneSegment sampleElf 0 firstSegment where
  index := by
    rw [oneSegment_headers.1]
    decide
  header := oneSegment_headers.2.2
  load := rfl
  before := fun j hj => absurd hj (Nat.not_lt_zero j)

theorem oneSegment_ownPages :
    OwnPages sampleElf (phdrAt oneSegment sampleElf 0) firstSegment where
  toLoadable := by
    rw [oneSegment_headers.2.1]
    exact firstSegment_loadable
  own := by decide

theorem twoSegments_segmentAt : segmentAt twoSegments sampleElf 0 = firstSegment ∧
    segmentAt twoSegments sampleElf 1 = secondSegment :=
  twoSegments_headers.2.2

theorem twoSegments_isSegment (hj : IsSegment twoSegments sampleElf j) : j = 0 ∨ j = 1 := by
  have hlt := hj.1
  rw [twoSegments_headers.1] at hlt
  omega

theorem twoSegments_executable : Executable twoSegments sampleElf where
  filesz := by
    rintro j hj
    rcases twoSegments_isSegment hj with rfl | rfl
    · rw [twoSegments_segmentAt.1]
      exact le_rfl
    · rw [twoSegments_segmentAt.2]
      exact le_rfl
  lower := by
    rintro j hj
    rcases twoSegments_isSegment hj with rfl | rfl
    · rw [twoSegments_segmentAt.1]
      decide
    · rw [twoSegments_segmentAt.2]
      decide
  apart := by
    rintro i j hi hj hne
    rcases twoSegments_isSegment hi with rfl | rfl <;>
      rcases twoSegments_isSegment hj with rfl | rfl
    · exact absurd rfl hne
    · rw [twoSegments_segmentAt.1, twoSegments_segmentAt.2]
      decide
    · rw [twoSegments_segmentAt.1, twoSegments_segmentAt.2]
      decide
    · exact absurd rfl hne

end Exec

end OswpKernel
