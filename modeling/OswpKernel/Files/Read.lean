import OswpKernel.Files.Node

/-!
# Read — what `read_vfs` delivers of a file

`read_vfs` (`fs.c`) reads from the position that the inode of a descriptor keeps.  A request is cut
down to what is left when it is larger than the whole file, not when it is larger than what is left:
`reads_iff` says which sequences of requests are served correctly.  What is copied is given by the
addresses it is copied from.
-/

namespace OswpKernel

namespace Files

/-- What one call returns and the addresses it copied. -/
structure Served where
  returned : BitVec 32
  copied : List Word
  deriving DecidableEq

/-- `do_fread`: `kmemcpychar` copies byte after byte. -/
def doFread (size : BitVec 32) (position : Word) : List Word :=
  (List.range (size.signExtend 64).toNat).map fun i => position + BitVec.ofNat 64 i

/-- The request after `if (size > node->size) { size = (int) end - position; }`. -/
def cutDown (fileSize fileEnd position : Word) (size : BitVec 32) : BitVec 32 :=
  if fileSize < size.signExtend 64 then
    (((fileEnd.setWidth 32).signExtend 64) - position).setWidth 32
  else size

/-- `read_vfs`. -/
def readVfs (h : Heap) (node : Tnode) (size : BitVec 32) : Served × Heap :=
  let inode := h.inodes node.linkToInode
  if inode.read then
    let position := inode.startingPosition + inode.offset
    let fileEnd := inode.startingPosition + node.size
    if fileEnd ≤ position then ({ returned := -1, copied := [] }, h)
    else
      let retval := cutDown node.size fileEnd position size
      ({ returned := retval, copied := doFread retval position },
        h.setInode node.linkToInode { inode with offset := inode.offset + retval.signExtend 64 })
  else ({ returned := 0, copied := [] }, h)

/-- The calls of `read_vfs` with the sizes, one after the other. -/
def reads (h : Heap) (node : Tnode) : List (BitVec 32) → List Served
  | [] => []
  | size :: sizes => (readVfs h node size).1 :: reads (readVfs h node size).2 node sizes

/-! ## What is asked for -/

/-- A regular file of the tar file system as `load_tarfs` leaves it: its bytes are in memory. -/
structure RegularFile (h : Heap) (item : Tnode) : Prop where
  read : (h.inodes item.linkToInode).read = true
  offset : (h.inodes item.linkToInode).offset = 0
  inMemory : (h.inodes item.linkToInode).startingPosition.toNat + item.size.toNat < 2 ^ 64

/-- The addresses of the bytes of a file. -/
def fileBytes (h : Heap) (item : Tnode) : List Word :=
  (List.range item.size.toNat).map fun i =>
    (h.inodes item.linkToInode).startingPosition + BitVec.ofNat 64 i

/-- What calls return when `left` bytes are left: `min(size, bytes left)`, and -1 at the end. -/
def expected (left : Nat) : List (BitVec 32) → List (BitVec 32)
  | [] => []
  | size :: sizes =>
      (if left = 0 then -1 else BitVec.ofNat 32 (min size.toNat left)) ::
        expected (left - size.toNat) sizes

/-- The calls deliver the file that starts at `first`, in pieces. -/
structure Delivers (bytes : List Word) (sizes : List (BitVec 32)) (calls : List Served) :
    Prop where
  returned : calls.map Served.returned = expected bytes.length sizes
  counted : ∀ call ∈ calls, call.returned = -1 ∧ call.copied = [] ∨
    call.returned.toNat = call.copied.length
  delivered : calls.flatMap Served.copied <+: bytes
  inside : ∀ call ∈ calls, ∀ a ∈ call.copied, a ∈ bytes

/-- No request is for more than what is left, unless it is for more than the whole file. -/
def Fits (fileSize : Nat) : Nat → List (BitVec 32) → Prop
  | _, [] => True
  | left, size :: sizes =>
      (left = 0 ∨ size.toNat ≤ left ∨ fileSize < size.toNat) ∧
        Fits fileSize (left - size.toNat) sizes

instance decidableFits (fileSize left : Nat) (sizes : List (BitVec 32)) :
    Decidable (Fits fileSize left sizes) :=
  match sizes with
  | [] => inferInstanceAs (Decidable True)
  | size :: sizes =>
      have := decidableFits fileSize (left - size.toNat) sizes
      inferInstanceAs (Decidable ((_ ∨ _ ∨ _) ∧ _))

variable {h : Heap} {node item : Tnode} {start : Word} {size : BitVec 32}
  {sizes : List (BitVec 32)} {d left : Nat}

/-! ## One call -/

/-- The descriptor has delivered the first `d` bytes. -/
structure AtByte (h : Heap) (node : Tnode) (start : Word) (d : Nat) : Prop where
  read : (h.inodes node.linkToInode).read = true
  start : (h.inodes node.linkToInode).startingPosition = start
  offset : (h.inodes node.linkToInode).offset.toNat = d

/-- The addresses of `n` bytes from the byte `d` on. -/
def bytesFrom (start : Word) (d n : Nat) : List Word :=
  (List.range n).map fun i => start + BitVec.ofNat 64 (d + i)

theorem bytesFrom_add (start : Word) (d n n' : Nat) :
    bytesFrom start d (n + n') = bytesFrom start d n ++ bytesFrom start (d + n) n' := by
  simp [bytesFrom, List.range_add, Nat.add_assoc]

@[simp] theorem length_bytesFrom (start : Word) (d n : Nat) : (bytesFrom start d n).length = n := by
  simp [bytesFrom]

theorem signExtend_of_pos (hsize : 0 < size.toInt) : (size.signExtend 64).toNat = size.toNat := by
  have hmsb : size.msb = false := by
    rw [BitVec.msb_eq_toInt]
    exact decide_eq_false hsize.le.not_gt
  rw [BitVec.signExtend_eq_setWidth_of_msb_false hmsb, BitVec.toNat_setWidth]
  exact Nat.mod_eq_of_lt (size.isLt.trans (by decide))

theorem toNat_of_pos (hsize : 0 < size.toInt) : 0 < size.toNat ∧ size.toNat < 2 ^ 31 := by
  rw [BitVec.toInt_eq_toNat_cond] at hsize
  split_ifs at hsize with hlow
  · omega
  · have := size.isLt
    omega

/-- The truncation of the end of the file to `int` is lost in the difference. -/
theorem setWidth_sub_position (e p : Word) :
    ((((e.setWidth 32).signExtend 64) - p).setWidth 32) = (e - p).setWidth 32 := by
  have hlow : ((e.setWidth 32).signExtend 64).setWidth 32 = e.setWidth 32 := by
    apply BitVec.eq_of_getLsbD_eq
    intro i hi
    rw [BitVec.getLsbD_setWidth, BitVec.getLsbD_signExtend]
    simp [hi, hi.trans (by decide : 32 < 64)]
  rw [BitVec.sub_eq_add_neg, BitVec.sub_eq_add_neg, BitVec.setWidth_add _ _ (by decide),
    BitVec.setWidth_add _ _ (by decide), hlow]

theorem toNat_ofNat_of_lt {n : Nat} (hn : n < 2 ^ 31) :
    (BitVec.ofNat 32 n).toNat = n ∧ ((BitVec.ofNat 32 n).signExtend 64).toNat = n := by
  have hsame : (BitVec.ofNat 32 n).toNat = n := by
    rw [BitVec.toNat_ofNat]
    omega
  have hmsb : (BitVec.ofNat 32 n).msb = false := by
    rw [BitVec.msb_eq_decide, hsame]
    simpa using hn
  refine ⟨hsame, ?_⟩
  rw [BitVec.signExtend_eq_setWidth_of_msb_false hmsb, BitVec.toNat_setWidth, hsame]
  omega

/-- The request is cut to what is left only if it is larger than the file. -/
theorem cutDown_eq (fileSize fileEnd position : Word) (left : Nat) (hsize : 0 < size.toInt)
    (hleft : position.toNat + left = fileEnd.toNat) (hle : left ≤ fileSize.toNat) :
    ∃ n, n = (if fileSize.toNat < size.toNat then left else size.toNat) ∧ n < 2 ^ 31 ∧
      cutDown fileSize fileEnd position size = BitVec.ofNat 32 n := by
  have hext : (size.signExtend 64).toNat = size.toNat := signExtend_of_pos hsize
  have hlow : size.toNat < 2 ^ 31 := (toNat_of_pos hsize).2
  have hlarger : fileSize < size.signExtend 64 ↔ fileSize.toNat < size.toNat := by
    rw [BitVec.lt_def, hext]
  refine ⟨_, rfl, ?_⟩
  by_cases hlarge : fileSize.toNat < size.toNat
  · rw [cutDown, if_pos hlarge, if_pos (hlarger.2 hlarge)]
    have hdifference : (fileEnd - position).toNat = left := by
      rw [BitVec.toNat_sub_of_le (by rw [BitVec.le_def]; omega)]
      omega
    refine ⟨by omega, ?_⟩
    rw [setWidth_sub_position]
    apply BitVec.eq_of_toNat_eq
    rw [BitVec.toNat_setWidth, hdifference, BitVec.toNat_ofNat]
  · rw [cutDown, if_neg hlarge, if_neg fun h => hlarge (hlarger.1 h)]
    refine ⟨hlow, ?_⟩
    rw [BitVec.ofNat_toNat, BitVec.setWidth_eq]

theorem doFread_eq {n : Nat} (hn : n < 2 ^ 31) (start offset : Word) :
    doFread (BitVec.ofNat 32 n) (start + offset) = bytesFrom start offset.toNat n := by
  rw [doFread, bytesFrom, (toNat_ofNat_of_lt hn).2]
  refine List.map_congr_left fun i _ => ?_
  rw [BitVec.ofNat_add, BitVec.ofNat_toNat, BitVec.setWidth_eq, BitVec.add_assoc]

/-- What one call with a positive size does when the first `d` bytes are delivered. -/
theorem readVfs_eq (hat : AtByte h node start d) (hmemory : start.toNat + node.size.toNat < 2 ^ 64)
    (hleft : d + left = node.size.toNat) (hsize : 0 < size.toInt) :
    (left = 0 ∧ readVfs h node size = ({ returned := -1, copied := [] }, h)) ∨
    (0 < left ∧ ∃ n h', n = (if node.size.toNat < size.toNat then left else size.toNat) ∧
      n < 2 ^ 31 ∧ readVfs h node size =
        ({ returned := BitVec.ofNat 32 n, copied := bytesFrom start d n }, h') ∧
      (n ≤ left → AtByte h' node start (d + n))) := by
  rcases hat with ⟨hread, rfl, rfl⟩
  generalize hinode : h.inodes node.linkToInode = inode at *
  -- no address of the file wraps around
  have hposition : (inode.startingPosition + inode.offset).toNat =
      inode.startingPosition.toNat + inode.offset.toNat := by
    rw [BitVec.toNat_add, Nat.mod_eq_of_lt (by omega)]
  have hend : (inode.startingPosition + node.size).toNat =
      inode.startingPosition.toNat + node.size.toNat := by
    rw [BitVec.toNat_add, Nat.mod_eq_of_lt hmemory]
  have hover : inode.startingPosition + node.size ≤ inode.startingPosition + inode.offset ↔
      left = 0 := by
    rw [BitVec.le_def, hposition, hend]
    omega
  rcases Nat.eq_zero_or_pos left with hzero | hsome
  · refine .inl ⟨hzero, ?_⟩
    simp only [readVfs, hinode, hread, if_pos (hover.2 hzero), if_true]
  · have hrest : ¬ inode.startingPosition + node.size ≤ inode.startingPosition + inode.offset :=
      fun hle => absurd (hover.1 hle) hsome.ne'
    rcases cutDown_eq node.size (inode.startingPosition + node.size)
      (inode.startingPosition + inode.offset) left hsize (by omega) (by omega) with
      ⟨n, hn, hlow, hcut⟩
    refine .inr ⟨hsome, n, h.setInode node.linkToInode
      { inode with offset := inode.offset + (BitVec.ofNat 32 n).signExtend 64 }, hn, hlow, ?_, ?_⟩
    · simp only [readVfs, hinode, hread, if_neg hrest, if_true, hcut, doFread_eq hlow]
    · intro hn_le
      refine ⟨?_, ?_, ?_⟩
      · rw [Heap.setInode_self]
        exact hread
      · rw [Heap.setInode_self]
      · rw [Heap.setInode_self, BitVec.toNat_add, (toNat_ofNat_of_lt hlow).2]
        exact Nat.mod_eq_of_lt (by omega)

/-! ## Sequences of calls -/

/-- All sizes are positive as `int`. -/
def Positive (sizes : List (BitVec 32)) : Prop := ∀ size ∈ sizes, 0 < size.toInt

/-- Calls that return what they should were for no more than what was left. -/
theorem fits_of_returned (hat : AtByte h node start d)
    (hmemory : start.toNat + node.size.toNat < 2 ^ 64) (hleft : d + left = node.size.toNat)
    (hsizes : Positive sizes)
    (hreturned : (reads h node sizes).map Served.returned = expected left sizes) :
    Fits node.size.toNat left sizes := by
  induction sizes generalizing h d left with
  | nil => trivial
  | cons size sizes ih =>
      have hsize : 0 < size.toInt := hsizes size List.mem_cons_self
      have hrest : Positive sizes := fun s hs => hsizes s (List.mem_cons_of_mem _ hs)
      rw [reads, expected, List.map_cons, List.cons.injEq] at hreturned
      rcases readVfs_eq hat hmemory hleft hsize with
        ⟨rfl, hcall⟩ | ⟨hsome, n, h', hn, hlow, hcall, hat'⟩
      · rw [hcall, Nat.zero_sub] at hreturned
        exact ⟨.inl rfl, by rw [Nat.zero_sub]; exact ih hat hleft hrest hreturned.2⟩
      · rw [hcall, if_neg hsome.ne'] at hreturned
        have hvalue : n = min size.toNat left := by
          have hmin : min size.toNat left < 2 ^ 31 :=
            (Nat.min_le_left _ _).trans_lt (toNat_of_pos hsize).2
          calc n = (BitVec.ofNat 32 n).toNat := (toNat_ofNat_of_lt hlow).1.symm
            _ = (BitVec.ofNat 32 (min size.toNat left)).toNat := congrArg BitVec.toNat hreturned.1
            _ = min size.toNat left := (toNat_ofNat_of_lt hmin).1
        have hstep : left - n = left - size.toNat := by omega
        refine ⟨?_, ?_⟩
        · split_ifs at hn with hlarge
          · exact .inr (.inr hlarge)
          · exact .inr (.inl (by omega))
        · rw [← hstep] at hreturned ⊢
          exact ih (hat' (by omega)) (by omega) hrest hreturned.2

/-- Calls for no more than what is left deliver the rest of the file. -/
theorem delivers_of_fits (hat : AtByte h node start d)
    (hmemory : start.toNat + node.size.toNat < 2 ^ 64) (hleft : d + left = node.size.toNat)
    (hsizes : Positive sizes) (hfits : Fits node.size.toNat left sizes) :
    Delivers (bytesFrom start d left) sizes (reads h node sizes) := by
  induction sizes generalizing h d left with
  | nil => exact ⟨rfl, by simp [reads], List.nil_prefix, by simp [reads]⟩
  | cons size sizes ih =>
      have hsize : 0 < size.toInt := hsizes size List.mem_cons_self
      have hrest : Positive sizes := fun s hs => hsizes s (List.mem_cons_of_mem _ hs)
      rcases hfits with ⟨hfit, hfits⟩
      rcases readVfs_eq hat hmemory hleft hsize with
        ⟨rfl, hcall⟩ | ⟨hsome, n, h', hn, hlow, hcall, hat'⟩
      -- at the end of the file the call returns 0, and so does every later one
      · rw [Nat.zero_sub] at hfits
        rcases ih hat hleft hrest hfits with ⟨hreturned, hcounted, hdelivered, hinside⟩
        rw [reads, hcall]
        refine ⟨?_, ?_, ?_, ?_⟩
        · simpa [expected] using hreturned
        · rintro call (- | ⟨-, hmem⟩)
          · exact .inl ⟨rfl, rfl⟩
          · exact hcounted call hmem
        · simpa using hdelivered
        · rintro call (- | ⟨-, hmem⟩)
          · exact fun a ha => absurd ha List.not_mem_nil
          · exact hinside call hmem
      · have hvalue : n = min size.toNat left := by
          split_ifs at hn with hlarge <;> omega
        have hstep : left - size.toNat = left - n := by omega
        -- the bytes of this call come first, those of the later calls behind them
        have hsplit : bytesFrom start d left =
            bytesFrom start d n ++ bytesFrom start (d + n) (left - n) := by
          rw [← bytesFrom_add]
          congr 1
          omega
        rw [hstep] at hfits
        rcases ih (hat' (by omega)) (by omega) hrest hfits with
          ⟨hreturned, hcounted, hdelivered, hinside⟩
        rw [reads, hcall]
        refine ⟨?_, ?_, ?_, ?_⟩
        · simp only [length_bytesFrom] at hreturned ⊢
          rw [List.map_cons, expected, if_neg hsome.ne', hstep, hreturned, hvalue]
        · rintro call (- | ⟨-, hmem⟩)
          · exact .inr (by rw [length_bytesFrom, (toNat_ofNat_of_lt hlow).1])
          · exact hcounted call hmem
        · rw [List.flatMap_cons, hsplit]
          exact List.prefix_append_right_inj _ |>.2 hdelivered
        · rw [hsplit]
          rintro call (- | ⟨-, hmem⟩) a ha
          · exact List.mem_append_left _ ha
          · exact List.mem_append_right _ (hinside call hmem a ha)

/-- A descriptor opened on a regular file delivers the file if and only if every request fits. -/
theorem reads_iff (h : Heap) (page : InodeRef) (item : Tnode) (hfile : RegularFile h item)
    (sizes : List (BitVec 32)) (hsizes : Positive sizes) :
    Delivers (fileBytes h item) sizes
        (reads (h.copytnode page item).2 (h.copytnode page item).1 sizes) ↔
      Fits item.size.toNat item.size.toNat sizes := by
  have hat : AtByte (h.copytnode page item).2 (h.copytnode page item).1
      (h.inodes item.linkToInode).startingPosition 0 := by
    refine ⟨?_, ?_, ?_⟩
    · simpa [Heap.copytnode, Heap.setInode] using hfile.read
    · simp [Heap.copytnode, Heap.setInode]
    · simp [Heap.copytnode, Heap.setInode, hfile.offset]
  have hbytes : fileBytes h item =
      bytesFrom (h.inodes item.linkToInode).startingPosition 0 item.size.toNat := by
    simp [fileBytes, bytesFrom]
  have hleft : 0 + item.size.toNat = (h.copytnode page item).1.size.toNat := Nat.zero_add _
  constructor
  · intro hdelivers
    have hfits : Fits (h.copytnode page item).1.size.toNat item.size.toNat sizes := by
      refine fits_of_returned hat hfile.inMemory hleft hsizes ?_
      rw [hdelivers.returned, hbytes, length_bytesFrom]
    exact hfits
  · intro hfits
    rw [hbytes]
    exact delivers_of_fits hat hfile.inMemory hleft hsizes hfits

/-- A file of 150 bytes. -/
def shortFile : Heap × Tnode :=
  ({ inodes := fun _ => { flags := FS_FILE, startingPosition := 0xffffffff80210200#64, offset := 0
                          subDirectoryList := [], subFilesList := [], linkToProcess := 0
                          read := true }
     stale := fun _ => 0 },
    { name := [97], size := 150, linkToInode := 0 })

theorem reads_shortFile :
    Delivers (fileBytes shortFile.1 shortFile.2) [100, 200, 7]
      (reads (shortFile.1.copytnode 1 shortFile.2).2 (shortFile.1.copytnode 1 shortFile.2).1
        [100, 200, 7]) :=
  (reads_iff shortFile.1 1 shortFile.2 ⟨rfl, rfl, by decide⟩ [100, 200, 7]
    (by simp [Positive])).2 (by decide +kernel)

/-- The second of two requests for 100 bytes of it gets 100 bytes. -/
theorem not_reads_deliver :
    ¬ ∀ (h : Heap) (page : InodeRef) (item : Tnode), RegularFile h item → ∀ sizes, Positive sizes →
      Delivers (fileBytes h item) sizes
        (reads (h.copytnode page item).2 (h.copytnode page item).1 sizes) := by
  intro h
  have hreturned := (h shortFile.1 1 shortFile.2 ⟨rfl, rfl, by decide⟩ [100, 100]
    (by simp [Positive])).returned
  have hsecond : (reads (shortFile.1.copytnode 1 shortFile.2).2
      (shortFile.1.copytnode 1 shortFile.2).1 [100, 100]).map Served.returned = [100, 100] :=
      by decide +kernel
  have hexpected : expected (fileBytes shortFile.1 shortFile.2).length [100, 100] = [100, 50] := by
    decide +kernel
  rw [hsecond, hexpected] at hreturned
  exact absurd hreturned (by decide)

end Files

end OswpKernel
