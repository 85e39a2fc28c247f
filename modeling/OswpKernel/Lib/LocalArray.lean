import OswpKernel.Lib.Bytes

/-!
# LocalArray — arrays of bytes with a size

An array knows how many bytes it has, and an access elsewhere is `none`.  `fill` writes a list of
bytes one after the other; `fill_isSome_iff` says when it stays inside, and `fill_eq` that what it
then leaves is one block (`Bytes.write`).  `string` reads up to the first NUL.  `Writes` is the
frame of a piece of code: the places it may change.
-/

structure LocalArray where
  size : ℕ
  byte : Bytes.Memory

namespace LocalArray

variable (a : LocalArray) {a' : LocalArray} {i p : ℕ} {c : UInt8} {xs : List UInt8}

def get (i : ℕ) : Option UInt8 := if i < a.size then some (a.byte i) else none

def put (i : ℕ) (c : UInt8) : Option LocalArray :=
  if i < a.size then some { a with byte := Bytes.store a.byte i c } else none

/-- The bytes are written at `i`, `i + 1`, ..., one after the other. -/
def fill : LocalArray → ℕ → List UInt8 → Option LocalArray
  | a, _, [] => some a
  | a, i, c :: cs => (a.put i c).bind fun a => fill a (i + 1) cs

def bytes : List UInt8 := (List.range a.size).map a.byte

/-- The characters from `i` on, up to the first NUL. -/
def string (i : ℕ) : Option (List UInt8) :=
  ((List.range (a.size - i)).find? fun n => a.byte (i + n) = 0).map fun n =>
    (List.range n).map fun k => a.byte (i + k)

variable {a}

theorem get_eq (h : i < a.size) : a.get i = some (a.byte i) := if_pos h

theorem put_eq (h : i < a.size) :
    a.put i c = some { a with byte := Bytes.store a.byte i c } := if_pos h

theorem get_eq_some_iff : a.get i = some c ↔ i < a.size ∧ a.byte i = c := by
  rw [get]
  split_ifs with h
  · rw [Option.some_inj, and_iff_right h]
  · exact iff_of_false id fun hboth => h hboth.1

theorem length_bytes : a.bytes.length = a.size := by
  rw [bytes, List.length_map, List.length_range]

/-- An array that starts with the bytes of another one, and the byte behind these. -/
theorem bytes_of_prefix (hlt : a'.size < a.size) (hsame : ∀ k < a'.size, a.byte k = a'.byte k) :
    ∃ rest, a.bytes = a'.bytes ++ a.byte a'.size :: rest := by
  have hsize : a.size = a'.size + 1 + (a.size - (a'.size + 1)) := (Nat.add_sub_cancel' hlt).symm
  have hfront : (List.range a'.size).map a.byte = a'.bytes :=
    List.map_congr_left fun k hk => hsame k (List.mem_range.1 hk)
  rw [bytes, hsize, List.range_add, List.map_append, List.range_succ, List.map_append, hfront,
    List.append_assoc]
  exact ⟨_, rfl⟩

theorem put_isSome_iff : (a.put i c).isSome ↔ i < a.size := by
  rw [put]
  split_ifs with h
  · exact iff_of_true rfl h
  · exact iff_of_false Bool.false_ne_true h

theorem put_some (h : a.put i c = some a') :
    i < a.size ∧ a' = { a with byte := Bytes.store a.byte i c } := by
  rw [put] at h
  split_ifs at h with hi
  exact ⟨hi, (Option.some_inj.1 h).symm⟩

theorem fill_singleton : a.fill i [c] = a.put i c := by
  rw [fill]
  cases a.put i c <;> rfl

theorem fill_append {ys : List UInt8} :
    a.fill i (xs ++ ys) = (a.fill i xs).bind fun a => a.fill (i + xs.length) ys := by
  induction xs generalizing a i with
  | nil => rfl
  | cons c cs ih =>
      rw [List.cons_append, fill, fill, List.length_cons]
      cases a.put i c with
      | none => rfl
      | some a₁ =>
          change fill a₁ (i + 1) (cs ++ ys) =
            (fill a₁ (i + 1) cs).bind fun a => a.fill (i + (cs.length + 1)) ys
          rw [ih, Nat.add_right_comm, Nat.add_assoc]

/-- What stays inside leaves one block. -/
theorem fill_eq (h : i + xs.length ≤ a.size) :
    a.fill i xs = some { a with byte := Bytes.write a.byte i xs } := by
  induction xs generalizing a i with
  | nil => rw [fill, Bytes.write_nil]
  | cons c cs ih =>
      rw [List.length_cons] at h
      rw [fill, put_eq (by omega), Option.bind_some, ih (by dsimp only; omega)]
      have hjoin : Bytes.write (Bytes.write a.byte i [c]) (i + [c].length) cs =
          Bytes.write a.byte i ([c] ++ cs) := Bytes.write_after
      exact congrArg (fun byte => some (LocalArray.mk a.size byte)) hjoin

theorem fill_isSome_iff : (a.fill i xs).isSome ↔ xs = [] ∨ i + xs.length ≤ a.size := by
  constructor
  · intro h
    induction xs generalizing a i with
    | nil => exact Or.inl rfl
    | cons c cs ih =>
        obtain ⟨a₂, hfill⟩ := Option.isSome_iff_exists.1 h
        obtain ⟨a₁, hput, hrest⟩ := Option.bind_eq_some_iff.1 hfill
        obtain ⟨hi, rfl⟩ := put_some hput
        refine Or.inr ?_
        rw [List.length_cons]
        rcases ih (Option.isSome_of_eq_some hrest) with rfl | hle
        · exact hi
        · dsimp only at hle
          omega
  · rintro (rfl | hle)
    · rfl
    · rw [fill_eq hle]
      rfl

/-! ### What follows an access

The rest of a function, as far as it depends on the array only by its size. -/

variable {β : Type*} {f : LocalArray → Option β} {P : Prop}

theorem put_bind_isSome_iff (h : ∀ b, b.size = a.size → ((f b).isSome ↔ P)) :
    ((a.put i c).bind f).isSome ↔ i < a.size ∧ P := by
  by_cases hi : i < a.size
  · rw [put_eq hi, Option.bind_some, and_iff_right hi]
    exact h _ rfl
  · rw [put, if_neg hi]
    exact iff_of_false Bool.false_ne_true fun hboth => hi hboth.1

theorem fill_bind_isSome_iff (hxs : xs ≠ []) (h : ∀ b, b.size = a.size → ((f b).isSome ↔ P)) :
    ((a.fill i xs).bind f).isSome ↔ i + xs.length ≤ a.size ∧ P := by
  by_cases hi : i + xs.length ≤ a.size
  · rw [fill_eq hi, Option.bind_some, and_iff_right hi]
    exact h _ rfl
  · have hnone : a.fill i xs = none := by
      rw [← Option.not_isSome_iff_eq_none, fill_isSome_iff, or_iff_right hxs]
      exact hi
    rw [hnone]
    exact iff_of_false Bool.false_ne_true fun hboth => hi hboth.1

/-! ### Strings -/

/-- A NUL further on ends the string. -/
theorem string_isSome (hi : i ≤ p) (hp : p < a.size) (hnul : a.byte p = 0) :
    (a.string i).isSome := by
  rw [string, Option.isSome_map, List.find?_isSome]
  refine ⟨p - i, List.mem_range.2 (by omega), ?_⟩
  rw [Nat.add_sub_cancel' hi]
  exact decide_eq_true hnul

/-- The string that is in the array. -/
theorem string_eq (h : Bytes.IsString a.byte i xs) (hroom : i + xs.length < a.size) :
    a.string i = some xs := by
  have hfind : (List.range (a.size - i)).find? (fun n => a.byte (i + n) = 0) =
      some xs.length := by
    rw [List.find?_range_eq_some]
    refine ⟨decide_eq_true h.terminator, List.mem_range.2 (by omega), fun n hn => ?_⟩
    simpa using h.char_ne_zero hn
  rw [string, hfind, Option.map_some]
  congr 1
  apply List.ext_getElem
  · simp
  · intro n hn hn'
    rw [List.getElem_map, List.getElem_range, h.char hn']

theorem string_some (h : a.string i = some xs) :
    Bytes.IsString a.byte i xs ∧ i + xs.length < a.size := by
  obtain ⟨n, hfind, hxs⟩ := Option.map_eq_some_iff.1 h
  obtain ⟨hzero, hmem, hbefore⟩ := List.find?_range_eq_some.1 hfind
  have hn : n < a.size - i := List.mem_range.1 hmem
  have hlength : xs.length = n := by rw [← hxs, List.length_map, List.length_range]
  have hchar : ∀ k (hk : k < xs.length), a.byte (i + k) = xs[k] := by
    intro k hk
    simp only [← hxs, List.getElem_map, List.getElem_range]
  refine ⟨⟨Bytes.holds_append.2 ⟨hchar, fun k hk => ?_⟩, fun c hc => ?_⟩, by omega⟩
  · have hk : k = 0 := Nat.lt_one_iff.1 hk
    subst hk
    rw [hlength]
    exact of_decide_eq_true hzero
  · obtain ⟨k, hk, rfl⟩ := List.mem_iff_getElem.1 hc
    rw [← hchar k hk]
    simpa using hbefore k (hlength ▸ hk)

/-- A string that is written with its NUL is read back. -/
theorem fill_string (hnul : (0 : UInt8) ∉ xs) (hroom : i + xs.length < a.size) :
    ∃ a', a.fill i (xs ++ [0]) = some a' ∧ a'.size = a.size ∧ a'.string i = some xs := by
  have hfits : i + (xs ++ [0]).length ≤ a.size := by
    rw [List.length_append, List.length_singleton]
    omega
  exact ⟨_, fill_eq hfits, rfl, string_eq (Bytes.isString_write hnul) hroom⟩

/-! ### Frames -/

/-- From `a` to `a'` nothing outside `lo`, ..., `hi - 1` has changed. -/
structure Writes (a a' : LocalArray) (lo hi : ℕ) : Prop where
  size : a'.size = a.size
  below : ∀ x, x < lo → a'.byte x = a.byte x
  above : ∀ x, hi ≤ x → a'.byte x = a.byte x

variable {b : LocalArray} {lo hi lo' hi' : ℕ}

theorem Writes.refl (a : LocalArray) (lo hi : ℕ) : Writes a a lo hi :=
  ⟨rfl, fun _ _ => rfl, fun _ _ => rfl⟩

theorem Writes.trans (h : Writes a a' lo hi) (h' : Writes a' b lo hi) : Writes a b lo hi where
  size := h'.size.trans h.size
  below x hx := (h'.below x hx).trans (h.below x hx)
  above x hx := (h'.above x hx).trans (h.above x hx)

theorem Writes.mono (h : Writes a a' lo hi) (hlo : lo' ≤ lo) (hhi : hi ≤ hi') :
    Writes a a' lo' hi' where
  size := h.size
  below x hx := h.below x (hx.trans_le hlo)
  above x hx := h.above x (hhi.trans hx)

theorem Writes.get_above (h : Writes a a' lo hi) (hle : hi ≤ i) : a'.get i = a.get i := by
  rw [get, get, h.size, h.above i hle]

theorem fill_writes (h : a.fill i xs = some a') : Writes a a' i (i + xs.length) := by
  rcases fill_isSome_iff.1 (Option.isSome_of_eq_some h) with rfl | hroom
  · rw [← Option.some_inj.1 h]
    exact Writes.refl a _ _
  · rw [fill_eq hroom] at h
    rw [← Option.some_inj.1 h]
    exact ⟨rfl, fun x hx => Bytes.write_below hx, fun x hx => Bytes.write_above hx⟩

theorem fill_holds (h : a.fill i xs = some a') : Bytes.Holds a'.byte i xs := by
  rcases fill_isSome_iff.1 (Option.isSome_of_eq_some h) with rfl | hroom
  · exact fun k hk => absurd hk (Nat.not_lt_zero k)
  · rw [fill_eq hroom] at h
    rw [← Option.some_inj.1 h]
    exact Bytes.holds_write

/-! ### Integers

`int` and `uint32_t`, four bytes with the lowest first. -/

def getInt (a : LocalArray) (i : ℕ) : Option (BitVec 32) :=
  if i + 4 ≤ a.size then
    some (BitVec.ofNat 32 (Bytes.ofBytes ((List.range 4).map fun k => a.byte (i + k))))
  else none

def putInt (a : LocalArray) (i : ℕ) (w : BitVec 32) : Option LocalArray :=
  a.fill i (Bytes.toBytes 4 w.toNat)

variable {w : BitVec 32}

theorem getInt_eq (h : Bytes.Holds a.byte i (Bytes.toBytes 4 w.toNat)) (hroom : i + 4 ≤ a.size) :
    a.getInt i = some w := by
  rw [getInt, if_pos hroom, h.ofBytes w.isLt, BitVec.ofNat_toNat, BitVec.setWidth_eq]

theorem putInt_eq (h : i + 4 ≤ a.size) :
    a.putInt i w = some { a with byte := Bytes.write a.byte i (Bytes.toBytes 4 w.toNat) } :=
  fill_eq (by rwa [Bytes.length_toBytes])

theorem getInt_room (h : a.getInt i = some w) : i + 4 ≤ a.size := by
  rw [getInt] at h
  split_ifs at h with hroom
  exact hroom

theorem Writes.getInt_above (h : Writes a a' lo hi) (hle : hi ≤ i) : a'.getInt i = a.getInt i := by
  have hbytes : ((List.range 4).map fun k => a'.byte (i + k)) =
      (List.range 4).map fun k => a.byte (i + k) :=
    List.map_congr_left fun k _ => h.above (i + k) (hle.trans (Nat.le_add_right i k))
  rw [getInt, getInt, h.size, hbytes]

theorem putInt_writes (h : a.putInt i w = some a') : Writes a a' i (i + 4) := by
  have hwrites := fill_writes h
  rwa [Bytes.length_toBytes] at hwrites

/-! ### Pointers

Eight bytes with the lowest first. -/

def getWord (a : LocalArray) (i : ℕ) : Option (BitVec 64) :=
  if i + 8 ≤ a.size then some (BitVec.ofNat 64 (Bytes.readWord a.byte i)) else none

def putWord (a : LocalArray) (i : ℕ) (p : BitVec 64) : Option LocalArray :=
  if i + 8 ≤ a.size then some { a with byte := Bytes.storeWord a.byte i p.toNat } else none

variable {ptr : BitVec 64} {j : ℕ}

theorem putWord_eq (h : i + 8 ≤ a.size) :
    a.putWord i ptr = some { a with byte := Bytes.storeWord a.byte i ptr.toNat } := if_pos h

theorem getWord_room (h : a.getWord i = some ptr) : i + 8 ≤ a.size := by
  rw [getWord] at h
  split_ifs at h with hroom
  exact hroom

/-- A pointer reads back as it was stored. -/
theorem getWord_stored (h : i + 8 ≤ a.size) :
    getWord { a with byte := Bytes.storeWord a.byte i ptr.toNat } i = some ptr := by
  have hheld : Bytes.Holds (Bytes.storeWord a.byte i ptr.toNat) i (Bytes.toBytes 8 ptr.toNat) :=
    Bytes.holds_write
  rw [getWord, if_pos h, hheld.readWord ptr.isLt, BitVec.ofNat_toNat, BitVec.setWidth_eq]

/-- A pointer is read from its eight bytes. -/
theorem getWord_congr (hsize : a'.size = a.size)
    (hsame : ∀ x, i ≤ x → x < i + 8 → a'.byte x = a.byte x) : a'.getWord i = a.getWord i := by
  rw [getWord, getWord, hsize, Bytes.readWord_congr hsame]

/-- A pointer elsewhere is not changed. -/
theorem getWord_apart (hapart : i + 8 ≤ j ∨ j + 8 ≤ i) :
    getWord { a with byte := Bytes.storeWord a.byte i ptr.toNat } j = a.getWord j := by
  refine getWord_congr rfl fun x hlow hhigh => ?_
  have hlength : (Bytes.toBytes 8 ptr.toNat).length = 8 := Bytes.length_toBytes 8 _
  dsimp only
  rw [Bytes.storeWord]
  rcases hapart with hleft | hright
  · exact Bytes.write_above (by omega)
  · exact Bytes.write_below (by omega)

end LocalArray
