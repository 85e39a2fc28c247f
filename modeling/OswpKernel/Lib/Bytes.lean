import Mathlib.Data.List.Basic
import Mathlib.Algebra.Order.Ring.Nat
import Mathlib.Tactic.Common

/-!
# Bytes — blocks, words and strings in a byte-addressed memory

A memory is a function from addresses to bytes.  `write` puts a block of bytes at an address,
`Holds` says that a block is there, and both respect concatenation, so that a layout is described
by one list of bytes.  Words are eight bytes with the lowest first, at any address; strings are
NUL-terminated.
-/

namespace Bytes

abbrev Memory := ℕ → UInt8

variable {m m' : Memory} {a b x : ℕ} {xs ys : List UInt8}

/-- The bytes `xs` put at `a`, `a + 1`, ... -/
def write (m : Memory) (a : ℕ) (xs : List UInt8) : Memory :=
  fun x => if a ≤ x then (xs[x - a]?).getD (m x) else m x

def store (m : Memory) (a : ℕ) (c : UInt8) : Memory := write m a [c]

/-- The bytes `xs` are at `a`, `a + 1`, ... -/
def Holds (m : Memory) (a : ℕ) (xs : List UInt8) : Prop :=
  ∀ i, (hi : i < xs.length) → m (a + i) = xs[i]

instance (m : Memory) (a : ℕ) (xs : List UInt8) : Decidable (Holds m a xs) :=
  inferInstanceAs (Decidable (∀ i, (hi : i < xs.length) → m (a + i) = xs[i]))

/-- The lowest `n` bytes of a number, the lowest first. -/
def toBytes : ℕ → ℕ → List UInt8
  | 0, _ => []
  | n + 1, w => UInt8.ofNat (w % 256) :: toBytes n (w / 256)

def ofBytes : List UInt8 → ℕ
  | [] => 0
  | c :: cs => c.toNat + 256 * ofBytes cs

/-- A word is eight bytes. -/
def storeWord (m : Memory) (a w : ℕ) : Memory := write m a (toBytes 8 w)

def readWord (m : Memory) (a : ℕ) : ℕ := ofBytes ((List.range 8).map fun i => m (a + i))

/-- The NUL-terminated string `s` is at `a`. -/
structure IsString (m : Memory) (a : ℕ) (s : List UInt8) : Prop where
  holds : Holds m a (s ++ [0])
  nonzero : ∀ c ∈ s, c ≠ 0

/-! ## Blocks -/

theorem write_below (h : x < a) : write m a xs x = m x := by
  rw [write, if_neg (Nat.not_le.2 h)]

theorem write_above (h : a + xs.length ≤ x) : write m a xs x = m x := by
  have hle : a ≤ x := le_trans (Nat.le_add_right a xs.length) h
  have hout : xs.length ≤ x - a := (Nat.le_sub_iff_add_le' hle).2 h
  rw [write, if_pos hle, List.getElem?_eq_none hout]
  rfl

theorem write_inside {i : ℕ} (hi : i < xs.length) : write m a xs (a + i) = xs[i] := by
  rw [write, if_pos (Nat.le_add_right a i), Nat.add_sub_cancel_left, List.getElem?_eq_getElem hi]
  rfl

@[simp] theorem write_nil : write m a [] = m := by
  funext x
  simp [write]

theorem holds_write : Holds (write m a xs) a xs := fun _ hi => write_inside hi

theorem isString_write (hnul : (0 : UInt8) ∉ xs) : IsString (write m a (xs ++ [0])) a xs :=
  ⟨holds_write, fun _ hc hzero => hnul (hzero ▸ hc)⟩

theorem store_eq_update (m : Memory) (a : ℕ) (c : UInt8) :
    store m a c = Function.update m a c := by
  funext x
  rcases lt_trichotomy x a with hlt | rfl | hgt
  · rw [store, write_below hlt, Function.update_of_ne (Nat.ne_of_lt hlt)]
  · have hstored : Holds (store m x c) x [c] := holds_write
    rw [Function.update_self]
    exact hstored 0 Nat.one_pos
  · rw [store, write_above hgt, Function.update_of_ne (Nat.ne_of_gt hgt)]

/-- Two writes side by side are one. -/
theorem write_write : write (write m (a + xs.length) ys) a xs = write m a (xs ++ ys) := by
  funext x
  by_cases hx : x < a
  · rw [write_below hx, write_below hx, write_below (lt_of_lt_of_le hx (Nat.le_add_right _ _))]
  · obtain ⟨i, rfl⟩ := Nat.exists_eq_add_of_le (Nat.le_of_not_lt hx)
    by_cases hi : i < xs.length
    · rw [write_inside hi, write_inside (by simp; omega), List.getElem_append_left hi]
    · obtain ⟨k, rfl⟩ := Nat.exists_eq_add_of_le (Nat.le_of_not_lt hi)
      rw [write_above (Nat.add_le_add_left (Nat.le_add_right _ _) a), ← Nat.add_assoc]
      by_cases hk : k < ys.length
      · rw [write_inside hk, Nat.add_assoc, write_inside (by simpa using hk),
          List.getElem_append_right (Nat.le_add_right _ _)]
        simp
      · rw [write_above (by omega), write_above (by simp; omega)]

/-- What is written at an address depends on the memory at that address only. -/
theorem write_congr (h : m x = m' x) : write m a xs x = write m' a xs x := by
  simp only [write, h]

/-- A write right above another one. -/
theorem write_after : write (write m a xs) (a + xs.length) ys = write m a (xs ++ ys) := by
  rw [← write_write]
  funext x
  by_cases hx : x < a + xs.length
  · rw [write_below hx]
    exact write_congr (write_below hx).symm
  · have hle : a + xs.length ≤ x := Nat.le_of_not_lt hx
    rw [write_above hle]
    exact write_congr (write_above hle)

/-- A write right below another one. -/
theorem write_under (h : b = a + xs.length) :
    write (write m b ys) a xs = write m a (xs ++ ys) := by
  rw [h, write_write]

/-- A block elsewhere is not touched. -/
theorem Holds.write (h : Holds m b ys) (hapart : a + xs.length ≤ b ∨ b + ys.length ≤ a) :
    Holds (write m a xs) b ys := by
  intro i hi
  rw [← h i hi]
  rcases hapart with hleft | hright
  · exact write_above (le_trans hleft (Nat.le_add_right b i))
  · exact write_below (lt_of_lt_of_le (Nat.add_lt_add_left hi b) hright)

theorem Holds.congr (h : Holds m a xs) (hsame : ∀ x, a ≤ x → x < a + xs.length → m' x = m x) :
    Holds m' a xs := by
  intro i hi
  rw [hsame (a + i) (Nat.le_add_right a i) (Nat.add_lt_add_left hi a), h i hi]

theorem holds_append : Holds m a (xs ++ ys) ↔ Holds m a xs ∧ Holds m (a + xs.length) ys := by
  constructor
  · intro h
    constructor
    · intro i hi
      rw [h i (by simp; omega), List.getElem_append_left hi]
    · intro i hi
      rw [Nat.add_assoc, h (xs.length + i) (by simpa using hi),
        List.getElem_append_right (Nat.le_add_right _ _)]
      simp
  · rintro ⟨hxs, hys⟩ i hi
    by_cases hlt : i < xs.length
    · rw [hxs i hlt, List.getElem_append_left hlt]
    · obtain ⟨k, rfl⟩ := Nat.exists_eq_add_of_le (Nat.le_of_not_lt hlt)
      have hk : k < ys.length := by simpa using hi
      rw [← Nat.add_assoc, hys k hk, List.getElem_append_right (Nat.le_add_right _ _)]
      simp

theorem Holds.take (h : Holds m a xs) (n : ℕ) : Holds m a (xs.take n) := by
  intro i hi
  rw [List.length_take] at hi
  rw [List.getElem_take]
  exact h i (lt_of_lt_of_le hi (Nat.min_le_right _ _))

/-- A byte behind the block makes it longer. -/
theorem Holds.store (h : Holds m a xs) (c : UInt8) :
    Holds (Bytes.store m (a + xs.length) c) a (xs ++ [c]) :=
  holds_append.2 ⟨h.write (Or.inr le_rfl), holds_write⟩

/-! ## Words -/

@[simp] theorem length_toBytes (n w : ℕ) : (toBytes n w).length = n := by
  induction n generalizing w with
  | zero => rfl
  | succ n ih => rw [toBytes, List.length_cons, ih]

theorem ofBytes_toBytes {n w : ℕ} (hw : w < 256 ^ n) : ofBytes (toBytes n w) = w := by
  induction n generalizing w with
  | zero =>
      have hzero : w = 0 := by simpa using hw
      rw [hzero, toBytes, ofBytes]
  | succ n ih =>
      have hrest : w / 256 < 256 ^ n := by
        apply Nat.div_lt_of_lt_mul
        rwa [← pow_succ']
      have hlow : (UInt8.ofNat (w % 256)).toNat = w % 256 := by
        rw [UInt8.toNat_ofNat']
        omega
      rw [toBytes, ofBytes, ih hrest, hlow]
      exact Nat.mod_add_div w 256

/-- A number reads back as it was stored. -/
theorem Holds.ofBytes {n w : ℕ} (h : Holds m a (toBytes n w)) (hw : w < 256 ^ n) :
    Bytes.ofBytes ((List.range n).map fun i => m (a + i)) = w := by
  have hbytes : ((List.range n).map fun i => m (a + i)) = toBytes n w := by
    apply List.ext_getElem
    · simp
    · intro i hi hi'
      rw [List.getElem_map, List.getElem_range, h i hi']
  rw [hbytes, ofBytes_toBytes hw]

theorem Holds.readWord {w : ℕ} (h : Holds m a (toBytes 8 w)) (hw : w < 2 ^ 64) :
    Bytes.readWord m a = w := h.ofBytes hw

theorem readWord_congr (hsame : ∀ x, a ≤ x → x < a + 8 → m' x = m x) :
    readWord m' a = readWord m a := by
  have hbytes : ((List.range 8).map fun i => m' (a + i)) =
      (List.range 8).map fun i => m (a + i) := by
    refine List.map_congr_left fun i hi => ?_
    have hlt : i < 8 := List.mem_range.1 hi
    exact hsame (a + i) (Nat.le_add_right a i) (Nat.add_lt_add_left hlt a)
  rw [readWord, readWord, hbytes]

/-! ## Strings -/

variable {s : List UInt8}

theorem IsString.congr (h : IsString m a s)
    (hsame : ∀ x, a ≤ x → x < a + s.length + 1 → m' x = m x) : IsString m' a s where
  holds := h.holds.congr fun x hx hx' => hsame x hx (by simpa [Nat.add_assoc] using hx')
  nonzero := h.nonzero

theorem IsString.char (h : IsString m a s) {i : ℕ} (hi : i < s.length) : m (a + i) = s[i] := by
  rw [h.holds i (by simp; omega), List.getElem_append_left hi]

theorem IsString.char_ne_zero (h : IsString m a s) {i : ℕ} (hi : i < s.length) :
    m (a + i) ≠ 0 := by
  rw [h.char hi]
  exact h.nonzero _ (List.getElem_mem hi)

theorem IsString.terminator (h : IsString m a s) : m (a + s.length) = 0 := by
  rw [h.holds s.length (by simp)]
  simp

end Bytes
