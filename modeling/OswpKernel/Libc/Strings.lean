import OswpKernel.Lib.LocalArray

/-!
# Strings — the string functions of the programs (`libc/string.c`)

A string is in an array with a size, and an access elsewhere is `none`.  Each function comes with
what it does for an array whose string is known.
-/

namespace OswpKernel

namespace Libc

/-- The loop of `strlen`, with `room` places left to look at. -/
def strlenFrom (string : LocalArray) : Nat → Nat → Option Nat
  | 0, _ => none
  | room + 1, stringlen => do
      let c ← string.get stringlen
      if c ≠ 0 then strlenFrom string room (stringlen + 1) else return stringlen

def strlen (string : LocalArray) : Option Nat := strlenFrom string string.size 0

/-- The loop of `strcmp`. -/
def strcmpFrom (string1 string2 : LocalArray) : Nat → Nat → Option (BitVec 32)
  | 0, _ => none
  | room + 1, i => do
      let c ← string1.get i
      if c ≠ 0 then
        let d ← string2.get i
        if c ≠ d then return -1
        strcmpFrom string1 string2 room (i + 1)
      else return 0

/-- Strings of different lengths are told apart before the loop. -/
def strcmp (string1 string2 : LocalArray) : Option (BitVec 32) := do
  let length1 ← strlen string1
  let length2 ← strlen string2
  if length1 ≠ length2 then return -1
  strcmpFrom string1 string2 string1.size 0

/-- The loop of `strcpy`. -/
def strcpyFrom (String2 : LocalArray) : Nat → Nat → LocalArray → Option LocalArray
  | 0, _, _ => none
  | room + 1, i, String1 => do
      let c ← String2.get i
      if c ≠ 0 then
        let String1 ← String1.put i c
        strcpyFrom String2 room (i + 1) String1
      else String1.put i 0

def strcpy (String1 String2 : LocalArray) : Option LocalArray :=
  strcpyFrom String2 String2.size 0 String1

def umemset (s : LocalArray) (num : UInt8) (size : Nat) : Option LocalArray :=
  s.fill 0 (List.replicate size num)

/-- In front of an empty string `trim` writes before the array. -/
def trim (string1 : LocalArray) : Option LocalArray := do
  let length ← strlen string1
  if length = 0 then none
  else string1.put (length - 1) 0

/-- A string literal. -/
def literal (text : List UInt8) : LocalArray := ⟨text.length + 1, Bytes.write (fun _ => 0) 0 text⟩

/-- The string is at the start of the array, and its length is known to fit. -/
structure Contains (a : LocalArray) (text : List UInt8) : Prop where
  string : Bytes.IsString a.byte 0 text
  room : text.length < a.size

variable {a b : LocalArray} {xs ys : List UInt8} {i room : Nat}

theorem contains_iff : Contains a xs ↔ a.string 0 = some xs := by
  constructor
  · rintro ⟨hstring, hroom⟩
    exact LocalArray.string_eq hstring (by rwa [Nat.zero_add])
  · intro h
    obtain ⟨hstring, hroom⟩ := LocalArray.string_some h
    exact ⟨hstring, by rwa [Nat.zero_add] at hroom⟩

theorem Contains.get (h : Contains a xs) (hi : i < xs.length) : a.get i = some xs[i] := by
  have hchar := h.string.char hi
  rw [Nat.zero_add] at hchar
  rw [LocalArray.get_eq (hi.trans h.room), hchar]

theorem Contains.get_end (h : Contains a xs) : a.get xs.length = some 0 := by
  have hend := h.string.terminator
  rw [Nat.zero_add] at hend
  rw [LocalArray.get_eq h.room, hend]

theorem Contains.ne_zero (h : Contains a xs) (hi : i < xs.length) : xs[i] ≠ 0 :=
  h.string.nonzero _ (List.getElem_mem hi)

theorem Contains.unique (h : Contains a xs) (h' : Contains a ys) : xs = ys :=
  Option.some_inj.1 ((contains_iff.1 h).symm.trans (contains_iff.1 h'))

theorem contains_literal (xs : List UInt8) (hnul : (0 : UInt8) ∉ xs) :
    Contains (literal xs) xs := by
  have htext : Bytes.Holds (Bytes.write (fun _ => 0) 0 xs) 0 xs := Bytes.holds_write
  have hend : Bytes.write (fun _ => 0) 0 xs (0 + xs.length) = 0 := Bytes.write_above le_rfl
  refine ⟨⟨Bytes.holds_append.2 ⟨htext, fun k hk => ?_⟩, fun c hc hzero => ?_⟩,
    Nat.lt_succ_self _⟩
  · obtain rfl : k = 0 := Nat.lt_one_iff.1 hk
    exact hend
  · exact hnul (hzero ▸ hc)

theorem strlenFrom_eq (h : Contains a xs) (hroom : xs.length < i + room) (hi : i ≤ xs.length) :
    strlenFrom a room i = some xs.length := by
  induction room generalizing i with
  | zero => omega
  | succ room ih =>
      rw [strlenFrom]
      rcases Nat.lt_or_eq_of_le hi with hlt | rfl
      · rw [h.get hlt, Option.bind_eq_bind, Option.bind_some, if_pos (h.ne_zero hlt)]
        exact ih (by omega) hlt
      · rw [h.get_end]
        rfl

theorem strlen_eq (h : Contains a xs) : strlen a = some xs.length :=
  strlenFrom_eq h (by have hroom := h.room; omega) (Nat.zero_le _)

/-- From `i` on the loop compares what is left. -/
theorem strcmpFrom_eq (h : Contains a xs) (h' : Contains b ys) (hlength : xs.length = ys.length)
    (hroom : xs.length < i + room) (hi : i ≤ xs.length) :
    strcmpFrom a b room i = some (if xs.drop i = ys.drop i then 0 else -1) := by
  induction room generalizing i with
  | zero => omega
  | succ room ih =>
      rw [strcmpFrom]
      rcases Nat.lt_or_eq_of_le hi with hlt | rfl
      · have hlt' : i < ys.length := hlength ▸ hlt
        rw [h.get hlt, Option.bind_eq_bind, Option.bind_some, if_pos (h.ne_zero hlt), h'.get hlt',
          Option.bind_some, List.drop_eq_getElem_cons hlt, List.drop_eq_getElem_cons hlt']
        simp only [List.cons.injEq]
        by_cases heq : xs[i] = ys[i]
        · rw [if_neg (not_not.2 heq), ih (by omega) hlt]
          simp only [heq, true_and]
        · rw [if_pos heq, if_neg fun hboth => heq hboth.1]
          rfl
      · rw [h.get_end, Option.bind_eq_bind, Option.bind_some, if_neg (not_not.2 rfl),
          List.drop_length, hlength, List.drop_length]
        rfl

theorem strcmp_eq (h : Contains a xs) (h' : Contains b ys) :
    strcmp a b = some (if xs = ys then 0 else -1) := by
  rw [strcmp, strlen_eq h, Option.bind_eq_bind, Option.bind_some, strlen_eq h', Option.bind_some]
  by_cases hlength : xs.length = ys.length
  · have hroom := h.room
    rw [if_neg (not_not.2 hlength), strcmpFrom_eq h h' hlength (by omega) (Nat.zero_le _),
      List.drop_zero, List.drop_zero]
  · rw [if_pos hlength, if_neg fun heq => hlength (congrArg List.length heq)]
    rfl

theorem strcpyFrom_eq (h : Contains b xs) (hroom : xs.length < i + room) (hi : i ≤ xs.length)
    (a : LocalArray) : strcpyFrom b room i a = a.fill i (xs.drop i ++ [0]) := by
  induction room generalizing i a with
  | zero => omega
  | succ room ih =>
      rw [strcpyFrom]
      rcases Nat.lt_or_eq_of_le hi with hlt | rfl
      · rw [h.get hlt, Option.bind_eq_bind, Option.bind_some, if_pos (h.ne_zero hlt),
          List.drop_eq_getElem_cons hlt, List.cons_append, LocalArray.fill]
        exact congrArg _ (funext fun a => ih (by omega) hlt a)
      · rw [h.get_end, List.drop_length, List.nil_append, LocalArray.fill_singleton]
        rfl

/-- The copy is the string, in an array with room for it. -/
theorem strcpy_eq (h : Contains b xs) (hroom : xs.length < a.size) :
    ∃ a', strcpy a b = some a' ∧ a'.size = a.size ∧ Contains a' xs := by
  have hroom' := h.room
  have hnul : (0 : UInt8) ∉ xs := fun hmem => h.string.nonzero 0 hmem rfl
  obtain ⟨a', hfill, hsize, hstring⟩ :=
    LocalArray.fill_string (a := a) (i := 0) hnul (by rwa [Nat.zero_add])
  refine ⟨a', ?_, hsize, contains_iff.2 hstring⟩
  rw [strcpy, strcpyFrom_eq h (by omega) (Nat.zero_le _), List.drop_zero, hfill]

/-- `trim` takes the last character. -/
theorem trim_eq (h : Contains a xs) (hne : xs ≠ []) :
    ∃ a', trim a = some a' ∧ Contains a' xs.dropLast := by
  rcases List.eq_nil_or_concat xs with rfl | ⟨front, c, rfl⟩
  · exact absurd rfl hne
  rw [List.concat_eq_append] at h ⊢
  have hroom := h.room
  rw [List.length_append, List.length_singleton] at hroom
  have hput := LocalArray.put_eq (a := a) (i := front.length) (c := 0) (by omega)
  have htext : Bytes.Holds a.byte 0 front :=
    (Bytes.holds_append.1 (Bytes.holds_append.1 h.string.holds).1).1
  have hstore := htext.store 0
  rw [Nat.zero_add] at hstore
  rw [List.dropLast_concat]
  refine ⟨⟨a.size, Bytes.store a.byte front.length 0⟩, ?_,
    ⟨hstore, fun d hd => h.string.nonzero d (List.mem_append_left _ hd)⟩,
    Nat.lt_of_succ_lt hroom⟩
  rw [trim, strlen_eq h, Option.bind_eq_bind, Option.bind_some, if_neg (by simp),
    List.length_append, List.length_singleton, Nat.add_sub_cancel, hput]

end Libc

end OswpKernel
