import OswpKernel.Lib.LocalArray
import OswpKernel.Files.Lookup

/-!
# Block — strings, and `find_file` in its block of bytes (`fs.c`, `klibc.c`)

The string functions and `find_file` byte by byte: an access outside a string or an array is
`none`, and the two-dimensional array of `find_file` is one block of 60 bytes, so that a component
that is too long for its row runs on into the next one.  `findFile_isSome_iff` says which paths
the block has room for, and `findFile_leads` that for these the search finds the node that the
components lead to.
-/

namespace OswpKernel

namespace Files

namespace Frame

/-! ## Strings -/

/-- `string[i]`; the NUL is the last character that belongs to the string. -/
def charAt (string : List UInt8) (i : Nat) : Option UInt8 := (string ++ [0])[i]?

def kstrlengthFrom (string : List UInt8) : Nat → Nat → Option Nat
  | 0, _ => none
  | fuel + 1, stringlen => do
      let c ← charAt string stringlen
      if c ≠ 0 then kstrlengthFrom string fuel (stringlen + 1) else return stringlen

def kstrlength (string : List UInt8) : Option Nat := kstrlengthFrom string (string.length + 1) 0

/-- `kstrcopy`, to the bytes from `start` on. -/
def kstrcopyFrom (string2 : List UInt8) (start : Nat) :
    Nat → Nat → LocalArray → Option LocalArray
  | 0, _, _ => none
  | fuel + 1, i, string1 => do
      let c ← charAt string2 i
      if c ≠ 0 then
        let string1 ← string1.put (start + i) c
        kstrcopyFrom string2 start fuel (i + 1) string1
      else string1.put (start + i) 0

def kstrcopy (string1 : LocalArray) (start : Nat) (string2 : List UInt8) : Option LocalArray :=
  kstrcopyFrom string2 start (string2.length + 1) 0 string1

/-- `n` characters from the `i`-th on, to the bytes from `k` on. -/
def copyChars (string : List UInt8) : Nat → Nat → Nat → LocalArray → Option LocalArray
  | 0, _, _, a => some a
  | n + 1, i, k, a => do
      let c ← charAt string i
      let a ← a.put k c
      copyChars string n (i + 1) (k + 1) a

def kstrcat (string1 string2 : List UInt8) (concatstr : LocalArray) : Option LocalArray := do
  let string1len ← kstrlength string1
  let string2len ← kstrlength string2
  let concatstr ← copyChars string1 string1len 0 0 concatstr
  let concatstr ← copyChars string2 string2len 0 string1len concatstr
  concatstr.put (string1len + string2len) 0

variable {string rest front : List UInt8} {a a' : LocalArray} {start i : Nat}

theorem charAt_eq (h : i < string.length) : charAt string i = some string[i] := by
  rw [charAt, List.getElem?_append_left h, List.getElem?_eq_getElem h]

theorem charAt_end (string : List UInt8) : charAt string string.length = some 0 :=
  List.getElem?_concat_length

theorem getElem_ne_zero (hnul : (0 : UInt8) ∉ string) (h : i < string.length) :
    string[i] ≠ 0 := fun hzero => hnul (hzero ▸ List.getElem_mem h)

theorem kstrlengthFrom_eq (hnul : (0 : UInt8) ∉ string) {fuel : Nat}
    (hfuel : string.length < i + fuel) (hi : i ≤ string.length) :
    kstrlengthFrom string fuel i = some string.length := by
  induction fuel generalizing i with
  | zero => omega
  | succ fuel ih =>
      rw [kstrlengthFrom]
      rcases Nat.lt_or_eq_of_le hi with hlt | rfl
      · rw [charAt_eq hlt, Option.bind_eq_bind, Option.bind_some,
          if_pos (getElem_ne_zero hnul hlt)]
        exact ih (by omega) hlt
      · rw [charAt_end]
        rfl

theorem kstrlength_eq (hnul : (0 : UInt8) ∉ string) : kstrlength string = some string.length :=
  kstrlengthFrom_eq hnul (by omega) (Nat.zero_le _)

/-- The loop writes the characters that are left, and the NUL. -/
theorem kstrcopyFrom_eq (hnul : (0 : UInt8) ∉ string) {fuel : Nat}
    (hfuel : string.length < i + fuel) (hi : i ≤ string.length) (a : LocalArray) :
    kstrcopyFrom string start fuel i a = a.fill (start + i) (string.drop i ++ [0]) := by
  induction fuel generalizing i a with
  | zero => omega
  | succ fuel ih =>
      rw [kstrcopyFrom]
      rcases Nat.lt_or_eq_of_le hi with hlt | rfl
      · rw [charAt_eq hlt, Option.bind_eq_bind, Option.bind_some,
          if_pos (getElem_ne_zero hnul hlt), List.drop_eq_getElem_cons hlt, List.cons_append,
          LocalArray.fill]
        exact congrArg _ (funext fun a => ih (by omega) hlt a)
      · rw [charAt_end, List.drop_length, List.nil_append, LocalArray.fill_singleton]
        rfl

theorem kstrcopy_eq (hnul : (0 : UInt8) ∉ string) (a : LocalArray) (start : Nat) :
    kstrcopy a start string = a.fill start (string ++ [0]) :=
  kstrcopyFrom_eq hnul (by omega) (Nat.zero_le _) a

theorem kstrcopy_isSome_iff (hnul : (0 : UInt8) ∉ string) :
    (kstrcopy a start string).isSome ↔ start + string.length < a.size := by
  rw [kstrcopy_eq hnul, LocalArray.fill_isSome_iff, List.length_append, List.length_singleton,
    or_iff_right (List.concat_ne_nil _ _), ← Nat.add_assoc]
  exact Nat.succ_le_iff

theorem copyChars_eq {n k : Nat} (hn : i + n = string.length) (a : LocalArray) :
    copyChars string n i k a = a.fill k (string.drop i) := by
  induction n generalizing i k a with
  | zero =>
      rw [copyChars, List.drop_eq_nil_of_le (by omega)]
      rfl
  | succ n ih =>
      have hlt : i < string.length := by omega
      rw [copyChars, charAt_eq hlt, Option.bind_eq_bind, Option.bind_some,
        List.drop_eq_getElem_cons hlt, LocalArray.fill]
      exact congrArg _ (funext fun a => ih (by omega) a)

theorem kstrcat_eq {string1 string2 : List UInt8} (hnul1 : (0 : UInt8) ∉ string1)
    (hnul2 : (0 : UInt8) ∉ string2) (a : LocalArray) :
    kstrcat string1 string2 a = a.fill 0 (string1 ++ string2 ++ [0]) := by
  rw [kstrcat, kstrlength_eq hnul1, kstrlength_eq hnul2, LocalArray.fill_append,
    LocalArray.fill_append, Option.bind_eq_bind, Option.bind_some, Option.bind_eq_bind,
    Option.bind_some, copyChars_eq (Nat.zero_add _), List.length_append, Nat.zero_add,
    List.drop_zero]
  cases a.fill 0 string1 with
  | none => rfl
  | some a₁ =>
      rw [Option.bind_some, Option.bind_some, copyChars_eq (Nat.zero_add _), List.drop_zero]
      cases a₁.fill string1.length string2 with
      | none => rfl
      | some a₂ => rw [Option.bind_some, Option.bind_some, Nat.zero_add, LocalArray.fill_singleton]

/-! ## `find_file` -/

/-- `char sub_name[6][10]` as 60 bytes, with the two indices, `j` after its `j++`. -/
structure SplitState where
  subName : LocalArray
  k : Nat
  j : Nat

/-- The body of the loop over the name; `last` is the test `i == len - 1`. -/
def SplitState.turn (s : SplitState) (c : UInt8) (last : Bool) : Option SplitState := do
  let subName ← s.subName.put (10 * s.k + s.j) c
  if c = slash then
    let subName ← subName.put (10 * s.k + (s.j + 1)) 0
    if last then return { s with subName := subName, j := s.j + 1 }
    else
      let subName ← subName.fill (10 * (s.k + 1)) (List.replicate 10 0)
      return { subName := subName, k := s.k + 1, j := 0 }
  else return { s with subName := subName, j := s.j + 1 }

/-- `for (i = 0, j = 0, k = 0; i < len; i++, j++)`, and the terminator behind it. -/
def splitFrom (fileName : List UInt8) : Nat → Nat → SplitState → Option SplitState
  | 0, _, s => do
      let subName ← s.subName.put (10 * s.k + (s.j + 1)) 0
      return { s with subName := subName }
  | n + 1, i, s => do
      let c ← charAt fileName i
      let s ← s.turn c (n = 0)
      splitFrom fileName n (i + 1) s

def findFile (h : Heap) (filefsRoot : Tnode) (subName : Bytes.Memory) (fileName : List UInt8) :
    Option (Option Tnode) := do
  let first ← charAt fileName 0
  if first = slash then
    let len ← kstrlength fileName
    let s ← splitFrom fileName len 0 ⟨⟨60, subName⟩, 0, 0⟩
    let names ← (List.range (s.k + 1)).mapM fun l => s.subName.string (10 * l)
    return findFileFromRoot h names filefsRoot
  else return none

/-- The 60 bytes have room for the components from row `k` on, the first of them behind `j`
characters: for a `/` and its NUL, and for the last component for one NUL more. -/
def FitsBlock : Nat → Nat → List (List UInt8) → Prop
  | _, _, [] => False
  | k, j, [c] => 10 * k + j + c.length + 1 < 60
  | k, j, c :: d :: rest =>
      k + 1 < 6 ∧ 10 * k + j + c.length < 60 ∧ FitsBlock (k + 1) 0 (d :: rest)

/-- The path is not absolute, or its components fit the block. -/
def FitsFind (path : List UInt8) : Prop :=
  path.head? = some slash → FitsBlock 0 0 (components path)

variable {s s' : SplitState} {cur cs path : List UInt8} {comps : List (List UInt8)} {c : UInt8}
  {k j : Nat} {last : Bool}

theorem fitsBlock_cons (hrest : comps ≠ []) :
    FitsBlock k j (cur :: comps) ↔
      k + 1 < 6 ∧ 10 * k + j + cur.length < 60 ∧ FitsBlock (k + 1) 0 comps := by
  cases comps with
  | nil => exact absurd rfl hrest
  | cons d rest => rfl

theorem fitsBlock_char :
    FitsBlock k j ((c :: cur) :: comps) ↔ FitsBlock k (j + 1) (cur :: comps) := by
  have hlength : 10 * k + j + (c :: cur).length = 10 * k + (j + 1) + cur.length := by
    rw [List.length_cons]
    omega
  cases comps with
  | nil => rw [FitsBlock, FitsBlock, hlength]
  | cons d rest => rw [FitsBlock, FitsBlock, hlength]

theorem FitsBlock.bound (h : FitsBlock k j (cur :: comps)) : 10 * k + j + cur.length < 60 := by
  cases comps with
  | nil => exact Nat.lt_of_succ_lt h
  | cons d rest => exact h.2.1

/-- Up to 6 components of at most 8 bytes each. -/
theorem fitsBlock_of_length (hne : comps ≠ []) (hcount : k + comps.length ≤ 6)
    (hlength : ∀ c ∈ comps, c.length ≤ 8) : FitsBlock k 0 comps := by
  induction comps generalizing k with
  | nil => exact absurd rfl hne
  | cons c comps ih =>
      rw [List.forall_mem_cons] at hlength
      rw [List.length_cons] at hcount
      cases comps with
      | nil =>
          rw [FitsBlock]
          omega
      | cons d rest =>
          rw [List.length_cons] at hcount
          refine ⟨by omega, by omega, ih (List.cons_ne_nil d rest) ?_ hlength.2⟩
          rw [List.length_cons]
          omega

theorem fitsBlock_short (h : ShortPath path) : FitsBlock 0 0 (components path) :=
  fitsBlock_of_length h.components_ne_nil (by rw [Nat.zero_add]; exact h.count) h.length

/-- What a turn needs, and where it leaves the indices for the rest. -/
theorem turn_bind_isSome_iff {β : Type} {f : SplitState → Option β} (Q : Nat → Nat → Prop)
    (hsize : s.subName.size = 60)
    (hf : ∀ s', s'.subName.size = 60 → ((f s').isSome ↔ Q s'.k s'.j)) :
    ((s.turn c last).bind f).isSome ↔ 10 * s.k + s.j < 60 ∧
      if c = slash then 10 * s.k + (s.j + 1) < 60 ∧
        if last then Q s.k (s.j + 1) else 10 * (s.k + 1) + 10 ≤ 60 ∧ Q (s.k + 1) 0
      else Q s.k (s.j + 1) := by
  rw [SplitState.turn, Option.bind_eq_bind, Option.bind_assoc, ← hsize]
  refine LocalArray.put_bind_isSome_iff fun a₁ ha₁ => ?_
  by_cases hc : c = slash
  · rw [if_pos hc, if_pos hc, Option.bind_assoc, ← ha₁]
    refine LocalArray.put_bind_isSome_iff fun a₂ ha₂ => ?_
    have ha₂' : a₂.size = 60 := (ha₂.trans ha₁).trans hsize
    cases last with
    | true => exact hf _ ha₂'
    | false =>
        rw [if_neg Bool.false_ne_true, if_neg Bool.false_ne_true, Option.bind_assoc, ← ha₂]
        have hlength : (List.replicate 10 (0 : UInt8)).length = 10 := List.length_replicate
        rw [← hlength]
        refine LocalArray.fill_bind_isSome_iff (by decide) fun a₃ ha₃ => ?_
        exact hf _ (ha₃.trans ha₂')
  · rw [if_neg hc, if_neg hc]
    exact hf _ (ha₁.trans hsize)

/-- The last turn: the character belongs to the last component, and the terminator comes one place
behind what the turn leaves. -/
theorem splitFrom_last_iff (hi : i + 1 = path.length) (s : SplitState)
    (hsize : s.subName.size = 60) :
    (splitFrom path 1 i s).isSome ↔ FitsBlock s.k s.j (components (path.drop i)) := by
  have hlt : i < path.length := by omega
  have hf : ∀ s' : SplitState, s'.subName.size = 60 →
      ((splitFrom path 0 (i + 1) s').isSome ↔ 10 * s'.k + (s'.j + 1) < 60) := by
    intro s' hs'
    rw [splitFrom, ← hs', ← LocalArray.put_isSome_iff (c := 0)]
    cases s'.subName.put (10 * s'.k + (s'.j + 1)) 0 <;> rfl
  rw [splitFrom, charAt_eq hlt, Option.bind_eq_bind, Option.bind_some, Option.bind_eq_bind,
    turn_bind_isSome_iff (fun k j => 10 * k + (j + 1) < 60) hsize hf,
    List.drop_eq_getElem_cons hlt, List.drop_eq_nil_of_le (by omega), components]
  by_cases hc : path[i] = slash
  · rw [if_pos hc, if_pos hc, if_pos (by simp), components, FitsBlock, List.length_singleton]
    omega
  · rw [if_neg hc, if_neg hc, components]
    dsimp only
    rw [FitsBlock, List.length_singleton]
    omega

/-- The loop stays inside the block just if the components fit. -/
theorem splitFrom_isSome_iff {n : Nat} (hn : i + (n + 1) = path.length) (s : SplitState)
    (hsize : s.subName.size = 60) :
    (splitFrom path (n + 1) i s).isSome ↔ FitsBlock s.k s.j (components (path.drop i)) := by
  induction n generalizing i s with
  | zero => exact splitFrom_last_iff hn s hsize
  | succ n ih =>
      have hi : i < path.length := by omega
      have hf : ∀ s' : SplitState, s'.subName.size = 60 →
          ((splitFrom path (n + 1) (i + 1) s').isSome ↔
            FitsBlock s'.k s'.j (components (path.drop (i + 1)))) :=
        fun s' hs' => ih (by omega) s' hs'
      have hne : components (path.drop (i + 1)) ≠ [] := by
        apply components_nonempty
        rw [Ne, List.drop_eq_nil_iff]
        omega
      rw [splitFrom, charAt_eq hi, Option.bind_eq_bind, Option.bind_some, Option.bind_eq_bind,
        turn_bind_isSome_iff (fun k j => FitsBlock k j (components (path.drop (i + 1)))) hsize hf,
        List.drop_eq_getElem_cons hi, components]
      by_cases hc : path[i] = slash
      · -- a component of its own, and the next row for the rest
        rw [if_pos hc, if_pos hc, if_neg (by simp), fitsBlock_cons hne, List.length_singleton]
        constructor
        · rintro ⟨-, hnul, hnext, hrest⟩
          exact ⟨by omega, by omega, hrest⟩
        · rintro ⟨hnext, hnul, hrest⟩
          exact ⟨by omega, by omega, by omega, hrest⟩
      · obtain ⟨piece, pieces, hpieces⟩ := List.exists_cons_of_ne_nil hne
        rw [if_neg hc, if_neg hc, hpieces]
        dsimp only
        rw [fitsBlock_char]
        refine and_iff_right_of_imp fun hfits => ?_
        have hbound := hfits.bound
        omega

/-- The last terminator is in the block, at or behind the start of the last row. -/
theorem splitFrom_terminated {n : Nat} (h : splitFrom path n i s = some s') :
    ∃ p, 10 * s'.k ≤ p ∧ p < s'.subName.size ∧ s'.subName.byte p = 0 := by
  induction n generalizing i s with
  | zero =>
      obtain ⟨a, hput, hs'⟩ := Option.bind_eq_some_iff.1 h
      obtain ⟨hlt, ha⟩ := LocalArray.put_some hput
      rw [← Option.some_inj.1 hs', ha]
      refine ⟨10 * s.k + (s.j + 1), Nat.le_add_right _ _, hlt, ?_⟩
      have hstored : Bytes.Holds (Bytes.write s.subName.byte (10 * s.k + (s.j + 1)) [0])
          (10 * s.k + (s.j + 1)) [0] := Bytes.holds_write
      exact hstored 0 Nat.one_pos
  | succ n ih =>
      obtain ⟨c, -, h⟩ := Option.bind_eq_some_iff.1 h
      obtain ⟨s₁, -, h⟩ := Option.bind_eq_some_iff.1 h
      exact ih h

/-! ### What the block holds -/

variable {piece name : List UInt8} {done names : List (List UInt8)} {m m' : Bytes.Memory}
  {l p : Nat}

/-- The block holds the components, each with its NUL as far as its row goes. -/
def HoldsCut (m : Bytes.Memory) (cs : List (List UInt8)) : Prop :=
  ∀ l piece, cs[l]? = some piece → Bytes.Holds m (10 * l) ((piece ++ [0]).take 10)

/-- What the block holds while a component is written: the components in front of it, its own
characters, and zeros behind these, except in the first row. -/
structure Filling (s : SplitState) (done : List (List UInt8)) (cur : List UInt8) : Prop where
  size : s.subName.size = 60
  k : s.k = done.length
  j : s.j = cur.length
  cut : HoldsCut s.subName.byte done
  chars : Bytes.Holds s.subName.byte (10 * done.length) cur
  zeroed : done ≠ [] → ∀ i, cur.length ≤ i → i < 10 → s.subName.byte (10 * done.length + i) = 0

/-- The whole path has been cut up. -/
structure Cut (s : SplitState) (cs : List (List UInt8)) : Prop where
  size : s.subName.size = 60
  k : s.k + 1 = cs.length
  holds : HoldsCut s.subName.byte cs

/-- A write behind the rows. -/
theorem HoldsCut.congr (h : HoldsCut m done) (hsame : ∀ x, x < 10 * done.length → m' x = m x) :
    HoldsCut m' done := by
  intro l piece hpiece
  have hl := (List.getElem?_eq_some_iff.1 hpiece).1
  refine (h l piece hpiece).congr fun x _ hx => hsame x ?_
  have hlength : ((piece ++ [0]).take 10).length ≤ 10 := List.length_take_le ..
  omega

theorem holdsCut_concat : HoldsCut m (done ++ [cur]) ↔
    HoldsCut m done ∧ Bytes.Holds m (10 * done.length) ((cur ++ [0]).take 10) := by
  constructor
  · intro h
    refine ⟨fun l piece hpiece => h l piece ?_, h _ cur List.getElem?_concat_length⟩
    rwa [List.getElem?_append_left (List.getElem?_eq_some_iff.1 hpiece).1]
  · rintro ⟨h, hcur⟩ l piece hpiece
    rcases Nat.lt_or_ge l done.length with hlt | hge
    · rw [List.getElem?_append_left hlt] at hpiece
      exact h l piece hpiece
    · have hl := (List.getElem?_eq_some_iff.1 hpiece).1
      rw [List.length_append, List.length_singleton] at hl
      obtain rfl : l = done.length := by omega
      rw [List.getElem?_concat_length, Option.some_inj] at hpiece
      rw [← hpiece]
      exact hcur

/-- A character behind the NUL of the last component. -/
theorem HoldsCut.store (h : HoldsCut m (done ++ [cur])) {x : Nat} (c : UInt8)
    (hx : 10 * done.length + (cur.length + 1) ≤ x) :
    HoldsCut (Bytes.store m x c) (done ++ [cur]) := by
  obtain ⟨hdone, hcur⟩ := holdsCut_concat.1 h
  refine holdsCut_concat.2 ⟨hdone.congr fun y hy => Bytes.write_below (by omega),
    hcur.write (Or.inr ?_)⟩
  have hlength : ((cur ++ [0]).take 10).length ≤ (cur ++ [0]).length := List.length_take_le' ..
  rw [List.length_append, List.length_singleton] at hlength
  omega

theorem Filling.put (h : Filling s done cur) (hput : s.subName.put (10 * s.k + s.j) c = some a) :
    a.size = 60 ∧ HoldsCut a.byte done ∧ Bytes.Holds a.byte (10 * done.length) (cur ++ [c]) ∧
      (done ≠ [] → ∀ i, cur.length + 1 ≤ i → i < 10 → a.byte (10 * done.length + i) = 0) := by
  obtain ⟨-, rfl⟩ := LocalArray.put_some hput
  rw [h.k, h.j]
  refine ⟨h.size, h.cut.congr fun x hx => Bytes.write_below (by omega), h.chars.store c,
    fun hne i hi hlt => ?_⟩
  rw [← h.zeroed hne i (by omega) hlt]
  exact Bytes.write_above (by rw [List.length_singleton]; omega)

theorem Filling.turn_char (h : Filling s done cur) (hc : c ≠ slash)
    (hturn : s.turn c last = some s') : Filling s' done (cur ++ [c]) := by
  obtain ⟨a, hput, hturn⟩ := Option.bind_eq_some_iff.1 hturn
  rw [if_neg hc] at hturn
  rw [← Option.some_inj.1 hturn]
  obtain ⟨hsize, hdone, hcur, hzeroed⟩ := h.put hput
  refine ⟨hsize, h.k, ?_, hdone, hcur, fun hne i hi hlt => hzeroed hne i ?_ hlt⟩
  · rw [List.length_append, List.length_singleton, ← h.j]
  · rwa [List.length_append, List.length_singleton] at hi

/-- The `/` and the NUL complete the component. -/
theorem Filling.put_slash {b : LocalArray} (h : Filling s done cur)
    (hput : s.subName.put (10 * s.k + s.j) slash = some a)
    (hnul : a.put (10 * s.k + (s.j + 1)) 0 = some b) :
    b.size = 60 ∧ HoldsCut b.byte (done ++ [cur ++ [slash]]) := by
  obtain ⟨hsize, hdone, hcur, -⟩ := h.put hput
  obtain ⟨-, rfl⟩ := LocalArray.put_some hnul
  rw [h.k, h.j]
  refine ⟨hsize, holdsCut_concat.2
    ⟨hdone.congr fun x hx => Bytes.write_below (by omega), Bytes.Holds.take ?_ 10⟩⟩
  have hstored := hcur.store 0
  rwa [List.length_append, List.length_singleton] at hstored

theorem Filling.turn_slash (h : Filling s done cur) (hturn : s.turn slash false = some s') :
    Filling s' (done ++ [cur ++ [slash]]) [] := by
  obtain ⟨a, hput, hturn⟩ := Option.bind_eq_some_iff.1 hturn
  rw [if_pos rfl] at hturn
  obtain ⟨b, hnul, hturn⟩ := Option.bind_eq_some_iff.1 hturn
  rw [if_neg Bool.false_ne_true] at hturn
  obtain ⟨d, hfill, hturn⟩ := Option.bind_eq_some_iff.1 hturn
  rw [← Option.some_inj.1 hturn]
  obtain ⟨hsize, hcut⟩ := h.put_slash hput hnul
  have hlength : (done ++ [cur ++ [slash]]).length = s.k + 1 := by
    rw [List.length_append, List.length_singleton, h.k]
  refine ⟨(LocalArray.fill_writes hfill).size.trans hsize, hlength.symm, rfl, ?_,
    fun i hi => absurd hi (Nat.not_lt_zero i), fun _ i _ hlt => ?_⟩
  · -- the next row begins where the rows so far end
    exact hcut.congr fun x hx => (LocalArray.fill_writes hfill).below x (hlength ▸ hx)
  · rw [hlength, LocalArray.fill_holds hfill i (by rwa [List.length_replicate]),
      List.getElem_replicate]

/-- The last turn completes the last component; the terminator comes one place behind that. -/
theorem Filling.split_last (h : Filling s done cur) (hi : i + 1 = path.length)
    (hcur : slash ∉ cur) (hstart : done ≠ [] ∨ (path.drop i).head? = some slash)
    (hsplit : splitFrom path 1 i s = some s') :
    Cut s' (done ++ components (cur ++ path.drop i)) := by
  have hlt : i < path.length := by omega
  obtain ⟨c, hc, hsplit⟩ := Option.bind_eq_some_iff.1 hsplit
  rw [charAt_eq hlt, Option.some_inj] at hc
  obtain ⟨s₁, hturn, hsplit⟩ := Option.bind_eq_some_iff.1 hsplit
  obtain ⟨b, hend, hsplit⟩ := Option.bind_eq_some_iff.1 hsplit
  obtain ⟨-, rfl⟩ := LocalArray.put_some hend
  rw [← Option.some_inj.1 hsplit]
  have hdrop : path.drop i = [c] := by
    rw [List.drop_eq_getElem_cons hlt, hc, List.drop_eq_nil_of_le (by omega)]
  rw [hdrop] at hstart ⊢
  have hone : ∀ cur' : List UInt8, (done ++ [cur']).length = s.k + 1 := by
    intro cur'
    rw [List.length_append, List.length_singleton, h.k]
  by_cases hslash : c = slash
  · subst hslash
    obtain ⟨a, hput, hturn⟩ := Option.bind_eq_some_iff.1 hturn
    rw [if_pos rfl] at hturn
    obtain ⟨b, hnul, hturn⟩ := Option.bind_eq_some_iff.1 hturn
    rw [decide_eq_true rfl, if_pos rfl] at hturn
    obtain ⟨hsize, hcut⟩ := h.put_slash hput hnul
    rw [← Option.some_inj.1 hturn, components_append hcur, components]
    refine ⟨hsize, (hone _).symm, hcut.store 0 ?_⟩
    dsimp only
    rw [List.length_append, List.length_singleton, h.k, h.j]
  · -- behind the characters the row is zero
    have hdone : done ≠ [] := hstart.resolve_right fun hhead => hslash (Option.some_inj.1 hhead)
    have hfilling := h.turn_char hslash hturn
    have hcomponents : components (cur ++ [c]) = [cur ++ [c]] := by
      rw [components_of_notMem, if_neg (List.concat_ne_nil _ _)]
      rw [List.mem_append, not_or, List.mem_singleton]
      exact ⟨hcur, Ne.symm hslash⟩
    have hcut : HoldsCut s₁.subName.byte (done ++ [cur ++ [c]]) := by
      refine holdsCut_concat.2 ⟨hfilling.cut, fun x hx => ?_⟩
      rw [List.length_take] at hx
      rw [List.getElem_take]
      rcases Nat.lt_or_ge x (cur ++ [c]).length with hlt | hge
      · rw [List.getElem_append_left hlt]
        exact hfilling.chars x hlt
      · rw [hfilling.zeroed hdone x hge (by omega), List.getElem_append_right hge,
          List.getElem_singleton]
    rw [hcomponents]
    refine ⟨hfilling.size, ?_, hcut.store 0 ?_⟩
    · rw [hone, h.k, hfilling.k]
    · rw [hfilling.k, hfilling.j]

/-- The loop, from inside a component on. -/
theorem Filling.split {n : Nat} (h : Filling s done cur) (hn : i + (n + 1) = path.length)
    (hcur : slash ∉ cur) (hstart : done ≠ [] ∨ (path.drop i).head? = some slash)
    (hsplit : splitFrom path (n + 1) i s = some s') :
    Cut s' (done ++ components (cur ++ path.drop i)) := by
  induction n generalizing i s done cur with
  | zero => exact h.split_last hn hcur hstart hsplit
  | succ n ih =>
      have hlt : i < path.length := by omega
      obtain ⟨c, hc, hsplit⟩ := Option.bind_eq_some_iff.1 hsplit
      rw [charAt_eq hlt, Option.some_inj] at hc
      obtain ⟨s₁, hturn, hrun⟩ := Option.bind_eq_some_iff.1 hsplit
      have hn' : i + 1 + (n + 1) = path.length := by omega
      rw [List.drop_eq_getElem_cons hlt, hc] at hstart ⊢
      by_cases hslash : c = slash
      · subst hslash
        have hfilling := h.turn_slash hturn
        have hrest := ih hfilling hn' List.not_mem_nil (Or.inl (List.concat_ne_nil _ _)) hrun
        rwa [List.nil_append, List.append_assoc, List.singleton_append,
          ← components_append hcur] at hrest
      · have hfilling := h.turn_char hslash hturn
        have hdone : done ≠ [] := hstart.resolve_right fun hhead =>
          hslash (Option.some_inj.1 hhead)
        have hcur' : slash ∉ cur ++ [c] := by
          rw [List.mem_append, not_or, List.mem_singleton]
          exact ⟨hcur, Ne.symm hslash⟩
        have hrest := ih hfilling hn' hcur' (Or.inl hdone) hrun
        rwa [List.append_assoc, List.singleton_append] at hrest

/-! ### The strings in the block -/

/-- A string read from the block where a component begins: the component, or, where its row has no
room for it, a string that is too long for the name of a node. -/
def ReadsAs (piece name : List UInt8) : Prop :=
  name = piece ∨ 9 < piece.length ∧ 9 < name.length

theorem HoldsCut.readsAs (h : HoldsCut a.byte comps) (hpiece : comps[l]? = some piece)
    (hnul : (0 : UInt8) ∉ piece) (hroom : 10 * l + 10 ≤ a.size)
    (hname : a.string (10 * l) = some name) : ReadsAs piece name := by
  have hholds := h l piece hpiece
  by_cases hlen : piece.length ≤ 9
  · have hlength : (piece ++ [0]).length ≤ 10 := by
      rw [List.length_append, List.length_singleton]
      omega
    rw [List.take_of_length_le hlength] at hholds
    have hstring := LocalArray.string_eq ⟨hholds, fun c hc hzero => hnul (hzero ▸ hc)⟩
      (by omega : 10 * l + piece.length < a.size)
    rw [hstring] at hname
    exact Or.inl (Option.some_inj.1 hname).symm
  · refine Or.inr ⟨by omega, ?_⟩
    by_contra hshort
    -- the ten bytes of the row are characters
    have hzero := (LocalArray.string_some hname).1.terminator
    have hin : name.length < ((piece ++ [0]).take 10).length := by
      rw [List.length_take, List.length_append, List.length_singleton]
      omega
    rw [hholds name.length hin, List.getElem_take, List.getElem_append_left (by omega)] at hzero
    exact hnul (hzero ▸ List.getElem_mem _)

theorem FitsBlock.length (h : FitsBlock k j comps) : k + comps.length ≤ 6 := by
  induction comps generalizing k j with
  | nil => cases h
  | cons c comps ih =>
      cases comps with
      | nil =>
          rw [FitsBlock] at h
          rw [List.length_singleton]
          omega
      | cons d rest =>
          have hrest := ih h.2.2
          simp only [List.length_cons] at hrest ⊢
          omega

/-- What `find_file` extracts from an absolute path, in its 60 bytes. -/
def findComponents (subName : Bytes.Memory) (path : List UInt8) :
    Option (List (List UInt8)) := do
  let len ← kstrlength path
  let s ← splitFrom path len 0 ⟨⟨60, subName⟩, 0, 0⟩
  (List.range (s.k + 1)).mapM fun l => s.subName.string (10 * l)

theorem findFile_eq (habs : path.head? = some slash) (h : Heap) (root : Tnode)
    (subName : Bytes.Memory) :
    findFile h root subName path =
      (findComponents subName path).map fun names => findFileFromRoot h names root := by
  cases path with
  | nil => cases habs
  | cons c cs =>
      have hfirst : charAt (c :: cs) 0 = some c := rfl
      rw [findFile, hfirst, Option.bind_eq_bind, Option.bind_some,
        if_pos (Option.some_inj.1 habs), findComponents, Option.map_eq_bind]
      simp only [Option.bind_eq_bind, Option.bind_assoc]
      rfl

theorem exists_mapM_of_forall₂ {α β γ : Type} {f : α → Option β} {R : γ → β → Prop}
    {xs : List α} {zs : List γ}
    (h : List.Forall₂ (fun x z => ∃ y, f x = some y ∧ R z y) xs zs) :
    ∃ ys, xs.mapM f = some ys ∧ List.Forall₂ R zs ys := by
  induction h with
  | nil => exact ⟨[], rfl, .nil⟩
  | cons hhead _ ih =>
      obtain ⟨y, hy, hR⟩ := hhead
      obtain ⟨ys, hys, hall⟩ := ih
      refine ⟨y :: ys, ?_, .cons hR hall⟩
      rw [List.mapM_cons, hy, hys]
      rfl

/-- With room in the block all components are read. -/
theorem findComponents_readsAs (habs : path.head? = some slash) (hnul : (0 : UInt8) ∉ path)
    (hfits : FitsBlock 0 0 (components path)) (subName : Bytes.Memory) :
    ∃ names, findComponents subName path = some names ∧
      List.Forall₂ ReadsAs (components path) names := by
  obtain ⟨n, hn⟩ : ∃ n, path.length = n + 1 := by
    cases path with
    | nil => cases habs
    | cons c cs => exact ⟨cs.length, rfl⟩
  have hlength : 0 + (n + 1) = path.length := (Nat.zero_add _).trans hn.symm
  have hstart : Filling ⟨⟨60, subName⟩, 0, 0⟩ [] [] :=
    ⟨rfl, rfl, rfl, nofun,
      fun i hi => absurd hi (Nat.not_lt_zero i), fun hne => absurd rfl hne⟩
  have hsome := (splitFrom_isSome_iff hlength ⟨⟨60, subName⟩, 0, 0⟩ rfl).2 hfits
  obtain ⟨s, hs⟩ := Option.isSome_iff_exists.1 hsome
  have hcut : Cut s (components path) :=
    hstart.split hlength List.not_mem_nil (Or.inr habs) hs
  have hcount := hfits.length
  obtain ⟨p, hle, hlt, hzero⟩ := splitFrom_terminated hs
  have hk := hcut.k
  have hsize := hcut.size
  rw [findComponents, kstrlength_eq hnul, Option.bind_eq_bind, Option.bind_some, hn, hs,
    Option.bind_eq_bind, Option.bind_some, hk]
  refine exists_mapM_of_forall₂ (forall₂_range fun l piece hpiece => ?_)
  have hl := (List.getElem?_eq_some_iff.1 hpiece).1
  -- every row is ended by the terminator behind the last one, if not before
  have hstring : (s.subName.string (10 * l)).isSome :=
    LocalArray.string_isSome (by omega) hlt hzero
  obtain ⟨name, hname⟩ := Option.isSome_iff_exists.1 hstring
  refine ⟨name, hname, hcut.holds.readsAs hpiece (fun hmem => hnul ?_) (by omega) hname⟩
  rw [← flatten_components path]
  exact List.mem_flatten.2 ⟨piece, List.mem_of_getElem? hpiece, hmem⟩

theorem findComponents_isSome_iff (habs : path.head? = some slash) (hnul : (0 : UInt8) ∉ path)
    (subName : Bytes.Memory) :
    (findComponents subName path).isSome ↔ FitsBlock 0 0 (components path) := by
  constructor
  · intro hsome
    obtain ⟨names, hnames⟩ := Option.isSome_iff_exists.1 hsome
    obtain ⟨len, hlen, hnames⟩ := Option.bind_eq_some_iff.1 hnames
    obtain ⟨s, hs, -⟩ := Option.bind_eq_some_iff.1 hnames
    rw [kstrlength_eq hnul, Option.some_inj] at hlen
    cases path with
    | nil => cases habs
    | cons c cs =>
        rw [← hlen] at hs
        exact (splitFrom_isSome_iff (Nat.zero_add _) _ rfl).1 (Option.isSome_of_eq_some hs)
  · intro hfits
    obtain ⟨names, hnames, -⟩ := findComponents_readsAs habs hnul hfits subName
    exact Option.isSome_of_eq_some hnames

theorem findFile_relative (habs : path.head? ≠ some slash) (h : Heap) (root : Tnode)
    (subName : Bytes.Memory) : findFile h root subName path = some none := by
  cases path with
  | nil => rfl
  | cons c cs =>
      have hfirst : charAt (c :: cs) 0 = some c := rfl
      rw [findFile, hfirst, Option.bind_eq_bind, Option.bind_some,
        if_neg fun hc => habs (congrArg some hc)]
      rfl

/-- `find_file` stays inside its array and the string just if the components fit. -/
theorem findFile_isSome_iff (hnul : (0 : UInt8) ∉ path) (h : Heap) (root : Tnode)
    (subName : Bytes.Memory) : (findFile h root subName path).isSome ↔ FitsFind path := by
  by_cases habs : path.head? = some slash
  · rw [findFile_eq habs, Option.isSome_map, findComponents_isSome_iff habs hnul, FitsFind,
      forall_prop_of_true habs]
  · refine iff_of_true ?_ fun h => absurd h habs
    rw [findFile_relative habs]
    rfl

/-- Without the room it does not come back. -/
theorem findFile_eq_none (hnul : (0 : UInt8) ∉ path) (hfits : ¬ FitsFind path) (h : Heap)
    (root : Tnode) (subName : Bytes.Memory) : findFile h root subName path = none := by
  rw [← Option.not_isSome_iff_eq_none, findFile_isSome_iff hnul]
  exact hfits

/-! ### The search -/

theorem ReadsAs.eq_of_short (h : ReadsAs piece name) (hlen : piece.length ≤ 9 ∨ name.length ≤ 9) :
    name = piece := by
  rcases h with heq | ⟨hpiece, hname⟩
  · exact heq
  · omega

/-- Names as they are read lead where the components lead: the wrong ones lead nowhere. -/
theorem leads_readsAs {heap : Heap} {t u : Tnode} (htree : FileTree heap t)
    (hnames : List.Forall₂ ReadsAs comps names) : Leads heap t comps u ↔ Leads heap t names u := by
  induction hnames generalizing t with
  | nil => exact Iff.rfl
  | cons hhead _ ih =>
      constructor
      · intro hleads
        cases hleads with
        | step hc hleads =>
            have hchild := htree.child hc
            rw [hhead.eq_of_short (Or.inl hchild.name_length)]
            exact .step hc ((ih hchild).1 hleads)
      · intro hleads
        cases hleads with
        | step hc hleads =>
            have hchild := htree.child hc
            rw [← hhead.eq_of_short (Or.inr hchild.name_length)]
            exact .step hc ((ih hchild).2 hleads)

/-- With room in the block, `find_file` finds what the components lead to. -/
theorem findFile_leads (habs : path.head? = some slash) (hnul : (0 : UInt8) ∉ path)
    (hfits : FitsFind path) {heap : Heap} {root : Tnode} (htree : FileTree heap root)
    (hroot : root.name = rootName) (subName : Bytes.Memory) :
    ∃ found, findFile heap root subName path = some found ∧
      ∀ u, found = some u ↔ Leads heap root (components path).tail u := by
  obtain ⟨names, hnames, hall⟩ := findComponents_readsAs habs hnul (hfits habs) subName
  rw [findFile_eq habs, hnames, Option.map_some]
  refine ⟨_, rfl, fun u => ?_⟩
  rw [components_absolute habs] at hall ⊢
  cases hall with
  | cons hhead htail =>
      rw [hhead.eq_of_short (Or.inl (by decide)), htree.findFileFromRoot_iff, List.tail_cons,
        leads_readsAs htree htail]
      exact and_iff_right hroot

end Frame

/-! ## Path lookup -/

/-- `find_file` returns the node that the components behind the root's own lead to, and NULL if
there is none. -/
theorem findFile_iff {h : Heap} {root : Tnode} {path : List UInt8} (htree : FileTree h root)
    (hroot : root.name = [slash]) (hpath : ShortPath path) (subName : Bytes.Memory) :
    ∃ found, Frame.findFile h root subName path = some found ∧
      ∀ u, found = some u ↔ Leads h root (components path).tail u :=
  Frame.findFile_leads hpath.absolute hpath.nul (fun _ => Frame.fitsBlock_short hpath) htree hroot
    subName

theorem sampleTree_findFile :
    Frame.findFile sampleTree ⟨[47], 0, 0⟩ (fun _ => 7) [47, 98, 47, 120] =
      some (some ⟨[120], 5, 2⟩) := by
  have hpath : ShortPath [47, 98, 47, 120] := ⟨rfl, by decide, by decide, by decide⟩
  obtain ⟨found, hfind, hiff⟩ := findFile_iff fileTree_sampleTree rfl hpath fun _ => 7
  rw [hfind, (hiff ⟨[120], 5, 2⟩).2]
  exact .step (c := ⟨[98, 47], 0, 1⟩) List.mem_cons_self
    (.step (c := ⟨[120], 5, 2⟩) List.mem_cons_self .here)

end Files

end OswpKernel
