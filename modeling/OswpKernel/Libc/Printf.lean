import OswpKernel.Terminal.Numbers
import OswpKernel.Lib.Bytes

/-!
# Printf — `printf` of the user library (`libc/stdio.c`)

`printf` collects its output in 256 bytes from `malloc` and hands them to `write`.  The loop over
the format moves on by the pointer `fmt` and by the index `length`, the output by `length2`; the
header of the loop counts `length2` once more behind the loops that store a string or a number.

`number_canonical_iff` is about the text of the numbers, in `kprintf` and here, and
`printf_expands_iff` says for which calls the bytes that are written are the expansion of the
format.  `none` is an access outside the format, `rem` or the buffer.
-/

namespace OswpKernel

namespace Libc

open Keyboard (Arguments NumberConversion decimalRem hexRem fromLast)

/-- A character of a string in memory, its NUL included. -/
def charAt (s : List UInt8) (i : Nat) : Option UInt8 := (s ++ [0])[i]?

/-- The locals of `printf`; `fmt` is how far the pointer has moved.  `stored` lists what has been
stored where, no routine reads it. -/
structure Printf where
  fmt : Nat
  length : Nat
  length2 : Nat
  noofarg : Nat
  buffer : Bytes.Memory
  stored : List (Nat × UInt8)

namespace Printf

variable (p : Printf)

/-- `buffer[length2] = c`. -/
def store (c : UInt8) : Option Printf :=
  if p.length2 < 256 then
    some { p with
      buffer := Bytes.store p.buffer p.length2 c
      stored := p.stored ++ [(p.length2, c)] }
  else none

/-- `length2 += n`. -/
def advance (n : Nat) : Printf := { p with length2 := p.length2 + n }

/-- The loops over `value` and `rem`. -/
def putString : List UInt8 → Printf → Option Printf
  | [], p => some p
  | c :: cs, p => do
      let p ← p.store c
      putString cs (p.advance 1)

/-- A number, `0` apart. -/
def number (isZero : Bool) (rem : Option (List Int)) : Option Printf :=
  if isZero then p.store 48
  else do
    let rem ← rem
    p.putString (fromLast rem)

/-- The `switch` on the character behind `%`. -/
def conversion (args : Arguments) (c : UInt8) : Option Printf :=
  let arg := args.argument p.noofarg
  if c = 115 then p.putString (args.string arg)
  else if c = 99 then p.store (UInt8.ofNat arg.toNat)
  else if c = 100 then
    let intvalue := (arg.setWidth 32).toInt
    p.number (intvalue = 0) (decimalRem intvalue)
  else if c = 112 then do
    let p ← p.store 48
    let p ← (p.advance 1).store 120
    (p.advance 1).number (arg = 0) (hexRem arg)
  else if c = 120 then p.number (arg = 0) (hexRem arg)
  else some p

/-- The branch for a `%`, with the `fmt++` behind the `switch`. -/
def percent (args : Arguments) (c : UInt8) : Option Printf := do
  let p ← { p with noofarg := p.noofarg + 1 }.conversion args c
  return { p with fmt := p.fmt + 1 }

/-- The body of the loop, at the character `c` of the format. -/
def turn (args : Arguments) (fmt : List UInt8) (c : UInt8) : Option Printf :=
  if c = 37 then do
    let d ← charAt fmt (p.fmt + p.length + 1)
    p.percent args d
  else p.store c

/-- The increments in the header of the loop. -/
def next : Printf := { p with length2 := p.length2 + 1, length := p.length + 1 }

def loop (args : Arguments) (fmt : List UInt8) : Nat → Printf → Option Printf
  | 0, _ => none
  | fuel + 1, p => do
      let c ← charAt fmt (p.fmt + p.length)
      if c = 0 then return p
      else
        let p ← p.turn args fmt c
        loop args fmt fuel p.next

end Printf

/-- `printf`: the bytes it gives to `write`, if it calls it, and what it returns.  `buffer` is what
`malloc` returned. -/
def printf (args : Arguments) (fmt : List UInt8) (buffer : Bytes.Memory) :
    Option (Option (List UInt8) × Int) := do
  let p ← Printf.loop args fmt (fmt.length + 1) ⟨0, 0, 0, 1, buffer, []⟩
  if 0 < p.length then
    let p ← p.store 0
    return (some ((List.range p.length2).map p.buffer), p.length)
  else return (none, -1)

/-! ## Formats and what they stand for -/

inductive Piece
  | ordinary (c : UInt8)
  | string
  | character
  | number (c : NumberConversion)

namespace Piece

def format : Piece → List UInt8
  | ordinary c => [c]
  | string => [37, 115]
  | character => [37, 99]
  | number c => [37, c.letter]

/-- The number of the next argument behind the piece. -/
def next (k : Nat) : Piece → Nat
  | ordinary _ => k
  | _ => k + 1

/-- What the piece stands for when `k` is the number of the next argument. -/
def expand (args : Arguments) (k : Nat) : Piece → List UInt8
  | ordinary c => [c]
  | string => args.string (args.argument k)
  | character => [UInt8.ofNat (args.argument k).toNat]
  | number c => c.canonical (args.argument k)

end Piece

/-- The number that is formatted is 0. -/
def IsZero (arg : Word) : NumberConversion → Prop
  | .decimal => (arg.setWidth 32).toInt = 0
  | _ => arg = 0

instance (arg : Word) (c : NumberConversion) : Decidable (IsZero arg c) :=
  match c with
  | .decimal => inferInstanceAs (Decidable (_ = _))
  | .pointer => inferInstanceAs (Decidable (_ = _))
  | .hex => inferInstanceAs (Decidable (_ = _))

def Piece.IsExact (args : Arguments) (k : Nat) : Piece → Prop
  | .string => False
  | .number c => IsZero (args.argument k) c
  | _ => True

instance (args : Arguments) (k : Nat) (q : Piece) : Decidable (q.IsExact args k) :=
  match q with
  | .ordinary _ => isTrue trivial
  | .string => isFalse id
  | .character => isTrue trivial
  | .number _ => inferInstanceAs (Decidable (IsZero _ _))

def format (pieces : List Piece) : List UInt8 := pieces.flatMap Piece.format

/-- The ordinary characters, and the texts of the arguments from the `k`-th on. -/
def expand (args : Arguments) : Nat → List Piece → List UInt8
  | _, [] => []
  | k, q :: qs => q.expand args k ++ expand args (q.next k) qs

/-- No string is formatted, and no number but 0. -/
def IsExact (args : Arguments) : Nat → List Piece → Prop
  | _, [] => True
  | k, q :: qs => q.IsExact args k ∧ IsExact args (q.next k) qs

/-- The numbers of `%d` are not negative. -/
def Nonnegative (args : Arguments) : Nat → List Piece → Prop
  | _, [] => True
  | k, q :: qs =>
      (q = .number .decimal → 0 ≤ ((args.argument k).setWidth 32).toInt) ∧
        Nonnegative args (q.next k) qs

/-- A call with at most five arguments behind the format, whose expansion fits the buffer. -/
structure Fits (args : Arguments) (pieces : List Piece) : Prop where
  ordinary : ∀ c, Piece.ordinary c ∈ pieces → c ≠ 0 ∧ c ≠ 37
  arguments : pieces.foldl (fun k q => q.next k) 2 ≤ 7
  nonnegative : Nonnegative args 2 pieces
  room : (expand args 2 pieces).length < 256

variable {args : Arguments} {p p' : Printf} {c d : UInt8} {cs fmt front rest : List UInt8}
  {n : NumberConversion} {w : Word} {k fuel : Nat} {q : Piece} {pieces : List Piece}

/-! ## The stores -/

/-- The characters with their places from `a` on. -/
def placed : Nat → List UInt8 → List (Nat × UInt8)
  | _, [] => []
  | a, c :: cs => (a, c) :: placed (a + 1) cs

/-- The state after the characters have been stored from `length2` on. -/
def Printf.wrote (p : Printf) (cs : List UInt8) : Printf :=
  { p with
    buffer := Bytes.write p.buffer p.length2 cs
    stored := p.stored ++ placed p.length2 cs }

theorem store_eq (hroom : p.length2 < 256) : p.store c = some (p.wrote [c]) := if_pos hroom

theorem store_some (h : p.store c = some p') : p' = p.wrote [c] := by
  rw [Printf.store] at h
  split_ifs at h
  exact (Option.some_inj.1 h).symm

@[simp] theorem advance_advance (p : Printf) (m n : Nat) :
    (p.advance m).advance n = p.advance (m + n) := by
  simp [Printf.advance, Nat.add_assoc]

/-- Storing goes on where it has come to. -/
theorem wrote_wrote (p : Printf) (xs ys : List UInt8) :
    ((p.wrote xs).advance xs.length).wrote ys = (p.wrote (xs ++ ys)).advance xs.length := by
  have hplaced : ∀ a, placed a (xs ++ ys) = placed a xs ++ placed (a + xs.length) ys := by
    induction xs with
    | nil => simp [placed]
    | cons x xs ih =>
        intro a
        rw [List.cons_append, placed, ih, placed, List.cons_append, List.length_cons,
          Nat.add_right_comm, Nat.add_assoc]
  simp [Printf.wrote, Printf.advance, Bytes.write_after, hplaced]

theorem putString_some (h : p.putString cs = some p') : p' = (p.wrote cs).advance cs.length := by
  induction cs generalizing p with
  | nil =>
      rw [← Option.some_inj.1 h]
      simp [Printf.wrote, Printf.advance, placed]
  | cons c cs ih =>
      obtain ⟨p₁, hstore, hrest⟩ := Option.bind_eq_some_iff.1 h
      have hwrote := wrote_wrote p [c] cs
      rw [List.length_singleton] at hwrote
      rw [ih hrest, store_some hstore, hwrote, advance_advance, List.length_cons, Nat.add_comm]
      rfl

theorem putString_eq (hroom : p.length2 + cs.length ≤ 256) :
    p.putString cs = some ((p.wrote cs).advance cs.length) := by
  cases hput : p.putString cs with
  | some p' => rw [putString_some hput]
  | none =>
      exfalso
      induction cs generalizing p with
      | nil => cases hput
      | cons c cs ih =>
          rw [List.length_cons] at hroom
          rw [Printf.putString, store_eq (by omega)] at hput
          refine ih ?_ hput
          change p.length2 + 1 + cs.length ≤ 256
          omega

theorem putString_append (xs ys : List UInt8) :
    p.putString (xs ++ ys) = (p.putString xs).bind fun p => p.putString ys := by
  induction xs generalizing p with
  | nil => rfl
  | cons x xs ih =>
      rw [List.cons_append, Printf.putString, Printf.putString]
      cases p.store x with
      | none => rfl
      | some p₁ => exact ih

/-! ## Numbers -/

/-- A 0 is stored without an increment of `length2`. -/
def Printf.back (zero : Prop) [Decidable zero] (p : Printf) : Printf :=
  if zero then { p with length2 := p.length2 - 1 } else p

theorem store_eq_back (p : Printf) (c : UInt8) :
    p.store c = (p.putString [c]).map (Printf.back True) := by
  rw [Printf.putString]
  cases hstore : p.store c with
  | none => rfl
  | some p₁ => rfl

theorem number_eq {zero : Prop} [Decidable zero] {rem : Option (List Int)}
    (hrem : rem.map fromLast = some cs) :
    p.number (decide zero) rem =
      (p.putString (if zero then [48] else cs)).map (Printf.back zero) := by
  obtain ⟨rem, rfl, rfl⟩ := Option.map_eq_some_iff.1 hrem
  by_cases hzero : zero
  · have hback : Printf.back zero = Printf.back True := by
      funext p
      rw [Printf.back, Printf.back, if_pos hzero, if_pos trivial]
    rw [Printf.number, if_pos (decide_eq_true hzero), if_pos hzero, hback]
    exact store_eq_back p 48
  · have hback : Printf.back zero = id := funext fun p => if_neg hzero
    rw [Printf.number, if_neg (by simpa using hzero), if_neg hzero, hback, Option.map_id]
    rfl

/-- A conversion stores the text of its number. -/
theorem conversion_number (n : NumberConversion) (hargument : args.argument p.noofarg = w)
    (htext : n.text w = some cs) :
    p.conversion args n.letter = (p.putString cs).map (Printf.back (IsZero w n)) := by
  rw [NumberConversion.text_eq] at htext
  subst hargument
  have htext := Option.some_inj.1 htext
  cases n with
  | decimal =>
      rw [← htext]
      exact number_eq (Keyboard.decimalRem_eq _)
  | hex =>
      rw [← htext]
      exact number_eq (Keyboard.hexRem_eq _)
  | pointer =>
      -- `0x` is stored before the digits
      rw [← htext, putString_append, Option.map_bind]
      have hmarker : p.conversion args 112 = (p.putString [48, 120]).bind fun p' =>
          p'.number (args.argument p.noofarg = 0) (hexRem (args.argument p.noofarg)) := by
        change (p.store 48).bind _ = ((p.store 48).bind _).bind _
        cases p.store 48 with
        | none => rfl
        | some p₁ =>
            change ((p₁.advance 1).store 120).bind _ = (((p₁.advance 1).store 120).bind _).bind _
            cases (p₁.advance 1).store 120 <;> rfl
      change p.conversion args 112 = _
      rw [hmarker]
      exact congrArg _ (funext fun p' => number_eq (Keyboard.hexRem_eq _))

theorem percent_number (n : NumberConversion) (hargument : args.argument (p.noofarg + 1) = w)
    (htext : n.text w = some cs) :
    p.percent args n.letter = (({ p with noofarg := p.noofarg + 1 } : Printf).putString cs).map
      fun p' => { p'.back (IsZero w n) with fmt := (p'.back (IsZero w n)).fmt + 1 } := by
  have hconversion := conversion_number (p := { p with noofarg := p.noofarg + 1 }) n hargument htext
  rw [Printf.percent, hconversion]
  cases Printf.putString cs { p with noofarg := p.noofarg + 1 } <;> rfl

theorem placed_inj {a : Nat} {xs ys : List UInt8} (h : placed a xs = placed a ys) : xs = ys := by
  induction xs generalizing a ys with
  | nil =>
      cases ys with
      | nil => rfl
      | cons y ys => cases h
  | cons x xs ih =>
      cases ys with
      | nil => cases h
      | cons y ys =>
          obtain ⟨hhead, htail⟩ := List.cons_eq_cons.1 h
          obtain ⟨-, rfl⟩ := Prod.mk.inj hhead
          rw [ih htail]

/-- The conversion stores the usual text of its argument. -/
def PrintfEmits (args : Arguments) (p : Printf) (n : NumberConversion) : Prop :=
  (p.percent args n.letter).map Printf.stored =
    some (p.stored ++ placed p.length2 (n.canonical (args.argument (p.noofarg + 1))))

theorem stored_percent (n : NumberConversion)
    (htext : n.text (args.argument (p.noofarg + 1)) = some cs)
    (hroom : p.length2 + cs.length ≤ 256) :
    (p.percent args n.letter).map Printf.stored = some (p.stored ++ placed p.length2 cs) := by
  have hput := putString_eq (p := { p with noofarg := p.noofarg + 1 }) hroom
  rw [percent_number n rfl htext, hput, Option.map_some, Option.map_some, Printf.back]
  split_ifs <;> rfl

/-- For every number, at any place of a call: the digits fit `rem`, and `kprintf`, and `printf`
where the buffer has room for the text, put out the usual one just if it is no negative `int`. -/
theorem numbers_canonical_iff (args : Arguments) (k : Keyboard.Printing) (p : Printf)
    (n : NumberConversion)
    (hroom : p.length2 + (n.canonical (args.argument (p.noofarg + 1))).length ≤ 256) :
    (∀ w, (n.text w).isSome) ∧
    (Keyboard.KprintfEmits args k n ↔ n.NotNegative (args.argument (k.noofarg + 1))) ∧
    (PrintfEmits args p n ↔ n.NotNegative (args.argument (p.noofarg + 1))) := by
  refine ⟨fun w => ?_, Keyboard.kprintfEmits_iff args k n, ?_⟩
  · rw [NumberConversion.text_eq]
    rfl
  · constructor
    · intro hemits
      obtain ⟨cs, htext⟩ := Option.isSome_iff_exists.1
        (Option.isSome_of_eq_some (n.text_eq (args.argument (p.noofarg + 1))))
      rcases NumberConversion.length_text_cases htext with ⟨h, -⟩ | ⟨-, hshort⟩
      · exact h
      · rw [PrintfEmits, stored_percent n htext (by omega)] at hemits
        have hplaced := List.append_cancel_left (Option.some_inj.1 hemits)
        rw [← placed_inj hplaced] at hshort
        omega
    · exact fun h => stored_percent n (NumberConversion.text_eq_canonical h) hroom

/-- Arguments that are all the same number. -/
def sameArgument (w : Word) : Arguments := ⟨fun _ => w, fun _ => []⟩

/-- 255 is `ff`. -/
theorem numbers_canonical_ff :
    Keyboard.KprintfEmits (sameArgument 255) ⟨⟨fun _ => 0, 0, []⟩, 1, 2⟩ .hex ∧
      PrintfEmits (sameArgument 255) ⟨0, 0, 0, 1, fun _ => 0, []⟩ .hex ∧
      NumberConversion.canonical 255 .hex = [102, 102] := by
  have htext : NumberConversion.canonical 255 .hex = [102, 102] := by decide +kernel
  have hroom : 0 + (NumberConversion.canonical 255 .hex).length ≤ 256 := by
    rw [htext]
    decide
  obtain ⟨-, hkprintf, hprintf⟩ := numbers_canonical_iff (sameArgument 255)
    ⟨⟨fun _ => 0, 0, []⟩, 1, 2⟩ ⟨0, 0, 0, 1, fun _ => 0, []⟩ .hex hroom
  exact ⟨hkprintf.2 (by decide), hprintf.2 (by decide), htext⟩

/-- For -5 both put out a `+`. -/
theorem not_numbers_canonical :
    ¬ ∀ (args : Arguments) (k : Keyboard.Printing) (p : Printf) (n : NumberConversion),
      p.length2 + (n.canonical (args.argument (p.noofarg + 1))).length ≤ 256 →
        (∀ w, (n.text w).isSome) ∧ Keyboard.KprintfEmits args k n ∧ PrintfEmits args p n := by
  intro h
  have htext : NumberConversion.canonical (-5) .decimal = [45, 53] := by decide +kernel
  have hemits := h (sameArgument (-5)) ⟨⟨fun _ => 0, 0, []⟩, 1, 2⟩ ⟨0, 0, 0, 1, fun _ => 0, []⟩
    .decimal (by
      change 0 + (NumberConversion.canonical (-5) .decimal).length ≤ 256
      rw [htext]
      decide)
  exact absurd ((Keyboard.kprintfEmits_iff _ _ _).1 hemits.2.1) (by decide)

example : NumberConversion.text (-5) .decimal = some [43] := by decide +kernel

/-! ## One piece of the format -/

/-- How far the pointer `fmt` moves. -/
def Piece.moves : Piece → Nat
  | .ordinary _ => 0
  | _ => 1

/-- The turn of the loop at a piece. -/
def Piece.step (args : Arguments) (p : Printf) : Piece → Option Printf
  | .ordinary c => (p.store c).map Printf.next
  | .string => (p.percent args 115).map Printf.next
  | .character => (p.percent args 99).map Printf.next
  | .number n => (p.percent args n.letter).map Printf.next

/-- At a piece of the format the loop makes its turn and goes on behind it. -/
theorem loop_piece (hordinary : ∀ c, q = .ordinary c → c ≠ 0 ∧ c ≠ 37)
    (hfmt : fmt = front ++ (q.format ++ rest)) (hplace : p.fmt + p.length = front.length) :
    p.loop args fmt (fuel + 1) = (q.step args p).bind fun p' => p'.loop args fmt fuel := by
  have hfirst : ∀ c cs, q.format = c :: cs → charAt fmt (p.fmt + p.length) = some c := by
    intro c cs hformat
    rw [charAt, hfmt, hformat, hplace]
    simp
  have hsecond : ∀ d, q.format = [37, d] → charAt fmt (p.fmt + p.length + 1) = some d := by
    intro d hformat
    rw [charAt, hfmt, hformat, hplace]
    simp
  -- the three kinds of conversion differ in their letter only
  have hpercent : ∀ d, q.format = [37, d] →
      p.loop args fmt (fuel + 1) = ((p.percent args d).map Printf.next).bind fun p' =>
        p'.loop args fmt fuel := by
    intro d hformat
    rw [Printf.loop, hfirst 37 [d] hformat]
    change (p.turn args fmt 37).bind _ = _
    rw [Printf.turn, if_pos rfl, hsecond d hformat]
    change (p.percent args d).bind _ = _
    cases p.percent args d <;> rfl
  cases q with
  | ordinary c =>
      obtain ⟨hnul, hc⟩ := hordinary c rfl
      rw [Printf.loop, hfirst c [] rfl]
      change (if c = 0 then _ else _) = _
      rw [if_neg hnul, Printf.turn, if_neg hc]
      change (p.store c).bind _ = ((p.store c).map Printf.next).bind _
      cases p.store c <;> rfl
  | string => exact hpercent 115 rfl
  | character => exact hpercent 99 rfl
  | number n => exact hpercent n.letter rfl

/-- A piece stores what it stands for; the next place in the buffer is the one behind it, or one
further. -/
theorem step_eq (q : Piece) (hnonneg : q = .number .decimal →
    0 ≤ ((args.argument (p.noofarg + 1)).setWidth 32).toInt) :
    q.step args p = (({ p with noofarg := q.next p.noofarg } : Printf).putString
      (q.expand args (p.noofarg + 1))).map fun p' =>
        let p' := p'.back (q.IsExact args (p.noofarg + 1))
        { p' with fmt := p'.fmt + q.moves }.next := by
  -- the `switch` ends with `fmt++`
  have hbranch : ∀ x : Option Printf, (x.bind fun p => some { p with fmt := p.fmt + 1 }).map
      Printf.next = x.map fun p' => { p' with fmt := p'.fmt + 1 }.next := by
    rintro (_ | p') <;> rfl
  cases q with
  | ordinary c =>
      change (p.store c).map Printf.next = _
      rw [store_eq_back, Option.map_map]
      rfl
  | string => exact hbranch _
  | character =>
      refine (hbranch _).trans ?_
      change (Printf.store { p with noofarg := p.noofarg + 1 } _).map _ = _
      rw [store_eq_back, Option.map_map]
      rfl
  | number n =>
      change (p.percent args n.letter).map Printf.next = _
      have htext : n.NotNegative (args.argument (p.noofarg + 1)) := fun hn =>
        hnonneg (congrArg _ hn)
      rw [percent_number n rfl (NumberConversion.text_eq_canonical htext), Option.map_map]
      rfl

/-- What the turn at a piece does. -/
structure Stepped (args : Arguments) (p p' : Printf) (q : Piece) : Prop where
  place : p'.fmt + p'.length = p.fmt + p.length + q.format.length
  turns : p'.length = p.length + 1
  next : p'.noofarg = q.next p.noofarg
  buffer : p'.buffer = Bytes.write p.buffer p.length2 (q.expand args (p.noofarg + 1))
  length2 : p'.length2 = p.length2 + (q.expand args (p.noofarg + 1)).length +
    if q.IsExact args (p.noofarg + 1) then 0 else 1

/-- The number of the next argument, seen from the turn and from behind it. -/
theorem Stepped.noofarg (h : Stepped args p p' q) : p'.noofarg + 1 = q.next (p.noofarg + 1) := by
  rw [h.next]
  cases q <;> rfl

theorem Piece.expand_ne_nil (q : Piece) (h : q.IsExact args k) : q.expand args k ≠ [] := by
  have hnumeral : ∀ base n, Keyboard.numeral base n ≠ [] := by
    intro base n hnil
    exact Nat.toDigits_ne_nil (List.map_eq_nil_iff.1 hnil)
  cases q with
  | ordinary c => exact List.cons_ne_nil _ _
  | string => exact h.elim
  | character => exact List.cons_ne_nil _ _
  | number n =>
      cases n with
      | decimal =>
          rw [expand, NumberConversion.canonical, Keyboard.canonicalDecimal]
          split_ifs
          · exact List.cons_ne_nil _ _
          · exact hnumeral _ _
      | pointer => exact List.cons_ne_nil _ _
      | hex => exact hnumeral _ _

theorem step_some (q : Piece) (hnonneg : q = .number .decimal →
    0 ≤ ((args.argument (p.noofarg + 1)).setWidth 32).toInt) (h : q.step args p = some p') :
    Stepped args p p' q := by
  rw [step_eq q hnonneg] at h
  obtain ⟨p₁, hput, rfl⟩ := Option.map_eq_some_iff.1 h
  have hwrote := putString_some hput
  subst hwrote
  have hplace : q.format.length = q.moves + 1 := by cases q <;> rfl
  by_cases hexact : q.IsExact args (p.noofarg + 1)
  · have hpos := List.length_pos_iff.2 (q.expand_ne_nil hexact)
    refine ⟨?_, ?_, ?_, ?_, ?_⟩
    all_goals simp only [Printf.back, hexact, if_true, Printf.next, Printf.advance, Printf.wrote]
    all_goals omega
  · refine ⟨?_, ?_, ?_, ?_, ?_⟩
    all_goals simp only [Printf.back, hexact, if_false, Printf.next, Printf.advance, Printf.wrote]
    all_goals omega

theorem step_isSome (q : Piece) (hnonneg : q = .number .decimal →
    0 ≤ ((args.argument (p.noofarg + 1)).setWidth 32).toInt)
    (hroom : p.length2 + (q.expand args (p.noofarg + 1)).length ≤ 256) :
    (q.step args p).isSome := by
  have hput := putString_eq (p := { p with noofarg := q.next p.noofarg }) hroom
  rw [step_eq q hnonneg, hput]
  rfl

/-! ## The whole format -/

/-- The turns at the pieces, one after the other. -/
def steps (args : Arguments) : List Piece → Printf → Option Printf
  | [], p => some p
  | q :: qs, p => (q.step args p).bind (steps args qs)

/-- The loop over the format takes one turn for each piece. -/
theorem loop_steps (hordinary : ∀ c, Piece.ordinary c ∈ pieces → c ≠ 0 ∧ c ≠ 37)
    (hnonneg : Nonnegative args (p.noofarg + 1) pieces)
    (hfmt : fmt = front ++ format pieces) (hplace : p.fmt + p.length = front.length)
    (hfuel : pieces.length < fuel) : p.loop args fmt fuel = steps args pieces p := by
  induction pieces generalizing p front fuel with
  | nil =>
      obtain ⟨fuel, rfl⟩ := Nat.exists_eq_succ_of_ne_zero (Nat.ne_of_gt hfuel)
      have hend : charAt fmt (p.fmt + p.length) = some 0 := by
        rw [charAt, hfmt, hplace]
        simp [format]
      rw [Printf.loop, hend]
      rfl
  | cons q qs ih =>
      obtain ⟨fuel, rfl⟩ := Nat.exists_eq_succ_of_ne_zero
        (Nat.ne_of_gt (Nat.zero_lt_of_lt hfuel))
      rw [format, List.flatMap_cons] at hfmt
      rw [loop_piece (fun c hc => hordinary c (hc ▸ List.mem_cons_self)) hfmt hplace, steps]
      cases hstep : q.step args p with
      | none => rfl
      | some p₁ =>
          have hstepped := step_some q hnonneg.1 hstep
          -- the rest is read from behind the piece, with the arguments that it has left
          have hnumber := hstepped.noofarg
          have hrest : fmt = (front ++ q.format) ++ format qs := by
            rw [hfmt, List.append_assoc]
            rfl
          refine ih (fun c hc => hordinary c (List.mem_cons_of_mem _ hc)) (hnumber ▸ hnonneg.2)
            hrest ?_ (Nat.lt_of_succ_lt_succ hfuel)
          rw [hstepped.place, hplace, List.length_append]

/-- What the turns at the pieces do. -/
structure Ran (args : Arguments) (p p' : Printf) (pieces : List Piece) : Prop where
  turns : p'.length = p.length + pieces.length
  reached : p.length2 + (expand args (p.noofarg + 1) pieces).length ≤ p'.length2
  length2 : p'.length2 = p.length2 + (expand args (p.noofarg + 1) pieces).length ↔
    IsExact args (p.noofarg + 1) pieces
  buffer : IsExact args (p.noofarg + 1) pieces →
    p'.buffer = Bytes.write p.buffer p.length2 (expand args (p.noofarg + 1) pieces)

theorem steps_ran (hnonneg : Nonnegative args (p.noofarg + 1) pieces)
    (h : steps args pieces p = some p') : Ran args p p' pieces := by
  induction pieces generalizing p with
  | nil =>
      rw [← Option.some_inj.1 h]
      exact ⟨rfl, le_rfl, iff_of_true rfl trivial, fun _ => (Bytes.write_nil).symm⟩
  | cons q qs ih =>
      obtain ⟨p₁, hstep, hrest⟩ := Option.bind_eq_some_iff.1 h
      have hfirst := step_some q hnonneg.1 hstep
      have hnumber := hfirst.noofarg
      have hran := ih (hnumber ▸ hnonneg.2) hrest
      have hlength2 := hfirst.length2
      have hreached := hran.reached
      have htail := hran.length2
      have hbuffer := hran.buffer
      rw [hnumber] at hreached htail hbuffer
      refine ⟨?_, ?_, ?_, ?_⟩
      · rw [hran.turns, hfirst.turns, List.length_cons, Nat.add_assoc, Nat.add_comm 1]
      · rw [expand, List.length_append]
        omega
      · -- one piece with a gap behind it is enough
        rw [expand, List.length_append, IsExact]
        by_cases hexact : q.IsExact args (p.noofarg + 1)
        · rw [if_pos hexact] at hlength2
          rw [and_iff_right hexact, ← htail]
          omega
        · rw [if_neg hexact] at hlength2
          refine iff_of_false (by omega) fun hboth => hexact hboth.1
      · rintro ⟨hexact, hrest⟩
        rw [if_pos hexact, Nat.add_zero] at hlength2
        rw [hbuffer hrest, hfirst.buffer, hlength2, Bytes.write_after]
        rfl

theorem steps_isSome (hnonneg : Nonnegative args (p.noofarg + 1) pieces)
    (hexact : IsExact args (p.noofarg + 1) pieces)
    (hroom : p.length2 + (expand args (p.noofarg + 1) pieces).length ≤ 256) :
    (steps args pieces p).isSome := by
  induction pieces generalizing p with
  | nil => rfl
  | cons q qs ih =>
      rw [expand, List.length_append] at hroom
      obtain ⟨p₁, hstep⟩ := Option.isSome_iff_exists.1
        (step_isSome q hnonneg.1 (by omega))
      have hfirst := step_some q hnonneg.1 hstep
      have hnumber := hfirst.noofarg
      have hlength2 := hfirst.length2
      rw [if_pos hexact.1] at hlength2
      rw [steps, hstep]
      refine ih (hnumber ▸ hnonneg.2) (hnumber ▸ hexact.2) ?_
      rw [hnumber]
      omega

/-- The bytes that `printf` gives to `write` are the expansion of the format. -/
def Expands (args : Arguments) (pieces : List Piece) (buffer : Bytes.Memory) : Prop :=
  ∃ written returned, printf args (format pieces) buffer = some (written, returned) ∧
    written.getD [] = expand args 2 pieces

theorem map_range_write (m : Bytes.Memory) (cs ds : List UInt8) :
    (List.range cs.length).map (Bytes.write m 0 (cs ++ ds)) = cs := by
  apply List.ext_getElem
  · simp
  · intro i hi hi'
    have hlt : i < (cs ++ ds).length := by
      rw [List.length_append]
      omega
    have hinside := Bytes.write_inside (m := m) (a := 0) hlt
    rw [Nat.zero_add] at hinside
    rw [List.getElem_map, List.getElem_range, hinside, List.getElem_append_left hi']

theorem length_le_format (pieces : List Piece) : pieces.length ≤ (format pieces).length := by
  induction pieces with
  | nil => exact le_rfl
  | cons q qs ih =>
      have hq : 1 ≤ q.format.length := by cases q <;> exact Nat.succ_le_succ (Nat.zero_le _)
      rw [format, List.flatMap_cons, List.length_append, List.length_cons]
      change qs.length + 1 ≤ q.format.length + (format qs).length
      omega

/-- `printf` writes the expansion of its format just if every conversion is a `%c` or formats the
number 0, whatever the buffer held: behind a string or another number it leaves a byte of the buffer
in the output. -/
theorem printf_expands_iff (h : Fits args pieces) (buffer : Bytes.Memory) :
    Expands args pieces buffer ↔ IsExact args 2 pieces := by
  let p : Printf := ⟨0, 0, 0, 1, buffer, []⟩
  have hloop : p.loop args (format pieces) ((format pieces).length + 1) = steps args pieces p :=
    loop_steps h.ordinary h.nonnegative (List.nil_append _).symm rfl
      (Nat.lt_succ_of_le (length_le_format pieces))
  constructor
  · rintro ⟨written, returned, hcall, hwritten⟩
    obtain ⟨p', hp', hret⟩ := Option.bind_eq_some_iff.1 hcall
    have hran := steps_ran h.nonnegative (hloop.symm.trans hp')
    split_ifs at hret with hlength
    · obtain ⟨p₁, hstore, hret⟩ := Option.bind_eq_some_iff.1 hret
      obtain ⟨rfl, -⟩ := Prod.mk.inj (Option.some_inj.1 hret)
      have hcount := congrArg List.length hwritten
      rw [store_some hstore] at hcount
      -- as many bytes as the expansion has, so there is no gap
      apply hran.length2.1
      calc
        p'.length2 = (expand args 2 pieces).length := by simpa [Printf.wrote] using hcount
        _ = p.length2 + (expand args (p.noofarg + 1) pieces).length := (Nat.zero_add _).symm
    · have hturns := hran.turns
      have hnil : pieces = [] := by
        apply List.eq_nil_of_length_eq_zero
        omega
      rw [hnil]
      trivial
  · intro hexact
    have hroom := h.room
    have hfits : p.length2 + (expand args (p.noofarg + 1) pieces).length ≤ 256 :=
      (Nat.zero_add _).le.trans (Nat.le_of_lt hroom)
    obtain ⟨p', hp'⟩ := Option.isSome_iff_exists.1 (steps_isSome h.nonnegative hexact hfits)
    have hran := steps_ran h.nonnegative hp'
    have hlength2 : p'.length2 = (expand args 2 pieces).length := by
      rw [hran.length2.2 hexact]
      exact Nat.zero_add _
    have hbuffer : p'.buffer = Bytes.write buffer 0 (expand args 2 pieces) := hran.buffer hexact
    rw [Expands, printf, hloop, hp', Option.bind_eq_bind, Option.bind_some]
    by_cases hlength : 0 < p'.length
    · rw [if_pos hlength, store_eq (by omega)]
      refine ⟨_, _, rfl, ?_⟩
      change (List.range p'.length2).map (Bytes.write p'.buffer p'.length2 [0]) = _
      rw [hbuffer, hlength2]
      have hafter : Bytes.write (Bytes.write buffer 0 (expand args 2 pieces))
          (0 + (expand args 2 pieces).length) [0] =
            Bytes.write buffer 0 (expand args 2 pieces ++ [0]) := Bytes.write_after
      rw [Nat.zero_add] at hafter
      rw [hafter, map_range_write]
    · rw [if_neg hlength]
      refine ⟨_, _, rfl, ?_⟩
      have hturns := hran.turns
      have hnil : pieces = [] := by
        apply List.eq_nil_of_length_eq_zero
        omega
      rw [hnil]
      rfl

/-- `"%c=%x\n"`, with the character `b` and the number 0, in a buffer full of `?`. -/
theorem printf_expands_zero :
    Expands ⟨fun k => if k = 2 then 98 else 0, fun _ => []⟩
      [.character, .ordinary 61, .number .hex, .ordinary 10] fun _ => 63 := by
  refine (printf_expands_iff ⟨fun c hc => ?_, by decide, ?_, by decide +kernel⟩ fun _ => 63).2 ?_
  · simp only [List.mem_cons, Piece.ordinary.injEq, reduceCtorEq, List.not_mem_nil, false_or,
      or_false] at hc
    rcases hc with rfl | rfl <;> decide
  · exact ⟨nofun, nofun, nofun, nofun, trivial⟩
  · exact ⟨trivial, trivial, rfl, trivial, trivial⟩

/-- Behind the string of `"%s!"` there is a byte that the buffer held before. -/
theorem not_printf_expands :
    ¬ ∀ args pieces buffer, Fits args pieces → Expands args pieces buffer := by
  intro h
  have hfits : Fits ⟨fun _ => 1, fun _ => [104, 105]⟩ [.string, .ordinary 33] := by
    refine ⟨fun c hc => ?_, by decide, ⟨nofun, nofun, trivial⟩, by decide⟩
    rcases List.mem_cons.1 hc with hc | hc
    · cases hc
    · cases List.mem_singleton.1 hc
      decide
  exact ((printf_expands_iff hfits fun _ => 0).1 (h _ _ _ hfits)).1

example : (printf ⟨fun _ => 1, fun _ => [104, 105]⟩ [37, 115, 33] fun _ => 63).map Prod.fst =
    some (some [104, 105, 63, 33]) := by
  decide +kernel

end Libc

end OswpKernel
