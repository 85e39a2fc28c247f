import OswpKernel.Terminal.Screen

/-!
# Numbers — the texts of `%d`, `%x` and `%p`

`kprintf` and `printf` turn a number into text in the same way: the digits go to `rem[20]`, the
lowest first, and are put out from the last one on.  Division and remainder truncate, so that the
remainders of a negative number are negative.  What comes out is the usual text just where the
number is not negative.
-/

namespace OswpKernel

namespace Keyboard

/-! ## The digit loops -/

/-- `while (value != 0) { rem[i++] = digit(value % base); value = value / base; }`, with `room`
entries left in `rem`. -/
def remLoop (base : Int) (digit : Int → Int) : Nat → Int → Option (List Int)
  | 0, value => if value = 0 then some [] else none
  | room + 1, value =>
      if value = 0 then some []
      else (remLoop base digit room (value.tdiv base)).map (digit (value.tmod base) :: ·)

/-- The loop over an `int`, into `int rem[20]`. -/
def decimalRem (intvalue : Int) : Option (List Int) := remLoop 10 (· + 48) 20 intvalue

def hexDigit (d : Int) : Int := if d < 10 then d + 48 else d.tmod 10 + 97

/-- The loop over an `unsigned long`. -/
def hexRem (pointervalue : Word) : Option (List Int) := remLoop 16 hexDigit 20 pointervalue.toNat

/-- `for (int j = i - 1; j >= 0; j--)`: each entry of `rem` becomes a `char`. -/
def fromLast (rem : List Int) : List UInt8 := rem.reverse.map UInt8.ofInt

/-- The conversions of numbers. -/
inductive NumberConversion
  | decimal
  | pointer
  | hex
  deriving DecidableEq, Repr

namespace NumberConversion

/-- The character behind the `%`. -/
def letter : NumberConversion → UInt8
  | .decimal => 100
  | .pointer => 112
  | .hex => 120

def hexText (arg : Word) : Option (List UInt8) :=
  if arg = 0 then some [48] else (hexRem arg).map fromLast

/-- What a conversion puts out for its argument.  A number with more digits than `rem` has entries
would have no text. -/
def text (arg : Word) : NumberConversion → Option (List UInt8)
  | .decimal =>
      let intvalue := (arg.setWidth 32).toInt
      if intvalue = 0 then some [48] else (decimalRem intvalue).map fromLast
  | .pointer => (hexText arg).map ([48, 120] ++ ·)
  | .hex => hexText arg

end NumberConversion

/-! ## The usual way to write numbers -/

/-- The digits of a number without leading zeros, in lower case. -/
def numeral (base n : Nat) : List UInt8 :=
  (Nat.toDigits base n).map fun c => UInt8.ofNat c.toNat

def canonicalDecimal (v : Int) : List UInt8 :=
  if v < 0 then 45 :: numeral 10 v.natAbs else numeral 10 v.natAbs

def NumberConversion.canonical (arg : Word) : NumberConversion → List UInt8
  | .decimal => canonicalDecimal (arg.setWidth 32).toInt
  | .pointer => [48, 120] ++ numeral 16 arg.toNat
  | .hex => numeral 16 arg.toNat

variable {base n room : Nat} {digit : Int → Int} {v : Int} {w : Word} {c : NumberConversion}
  {cs : List UInt8}

/-! ## What the loops compute -/

/-- Division that truncates keeps the sign out of the quotient and the remainder. -/
theorem signed_tdiv_tmod {sign : Int} (hsign : sign = 1 ∨ sign = -1) (base n : Nat) :
    (sign * (n : Int)).tdiv base = sign * ((n / base : Nat) : Int) ∧
      (sign * (n : Int)).tmod base = sign * ((n % base : Nat) : Int) := by
  rcases hsign with rfl | rfl
  · rw [one_mul, one_mul, one_mul]
    exact ⟨rfl, rfl⟩
  · rw [neg_one_mul, neg_one_mul, neg_one_mul, Int.neg_tdiv, Int.neg_tmod]
    exact ⟨rfl, rfl⟩

/-- The loop comes to the digits of the number, each with the sign of the number. -/
theorem remLoop_eq {sign : Int} (hsign : sign = 1 ∨ sign = -1) (hbase : 1 < base)
    (hroom : (Nat.digits base n).length ≤ room) :
    remLoop base digit room (sign * n) =
      some ((Nat.digits base n).map fun d : Nat => digit (sign * d)) := by
  have hzero : ∀ m : Nat, sign * (m : Int) = 0 ↔ m = 0 := by
    intro m
    rcases hsign with rfl | rfl <;> simp
  induction room generalizing n with
  | zero =>
      have hdigits : Nat.digits base n = [] := by simpa using hroom
      have hn : n = 0 := Nat.digits_eq_nil_iff_eq_zero.1 hdigits
      rw [remLoop, if_pos ((hzero n).2 hn), hdigits, List.map_nil]
  | succ room ih =>
      by_cases hn : n = 0
      · rw [remLoop, if_pos ((hzero n).2 hn), hn, Nat.digits_zero, List.map_nil]
      · obtain ⟨hdiv, hmod⟩ := signed_tdiv_tmod hsign base n
        have hcons := Nat.digits_eq_cons_digits_div hbase hn
        rw [hcons, List.length_cons] at hroom
        rw [remLoop, if_neg fun h => hn ((hzero n).1 h), hdiv, hmod,
          ih (Nat.le_of_succ_le_succ hroom), hcons, Option.map_some, List.map_cons]

/-- The digits of an `int` fit `rem`. -/
theorem decimalRem_eq (v : BitVec 32) :
    (decimalRem v.toInt).map fromLast = some (decimalDigits v.toInt) := by
  have hlength : (Nat.digits 10 v.toInt.natAbs).length ≤ 20 := by
    have hdigits := decimalDigits_length (v := v)
    rw [decimalDigits, List.length_map, List.length_reverse] at hdigits
    exact hdigits.trans (by decide)
  obtain ⟨sign, hsign, hnonneg, hv⟩ : ∃ sign : Int, (sign = 1 ∨ sign = -1) ∧
      (sign = 1 ↔ 0 ≤ v.toInt) ∧ v.toInt = sign * (v.toInt.natAbs : Int) := by
    by_cases h : 0 ≤ v.toInt
    · exact ⟨1, Or.inl rfl, iff_of_true rfl h, by omega⟩
    · exact ⟨-1, Or.inr rfl, iff_of_false (by decide) h, by omega⟩
  have hloop : remLoop 10 (· + 48) 20 (sign * (v.toInt.natAbs : Int)) =
      some ((Nat.digits 10 v.toInt.natAbs).map fun d : Nat => sign * d + 48) :=
    remLoop_eq hsign (by decide) hlength
  rw [decimalRem, hv, hloop, ← hv, Option.map_some, fromLast, decimalDigits, ← List.map_reverse,
    List.map_map]
  refine congrArg some (List.map_congr_left fun d hd => ?_)
  have hlt : d < 10 := Nat.digits_lt_base (by decide) (List.mem_reverse.1 hd)
  rcases hsign with rfl | rfl
  · rw [if_pos (hnonneg.1 rfl)]
    interval_cases d <;> rfl
  · rw [if_neg fun h => absurd (hnonneg.2 h) (by decide)]
    interval_cases d <;> rfl

/-- So do those of an `unsigned long`. -/
theorem hexRem_eq (w : Word) : (hexRem w).map fromLast = some (hexDigits w) := by
  have hlength : (Nat.digits 16 w.toNat).length ≤ 20 := by
    have hdigits := hexDigits_length w
    rw [hexDigits, List.length_map, List.length_reverse] at hdigits
    exact hdigits.trans (by decide)
  have hloop : remLoop 16 hexDigit 20 (1 * (w.toNat : Int)) =
      some ((Nat.digits 16 w.toNat).map fun d : Nat => hexDigit (1 * d)) :=
    remLoop_eq (Or.inl rfl) (by decide) hlength
  rw [one_mul] at hloop
  rw [hexRem, hloop, Option.map_some, fromLast, hexDigits, ← List.map_reverse, List.map_map]
  refine congrArg some (List.map_congr_left fun d hd => ?_)
  have hlt : d < 16 := Nat.digits_lt_base (by decide) (List.mem_reverse.1 hd)
  interval_cases d <;> rfl

/-- A number other than 0 in the usual way. -/
theorem toDigits_eq_digits (hbase : 1 < base) (hn : n ≠ 0) :
    Nat.toDigits base n = (Nat.digits base n).reverse.map Nat.digitChar := by
  induction n using Nat.strong_induction_on with
  | _ n ih =>
      rw [Nat.digits_eq_cons_digits_div hbase hn, List.reverse_cons, List.map_append]
      by_cases hlt : n < base
      · rw [Nat.toDigits_of_lt_base hlt, Nat.div_eq_of_lt hlt, Nat.mod_eq_of_lt hlt,
          Nat.digits_zero]
        rfl
      · have hle : base ≤ n := Nat.le_of_not_lt hlt
        have hdiv : n / base ≠ 0 := (Nat.div_pos hle (by omega)).ne'
        have hless : n / base < n := Nat.div_lt_self (Nat.pos_of_ne_zero hn) hbase
        rw [Nat.toDigits_of_base_le hbase hle, ih _ hless hdiv]
        rfl

theorem numeral_eq (hbase : 1 < base) (hn : n ≠ 0) :
    numeral base n =
      (Nat.digits base n).reverse.map fun d => UInt8.ofNat (Nat.digitChar d).toNat := by
  rw [numeral, toDigits_eq_digits hbase hn, List.map_map]
  rfl

theorem hexDigits_eq (hw : w ≠ 0) : hexDigits w = numeral 16 w.toNat := by
  have hn : w.toNat ≠ 0 := fun h => hw (BitVec.eq_of_toNat_eq h)
  rw [numeral_eq (by decide) hn, hexDigits]
  refine List.map_congr_left fun d hd => ?_
  have hlt : d < 16 := Nat.digits_lt_base (by decide) (List.mem_reverse.1 hd)
  interval_cases d <;> rfl

theorem decimalDigits_eq (hv : 0 < v) : decimalDigits v = numeral 10 v.natAbs := by
  have hn : v.natAbs ≠ 0 := by omega
  rw [numeral_eq (by decide) hn, decimalDigits]
  refine List.map_congr_left fun d hd => ?_
  have hlt : d < 10 := Nat.digits_lt_base (by decide) (List.mem_reverse.1 hd)
  rw [if_pos hv.le]
  interval_cases d <;> rfl

/-- Without the sign a negative number comes out shorter. -/
theorem length_decimalDigits (hv : v < 0) :
    (decimalDigits v).length + 1 = (canonicalDecimal v).length := by
  have hn : v.natAbs ≠ 0 := by omega
  rw [canonicalDecimal, if_pos hv, List.length_cons, numeral_eq (by decide) hn, decimalDigits,
    List.length_map, List.length_map]

namespace NumberConversion

/-- The text of a conversion as the model of `kprintf` has it. -/
theorem text_eq (c : NumberConversion) (w : Word) :
    c.text w = some (match c with
      | .decimal =>
          if (w.setWidth 32).toInt = 0 then [48] else decimalDigits (w.setWidth 32).toInt
      | .pointer => [48, 120] ++ if w = 0 then [48] else hexDigits w
      | .hex => if w = 0 then [48] else hexDigits w) := by
  have hhex : hexText w = some (if w = 0 then [48] else hexDigits w) := by
    rw [hexText, hexRem_eq]
    split_ifs <;> rfl
  cases c with
  | decimal =>
      rw [text]
      dsimp only
      rw [decimalRem_eq]
      split_ifs <;> rfl
  | pointer =>
      rw [text, hhex]
      rfl
  | hex => exact hhex

/-- A number that is formatted as an `int` is not negative. -/
def NotNegative (w : Word) (c : NumberConversion) : Prop :=
  c = .decimal → 0 ≤ (w.setWidth 32).toInt

instance (w : Word) (c : NumberConversion) : Decidable (c.NotNegative w) :=
  inferInstanceAs (Decidable (_ → _))

/-- The text is the usual one but for negative numbers. -/
theorem text_eq_canonical (h : c.NotNegative w) : c.text w = some (c.canonical w) := by
  have hhex : (if w = 0 then [48] else hexDigits w) = numeral 16 w.toNat := by
    split_ifs with hw
    · rw [hw]
      rfl
    · exact hexDigits_eq hw
  rw [text_eq]
  cases c with
  | decimal =>
      have hv := h rfl
      dsimp only [canonical]
      generalize (w.setWidth 32).toInt = v at hv
      rcases hv.eq_or_lt with rfl | hpos
      · rfl
      · rw [if_neg hpos.ne', decimalDigits_eq hpos, canonicalDecimal, if_neg hpos.not_gt]
  | pointer => simpa [canonical] using hhex
  | hex => simpa [canonical] using hhex

/-- The text is short by its sign, if at all. -/
theorem length_text_cases (htext : c.text w = some cs) :
    c.NotNegative w ∧ cs.length = (c.canonical w).length ∨
      ¬ c.NotNegative w ∧ cs.length + 1 = (c.canonical w).length := by
  by_cases h : c.NotNegative w
  · rw [text_eq_canonical h] at htext
    exact Or.inl ⟨h, by rw [Option.some_inj.1 htext]⟩
  · refine Or.inr ⟨h, ?_⟩
    obtain ⟨rfl, hv⟩ : c = .decimal ∧ ¬ 0 ≤ (w.setWidth 32).toInt := Classical.not_imp.1 h
    have hneg : (w.setWidth 32).toInt < 0 := Int.not_le.1 hv
    rw [text_eq] at htext
    dsimp only at htext
    rw [if_neg hneg.ne] at htext
    rw [← Option.some_inj.1 htext]
    exact length_decimalDigits hneg

end NumberConversion

/-! ## `kprintf` -/

theorem putString_append (s : Screen) (xs ys : List UInt8) :
    s.putString (xs ++ ys) = (s.putString xs).putString ys := List.foldl_append

/-- A conversion of `kprintf` puts its text on the screen, from the cursor on. -/
theorem conversionTurn_number (args : Arguments) (p : Printing)
    (hargument : args.argument (p.noofarg + 1) = w) (htext : c.text w = some cs) :
    (conversionTurn args c.letter p).screen = p.scroll.screen.putString cs := by
  have hnumber : ∀ (q : Printing) (isZero : Bool) (ds : List UInt8),
      (q.number isZero ds).next.screen = q.screen.putString (if isZero then [48] else ds) := by
    intro q isZero ds
    cases isZero with
    | true => rfl
    | false =>
        -- the `-= 2` behind the digits is undone by the loop over the format
        change ((q.screen.putString ds).move (-2)).move 2 = _
        simp [Screen.move]
  rw [NumberConversion.text_eq] at htext
  cases c with
  | decimal =>
      rw [← Option.some_inj.1 htext, ← hargument]
      exact (hnumber _ _ _).trans (by simp)
  | pointer =>
      rw [← Option.some_inj.1 htext, ← hargument, putString_append]
      exact (hnumber _ _ _).trans (by simp; rfl)
  | hex =>
      rw [← Option.some_inj.1 htext, ← hargument]
      exact (hnumber _ _ _).trans (by simp)

/-- The conversion puts the usual text of its argument on the screen. -/
def KprintfEmits (args : Arguments) (p : Printing) (c : NumberConversion) : Prop :=
  (conversionTurn args c.letter p).screen =
    p.scroll.screen.putString (c.canonical (args.argument (p.noofarg + 1)))

theorem kprintfEmits_iff (args : Arguments) (p : Printing) (c : NumberConversion) :
    KprintfEmits args p c ↔ c.NotNegative (args.argument (p.noofarg + 1)) := by
  have htext := c.text_eq (args.argument (p.noofarg + 1))
  have hturn := conversionTurn_number args p rfl htext
  constructor
  · intro hemits
    have hcursor := congrArg Screen.outputstring (hturn.symm.trans hemits)
    rw [putString_outputstring, putString_outputstring] at hcursor
    rcases NumberConversion.length_text_cases htext with ⟨h, -⟩ | ⟨-, hshort⟩
    · exact h
    · omega
  · intro h
    exact conversionTurn_number args p rfl (NumberConversion.text_eq_canonical h)

end Keyboard

end OswpKernel
