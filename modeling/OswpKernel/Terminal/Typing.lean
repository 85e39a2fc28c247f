import OswpKernel.Lib.LocalArray
import OswpKernel.Terminal.Screen

/-!
# Typing — text on the screen, and formats in memory

A terminal types a character by putting it at the cursor and blanking the cell that the cursor moves
to; when the page is full, its rows move up first.  `Shows` says that a text has been typed;
`typeText_overlays` says where its characters are on a page that has room.

`kprintf` reads its format from memory.  `formatLoop` is its loop over the bytes from the format to
the end of an array, where a read behind the array has no result; on a string it is `kprintfLoop`.
-/

namespace OswpKernel

namespace Keyboard

/-! ## Typing -/

namespace Screen

variable (s : Screen)

def typeChar (c : UInt8) : Screen := ((s.scroll.store c).move 2).store 0

def typeText (text : List UInt8) : Screen := text.foldl typeChar s

end Screen

/-- From `s` to `s'` the text has been typed, and nothing else. -/
structure Shows (s : Screen) (text : List UInt8) (s' : Screen) : Prop where
  cursor : s'.outputstring = (s.typeText text).outputstring
  page : s'.mem = (s.typeText text).mem

variable {s s' : Screen} {text xs : List UInt8} {c : UInt8} {p p' : Printing} {args : Arguments}

theorem typeText_concat (s : Screen) (text : List UInt8) (c : UInt8) :
    s.typeText (text ++ [c]) = (s.typeText text).typeChar c := by
  rw [Screen.typeText, List.foldl_append]
  rfl

theorem typeChar_cursor (s : Screen) (c : UInt8) :
    (s.typeChar c).outputstring = s.scroll.outputstring + 2 := rfl

/-- The cells that a character changes. -/
theorem typeChar_mem (s : Screen) (c : UInt8) (a : Int) :
    (s.typeChar c).mem a =
      if a = s.scroll.outputstring + 2 then 0
      else if a = s.scroll.outputstring then c else s.scroll.mem a := by
  by_cases hnext : a = s.scroll.outputstring + 2
  · subst hnext
    rw [if_pos rfl]
    exact Function.update_self _ _ _
  · rw [if_neg hnext]
    change Function.update (Function.update s.scroll.mem s.scroll.outputstring c)
      (s.scroll.outputstring + 2) 0 a = _
    rw [Function.update_of_ne hnext, Function.update_apply]

theorem scroll_of_room (hroom : s.outputstring < 160 * 21) : s.scroll = s :=
  if_neg (not_le.2 hroom)

/-- A text on a page that has room for it: its characters are at the cursor, two bytes apart, the
cell behind them is blank, and all other bytes are kept. -/
structure Overlays (s : Screen) (text : List UInt8) (s' : Screen) : Prop where
  cursor : s'.outputstring = s.outputstring + 2 * text.length
  characters : ∀ (i : Nat) (hi : i < text.length), s'.mem (s.outputstring + 2 * i) = text[i]
  blank : text ≠ [] → s'.mem (s.outputstring + 2 * text.length) = 0
  kept : ∀ a, (∀ i : Nat, i ≤ text.length → a ≠ s.outputstring + 2 * i) → s'.mem a = s.mem a

theorem typeText_overlays (hroom : s.outputstring + 2 * text.length ≤ 160 * 21) :
    Overlays s text (s.typeText text) := by
  induction text using List.reverseRecOn with
  | nil => exact ⟨by simp [Screen.typeText], fun i hi => absurd hi (Nat.not_lt_zero i),
      fun hne => absurd rfl hne, fun a _ => rfl⟩
  | append_singleton text c ih =>
      rw [List.length_append, List.length_singleton, Nat.cast_add, Nat.cast_one] at hroom
      -- the page is not full yet, so that the character goes behind the others
      have h := ih (by omega)
      have hcursor := h.cursor
      have hscroll : (s.typeText text).scroll = s.typeText text := scroll_of_room (by omega)
      rw [typeText_concat]
      refine ⟨?_, ?_, ?_, ?_⟩
      · rw [typeChar_cursor, hscroll, List.length_append, List.length_singleton]
        omega
      · intro i hi
        rw [List.length_append, List.length_singleton] at hi
        rw [typeChar_mem, hscroll, if_neg (by omega)]
        rcases Nat.lt_or_eq_of_le (Nat.le_of_lt_succ hi) with hlt | rfl
        · rw [if_neg (by omega), List.getElem_append_left hlt]
          exact h.characters i hlt
        · rw [if_pos hcursor.symm, List.getElem_concat_length rfl]
      · intro _
        rw [typeChar_mem, hscroll, if_pos]
        rw [List.length_append, List.length_singleton]
        omega
      · intro a ha
        have hlast := ha text.length (by simp)
        have hnext := ha (text.length + 1) (by simp)
        rw [typeChar_mem, hscroll, if_neg (by omega), if_neg (by omega)]
        refine h.kept a fun i hi => ha i ?_
        rw [List.length_append]
        exact hi.trans (Nat.le_add_right _ _)

/-! ## Formats in memory -/

/-- The bytes from the format on; an empty rest is the end of the array.  Behind a `%` the loop goes
two bytes on, also when the second one is the terminator. -/
def formatLoop (args : Arguments) : List UInt8 → Printing → Option Printing
  | [], _ => none
  | c :: cs, p =>
      if c = 0 then some p
      else if c = 37 then
        match cs with
        | [] => none
        | d :: ds => formatLoop args ds (conversionTurn args d p)
      else formatLoop args cs (plainTurn c p)

/-- `kprintf` of the format at the start of an array. -/
def kprintfAt (args : Arguments) (fmt : LocalArray) (s : Screen) : Option Screen :=
  (formatLoop args fmt.bytes ⟨s, 1, 2⟩).map fun p => p.screen.store 0

theorem formatLoop_nul : formatLoop args (0 :: xs) p = some p := by
  rw [formatLoop.eq_def]
  exact if_pos rfl

theorem formatLoop_plain (hzero : c ≠ 0) (hc : c ≠ 37) :
    formatLoop args (c :: xs) p = formatLoop args xs (plainTurn c p) := by
  rw [formatLoop.eq_def]
  dsimp only
  rw [if_neg hzero, if_neg hc]

theorem kprintfLoop_plain (hc : c ≠ 37) :
    kprintfLoop args (c :: xs) p = kprintfLoop args xs (plainTurn c p) := by
  rw [kprintfLoop.eq_def]
  exact if_neg hc

/-- On a string the two loops agree, unless a `%` stands right in front of the terminator. -/
theorem formatLoop_string (rest : List UInt8) (hnul : (0 : UInt8) ∉ xs)
    (hloop : kprintfLoop args xs p = some p') :
    formatLoop args (xs ++ 0 :: rest) p = some p' := by
  induction xs, p using kprintfLoop.induct args with
  | case1 p =>
      rw [← hloop, List.nil_append, formatLoop_nul]
      rfl
  | case2 p => simp [kprintfLoop] at hloop
  | case3 p d ds ih =>
      rw [kprintfLoop, if_pos rfl] at hloop
      have hds : (0 : UInt8) ∉ ds := fun h =>
        hnul (List.mem_cons_of_mem _ (List.mem_cons_of_mem _ h))
      rw [List.cons_append, List.cons_append, formatLoop, if_neg (by decide), if_pos rfl]
      exact ih hds hloop
  | case4 c cs p hc ih =>
      rw [kprintfLoop_plain hc] at hloop
      have hzero : c ≠ 0 := fun h => hnul (h ▸ List.mem_cons_self)
      have hcs : (0 : UInt8) ∉ cs := fun h => hnul (List.mem_cons_of_mem _ h)
      rw [List.cons_append, formatLoop_plain hzero hc]
      exact ih hcs hloop

theorem kprintfAt_string {fmt : LocalArray} {rest : List UInt8}
    (hbytes : fmt.bytes = xs ++ 0 :: rest) (hnul : (0 : UInt8) ∉ xs)
    (hcall : kprintf args xs s = some s') : kprintfAt args fmt s = some s' := by
  rcases Option.map_eq_some_iff.1 hcall with ⟨p, hloop, hs⟩
  rw [kprintfAt, hbytes, formatLoop_string rest hnul hloop, Option.map_some, hs]

/-- The characters that `kprintf` puts on the screen as they are, and `%`. -/
def PrintableByte (c : UInt8) : Prop := 32 ≤ c ∧ c ≤ 126

instance (c : UInt8) : Decidable (PrintableByte c) := inferInstanceAs (Decidable (_ ∧ _))

theorem PrintableByte.ne_zero (h : PrintableByte c) : c ≠ 0 := by
  rintro rfl
  exact absurd h (by decide)

/-- What `kprintf` does with a character of a text. -/
def Screen.put (s : Screen) (c : UInt8) : Screen := (s.scroll.store c).move 2

theorem plainTurn_screen (h : PrintableByte c) (p : Printing) :
    (plainTurn c p).screen = p.screen.put c := by
  have hline : c ≠ 10 := by
    rintro rfl
    exact absurd h (by decide)
  have hreturn : c ≠ 13 := by
    rintro rfl
    exact absurd h (by decide)
  have htab : c ≠ 9 := by
    rintro rfl
    exact absurd h (by decide)
  rw [plainTurn, Printing.plain, if_neg hline, if_neg hreturn, if_neg htab]
  rfl

/-- A text without `%` is put on the screen as it is. -/
theorem kprintfLoop_text (htext : ∀ c ∈ text, PrintableByte c) (hpercent : (37 : UInt8) ∉ text)
    (args : Arguments) (p : Printing) :
    ∃ p', kprintfLoop args text p = some p' ∧ p'.screen = text.foldl Screen.put p.screen := by
  induction text generalizing p with
  | nil => exact ⟨p, rfl, rfl⟩
  | cons c cs ih =>
      have hc : c ≠ 37 := fun h => hpercent (h ▸ List.mem_cons_self)
      have hcs : ∀ d ∈ cs, PrintableByte d := fun d hd => htext d (List.mem_cons_of_mem _ hd)
      have hrest : (37 : UInt8) ∉ cs := fun h => hpercent (List.mem_cons_of_mem _ h)
      rcases ih hcs hrest (plainTurn c p) with ⟨p', hloop, hscreen⟩
      refine ⟨p', ?_, ?_⟩
      · rw [kprintfLoop_plain hc, hloop]
      · rw [hscreen, plainTurn_screen (htext c List.mem_cons_self), List.foldl_cons]

theorem kprintf_text (htext : ∀ c ∈ text, PrintableByte c) (hpercent : (37 : UInt8) ∉ text)
    (args : Arguments) (s : Screen) :
    kprintf args text s = some ((text.foldl Screen.put s).store 0) := by
  rcases kprintfLoop_text htext hpercent args ⟨s, 1, 2⟩ with ⟨p, hloop, hscreen⟩
  rw [kprintf, hloop, Option.map_some, hscreen]

/-- On a page with room it makes no difference whether every character or only the last one is
followed by a blank. -/
theorem shows_put (htext : text ≠ []) (hroom : s.outputstring + 2 * text.length ≤ 160 * 21) :
    Shows s text ((text.foldl Screen.put s).store 0) := by
  induction text using List.reverseRecOn with
  | nil => exact absurd rfl htext
  | append_singleton text c ih =>
      rw [List.length_append, List.length_singleton, Nat.cast_add, Nat.cast_one] at hroom
      have hcursor : (s.typeText text).outputstring = s.outputstring + 2 * text.length :=
        (typeText_overlays (by omega)).cursor
      have hsame : (text.foldl Screen.put s).outputstring = (s.typeText text).outputstring ∧
          ((text.foldl Screen.put s).store c).mem = ((s.typeText text).store c).mem := by
        by_cases hempty : text = []
        · subst hempty
          exact ⟨rfl, rfl⟩
        · -- the blank is overwritten by the character
          have h := ih hempty (by omega)
          refine ⟨h.cursor, ?_⟩
          change Function.update (text.foldl Screen.put s).mem _ c =
            Function.update (s.typeText text).mem _ c
          rw [← h.page, ← h.cursor]
          exact (Function.update_idem _ _ _).symm
      have hput : (text.foldl Screen.put s).scroll = text.foldl Screen.put s :=
        scroll_of_room (by omega)
      have htype : (s.typeText text).scroll = s.typeText text := scroll_of_room (by omega)
      constructor
      · rw [List.foldl_append, typeText_concat, typeChar_cursor, htype, ← hsame.1]
        change (text.foldl Screen.put s).scroll.outputstring + 2 = _
        rw [hput]
      · rw [List.foldl_append, typeText_concat]
        change Function.update ((text.foldl Screen.put s).scroll.store c).mem
            ((text.foldl Screen.put s).scroll.outputstring + 2) 0 =
          Function.update ((s.typeText text).scroll.store c).mem
            ((s.typeText text).scroll.outputstring + 2) 0
        rw [hput, htype, hsame.1, hsame.2]

end Keyboard

end OswpKernel
