import OswpKernel.Base
import OswpKernel.Lib.LocalArray

/-!
# Tokenize — the words of a command line (`libc/string.c`)

`tokenize` allocates the array of pointers and the first token at the start, and one more token at
each separator that is not the last character.  So a separator that follows another one, or comes
first, makes an empty token.  No NULL is ever stored: `tokencount` stops at what the array held.

`entries` are the tokens the loop makes, `tokenLoop_entries` follows it, and `tokenize_iff` says
for which strings and arrays the result is the list of the words.
-/

namespace OswpKernel

namespace Libc

/-- What the calls of `malloc` return, one after the other: the array of pointers, and blocks for
tokens, with whatever they held before.  There is room for the pointers to 5 of them. -/
structure Mallocs where
  array : LocalArray
  block : Nat → LocalArray
  address : Nat → Word
  array_size : array.size = 40
  block_size : ∀ n, (block n).size = 25
  address_ne_zero : ∀ n, address n ≠ 0
  address_injective : ∀ i j, i < 5 → j < 5 → address i = address j → i = j

/-- The array, the blocks by their addresses, and the number of the next block. -/
structure Tokens where
  tokens : LocalArray
  heap : Word → Option LocalArray
  next : Nat

/-- `(*string != ' ') && (*string != '\n')` is false. -/
def separator (c : UInt8) : Bool := c = 32 || c = 10

variable (m : Mallocs)

/-- `tokens[j] = (char *) malloc(25 * sizeof(char))`, and the loop that zeroes the token. -/
def newToken (j : Nat) (s : Tokens) : Option Tokens := do
  let tokens ← s.tokens.putWord (8 * j) (m.address s.next)
  let block ← (m.block s.next).fill 0 (List.replicate 25 0)
  return {
    tokens
    heap := Function.update s.heap (m.address s.next) (some block)
    next := s.next + 1 }

/-- The loop of `tokenize`. -/
def tokenLoop : List UInt8 → Nat → Nat → Tokens → Option Tokens
  | [], _, _, s => some s
  | c :: string, i, j, s =>
      if separator c then do
        let s ← if string ≠ [] then newToken m (j + 1) s else some s
        tokenLoop string 0 (j + 1) s
      else do
        let token ← s.tokens.getWord (8 * j)
        let block ← s.heap token
        let block ← block.put i c
        tokenLoop string (i + 1) j { s with heap := Function.update s.heap token (some block) }

/-- `tokenize`; `umemset` clears 5 bytes of the 40. -/
def tokenize (string : List UInt8) : Option Tokens := do
  let tokens ← m.array.fill 0 (List.replicate 5 0)
  let s ← newToken m 0 ⟨tokens, fun _ => none, 0⟩
  tokenLoop m string 0 0 s

/-- `for (i = 0; String[i] != NULL; i++);`, in an array with room for `room` more pointers. -/
def countFrom (string : LocalArray) : Nat → Nat → Option Nat
  | 0, _ => none
  | room + 1, i => do
      let token ← string.getWord (8 * i)
      if token ≠ 0 then countFrom string room (i + 1) else return i

def tokencount (string : LocalArray) : Option Nat := countFrom string (string.size / 8) 0

/-! ## What it is for -/

/-- The words of a string. -/
def words (string : List UInt8) : List (List UInt8) :=
  (string.splitOnP separator).filter (· ≠ [])

/-- The array holds pointers to the words, in order, and then NULL. -/
structure HoldsWords (s : Tokens) (ws : List (List UInt8)) : Prop where
  word : ∀ j (hj : j < ws.length), ∃ token block, s.tokens.getWord (8 * j) = some token ∧
    token ≠ 0 ∧ s.heap token = some block ∧ block.string 0 = some ws[j]
  null : s.tokens.getWord (8 * ws.length) = some 0
  count : tokencount s.tokens = some ws.length

def Tokenizes (string : List UInt8) : Prop :=
  ∃ s, tokenize m string = some s ∧ HoldsWords s (words string)

/-! ## The tokens that are made -/

/-- The tokens from the current one on, which is `token` so far. -/
def entriesFrom : List UInt8 → List UInt8 → List (List UInt8)
  | token, [] => [token]
  | token, c :: string =>
      if separator c then token :: if string = [] then [] else entriesFrom [] string
      else entriesFrom (token ++ [c]) string

variable {m} {s s' : Tokens} {token string cs : List UInt8} {es ws : List (List UInt8)} {c : UInt8}
  {i j : Nat}

/-- The current token only gets longer. -/
theorem entriesFrom_cons :
    ∃ e rest, entriesFrom token string = e :: rest ∧ token.length ≤ e.length := by
  induction string generalizing token with
  | nil => exact ⟨token, [], rfl, le_rfl⟩
  | cons c string ih =>
      rw [entriesFrom]
      by_cases hc : separator c = true
      · rw [if_pos hc]
        exact ⟨token, _, rfl, le_rfl⟩
      · rw [if_neg hc]
        obtain ⟨e, rest, heq, hle⟩ := @ih (token ++ [c])
        rw [List.length_append] at hle
        exact ⟨e, rest, heq, (Nat.le_add_right _ _).trans hle⟩

theorem modifyHead_nil (parts : List (List UInt8)) : parts.modifyHead ([] ++ ·) = parts := by
  cases parts <;> rfl

/-- The parts of the string between its separators, the first one with `token` in front. -/
theorem modifyHead_append (parts : List (List UInt8)) :
    (parts.modifyHead (c :: ·)).modifyHead (token ++ ·) =
      parts.modifyHead ((token ++ [c]) ++ ·) := by
  cases parts with
  | nil => rfl
  | cons part parts => simp

/-- The tokens with characters in them are the words. -/
theorem entriesFrom_filter :
    (entriesFrom token string).filter (· ≠ []) =
      ((string.splitOnP separator).modifyHead (token ++ ·)).filter (· ≠ []) := by
  induction string generalizing token with
  | nil => simp [entriesFrom]
  | cons c string ih =>
      rw [entriesFrom, List.splitOnP_cons_eq_if_modifyHead]
      by_cases hc : separator c = true
      · rw [if_pos hc, if_pos hc, List.modifyHead_cons, List.append_nil, List.filter_cons,
          List.filter_cons]
        have hrest : (if string = [] then [] else entriesFrom [] string).filter (· ≠ []) =
            (string.splitOnP separator).filter (· ≠ []) := by
          split_ifs with hend
          · rw [hend]
            rfl
          · rw [ih, modifyHead_nil]
        rw [hrest]
      · rw [if_neg hc, if_neg hc, ih, modifyHead_append]

/-- An empty token comes from an empty part before the last one, or from an empty string. -/
theorem nil_mem_entriesFrom :
    [] ∈ entriesFrom token string ↔
      [] ∈ ((string.splitOnP separator).modifyHead (token ++ ·)).dropLast ∨
        (token = [] ∧ string = []) := by
  induction string generalizing token with
  | nil => simp [entriesFrom, eq_comm]
  | cons c string ih =>
      rw [entriesFrom, List.splitOnP_cons_eq_if_modifyHead]
      by_cases hc : separator c = true
      · have hne : string.splitOnP separator ≠ [] := List.splitOnP_ne_nil _ _
        rw [if_pos hc, if_pos hc, List.modifyHead_cons, List.append_nil,
          List.dropLast_cons_of_ne_nil hne, List.mem_cons, List.mem_cons]
        by_cases hend : string = []
        · subst hend
          simp
        · rw [if_neg hend, ih, modifyHead_nil]
          simp [hend]
      · rw [if_neg hc, if_neg hc, ih, modifyHead_append]
        simp

/-! ## The loop -/

/-- A block of 25 bytes with a token at its start and zeros behind it. -/
structure IsToken (block : LocalArray) (e : List UInt8) : Prop where
  size : block.size = 25
  text : Bytes.Holds block.byte 0 e
  zeros : ∀ x, e.length ≤ x → x < 25 → block.byte x = 0

/-- The tokens `es` have been made; the array is as it was behind them. -/
structure Entries (m : Mallocs) (a : LocalArray) (es : List (List UInt8)) (s : Tokens) : Prop where
  size : s.tokens.size = 40
  next : s.next = es.length
  token : ∀ j (hj : j < es.length), s.tokens.getWord (8 * j) = some (m.address j) ∧
    ∃ block, s.heap (m.address j) = some block ∧ IsToken block es[j]
  rest : ∀ j, es.length ≤ j → s.tokens.getWord (8 * j) = a.getWord (8 * j)

variable {a : LocalArray} {e : List UInt8} {block : LocalArray}

theorem isToken_empty {b : LocalArray} (hsize : b.size = 25)
    (hfill : b.fill 0 (List.replicate 25 0) = some block) : IsToken block [] := by
  have hwrites := LocalArray.fill_writes hfill
  have hheld := LocalArray.fill_holds hfill
  refine ⟨hwrites.size.trans hsize, fun i hi => absurd hi (Nat.not_lt_zero i), fun x _ hx => ?_⟩
  have hbyte := hheld x (by rwa [List.length_replicate])
  rwa [Nat.zero_add, List.getElem_replicate] at hbyte

/-- A character behind the token. -/
theorem IsToken.put (h : IsToken block e) (hroom : e.length < 25) (c : UInt8) :
    ∃ block', block.put e.length c = some block' ∧ IsToken block' (e ++ [c]) := by
  refine ⟨_, LocalArray.put_eq (by rw [h.size]; exact hroom), h.size, ?_, fun x hlow hhigh => ?_⟩
  · have htext := h.text.store c
    rwa [Nat.zero_add] at htext
  · rw [List.length_append] at hlow
    dsimp only
    rw [Bytes.store, Bytes.write_above hlow]
    exact h.zeros x (by omega) hhigh

theorem IsToken.string_eq (h : IsToken block e) (hroom : e.length < 25) (hnul : (0 : UInt8) ∉ e) :
    block.string 0 = some e := by
  refine LocalArray.string_eq ⟨Bytes.holds_append.2 ⟨h.text, fun k hk => ?_⟩, fun c hc hzero => ?_⟩
    (by rw [h.size]; omega)
  · obtain rfl : k = 0 := Nat.lt_one_iff.1 hk
    rw [Nat.zero_add, Nat.add_zero]
    exact h.zeros e.length le_rfl hroom
  · exact hnul (hzero ▸ hc)

/-- The next token, as long as there is a cell for its pointer. -/
theorem newToken_entries (h : Entries m a es s) (hroom : es.length < 5) :
    ∃ s', newToken m es.length s = some s' ∧ Entries m a (es ++ [[]]) s' := by
  have hinside : 8 * es.length + 8 ≤ s.tokens.size := by rw [h.size]; omega
  have hfill : ((m.block s.next).fill 0 (List.replicate 25 0)).isSome :=
    LocalArray.fill_isSome_iff.2 (Or.inr (by rw [m.block_size, List.length_replicate]))
  obtain ⟨block, hfill⟩ := Option.isSome_iff_exists.1 hfill
  refine ⟨
    { tokens := { s.tokens with
        byte := Bytes.storeWord s.tokens.byte (8 * es.length) (m.address s.next).toNat }
      heap := Function.update s.heap (m.address s.next) (some block)
      next := s.next + 1 }, ?_, ?_⟩
  · rw [newToken, LocalArray.putWord_eq hinside]
    simp only [Option.bind_eq_bind, Option.bind_some, hfill]
    rfl
  refine ⟨h.size, by rw [h.next, List.length_append]; rfl, fun j hj => ?_, fun j hj => ?_⟩
  · rw [List.length_append, List.length_singleton] at hj
    dsimp only
    by_cases hlast : j = es.length
    · -- the new one
      subst hlast
      rw [LocalArray.getWord_stored hinside, h.next, Function.update_self,
        List.getElem_append_right le_rfl]
      refine ⟨rfl, block, rfl, ?_⟩
      simpa using isToken_empty (m.block_size s.next) hfill
    · have hbefore : j < es.length := by omega
      obtain ⟨hword, old, hheap, htoken⟩ := h.token j hbefore
      have hother : m.address j ≠ m.address s.next := fun heq => hlast <| by
        rw [h.next] at heq
        exact m.address_injective j es.length (by omega) hroom heq
      rw [LocalArray.getWord_apart (Or.inr (by omega)), Function.update_of_ne hother,
        List.getElem_append_left hbefore]
      exact ⟨hword, old, hheap, htoken⟩
  · rw [List.length_append, List.length_singleton] at hj
    dsimp only
    rw [LocalArray.getWord_apart (Or.inl (by omega))]
    exact h.rest j (by omega)

theorem newToken_none (h : Entries m a es s) (hfull : 5 ≤ es.length) :
    newToken m es.length s = none := by
  have hout : ¬ 8 * es.length + 8 ≤ s.tokens.size := by rw [h.size]; omega
  rw [newToken, LocalArray.putWord, if_neg hout]
  rfl

/-- A turn on a character of a word. -/
theorem tokenLoop_char (string : List UInt8) (h : Entries m a (es ++ [token]) s)
    (hc : ¬ separator c = true) (hroom : token.length < 25) :
    ∃ s', tokenLoop m (c :: string) token.length es.length s =
        tokenLoop m string (token ++ [c]).length es.length s' ∧
      Entries m a (es ++ [token ++ [c]]) s' := by
  have hlast : es.length < (es ++ [token]).length := by
    rw [List.length_append]
    exact Nat.lt_succ_self _
  obtain ⟨hword, block, hheap, htoken⟩ := h.token es.length hlast
  rw [List.getElem_append_right le_rfl] at htoken
  obtain ⟨block', hput, htoken'⟩ := IsToken.put (e := token) (by simpa using htoken) hroom c
  refine ⟨{ s with heap := Function.update s.heap (m.address es.length) (some block') }, ?_, ?_⟩
  · rw [tokenLoop, if_neg hc, hword]
    simp only [Option.bind_eq_bind, Option.bind_some, hheap, hput]
    rw [List.length_append]
    rfl
  have hnext := h.next
  rw [List.length_append, List.length_singleton] at hnext
  have hcell := LocalArray.getWord_room hword
  rw [h.size] at hcell
  refine ⟨h.size, by rw [hnext, List.length_append, List.length_singleton], fun j hj => ?_,
    fun j hj => ?_⟩
  · rw [List.length_append, List.length_singleton] at hj
    by_cases hcurrent : j = es.length
    · subst hcurrent
      refine ⟨hword, block', Function.update_self _ _ _, ?_⟩
      rw [List.getElem_append_right le_rfl]
      simpa using htoken'
    · have hbefore : j < es.length := by omega
      obtain ⟨hword', old, hheap', hold⟩ := h.token j (by rw [List.length_append]; omega)
      rw [List.getElem_append_left hbefore] at hold
      have hother : m.address j ≠ m.address es.length := fun heq =>
        hcurrent (m.address_injective j es.length (by omega) (by omega) heq)
      refine ⟨hword', old, (Function.update_of_ne hother _ _).trans hheap', ?_⟩
      rwa [List.getElem_append_left hbefore]
  · rw [List.length_append, List.length_singleton] at hj
    exact h.rest j (by rw [List.length_append, List.length_singleton]; exact hj)

/-- The loop makes the entries of the string, as long as the array has cells for them. -/
theorem tokenLoop_entries (h : Entries m a (es ++ [token]) s)
    (hlength : ∀ e ∈ entriesFrom token string, e.length ≤ 24) :
    (es.length + (entriesFrom token string).length ≤ 5 →
      ∃ s', tokenLoop m string token.length es.length s = some s' ∧
        Entries m a (es ++ entriesFrom token string) s') ∧
    (5 < es.length + (entriesFrom token string).length →
      (es ++ [token]).length ≤ 5 → tokenLoop m string token.length es.length s = none) := by
  induction string generalizing token es s with
  | nil =>
      refine ⟨fun _ => ⟨s, rfl, h⟩, fun hover hle => ?_⟩
      rw [List.length_append] at hle
      exact absurd hover (not_lt.2 hle)
  | cons c string ih =>
      by_cases hc : separator c = true
      · rw [entriesFrom, if_pos hc] at hlength ⊢
        rw [tokenLoop, if_pos hc]
        by_cases hend : string = []
        · subst hend
          rw [if_pos rfl, if_neg (not_not.2 rfl)]
          refine ⟨fun _ => ⟨s, rfl, h⟩, fun hover hle => ?_⟩
          rw [List.length_append] at hle
          exact absurd hover (not_lt.2 hle)
        · rw [if_neg hend] at hlength ⊢
          rw [if_pos hend, List.length_cons]
          have hj : es.length + 1 = (es ++ [token]).length := by
            rw [List.length_append, List.length_singleton]
          obtain ⟨e, rest, hentries, -⟩ := @entriesFrom_cons [] string
          have hsome : 0 < (entriesFrom [] string).length := by
            rw [hentries]
            exact Nat.succ_pos _
          by_cases hroom : (es ++ [token]).length < 5
          · obtain ⟨s', hnew, h'⟩ := newToken_entries h hroom
            obtain ⟨hinside, hover⟩ := ih h' fun e he => hlength e (List.mem_cons_of_mem _ he)
            rw [hj, hnew, Option.bind_eq_bind, Option.bind_some]
            constructor
            · intro hle
              obtain ⟨s'', hloop, hentries'⟩ := hinside (by rw [← hj]; omega)
              refine ⟨s'', hloop, ?_⟩
              rw [List.append_assoc] at hentries'
              exact hentries'
            · intro hlt _
              refine hover (by rw [← hj]; omega) ?_
              rw [List.length_append, List.length_singleton]
              omega
          · rw [hj, newToken_none h (by omega)]
            refine ⟨fun hle => ?_, fun _ _ => rfl⟩
            rw [← hj] at hroom
            omega
      · rw [entriesFrom, if_neg hc] at hlength ⊢
        obtain ⟨e, rest, hentries, hle⟩ := @entriesFrom_cons (token ++ [c]) string
        have hroom : (token ++ [c]).length ≤ 24 :=
          hle.trans (hlength e (by rw [hentries]; exact List.mem_cons_self))
        rw [List.length_append, List.length_singleton] at hroom
        obtain ⟨s', hturn, h'⟩ := tokenLoop_char string h hc (by omega)
        rw [hturn]
        obtain ⟨hinside, hover⟩ := ih h' hlength
        refine ⟨hinside, fun hlt hle => hover hlt ?_⟩
        rw [List.length_append, List.length_singleton] at hle ⊢
        exact hle

/-! ## The words -/

/-- All tokens have characters in them: the words stand between single separators, with at most one
behind the last of them. -/
theorem nil_notMem_entries :
    [] ∉ entriesFrom [] string ↔ string ≠ [] ∧ [] ∉ (string.splitOnP separator).dropLast := by
  rw [nil_mem_entriesFrom, modifyHead_nil, not_or, and_comm, and_iff_right rfl]

theorem words_eq_filter : words string = (entriesFrom [] string).filter (· ≠ []) := by
  rw [entriesFrom_filter, modifyHead_nil, words]

theorem mem_of_mem_entriesFrom (he : e ∈ entriesFrom token string) (hc : c ∈ e) :
    c ∈ token ∨ c ∈ string := by
  induction string generalizing token with
  | nil =>
      rw [entriesFrom, List.mem_singleton] at he
      exact Or.inl (he ▸ hc)
  | cons d string ih =>
      rw [entriesFrom] at he
      by_cases hd : separator d = true
      · rw [if_pos hd] at he
        rcases List.mem_cons.1 he with rfl | he
        · exact Or.inl hc
        · split_ifs at he with hend
          · exact absurd he List.not_mem_nil
          · exact Or.inr (List.mem_cons_of_mem _ ((ih he).resolve_left List.not_mem_nil))
      · rw [if_neg hd] at he
        rcases ih he with hmem | hmem
        · rcases List.mem_append.1 hmem with hmem | hmem
          · exact Or.inl hmem
          · exact Or.inr (List.mem_singleton.1 hmem ▸ List.mem_cons_self)
        · exact Or.inr (List.mem_cons_of_mem _ hmem)

/-- What `tokenize` makes, and what the array is like behind it. -/
theorem tokenize_entries (hlength : ∀ e ∈ entriesFrom [] string, e.length ≤ 24) :
    ((entriesFrom [] string).length ≤ 5 → ∃ s a, tokenize m string = some s ∧
      Entries m a (entriesFrom [] string) s ∧
      ∀ j, 1 ≤ j → a.getWord (8 * j) = m.array.getWord (8 * j)) ∧
    (5 < (entriesFrom [] string).length → tokenize m string = none) := by
  have hfill : (m.array.fill 0 (List.replicate 5 0)).isSome :=
    LocalArray.fill_isSome_iff.2 (Or.inr (by rw [m.array_size]; decide))
  obtain ⟨a, hfill⟩ := Option.isSome_iff_exists.1 hfill
  have hwrites := LocalArray.fill_writes hfill
  have hstart : Entries m a [] ⟨a, fun _ => none, 0⟩ :=
    ⟨hwrites.size.trans m.array_size, rfl, fun j hj => absurd hj (Nat.not_lt_zero j),
      fun _ _ => rfl⟩
  obtain ⟨s, hnew, hs⟩ := newToken_entries hstart (by decide)
  obtain ⟨hinside, hover⟩ := tokenLoop_entries hs hlength
  rw [List.length_nil, Nat.zero_add] at hinside hover
  have hrun : tokenize m string = tokenLoop m string 0 0 s := by
    rw [tokenize, hfill]
    exact congrArg (Option.bind · _) hnew
  rw [hrun]
  refine ⟨fun hle => ?_, fun hlt => hover hlt (by decide)⟩
  obtain ⟨s', hloop, hentries⟩ := hinside hle
  refine ⟨s', a, hloop, hentries, fun j hj => ?_⟩
  -- `umemset` has not come to the second pointer
  exact LocalArray.getWord_congr hwrites.size fun x hx _ =>
    hwrites.above x (by rw [List.length_replicate]; omega)

/-- `tokencount` stops at the first NULL. -/
theorem tokencount_eq {b : LocalArray} {n : Nat} (hsize : b.size = 40) (hn : n < 5)
    (hbefore : ∀ j, j < n → ∃ token, b.getWord (8 * j) = some token ∧ token ≠ 0)
    (hnull : b.getWord (8 * n) = some 0) : tokencount b = some n := by
  have hfrom : ∀ room i, i ≤ n → n < i + room → countFrom b room i = some n := by
    intro room
    induction room with
    | zero => exact fun i hle hlt => absurd hlt (not_lt.2 hle)
    | succ room ih =>
        intro i hle hlt
        rw [countFrom]
        rcases Nat.eq_or_lt_of_le hle with rfl | hless
        · rw [hnull]
          rfl
        · obtain ⟨token, hword, hne⟩ := hbefore i hless
          rw [hword, Option.bind_eq_bind, Option.bind_some, if_pos hne]
          exact ih (i + 1) hless (by omega)
  rw [tokencount, hsize]
  exact hfrom 5 0 (Nat.zero_le n) (by omega)

/-- `tokenize` returns the words if and only if there is one, they are separated by single
separators with nothing in front and at most one separator behind, and the array held NULL behind
the last pointer. -/
theorem tokenize_iff (m : Mallocs) (hnul : (0 : UInt8) ∉ string)
    (hcount : (words string).length ≤ 4) (hlength : ∀ w ∈ words string, w.length ≤ 24) :
    Tokenizes m string ↔
      string ≠ [] ∧ [] ∉ (string.splitOnP separator).dropLast ∧
        m.array.getWord (8 * (words string).length) = some 0 := by
  have hlength' : ∀ e ∈ entriesFrom [] string, e.length ≤ 24 := by
    intro e he
    by_cases hempty : e = []
    · rw [hempty]
      exact Nat.zero_le _
    · refine hlength e ?_
      rw [words_eq_filter]
      exact List.mem_filter.2 ⟨he, decide_eq_true hempty⟩
  obtain ⟨hinside, hover⟩ := tokenize_entries (m := m) hlength'
  rw [← and_assoc, ← nil_notMem_entries]
  constructor
  · rintro ⟨s, hrun, hholds⟩
    have hroom : (entriesFrom [] string).length ≤ 5 := by
      by_contra hmany
      rw [hover (by omega)] at hrun
      cases hrun
    obtain ⟨s', a, hrun', hentries, hrest⟩ := hinside hroom
    obtain rfl : s = s' := Option.some_inj.1 (hrun.symm.trans hrun')
    -- a token that is no word would stand where the NULL is
    have hall : (words string).length = (entriesFrom [] string).length := by
      refine le_antisymm ?_ (not_lt.1 fun hless => ?_)
      · rw [words_eq_filter]
        exact List.length_filter_le _ _
      · have hword := (hentries.token _ hless).1
        exact m.address_ne_zero _ (Option.some_inj.1 (hword.symm.trans hholds.null))
    have hfull : ∀ e ∈ entriesFrom [] string, e ≠ [] := by
      rw [words_eq_filter, List.length_filter_eq_length_iff] at hall
      exact fun e he => of_decide_eq_true (hall e he)
    refine ⟨fun hmem => hfull [] hmem rfl, ?_⟩
    obtain ⟨e, rest, hcons, -⟩ := @entriesFrom_cons [] string
    have hpos : 1 ≤ (words string).length := by rw [hall, hcons]; exact Nat.succ_pos _
    rw [← hrest _ hpos, ← hentries.rest _ hall.ge]
    exact hholds.null
  · rintro ⟨hfull, hnull⟩
    have hwords : words string = entriesFrom [] string := by
      rw [words_eq_filter, List.filter_eq_self]
      exact fun e he => decide_eq_true fun hempty => hfull (hempty ▸ he)
    rw [hwords] at hcount hnull
    obtain ⟨s, a, hrun, hentries, hrest⟩ := hinside (by omega)
    obtain ⟨e, rest, hcons, -⟩ := @entriesFrom_cons [] string
    have hpos : 1 ≤ (entriesFrom [] string).length := by rw [hcons]; exact Nat.succ_pos _
    have hend : s.tokens.getWord (8 * (entriesFrom [] string).length) = some 0 := by
      rw [hentries.rest _ le_rfl, hrest _ hpos, hnull]
    refine ⟨s, hrun, fun j hj => ?_, by rw [hwords]; exact hend, ?_⟩
    · simp only [hwords] at hj ⊢
      obtain ⟨hword, block, hheap, htoken⟩ := hentries.token j hj
      have hmem : (entriesFrom [] string)[j] ∈ entriesFrom [] string := List.getElem_mem hj
      refine ⟨m.address j, block, hword, m.address_ne_zero j, hheap, htoken.string_eq ?_ ?_⟩
      · exact Nat.lt_succ_of_le (hlength' _ hmem)
      · exact fun hzero => hnul ((mem_of_mem_entriesFrom hmem hzero).resolve_left List.not_mem_nil)
    · rw [hwords]
      exact tokencount_eq hentries.size (by omega)
        (fun j hj => ⟨m.address j, (hentries.token j hj).1, m.address_ne_zero j⟩) hend

/-- Blocks full of `?`, and an array of zeros. -/
def sampleMallocs : Mallocs where
  array := ⟨40, fun _ => 0⟩
  block _ := ⟨25, fun _ => 63⟩
  address n := BitVec.ofNat 64 (4096 + 64 * (n % 5))
  array_size := rfl
  block_size _ := rfl
  address_ne_zero n hzero := by
    have hvalue := congrArg BitVec.toNat hzero
    rw [BitVec.toNat_ofNat, show (0 : Word).toNat = 0 from rfl] at hvalue
    omega
  address_injective i j hi hj heq := by
    have hvalue := congrArg BitVec.toNat heq
    rw [BitVec.toNat_ofNat, BitVec.toNat_ofNat] at hvalue
    omega

/-- `ls -l` with the newline that `gets` leaves. -/
theorem tokenize_ls :
    Tokenizes sampleMallocs [108, 115, 32, 45, 108, 10] :=
  (tokenize_iff sampleMallocs (by decide) (by decide) (by decide)).2
    ⟨by decide, by decide, by decide⟩

/-- `ls`, two spaces and `-l`: the second token is empty. -/
theorem not_tokenizes :
    ¬ ∀ (m : Mallocs) (string : List UInt8), (0 : UInt8) ∉ string → (words string).length ≤ 4 →
      (∀ w ∈ words string, w.length ≤ 24) → Tokenizes m string := by
  intro h
  obtain ⟨s, hrun, hholds⟩ := h sampleMallocs [108, 115, 32, 32, 45, 108] (by decide) (by decide)
    (by decide)
  obtain ⟨s', a, hrun', hentries, -⟩ := (tokenize_entries (m := sampleMallocs)
    (show ∀ e ∈ entriesFrom [] [108, 115, 32, 32, 45, 108], e.length ≤ 24 by decide)).1 (by decide)
  obtain rfl : s = s' := Option.some_inj.1 (hrun.symm.trans hrun')
  have hthird := (hentries.token 2 (by decide)).1
  exact sampleMallocs.address_ne_zero 2 (Option.some_inj.1 (hthird.symm.trans hholds.null))

end Libc

end OswpKernel
