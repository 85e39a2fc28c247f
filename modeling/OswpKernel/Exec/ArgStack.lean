import OswpKernel.Lib.Bytes
import OswpKernel.Lib.Tiling
import Mathlib.Data.List.Induction

/-!
# Argument stack — what `do_execvpe` hands to the new image (`process.c`)

`do_execvpe` copies the file name, the arguments and the environment into arrays of its own frame,
replaces the image of the process, and then builds the start of the user stack from its copies:
the strings of the environment right below the stack pointer, the strings of the arguments below
them, then the two NULL-terminated arrays of pointers, and at the bottom the three words the
program starts with.  The second and third cursor of the source recompute where the strings are.

Memory is bytes at addresses.  `none` is a loop over a string or an array that does not come to
its end while its `int` index lasts.
-/

namespace OswpKernel

namespace Exec

open Bytes Tiling

/-! ## Strings (`klibc.c`) -/

/-- An `int` index counts up to here. -/
def intRange : ℕ := 2 ^ 31

def kstrlengthFrom (m : Memory) (string : ℕ) : ℕ → ℕ → Option ℕ
  | 0, _ => none
  | fuel + 1, stringlen =>
      if m (string + stringlen) ≠ 0 then kstrlengthFrom m string fuel (stringlen + 1)
      else some stringlen

def kstrlength (m : Memory) (string : ℕ) : Option ℕ := kstrlengthFrom m string intRange 0

def kstrcopyFrom (string1 string2 : ℕ) : ℕ → ℕ → Memory → Option Memory
  | 0, _, _ => none
  | fuel + 1, i, m =>
      if m (string2 + i) ≠ 0 then
        kstrcopyFrom string1 string2 fuel (i + 1) (store m (string1 + i) (m (string2 + i)))
      else some (store m (string1 + i) 0)

def kstrcopy (m : Memory) (string1 string2 : ℕ) : Option Memory :=
  kstrcopyFrom string1 string2 intRange 0 m

/-! ## `do_execvpe` -/

/-- `filename[20]`, `args[5][40]` and `envs[5][40]` in the frame of `do_execvpe`. -/
structure Frame where
  filename : ℕ
  args : ℕ
  envs : ℕ

def Frame.blocks (f : Frame) : List (ℕ × ℕ) := [(f.filename, 20), (f.args, 200), (f.envs, 200)]

/-- `for (i = 0; argv[i] != NULL; i++)`: each string to its row; the count is returned. -/
def copyStrings (rows argv : ℕ) : ℕ → ℕ → Memory → Option (Memory × ℕ)
  | 0, _, _ => none
  | fuel + 1, i, m =>
      if readWord m (argv + 8 * i) ≠ 0 then do
        let m ← kstrcopy m (rows + 40 * i) (readWord m (argv + 8 * i))
        copyStrings rows argv fuel (i + 1) m
      else some (m, i)

/-- `for (i = envc - 1; i >= 0; i--)`: the strings of the rows go below `stack`, the last one
first. -/
def pushStrings (rows : ℕ) : ℕ → Memory → ℕ → Option (Memory × ℕ)
  | 0, m, stack => some (m, stack)
  | i + 1, m, stack => do
      let length ← kstrlength m (rows + 40 * i)
      let stack := stack - length - 1
      let m ← kstrcopy m stack (rows + 40 * i)
      pushStrings rows i m stack

/-- `for (i = envc; i >= 1; i--)`: `temp` goes down over the strings again, and is stored in the
word `envc - i + 1` words below `ursp`. -/
def pushPointers (rows ursp envc : ℕ) : ℕ → Memory → ℕ → Option (Memory × ℕ)
  | 0, m, temp => some (m, temp)
  | i + 1, m, temp => do
      let length ← kstrlength m (rows + 40 * i)
      let temp := temp - length - 1
      pushPointers rows ursp envc i (storeWord m (ursp - 8 * (envc - (i + 1) + 1)) temp) temp

/-- From `stack = (char *) currentthread->ursp` on. -/
def buildStack (f : Frame) (argc envc : ℕ) (m : Memory) (ursp : ℕ) : Option (Memory × ℕ) := do
  let (m, stack) ← pushStrings f.envs envc m ursp
  let argtemp := stack
  let (m, stack) ← pushStrings f.args argc m stack
  let temp := ursp
  let ursp := stack - 8
  let m := storeWord m ursp 0
  let (m, _) ← pushPointers f.envs ursp envc envc m temp
  let ursp := ursp - 8 * envc
  let envtemp := ursp
  let ursp := ursp - 8
  let m := storeWord m ursp 0
  let (m, _) ← pushPointers f.args ursp argc argc m argtemp
  let ursp := ursp - 8 * argc
  let m := storeWord m (ursp - 8) envtemp
  let m := storeWord m (ursp - 16) ursp
  let m := storeWord m (ursp - 24) argc
  return (m, ursp - 24)

/-- `do_execvpe` up to the switch to ring 3.  `image` is what `clear_vmas`, `clear_uptentries` and
`loadelf` make of the memory, and the stack pointer `loadelf` leaves. -/
def doExecvpe (f : Frame) (image : Memory → Memory × ℕ) (file argv envp : ℕ) (m : Memory) :
    Option (Memory × ℕ) := do
  let m ← kstrcopy m f.filename file
  let (m, argc) ← copyStrings f.args argv intRange 0 m
  let m := store m (f.args + 40 * argc) 0
  let (m, envc) ← copyStrings f.envs envp intRange 0 m
  let m := store m (f.envs + 40 * envc) 0
  let (m, ursp) := image m
  buildStack f argc envc m ursp

variable {m m' : Memory} {a b dst src rows : ℕ} {s : List UInt8} {ss args envs : List (List UInt8)}

/-! ## The string functions -/

theorem kstrlengthFrom_eq (h : IsString m a s) (fuel i : ℕ) (hi : i ≤ s.length)
    (hfuel : s.length < i + fuel) : kstrlengthFrom m a fuel i = some s.length := by
  induction fuel generalizing i with
  | zero => omega
  | succ fuel ih =>
      rw [kstrlengthFrom]
      rcases Nat.lt_or_eq_of_le hi with hlt | rfl
      · rw [if_pos (h.char_ne_zero hlt)]
        exact ih (i + 1) hlt (by omega)
      · rw [if_neg fun hne => hne h.terminator]

theorem kstrlength_eq (h : IsString m a s) (hlen : s.length < intRange) :
    kstrlength m a = some s.length :=
  kstrlengthFrom_eq h intRange 0 (Nat.zero_le _) (by omega)

/-- After `i` turns the first `i` characters are copied. -/
theorem kstrcopyFrom_eq (h : IsString m src s)
    (hapart : dst + (s.length + 1) ≤ src ∨ src + (s.length + 1) ≤ dst) (fuel i : ℕ)
    (hi : i ≤ s.length) (hfuel : s.length < i + fuel) :
    kstrcopyFrom dst src fuel i (write m dst (s.take i)) = some (write m dst (s ++ [0])) := by
  -- the copy lies apart from the source, so the characters still to be read are as they were
  have hsource : ∀ j k, j ≤ s.length → k ≤ s.length →
      write m dst (s.take j) (src + k) = m (src + k) := by
    intro j k hj hk
    have hlen : (s.take j).length = j := List.length_take_of_le hj
    rcases hapart with hleft | hright
    · apply write_above
      omega
    · apply write_below
      omega
  induction fuel generalizing i with
  | zero => omega
  | succ fuel ih =>
      have hlen : (s.take i).length = i := List.length_take_of_le hi
      have hstore : ∀ c, store (write m dst (s.take i)) (dst + i) c =
          write m dst (s.take i ++ [c]) := by
        intro c
        rw [store, ← write_after, hlen]
      rw [kstrcopyFrom, hsource i i hi hi]
      -- before the NUL the loop goes on, at the NUL it stores it and ends
      rcases Nat.lt_or_eq_of_le hi with hlt | rfl
      · rw [if_pos (h.char_ne_zero hlt), h.char hlt, hstore, List.take_append_getElem hlt]
        exact ih (i + 1) hlt (by omega)
      · rw [if_neg fun hne => hne h.terminator, hstore, List.take_length]

theorem kstrcopy_eq (h : IsString m src s) (hlen : s.length < intRange)
    (hapart : dst + (s.length + 1) ≤ src ∨ src + (s.length + 1) ≤ dst) :
    kstrcopy m dst src = some (write m dst (s ++ [0])) := by
  have hcopy := kstrcopyFrom_eq h hapart intRange 0 (Nat.zero_le _) (by omega)
  rwa [List.take_zero, write_nil] at hcopy

/-! ## The strings on the stack -/

/-- The strings one after the other, each with its NUL. -/
def flat (ss : List (List UInt8)) : List UInt8 := ss.flatMap fun s => s ++ [0]

/-- Where the strings of `flat` start. -/
def starts : ℕ → List (List UInt8) → List ℕ
  | _, [] => []
  | a, s :: ss => a :: starts (a + (s.length + 1)) ss

/-- Words one after the other. -/
def wordsBytes (ws : List ℕ) : List UInt8 := ws.flatMap (toBytes 8)

/-- The strings are in consecutive rows of 40 characters, with their NULs. -/
def Rows (m : Memory) : ℕ → List (List UInt8) → Prop
  | _, [] => True
  | row, s :: ss => (IsString m row s ∧ s.length ≤ 39) ∧ Rows m (row + 40) ss

@[simp] theorem flat_append (ss ts : List (List UInt8)) : flat (ss ++ ts) = flat ss ++ flat ts :=
  List.flatMap_append

theorem flat_cons (s : List UInt8) (ss : List (List UInt8)) :
    flat (s :: ss) = (s ++ [0]) ++ flat ss :=
  List.flatMap_cons

theorem length_flat_cons (s : List UInt8) (ss : List (List UInt8)) :
    (flat (s :: ss)).length = s.length + 1 + (flat ss).length := by
  rw [flat_cons, List.length_append, List.length_append, List.length_singleton]

@[simp] theorem flat_singleton (s : List UInt8) : flat [s] = s ++ [0] := by simp [flat]

theorem starts_append (a : ℕ) (ss ts : List (List UInt8)) :
    starts a (ss ++ ts) = starts a ss ++ starts (a + (flat ss).length) ts := by
  induction ss generalizing a with
  | nil => simp [starts, flat]
  | cons s ss ih =>
      rw [List.cons_append, starts, ih, starts, List.cons_append, length_flat_cons, Nat.add_assoc]

@[simp] theorem length_starts (a : ℕ) (ss : List (List UInt8)) :
    (starts a ss).length = ss.length := by
  induction ss generalizing a with
  | nil => rfl
  | cons s ss ih => rw [starts, List.length_cons, List.length_cons, ih]

@[simp] theorem wordsBytes_append (vs ws : List ℕ) :
    wordsBytes (vs ++ ws) = wordsBytes vs ++ wordsBytes ws :=
  List.flatMap_append

@[simp] theorem wordsBytes_singleton (w : ℕ) : wordsBytes [w] = toBytes 8 w := by
  simp [wordsBytes]

@[simp] theorem length_wordsBytes (ws : List ℕ) : (wordsBytes ws).length = 8 * ws.length := by
  induction ws with
  | nil => rfl
  | cons w ws ih =>
      rw [wordsBytes, List.flatMap_cons, List.length_append, length_toBytes]
      change 8 + (wordsBytes ws).length = _
      rw [ih, List.length_cons]
      omega

theorem rows_append {ss ts : List (List UInt8)} :
    Rows m rows (ss ++ ts) ↔ Rows m rows ss ∧ Rows m (rows + 40 * ss.length) ts := by
  induction ss generalizing rows with
  | nil => simp [Rows]
  | cons s ss ih =>
      have hrow : rows + 40 + 40 * ss.length = rows + 40 * (ss.length + 1) := by omega
      rw [List.cons_append, Rows, Rows, ih, List.length_cons, hrow]
      exact and_assoc.symm

theorem Rows.congr (h : Rows m rows ss)
    (hsame : ∀ x, rows ≤ x → x < rows + 40 * ss.length → m' x = m x) : Rows m' rows ss := by
  induction ss generalizing rows with
  | nil => trivial
  | cons s ss ih =>
      obtain ⟨⟨hs, hlen⟩, hrest⟩ := h
      rw [List.length_cons] at hsame
      refine ⟨⟨hs.congr fun x hx hx' => hsame x hx (by omega), hlen⟩, ih hrest ?_⟩
      intro x hx hx'
      exact hsame x (by omega) (by omega)

/-- Writing elsewhere leaves the rows alone. -/
theorem Rows.write {xs : List UInt8} (h : Rows m rows ss)
    (hapart : Apart (rows, 40 * ss.length) (a, xs.length)) : Rows (write m a xs) rows ss := by
  refine h.congr fun x hx hx' => ?_
  rcases hapart with hleft | hright
  · exact write_below (by simp only at hleft; omega)
  · exact write_above (by simp only at hright; omega)

/-- The strings of the rows end up below the stack pointer, in their order. -/
theorem pushStrings_eq (stack : ℕ) (h : Rows m rows ss) (hroom : (flat ss).length ≤ stack)
    (hapart : Apart (rows, 40 * ss.length) (stack - (flat ss).length, (flat ss).length)) :
    pushStrings rows ss.length m stack =
      some (write m (stack - (flat ss).length) (flat ss), stack - (flat ss).length) := by
  induction ss using List.reverseRecOn generalizing m stack with
  | nil => simp [pushStrings, flat]
  | append_singleton ss s ih =>
      obtain ⟨hrows, ⟨hs, hlen⟩, -⟩ := rows_append.1 h
      have hsize : (flat (ss ++ [s])).length = (flat ss).length + (s.length + 1) := by simp
      rw [hsize] at hroom hapart ⊢
      have hcount : (ss ++ [s]).length = ss.length + 1 := by simp
      rw [hcount] at hapart ⊢
      have hrange : s.length < intRange := lt_of_le_of_lt hlen (by decide)
      -- the last row goes first, right below the stack pointer
      have hcopy : kstrcopy m (stack - s.length - 1) (rows + 40 * ss.length) =
          some (Bytes.write m (stack - s.length - 1) (s ++ [0])) := by
        apply kstrcopy_eq hs hrange
        simp only [Apart] at hapart
        omega
      -- what it has written lies below the rows that are still to come
      have hrows' : Rows (Bytes.write m (stack - s.length - 1) (s ++ [0])) rows ss := by
        apply hrows.write
        simp only [Apart, List.length_append, List.length_singleton] at hapart ⊢
        omega
      have hbelow : stack - s.length - 1 - (flat ss).length =
          stack - ((flat ss).length + (s.length + 1)) := by omega
      rw [pushStrings, kstrlength_eq hs hrange]
      change (kstrcopy m (stack - s.length - 1) (rows + 40 * ss.length)).bind _ = _
      rw [hcopy]
      change pushStrings rows ss.length (Bytes.write m (stack - s.length - 1) (s ++ [0]))
        (stack - s.length - 1) = _
      rw [ih _ hrows' (by omega), hbelow, write_under (by omega), flat_append, flat_singleton]
      simp only [Apart] at hapart ⊢
      omega

/-- The cursor goes down over the strings again, and the words hold where they start. -/
theorem pushPointers_eq {ursp envc : ℕ} (temp : ℕ) (h : Rows m rows ss) (hcount : ss.length ≤ envc)
    (hroom : 8 * envc ≤ ursp) (hapart : Apart (rows, 40 * ss.length) (ursp - 8 * envc, 8 * envc))
    (htemp : (flat ss).length ≤ temp) :
    pushPointers rows ursp envc ss.length m temp =
      some (write m (ursp - 8 * envc) (wordsBytes (starts (temp - (flat ss).length) ss)),
        temp - (flat ss).length) := by
  induction ss using List.reverseRecOn generalizing m temp with
  | nil => simp [pushPointers, starts, flat, wordsBytes]
  | append_singleton ss s ih =>
      obtain ⟨hrows, ⟨hs, hlen⟩, -⟩ := rows_append.1 h
      have hsize : (flat (ss ++ [s])).length = (flat ss).length + (s.length + 1) := by simp
      have hlength : (ss ++ [s]).length = ss.length + 1 := by simp
      rw [hlength] at hcount hapart ⊢
      rw [hsize] at htemp ⊢
      have hrange : s.length < intRange := lt_of_le_of_lt hlen (by decide)
      -- the word of string `ss.length` sits above those of the strings before it
      have hword : ursp - 8 * (envc - (ss.length + 1) + 1) =
          ursp - 8 * envc + 8 * ss.length := by omega
      have hbelow : temp - s.length - 1 - (flat ss).length =
          temp - ((flat ss).length + (s.length + 1)) := by omega
      have hstart : temp - s.length - 1 =
          temp - ((flat ss).length + (s.length + 1)) + (flat ss).length := by omega
      have hrows' : Rows (storeWord m (ursp - 8 * envc + 8 * ss.length) (temp - s.length - 1))
          rows ss := by
        apply hrows.write
        simp only [Apart, length_toBytes] at hapart ⊢
        omega
      rw [pushPointers, kstrlength_eq hs hrange]
      change pushPointers rows ursp envc ss.length
        (storeWord m (ursp - 8 * (envc - (ss.length + 1) + 1)) (temp - s.length - 1))
        (temp - s.length - 1) = _
      rw [hword, ih _ hrows' (by omega) (by simp only [Apart] at hapart ⊢; omega) (by omega),
        hbelow,
        storeWord, write_under (by simp), starts_append, wordsBytes_append, starts, starts,
        wordsBytes_singleton, ← hstart]

/-! ## The stack as one block -/

/-- The start of the new stack, when the strings of the environment end at `top`: the three words,
the two arrays, and the strings. -/
def stackWords (top : ℕ) (args envs : List (List UInt8)) : List ℕ :=
  let envStart := top - (flat envs).length
  let argStart := envStart - (flat args).length
  let envp := argStart - 8 - 8 * envs.length
  let argv := envp - 8 - 8 * args.length
  [args.length, argv, envp] ++ starts argStart args ++ [0] ++ starts envStart envs ++ [0]

def stackBytes (top : ℕ) (args envs : List (List UInt8)) : List UInt8 :=
  wordsBytes (stackWords top args envs) ++ flat args ++ flat envs

/-- How much of the stack is used. -/
def stackSize (args envs : List (List UInt8)) : ℕ :=
  24 + 8 * (args.length + 1) + 8 * (envs.length + 1) + (flat args).length + (flat envs).length

/-- The strings of a frame array, which lies apart from the stack. -/
structure Copied (m : Memory) (rows low top : ℕ) (ss : List (List UInt8)) : Prop where
  strings : Rows m rows ss
  apart : Apart (rows, 40 * ss.length) (low, top - low)

theorem Copied.write {low top : ℕ} {xs : List UInt8} (h : Copied m rows low top ss) (hlow : low ≤ a)
    (htop : a + xs.length ≤ top) : Copied (Bytes.write m a xs) rows low top ss where
  strings := by
    apply h.strings.write
    have hapart := h.apart
    simp only [Apart] at hapart ⊢
    omega
  apart := h.apart

/-- A part of the stack is apart from the frame array, too. -/
theorem Copied.apart_block {low top n : ℕ} (h : Copied m rows low top ss) (hlow : low ≤ a)
    (htop : a + n ≤ top) : Apart (rows, 40 * ss.length) (a, n) := by
  have hapart := h.apart
  simp only [Apart] at hapart ⊢
  omega

/-- `buildStack` writes the block below the stack pointer and nothing else. -/
theorem buildStack_eq {f : Frame} {low top : ℕ} (hargs : Copied m f.args low top args)
    (henvs : Copied m f.envs low top envs) (hroom : low + stackSize args envs ≤ top) :
    buildStack f args.length envs.length m top =
      some (write m (top - stackSize args envs) (stackBytes top args envs),
        top - stackSize args envs) := by
  have hsize : stackSize args envs = 24 + 8 * (args.length + 1) + 8 * (envs.length + 1) +
      (flat args).length + (flat envs).length := rfl
  generalize hE : (flat envs).length = E at hsize
  generalize hA : (flat args).length = A at hsize
  -- the memory after each loop and each store of a NULL
  let m₁ : Memory := write m (top - E) (flat envs)
  let m₂ : Memory := write m₁ (top - E - A) (flat args)
  let m₃ : Memory := storeWord m₂ (top - E - A - 8) 0
  let envp : ℕ := top - E - A - 8 - 8 * envs.length
  let m₄ : Memory := write m₃ envp (wordsBytes (starts (top - E) envs))
  let m₅ : Memory := storeWord m₄ (envp - 8) 0
  let argv : ℕ := envp - 8 - 8 * args.length
  let m₆ : Memory := write m₅ argv (wordsBytes (starts (top - E - A) args))
  have henvp : envp = top - E - A - 8 - 8 * envs.length := rfl
  have hargv : argv = envp - 8 - 8 * args.length := rfl
  have hargs₁ : Copied m₁ f.args low top args := hargs.write (by omega) (by omega)
  have henvs₃ : Copied m₃ f.envs low top envs :=
    ((henvs.write (by omega) (by omega)).write (by omega) (by omega)).write (by omega)
      (by rw [length_toBytes]; omega)
  have hargs₅ : Copied m₅ f.args low top args :=
    (((hargs₁.write (by omega) (by omega)).write (by omega)
      (by rw [length_toBytes]; omega)).write (by omega)
      (by rw [length_wordsBytes, length_starts]; omega)).write (by omega)
      (by rw [length_toBytes]; omega)
  have hpush₁ : pushStrings f.envs envs.length m top = some (m₁, top - E) := by
    rw [pushStrings_eq top henvs.strings (by omega)
      (henvs.apart_block (by omega) (by omega)), hE]
  have hpush₂ : pushStrings f.args args.length m₁ (top - E) = some (m₂, top - E - A) := by
    rw [pushStrings_eq (top - E) hargs₁.strings (by omega)
      (hargs₁.apart_block (by omega) (by omega)), hA]
  have hpoint₁ : pushPointers f.envs (top - E - A - 8) envs.length envs.length m₃ top =
      some (m₄, top - E) := by
    rw [pushPointers_eq top henvs₃.strings (Nat.le_refl _) (by omega)
      (henvs₃.apart_block (by omega) (by omega)) (by omega), hE]
  have hpoint₂ : pushPointers f.args (envp - 8) args.length args.length m₅ (top - E) =
      some (m₆, top - E - A) := by
    rw [pushPointers_eq (top - E) hargs₅.strings (Nat.le_refl _) (by omega)
      (hargs₅.apart_block (by omega) (by omega)) (by omega), hA]
  have hrun : buildStack f args.length envs.length m top =
      some (storeWord (storeWord (storeWord m₆ (argv - 8) envp) (argv - 16) argv) (argv - 24)
        args.length, argv - 24) := by
    rw [buildStack, hpush₁]
    change (pushStrings f.args args.length m₁ (top - E)).bind _ = _
    rw [hpush₂]
    change (pushPointers f.envs (top - E - A - 8) envs.length envs.length m₃ top).bind _ = _
    rw [hpoint₁]
    change (pushPointers f.args (envp - 8) args.length args.length m₅ (top - E)).bind _ = _
    rw [hpoint₂]
    rfl
  -- every write ends where the one before it starts
  have hlow : argv - 24 = top - stackSize args envs := by omega
  have hwords : stackBytes top args envs = toBytes 8 args.length ++ (toBytes 8 argv ++
      (toBytes 8 envp ++ (wordsBytes (starts (top - E - A) args) ++ (toBytes 8 0 ++
        (wordsBytes (starts (top - E) envs) ++ (toBytes 8 0 ++ (flat args ++ flat envs))))))) := by
    simp only [stackBytes, stackWords, hE, hA]
    simp [wordsBytes, hargv, henvp]
  rw [hrun, hlow, ← hlow, hwords]
  congr 2
  simp only [m₆, m₅, m₄, m₃, m₂, m₁, storeWord]
  rw [write_under (a := top - E - A) (by omega),
    write_under (a := top - E - A - 8) (by simp; omega),
    write_under (a := envp) (by simp; omega), write_under (a := envp - 8) (by simp; omega),
    write_under (a := argv) (by simp; omega), write_under (a := argv - 8) (by simp; omega),
    write_under (a := argv - 16) (by simp; omega), write_under (a := argv - 24) (by simp; omega)]

/-! ## Argument arrays -/

/-- At `array` are the non-NULL pointers `addrs` and a NULL; they point to the strings. -/
inductive IsVector (m : Memory) : ℕ → List ℕ → List (List UInt8) → Prop
  | nil {array : ℕ} : readWord m array = 0 → IsVector m array [] []
  | cons {array addr : ℕ} {addrs : List ℕ} {s : List UInt8} {ss : List (List UInt8)} :
      readWord m array = addr → addr ≠ 0 → IsString m addr s → IsVector m (array + 8) addrs ss →
      IsVector m array (addr :: addrs) (s :: ss)

/-- The blocks an argument array occupies: the array itself, and its strings. -/
def vectorBlocks (array : ℕ) (addrs : List ℕ) (ss : List (List UInt8)) : List (ℕ × ℕ) :=
  (array, 8 * (ss.length + 1)) :: List.zipWith (fun addr s => (addr, s.length + 1)) addrs ss

/-- Strings laid end to end, with their pointers in an array behind which a NULL follows. -/
theorem isVector_of_holds {array start : ℕ}
    (hwords : Holds m array (wordsBytes (starts start ss ++ [0])))
    (hstrings : Holds m start (flat ss)) (hnonzero : ∀ s ∈ ss, ∀ c ∈ s, c ≠ 0) (hpos : 0 < start)
    (hlast : start + (flat ss).length ≤ 2 ^ 64) : IsVector m array (starts start ss) ss := by
  induction ss generalizing array start with
  | nil =>
      rw [starts, List.nil_append, wordsBytes_singleton] at hwords
      exact IsVector.nil (hwords.readWord (by decide))
  | cons s ss ih =>
      rw [length_flat_cons] at hlast
      rw [flat_cons, holds_append] at hstrings
      rw [starts, List.cons_append] at hwords
      -- the first word is the pointer to the first string; the rest of the words are the array
      -- behind it
      have hwords' : Holds m array
          (toBytes 8 start ++ wordsBytes (starts (start + (s.length + 1)) ss ++ [0])) := hwords
      rw [holds_append, length_toBytes] at hwords'
      have hnonzero' : ∀ t ∈ ss, ∀ c ∈ t, c ≠ 0 := fun t ht =>
        hnonzero t (List.mem_cons_of_mem _ ht)
      refine IsVector.cons (hwords'.1.readWord (by omega)) (Nat.ne_of_gt hpos)
        ⟨hstrings.1, hnonzero s List.mem_cons_self⟩
        (ih hwords'.2 ?_ hnonzero' (by omega) (by omega))
      have hrest := hstrings.2
      rwa [List.length_append, List.length_singleton] at hrest

/-- What lies apart from the blocks of an array lies apart from those of the array behind its first
entry. -/
theorem apart_tail {array addr low n lower k : ℕ} {addrs : List ℕ}
    (hapart : ∀ block ∈ vectorBlocks array (addr :: addrs) (s :: ss), Apart block (low, n))
    (hlow : low ≤ lower) (htop : lower + k ≤ low + n) :
    ∀ block ∈ vectorBlocks (array + 8) addrs ss, Apart block (lower, k) := by
  rintro block (- | ⟨-, hblock⟩)
  · have harray := hapart _ List.mem_cons_self
    simp only [Apart, List.length_cons] at harray ⊢
    omega
  · have hstring := hapart block (List.mem_cons_of_mem _ (List.mem_cons_of_mem _ hblock))
    simp only [Apart] at hstring ⊢
    omega

/-- An argument array is still there in a memory that agrees on its blocks. -/
theorem IsVector.congr {array : ℕ} {addrs : List ℕ} (h : IsVector m array addrs ss)
    (hsame : ∀ block ∈ vectorBlocks array addrs ss, ∀ x, block.1 ≤ x → x < block.1 + block.2 →
      m' x = m x) : IsVector m' array addrs ss := by
  induction h with
  | @nil array hnull =>
      refine IsVector.nil ?_
      rw [readWord_congr (hsame _ List.mem_cons_self), hnull]
  | @cons array addr addrs s ss hentry hne hs _ ih =>
      have harray : ∀ x, array ≤ x → x < array + 8 * (ss.length + 2) → m' x = m x :=
        hsame _ List.mem_cons_self
      have hstring : ∀ x, addr ≤ x → x < addr + (s.length + 1) → m' x = m x :=
        hsame (addr, s.length + 1) (by simp [vectorBlocks])
      refine IsVector.cons ?_ hne (hs.congr hstring) (ih ?_)
      · rw [readWord_congr fun x hx hx' => harray x hx (by omega), hentry]
      · rintro block (- | ⟨-, hblock⟩) x hx hx'
        · exact harray x (by simp only at hx; omega) (by simp only at hx'; omega)
        · exact hsame block (List.mem_cons_of_mem _ (List.mem_cons_of_mem _ hblock)) x hx hx'

/-- An argument array is still there after writes to a region it lies apart from. -/
theorem IsVector.frame {array low n : ℕ} {addrs : List ℕ} (h : IsVector m array addrs ss)
    (hapart : ∀ block ∈ vectorBlocks array addrs ss, Apart block (low, n))
    (hsame : ∀ x, x < low ∨ low + n ≤ x → m' x = m x) : IsVector m' array addrs ss := by
  refine h.congr fun block hblock x hx hx' => hsame x ?_
  have happart := hapart block hblock
  simp only [Apart] at happart
  omega

/-- The strings of an argument array go to the rows; nothing but the rows is written. -/
theorem copyStrings_eq {argv i fuel : ℕ} {addrs : List ℕ} (h : IsVector m (argv + 8 * i) addrs ss)
    (hlen : ∀ s ∈ ss, s.length ≤ 39) (hfuel : ss.length < fuel)
    (hapart : ∀ block ∈ vectorBlocks (argv + 8 * i) addrs ss,
      Apart block (rows + 40 * i, 40 * ss.length)) :
    ∃ m', copyStrings rows argv fuel i m = some (m', i + ss.length) ∧
      Rows m' (rows + 40 * i) ss ∧
      ∀ x, x < rows + 40 * i ∨ rows + 40 * i + 40 * ss.length ≤ x → m' x = m x := by
  induction ss generalizing m i addrs fuel with
  | nil =>
      cases h with
      | nil hnull =>
          obtain ⟨fuel, rfl⟩ := Nat.exists_eq_add_of_lt hfuel
          refine ⟨m, ?_, trivial, fun _ _ => rfl⟩
          rw [copyStrings, if_neg fun hne => hne hnull]
          rfl
  | cons s ss ih =>
      cases h with
      | @cons _ addr addrs _ _ hentry hne hs hrest =>
          obtain ⟨fuel, rfl⟩ := Nat.exists_eq_add_of_lt hfuel
          rw [List.length_cons] at hapart ⊢
          have hs39 : s.length ≤ 39 := hlen s List.mem_cons_self
          have harray : Apart (argv + 8 * i, 8 * (ss.length + 2)) (rows + 40 * i,
              40 * (ss.length + 1)) := hapart _ List.mem_cons_self
          have hstring : Apart (addr, s.length + 1) (rows + 40 * i, 40 * (ss.length + 1)) :=
            hapart _ (by simp [vectorBlocks])
          simp only [Apart] at harray hstring
          let m₁ : Memory := write m (rows + 40 * i) (s ++ [0])
          have hcopy : kstrcopy m (rows + 40 * i) addr = some m₁ := by
            apply kstrcopy_eq hs
            · exact lt_of_le_of_lt hs39 (by decide)
            · omega
          have hsame : ∀ x, x < rows + 40 * i ∨ rows + 40 * i + 40 ≤ x → m₁ x = m x := by
            rintro x (hx | hx)
            · exact write_below hx
            · apply write_above
              rw [List.length_append, List.length_singleton]
              omega
          -- the rest of the array, in the memory with this row filled
          have hrest' : IsVector m₁ (argv + 8 * (i + 1)) addrs ss :=
            hrest.frame (apart_tail hapart (Nat.le_refl _) (by omega)) hsame
          have hrow : rows + 40 * (i + 1) = rows + 40 * i + 40 := by omega
          have hfuel' : ss.length < ss.length + 1 + fuel := by omega
          obtain ⟨m', hrun, hrows, hframe⟩ := ih hrest'
            (fun t ht => hlen t (List.mem_cons_of_mem _ ht)) hfuel'
            (apart_tail hapart (by omega) (by omega))
          rw [hrow] at hrows hframe
          refine ⟨m', ?_, ⟨⟨?_, hs39⟩, hrows⟩, fun x hx => ?_⟩
          · have hentry' : readWord m (argv + 8 * i) ≠ 0 := by rw [hentry]; exact hne
            rw [copyStrings, if_pos hentry', hentry, hcopy]
            change copyStrings rows argv (ss.length + 1 + fuel) (i + 1) m₁ = _
            rw [hrun, Nat.add_assoc i 1, Nat.add_comm 1]
          · have hrow' : IsString m₁ (rows + 40 * i) s := ⟨holds_write, hs.nonzero⟩
            exact hrow'.congr fun x hx hx' => hframe x (by omega)
          · rw [hframe x (by omega), hsame x (by omega)]

/-! ## What the new image finds -/

/-- At `ursp` are the number of arguments, the address of their array and the address of the array
of the environment; these words, the arrays and the strings lie between `low` and `top`, and no
two of them overlap. -/
structure Decodes (m : Memory) (low top ursp : ℕ) (args envs : List (List UInt8)) : Prop where
  argc : readWord m ursp = args.length
  vectors : ∃ argAddrs envAddrs,
    IsVector m (readWord m (ursp + 8)) argAddrs args ∧
    IsVector m (readWord m (ursp + 16)) envAddrs envs ∧
    (∀ block ∈ (ursp, 24) :: (vectorBlocks (readWord m (ursp + 8)) argAddrs args ++
        vectorBlocks (readWord m (ursp + 16)) envAddrs envs),
      low ≤ block.1 ∧ block.1 + block.2 ≤ top) ∧
    ((ursp, 24) :: (vectorBlocks (readWord m (ursp + 8)) argAddrs args ++
      vectorBlocks (readWord m (ursp + 16)) envAddrs envs)).Pairwise Apart

theorem length_flat (ss : List (List UInt8)) :
    (flat ss).length = (ss.map fun s => s.length + 1).sum := by
  induction ss with
  | nil => rfl
  | cons s ss ih => rw [length_flat_cons, ih, List.map_cons, List.sum_cons]

theorem zipWith_starts (a : ℕ) (ss : List (List UInt8)) :
    List.zipWith (fun addr (s : List UInt8) => (addr, s.length + 1)) (starts a ss) ss =
      layout a (ss.map fun s => s.length + 1) := by
  induction ss generalizing a with
  | nil => rfl
  | cons s ss ih => rw [starts, List.zipWith_cons_cons, ih, List.map_cons, layout]

/-- The block below the stack pointer decodes to the strings it was made of. -/
theorem decodes_of_holds {low top : ℕ} (hroom : low + stackSize args envs ≤ top)
    (htop : top ≤ 2 ^ 64) (hargs : ∀ s ∈ args, ∀ c ∈ s, c ≠ 0) (henvs : ∀ s ∈ envs, ∀ c ∈ s, c ≠ 0)
    (h : Holds m (top - stackSize args envs) (stackBytes top args envs)) :
    Decodes m low top (top - stackSize args envs) args envs := by
  have hsize : stackSize args envs = 24 + 8 * (args.length + 1) + 8 * (envs.length + 1) +
      (flat args).length + (flat envs).length := rfl
  generalize hE : (flat envs).length = E at hsize
  generalize hA : (flat args).length = A at hsize
  generalize hursp : top - stackSize args envs = ursp at h
  have hargv : top - E - A - 8 - 8 * envs.length - 8 - 8 * args.length = ursp + 24 := by omega
  have henvp : top - E - A - 8 - 8 * envs.length = ursp + 24 + 8 * (args.length + 1) := by omega
  -- the block, part by part
  have hparts : stackBytes top args envs = toBytes 8 args.length ++ (toBytes 8 (ursp + 24) ++
      (toBytes 8 (ursp + 24 + 8 * (args.length + 1)) ++
        (wordsBytes (starts (top - E - A) args ++ [0]) ++
          (wordsBytes (starts (top - E) envs ++ [0]) ++ (flat args ++ flat envs))))) := by
    rw [← henvp, ← hargv]
    simp only [stackBytes, stackWords, hE, hA]
    simp [wordsBytes]
  rw [hparts, holds_append, holds_append, holds_append, holds_append, holds_append,
    holds_append] at h
  simp only [length_toBytes, length_wordsBytes, List.length_append, length_starts,
    List.length_singleton, hA] at h
  obtain ⟨hargc, hargvw, henvpw, hargw, henvw, hargs', henvs'⟩ := h
  have hargStart : ursp + 8 + 8 + 8 + 8 * (args.length + 1) + 8 * (envs.length + 1) =
      top - E - A := by omega
  have henvStart : top - E - A + A = top - E := by omega
  rw [hargStart] at hargs' henvs'
  rw [henvStart] at henvs'
  have hreadArgv : readWord m (ursp + 8) = ursp + 24 := hargvw.readWord (by omega)
  have hreadEnvp : readWord m (ursp + 16) = ursp + 24 + 8 * (args.length + 1) :=
    henvpw.readWord (by omega)
  have hvectorArgs : IsVector m (ursp + 24) (starts (top - E - A) args) args :=
    isVector_of_holds hargw hargs' hargs (by omega) (by omega)
  have hvectorEnvs : IsVector m (ursp + 24 + 8 * (args.length + 1)) (starts (top - E) envs) envs :=
    isVector_of_holds henvw henvs' henvs (by omega) (by omega)
  -- the blocks are laid end to end, in another order
  have hlayout : ((ursp, 24) :: (vectorBlocks (ursp + 24) (starts (top - E - A) args) args ++
      vectorBlocks (ursp + 24 + 8 * (args.length + 1)) (starts (top - E) envs) envs)).Perm
      (layout ursp ([24, 8 * (args.length + 1), 8 * (envs.length + 1)] ++
        args.map (fun s => s.length + 1) ++ envs.map fun s => s.length + 1)) := by
    have hafter : ursp + 24 + 8 * (args.length + 1) + 8 * (envs.length + 1) = top - E - A := by
      omega
    rw [List.append_assoc, List.cons_append, List.cons_append, List.cons_append, List.nil_append,
      layout, layout, layout, hafter, layout_append, ← length_flat, hA, henvStart, ← zipWith_starts,
      ← zipWith_starts, vectorBlocks, vectorBlocks, List.cons_append]
    exact (List.perm_middle.cons _).cons _
  refine ⟨hargc.readWord (by omega), _, _, hreadArgv ▸ hvectorArgs, hreadEnvp ▸ hvectorEnvs, ?_, ?_⟩
  · rw [hreadArgv, hreadEnvp]
    intro block hblock
    have hinside := mem_layout (hlayout.mem_iff.1 hblock)
    simp only [List.sum_append, List.sum_cons, List.sum_nil, ← length_flat, hA, hE] at hinside
    omega
  · rw [hreadArgv, hreadEnvp]
    exact (hlayout.pairwise_iff Apart.symm).2 (layout_apart _ _)

/-! ## The call -/

/-- An argument array that fits the kernel's copies and lies apart from the frame. -/
structure Passed (f : Frame) (m : Memory) (array : ℕ) (addrs : List ℕ) (ss : List (List UInt8)) :
    Prop where
  vector : IsVector m array addrs ss
  count : ss.length ≤ 4
  short : ∀ s ∈ ss, s.length ≤ 39
  apart : ∀ block ∈ vectorBlocks array addrs ss, ∀ b ∈ f.blocks, Apart block b

/-- A file name that fits the kernel's copy and lies apart from the frame. -/
structure Named (f : Frame) (m : Memory) (file : ℕ) (name : List UInt8) : Prop where
  string : IsString m file name
  short : name.length ≤ 19
  apart : ∀ b ∈ f.blocks, Apart (file, name.length + 1) b

/-- What is used of `clear_vmas`, `clear_uptentries` and `loadelf`, when the frame holds the file
name: they leave the frame alone, and the stack pointer is `loadelf`'s, `stack + 4087` in the page
that is the new stack. -/
structure ReplacesImage (f : Frame) (image : Memory → Memory × ℕ) (name : List UInt8)
    (page : ℕ) : Prop where
  frame : ∀ m, IsString m f.filename name →
    ∀ b ∈ f.blocks, ∀ x, b.1 ≤ x → x < b.1 + b.2 → (image m).1 x = m x
  ursp : ∀ m, IsString m f.filename name → (image m).2 = page + 4087
  apart : ∀ b ∈ f.blocks, Apart b (page, 4096)
  top : page + 4096 ≤ 2 ^ 64

theorem IsVector.nonzero {array : ℕ} {addrs : List ℕ} (h : IsVector m array addrs ss) :
    ∀ s ∈ ss, ∀ c ∈ s, c ≠ 0 := by
  induction h with
  | nil _ => simp
  | cons _ _ hs _ ih =>
      rintro t (- | ⟨-, ht⟩)
      · exact hs.nonzero
      · exact ih t ht

theorem length_flat_le (h : ∀ s ∈ ss, s.length ≤ 39) : (flat ss).length ≤ 40 * ss.length := by
  induction ss with
  | nil => simp [flat]
  | cons s ss ih =>
      have hs := h s List.mem_cons_self
      have hrest := ih fun t ht => h t (List.mem_cons_of_mem _ ht)
      rw [length_flat_cons, List.length_cons]
      omega

/-- One array of the caller goes to one array of the frame, with a NUL behind the last string:
`rows` is `args` or `envs`, and what was written before is part of the frame. -/
theorem copyStrings_frame {f : Frame} {array : ℕ} {addrs : List ℕ}
    (h : Passed f m array addrs ss) (hrows : (rows, 200) ∈ f.blocks)
    (hbefore : ∀ x, (∀ b ∈ f.blocks, x < b.1 ∨ b.1 + b.2 ≤ x) → m' x = m x) :
    ∃ m'', copyStrings rows array intRange 0 m' = some (m'', ss.length) ∧
      Rows (store m'' (rows + 40 * ss.length) 0) rows ss ∧
      ∀ x, x < rows ∨ rows + 200 ≤ x → store m'' (rows + 40 * ss.length) 0 x = m' x := by
  have hcount := h.count
  -- the caller's array lies apart from the frame, so the writes to the frame have not touched it
  have hvector : IsVector m' (array + 8 * 0) addrs ss := by
    refine h.vector.congr fun block hblock x hx hx' => hbefore x fun b hb => ?_
    have hapart := h.apart block hblock b hb
    simp only [Apart] at hapart
    omega
  have hfuel : ss.length < intRange := lt_of_le_of_lt hcount (by decide)
  -- nor will the writes to these rows
  have hrowsApart : ∀ block ∈ vectorBlocks (array + 8 * 0) addrs ss,
      Apart block (rows + 40 * 0, 40 * ss.length) := by
    intro block hblock
    have hapart := h.apart block hblock _ hrows
    simp only [Apart] at hapart ⊢
    omega
  obtain ⟨m'', hrun, hstrings, hframe⟩ := copyStrings_eq hvector h.short hfuel hrowsApart
  refine ⟨m'', by rw [hrun, Nat.zero_add], ?_, fun x hx => ?_⟩
  · apply hstrings.write
    left
    exact Nat.le_refl _
  · rw [← hframe x (by omega)]
    rcases hx with hx | hx
    · exact write_below (by omega)
    · exact write_above (by simp only [List.length_singleton]; omega)

/-- The call, when its three copies are known. -/
theorem doExecvpe_eq {f : Frame} {file argv envp argc envc : ℕ} {m₁ m₂ m₃ : Memory}
    (image : Memory → Memory × ℕ) (hname : kstrcopy m f.filename file = some m₁)
    (hargs : copyStrings f.args argv intRange 0 m₁ = some (m₂, argc))
    (henvs : copyStrings f.envs envp intRange 0 (store m₂ (f.args + 40 * argc) 0) =
      some (m₃, envc)) :
    doExecvpe f image file argv envp m =
      buildStack f argc envc (image (store m₃ (f.envs + 40 * envc) 0)).1
        (image (store m₃ (f.envs + 40 * envc) 0)).2 := by
  simp only [doExecvpe, hname, hargs, henvs, Option.bind_eq_bind, Option.bind_some]

/-- After `do_execvpe` has built the stack, its stack pointer leads to the number of arguments, the
arguments and the environment, all between the start of the stack's page and the stack pointer
`loadelf` left. -/
theorem doExecvpe_decodes {f : Frame} {image : Memory → Memory × ℕ} {file argv envp page : ℕ}
    {name : List UInt8} {argAddrs envAddrs : List ℕ} (hframe : f.blocks.Pairwise Apart)
    (hname : Named f m file name) (hargs : Passed f m argv argAddrs args)
    (henvs : Passed f m envp envAddrs envs) (himage : ReplacesImage f image name page) :
    ∃ m' ursp, doExecvpe f image file argv envp m = some (m', ursp) ∧
      Decodes m' page (page + 4087) ursp args envs := by
  have hfile : (f.filename, 20) ∈ f.blocks := by simp [Frame.blocks]
  have hargsBlock : (f.args, 200) ∈ f.blocks := by simp [Frame.blocks]
  have henvsBlock : (f.envs, 200) ∈ f.blocks := by simp [Frame.blocks]
  obtain ⟨⟨hnameArgs, hnameEnvs⟩, hargsEnvs⟩ : (Apart (f.filename, 20) (f.args, 200) ∧
      Apart (f.filename, 20) (f.envs, 200)) ∧ Apart (f.args, 200) (f.envs, 200) := by
    simpa [Frame.blocks] using hframe
  have hshort := hname.short
  have hargc := hargs.count
  have henvc := henvs.count
  -- the three copies into the frame
  let m₁ : Memory := write m f.filename (name ++ [0])
  have hcopy : kstrcopy m f.filename file = some m₁ := by
    apply kstrcopy_eq hname.string (lt_of_le_of_lt hshort (by decide))
    have hapart := hname.apart _ hfile
    simp only [Apart] at hapart
    omega
  have hsame₁ : ∀ x, x < f.filename ∨ f.filename + 20 ≤ x → m₁ x = m x := by
    rintro x (hx | hx)
    · exact write_below hx
    · exact write_above (by rw [List.length_append, List.length_singleton]; omega)
  obtain ⟨m₂, hrun₂, hrows₂, hsame₂⟩ := copyStrings_frame hargs hargsBlock
    fun x hx => hsame₁ x (hx _ hfile)
  obtain ⟨m₃, hrun₃, hrows₃, hsame₃⟩ := copyStrings_frame henvs henvsBlock
    fun x hx => (hsame₂ x (hx _ hargsBlock)).trans (hsame₁ x (hx _ hfile))
  simp only [Apart] at hnameArgs hnameEnvs hargsEnvs
  let m₄ : Memory := store m₃ (f.envs + 40 * envs.length) 0
  have hstring₄ : IsString m₄ f.filename name := by
    have hstring₁ : IsString m₁ f.filename name := ⟨holds_write, hname.string.nonzero⟩
    refine hstring₁.congr fun x hx hx' => ?_
    rw [← hsame₂ x (by omega)]
    exact hsame₃ x (by omega)
  -- the new image leaves the frame as it is
  have hkeep := himage.frame m₄ hstring₄
  have hrowsArgs : Rows (image m₄).1 f.args args := by
    refine hrows₂.congr fun x hx hx' => ?_
    rw [hkeep _ hargsBlock x hx (by simp only; omega)]
    exact hsame₃ x (by omega)
  have hrowsEnvs : Rows (image m₄).1 f.envs envs := by
    refine hrows₃.congr fun x hx hx' => ?_
    exact hkeep _ henvsBlock x hx (by simp only; omega)
  have hcopied : ∀ {rows : ℕ} {ss : List (List UInt8)}, (rows, 200) ∈ f.blocks →
      Rows (image m₄).1 rows ss → ss.length ≤ 4 →
      Copied (image m₄).1 rows page (page + 4087) ss := by
    intro rows ss hblock hrows hcount
    refine ⟨hrows, ?_⟩
    have hapart := himage.apart _ hblock
    simp only [Apart] at hapart ⊢
    omega
  have hflatArgs := length_flat_le hargs.short
  have hflatEnvs := length_flat_le henvs.short
  have hroom : page + stackSize args envs ≤ page + 4087 := by
    rw [stackSize]
    omega
  have htop := himage.top
  have hbuild : doExecvpe f image file argv envp m =
      some (write (image m₄).1 (page + 4087 - stackSize args envs)
        (stackBytes (page + 4087) args envs), page + 4087 - stackSize args envs) := by
    rw [doExecvpe_eq image hcopy hrun₂ hrun₃, himage.ursp m₄ hstring₄]
    exact buildStack_eq (hcopied hargsBlock hrowsArgs hargc) (hcopied henvsBlock hrowsEnvs henvc)
      hroom
  exact ⟨_, _, hbuild, decodes_of_holds hroom (by omega) hargs.vector.nonzero
    henvs.vector.nonzero holds_write⟩

/-- The file name `ls` at 1000; the arguments `ls` and `-a`, and the environment strings `P=/b` and
`U=x`, by the arrays at 2000 and 2100. -/
def sampleCall : Memory :=
  write (write (write (write (write (write (write (fun _ => 0) 1000 [108, 115])
    2000 (toBytes 8 3000 ++ toBytes 8 3010)) 2100 (toBytes 8 3020 ++ toBytes 8 3030))
    3000 [108, 115]) 3010 [45, 97]) 3020 [80, 61, 47, 98]) 3030 [85, 61, 120]

theorem sampleCall_decodes :
    ∃ m' ursp, doExecvpe ⟨5000, 5100, 5400⟩ (fun m => (m, 8192 + 4087)) 1000 2000 2100 sampleCall =
        some (m', ursp) ∧
      Decodes m' 8192 (8192 + 4087) ursp [[108, 115], [45, 97]]
        [[80, 61, 47, 98], [85, 61, 120]] := by
  have hname : Named ⟨5000, 5100, 5400⟩ sampleCall 1000 [108, 115] :=
    ⟨⟨by decide, by simp⟩, by decide, by decide⟩
  have hargs : Passed ⟨5000, 5100, 5400⟩ sampleCall 2000 [3000, 3010] [[108, 115], [45, 97]] :=
    ⟨.cons (by decide) (by decide) ⟨by decide, by simp⟩
      (.cons (by decide) (by decide) ⟨by decide, by simp⟩ (.nil (by decide))), by decide, by decide,
      by decide⟩
  have henvs : Passed ⟨5000, 5100, 5400⟩ sampleCall 2100 [3020, 3030]
      [[80, 61, 47, 98], [85, 61, 120]] :=
    ⟨.cons (by decide) (by decide) ⟨by decide, by simp⟩
      (.cons (by decide) (by decide) ⟨by decide, by simp⟩ (.nil (by decide))), by decide, by decide,
      by decide⟩
  have himage : ReplacesImage ⟨5000, 5100, 5400⟩ (fun m => (m, 8192 + 4087)) [108, 115] 8192 :=
    ⟨fun _ _ _ _ _ _ _ => rfl, fun _ _ => rfl, by decide, by decide⟩
  exact doExecvpe_decodes (by decide) hname hargs henvs himage

end Exec

end OswpKernel
