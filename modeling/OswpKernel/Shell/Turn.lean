import OswpKernel.Files.Command
import OswpKernel.Libc.Strings
import OswpKernel.Libc.Tokenize

/-!
# Turn — one line of the shell (`sbush.c`)

`main` of the shell clears its buffer as far as the old line goes, reads a line, takes the newline
off and hands the rest to `mapFunction`, which makes the tokens and turns a path into an argument
of `sh`.  `bg_fg_process` starts the command and waits for it unless the last token is `&`.

`sbushTurn_eq` says what one turn starts, for a line that fits the buffer, the tokens and the array
of pointers.
-/

namespace OswpKernel

namespace Shell

open Libc
open Files (slash binName Child ChildStack FileSystem Member Path Tnode BootNodes Booted Archive
  WellFormed bgFgChild)

/-- `sh`. -/
def shName : List UInt8 := [115, 104]

/-- `exit` and a newline. -/
def exitLine : List UInt8 := [101, 120, 105, 116, 10]

/-- What the program and its arguments are looked up in. -/
structure Kernel where
  fs : FileSystem
  mem : Files.Memory
  tarfs : Word
  fuel : Nat

/-- The blocks for the tokens, and what the two further ones of `mapFunction` hold. -/
structure ShellMallocs extends Mallocs where
  held : Bytes.Memory
  path : Word
  path_ne_zero : path ≠ 0
  path_fresh : ∀ i, i < 5 → path ≠ address i

/-- `tokens[0][0] == '/' || tokens[0][0] == '.'` -/
def isScript (c : UInt8) : Bool := c = slash || c = 46

/-- The rest of `mapFunction` behind `tokenize`, up to `bg_fg_process`.  `temp` is not used behind
it. -/
def mapTokens (m : ShellMallocs) (s : Tokens) : Option Tokens := do
  let token ← s.tokens.getWord 0
  let block ← s.heap token
  let c ← block.get 0
  if isScript c then
    let length ← strlen block
    let temp ← strcpy ⟨length + 1, m.held⟩ block
    let block ← strcpy block (literal shName)
    let tokens ← s.tokens.putWord 8 m.path
    let length ← strlen temp
    let path ← strcpy ⟨length + 1, m.held⟩ temp
    return { s with
      tokens
      heap := Function.update (Function.update s.heap token (some block)) m.path (some path) }
  else return s

/-- A command: the strings of `command`, which are the arguments of `execvpe`, what the child comes
to, and whether the shell waits for it. -/
structure Started where
  command : List (List UInt8)
  child : Child
  waits : Bool
  deriving DecidableEq

/-- `command[i]`. -/
def tokenString (s : Tokens) (i : Nat) : Option (List UInt8) := do
  let token ← s.tokens.getWord (8 * i)
  let block ← s.heap token
  block.string 0

/-- `bg_fg_process`, in the child and in the parent. -/
def bgFgProcess (k : Kernel) (stack : ChildStack) (s : Tokens) : Option Started := do
  let commandc ← tokencount s.tokens
  let command ← (List.range commandc).mapM (tokenString s)
  let child ← bgFgChild k.fs k.mem k.tarfs k.fuel stack command
  if commandc = 0 then none
  else
    let token ← s.tokens.getWord (8 * (commandc - 1))
    let last ← s.heap token
    let r ← strcmp (literal [38]) last
    return ⟨command, child, r ≠ 0⟩

/-- The body of the loop of `main`, with the line that `gets` brings. -/
def sbushTurn (k : Kernel) (m : ShellMallocs) (stack : ChildStack) (stringInput : LocalArray)
    (line : List UInt8) : Option (LocalArray × Option Started) := do
  let length ← strlen stringInput
  let stringInput ← umemset stringInput 0 length
  let stringInput ← stringInput.fill 0 line
  let r ← strcmp stringInput (literal [10])
  if r = 0 then return (stringInput, none)
  let stringInput ← trim stringInput
  let string ← stringInput.string 0
  let s ← tokenize m.toMallocs string
  let s ← mapTokens m s
  let started ← bgFgProcess k stack s
  return (stringInput, some started)

/-! ## What a turn is for -/

/-- The command that a line of words stands for. -/
def commandOf : List (List UInt8) → List (List UInt8)
  | [] => []
  | w :: ws => if w.head?.any isScript then shName :: w :: ws.tail else w :: ws

/-- What the child of a command comes to, by the members of the archive. -/
def childOf (ms : List Member) (cmd : List UInt8) : Child :=
  match ms.find? fun m => m.name = binName ++ cmd with
  | some m => .loads m.header
  | none => .notFound (binName ++ cmd)

def startedFor (ms : List Member) (command : List (List UInt8)) : Started :=
  ⟨command, childOf ms (command.headD []), command.getLast? ≠ some [38]⟩

/-- What the shell asks of a line, and of the array for its tokens. -/
structure Fits (m : ShellMallocs) (body : List UInt8) : Prop where
  separated : [] ∉ (body.splitOnP separator).dropLast
  short : ∀ w ∈ words body, w.length ≤ 24
  few : (commandOf (words body)).length ≤ 4
  program : ((commandOf (words body)).headD []).length ≤ 12 ∧
    slash ∉ (commandOf (words body)).headD []
  null : m.array.getWord (8 * (commandOf (words body)).length) = some 0

/-- `gets` puts no NUL behind a line of `n` characters: there is one when the old string, which is
cleared, was longer, or the buffer had one. -/
def Room (a : LocalArray) (n : Nat) : Prop :=
  n < a.size ∧ ((strlen a).any (n < ·) = true ∨ a.byte n = 0)

instance (m : ShellMallocs) (body : List UInt8) : Decidable (Fits m body) :=
  decidable_of_iff ([] ∉ (body.splitOnP separator).dropLast ∧ (∀ w ∈ words body, w.length ≤ 24) ∧
      (commandOf (words body)).length ≤ 4 ∧
      (((commandOf (words body)).headD []).length ≤ 12 ∧
        slash ∉ (commandOf (words body)).headD []) ∧
      m.array.getWord (8 * (commandOf (words body)).length) = some 0)
    ⟨fun ⟨h₁, h₂, h₃, h₄, h₅⟩ => ⟨h₁, h₂, h₃, h₄, h₅⟩, fun ⟨h₁, h₂, h₃, h₄, h₅⟩ =>
      ⟨h₁, h₂, h₃, h₄, h₅⟩⟩

instance (a : LocalArray) (n : Nat) : Decidable (Room a n) :=
  inferInstanceAs (Decidable (_ ∧ (_ ∨ _)))

variable {m : ShellMallocs} {s : Tokens} {a : LocalArray} {es ws command : List (List UInt8)}
  {body text : List UInt8} {k : Kernel} {stack : ChildStack} {child : Child}

/-! ## The tokens of a command -/

theorem holdsWords_of_rows (hsize : s.tokens.size = 40) (hfew : ws.length ≤ 4)
    (hword : ∀ j (hj : j < ws.length), ∃ token block, s.tokens.getWord (8 * j) = some token ∧
      token ≠ 0 ∧ s.heap token = some block ∧ block.string 0 = some ws[j])
    (hnull : s.tokens.getWord (8 * ws.length) = some 0) : HoldsWords s ws := by
  refine ⟨hword, hnull, tokencount_eq hsize (Nat.lt_succ_of_le hfew) (fun j hj => ?_) hnull⟩
  obtain ⟨token, block, hcell, hne, -⟩ := hword j hj
  exact ⟨token, hcell, hne⟩

/-- The array has the tokens, and is as it was behind them. -/
structure Made (m : ShellMallocs) (es : List (List UInt8)) (s : Tokens) : Prop where
  size : s.tokens.size = 40
  row : ∀ j (hj : j < es.length), ∃ block, s.tokens.getWord (8 * j) = some (m.address j) ∧
    s.heap (m.address j) = some block ∧ block.size = 25 ∧ Contains block es[j]
  rest : ∀ j, es.length ≤ j → 1 ≤ j → s.tokens.getWord (8 * j) = m.array.getWord (8 * j)

theorem made_of_entries (hentries : Entries m.toMallocs a es s)
    (hrest : ∀ j, 1 ≤ j → a.getWord (8 * j) = m.array.getWord (8 * j))
    (hshort : ∀ e ∈ es, e.length ≤ 24) (hnul : ∀ e ∈ es, (0 : UInt8) ∉ e) : Made m es s := by
  refine ⟨hentries.size, fun j hj => ?_, fun j hj hpos => (hentries.rest j hj).trans (hrest j hpos)⟩
  obtain ⟨hcell, block, hheap, htoken⟩ := hentries.token j hj
  have hmem : es[j] ∈ es := List.getElem_mem hj
  exact ⟨block, hcell, hheap, htoken.size, contains_iff.2
    (htoken.string_eq (Nat.lt_succ_of_le (hshort _ hmem)) (hnul _ hmem))⟩

/-- A path becomes the argument of `sh`, in place of the second token. -/
theorem mapTokens_script {w : List UInt8} (h : Made m (w :: ws) s)
    (hfirst : ∃ c, w.head? = some c ∧ isScript c = true)
    (hfew : (shName :: w :: ws.tail).length ≤ 4)
    (hnull : m.array.getWord (8 * (shName :: w :: ws.tail).length) = some 0) :
    ∃ s', mapTokens m s = some s' ∧ HoldsWords s' (shName :: w :: ws.tail) := by
  obtain ⟨c, hhead, hscript⟩ := hfirst
  obtain ⟨block, hcell, hheap, hblock, hcontains⟩ := h.row 0 (Nat.succ_pos _)
  have hcell' : s.tokens.getWord 0 = some (m.address 0) := hcell
  have hget : block.get 0 = some c := by
    cases w with
    | nil => cases hhead
    | cons d w => rw [← hhead]; exact hcontains.get (Nat.succ_pos _)
  have hsize : 8 + 8 ≤ s.tokens.size := by rw [h.size]; decide
  obtain ⟨temp, htemp, -, htext⟩ :=
    strcpy_eq (a := ⟨w.length + 1, m.held⟩) hcontains (Nat.lt_succ_self _)
  obtain ⟨sh, hsh, -, hshText⟩ :=
    strcpy_eq (a := block) (contains_literal shName (by decide)) (by rw [hblock]; decide)
  obtain ⟨path, hpath, -, hpathText⟩ :=
    strcpy_eq (a := ⟨w.length + 1, m.held⟩) htext (Nat.lt_succ_self _)
  have hother : ∀ j, j < 5 → m.address j ≠ m.path := fun j hj => (m.path_fresh j hj).symm
  refine ⟨⟨⟨s.tokens.size, Bytes.storeWord s.tokens.byte 8 m.path.toNat⟩,
    Function.update (Function.update s.heap (m.address 0) (some sh)) m.path (some path),
    s.next⟩, ?_, holdsWords_of_rows h.size hfew (fun j hj => ?_) ?_⟩
  · have hlength : (w :: ws)[0].length = w.length := rfl
    rw [mapTokens, hcell', Option.bind_eq_bind, Option.bind_some, hheap, Option.bind_eq_bind,
      Option.bind_some, hget, Option.bind_eq_bind, Option.bind_some, if_pos hscript,
      strlen_eq hcontains, Option.bind_eq_bind, Option.bind_some, hlength, htemp, Option.bind_some,
      hsh, Option.bind_some, LocalArray.putWord_eq hsize, Option.bind_some, strlen_eq htext,
      Option.bind_some, hlength, hpath, Option.bind_some]
    rfl
  · -- the first two are the new ones
    rcases j with _ | _ | j
    · refine ⟨m.address 0, sh, ?_, m.address_ne_zero 0, ?_, contains_iff.1 hshText⟩
      · rw [LocalArray.getWord_apart (Or.inr (by decide))]
        exact hcell
      · dsimp only
        rw [Function.update_of_ne (hother 0 (by decide)), Function.update_self]
    · exact ⟨m.path, path, LocalArray.getWord_stored hsize, m.path_ne_zero,
        Function.update_self _ _ _, contains_iff.1 hpathText⟩
    · simp only [List.length_cons, List.length_tail] at hj hfew
      obtain ⟨block, hcell, hheap, -, hcontains⟩ := h.row (j + 2) (by
        rw [List.length_cons]
        omega)
      have hzero : m.address (j + 2) ≠ m.address 0 := fun heq =>
        absurd (m.address_injective _ _ (by omega) (by decide) heq) (Nat.succ_ne_zero _)
      refine ⟨m.address (j + 2), block, ?_, m.address_ne_zero _, ?_, ?_⟩
      · rw [LocalArray.getWord_apart (Or.inl (by omega))]
        exact hcell
      · dsimp only
        rw [Function.update_of_ne (hother _ (by omega)), Function.update_of_ne hzero]
        exact hheap
      · simpa using contains_iff.1 hcontains
  · rw [LocalArray.getWord_apart (Or.inl (by rw [List.length_cons, List.length_cons]; omega))]
    refine (h.rest _ ?_ (Nat.succ_pos _)).trans hnull
    simp only [List.length_cons, List.length_tail]
    omega

/-- Tokens that are no path stay as they are. -/
theorem mapTokens_plain {w : List UInt8} (h : Made m (w :: ws) s)
    (hfirst : ∃ c, w.head? = some c ∧ ¬ isScript c = true) (hfew : (w :: ws).length ≤ 4)
    (hnull : m.array.getWord (8 * (w :: ws).length) = some 0) :
    mapTokens m s = some s ∧ HoldsWords s (w :: ws) := by
  obtain ⟨c, hhead, hscript⟩ := hfirst
  obtain ⟨block, hcell, hheap, -, hcontains⟩ := h.row 0 (Nat.succ_pos _)
  have hcell' : s.tokens.getWord 0 = some (m.address 0) := hcell
  have hget : block.get 0 = some c := by
    cases w with
    | nil => cases hhead
    | cons d w => rw [← hhead]; exact hcontains.get (Nat.succ_pos _)
  refine ⟨?_, holdsWords_of_rows h.size hfew (fun j hj => ?_) ?_⟩
  · rw [mapTokens, hcell', Option.bind_eq_bind, Option.bind_some, hheap, Option.bind_eq_bind,
      Option.bind_some, hget, Option.bind_eq_bind, Option.bind_some, if_neg hscript]
    rfl
  · obtain ⟨block, hcell, hheap, -, hcontains⟩ := h.row j hj
    exact ⟨_, block, hcell, m.address_ne_zero j, hheap, contains_iff.1 hcontains⟩
  · exact (h.rest _ le_rfl (Nat.le_add_left 1 ws.length)).trans hnull

/-- `mapFunction` turns the tokens of a line into the command. -/
theorem mapTokens_holds (h : Made m es s) (hes : es ≠ []) (hfull : ∀ e ∈ es, e ≠ [])
    (hfew : (commandOf es).length ≤ 4)
    (hnull : m.array.getWord (8 * (commandOf es).length) = some 0) :
    ∃ s', mapTokens m s = some s' ∧ HoldsWords s' (commandOf es) := by
  cases es with
  | nil => exact absurd rfl hes
  | cons w ws =>
      cases w with
      | nil => exact absurd rfl (hfull [] List.mem_cons_self)
      | cons c w =>
          by_cases hscript : isScript c = true
          · have hcommand : commandOf ((c :: w) :: ws) = shName :: (c :: w) :: ws.tail := by
              simp [commandOf, hscript]
            rw [hcommand] at hfew hnull ⊢
            exact mapTokens_script h ⟨c, rfl, hscript⟩ hfew hnull
          · have hcommand : commandOf ((c :: w) :: ws) = (c :: w) :: ws := by
              simp [commandOf, hscript]
            rw [hcommand] at hfew hnull ⊢
            exact ⟨s, mapTokens_plain h ⟨c, rfl, hscript⟩ hfew hnull⟩

theorem mapM_eq_some_of_forall₂ {α β : Type} {f : α → Option β} {xs : List α} {ys : List β}
    (h : List.Forall₂ (fun x y => f x = some y) xs ys) : xs.mapM f = some ys := by
  induction h with
  | nil => rfl
  | cons hx _ ih => rw [List.mapM_cons, hx, ih]; rfl

/-- With the words of a command in the tokens, its child is the one for the command. -/
theorem bgFgProcess_eq (h : HoldsWords s command) (hne : command ≠ [])
    (hchild : bgFgChild k.fs k.mem k.tarfs k.fuel stack command = some child) :
    bgFgProcess k stack s = some ⟨command, child, command.getLast? ≠ some [38]⟩ := by
  have hstring : ∀ j (hj : j < command.length), tokenString s j = some command[j] := by
    intro j hj
    obtain ⟨token, block, hcell, -, hheap, hstring⟩ := h.word j hj
    rw [tokenString, hcell, Option.bind_eq_bind, Option.bind_some, hheap, Option.bind_eq_bind,
      Option.bind_some, hstring]
  have hcommand : (List.range command.length).mapM (tokenString s) = some command := by
    refine mapM_eq_some_of_forall₂ (List.forall₂_iff_get.2 ⟨List.length_range, ?_⟩)
    intro j hj hj'
    simpa using hstring j hj'
  have hpos : 0 < command.length := List.length_pos_iff.2 hne
  obtain ⟨token, block, hcell, -, hheap, hlast⟩ := h.word (command.length - 1) (by omega)
  have hlast' : command.getLast? = some command[command.length - 1] := by
    rw [List.getLast?_eq_getElem?, List.getElem?_eq_getElem (by omega)]
  have hcompare := strcmp_eq (contains_literal [38] (by decide)) (contains_iff.2 hlast)
  rw [bgFgProcess, h.count, Option.bind_eq_bind, Option.bind_some, hcommand, Option.bind_eq_bind,
    Option.bind_some, hchild, Option.bind_eq_bind, Option.bind_some, if_neg hpos.ne', hcell,
    Option.bind_eq_bind, Option.bind_some, hheap, Option.bind_eq_bind, Option.bind_some, hcompare,
    hlast']
  by_cases heq : [38] = command[command.length - 1]
  · rw [← heq]
    rfl
  · rw [if_neg heq]
    simp [Ne.symm heq]

theorem mem_words {w : List UInt8} (hw : w ∈ words body) : w ≠ [] ∧ ∀ c ∈ w, c ∈ body := by
  rw [words_eq_filter, List.mem_filter] at hw
  exact ⟨of_decide_eq_true hw.2, fun c hc =>
    (mem_of_mem_entriesFrom hw.1 hc).resolve_left List.not_mem_nil⟩

theorem entriesFrom_eq_words (hbody : body ≠ [])
    (hseparated : [] ∉ (body.splitOnP separator).dropLast) :
    entriesFrom [] body = words body ∧ words body ≠ [] := by
  have hentries := nil_notMem_entries.2 ⟨hbody, hseparated⟩
  have hwords : entriesFrom [] body = words body := by
    rw [words_eq_filter, eq_comm, List.filter_eq_self]
    exact fun e he => decide_eq_true fun hempty => hentries (hempty ▸ he)
  obtain ⟨e, rest, hcons, -⟩ := @entriesFrom_cons [] body
  exact ⟨hwords, by rw [← hwords, hcons]; exact List.cons_ne_nil _ _⟩

/-- `tokenize` of a line makes its words. -/
theorem tokenize_made (hnul : (0 : UInt8) ∉ body) (hbody : body ≠ [])
    (hseparated : [] ∉ (body.splitOnP separator).dropLast)
    (hshort : ∀ w ∈ words body, w.length ≤ 24) (hfew : (words body).length ≤ 4) :
    ∃ s, tokenize m.toMallocs body = some s ∧ Made m (words body) s := by
  obtain ⟨hwords, -⟩ := entriesFrom_eq_words hbody hseparated
  obtain ⟨s, a, hrun, hentries, hrest⟩ := (tokenize_entries (m := m.toMallocs)
    (by rw [hwords]; exact hshort)).1 (by rw [hwords]; omega)
  rw [hwords] at hentries
  exact ⟨s, hrun, made_of_entries hentries hrest hshort fun w hw hzero =>
    hnul ((mem_words hw).2 0 hzero)⟩

/-! ## The command -/

theorem mem_commandOf {string : List UInt8} (h : string ∈ commandOf es) :
    string = shName ∨ string ∈ es := by
  cases es with
  | nil => exact absurd h List.not_mem_nil
  | cons w ws =>
      rw [commandOf] at h
      split_ifs at h
      · rcases List.mem_cons.1 h with rfl | h
        · exact Or.inl rfl
        · refine Or.inr ?_
          rcases List.mem_cons.1 h with rfl | h
          · exact List.mem_cons_self
          · exact List.mem_cons_of_mem _ (List.mem_of_mem_tail h)
      · exact Or.inr h

theorem commandOf_ne_nil (h : es ≠ []) : commandOf es ≠ [] := by
  cases es with
  | nil => exact absurd rfl h
  | cons w ws =>
      rw [commandOf]
      split_ifs <;> exact List.cons_ne_nil _ _

variable {ms : List Member} {nodes : BootNodes} {node : Path → Tnode}

theorem length_le_commandOf (es : List (List UInt8)) : es.length ≤ (commandOf es).length := by
  cases es with
  | nil => exact le_rfl
  | cons w ws =>
      rw [commandOf]
      split_ifs
      · simp only [List.length_cons, List.length_tail]
        omega
      · exact le_rfl

/-- A command that fits the arrays of `bg_fg_process` and of the kernel. -/
structure FitsKernel (command : List (List UInt8)) : Prop where
  full : ∀ w ∈ command, w ≠ []
  nul : ∀ w ∈ command, (0 : UInt8) ∉ w
  short : ∀ w ∈ command, w.length ≤ 24
  few : command.length ≤ 4
  program : (command.headD []).length ≤ 12 ∧ slash ∉ command.headD []

theorem bgFgProcess_startedFor (hboot : Booted k.fs ms nodes node)
    (harchive : Archive k.mem k.tarfs ms) (hwf : WellFormed ms) (hfuel : ms.length < k.fuel)
    (hholds : HoldsWords s command) (hne : command ≠ []) (hfits : FitsKernel command) :
    bgFgProcess k stack s = some (startedFor ms command) := by
  refine bgFgProcess_eq hholds hne ?_
  cases command with
  | nil => exact absurd rfl hne
  | cons cmd argv =>
      obtain ⟨hlen, hslash⟩ := hfits.program
      rw [List.headD_cons] at hlen hslash
      have htable : Files.Frame.FitsTable (cmd :: argv) := by
        refine ⟨hfits.few, fun i hi => ?_⟩
        have hfew := hfits.few
        have hlength := hfits.short _ (List.getElem_mem hi)
        omega
      rw [hboot.bgFgChild harchive hwf hfuel (hfits.full cmd List.mem_cons_self) hslash hfits.nul,
        and_iff_right hlen, List.headD_cons, childOf]
      cases hfind : ms.find? fun m => m.name = binName ++ cmd with
      | none =>
          refine Or.inr ⟨fun m hm heq => ?_, rfl⟩
          exact List.find?_eq_none.1 hfind m hm (decide_eq_true heq)
      | some m =>
          have hname : m.name = binName ++ cmd := by simpa using List.find?_some hfind
          exact Or.inl ⟨m, List.mem_of_find?_eq_some hfind, hname, htable, rfl⟩

theorem Fits.kernel (h : Fits m body) (hnul : (0 : UInt8) ∉ body) :
    FitsKernel (commandOf (words body)) where
  full := fun w hw => by
    rcases mem_commandOf hw with rfl | hmem
    · exact List.cons_ne_nil _ _
    · exact (mem_words hmem).1
  nul := fun w hw hzero => by
    rcases mem_commandOf hw with rfl | hmem
    · exact absurd hzero (by decide)
    · exact hnul ((mem_words hmem).2 0 hzero)
  short := fun w hw => by
    rcases mem_commandOf hw with rfl | hmem
    · decide
    · exact h.short w hmem
  few := h.few
  program := h.program

/-- From the string in the buffer to the command. -/
theorem mapFunction_starts (stack : ChildStack) (hboot : Booted k.fs ms nodes node)
    (harchive : Archive k.mem k.tarfs ms) (hwf : WellFormed ms) (hfuel : ms.length < k.fuel)
    (hnul : (0 : UInt8) ∉ body) (hbody : body ≠ []) (hfits : Fits m body) :
    ∃ s s', tokenize m.toMallocs body = some s ∧ mapTokens m s = some s' ∧
      bgFgProcess k stack s' = some (startedFor ms (commandOf (words body))) := by
  have hne := (entriesFrom_eq_words hbody hfits.separated).2
  obtain ⟨s, htokenize, hmade⟩ := tokenize_made (m := m) hnul hbody hfits.separated hfits.short
    ((length_le_commandOf _).trans hfits.few)
  obtain ⟨s', hmap, hholds⟩ := mapTokens_holds hmade hne (fun w hw => (mem_words hw).1) hfits.few
    hfits.null
  exact ⟨s, s', htokenize, hmap, bgFgProcess_startedFor hboot harchive hwf hfuel hholds
    (commandOf_ne_nil hne) (hfits.kernel hnul)⟩

/-! ## The buffer -/

/-- `umemset` clears the old string. -/
theorem umemset_eq (h : Contains a text) :
    ∃ a', umemset a 0 text.length = some a' ∧ a'.size = a.size ∧
      ∀ n, Room a n → n < a'.size ∧ a'.byte n = 0 := by
  have hroom := h.room
  have hfill : a.fill 0 (List.replicate text.length 0) = some
      ⟨a.size, Bytes.write a.byte 0 (List.replicate text.length 0)⟩ :=
    LocalArray.fill_eq (by rw [List.length_replicate]; omega)
  refine ⟨_, hfill, rfl, fun n hn => ⟨hn.1, ?_⟩⟩
  dsimp only
  by_cases hinside : n < text.length
  · have hin : n < (List.replicate text.length (0 : UInt8)).length := by
      rwa [List.length_replicate]
    have hbyte := Bytes.write_inside (m := a.byte) (a := 0) hin
    rwa [Nat.zero_add, List.getElem_replicate] at hbyte
  · rw [Bytes.write_above (by rw [List.length_replicate]; omega)]
    refine hn.2.resolve_left fun hany => hinside ?_
    rw [strlen_eq h] at hany
    exact of_decide_eq_true hany

/-- What `gets` brings is a string with the NUL behind it. -/
theorem contains_fill (hroom : text.length < a.size) (hend : a.byte text.length = 0)
    (hnul : (0 : UInt8) ∉ text) :
    ∃ a', a.fill 0 text = some a' ∧ a'.size = a.size ∧ Contains a' text := by
  have hfill : a.fill 0 text = some ⟨a.size, Bytes.write a.byte 0 text⟩ :=
    LocalArray.fill_eq (by omega)
  have htext : Bytes.Holds (Bytes.write a.byte 0 text) 0 text := Bytes.holds_write
  have hbehind : Bytes.write a.byte 0 text text.length = a.byte text.length :=
    Bytes.write_above (by omega)
  refine ⟨_, hfill, rfl, ⟨⟨Bytes.holds_append.2 ⟨htext, fun i hi => ?_⟩,
    fun c hc hzero => hnul (hzero ▸ hc)⟩, hroom⟩⟩
  obtain rfl : i = 0 := Nat.lt_one_iff.1 hi
  rw [Nat.zero_add, Nat.add_zero]
  exact hbehind.trans hend

/-! ## The turn -/

/-- One turn with a line that fits: nothing is started on an empty one, and otherwise the command
that the words stand for.  The buffer holds the line without its newline then, so that it is not
`exit` with one. -/
theorem sbushTurn_eq (stack : ChildStack) (hboot : Booted k.fs ms nodes node)
    (harchive : Archive k.mem k.tarfs ms) (hwf : WellFormed ms) (hfuel : ms.length < k.fuel)
    (hcontains : Contains a text) (hnul : (0 : UInt8) ∉ body) (hline : (10 : UInt8) ∉ body)
    (hroom : Room a (body.length + 1)) (hfits : body ≠ [] → Fits m body) :
    ∃ a' text', sbushTurn k m stack a (body ++ [10]) =
        some (a', if body = [] then none else some (startedFor ms (commandOf (words body)))) ∧
      Contains a' text' ∧ text' ≠ exitLine := by
  obtain ⟨cleared, hmemset, -, hzeros⟩ := umemset_eq hcontains
  obtain ⟨hinside, hend⟩ := hzeros _ hroom
  have hlength : (body ++ [10]).length = body.length + 1 := List.length_append
  rw [← hlength] at hinside hend
  have hfull : (0 : UInt8) ∉ body ++ [10] := by
    rw [List.mem_append, List.mem_singleton, not_or]
    exact ⟨hnul, by decide⟩
  obtain ⟨filled, hfill, -, hfilled⟩ := contains_fill hinside hend hfull
  have hcompare := strcmp_eq hfilled (contains_literal [10] (by decide))
  by_cases hbody : body = []
  · subst hbody
    refine ⟨filled, [10], ?_, hfilled, by decide⟩
    rw [sbushTurn, strlen_eq hcontains, Option.bind_eq_bind, Option.bind_some, hmemset,
      Option.bind_eq_bind, Option.bind_some, hfill, Option.bind_eq_bind, Option.bind_some, hcompare]
    rfl
  · have hother : ¬ body ++ [10] = [10] := fun heq => hbody (List.append_left_eq_self.1 heq)
    obtain ⟨trimmed, htrim, htrimmed⟩ := trim_eq hfilled (by simp)
    rw [List.dropLast_concat] at htrimmed
    obtain ⟨s, s', htokenize, hmap, hstarted⟩ := mapFunction_starts stack hboot harchive
      hwf hfuel hnul hbody (hfits hbody)
    refine ⟨trimmed, body, ?_, htrimmed, fun heq => hline (heq ▸ by decide)⟩
    have hnonzero : ¬ (-1 : BitVec 32) = 0 := by decide
    rw [sbushTurn, strlen_eq hcontains, Option.bind_eq_bind, Option.bind_some, hmemset,
      Option.bind_eq_bind, Option.bind_some, hfill, Option.bind_eq_bind, Option.bind_some,
      hcompare, Option.bind_eq_bind, Option.bind_some, if_neg hother, if_neg hnonzero, htrim,
      Option.bind_some, contains_iff.1 htrimmed, Option.bind_some, if_neg hbody]
    simp only [htokenize, hmap, hstarted, Option.bind_eq_bind, Option.bind_some]
    rfl

end Shell

end OswpKernel
