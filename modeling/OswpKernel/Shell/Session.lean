import OswpKernel.Shell.Turn
import OswpKernel.Terminal.Lines

/-!
# Session — from the keys to the programs (`kscanf.c`, `fs.c`, `sbush.c`, `tarfs.c`)

The shell reads the terminal line by line, and runs a turn of its loop on each line.  Keys and polls
come in any order; `session_starts` follows them from the boot of the file system on, and says which
programs have been started then.
-/

namespace OswpKernel

namespace Shell

open Execution Libc
open Keyboard (Terminal Editor Reader Reading LineEvent LineAllowed readerStep charByte asResult
  typedLines typedText keysOf IsLine)
open Files (ChildStack Member Path BootNodes Booted Archive WellFormed Loader Supply ProcessInfo
  initialiseFileSystem)

/-- The terminal, the shell's buffer, and what has been started so far. -/
structure Session where
  terminal : Terminal
  stringInput : LocalArray
  started : List Started

/-- What the blocks and arrays of one turn after the other hold. -/
structure Frames where
  mallocs : Nat → ShellMallocs
  child : Nat → ChildStack

/-- A poll is one of the shell's, in `gets`: behind `exit` it does not poll any more. -/
def sessionStep (k : Kernel) (frames : Frames) (s : Session) : LineEvent → Option Session
  | .key keyscancode => (s.terminal.kscanf keyscancode).map fun t => { s with terminal := t }
  | .poll => do
      let r ← strcmp s.stringInput (literal exitLine)
      if r = 0 then none
      else
        match s.terminal.checkForIp 0 with
        | (none, t) => return { s with terminal := t }
        | (some (line, _), t) => do
            let n := s.started.length
            let (stringInput, started) ←
              sbushTurn k (frames.mallocs n) (frames.child n) s.stringInput (line.map charByte)
            return ⟨t, stringInput, s.started ++ started.toList⟩

/-- A line without its newline, as bytes. -/
def lineBody (line : List Char) : List UInt8 := (line.map charByte).dropLast

/-- Keys and polls as for `lines_delivered`, and a line that a poll takes fits the shell. -/
def SessionAllowed (frames : Frames) (s : Session) : LineEvent → Prop
  | .key keyscancode => LineAllowed ⟨s.terminal, []⟩ (.key keyscancode)
  | .poll => LineAllowed ⟨s.terminal, []⟩ .poll ∧
      ∀ taken ∈ (s.terminal.checkForIp 0).1, Room s.stringInput taken.1.length ∧
        (lineBody taken.1 ≠ [] → Fits (frames.mallocs s.started.length) (lineBody taken.1))

instance (frames : Frames) (s : Session) :
    (event : LineEvent) → Decidable (SessionAllowed frames s event)
  | .key code => inferInstanceAs (Decidable (LineAllowed ⟨s.terminal, []⟩ (.key code)))
  | .poll => inferInstanceAs (Decidable (_ ∧ ∀ taken ∈ (s.terminal.checkForIp 0).1, _ ∧ (_ → _)))

/-- `main` in front of its loop: `stringInput[0] = 'e'; stringInput[1] = '\0';`. -/
def Session.start (buf : Int → Char) (inp : Bytes.Memory) : Session :=
  ⟨Terminal.initializeKeyboardBuffer buf, ⟨50, Bytes.write inp 0 [101, 0]⟩, []⟩

/-- What the shell starts on a line. -/
def startedOn (ms : List Member) (line : List Char) : Option Started :=
  if lineBody line = [] then none else some (startedFor ms (commandOf (words (lineBody line))))

/-! ## The characters of a line -/

variable {e : Editor} {code : UInt8} {line : List Char} {lines : List (List Char)} {c : Char}

theorem character_ascii (e : Editor) (code : UInt8) : (e.character code).toNat < 128 := by
  have htable : ∀ table ∈ [Keyboard.scantoCchar, Keyboard.scantoUchar, Keyboard.scantochar],
      ∀ i, (table.getD i Keyboard.nul).toNat < 128 := by
    intro table htable i
    have hall : ∀ table ∈ [Keyboard.scantoCchar, Keyboard.scantoUchar, Keyboard.scantochar],
        table.all (fun c => decide (c.toNat < 128)) = true := by decide
    rw [List.getD_eq_getElem?_getD]
    cases hget : table[i]? with
    | none => decide
    | some c =>
        exact of_decide_eq_true (List.all_eq_true.1 (hall table htable) c
          (List.mem_of_getElem? hget))
  rw [Editor.character]
  split_ifs
  · exact htable _ (by decide) _
  · exact htable _ (by decide) _
  · exact htable _ (by decide) _

/-- What a key can type. -/
def Typeable (c : Char) : Prop := c ≠ Keyboard.nul ∧ c.toNat < 128

theorem press_typeable (h : ∀ c ∈ e.line, Typeable c) (code : UInt8) :
    ∀ c ∈ (e.press code).line, Typeable c := by
  have hnewline : Typeable '\n' := ⟨by decide, by decide⟩
  have hcaret : Typeable '^' := ⟨by decide, by decide⟩
  have hcharacter := character_ascii e code
  intro c hc
  rw [Editor.press] at hc
  split_ifs at hc
  · exact h c hc
  · exact h c hc
  · exact h c hc
  · exact h c hc
  · exact h c (List.mem_of_mem_dropLast hc)
  · rcases List.mem_append.1 hc with hc | hc
    · exact h c hc
    · rwa [List.mem_singleton.1 hc]
  · rcases List.mem_append.1 hc with hc | hc
    · exact h c hc
    · rw [Editor.typing] at hc
      split_ifs at hc with hnul
      · exact absurd hc List.not_mem_nil
      · rcases List.mem_cons.1 hc with rfl | hc
        · exact hcaret
        · rw [List.mem_singleton.1 hc]
          exact ⟨hnul, hcharacter⟩
      · rw [List.mem_singleton.1 hc]
        exact ⟨hnul, hcharacter⟩

theorem charByte_eq_iff {d : Char} (hc : c.toNat < 128) (hd : d.toNat < 128) :
    charByte c = charByte d ↔ c = d := by
  refine ⟨fun h => ?_, congrArg charByte⟩
  have hbyte := congrArg UInt8.toNat h
  rw [charByte, charByte, UInt8.toNat_ofNat', UInt8.toNat_ofNat', Nat.mod_eq_of_lt (by omega),
    Nat.mod_eq_of_lt (by omega)] at hbyte
  exact Char.toNat_inj.1 hbyte

/-- The bytes of a line are a string with a newline at its end only. -/
theorem lineBody_spec (hline : IsLine line) (htyped : ∀ c ∈ line, Typeable c) :
    line.map charByte = lineBody line ++ [10] ∧ (0 : UInt8) ∉ lineBody line ∧
      (10 : UInt8) ∉ lineBody line ∧ line.length = (lineBody line).length + 1 := by
  obtain ⟨body, hbody, rfl⟩ := hline
  have hmap : (body ++ ['\n']).map charByte = body.map charByte ++ [10] := by
    rw [List.map_append]
    rfl
  have hsplit : lineBody (body ++ ['\n']) = body.map charByte := by
    rw [lineBody, hmap, List.dropLast_concat]
  have hother : ∀ d : Char, d.toNat < 128 → d ∉ body → charByte d ∉ body.map charByte := by
    intro d hd hnot hmem
    obtain ⟨c, hc, heq⟩ := List.mem_map.1 hmem
    have hcd := (charByte_eq_iff (htyped c (List.mem_append_left _ hc)).2 hd).1 heq
    exact hnot (hcd ▸ hc)
  rw [hsplit]
  refine ⟨hmap, hother Keyboard.nul (by decide) fun h => ?_, hother '\n' (by decide) hbody, ?_⟩
  · exact (htyped _ (List.mem_append_left _ h)).1 rfl
  · rw [List.length_append, List.length_map]
    rfl

theorem asResult_injective : Function.Injective asResult := fun _ _ h => (Prod.mk.inj h).1

/-! ## One event -/

/-- The lines that have been taken, and what has been started on them. -/
structure Held (ms : List Member) (s : Session) (e : Editor) (lines : List (List Char))
    (pending : List Char) : Prop where
  reading : Reading ⟨s.terminal, lines.map asResult⟩ e lines pending
  typed : ∀ c ∈ e.line, Typeable c
  buffer : ∃ text, Contains s.stringInput text ∧ text ≠ exitLine
  started : s.started = lines.filterMap (startedOn ms)

variable {k : Kernel} {frames : Frames} {s s' : Session} {ms : List Member} {nodes : BootNodes}
  {node : Path → Files.Tnode} {pending : List Char}

theorem Held.key (h : Held ms s e lines pending) (hallowed : SessionAllowed frames s (.key code)) :
    ∃ s' pending', sessionStep k frames s (.key code) = some s' ∧
      Held ms s' (e.press code) lines pending' := by
  obtain ⟨r, pending', hstep, hreading⟩ := h.reading.key hallowed
  obtain ⟨t, ht, rfl⟩ := Option.map_eq_some_iff.1 hstep
  exact ⟨⟨t, s.stringInput, s.started⟩, pending', by rw [sessionStep, ht, Option.map_some],
    hreading, press_typeable h.typed code, h.buffer, h.started⟩

/-- A poll that takes a line starts what the line says. -/
theorem Held.poll (hboot : Booted k.fs ms nodes node) (harchive : Archive k.mem k.tarfs ms)
    (hwf : WellFormed ms) (hfuel : ms.length < k.fuel) (h : Held ms s e lines pending)
    (hallowed : SessionAllowed frames s .poll) :
    ∃ s' lines' pending', sessionStep k frames s .poll = some s' ∧
      Held ms s' e lines' pending' ∧ '\n' ∉ pending' := by
  obtain ⟨r, lines', pending', hstep, hreading, hopen⟩ := h.reading.poll hallowed.1
  obtain ⟨text, hcontains, htext⟩ := h.buffer
  have hcompare := strcmp_eq hcontains (contains_literal exitLine (by decide))
  have hnonzero : ¬ (-1 : BitVec 32) = 0 := by decide
  have hresults := hreading.results
  rw [readerStep] at hstep
  cases hcheck : s.terminal.checkForIp 0 with
  | mk result t =>
      dsimp only at hstep
      rw [hcheck] at hstep
      cases hstep
      cases result with
      | none =>
          -- no line is there: the poll goes on
          have hsame : lines' = lines :=
            asResult_injective.list_map (by simpa using hresults.symm)
          subst hsame
          refine ⟨⟨t, s.stringInput, s.started⟩, lines', pending', ?_,
            ⟨by simpa using hreading, h.typed, h.buffer, h.started⟩, hopen⟩
          rw [sessionStep, hcompare, Option.bind_eq_bind, Option.bind_some, if_neg htext,
            if_neg hnonzero, hcheck]
          rfl
      | some taken =>
          obtain ⟨taken, n⟩ := taken
          have hresults' : lines'.map asResult = lines.map asResult ++ [(taken, n)] := hresults.symm
          obtain ⟨front, last, rfl, hfront, hlast⟩ := List.map_eq_append_iff.1 hresults'
          obtain ⟨line, rfl, hline⟩ := List.map_eq_singleton_iff.1 hlast
          obtain rfl := asResult_injective.list_map hfront
          obtain ⟨rfl, rfl⟩ := Prod.mk.inj hline
          have hmem : line ∈ front ++ [line] := List.mem_append_right _ List.mem_cons_self
          have htyped : ∀ c ∈ line, Typeable c := fun c hc => by
            refine h.typed c ?_
            rw [hreading.text]
            exact List.mem_append_left _ (List.mem_flatten.2 ⟨line, hmem, hc⟩)
          obtain ⟨hbytes, hnul, hnewline, hlength⟩ :=
            lineBody_spec (hreading.lines line hmem) htyped
          obtain ⟨hroom, hfits⟩ := hallowed.2 (line, (line.length : Int)) (by rw [hcheck]; rfl)
          rw [hlength] at hroom
          obtain ⟨a', text', hturn, hcontains', htext'⟩ :=
            sbushTurn_eq (frames.child s.started.length) hboot harchive hwf hfuel hcontains hnul
              hnewline hroom hfits
          refine ⟨⟨t, a', s.started ++ (startedOn ms line).toList⟩, front ++ [line], pending', ?_,
            ⟨?_, h.typed, ⟨text', hcontains', htext'⟩, ?_⟩, hopen⟩
          · rw [sessionStep, hcompare, Option.bind_eq_bind, Option.bind_some, if_neg htext,
              if_neg hnonzero, hcheck]
            dsimp only
            rw [hbytes, hturn]
            rfl
          · rw [List.map_append]
            exact hreading
          · rw [List.filterMap_append, ← h.started, List.filterMap_cons]
            cases startedOn ms line <;> rfl

/-! ## Every run -/

theorem held_start (ms : List Member) (buf : Int → Char) (inp : Bytes.Memory) :
    Held ms (Session.start buf inp) Editor.empty [] [] := by
  have hstring : Bytes.IsString (Bytes.write inp 0 ([101] ++ [0])) 0 [101] :=
    Bytes.isString_write (by decide)
  have hroom : [(101 : UInt8)].length < 50 := by decide
  exact ⟨Keyboard.reading_start buf, fun c hc => absurd hc List.not_mem_nil,
    ⟨[101], ⟨hstring, hroom⟩, by decide⟩, rfl⟩

theorem held_of_run {buf : Int → Char} {inp : Bytes.Memory} {es : List LineEvent}
    (hboot : Booted k.fs ms nodes node) (harchive : Archive k.mem k.tarfs ms) (hwf : WellFormed ms)
    (hfuel : ms.length < k.fuel)
    (hrun : Run (sessionStep k frames) (SessionAllowed frames) (Session.start buf inp) es s) :
    ∃ lines pending, Held ms s (Editor.after (keysOf es)) lines pending ∧
      (es.getLast? = some .poll → '\n' ∉ pending) := by
  induction hrun with
  | nil => exact ⟨[], [], held_start ms buf inp, fun h => by cases h⟩
  | @snoc es s s' event hrun hallowed hstep ih =>
      obtain ⟨lines, pending, hheld, -⟩ := ih
      rw [List.getLast?_concat]
      cases event with
      | key code =>
          obtain ⟨s₁, pending', hstep', hheld'⟩ := hheld.key (k := k) hallowed
          obtain rfl := Option.some_inj.1 (hstep.symm.trans hstep')
          rw [Keyboard.keysOf_key, Keyboard.after_concat]
          exact ⟨lines, pending', hheld', fun h => by cases h⟩
      | poll =>
          obtain ⟨s₁, lines', pending', hstep', hheld', hopen⟩ :=
            hheld.poll hboot harchive hwf hfuel hallowed
          obtain rfl := Option.some_inj.1 (hstep.symm.trans hstep')
          rw [Keyboard.keysOf_poll]
          exact ⟨lines', pending', hheld', fun _ => hopen⟩

/-- From boot on, whatever is typed in lines that fit: behind a poll the shell has started, in
order, the command of each line that has been typed so far, with the program that the archive has
for it, and it goes on with every event. -/
theorem session_starts {mem : Files.Memory} {address bootName : Word} {fuel : Nat} {L : Loader}
    (harchive : Archive mem address ms) (hwf : WellFormed ms) (hsupply : Supply L bootName ms)
    (hfuel : ms.length < fuel) (rows : Nat → Nat → UInt8) (terminal : Terminal)
    (processes : Nat → ProcessInfo) :
    ∃ fs, initialiseFileSystem mem bootName fuel address rows terminal processes L = some fs ∧
      ∀ frames buf inp es s, Run (sessionStep ⟨fs, mem, address, fuel⟩ frames)
          (SessionAllowed frames) (Session.start buf inp) es s →
        (es.getLast? = some .poll →
          s.started = (typedLines (typedText es)).filterMap (startedOn ms)) ∧
        ∀ event, SessionAllowed frames s event →
          (sessionStep ⟨fs, mem, address, fuel⟩ frames s event).isSome := by
  obtain ⟨fs, nodes, node, hinit, hboot⟩ :=
    Files.initialiseFileSystem_spec harchive hwf hsupply hfuel rows terminal processes
  refine ⟨fs, hinit, fun frames buf inp es s hrun => ?_⟩
  obtain ⟨lines, pending, hheld, hlast⟩ :=
    held_of_run (k := ⟨fs, mem, address, fuel⟩) hboot harchive hwf hfuel hrun
  refine ⟨fun hpoll => ?_, fun event hallowed => ?_⟩
  · have hlines : typedLines (typedText es) = lines := by
      rw [typedText, hheld.reading.text, Keyboard.typedLines_flatten hheld.reading.lines,
        typedLines, Keyboard.linesFrom_eq_nil (hlast hpoll), List.append_nil]
    rw [hlines, hheld.started]
  · cases event with
    | key code =>
        obtain ⟨s', pending', hstep, -⟩ :=
          hheld.key (k := ⟨fs, mem, address, fuel⟩) hallowed
        rw [hstep]
        rfl
    | poll =>
        obtain ⟨s', lines', pending', hstep, -⟩ :=
          hheld.poll (k := ⟨fs, mem, address, fuel⟩) hboot harchive hwf hfuel hallowed
        rw [hstep]
        rfl

def sampleShell : ShellMallocs where
  toMallocs := sampleMallocs
  held := fun _ => 63
  path := 8192
  path_ne_zero := by decide
  path_fresh := by decide

def sampleFrames : Frames :=
  ⟨fun _ => sampleShell, fun _ => ⟨fun _ => 7, fun _ => 7, fun _ => 7, fun _ => 7, fun _ => 7,
    fun _ => 7⟩⟩

/-- `sh x`, an empty line, `./x` and `ls &`, with a poll in the middle of the first line. -/
def sampleKeys : List LineEvent :=
  [.key 31, .key 35, .poll, .key 57, .key 45, .key 28, .poll, .key 28, .poll, .key 52, .key 53,
    .key 45, .key 28, .poll, .key 38, .key 31, .key 57, .key 42, .key 8, .key 28, .poll]

theorem session_starts_typed : ∃ fs s,
    initialiseFileSystem Files.binArchive 0xffffffff80200000 3 0 (fun _ _ => 55)
      (Terminal.initializeKeyboardBuffer fun _ => Keyboard.nul) (fun _ => ⟨[], 0, 0, 0⟩)
      Files.bootLoader = some fs ∧
    Run (sessionStep ⟨fs, Files.binArchive, 0, 3⟩ sampleFrames) (SessionAllowed sampleFrames)
      (Session.start (fun _ => Keyboard.nul) fun _ => 0) sampleKeys s ∧
    s.started = [⟨[[115, 104], [120]], .loads 512, true⟩,
      ⟨[[115, 104], [46, 47, 120]], .loads 512, true⟩,
      ⟨[[108, 115], [38]], .notFound [98, 105, 110, 47, 108, 115], false⟩] := by
  have hreplay : ((initialiseFileSystem Files.binArchive 0xffffffff80200000 3 0 (fun _ _ => 55)
      (Terminal.initializeKeyboardBuffer fun _ => Keyboard.nul) (fun _ => ⟨[], 0, 0, 0⟩)
      Files.bootLoader).bind fun fs =>
        replay (sessionStep ⟨fs, Files.binArchive, 0, 3⟩ sampleFrames) (SessionAllowed sampleFrames)
          sampleKeys (Session.start (fun _ => Keyboard.nul) fun _ => 0)).isSome = true := by
    decide +kernel
  have hfuel : Files.binMembers.length < 3 := by decide
  obtain ⟨fs, hinit, hall⟩ := session_starts Files.binArchive_archive Files.binMembers_wellFormed
    Files.bootLoader_supply hfuel (fun _ _ => 55)
    (Terminal.initializeKeyboardBuffer fun _ => Keyboard.nul) fun _ => ⟨[], 0, 0, 0⟩
  rw [hinit, Option.bind_some] at hreplay
  obtain ⟨s, hs⟩ := Option.isSome_iff_exists.1 hreplay
  have hrun := run_of_replay hs
  refine ⟨fs, s, hinit, hrun, ((hall _ _ _ _ _ hrun).1 rfl).trans ?_⟩
  decide +kernel

end Shell

end OswpKernel
