import OswpKernel.Files.Block

/-!
# Splitters — the names of the archive and the paths to them (`fs.c`)

`load_tarfs` and `find_file` cut a name up with a loop of their own each, over a buffer that holds
what the stack held before.  `enterComponents_eq` and `Frame.findFile_eq` say that the components
are all the rest of the two functions sees of the name, and `splitters_agree_iff` says for which
members the two loops agree.
-/

namespace OswpKernel

namespace Files

/-! ## The components of the two functions -/

/-- The rows up to the first empty one, as the loop over the components reads them. -/
def readRows (rows : Nat → Nat → UInt8) : List Nat → Option (List (List UInt8))
  | [] => some []
  | l :: ls => do
      let name ← characters 10 (rows l)
      if name = [] then some []
      else
        let names ← readRows rows ls
        return name :: names

/-- What `load_tarfs` extracts from a name. -/
def loadComponents (rows : Nat → Nat → UInt8) (name : List UInt8) :
    Option (List (List UInt8)) := do
  let s ← SubName.split ⟨rows, 0, 0⟩ name
  readRows s.rows (List.range (s.k + 1))

/-- A name of at most four components, of at most 8 bytes besides the `/` they end in, that does not
start with a `/`. -/
structure MemberName (n : List UInt8) : Prop where
  nonempty : n ≠ []
  relative : n.head? ≠ some slash
  nul : (0 : UInt8) ∉ n
  count : (components n).length ≤ 4
  directories : ∀ c ∈ components n, EndsWithSlash c → c.length ≤ 9
  files : ∀ c ∈ components n, ¬ EndsWithSlash c → c.length ≤ 8

/-- The fourth component, in the last of the six rows, leaves a byte behind its NUL. -/
def LastFits (n : List UInt8) : Prop :=
  (components n).length = 4 → ∀ c ∈ (components n).getLast?, c.length ≤ 8

/-- The two functions extract the same components, so that in every tree `find_file` follows those
of `load_tarfs`. -/
def Agrees (n : List UInt8) (rows : Nat → Nat → UInt8) (subName : Bytes.Memory) : Prop :=
  ∃ cs, loadComponents rows n = some cs ∧
    Frame.findComponents subName (memberPath n) = some (rootName :: rootfsName :: cs) ∧
    ∀ h root, FileTree h root → root.name = rootName →
      ∃ found, Frame.findFile h root subName (memberPath n) = some found ∧
        ∀ u, found = some u ↔ Leads h root (rootfsName :: cs) u

variable {n path : List UInt8} {rows : Nat → Nat → UInt8} {names tail cs : List (List UInt8)}
  {ls : List Nat} {s s' : SubName} {body : List UInt8}

/-! ## The two functions see the components only -/

/-- The loop over the components, once these have been read; each with the number of its row. -/
def Loader.enterNames (subName size header : Word) :
    List (Nat × List UInt8) → InodeRef → Loader → Option Loader
  | [], _, L => some L
  | (l, name) :: names, active, L => do
      let (active, L) ← if EndsWithSlash name then L.enterDirectory active name size
        else L.enterFile active name (subName + BitVec.ofNat 64 (10 * l)) size header
      enterNames subName size header names active L

theorem enterComponents_eq (subName size header : Word) (ls : List Nat) (active : InodeRef)
    (L : Loader) (names : List (List UInt8)) (hread : readRows rows ls = some names) :
    Loader.enterComponents rows subName size header ls active L =
      Loader.enterNames subName size header (ls.zip names) active L := by
  induction ls generalizing active L names with
  | nil => rfl
  | cons l ls ih =>
      obtain ⟨name, hname, hread⟩ := Option.bind_eq_some_iff.1 hread
      rw [Loader.enterComponents, hname, Option.bind_eq_bind, Option.bind_some]
      rcases List.eq_nil_or_concat name with rfl | ⟨front, c, rfl⟩
      · -- an empty row ends both loops
        rw [if_pos rfl] at hread
        rw [← Option.some_inj.1 hread]
        rfl
      · rw [List.concat_eq_append] at hread ⊢
        rw [if_neg (List.concat_ne_nil c front)] at hread
        obtain ⟨rest, hrest, hread⟩ := Option.bind_eq_some_iff.1 hread
        rw [← Option.some_inj.1 hread, List.zip_cons_cons, Loader.enterNames,
          List.getLast?_concat]
        have hslash : EndsWithSlash (front ++ [c]) ↔ c = slash := by
          rw [EndsWithSlash, List.getLast?_concat, Option.some_inj]
        simp only [hslash]
        -- the entry that has been made is the same, and so are those behind it
        have hlater : ∀ entered : InodeRef × Loader, _ = _ :=
          fun entered => ih entered.1 entered.2 rest hrest
        split_ifs
        · exact congrArg (L.enterDirectory active (front ++ [c]) size).bind (funext hlater)
        · exact congrArg (L.enterFile active (front ++ [c]) _ size header).bind (funext hlater)

/-! ## Reading the rows -/

theorem readRows_eq (hne : ∀ name ∈ names, name ≠ []) (htail : tail = [] ∨ tail = [[]])
    (h : List.Forall₂ (fun l piece => characters 10 (rows l) = some piece) ls (names ++ tail)) :
    readRows rows ls = some names := by
  induction names generalizing ls with
  | nil =>
      rcases htail with rfl | rfl
      · cases h
        rfl
      · cases h with
        | cons hfirst _ =>
            rw [readRows, hfirst]
            rfl
  | cons name names ih =>
      cases h with
      | cons hfirst hrest =>
          have hsome := hne name List.mem_cons_self
          rw [readRows, hfirst, Option.bind_eq_bind, Option.bind_some, if_neg hsome,
            ih (fun name hname => hne name (List.mem_cons_of_mem _ hname)) hrest]
          rfl

/-! ## A name with a `/` -/

theorem MemberName.count_slash (hn : MemberName n) : n.count slash ≤ 4 := by
  obtain ⟨bodies, last, hpieces⟩ := exists_pieces n
  have hcount := hn.count
  rw [hpieces.components, List.length_append, List.length_map] at hcount
  rw [hpieces.count]
  omega

theorem MemberName.fitsBuffer (hn : MemberName n) (hslash : slash ∈ n) : FitsBuffer n where
  nul := hn.nul
  slashes := ⟨List.one_le_count_iff.2 hslash, hn.count_slash.trans (by decide)⟩
  directories := hn.directories
  files := hn.files

/-- The row behind the last `/` has been zeroed, so that the terminator one place too far does no
harm. -/
theorem MemberName.loadComponents_slash (hn : MemberName n) (hslash : slash ∈ n)
    (rows : Nat → Nat → UInt8) : loadComponents rows n = some (components n) := by
  obtain ⟨s, tail, hsplit, -, htail, hrows⟩ := split_components (hn.fitsBuffer hslash) rows
  rw [loadComponents, hsplit, Option.bind_eq_bind, Option.bind_some]
  exact readRows_eq (fun _ hname => components_ne_nil hname) htail hrows

/-! ## A name without one -/

/-- The loop writes nothing behind the characters of the row. -/
theorem turns_keep (hbody : slash ∉ body) (hturns : body.foldlM SubName.turn s = some s') :
    s'.k = s.k ∧ ∀ i, s.j + body.length ≤ i → s'.rows s.k i = s.rows s.k i := by
  induction body generalizing s with
  | nil =>
      rw [← Option.some_inj.1 hturns]
      exact ⟨rfl, fun _ _ => rfl⟩
  | cons c cs ih =>
      rw [List.mem_cons, not_or] at hbody
      obtain ⟨s₁, hturn, hrest⟩ := Option.bind_eq_some_iff.1 hturns
      obtain ⟨s₂, hput, hturn⟩ := Option.bind_eq_some_iff.1 hturn
      rw [if_neg (Ne.symm hbody.1)] at hturn
      rw [SubName.put] at hput
      split_ifs at hput
      rw [← Option.some_inj.1 hturn, ← Option.some_inj.1 hput] at hrest
      obtain ⟨hk, hkeep⟩ := ih hbody.2 hrest
      refine ⟨hk, fun i hi => ?_⟩
      rw [List.length_cons] at hi
      calc
        s'.rows s.k i = Function.update s.rows s.k (Function.update (s.rows s.k) s.j c) s.k i :=
          hkeep i (by dsimp only; omega)
        _ = Function.update (s.rows s.k) s.j c i := by rw [Function.update_self]
        _ = s.rows s.k i := Function.update_of_ne (by omega) ..

/-- The buffer after the split: the name in the first row, then what the row held, and a NUL. -/
theorem split_file (hslash : slash ∉ n) (hlength : n.length ≤ 8) (rows : Nat → Nat → UInt8) :
    ∃ s, SubName.split ⟨rows, 0, 0⟩ n = some s ∧ s.k = 0 ∧
      (List.range n.length).map (s.rows 0) = n ∧ s.rows 0 n.length = rows 0 n.length ∧
      s.rows 0 (n.length + 1) = 0 := by
  obtain ⟨s₁, hturns, h₁⟩ := (filled_start rows).turns hslash (by decide)
    (by rw [List.length_nil]; omega)
  rw [List.nil_append] at h₁
  obtain ⟨hk₁, hkeep⟩ := turns_keep hslash hturns
  obtain ⟨s, hput, hrow⟩ := put_inRow (s := s₁) (k := s₁.k) (j := s₁.j + 1) (c := 0)
    (by rw [h₁.k]; decide) (by rw [h₁.j]; omega)
  have hsplit : SubName.split ⟨rows, 0, 0⟩ n = some s := by
    rw [SubName.split, hturns]
    exact hput
  -- the terminator goes one place behind the name, and the place between is not written
  have hgarbage : s₁.rows 0 n.length = rows 0 n.length := hkeep n.length (Nat.zero_add _).le
  have hnew : s.rows 0 = Function.update (s₁.rows 0) (n.length + 1) 0 := by
    have hnew := hrow.new
    rw [h₁.k, h₁.j] at hnew
    exact hnew
  refine ⟨s, hsplit, hrow.k.trans h₁.k, ?_, ?_, ?_⟩
  · have hfirst := h₁.row
    rw [h₁.k] at hfirst
    refine (List.map_congr_left fun i hi => ?_).trans hfirst
    rw [List.mem_range] at hi
    rw [hnew, Function.update_of_ne (by omega)]
    rfl
  · rw [hnew, Function.update_of_ne (by omega), hgarbage]
  · rw [hnew, Function.update_self]

/-- The terminator is one place too far, and what the buffer held there becomes the last character
of the name. -/
theorem split_file_reads (hslash : slash ∉ n) (hne : n ≠ []) (hnul : (0 : UInt8) ∉ n)
    (hlength : n.length ≤ 8) (rows : Nat → Nat → UInt8) :
    ∃ s, SubName.split ⟨rows, 0, 0⟩ n = some s ∧ s.k = 0 ∧
      readRows s.rows (List.range (s.k + 1)) =
        some [n ++ if rows 0 n.length = 0 then [] else [rows 0 n.length]] := by
  obtain ⟨s, hsplit, hk, hmap, hat, hend⟩ := split_file hslash hlength rows
  have hread : characters 10 (s.rows 0) =
      some (n ++ if rows 0 n.length = 0 then [] else [rows 0 n.length]) := by
    split_ifs with hzero
    · rw [List.append_nil]
      exact characters_eq hmap hnul (hat.trans hzero) (by omega)
    · -- the row goes on with the old byte
      have hlast : (n ++ [rows 0 n.length]).length = n.length + 1 := by
        rw [List.length_append, List.length_singleton]
      refine characters_eq ?_ ?_ ?_ (by omega)
      · rw [hlast, List.range_succ, List.map_append, hmap, List.map_singleton, hat]
      · rw [List.mem_append, not_or, List.mem_singleton]
        exact ⟨hnul, fun h => hzero h.symm⟩
      · rw [hlast, hend]
  have hrows : List.Forall₂ (fun l piece => characters 10 (s.rows l) = some piece) [0]
      ([n ++ if rows 0 n.length = 0 then [] else [rows 0 n.length]] ++ []) :=
    .cons hread .nil
  refine ⟨s, hsplit, hk, ?_⟩
  rw [hk]
  refine readRows_eq (fun name hname => ?_) (Or.inl rfl) hrows
  rw [List.mem_singleton.1 hname]
  exact List.append_ne_nil_of_left_ne_nil hne _

theorem MemberName.loadComponents_file (hn : MemberName n) (hslash : slash ∉ n)
    (rows : Nat → Nat → UInt8) :
    loadComponents rows n =
      some [n ++ if rows 0 n.length = 0 then [] else [rows 0 n.length]] := by
  have hlength : n.length ≤ 8 := by
    refine hn.files n ?_ (not_endsWithSlash hslash)
    rw [components_of_notMem hslash, if_neg hn.nonempty]
    exact List.mem_singleton_self n
  obtain ⟨s, hsplit, -, hread⟩ := split_file_reads hslash hn.nonempty hn.nul hlength rows
  rw [loadComponents, hsplit, Option.bind_eq_bind, Option.bind_some]
  exact hread

/-! ## The path -/

theorem components_memberPath (n : List UInt8) :
    components (memberPath n) = rootName :: rootfsName :: components n := by
  have hrootfs : slash ∉ [114, 111, 111, 116, 102, 115] := by decide
  have hpath : memberPath n = [] ++ slash :: ([114, 111, 111, 116, 102, 115] ++ slash :: n) := rfl
  rw [hpath, components_append List.not_mem_nil, components_append hrootfs]
  rfl

/-- Where all components but the last stay in their rows, it is the last one that counts. -/
theorem Frame.fitsBlock_concat {k : Nat} {c : List UInt8} (hcs : ∀ d ∈ cs, d.length ≤ 9) :
    Frame.FitsBlock k 0 (cs ++ [c]) ↔
      k + cs.length < 6 ∧ 10 * (k + cs.length) + c.length + 1 < 60 := by
  induction cs generalizing k with
  | nil =>
      rw [List.nil_append, Frame.FitsBlock, List.length_nil]
      omega
  | cons d cs ih =>
      rw [List.forall_mem_cons] at hcs
      rw [List.cons_append, Frame.fitsBlock_cons (List.concat_ne_nil _ _), ih hcs.2,
        List.length_cons]
      have hd := hcs.1
      omega

theorem MemberName.length_le (hn : MemberName n) :
    ∀ c ∈ components (memberPath n), c.length ≤ 9 := by
  rw [components_memberPath, List.forall_mem_cons, List.forall_mem_cons]
  refine ⟨by decide, by decide, fun c hc => ?_⟩
  by_cases hdir : EndsWithSlash c
  · exact hn.directories c hc hdir
  · exact (hn.files c hc hdir).trans (by decide)

theorem MemberName.nul_path (hn : MemberName n) : (0 : UInt8) ∉ memberPath n := by
  rw [memberPath, List.mem_append, not_or]
  exact ⟨by decide, hn.nul⟩

/-- Only the last component may be too long for the block. -/
theorem MemberName.fitsFind_iff (hn : MemberName n) :
    Frame.FitsFind (memberPath n) ↔ LastFits n := by
  have habs : (memberPath n).head? = some slash := rfl
  have hlength := hn.length_le
  have hcount := hn.count
  rw [Frame.FitsFind, forall_prop_of_true habs, LastFits]
  rcases List.eq_nil_or_concat (components n) with hnil | ⟨init, c, hconcat⟩
  · exact absurd hnil (components_nonempty hn.nonempty)
  · rw [List.concat_eq_append] at hconcat
    rw [components_memberPath, hconcat] at hlength ⊢
    rw [hconcat, List.length_append, List.length_singleton] at hcount
    have hinit : ∀ d ∈ rootName :: rootfsName :: init, d.length ≤ 9 :=
      fun d hd => hlength d (List.mem_append_left [c] hd)
    have hc : c.length ≤ 9 := hlength c (List.mem_append_right
      (rootName :: rootfsName :: init) List.mem_cons_self)
    have hblock := Frame.fitsBlock_concat (k := 0) (c := c) hinit
    rw [List.cons_append, List.cons_append] at hblock
    rw [hblock, List.length_append, List.length_singleton, List.getLast?_concat,
      List.length_cons, List.length_cons]
    constructor
    · rintro ⟨-, hroom⟩ hfour d hd
      rw [← Option.some_inj.1 hd]
      omega
    · intro hlast
      refine ⟨by omega, ?_⟩
      by_cases hfour : init.length + 1 = 4
      · have hshort := hlast hfour c rfl
        omega
      · omega

theorem MemberName.findComponents (hn : MemberName n) (hlast : LastFits n)
    (subName : Bytes.Memory) :
    Frame.findComponents subName (memberPath n) =
      some (rootName :: rootfsName :: components n) := by
  obtain ⟨names, hnames, hall⟩ :=
    Frame.findComponents_readsAs rfl hn.nul_path (hn.fitsFind_iff.2 hlast rfl) subName
  rw [hnames, ← components_memberPath, Option.some_inj]
  -- no component is too long for its row
  have heq : List.Forall₂ Eq (components (memberPath n)) names :=
    ((List.forall₂_and_left _ _).2 ⟨hn.length_le, hall⟩).imp fun _ _ h =>
      (h.2.eq_of_short (Or.inl h.1)).symm
  rw [List.forall₂_eq_eq_eq] at heq
  exact heq.symm

/-- Four components, the last of them with 8 characters and a `/`: the terminator goes to the byte
behind the buffer. -/
theorem MemberName.findComponents_none (hn : MemberName n) (hlast : ¬ LastFits n)
    (subName : Bytes.Memory) : Frame.findComponents subName (memberPath n) = none := by
  rw [← Option.not_isSome_iff_eq_none, Frame.findComponents_isSome_iff rfl hn.nul_path]
  exact fun hfits => hlast (hn.fitsFind_iff.1 fun _ => hfits)

/-! ## Agreement -/

/-- The two functions extract the same components of a member, and `find_file` then finds in every
tree what the components of `load_tarfs` lead to, just if the name has a `/` or the buffer happened
to hold a NUL behind it, and `find_file` has room for the last component. -/
theorem splitters_agree_iff (hn : MemberName n) (rows : Nat → Nat → UInt8)
    (subName : Bytes.Memory) :
    Agrees n rows subName ↔ (slash ∈ n ∨ rows 0 n.length = 0) ∧ LastFits n := by
  by_cases hlast : LastFits n
  · rw [and_iff_left hlast]
    have hfind := hn.findComponents hlast subName
    -- the components of the path are right, so those of `load_tarfs` have to be so, too
    have hiff : Agrees n rows subName ↔ loadComponents rows n = some (components n) := by
      constructor
      · rintro ⟨cs, hload, hcomponents, -⟩
        rw [hfind] at hcomponents
        obtain ⟨-, htail⟩ := List.cons_eq_cons.1 (Option.some_inj.1 hcomponents)
        rw [hload, (List.cons_eq_cons.1 htail).2]
      · intro hload
        refine ⟨components n, hload, hfind, fun h root htree hroot => ?_⟩
        refine ⟨_, by rw [Frame.findFile_eq rfl, hfind, Option.map_some], fun u => ?_⟩
        rw [htree.findFileFromRoot_iff]
        exact and_iff_right hroot
    rw [hiff]
    by_cases hslash : slash ∈ n
    · exact iff_of_true (hn.loadComponents_slash hslash rows) (Or.inl hslash)
    · rw [hn.loadComponents_file hslash, components_of_notMem hslash, if_neg hn.nonempty,
        Option.some_inj, List.cons_eq_cons, and_iff_left rfl, List.append_right_eq_self,
        or_iff_right hslash]
      by_cases hzero : rows 0 n.length = 0
      · rw [if_pos hzero]
        exact iff_of_true rfl hzero
      · rw [if_neg hzero]
        exact iff_of_false (List.cons_ne_nil _ _) hzero
  · refine iff_of_false ?_ fun hboth => hlast hboth.2
    rintro ⟨cs, -, hcomponents, -⟩
    rw [hn.findComponents_none hlast] at hcomponents
    cases hcomponents

/-- `"bin/ls"`, on a stack that held an `x` everywhere. -/
theorem splitters_agree_binLs :
    Agrees [98, 105, 110, 47, 108, 115] (fun _ _ => 120) fun _ => 120 :=
  (splitters_agree_iff ⟨by decide, by decide, by decide, by decide, by decide, by decide⟩ _ _).2
    ⟨Or.inl (by decide), fun hfour => absurd hfour (by decide)⟩

/-- `"a"`, on a stack that held an `x` behind it. -/
theorem not_splitters_agree :
    ¬ ∀ n rows subName, MemberName n → Agrees n rows subName := by
  intro h
  have hn : MemberName [97] :=
    ⟨by decide, by decide, by decide, by decide, by decide, by decide⟩
  obtain ⟨cs, hload, hfind, -⟩ := h [97] (fun _ _ => 120) (fun _ => 0) hn
  rw [hn.loadComponents_file (by decide)] at hload
  rw [hn.findComponents (fun hfour => absurd hfour (by decide)), ← Option.some_inj.1 hload] at hfind
  exact absurd hfind (by decide)

end Files

end OswpKernel
