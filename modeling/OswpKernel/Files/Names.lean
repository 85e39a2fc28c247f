import OswpKernel.Files.Archive
import Mathlib.Data.List.Infix
import Mathlib.Data.Nat.Digits.Lemmas
import Mathlib.Tactic.IntervalCases

/-!
# Names — the components of a name, and the fields of a header

`load_tarfs` cuts a name up in `sub_name[6][10]`.  `split_components` says that the rows are then
the components of the name: a directory keeps its `/`, and a file is terminated only because its
row has been zeroed at the last `/`.  `getSize_eq` reads the size field.
-/

namespace OswpKernel

namespace Files

/-- The pieces of a name, each up to and with its `/`. -/
def components : List UInt8 → List (List UInt8)
  | [] => []
  | c :: cs =>
      if c = slash then [c] :: components cs
      else match components cs with
        | [] => [[c]]
        | piece :: pieces => (c :: piece) :: pieces

/-- The component names a directory. -/
def EndsWithSlash (name : List UInt8) : Prop := name.getLast? = some slash

instance (name : List UInt8) : Decidable (EndsWithSlash name) :=
  inferInstanceAs (Decidable (_ = _))

variable {name cur body : List UInt8} {room k j : Nat} {string : Nat → UInt8} {c : UInt8}

/-! ## Strings -/

theorem characters_eq (hmap : (List.range cur.length).map string = cur) (hnul : (0 : UInt8) ∉ cur)
    (hend : string cur.length = 0) (hroom : cur.length < room) :
    characters room string = some cur := by
  have hlength : kstrlength room string = some cur.length := by
    rw [kstrlength, List.find?_range_eq_some]
    refine ⟨decide_eq_true hend, List.mem_range.2 hroom, fun i hi => ?_⟩
    have hmem : string i ∈ cur := by
      rw [← hmap]
      exact List.mem_map_of_mem (List.mem_range.2 hi)
    have hne : string i ≠ 0 := fun h => hnul (h ▸ hmem)
    simpa using hne
  rw [characters, hlength, Option.map_some, hmap]

/-! ## Components -/

theorem components_of_notMem (h : slash ∉ cur) :
    components cur = if cur = [] then [] else [cur] := by
  induction cur with
  | nil => rfl
  | cons c cs ih =>
      rw [List.mem_cons, not_or] at h
      rw [components, if_neg (Ne.symm h.1), ih h.2, if_neg (List.cons_ne_nil c cs)]
      cases cs <;> rfl

theorem components_append (h : slash ∉ body) (rest : List UInt8) :
    components (body ++ slash :: rest) = (body ++ [slash]) :: components rest := by
  induction body with
  | nil => rfl
  | cons c cs ih =>
      rw [List.mem_cons, not_or] at h
      rw [List.cons_append, components, if_neg (Ne.symm h.1), ih h.2]
      rfl

/-- What a name is made of: the directories, and what comes behind the last `/`. -/
structure Pieces (name : List UInt8) (bodies : List (List UInt8)) (last : List UInt8) : Prop where
  noSlash : ∀ body ∈ bodies, slash ∉ body
  noSlash_last : slash ∉ last
  eq : name = (bodies.flatMap (· ++ [slash])) ++ last

theorem exists_pieces (name : List UInt8) : ∃ bodies last, Pieces name bodies last := by
  induction name with
  | nil => exact ⟨[], [], by simp, by simp, rfl⟩
  | cons c cs ih =>
      rcases ih with ⟨bodies, last, h⟩
      by_cases hc : c = slash
      · refine ⟨[] :: bodies, last, ?_, h.noSlash_last, ?_⟩
        · intro body hbody
          rcases List.mem_cons.1 hbody with rfl | hbody
          · exact List.not_mem_nil
          · exact h.noSlash body hbody
        · rw [h.eq, hc]
          rfl
      · cases bodies with
        | nil =>
            refine ⟨[], c :: last, by simp, ?_, by rw [h.eq]; rfl⟩
            rw [List.mem_cons, not_or]
            exact ⟨Ne.symm hc, h.noSlash_last⟩
        | cons body bodies =>
            refine ⟨(c :: body) :: bodies, last, ?_, h.noSlash_last, by rw [h.eq]; rfl⟩
            intro body' hbody'
            rcases List.mem_cons.1 hbody' with rfl | hbody'
            · rw [List.mem_cons, not_or]
              exact ⟨Ne.symm hc, h.noSlash body List.mem_cons_self⟩
            · exact h.noSlash body' (List.mem_cons_of_mem _ hbody')

theorem Pieces.components {bodies : List (List UInt8)} {last : List UInt8}
    (h : Pieces name bodies last) :
    components name = bodies.map (· ++ [slash]) ++ if last = [] then [] else [last] := by
  rcases h with ⟨hbodies, hlast, rfl⟩
  induction bodies with
  | nil => exact components_of_notMem hlast
  | cons body bodies ih =>
      have hbody := hbodies body List.mem_cons_self
      rw [List.flatMap_cons, List.append_assoc, List.append_assoc, List.singleton_append,
        components_append hbody, ih fun b hb => hbodies b (List.mem_cons_of_mem _ hb)]
      rfl

theorem Pieces.count {bodies : List (List UInt8)} {last : List UInt8}
    (h : Pieces name bodies last) : name.count slash = bodies.length := by
  rcases h with ⟨hbodies, hlast, rfl⟩
  induction bodies with
  | nil => exact List.count_eq_zero.2 hlast
  | cons body bodies ih =>
      have hbody := List.count_eq_zero.2 (hbodies body List.mem_cons_self)
      have ih := ih fun b hb => hbodies b (List.mem_cons_of_mem _ hb)
      rw [List.flatMap_cons, List.append_assoc, List.count_append, List.count_append, hbody, ih,
        List.length_cons, List.count_singleton_self]
      omega

theorem flatten_components (name : List UInt8) : (components name).flatten = name := by
  rcases exists_pieces name with ⟨bodies, last, h⟩
  have hlast : (if last = [] then [] else [last]).flatten = last := by
    split_ifs with hnil
    · exact hnil.symm
    · simp
  rw [h.components, List.flatten_append, hlast, h.eq, List.flatMap_def]

theorem components_injective : Function.Injective components := fun a b h => by
  rw [← flatten_components a, h, flatten_components]

theorem endsWithSlash_append (body : List UInt8) : EndsWithSlash (body ++ [slash]) :=
  List.getLast?_concat

theorem not_endsWithSlash (h : slash ∉ cur) : ¬ EndsWithSlash cur := fun hlast =>
  h (List.mem_of_getLast? hlast)

/-- Only the last component may be a file. -/
theorem components_dropLast {piece : List UInt8} (hmem : piece ∈ (components name).dropLast) :
    EndsWithSlash piece := by
  rcases exists_pieces name with ⟨bodies, last, h⟩
  have hsub : piece ∈ bodies.map (· ++ [slash]) := by
    rw [h.components] at hmem
    split_ifs at hmem with hnil
    · rw [List.append_nil] at hmem
      exact List.mem_of_mem_dropLast hmem
    · rw [List.dropLast_concat] at hmem
      exact hmem
  rcases List.mem_map.1 hsub with ⟨body, -, rfl⟩
  exact endsWithSlash_append body

theorem components_ne_nil {piece : List UInt8} (hmem : piece ∈ components name) : piece ≠ [] := by
  rcases exists_pieces name with ⟨bodies, last, h⟩
  rw [h.components, List.mem_append] at hmem
  rcases hmem with hmem | hmem
  · rcases List.mem_map.1 hmem with ⟨body, -, rfl⟩
    exact List.append_ne_nil_of_right_ne_nil _ (List.cons_ne_nil _ _)
  · split_ifs at hmem with hnil
    · exact absurd hmem List.not_mem_nil
    · rw [List.mem_singleton.1 hmem]
      exact hnil

/-! ## The buffer -/

/-- What the buffer holds after the directories `done` and the characters `cur` of the next
component. -/
structure Filled (s : SubName) (done : List (List UInt8)) (cur : List UInt8) : Prop where
  k : s.k = done.length
  j : s.j = cur.length
  rows : ∀ l, l < done.length → characters 10 (s.rows l) = done[l]?
  row : (List.range cur.length).map (s.rows s.k) = cur
  -- the first row is not zeroed by anything
  zeroed : done ≠ [] → ∀ i, cur.length ≤ i → i < 10 → s.rows s.k i = 0

variable {s s' : SubName} {done bodies : List (List UInt8)} {last : List UInt8}

/-- A further character of the row in progress. -/
theorem map_update_concat {row : Nat → UInt8} (h : (List.range cur.length).map row = cur) :
    (List.range (cur ++ [c]).length).map (Function.update row cur.length c) = cur ++ [c] := by
  have hkeep : (List.range cur.length).map (Function.update row cur.length c) = cur := by
    refine (List.map_congr_left fun i hi => ?_).trans h
    exact Function.update_of_ne (Nat.ne_of_lt (List.mem_range.1 hi)) _ _
  rw [List.length_append, List.length_singleton, List.range_succ, List.map_append, hkeep,
    List.map_singleton, Function.update_self]

/-- The row `row` has become `new`, nothing else has changed. -/
structure InRow (s s' : SubName) (row : Nat) (new : Nat → UInt8) : Prop where
  k : s'.k = s.k
  j : s'.j = s.j
  new : s'.rows row = new
  others : ∀ l, l ≠ row → s'.rows l = s.rows l

theorem put_inRow (hk : k < 6) (hj : j < 10) :
    ∃ s', s.put k j c = some s' ∧ InRow s s' k (Function.update (s.rows k) j c) :=
  ⟨_, if_pos ⟨hk, hj⟩, rfl, rfl, Function.update_self .., fun _ hl => Function.update_of_ne hl ..⟩

theorem zero_inRow (hk : k < 6) :
    ∃ s', s.zero k = some s' ∧ InRow s s' k fun j => if j < 10 then 0 else s.rows k j :=
  ⟨_, if_pos hk, rfl, rfl, Function.update_self .., fun _ hl => Function.update_of_ne hl ..⟩

theorem Filled.turn_char (h : Filled s done cur) (hc : c ≠ slash) (hk : done.length < 6)
    (hj : cur.length < 10) : ∃ s', s.turn c = some s' ∧ Filled s' done (cur ++ [c]) := by
  rcases put_inRow (s := s) (k := s.k) (j := s.j) (c := c) (h.k ▸ hk) (h.j ▸ hj) with
    ⟨s₁, hput, hrow⟩
  have hturn : s.turn c = some { s₁ with j := s₁.j + 1 } := by
    rw [SubName.turn, hput, Option.bind_eq_bind, Option.bind_some, if_neg hc]
    rfl
  have hlength : (cur ++ [c]).length = cur.length + 1 := List.length_append
  refine ⟨_, hturn, hrow.k.trans h.k, ?_, fun l hl => ?_, ?_, fun hne i hi hlt => ?_⟩
  · rw [hlength, ← h.j, ← hrow.j]
  · have hne : l ≠ s.k := by rw [h.k]; exact Nat.ne_of_lt hl
    rw [← h.rows l hl, ← hrow.others l hne]
  · have hmap := map_update_concat (c := c) h.row
    rw [← h.j, ← hrow.new, ← hrow.k] at hmap
    exact hmap
  · rw [hlength] at hi
    change s₁.rows s₁.k i = 0
    rw [hrow.k, hrow.new, Function.update_of_ne (by rw [h.j]; omega)]
    exact h.zeroed hne i (by omega) hlt

theorem Filled.turn_slash (h : Filled s done cur) (hk : done.length + 1 < 6)
    (hj : cur.length + 1 < 10) (hnul : (0 : UInt8) ∉ cur) :
    ∃ s', s.turn slash = some s' ∧ Filled s' (done ++ [cur ++ [slash]]) [] := by
  have hsk : s.k < 6 := by rw [h.k]; omega
  have hsj : s.j < 10 := by rw [h.j]; omega
  rcases put_inRow (c := slash) hsk hsj with ⟨s₁, hput₁, hrow₁⟩
  have hsk₁ : s₁.k < 6 := hrow₁.k ▸ hsk
  have hsj₁ : s₁.j + 1 < 10 := by rw [hrow₁.j, h.j]; omega
  rcases put_inRow (c := 0) hsk₁ hsj₁ with ⟨s₂, hput₂, hrow₂⟩
  -- after the `/` and its NUL the next row is zeroed, so it has to be one of the six
  have hsk₂ : s₂.k + 1 < 6 := by rw [hrow₂.k, hrow₁.k, h.k]; omega
  rcases zero_inRow hsk₂ with ⟨s₃, hzero, hrow₃⟩
  have hturn : s.turn slash = some { s₃ with k := s₃.k + 1, j := 0 } := by
    rw [SubName.turn, hput₁, Option.bind_eq_bind, Option.bind_some, if_pos rfl, hput₂,
      Option.bind_some, hzero]
    rfl
  have hk₃ : s₃.k = done.length := by rw [hrow₃.k, hrow₂.k, hrow₁.k, h.k]
  have hk₂ : s₂.k = done.length := by rw [hrow₂.k, hrow₁.k, h.k]
  have hlength : (done ++ [cur ++ [slash]]).length = done.length + 1 := List.length_append
  refine ⟨_, hturn, by rw [hlength, ← hk₃], rfl, fun l hl => ?_, rfl, fun _ i _ hlt => ?_⟩
  · change characters 10 (s₃.rows l) = _
    rw [hlength] at hl
    rw [hrow₃.others l (by rw [hk₂]; omega)]
    by_cases hlast : l = done.length
    · -- the row that has just been completed
      have hrow : s₂.rows l = Function.update (Function.update (s.rows s.k) cur.length slash)
          (cur.length + 1) 0 := by
        rw [hlast, ← h.k, ← hrow₁.k, hrow₂.new, hrow₁.k, hrow₁.new, hrow₁.j, h.j]
      have hmap := map_update_concat (c := slash) h.row
      rw [hlast, List.getElem?_concat_length, ← hlast, hrow]
      refine characters_eq ((List.map_congr_left fun i hi => ?_).trans hmap) ?_ ?_ ?_
      · rw [List.mem_range, List.length_append, List.length_singleton] at hi
        exact Function.update_of_ne (by omega) ..
      · rw [List.mem_append, not_or]
        exact ⟨hnul, by decide⟩
      · rw [List.length_append, List.length_singleton, Function.update_self]
      · rw [List.length_append, List.length_singleton]
        omega
    · rw [hrow₂.others l (by rw [hrow₁.k, h.k]; exact hlast),
        hrow₁.others l (by rw [h.k]; exact hlast), h.rows l (by omega),
        List.getElem?_append_left (by omega)]
  · change s₃.rows (s₃.k + 1) i = 0
    rw [hrow₃.k, hrow₃.new]
    exact if_pos hlt

/-- The characters of a component up to its `/`. -/
theorem Filled.turns (h : Filled s done cur) (hbody : slash ∉ body) (hk : done.length < 6)
    (hj : cur.length + body.length ≤ 10) :
    ∃ s', body.foldlM SubName.turn s = some s' ∧ Filled s' done (cur ++ body) := by
  induction body generalizing s cur with
  | nil => exact ⟨s, rfl, by rwa [List.append_nil]⟩
  | cons c cs ih =>
      rw [List.mem_cons, not_or] at hbody
      rw [List.length_cons] at hj
      rcases h.turn_char (Ne.symm hbody.1) hk (by omega) with ⟨s₁, hturn, h₁⟩
      have hlength : (cur ++ [c]).length + cs.length ≤ 10 := by
        rw [List.length_append, List.length_singleton]
        omega
      rcases ih h₁ hbody.2 hlength with ⟨s', hrest, h'⟩
      refine ⟨s', ?_, ?_⟩
      · rw [List.foldlM_cons, hturn]
        exact hrest
      · rwa [List.append_assoc, List.singleton_append] at h'

/-- The directories of a name. -/
theorem Filled.directories (h : Filled s done []) (hbodies : ∀ body ∈ bodies, slash ∉ body)
    (hnul : ∀ body ∈ bodies, (0 : UInt8) ∉ body) (hlen : ∀ body ∈ bodies, body.length + 1 ≤ 9)
    (hk : done.length + bodies.length < 6) :
    ∃ s', (bodies.flatMap (· ++ [slash])).foldlM SubName.turn s = some s' ∧
      Filled s' (done ++ bodies.map (· ++ [slash])) [] := by
  induction bodies generalizing s done with
  | nil => exact ⟨s, rfl, by rwa [List.map_nil, List.append_nil]⟩
  | cons body bodies ih =>
      have hmem := List.mem_cons_self (a := body) (l := bodies)
      rw [List.length_cons] at hk
      rcases h.turns (hbodies body hmem) (by omega) (by have := hlen body hmem; simp; omega) with
        ⟨s₁, hturns, h₁⟩
      rw [List.nil_append] at h₁
      rcases h₁.turn_slash (by omega) (by have := hlen body hmem; omega) (hnul body hmem) with
        ⟨s₂, hslash, h₂⟩
      have hlength : (done ++ [body ++ [slash]]).length + bodies.length < 6 := by
        rw [List.length_append, List.length_singleton]
        omega
      rcases ih h₂ (fun b hb => hbodies b (List.mem_cons_of_mem _ hb))
        (fun b hb => hnul b (List.mem_cons_of_mem _ hb))
        (fun b hb => hlen b (List.mem_cons_of_mem _ hb)) hlength with ⟨s', hrest, h'⟩
      refine ⟨s', ?_, ?_⟩
      · rw [List.flatMap_cons, List.foldlM_append, List.foldlM_append, hturns]
        change (List.foldlM SubName.turn s₁ [slash] >>= _) = _
        rw [List.foldlM_cons, hslash]
        exact hrest
      · rwa [List.append_assoc, List.singleton_append] at h'

/-- A name with one to five `/`, whose components fit the rows of the buffer. -/
structure FitsBuffer (name : List UInt8) : Prop where
  nul : (0 : UInt8) ∉ name
  slashes : 1 ≤ name.count slash ∧ name.count slash ≤ 5
  directories : ∀ piece ∈ components name, EndsWithSlash piece → piece.length ≤ 9
  files : ∀ piece ∈ components name, ¬ EndsWithSlash piece → piece.length ≤ 8

theorem forall₂_range {α : Type*} {R : Nat → α → Prop} {xs : List α}
    (h : ∀ l x, xs[l]? = some x → R l x) : List.Forall₂ R (List.range xs.length) xs := by
  rw [List.forall₂_iff_get]
  refine ⟨List.length_range, fun l hl hl' => ?_⟩
  rw [List.get_eq_getElem, List.get_eq_getElem, List.getElem_range]
  exact h l _ (List.getElem?_eq_getElem hl')

/-- What the buffer holds before the loop. -/
theorem filled_start (rows : Nat → Nat → UInt8) : Filled ⟨rows, 0, 0⟩ [] [] :=
  ⟨rfl, rfl, fun l hl => absurd hl (Nat.not_lt_zero l), rfl, fun hne => absurd rfl hne⟩

/-- The rows hold the directories, and what comes behind the last `/`. -/
theorem split_pieces (h : FitsBuffer name) (hpieces : Pieces name bodies last)
    (rows : Nat → Nat → UInt8) :
    ∃ s, SubName.split ⟨rows, 0, 0⟩ name = some s ∧ s.k = bodies.length ∧
      List.Forall₂ (fun l piece => characters 10 (s.rows l) = some piece)
        (List.range (s.k + 1)) (bodies.map (· ++ [slash]) ++ [last]) := by
  have hcount := h.slashes
  rw [hpieces.count] at hcount
  have hsub : ∀ body ∈ bodies, body ++ [slash] ∈ components name := fun body hbody => by
    rw [hpieces.components]
    exact List.mem_append_left _ (List.mem_map_of_mem hbody)
  have hlen : ∀ body ∈ bodies, body.length + 1 ≤ 9 := fun body hbody => by
    have hle := h.directories _ (hsub body hbody) (endsWithSlash_append body)
    rwa [List.length_append, List.length_singleton] at hle
  have hnul : ∀ body ∈ bodies, (0 : UInt8) ∉ body := fun body hbody hmem => by
    refine h.nul ?_
    rw [← flatten_components name]
    exact List.mem_flatten.2 ⟨_, hsub body hbody, List.mem_append_left _ hmem⟩
  have hlast : last.length ≤ 8 := by
    by_cases hnil : last = []
    · rw [hnil]
      exact Nat.zero_le _
    · refine h.files last ?_ (not_endsWithSlash hpieces.noSlash_last)
      rw [hpieces.components, if_neg hnil]
      exact List.mem_append_right _ (List.mem_singleton_self _)
  have hlastnul : (0 : UInt8) ∉ last := fun hmem => h.nul (by
    rw [hpieces.eq]
    exact List.mem_append_right _ hmem)
  rcases (filled_start rows).directories hpieces.noSlash hnul hlen
    (by rw [List.length_nil]; omega) with ⟨s₁, hdirs, h₁⟩
  rw [List.nil_append] at h₁
  have hk : (bodies.map (· ++ [slash])).length < 6 := by
    rw [List.length_map]
    omega
  rcases h₁.turns hpieces.noSlash_last hk (by rw [List.length_nil]; omega) with ⟨s₂, hturns, h₂⟩
  rw [List.nil_append] at h₂
  rcases put_inRow (s := s₂) (k := s₂.k) (j := s₂.j + 1) (c := 0) (by rw [h₂.k]; exact hk)
    (by rw [h₂.j]; omega) with ⟨s, hput, hrow⟩
  have hsplit : SubName.split ⟨rows, 0, 0⟩ name = some s := by
    rw [SubName.split, hpieces.eq, List.foldlM_append, hdirs]
    change (List.foldlM SubName.turn s₁ last >>= _) = _
    rw [hturns]
    exact hput
  have hsk : s.k = bodies.length := by rw [hrow.k, h₂.k, List.length_map]
  have hne : bodies.map (· ++ [slash]) ≠ [] := fun hnil => by
    rw [← List.length_eq_zero_iff, List.length_map] at hnil
    omega
  -- the last row has been zeroed at the last `/`
  have hlastrow : characters 10 (s.rows s.k) = some last := by
    rw [hrow.k, hrow.new]
    refine characters_eq ((List.map_congr_left fun i hi => ?_).trans h₂.row) hlastnul ?_ (by omega)
    · rw [List.mem_range] at hi
      exact Function.update_of_ne (by rw [h₂.j]; omega) ..
    · rw [Function.update_of_ne (by rw [h₂.j]; omega)]
      exact h₂.zeroed hne _ le_rfl (by omega)
  refine ⟨s, hsplit, hsk, ?_⟩
  have hlength : s.k + 1 = (bodies.map (· ++ [slash]) ++ [last]).length := by
    rw [List.length_append, List.length_map, List.length_singleton, hsk]
  rw [hlength]
  refine forall₂_range fun l piece hpiece => ?_
  rcases lt_trichotomy l bodies.length with hlt | rfl | hgt
  · have hl : l < (bodies.map (· ++ [slash])).length := by rwa [List.length_map]
    rw [List.getElem?_append_left hl] at hpiece
    rw [hrow.others l (by rw [← hrow.k, hsk]; exact Nat.ne_of_lt hlt), h₂.rows l hl, hpiece]
  · rw [List.getElem?_append_right (by rw [List.length_map]), List.length_map,
      Nat.sub_self] at hpiece
    rw [← hsk, hlastrow]
    exact hpiece
  · rw [List.getElem?_eq_none (by rw [← hlength, hsk]; exact hgt)] at hpiece
    cases hpiece

/-- The rows hold the components, and an empty one behind a `/` at the end. -/
theorem split_components (h : FitsBuffer name) (rows : Nat → Nat → UInt8) :
    ∃ s tail, SubName.split ⟨rows, 0, 0⟩ name = some s ∧ s.k < 6 ∧ (tail = [] ∨ tail = [[]]) ∧
      List.Forall₂ (fun l piece => characters 10 (s.rows l) = some piece)
        (List.range (s.k + 1)) (components name ++ tail) := by
  rcases exists_pieces name with ⟨bodies, last, hpieces⟩
  have hcount := h.slashes
  rw [hpieces.count] at hcount
  rcases split_pieces h hpieces rows with ⟨s, hsplit, hsk, hall⟩
  refine ⟨s, if last = [] then [[]] else [], hsplit, by rw [hsk]; omega, ?_, ?_⟩
  · split_ifs <;> simp
  · rw [hpieces.components]
    split_ifs with hnil
    · rw [hnil] at hall
      rwa [List.append_nil]
    · rwa [List.append_nil]

/-! ## The size field -/

/-- The number that the last `n` of the 11 digits denote. -/
def octalOf (field : Nat → UInt8) (n : Nat) : Nat :=
  Nat.ofDigits 8 ((List.range n).map fun k => (field (10 - k)).toNat - 48)

/-- The number that the field denotes in base 8. -/
def octal (field : Nat → UInt8) : Nat := octalOf field 11

/-- A field of 11 octal digits. -/
def OctalDigits (field : Nat → UInt8) : Prop := ∀ j, j < 11 → 48 ≤ field j ∧ field j < 56

theorem octalOf_succ (field : Nat → UInt8) (n : Nat) :
    octalOf field (n + 1) = octalOf field n + 8 ^ n * ((field (10 - n)).toNat - 48) := by
  rw [octalOf, List.range_succ, List.map_append, List.map_singleton, Nat.ofDigits_append,
    Nat.ofDigits_singleton, List.length_map, List.length_range, ← octalOf]

theorem digit_of_octal {c : UInt8} (hlow : 48 ≤ c) (hhigh : c < 56) :
    c.toNat - 48 < 8 ∧ digit c = BitVec.ofNat 32 (c.toNat - 48) := by
  obtain ⟨d, hd, rfl⟩ : ∃ d, d < 8 ∧ c = 48 + UInt8.ofNat d := by
    refine ⟨c.toNat - 48, ?_, ?_⟩
    · have hlt : c.toNat < 56 := hhigh
      omega
    · have hle : 48 ≤ c.toNat := hlow
      rw [← UInt8.toNat_inj, UInt8.toNat_add, UInt8.toNat_ofNat']
      have hlt := c.toNat_lt
      change c.toNat = (48 + (c.toNat - 48) % 2 ^ 8) % 2 ^ 8
      omega
  interval_cases d <;> decide

/-- The term of one digit, multiplied in 32 bits. -/
theorem digit_mul {c : UInt8} (hlow : 48 ≤ c) (hhigh : c < 56) (n : Nat) :
    (digit c * BitVec.ofNat 32 (8 ^ n)).setWidth 64 =
      BitVec.ofNat 64 (8 ^ n * (c.toNat - 48) % 2 ^ 32) := by
  rw [(digit_of_octal hlow hhigh).2, ← BitVec.ofNat_mul, Nat.mul_comm]
  apply BitVec.eq_of_toNat_eq
  rw [BitVec.toNat_setWidth, BitVec.toNat_ofNat, BitVec.toNat_ofNat]

/-- The sum over the last `n` digits: only the term of the first one can wrap. -/
theorem getSize_fold {field : Nat → UInt8} (h : OctalDigits field) {n : Nat} (hn : n ≤ 10) :
    (List.range n).foldl (fun (size, count) k =>
      (size + (digit (field (10 - k)) * count).setWidth 64, count * 8))
      ((0 : Word), (1 : BitVec 32)) =
    (BitVec.ofNat 64 (octalOf field n), BitVec.ofNat 32 (8 ^ n)) := by
  induction n with
  | zero => rfl
  | succ n ih =>
      obtain ⟨hlow, hhigh⟩ := h (10 - n) (by omega)
      have hdigit := (digit_of_octal hlow hhigh).1
      have hterm : 8 ^ n * ((field (10 - n)).toNat - 48) < 2 ^ 32 :=
        calc 8 ^ n * ((field (10 - n)).toNat - 48)
            ≤ 8 ^ 9 * 7 := Nat.mul_le_mul (Nat.pow_le_pow_right (by decide) (by omega)) (by omega)
          _ < 2 ^ 32 := by decide
      rw [List.range_succ, List.foldl_append, ih (by omega), List.foldl_cons, List.foldl_nil]
      dsimp only
      rw [digit_mul hlow hhigh, Nat.mod_eq_of_lt hterm, ← BitVec.ofNat_add, octalOf_succ,
        Nat.pow_succ, BitVec.ofNat_mul]
      rfl

theorem octalOf_lt {field : Nat → UInt8} (h : OctalDigits field) (n : Nat) :
    octalOf field n < 8 ^ n := by
  rw [octalOf]
  refine (Nat.ofDigits_lt_base_pow_length (by decide) fun d hd => ?_).trans_eq
    (by rw [List.length_map, List.length_range])
  obtain ⟨k, hk, rfl⟩ := List.mem_map.1 hd
  obtain ⟨hlow, hhigh⟩ := h (10 - k) (by omega)
  exact (digit_of_octal hlow hhigh).1

/-- What `get_size` returns for 11 octal digits: their number, cut to 32 bits. -/
theorem getSize_octal {field : Nat → UInt8} (h : OctalDigits field) :
    (getSize field).toNat = octal field % 2 ^ 32 := by
  obtain ⟨hlow, hhigh⟩ := h 0 (by decide)
  have hrest : octalOf field 10 < 8 ^ 10 := octalOf_lt h 10
  have hfirst := (digit_of_octal hlow hhigh).1
  have hsum : getSize field =
      BitVec.ofNat 64 (octalOf field 10 + 8 ^ 10 * ((field 0).toNat - 48) % 2 ^ 32) := by
    rw [getSize, List.range_succ, List.foldl_append, getSize_fold h le_rfl, List.foldl_cons,
      List.foldl_nil, BitVec.ofNat_add, ← digit_mul hlow hhigh]
  rw [hsum, BitVec.toNat_ofNat, octal, octalOf_succ field 10]
  change (octalOf field 10 + 8 ^ 10 * ((field 0).toNat - 48) % 2 ^ 32) % 2 ^ 64 =
    (octalOf field 10 + 8 ^ 10 * ((field 0).toNat - 48)) % 2 ^ 32
  omega

/-- The field that holds the digits of `size`. -/
theorem getSize_eq {field : Nat → UInt8} {size : Nat} (hsize : size < 2 ^ 32)
    (hfield : ∀ k, k < 11 → field (10 - k) = 48 + UInt8.ofNat (size / 8 ^ k % 8)) :
    getSize field = BitVec.ofNat 64 size := by
  have hdigit : ∀ k, k < 11 →
      48 ≤ field (10 - k) ∧ field (10 - k) < 56 ∧
        (field (10 - k)).toNat - 48 = size / 8 ^ k % 8 := by
    intro k hk
    rw [hfield k hk]
    have hd : size / 8 ^ k % 8 < 8 := Nat.mod_lt _ (by decide)
    generalize size / 8 ^ k % 8 = d at hd
    interval_cases d <;> decide
  have hoctal : OctalDigits field := by
    intro j hj
    obtain ⟨hlow, hhigh, -⟩ := hdigit (10 - j) (by omega)
    rw [Nat.sub_sub_self (by omega)] at hlow hhigh
    exact ⟨hlow, hhigh⟩
  have hnumber : ∀ n, n ≤ 11 → octalOf field n = size % 8 ^ n := by
    intro n hn
    induction n with
    | zero => rw [Nat.pow_zero, Nat.mod_one]; rfl
    | succ n ih => rw [octalOf_succ, ih (by omega), (hdigit n (by omega)).2.2, Nat.mod_pow_succ]
  apply BitVec.eq_of_toNat_eq
  rw [getSize_octal hoctal, octal, hnumber 11 le_rfl, BitVec.toNat_ofNat]
  omega

end Files

end OswpKernel
