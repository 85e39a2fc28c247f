import Mathlib.Tactic.TypeStar

/-!
# Loop — counted loops whose body may fail

`forEach` carries out a body for the entries of a list in order, `times` a fixed number of turns;
both stop with `none` at the first turn that fails.  The rules follow a loop with a ghost value `g`
beside the state: what a turn keeps (`I`), how it relates the states before and after (`R`), and
what it leaves done for its own entry (`D`).
-/

namespace Loop

variable {ι σ γ : Type*} {body : ι → σ → Option σ} {turn : σ → Option σ} {xs : List ι} {s s' : σ}
  {g : γ} {n : Nat}

def forEach (body : ι → σ → Option σ) : List ι → σ → Option σ
  | [], s => some s
  | i :: is, s => do
      let s ← body i s
      forEach body is s

def times (turn : σ → Option σ) : Nat → σ → Option σ
  | 0, s => some s
  | n + 1, s => do
      let s ← turn s
      times turn n s

/-- A turn keeps `I`, relates its two states by `R` and leaves its own entry done; later turns do
not undo that.  Then the loop keeps `I` and leaves every entry done. -/
theorem forEach_rule {I : σ → γ → Prop} {R : σ → γ → σ → γ → Prop} {D : ι → σ → γ → Prop}
    (hrefl : ∀ s g, R s g s g)
    (htrans : ∀ {s₁ g₁ s₂ g₂ s₃ g₃}, R s₁ g₁ s₂ g₂ → R s₂ g₂ s₃ g₃ → R s₁ g₁ s₃ g₃)
    (hkeep : ∀ {i s₁ g₁ s₂ g₂}, I s₁ g₁ → R s₁ g₁ s₂ g₂ → D i s₁ g₁ → D i s₂ g₂)
    (hbody : ∀ {i s g s'}, i ∈ xs → I s g → body i s = some s' →
      ∃ g', I s' g' ∧ R s g s' g' ∧ D i s' g')
    (hrun : forEach body xs s = some s') (hI : I s g) :
    ∃ g', I s' g' ∧ R s g s' g' ∧ ∀ i ∈ xs, D i s' g' := by
  induction xs generalizing s g with
  | nil =>
      cases hrun
      exact ⟨g, hI, hrefl _ _, by simp⟩
  | cons i is ih =>
      rcases Option.bind_eq_some_iff.1 hrun with ⟨s₁, hfirst, hrest⟩
      rcases hbody List.mem_cons_self hI hfirst with ⟨g₁, hI₁, hR₁, hdone⟩
      rcases ih (fun hi => hbody (List.mem_cons_of_mem _ hi)) hrest hI₁ with ⟨g', hI', hR', hall⟩
      refine ⟨g', hI', htrans hR₁ hR', ?_⟩
      intro k hk
      rcases List.mem_cons.1 hk with rfl | hk'
      · exact hkeep hI₁ hR' hdone
      · exact hall k hk'

/-- An invariant that says how far the loop has come: it may speak of the entries that are done, and
of the order of the list. -/
theorem forEach_progress {I : List ι → σ → γ → Prop}
    (hbody : ∀ {done i rest s g s'}, xs = done ++ i :: rest → I done s g → body i s = some s' →
      ∃ g', I (done ++ [i]) s' g')
    (hrun : forEach body xs s = some s') (hI : I [] s g) : ∃ g', I xs s' g' := by
  have hfrom : ∀ todo done s g, xs = done ++ todo → forEach body todo s = some s' → I done s g →
      ∃ g', I xs s' g' := by
    intro todo
    induction todo with
    | nil =>
        intro done s g hxs hrun hI
        cases hrun
        rw [List.append_nil] at hxs
        exact ⟨g, hxs ▸ hI⟩
    | cons i rest ih =>
        intro done s g hxs hrun hI
        rcases Option.bind_eq_some_iff.1 hrun with ⟨s₁, hfirst, hrest⟩
        rcases hbody hxs hI hfirst with ⟨g₁, hI₁⟩
        exact ih (done ++ [i]) s₁ g₁ (by rw [hxs, List.append_assoc]; rfl) hrest hI₁
  exact hfrom xs [] s g rfl hrun hI

/-- The same when every turn can be made: then the loop runs through. -/
theorem forEach_progress_total {I : List ι → σ → Prop}
    (hbody : ∀ {done i rest s}, xs = done ++ i :: rest → I done s →
      ∃ s', body i s = some s' ∧ I (done ++ [i]) s')
    (hI : I [] s) : ∃ s', forEach body xs s = some s' ∧ I xs s' := by
  have hfrom : ∀ todo done s, xs = done ++ todo → I done s →
      ∃ s', forEach body todo s = some s' ∧ I xs s' := by
    intro todo
    induction todo with
    | nil =>
        intro done s hxs hI
        rw [List.append_nil] at hxs
        exact ⟨s, rfl, hxs ▸ hI⟩
    | cons i rest ih =>
        intro done s hxs hI
        rcases hbody hxs hI with ⟨s₁, hfirst, hI₁⟩
        rcases ih (done ++ [i]) s₁ (by rw [hxs, List.append_assoc]; rfl) hI₁ with ⟨s', hrest, hI'⟩
        exact ⟨s', Option.bind_eq_some_iff.2 ⟨s₁, hfirst, hrest⟩, hI'⟩
  exact hfrom xs [] s rfl hI

/-- What every turn keeps, the loop keeps. -/
theorem forEach_invariant {I : σ → Prop} (hbody : ∀ {i s s'}, I s → body i s = some s' → I s')
    (hrun : forEach body xs s = some s') (hI : I s) : I s' := by
  induction xs generalizing s with
  | nil =>
      cases hrun
      exact hI
  | cons i is ih =>
      rcases Option.bind_eq_some_iff.1 hrun with ⟨s₁, hfirst, hrest⟩
      exact ih hrest (hbody hI hfirst)

/-- Where the body is a function on the states with `I`, the loop folds that function. -/
theorem forEach_eq_foldl {f : σ → ι → σ} {I : σ → Prop}
    (hbody : ∀ {i s}, i ∈ xs → I s → body i s = some (f s i) ∧ I (f s i)) (hI : I s) :
    forEach body xs s = some (xs.foldl f s) := by
  induction xs generalizing s with
  | nil => rfl
  | cons i is ih =>
      rcases hbody List.mem_cons_self hI with ⟨hfirst, hI₁⟩
      rw [forEach, hfirst, Option.bind_eq_bind, Option.bind_some, List.foldl_cons]
      exact ih (fun hi => hbody (List.mem_cons_of_mem _ hi)) hI₁

/-- When every turn can be made from a state with `I`, the loop runs through. -/
theorem forEach_total (body : ι → σ → Option σ) (xs : List ι) {I : σ → Prop} {R : σ → σ → Prop}
    {D : ι → σ → Prop} (hrefl : ∀ s, R s s)
    (htrans : ∀ {s₁ s₂ s₃}, R s₁ s₂ → R s₂ s₃ → R s₁ s₃)
    (hkeep : ∀ {i s₁ s₂}, R s₁ s₂ → D i s₁ → D i s₂)
    (hbody : ∀ {i s}, i ∈ xs → I s → ∃ s', body i s = some s' ∧ I s' ∧ R s s' ∧ D i s')
    (hI : I s) : ∃ s', forEach body xs s = some s' ∧ I s' ∧ R s s' ∧ ∀ i ∈ xs, D i s' := by
  induction xs generalizing s with
  | nil => exact ⟨s, rfl, hI, hrefl s, by simp⟩
  | cons i is ih =>
      rcases hbody List.mem_cons_self hI with ⟨s₁, hfirst, hI₁, hR₁, hdone⟩
      rcases ih (fun hi => hbody (List.mem_cons_of_mem _ hi)) hI₁ with ⟨s', hrest, hI', hR', hall⟩
      refine ⟨s', Option.bind_eq_some_iff.2 ⟨s₁, hfirst, hrest⟩, hI', htrans hR₁ hR', ?_⟩
      intro k hk
      rcases List.mem_cons.1 hk with rfl | hk'
      · exact hkeep hR' hdone
      · exact hall k hk'

/-- The last turn on its own. -/
theorem times_snoc (turn : σ → Option σ) (n : Nat) (s : σ) :
    times turn (n + 1) s = (times turn n s).bind turn := by
  induction n generalizing s with
  | zero =>
      rw [times, times, Option.bind_some]
      cases turn s <;> rfl
  | succ n ih =>
      rw [times, times]
      cases turn s with
      | none => rfl
      | some s' => exact ih s'

theorem times_invariant {I : σ → Prop} (hturn : ∀ {s s'}, I s → turn s = some s' → I s')
    (hrun : times turn n s = some s') (hI : I s) : I s' := by
  induction n generalizing s with
  | zero =>
      cases hrun
      exact hI
  | succ n ih =>
      rcases Option.bind_eq_some_iff.1 hrun with ⟨s₁, hfirst, hrest⟩
      exact ih hrest (hturn hI hfirst)

theorem times_rule {I : σ → γ → Prop} {R : σ → γ → σ → γ → Prop} (hrefl : ∀ s g, R s g s g)
    (htrans : ∀ {s₁ g₁ s₂ g₂ s₃ g₃}, R s₁ g₁ s₂ g₂ → R s₂ g₂ s₃ g₃ → R s₁ g₁ s₃ g₃)
    (hturn : ∀ {s g s'}, I s g → turn s = some s' → ∃ g', I s' g' ∧ R s g s' g')
    (hrun : times turn n s = some s') (hI : I s g) : ∃ g', I s' g' ∧ R s g s' g' := by
  induction n generalizing s g with
  | zero =>
      cases hrun
      exact ⟨g, hI, hrefl _ _⟩
  | succ n ih =>
      rcases Option.bind_eq_some_iff.1 hrun with ⟨s₁, hfirst, hrest⟩
      rcases hturn hI hfirst with ⟨g₁, hI₁, hR₁⟩
      rcases ih hrest hI₁ with ⟨g', hI', hR'⟩
      exact ⟨g', hI', htrans hR₁ hR'⟩

end Loop
