import OswpKernel.Paging.Pages
import OswpKernel.Paging.Teardown

/-!
# Map range — which pages a call of `map_user_address` maps

The 2^18 pages behind one second-level table are numbered through (`pageAt`).  The mapping loop goes
over consecutive pages; in the page table it starts in it fills the gaps, but every further page
table it comes to is replaced by an empty one (`sweptEntry`).  `mapUserAddress_pages` says what that
leaves behind for every page of the process.
-/

namespace OswpKernel

namespace Paging

open Machine

variable {m m' m₁ : Machine} {role role' role₁ : Frame → Role} {e v phys address : Word}
  {t f r table : Frame} {i j i₄ i₃ : Slot} {path Q : List Slot} {va : Word} {n k d x x₀ : Nat}
  {c c' : Cursor}

/-! ## The pages behind a second-level table -/

/-- The entry of page `x` behind the table at `[i₄, i₃]`. -/
def pageAt (m : Machine) (r : Frame) (i₄ i₃ : Slot) (x : Nat) : Word :=
  m.entryAt r [i₄, i₃, Fin.ofNat 512 (x / 512)] (Fin.ofNat 512 x)

/-- What the loop leaves in the entry of page `x`, which held `e`: it starts at page `x₀` with the
page table `d`, and makes `k` turns. -/
def sweptEntry (d x₀ k : Nat) (phys : Word) (x : Nat) (e : Word) : Word :=
  if d < x / 512 ∧ 512 * (x / 512) < x₀ + k then
    if x < x₀ + k then phys + pageWord (x - x₀) ||| 7 else 0
  else if x₀ ≤ x ∧ x < x₀ + k ∧ ¬ Present e then phys + pageWord (x - x₀) ||| 7
  else e

theorem sweptEntry_zero (hx₀ : x₀ ≤ 512 * (d + 1)) (phys : Word) (x : Nat) (e : Word) :
    sweptEntry d x₀ 0 phys x e = e := by
  rw [sweptEntry, if_neg (by omega), if_neg (by omega)]

theorem present_seven (w : Word) : Present (w ||| 7) := has_of_or_left (by decide) w

/-- In the page table the loop starts in, and before it. -/
theorem sweptEntry_inside (h : ¬ (d < x / 512 ∧ 512 * (x / 512) < x₀ + k)) (phys e : Word) :
    sweptEntry d x₀ k phys x e =
      if x₀ ≤ x ∧ x < x₀ + k ∧ ¬ Present e then phys + pageWord (x - x₀) ||| 7 else e :=
  if_neg h

/-- In a page table the loop comes to. -/
theorem sweptEntry_later (h : d < x / 512 ∧ 512 * (x / 512) < x₀ + k) (phys e : Word) :
    sweptEntry d x₀ k phys x e = if x < x₀ + k then phys + pageWord (x - x₀) ||| 7 else 0 :=
  if_pos h

/-- One turn, and then `k` more. -/
theorem sweptEntry_succ (hd : 512 * d ≤ x₀) (hx₀ : x₀ ≤ 512 * (d + 1)) (phys : Word) (e : Word) :
    sweptEntry (x₀ / 512) (x₀ + 1) k (phys + 4096) x (sweptEntry d x₀ 1 phys x e) =
      sweptEntry d x₀ (k + 1) phys x e := by
  by_cases hx : x = x₀
  · -- the page of the first turn
    subst hx
    have hrest : ∀ e, sweptEntry (x / 512) (x + 1) k (phys + 4096) x e = e := by
      intro e
      rw [sweptEntry_inside (by omega), if_neg (by omega)]
    rw [hrest]
    by_cases hroll : d < x / 512
    · rw [sweptEntry_later (by omega), sweptEntry_later (by omega), if_pos (by omega),
        if_pos (by omega)]
    · rw [sweptEntry_inside (by omega), sweptEntry_inside (by omega)]
      exact if_congr (by simp) rfl rfl
  · have hword : x₀ < x → phys + 4096 + pageWord (x - (x₀ + 1)) = phys + pageWord (x - x₀) := by
      intro hlt
      have hone : (4096 : Word) = pageWord 1 := by decide
      rw [hone, BitVec.add_assoc, pageWord_add, show 1 + (x - (x₀ + 1)) = x - x₀ by omega]
    by_cases hroll : d < x / 512 ∧ 512 * (x / 512) < x₀ + 1
    · -- the other pages of a page table that the first turn has replaced
      have hfirst : sweptEntry d x₀ 1 phys x e = 0 := by
        rw [sweptEntry_later hroll, if_neg (by omega)]
      have habsent : ¬ Present (0 : Word) := fun h => h.ne_zero rfl
      rw [hfirst, sweptEntry_inside (by omega), sweptEntry_later (by omega), hword (by omega)]
      exact if_congr ⟨fun h => by omega, fun h => ⟨by omega, by omega, habsent⟩⟩ rfl rfl
    · have hfirst : sweptEntry d x₀ 1 phys x e = e := by
        rw [sweptEntry_inside hroll, if_neg (by omega)]
      rw [hfirst]
      -- the first turn has left this page alone, so the rest of the loop decides
      by_cases hlater : d < x / 512 ∧ 512 * (x / 512) < x₀ + (k + 1)
      · rw [sweptEntry_later (by omega), sweptEntry_later hlater, hword (by omega)]
        exact if_congr (by omega) rfl rfl
      · rw [sweptEntry_inside (by omega), sweptEntry_inside hlater]
        by_cases hin : x₀ ≤ x ∧ x < x₀ + (k + 1) ∧ ¬ Present e
        · rw [if_pos hin, if_pos ⟨by omega, by omega, hin.2.2⟩, hword (by omega)]
        · rw [if_neg hin, if_neg fun h => hin ⟨by omega, by omega, h.2.2⟩]

/-! ## One turn -/

theorem entry_index {p : Nat} (hd : d < 512) (hp : p < 512) (hx : x < 2 ^ 18) :
    (Fin.ofNat 512 (x / 512) = (⟨d, hd⟩ : Slot) ∧ Fin.ofNat 512 x = (⟨p, hp⟩ : Slot)) ↔
      x = 512 * d + p := by
  simp only [Fin.ext_iff, Fin.val_ofNat]
  omega

/-- Where the loop of `map_user_address` stands in the tables of `r`. -/
structure Sweeping (r : Frame) (i₄ i₃ : Slot) (c : Cursor) (m : Machine) (role : Frame → Role) :
    Prop where
  roles : Roles m role
  top : role r = .table r []
  lower : (i₄ : Nat) < 510
  pdpti : c.pdpti ≠ 512
  pdti : c.pdti < 512
  pti : c.pti ≤ 512
  toPdt : m.walk r [i₄, i₃] = some c.pdt
  toPt : m.walk r [i₄, i₃, ⟨c.pdti, pdti⟩] = some c.pt

/-- The page the loop comes to next. -/
def Machine.Cursor.page (c : Cursor) : Nat := 512 * c.pdti + c.pti

/-- What `k` turns from page `x₀` on have done: the pages behind the second-level table, and all
other pages as before. -/
structure Swept (r : Frame) (i₄ i₃ : Slot) (m m' : Machine) (d x₀ k : Nat) (phys : Word) :
    Prop where
  pages : ∀ x < 2 ^ 18, pageAt m' r i₄ i₃ x = sweptEntry d x₀ k phys x (pageAt m r i₄ i₃ x)
  others : ∀ Q, UserIndices Q → Q.length = 3 → (∀ i₂, Q ≠ [i₄, i₃, i₂]) →
    ∀ j, m'.entryAt r Q j = m.entryAt r Q j

/-- The end of a turn: the page is entered if it was absent. -/
theorem enterPage_entryAt (h : Roles m role) (hr : role r = .table r []) (hlow : (i₄ : Nat) < 510)
    {q : Slot} (hpt : m.walk r [i₄, i₃, q] = some c.pt)
    (henter : enterPage ⟨7, 7, 7⟩ (c, m) = some (c', m')) :
    c' = { c.advance with mapped := c'.mapped } ∧ Roles m' role ∧ ∃ hi : c.pti < 512,
      ∀ Q, UserIndices Q → Q.length ≤ 3 → m'.walk r Q = m.walk r Q ∧
        ∀ j, m'.entryAt r Q j =
          if (Q = [i₄, i₃, q] ∧ j = ⟨c.pti, hi⟩) ∧ ¬ Present (m.entryAt r Q j) then c.phys ||| 7
          else m.entryAt r Q j := by
  have hpath : UserIndices [i₄, i₃, q] := userIndices_cons hlow
  have hrole : role c.pt = .table r [i₄, i₃, q] := h.walk_role hr hpath (le_refl 3) hpt
  rcases enterPage_cases henter with ⟨hi, ⟨hpresent, rfl, rfl⟩ | ⟨habsent, rfl, rfl⟩⟩
  · refine ⟨rfl, h, hi, fun Q hQ hlen => ⟨rfl, fun j => ?_⟩⟩
    rw [if_neg]
    rintro ⟨⟨rfl, rfl⟩, habsent⟩
    rw [entryAt_of_walk hpt] at habsent
    exact habsent hpresent
  · have hentry : UserEntry role r [i₄, i₃, q] ⟨c.pti, hi⟩ (c.phys ||| 7) :=
      userEntry_leaf rfl (by decide) (by decide)
    have hwrite : Roles (m.write c.pt ⟨c.pti, hi⟩ (c.phys ||| 7)) role :=
      (h.writeUser (S := fun _ => False) hrole (fun hnil => absurd hnil (by simp))
      (Or.inr hentry)).1
    refine ⟨rfl, hwrite, hi, fun Q hQ hlen => ?_⟩
    have hnot : ¬ ([i₄, i₃, q] ++ [⟨c.pti, hi⟩]) <+: Q := fun hunder => by
      have := hunder.length_le
      simp at this
      omega
    refine ⟨h.walk_write hr hrole _ hQ (by omega) hnot, fun j => ?_⟩
    rw [h.entryAt_write hr hrole hpt _ hQ hlen hnot]
    refine if_congr ⟨fun hat => ⟨hat, ?_⟩, fun hat => hat.1⟩ rfl rfl
    rcases hat with ⟨rfl, rfl⟩
    rwa [entryAt_of_walk hpt]

/-- A turn moves on by one page. -/
theorem mapStep_swept {root : Frame} (h : Sweeping r i₄ i₃ c m role)
    (hstep : mapStep (bump 4096) root ⟨7, 7, 7⟩ (c, m) = some (c', m')) :
    ∃ role', Sweeping r i₄ i₃ c' m' role' ∧ c'.page = c.page + 1 ∧ c'.pdti = c.page / 512 ∧
      c'.phys = c.phys + 4096 ∧ Swept r i₄ i₃ m m' c.pdti c.page 1 c.phys := by
  rcases h with ⟨hroles, hr, hlow, hpdpti, hpdti, hpti, hpdt, hpt⟩
  have hupper : UserIndices [i₄, i₃] := userIndices_cons hlow
  rcases mapStep_cases hpdpti hpdti.ne hstep with
    ⟨hin, henter⟩ | ⟨hroll, v, next, m₁, hi, hbump, hnext, henter⟩
  · -- inside the page table
    rcases enterPage_entryAt hroles hr hlow hpt henter with ⟨hc, hroles', hlt, hentries⟩
    have hpdt' := (hentries _ hupper (by simp)).1.trans hpdt
    have hpt' := (hentries _ (userIndices_cons hlow) (le_refl 3)).1.trans hpt
    have hpage : c.page = 512 * c.pdti + c.pti := rfl
    have hdiv : c.pdti = c.page / 512 := by omega
    refine ⟨role, ?_, ?_, ?_, ?_, ?_, ?_⟩
    · rw [hc]
      exact ⟨hroles', hr, hlow, hpdpti, hpdti, hlt, hpdt', hpt'⟩
    · rw [hc]
      rfl
    · rw [hc]
      exact hdiv
    · rw [hc]
      rfl
    · intro x hx
      rw [sweptEntry_inside (by omega), pageAt, pageAt,
        (hentries _ (userIndices_cons hlow) (le_refl 3)).2]
      have hat : ([i₄, i₃, Fin.ofNat 512 (x / 512)] = [i₄, i₃, ⟨c.pdti, hpdti⟩] ∧
          Fin.ofNat 512 x = ⟨c.pti, hlt⟩) ↔ x = c.page := by
        rw [hpage]
        refine Iff.trans (and_congr_left' ?_) (entry_index hpdti hlt hx)
        simp only [List.cons.injEq, true_and, and_true]
      by_cases hpresent : Present (m.entryAt r [i₄, i₃, Fin.ofNat 512 (x / 512)] (Fin.ofNat 512 x))
      · rw [if_neg fun h => h.2 hpresent, if_neg fun h => h.2.2 hpresent]
      · by_cases hx' : x = c.page
        · have hsame : c.phys + pageWord (x - c.page) = c.phys := by
            rw [hx', Nat.sub_self]
            exact BitVec.add_zero _
          rw [if_pos ⟨hat.2 hx', hpresent⟩, if_pos ⟨by omega, by omega, hpresent⟩, hsame]
        · rw [if_neg fun h => hx' (hat.1 h.1), if_neg (by omega)]
    · intro Q hQ hlen hother j
      rw [(hentries Q hQ hlen.le).2, if_neg fun h => hother _ h.1.1]
  · -- the next page table is a new one
    rcases bump_allocSpec hroles hbump with ⟨rfl, -⟩ | ⟨role₁, f, rfl, hhanded⟩
    · rw [pointerFrame_null] at hnext
      cases hnext
    rw [hhanded.pointerFrame] at hnext
    rcases Option.some_inj.1 hnext with rfl
    have hrole : role c.pdt = .table r [i₄, i₃] := hroles.walk_role hr hupper (by simp) hpdt
    have hpath : UserIndices ([i₄, i₃] ++ [⟨c.pdti + 1, hi⟩]) := userIndices_cons hlow
    rcases hhanded.linkUser (S := fun _ => False) (i := ⟨c.pdti + 1, hi⟩) hroles
      ((hhanded.grown.keep _ (by rw [hrole]; exact Role.noConfusion)).trans hrole) (by simp)
      (fun hnil => absurd hnil (by simp)) tableFlags_seven with ⟨hroles₂, hextends₂⟩
    rcases hhanded.entryAt_link hroles hr hrole hpdt hpath (by simp) tableFlags_seven with
      ⟨hwalk₂, hwalks₂, hentries₂⟩
    rw [hhanded.linkTo] at henter
    let c₁ : Cursor := { c with pti := 0, pdti := c.pdti + 1, pt := f }
    have hr₂ := hextends₂.table hr
    rcases enterPage_entryAt (c := c₁) (q := ⟨c.pdti + 1, hi⟩) hroles₂ hr₂ hlow hwalk₂ henter with
      ⟨hc, hroles', hlt, hentries⟩
    have hpage : c.page = 512 * (c.pdti + 1) := by
      rw [Cursor.page, hroll, Nat.mul_succ]
    have hpdt₂ := (hwalks₂ [i₄, i₃] hupper (by simp) (not_prefix_concat_self _ _)).trans hpdt
    have hpdt' := (hentries _ hupper (by simp)).1.trans hpdt₂
    have hpt' := (hentries _ (userIndices_cons hlow) (le_refl 3)).1.trans hwalk₂
    -- of the entries behind the second-level table, one is linked and one entered
    have hunder : ∀ Q : List Slot, Q.length = 3 →
        (([i₄, i₃] ++ [⟨c.pdti + 1, hi⟩]) <+: Q ↔ Q = [i₄, i₃, ⟨c.pdti + 1, hi⟩]) := by
      intro Q hlen
      exact ⟨fun h => (h.eq_of_length hlen.symm).symm, fun h => h ▸ List.prefix_rfl⟩
    refine ⟨Function.update role₁ f (.table r ([i₄, i₃] ++ [⟨c.pdti + 1, hi⟩])), ?_, ?_, ?_, ?_, ?_,
      ?_⟩
    · rw [hc]
      exact ⟨hroles', hr₂, hlow, hpdpti, hi, (by decide : 0 + 1 ≤ 512), hpdt', hpt'⟩
    · rw [hc, hpage]
      rfl
    · rw [hc, hpage]
      exact (Nat.mul_div_cancel_left (c.pdti + 1) (by decide)).symm
    · rw [hc]
      rfl
    · intro x hx
      have hat : ([i₄, i₃, Fin.ofNat 512 (x / 512)] = [i₄, i₃, (⟨c.pdti + 1, hi⟩ : Slot)] ∧
          Fin.ofNat 512 x = ⟨0, hlt⟩) ↔ x = c.page := by
        rw [hpage]
        refine Iff.trans (and_congr_left' ?_) (entry_index (p := 0) hi hlt hx)
        simp only [List.cons.injEq, true_and, and_true]
      have htable : [i₄, i₃, Fin.ofNat 512 (x / 512)] = [i₄, i₃, (⟨c.pdti + 1, hi⟩ : Slot)] ↔
          x / 512 = c.pdti + 1 := by
        simp only [List.cons.injEq, true_and, and_true, Fin.ext_iff, Fin.val_ofNat]
        omega
      have hlinked := hentries₂ [i₄, i₃, Fin.ofNat 512 (x / 512)] (userIndices_cons hlow)
        (le_refl 3)
        (Fin.ofNat 512 x)
      rw [pageAt, pageAt, (hentries _ (userIndices_cons hlow) (le_refl 3)).2]
      by_cases hin : x / 512 = c.pdti + 1
      · have habsent : ¬ Present (0 : Word) := fun h => h.ne_zero rfl
        rw [if_pos ((hunder _ rfl).2 (htable.2 hin))] at hlinked
        rw [hlinked, sweptEntry_later (by omega)]
        by_cases hx' : x = c.page
        · have hsame : c.phys + pageWord (x - c.page) = c.phys := by
            rw [hx', Nat.sub_self]
            exact BitVec.add_zero _
          rw [if_pos ⟨hat.2 hx', habsent⟩, if_pos (by omega), hsame]
        · rw [if_neg fun h => hx' (hat.1 h.1), if_neg (by omega)]
      · rw [if_neg fun h => hin (htable.1 ((hunder _ rfl).1 h)), if_neg (by simp)] at hlinked
        rw [hlinked, if_neg fun h => hin (htable.1 h.1.1), sweptEntry_inside (by omega),
          if_neg (by omega)]
    · intro Q hQ hlen hother j
      have hlinked := hentries₂ Q hQ hlen.le j
      have hshort : ¬ (Q = [i₄, i₃] ∧ j = ⟨c.pdti + 1, hi⟩) := by
        rintro ⟨rfl, -⟩
        exact absurd hlen (by simp)
      rw [if_neg fun h => hother _ ((hunder Q hlen).1 h), if_neg hshort] at hlinked
      rw [(hentries Q hQ hlen.le).2, hlinked, if_neg fun h => hother _ h.1.1]

/-- All turns. -/
theorem times_swept {root : Frame} (h : Sweeping r i₄ i₃ c m role)
    (hrun : Loop.times (mapStep (bump 4096) root ⟨7, 7, 7⟩) k (c, m) = some (c', m')) :
    c.page + k ≤ 2 ^ 18 ∧ (∃ role', Sweeping r i₄ i₃ c' m' role') ∧
      Swept r i₄ i₃ m m' c.pdti c.page k c.phys := by
  induction k generalizing c m role with
  | zero =>
      cases hrun
      have hpdti := h.pdti
      have hpti := h.pti
      have hpage : c'.page = 512 * c'.pdti + c'.pti := rfl
      refine ⟨by omega, ⟨role, h⟩, fun x _ => ?_, fun _ _ _ _ _ => rfl⟩
      rw [sweptEntry_zero (by omega)]
  | succ k ih =>
      rcases Option.bind_eq_some_iff.1 hrun with ⟨⟨c₁, m₁⟩, hturn, hrest⟩
      rcases mapStep_swept h hturn with ⟨role₁, h₁, hpage₁, hpdti₁, hphys₁, hpages₁, hothers₁⟩
      rcases ih h₁ hrest with ⟨hroom, hend, hpages, hothers⟩
      have hpti := h.pti
      have hpage : c.page = 512 * c.pdti + c.pti := rfl
      refine ⟨by omega, hend, fun x hx => ?_, fun Q hQ hlen hother j => ?_⟩
      · rw [hpages x hx, hpages₁ x hx, hpage₁, hpdti₁, hphys₁]
        exact sweptEntry_succ (by omega) (by omega) c.phys _
      · exact (hothers Q hQ hlen hother j).trans (hothers₁ Q hQ hlen hother j)

/-! ## The whole call -/

/-- One level down: the tables on the way are there, and no page is mapped or lost. -/
theorem descend_entries (h : Roles m role) (hr : role r = .table r [])
    (hwalk : m.walk r path = some t)
    (hpath : UserIndices (path ++ [i])) (hlen : path.length < 3) {next : Frame}
    (hdown : descend (bump 4096) 7 t i m = some (next, m')) :
    ∃ role', Roles m' role' ∧ role' r = .table r [] ∧ m'.walk r (path ++ [i]) = some next ∧
      (∀ Q, Q <+: path → m'.walk r Q = m.walk r Q) ∧
      ∀ Q, UserIndices Q → Q.length = 3 → ∀ j, m'.entryAt r Q j = m.entryAt r Q j := by
  have hrole : role t = .table r path := h.walk_role hr hpath.init (by omega) hwalk
  rcases descend_cases hdown with ⟨hpresent, hnext, rfl⟩ | ⟨habsent, v, m₁, halloc, hnext, rfl⟩
  · refine ⟨role, h, hr, ?_, fun _ _ => rfl, fun _ _ _ _ => rfl⟩
    rw [walk_concat, hwalk, Option.bind_some, frameOf_of_tableAt hnext]
    exact if_pos hpresent
  · rcases bump_allocSpec h halloc with ⟨rfl, -⟩ | ⟨role₁, f, rfl, hhanded⟩
    · rw [pointerFrame_null] at hnext
      cases hnext
    rw [hhanded.pointerFrame] at hnext
    rcases Option.some_inj.1 hnext with rfl
    have hrole₁ : role₁ t = .table r path :=
      (hhanded.grown.keep t (by rw [hrole]; exact Role.noConfusion)).trans hrole
    -- the new table was a free page, so it is none of the tables on the way
    have hne : t ≠ f := by
      rintro rfl
      rw [hhanded.plain_head] at hrole₁
      cases hrole₁
    rcases hhanded.linkUser (S := fun _ => False) h hrole₁ hlen hpath.top tableFlags_seven with
      ⟨hroles, hextends⟩
    rcases hhanded.entryAt_link h hr hrole hwalk hpath hlen tableFlags_seven with
      ⟨hlinked, hwalks, hentries⟩
    have hshort : ∀ Q, Q <+: path → ¬ (path ++ [i]) <+: Q := by
      intro Q hQ hunder
      exact not_prefix_concat_self path i (hunder.trans hQ)
    rw [hhanded.linkTo, write_clear_comm m₁ hne]
    refine ⟨_, hroles, hextends.table hr, hlinked, fun Q hQ => ?_, fun Q hQ hlenQ j => ?_⟩
    · exact hwalks Q (hpath.init.prefix_of hQ) (by have := hQ.length_le; omega) (hshort Q hQ)
    · have hnone : m.walk r (path ++ [i]) = none := by
        rw [walk_concat, hwalk, Option.bind_some]
        exact if_neg habsent
      rw [hentries Q hQ hlenQ.le]
      -- what lies below the new table was absent, and the new table is empty
      by_cases hunder : (path ++ [i]) <+: Q
      · rw [if_pos hunder, entryAt_below_none hnone hunder]
      · rw [if_neg hunder, if_neg]
        rintro ⟨rfl, -⟩
        omega

/-- The number of a page among those behind its second-level table. -/
def pageIn (va : Word) : Nat := 512 * (pdtIndex va : Nat) + ptIndex va

theorem pageIn_lt (va : Word) : pageIn va < 2 ^ 18 := by
  have h₁ := (pdtIndex va).isLt
  have h₂ := (ptIndex va).isLt
  rw [pageIn]
  omega

theorem pageAt_pageIn (m : Machine) (r : Frame) (va : Word) :
    pageAt m r (pml4Index va) (pdptIndex va) (pageIn va) = m.leafAt r va := by
  rcases (entry_index (pdtIndex va).isLt (ptIndex va).isLt (pageIn_lt va)).2 rfl with ⟨h₁, h₂⟩
  rw [pageAt, h₁, h₂]
  rfl

/-- What a call leaves of every page of the process: it goes over the pages of one second-level
table, and these are as the loop leaves them. -/
theorem mapUserAddress_pages {size : Int} {mapped : List Frame} (h : Roles m role)
    (ht : role table = .table table []) (hlow : (pml4Index address : Nat) < 510)
    (hmap : mapUserAddress address phys size table 7 m = some (mapped, m')) :
    InGiB address size ∧ Swept table (pml4Index address) (pdptIndex address) m m' (pdtIndex address)
      (pageIn address) (turnsNonneg (userMapSize size)) (phys &&& physMask) := by
  rcases Option.bind_eq_some_iff.1 hmap with ⟨⟨pdpt, m₁⟩, hdown₁, hmap⟩
  rcases Option.bind_eq_some_iff.1 hmap with ⟨⟨pdt, m₂⟩, hdown₂, hmap⟩
  rcases Option.bind_eq_some_iff.1 hmap with ⟨⟨pt, m₃⟩, hdown₃, hmap⟩
  rcases Option.bind_eq_some_iff.1 hmap with ⟨⟨c', m₄⟩, hloop, hret⟩
  rcases Prod.mk.inj (Option.some_inj.1 hret) with ⟨-, rfl⟩
  have hroot : m.walk table [] = some table := rfl
  rcases descend_entries h ht hroot (userIndices_cons hlow) (by simp) hdown₁ with
    ⟨role₁, h₁, ht₁, hw₁, -, he₁⟩
  rcases descend_entries h₁ ht₁ hw₁ (userIndices_cons hlow) (by simp) hdown₂ with
    ⟨role₂, h₂, ht₂, hw₂, -, he₂⟩
  rcases descend_entries h₂ ht₂ hw₂ (userIndices_cons hlow) (by simp) hdown₃ with
    ⟨role₃, h₃, ht₃, hw₃, hkept₃, he₃⟩
  have hstart : Sweeping table (pml4Index address) (pdptIndex address)
      (cursorAt address phys pdpt pdt pt) m₃ role₃ :=
    ⟨h₃, ht₃, hlow, (pdptIndex address).isLt.ne, (pdtIndex address).isLt, (ptIndex address).isLt.le,
      (hkept₃ _ List.prefix_rfl).trans hw₂, hw₃⟩
  rcases times_swept hstart hloop with ⟨hroom, -, hpages, hothers⟩
  have hsame : ∀ Q, UserIndices Q → Q.length = 3 → ∀ j,
    m₃.entryAt table Q j = m.entryAt table Q j :=
    fun Q hQ hlen j =>
      ((he₃ Q hQ hlen j).trans (he₂ Q hQ hlen j)).trans (he₁ Q hQ hlen j)
  refine ⟨?_, fun x hx => ?_, fun Q hQ hlen hother j => ?_⟩
  · have hpage : (cursorAt address phys pdpt pdt pt).page =
        512 * (pdtIndex address : Nat) + ptIndex address := rfl
    rw [InGiB]
    omega
  · rw [hpages x hx]
    exact congrArg _ (hsame _ (userIndices_cons hlow) rfl _)
  · rw [hothers Q hQ hlen hother, hsame Q hQ hlen]

end Paging

end OswpKernel
