import OswpKernel.Paging.Isolation

/-!
# Unmap — which word `unmap_page` clears

`unmap_page` follows the frame fields of the three upper entries without looking at their present
bits, so for an address that is not mapped it ends at a word somewhere in memory, behind physical
page 0 where an entry is empty.  `unmapPage_local_iff` says when no harm is done: that word is zero
already, or the address is mapped and no other page is translated through its entry.
-/

namespace OswpKernel

namespace Paging

open Machine

variable {m : Machine} {t pt next : Frame} {is : List Slot} {i j : Slot} {va : Word}

/-! ## Walks through an entry that is cleared -/

namespace Machine

/-- The places of the entries a walk reads, up to the first that is not present. -/
def places (m : Machine) : Frame → List Slot → List (Frame × Slot)
  | _, [] => []
  | t, i :: is =>
      (t, i) :: match m.child t i with
        | some next => places m next is
        | none => []

theorem places_cons_some (h : m.child t i = some next) :
    m.places t (i :: is) = (t, i) :: m.places next is := by
  rw [places, h]

theorem places_cons_none (h : m.child t i = none) : m.places t (i :: is) = [(t, i)] := by
  rw [places, h]

/-- A write that a walk does not read leaves it alone. -/
theorem walk_write_of_notMem (e : Word) (h : (pt, j) ∉ m.places t is) :
    (m.write pt j e).walk t is = m.walk t is := by
  induction is generalizing t with
  | nil => rfl
  | cons i is ih =>
      have hne : t ≠ pt ∨ i ≠ j := by
        by_contra hsame
        simp only [not_or, not_not] at hsame
        rcases hsame with ⟨rfl, rfl⟩
        exact h List.mem_cons_self
      have hchild : (m.write pt j e).child t i = m.child t i :=
        child_congr (write_mem_of_ne m e hne)
      rw [walk, walk, hchild]
      cases hc : m.child t i with
      | none => rfl
      | some next =>
          rw [places_cons_some hc] at h
          exact ih fun hmem => h (List.mem_cons_of_mem _ hmem)

/-- A walk that reads an entry ends there once the entry is cleared. -/
theorem walk_clear_of_mem (h : (pt, j) ∈ m.places t is) : (m.write pt j 0).walk t is = none := by
  induction is generalizing t with
  | nil => cases h
  | cons i is ih =>
      by_cases hat : t = pt ∧ i = j
      · rcases hat with ⟨rfl, rfl⟩
        have hchild : (m.write t i 0).child t i = none := by
          rw [child, write_mem_self]
          exact if_neg fun hpresent => hpresent.ne_zero rfl
        rw [walk, hchild]
        rfl
      · have hchild : (m.write pt j 0).child t i = m.child t i :=
          child_congr (write_mem_of_ne m 0 (by tauto))
        have hother : (pt, j) ≠ (t, i) := by
          rintro ⟨⟩
          exact hat ⟨rfl, rfl⟩
        rw [walk, hchild]
        cases hc : m.child t i with
        | none =>
            rw [places_cons_none hc] at h
            exact absurd (List.mem_singleton.1 h) hother
        | some next =>
            rw [places_cons_some hc] at h
            exact ih ((List.mem_cons.1 h).resolve_left hother)

end Machine

/-! ## `unmap_page` -/

/-- What a call for `va` may do: nothing for an address that is not mapped, else the leaf entry of
that address is cleared; no other page is translated otherwise than before. -/
structure UnmapsOnly (m m' : Machine) (va : Word) : Prop where
  unmapped : m.translate m.current va = none → m'.mem = m.mem
  cleared : m.translate m.current va ≠ none →
    ∃ pt, m.walk m.current (upperPath va) = some pt ∧ m' = m.write pt (ptIndex va) 0
  others : ∀ va', pathOf va' ≠ pathOf va →
    m'.translate m.current va' = m.translate m.current va'

/-- The frame fields of the upper entries stay in the kernel window, and where they end: for an
unmapped address, at a word that is zero; for a mapped one, at an entry that no other mapped page
needs. -/
def UnmapClean (m : Machine) (va : Word) : Prop :=
  ∃ pdpt pdt pt, tableAt (m.mem m.current (pml4Index va)) = some pdpt ∧
    tableAt (m.mem pdpt (pdptIndex va)) = some pdt ∧ tableAt (m.mem pdt (pdtIndex va)) = some pt ∧
    if m.translate m.current va = none then m.mem pt (ptIndex va) = 0
    else ∀ va', pathOf va' ≠ pathOf va → m.translate m.current va' ≠ none →
      (pt, ptIndex va) ∉ m.places m.current (pathOf va')

/-- Where the upper entries are present, `unmap_page` follows the same tables as the hardware. -/
theorem walk_upper_eq {m : Machine} {pdpt pdt : Frame}
    (hpdpt : tableAt (m.mem m.current (pml4Index va)) = some pdpt)
    (hpdt : tableAt (m.mem pdpt (pdptIndex va)) = some pdt)
    (hpt : tableAt (m.mem pdt (pdtIndex va)) = some pt)
    (hmapped : m.walk m.current (upperPath va) = some next) : next = pt := by
  have hstep : ∀ {t u v : Frame} {i : Slot}, tableAt (m.mem t i) = some u → m.child t i = some v →
      v = u := by
    intro t u v i htable hchild
    rw [frameOf_of_tableAt htable, (child_eq_some.1 hchild).2]
  rcases Option.bind_eq_some_iff.1 hmapped with ⟨t₁, h₁, hmapped⟩
  rcases Option.bind_eq_some_iff.1 hmapped with ⟨t₂, h₂, hmapped⟩
  rcases Option.bind_eq_some_iff.1 hmapped with ⟨t₃, h₃, hret⟩
  rcases Option.some_inj.1 hret with rfl
  rcases hstep hpdpt h₁ with rfl
  rcases hstep hpdt h₂ with rfl
  exact hstep hpt h₃

/-- `unmap_page` does what it may, just when the word it ends at is of no other use. -/
theorem unmapPage_local_iff (m : Machine) (va : Word) :
    (∃ m', m.unmapPage va = some m' ∧ UnmapsOnly m m' va) ↔ UnmapClean m va := by
  constructor
  -- a walk that reads the word fails after the call, so such a page was not mapped before
  · rintro ⟨m', hunmap, honly⟩
    rcases Option.bind_eq_some_iff.1 hunmap with ⟨pt, htable, hret⟩
    rcases Option.some_inj.1 hret with rfl
    rcases Option.bind_eq_some_iff.1 htable with ⟨pdpt, hpdpt, htable⟩
    rcases Option.bind_eq_some_iff.1 htable with ⟨pdt, hpdt, hpt⟩
    refine ⟨pdpt, pdt, pt, hpdpt, hpdt, hpt, ?_⟩
    split_ifs with hnone
    · rw [← honly.unmapped hnone, write_mem_self]
    · intro va' hother hmapped hread
      refine hmapped ?_
      rw [← honly.others va' hother]
      exact walk_clear_of_mem hread
  · rintro ⟨pdpt, pdt, pt, hpdpt, hpdt, hpt, hword⟩
    have htable : m.unmapTable va = some pt :=
      Option.bind_eq_some_iff.2 ⟨pdpt, hpdpt, Option.bind_eq_some_iff.2 ⟨pdt, hpdt, hpt⟩⟩
    refine ⟨m.write pt (ptIndex va) 0, by rw [unmapPage, htable]; rfl, ?_⟩
    split_ifs at hword with hnone
    · -- the store changes nothing
      have hsame : m.write pt (ptIndex va) 0 = m := by
        have hmem : (m.write pt (ptIndex va) 0).mem = m.mem := by
          funext t i
          by_cases hat : t = pt ∧ i = ptIndex va
          · rcases hat with ⟨rfl, rfl⟩
            rw [write_mem_self, hword]
          · exact write_mem_of_ne m 0 (by tauto)
        exact congrArg (fun mem => { m with mem }) hmem
      rw [hsame]
      exact ⟨fun _ => rfl, fun hmapped => absurd hnone hmapped, fun _ _ => rfl⟩
    · refine ⟨fun hnone' => absurd hnone' hnone, fun _ => ?_, fun va' hother => ?_⟩
      · rcases Option.ne_none_iff_exists'.1 hnone with ⟨frame, hframe⟩
        rw [Machine.translate, pathOf_eq, walk_concat] at hframe
        rcases Option.bind_eq_some_iff.1 hframe with ⟨next, hwalk, -⟩
        rcases walk_upper_eq hpdpt hpdt hpt hwalk with rfl
        exact ⟨next, hwalk, rfl⟩
      · by_cases hread : (pt, ptIndex va) ∈ m.places m.current (pathOf va')
        · -- only a walk that fails anyway reads the entry
          have hmapped : m.translate m.current va' = none := by
            by_contra hmapped
            exact hword va' hother hmapped hread
          rw [hmapped]
          exact walk_clear_of_mem hread
        · exact walk_write_of_notMem 0 hread

/-- The kernel before the first process is made; the first word of memory belongs to the BIOS. -/
def withInterruptVectors : Machine :=
  { kernelOnly with mem := fun t i => if t = 0 then 0x53 else kernelOnly.mem t i }

/-- `kfree(NULL)` clears the first word of memory, though NULL is not mapped. -/
theorem not_unmapPage_local :
    ¬ ∀ (m : Machine) (va : Word), ∃ m', m.unmapPage va = some m' ∧ UnmapsOnly m m' va := by
  intro h
  rcases h withInterruptVectors 0 with ⟨m', hunmap, honly⟩
  have hword : (withInterruptVectors.unmapPage 0).map (fun m' => m'.mem 0 0) = some 0 := by
    decide +kernel
  rw [hunmap] at hword
  have hzero : m'.mem 0 0 = 0 := Option.some_inj.1 hword
  have hnone : withInterruptVectors.translate withInterruptVectors.current 0 = none := by
    decide +kernel
  have hsame := congrFun (congrFun (honly.unmapped hnone) 0) 0
  rw [hzero] at hsame
  exact absurd hsame (by decide)

end Paging

end OswpKernel
