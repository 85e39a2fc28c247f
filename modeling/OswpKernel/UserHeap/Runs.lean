import OswpKernel.UserHeap.Invariant

/-!
# User heap runs — overlap and loss

A run starts with the heap of `createheap` and mixes requests, frees of live pointers and writes to
live payloads in any order.

* `heap_safe`: without an exact fit at the head of the list and without a free between two
  neighbours that touch the block, live blocks overlap nothing.
* `heap_conserved`: if moreover every fit is among the first two blocks of the list and every freed
  block lies above its head, no unit is lost.
-/

namespace OswpKernel

open Execution Tiling

namespace UserHeap

variable {header : Nat → Header} {es : List Event} {p p' : Process} {e : Event} {fs : List Nat}

/-- The live blocks lie in the page, and overlap neither each other nor a block of the free list. -/
structure Safe (p : Process) : Prop where
  inside : ∀ l ∈ p.live, l.1 + l.2 ≤ pageUnits
  disjoint : p.live.Pairwise Apart
  free : ∀ a ∈ p.arena.blocks, ∀ l ∈ p.live, Apart (a, p.arena.size a) l

/-- The units reachable from the free list. -/
def freeUnits (p : Process) : Nat := (p.arena.blocks.map p.arena.size).sum

def liveUnits (p : Process) : Nat := (p.live.map fun l => p.arena.size l.1).sum

/-- No request is an exact fit at the head of the list, and no freed block touches two
neighbours. -/
def Careful (p : Process) : Event → Prop
  | .malloc size => Representable size ∧ p.arena.size p.arena.freelist ≠ needed size
  | .free ptr => ∀ c ∈ p.arena.blocks, ¬ TouchesBoth p.arena (ptr - 1) c
  | .store _ _ => True

/-- Moreover one of the first two blocks fits, and a freed block lies above the head. -/
def Sparing (p : Process) : Event → Prop
  | .malloc size => ∃ a ∈ p.arena.blocks.take 2, needed size ≤ p.arena.size a
  | .free ptr => p.arena.freelist < ptr - 1
  | .store _ _ => True

instance (p : Process) (e : Event) : Decidable (Careful p e) :=
  match e with
  | .malloc size => inferInstanceAs (Decidable (size.toNat + 15 < 2 ^ 64 ∧ _ ≠ _))
  | .free _ => inferInstanceAs (Decidable (∀ _ ∈ _, ¬ _))
  | .store _ _ => inferInstanceAs (Decidable True)

instance (p : Process) (e : Event) : Decidable (Sparing p e) :=
  match e with
  | .malloc _ => inferInstanceAs (Decidable (∃ _ ∈ _, _))
  | .free _ => inferInstanceAs (Decidable (_ < _))
  | .store _ _ => inferInstanceAs (Decidable True)

/-! ## One event -/

/-- A careful event keeps the tiling, and a sparing one the number of units in it. -/
theorem WellFormed.step (h : WellFormed p fs) (hpossible : p.Possible e) (hcareful : Careful p e)
    (hexec : p.exec e = some p') :
    ∃ fs', WellFormed p' fs' ∧ (Sparing p e →
      total (p'.arena.spans fs' ++ p'.live) = total (p.arena.spans fs ++ p.live)) := by
  cases e with
  | malloc size =>
      rcases malloc_step h hcareful.1 hcareful.2 hexec with
        ⟨us, ws, a, zs, fs', rfl, hws, hsmall, hwell, htotal⟩
      refine ⟨fs', hwell, ?_⟩
      rintro ⟨x, hx, hfit⟩
      rw [h.blocks_eq] at hx
      -- blocks that are too small fill the first two places, unless nothing is lost
      cases us with
      | nil => simpa using htotal
      | cons u us =>
          have hx' : x ∈ (u :: us) ++ ws := by
            cases us with
            | nil =>
                cases ws with
                | nil => exact absurd rfl (hws (by simp))
                | cons w ws =>
                    have hfirst : x = u ∨ x = w := by simpa using hx
                    rcases hfirst with rfl | rfl <;> simp
            | cons u' us =>
                have hfirst : x = u ∨ x = u' := by simpa using hx
                rcases hfirst with rfl | rfl <;> simp
          exact absurd hfit (Nat.not_le_of_lt (hsmall x hx'))
  | free ptr =>
      rcases hpossible with ⟨⟨b, n⟩, hl, rfl⟩
      rcases free_step h hl hcareful with ⟨p'', fs', hexec', hwell, htotal⟩
      rw [hexec] at hexec'
      cases hexec'
      exact ⟨fs', hwell, htotal⟩
  | store i x =>
      rcases hpossible with ⟨l, hl, hi⟩
      cases hexec
      rcases store_step h hl hi x with ⟨hwell, hspans⟩
      refine ⟨fs, hwell, fun _ => ?_⟩
      change total ((p.arena.setHeader i x).spans fs ++ p.live) = _
      rw [hspans]

/-! ## Runs -/

theorem WellFormed.safe (h : WellFormed p fs) : Safe p where
  inside l hl :=
    (h.tiled.inside l (List.mem_append_right _ hl)).trans (by decide)
  disjoint := (List.pairwise_append.1 h.tiled.apart).2.1
  free a ha l hl := h.apart_live (h.blocks_eq ▸ ha) hl

/-- Live blocks overlap nothing along a run of careful events. -/
theorem heap_safe (header : Nat → Header) (es : List Event) (p : Process)
    (hrun : Run Process.exec (fun p e => p.Possible e ∧ Careful p e) (Process.start header) es p) :
    Safe p := by
  have hwell : ∃ fs, WellFormed p fs := by
    refine hrun.invariant (fun p => ∃ fs, WellFormed p fs) ⟨_, start_wellFormed header⟩ ?_
    rintro p e p' ⟨fs, h⟩ ⟨hpossible, hcareful⟩ hexec
    rcases h.step hpossible hcareful hexec with ⟨fs', h', -⟩
    exact ⟨fs', h'⟩
  rcases hwell with ⟨fs, h⟩
  exact h.safe

/-- A page that held something before. -/
def usedPage : Nat → Header := fun _ => { next := some 3, size := 7 }

theorem heap_safe_reuse :
    ∃ p, Run Process.exec (fun p e => p.Possible e ∧ Careful p e) (Process.start usedPage)
        [.malloc 100, .malloc 20, .free 248, .malloc 40, .store 246 ⟨some 1, 1⟩] p ∧
      p.live = [(240, 4), (244, 3)] ∧ Safe p := by
  have hreplay : (replay Process.exec (fun p e => p.Possible e ∧ Careful p e)
      [.malloc 100, .malloc 20, .free 248, .malloc 40, .store 246 ⟨some 1, 1⟩]
      (Process.start usedPage)).map Process.live = some [(240, 4), (244, 3)] := by decide +kernel
  rcases Option.map_eq_some_iff.1 hreplay with ⟨p, hp, hlive⟩
  exact ⟨p, run_of_replay hp, hlive, heap_safe usedPage _ p (run_of_replay hp)⟩

/-- A request for the whole heap leaves its block on the free list. -/
theorem not_heap_safe :
    ¬ ∀ (header : Nat → Header) (es : List Event) (p : Process),
      Run Process.exec Process.Possible (Process.start header) es p → Safe p := by
  intro h
  have hreplay : (replay Process.exec Process.Possible [.malloc 4064]
      (Process.start usedPage)).map (fun p => (p.live, p.arena.blocks, p.arena.size 0)) =
      some ([(0, 255)], [0], 255) := by decide +kernel
  rcases Option.map_eq_some_iff.1 hreplay with ⟨p, hp, heq⟩
  have hsafe := h usedPage _ p (run_of_replay hp)
  simp only [Prod.mk.injEq] at heq
  have hapart := hsafe.free 0 (by simp [heq.2.1]) (0, 255) (by simp [heq.1])
  rw [heq.2.2] at hapart
  exact absurd hapart (by decide)

theorem WellFormed.units_eq (h : WellFormed p fs) :
    freeUnits p + liveUnits p = total (p.arena.spans fs ++ p.live) := by
  have hfree : freeUnits p = total (p.arena.spans fs) := by
    rw [freeUnits, h.blocks_eq, total, Arena.spans, List.map_map]
    rfl
  have hlive : liveUnits p = total p.live :=
    congrArg List.sum (List.map_congr_left h.sizes)
  rw [hfree, hlive, total_append]

/-- Along a run of careful and sparing events no unit is lost. -/
theorem heap_conserved (header : Nat → Header) (es : List Event) (p : Process)
    (hrun : Run Process.exec (fun p e => p.Possible e ∧ Careful p e ∧ Sparing p e)
      (Process.start header) es p) :
    freeUnits p + liveUnits p = 255 ∧ (p.live = [] → freeUnits p = 255) := by
  have hwell : ∃ fs, WellFormed p fs ∧ total (p.arena.spans fs ++ p.live) = 255 := by
    refine hrun.invariant
      (fun p => ∃ fs, WellFormed p fs ∧ total (p.arena.spans fs ++ p.live) = 255)
      ⟨_, start_wellFormed header, ?_⟩ ?_
    · simp [Process.start, Arena.createheap, Arena.size, total, Arena.spans]
    · rintro p e p' ⟨fs, h, htotal⟩ ⟨hpossible, hcareful, hsparing⟩ hexec
      rcases h.step hpossible hcareful hexec with ⟨fs', h', hkeep⟩
      exact ⟨fs', h', (hkeep hsparing).trans htotal⟩
  rcases hwell with ⟨fs, h, htotal⟩
  have hunits : freeUnits p + liveUnits p = 255 := h.units_eq.trans htotal
  refine ⟨hunits, fun hnone => ?_⟩
  rw [liveUnits, hnone] at hunits
  exact hunits

theorem heap_conserved_freed :
    ∃ p, Run Process.exec (fun p e => p.Possible e ∧ Careful p e ∧ Sparing p e)
        (Process.start usedPage) [.malloc 100, .malloc 20, .free 245, .free 248] p ∧
      p.live = [] ∧ freeUnits p = 255 := by
  have hreplay : (replay Process.exec (fun p e => p.Possible e ∧ Careful p e ∧ Sparing p e)
      [.malloc 100, .malloc 20, .free 245, .free 248] (Process.start usedPage)).map Process.live =
      some [] := by decide +kernel
  rcases Option.map_eq_some_iff.1 hreplay with ⟨p, hp, hlive⟩
  have hrun := run_of_replay hp
  exact ⟨p, hrun, hlive, (heap_conserved usedPage _ p hrun).2 hlive⟩

/-- The second block freed touches both of its neighbours; eight units are then free twice. -/
theorem not_heap_conserved :
    ¬ ∀ (header : Nat → Header) (es : List Event) (p : Process),
      Run Process.exec Process.Possible (Process.start header) es p →
      freeUnits p + liveUnits p = 255 ∧ (p.live = [] → freeUnits p = 255) := by
  intro h
  have hreplay : (replay Process.exec Process.Possible
      [.malloc 100, .malloc 20, .free 248, .free 245] (Process.start usedPage)).map
      (fun p => (p.live, freeUnits p)) = some ([], 263) := by decide +kernel
  rcases Option.map_eq_some_iff.1 hreplay with ⟨p, hp, heq⟩
  have hconserved := (h usedPage _ p (run_of_replay hp)).2 (congrArg Prod.fst heq)
  have hunits : freeUnits p = 263 := congrArg Prod.snd heq
  rw [hunits] at hconserved
  exact absurd hconserved (by decide)

end UserHeap

end OswpKernel
