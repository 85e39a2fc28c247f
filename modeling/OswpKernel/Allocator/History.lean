import OswpKernel.Allocator.Runs
import Mathlib.Data.List.Chain

/-!
# Allocator history — which pages a multi-page request gets

The free list is a FIFO queue, so what a request removes is decided by the history of the run
alone: write down the initial pages and behind them every page in the order in which `kfree` got
it; a request for `n` pages takes the next `n` entries of that sequence.  The routines return the
first address only, so the range they return is the removed pages exactly if those `n` entries
ascend by 4096.
-/

namespace OswpKernel

namespace Allocator

open Chain Execution

/-! ## The history of a run -/

/-- How many pages were handed out, and which ones came back, in order. -/
structure History where
  handedOut : Nat
  released : List Word

def History.record (total : Nat) (h : History) : Event → History
  | .request _ size =>
      if h.handedOut + numOfPages size ≤ total + h.released.length then
        { h with handedOut := h.handedOut + numOfPages size }
      else h
  | .kfree freed => { h with released := h.released ++ [physAddress freed] }

def history (total : Nat) (es : List Event) : History :=
  es.foldl (History.record total) ⟨0, []⟩

theorem history_snoc (total : Nat) (es : List Event) (e : Event) :
    history total (es ++ [e]) = (history total es).record total e := by
  simp [history]

/-- The pages still to be handed out after the run `es`, next one first. -/
def supply (pages : List Word) (es : List Event) : List Word :=
  (pages ++ (history pages.length es).released).drop (history pages.length es).handedOut

/-- The addresses `base`, `base + 4096`, …, of `n` pages in a row. -/
def pageRange (base : Word) (n : Nat) : List Word :=
  (List.range n).map fun i => base + 4096 * BitVec.ofNat 64 i

/-- Each page follows the one before it in memory. -/
def Ascending (ps : List Word) : Prop :=
  ps.IsChain fun a b => b = a + 4096

theorem pageRange_succ (base : Word) (n : Nat) :
    pageRange base (n + 1) = base :: pageRange (base + 4096) n := by
  simp only [pageRange, List.range_succ_eq_map, List.map_cons, List.map_map]
  refine List.cons_eq_cons.2 ⟨by simp, ?_⟩
  apply List.map_congr_left
  intro i _
  have hsucc : BitVec.ofNat 64 (i + 1) = 1#64 + BitVec.ofNat 64 i := by
    rw [Nat.add_comm, BitVec.ofNat_add]
  calc
    base + 4096 * BitVec.ofNat 64 (i + 1) = base + (4096 * 1#64 + 4096 * BitVec.ofNat 64 i) := by
      rw [hsucc, BitVec.mul_add]
    _ = base + 4096 + 4096 * BitVec.ofNat 64 i := by
      rw [BitVec.mul_one, BitVec.add_assoc]

/-- A list of pages is the range from its first page on exactly if it ascends. -/
theorem eq_pageRange_iff (p : Word) (ps : List Word) :
    p :: ps = pageRange p (ps.length + 1) ↔ Ascending (p :: ps) := by
  induction ps generalizing p with
  | nil => simp [pageRange, Ascending]
  | cons q ps ih =>
      rw [pageRange_succ, List.cons_inj_right, Ascending, List.isChain_cons_cons]
      constructor
      · intro h
        have hq : q = p + 4096 := by
          rw [List.length_cons, pageRange_succ] at h
          exact (List.cons.inj h).1
        subst hq
        exact ⟨rfl, (ih _).1 h⟩
      · rintro ⟨rfl, h⟩
        exact (ih _).2 h

/-! ## The list is a FIFO queue -/

/-- A one-node list whose page is gone: `head_free` is NULL and nothing can come back. -/
def Drained (s : Allocator) : Prop :=
  s.numberOfFreePages = 0 ∧ s.headFree = none ∧
    ∃ x, s.headUnalloc = some x ∧ s.next x = none

/-- The free pages of `s` are the queue `queue`. -/
def Queued (queue : List Word) (s : Allocator) (total : Nat) : Prop :=
  (∃ chain r, Represents s chain r ∧ chain.length = total ∧ r.contents = queue) ∨
    (Drained s ∧ queue = [])

section Step

variable {queue : List Word} {total : Nat} {t t' : Tracked}

theorem Drained.bumpFrom {s : Allocator} (h : Drained s) (base : Word) {size : Word}
    (hsize : 0 < numOfPages size) : s.bumpFrom base size = some (0, s) := by
  have hcount : numOfPages size > s.numberOfFreePages := by
    rw [h.1]
    exact hsize
  simp [Allocator.bumpFrom, hcount]

theorem Drained.kfree {s : Allocator} (h : Drained s) (freed : Word) : s.kfree freed = none := by
  rcases h with ⟨-, -, x, hx, hnext⟩
  simp [Allocator.kfree, hx, hnext]

/-- Taking the page of a one-node list drains it. -/
theorem Represents.drain {s s' : Allocator} {x : NodeRef} {r : SlotRing Word}
    (h : Represents s [x] r) (hfree : r.free = 1) (htake : Allocator.takePages 1 s = some s') :
    Drained s' := by
  have hmove : s.moveHead = some (s.moved x x) := moveHead_eq_moved h.linked.1 h.last
  have heq : s' = s.moved x x := by
    simp [Allocator.takePages, hmove] at htake
    exact htake.symm
  subst heq
  refine ⟨?_, h.linked.2, x, ?_, moved_next_head x x⟩
  · change s.numberOfFreePages - 1 = 0
    rw [h.count, hfree]
  · change s.headUnalloc = some x
    rw [h.unalloc, hfree]
    rfl

theorem Queued.length_eq {s : Allocator} (h : Queued queue s total) :
    queue.length = s.numberOfFreePages := by
  rcases h with ⟨chain, r, hrep, -, rfl⟩ | ⟨hdrained, rfl⟩
  · rw [SlotRing.length_contents, hrep.count]
  · exact hdrained.1.symm

theorem Queued.removedPages_eq {s : Allocator} (h : Queued queue s total) {size : Word}
    (hfit : numOfPages size ≤ queue.length) :
    removedPages size s = queue.take (numOfPages size) := by
  rcases h with ⟨chain, r, hrep, -, rfl⟩ | ⟨hdrained, rfl⟩
  · exact hrep.removedPages_eq (by simpa using hfit)
  · have hzero : numOfPages size = 0 := by simpa using hfit
    simp [removedPages, hzero, frontPages, follow]

/-- A request that was answered and fits takes its pages from the front of the queue. -/
theorem Queued.request_fits (h : Queued queue t.alloc total) {k : Routine} {size : Word}
    (hfit : numOfPages size ≤ queue.length) (hstep : t.exec (.request k size) = some t') :
    Queued (queue.drop (numOfPages size)) t'.alloc total := by
  rcases h with ⟨chain, r, hrep, hlen, rfl⟩ | ⟨hdrained, rfl⟩
  · have hfit' : numOfPages size ≤ r.free := by simpa using hfit
    by_cases hlong : 2 ≤ chain.length
    · rcases hrep.bumpFrom_fits k.base size hlong hfit' with ⟨ret, s', -, hs', h'⟩
      simp [Tracked.exec, Routine.run_eq_bumpFrom, hs'] at hstep
      subst hstep
      exact Or.inl ⟨_, _, h', by simpa using hlen, r.contents_take hfit'⟩
    · -- a list of at most one node: either nothing is taken or the node is drained
      have hcount : ¬ numOfPages size > t.alloc.numberOfFreePages := by rw [hrep.count]; omega
      have hshort := hrep.free_le
      simp only [Tracked.exec, Routine.run_eq_bumpFrom, Allocator.bumpFrom, if_neg hcount] at hstep
      rcases Option.bind_eq_some_iff.1 hstep with ⟨⟨v, s'⟩, hbump, hs'⟩
      rcases Option.bind_eq_some_iff.1 hbump with ⟨head, hhead, hbump⟩
      rcases Option.bind_eq_some_iff.1 hbump with ⟨s'', htake, hpair⟩
      cases hpair
      cases hs'
      rcases Nat.eq_zero_or_pos (numOfPages size) with hzero | hpos
      · rw [hzero] at htake ⊢
        cases htake
        exact Or.inl ⟨chain, r, hrep, hlen, by simp⟩
      · have hone : numOfPages size = 1 := by omega
        have hfree : r.free = 1 := by omega
        rcases List.length_eq_one_iff.1 (show chain.length = 1 by omega) with ⟨x, rfl⟩
        rw [hone] at htake ⊢
        refine Or.inr ⟨hrep.drain hfree htake, ?_⟩
        apply List.eq_nil_of_length_eq_zero
        simp [hfree]
  · -- from a drained list only an empty request would fit, and it dereferences NULL
    have hzero : numOfPages size = 0 := by simpa using hfit
    simp [Tracked.exec, Routine.run_eq_bumpFrom, Allocator.bumpFrom, hzero, hdrained.2.1] at hstep

theorem Queued.request_fails (h : Queued queue t.alloc total) {k : Routine} {size : Word}
    (hfull : queue.length < numOfPages size) (hstep : t.exec (.request k size) = some t') :
    t'.alloc = t.alloc := by
  have hcount : numOfPages size > t.alloc.numberOfFreePages := by
    rw [← h.length_eq]
    exact hfull
  simp [Tracked.exec, Routine.run_eq_bumpFrom, Allocator.bumpFrom, hcount] at hstep
  rw [← hstep]

/-- A page that is freed joins the queue at its end. -/
theorem Queued.kfree (h : Queued queue t.alloc total) {freed : Word}
    (hstep : t.exec (.kfree freed) = some t') :
    Queued (queue ++ [physAddress freed]) t'.alloc total := by
  rcases h with ⟨chain, r, hrep, hlen, rfl⟩ | ⟨hdrained, rfl⟩
  · rcases Nat.eq_zero_or_pos r.free with hzero | hpos
    · simp [Tracked.exec, hrep.kfree_exhausted freed hzero] at hstep
    · rcases Nat.lt_or_ge r.free r.slots.length with hroom | hfull
      · rcases hrep.kfree freed hpos hroom with ⟨s', hs', h'⟩
        simp [Tracked.exec, hs'] at hstep
        subst hstep
        exact Or.inl ⟨chain, _, h', hlen, r.contents_put _ hroom⟩
      · have heq : r.free = r.slots.length := le_antisymm r.free_le hfull
        simp [Tracked.exec, hrep.kfree_full freed heq] at hstep
  · simp [Tracked.exec, hdrained.kfree freed] at hstep

end Step

section Runs

variable {nodes : List NodeRef} {pages : List Word} {s₀ s' : Allocator} {es : List Event}
  {t : Tracked} {allowed : Tracked → Event → Prop}

/-- In every reached state the free pages, front first, are the supply left by the history. -/
theorem run_queued (hinit : AfterInit nodes pages s₀)
    (hrun : Run Tracked.exec allowed ⟨s₀, []⟩ es t) :
    Queued (supply pages es) t.alloc pages.length ∧
      (supply pages es).length + (history pages.length es).handedOut =
        pages.length + (history pages.length es).released.length := by
  induction hrun with
  | nil =>
      refine ⟨Or.inl ⟨nodes, fullRing pages, hinit.represents, hinit.length_eq, ?_⟩, ?_⟩
      · simp [supply, history, SlotRing.contents, fullRing]
      · simp [supply, history]
  | @snoc es t t' e _ _ hstep ih =>
      rcases ih with ⟨hqueue, hlen⟩
      -- the second half of the invariant says how long the queue is, in terms of the record
      have hcount : (supply pages es).length =
          pages.length + (history pages.length es).released.length -
            (history pages.length es).handedOut := by
        simp [supply]
      cases e with
      | request k size =>
          by_cases hfit : numOfPages size ≤ (supply pages es).length
          -- a request that fits is recorded, and takes pages from the front of the queue
          · have hrecord : (history pages.length es).handedOut + numOfPages size ≤
                pages.length + (history pages.length es).released.length := by omega
            have hsupply : supply pages (es ++ [.request k size]) =
                (supply pages es).drop (numOfPages size) := by
              simp [supply, history_snoc, History.record, hrecord, List.drop_drop]
            refine ⟨hsupply ▸ hqueue.request_fits hfit hstep, ?_⟩
            rw [hsupply, List.length_drop]
            simp only [history_snoc, History.record, if_pos hrecord]
            omega
          -- a request that does not fit changes neither the record nor the list
          · have hrecord : ¬ (history pages.length es).handedOut + numOfPages size ≤
                pages.length + (history pages.length es).released.length := by omega
            have hsame : history pages.length (es ++ [.request k size]) =
                history pages.length es := by
              simp [history_snoc, History.record, hrecord]
            have halloc := hqueue.request_fails (by omega) hstep
            simp only [supply, hsame, halloc]
            exact ⟨hqueue, hlen⟩
      | kfree freed =>
          -- what was handed out was in the queue, so the freed page comes behind all that is left
          have hle : (history pages.length es).handedOut ≤
              (pages ++ (history pages.length es).released).length := by
            rw [List.length_append]
            omega
          have hsupply : supply pages (es ++ [.kfree freed]) =
              supply pages es ++ [physAddress freed] := by
            simp only [supply, history_snoc, History.record]
            rw [← List.append_assoc, List.drop_append_of_le_length hle]
          refine ⟨hsupply ▸ hqueue.kfree hstep, ?_⟩
          rw [hsupply]
          simp only [history_snoc, History.record, List.length_append, List.length_cons,
            List.length_nil]
          omega

/-- A multi-page request removes the range it returns exactly if the next entries of the run's
supply ascend by one page. -/
theorem request_contiguous_iff (hinit : AfterInit nodes pages s₀)
    (hrun : Run Tracked.exec allowed ⟨s₀, []⟩ es t) {k : Routine} {size v : Word}
    (hmulti : 2 ≤ numOfPages size) (hreturn : k.run size t.alloc = some (v, s')) (hv : v ≠ 0) :
    removedPages size t.alloc = pageRange (v - k.base) (numOfPages size) ↔
      Ascending ((supply pages es).take (numOfPages size)) := by
  rcases run_queued hinit hrun with ⟨hqueue, -⟩
  rw [k.run_eq_bumpFrom] at hreturn
  have hfit : numOfPages size ≤ (supply pages es).length := by
    by_contra hfull
    have hcount : numOfPages size > t.alloc.numberOfFreePages := by
      rw [← hqueue.length_eq]
      omega
    simp [Allocator.bumpFrom, hcount] at hreturn
    exact hv hreturn.1.symm
  rw [hqueue.removedPages_eq hfit]
  -- the returned base is the page at the front of the queue
  rcases hqueue with ⟨chain, r, hrep, hlen, hcontents⟩ | ⟨-, hnil⟩
  · rw [← hcontents] at hfit ⊢
    have hfit' : numOfPages size ≤ r.free := by simpa using hfit
    rcases hrep.bumpFrom_fits k.base size (by have := hrep.free_le; omega) hfit' with
      ⟨ret, s'', hret, hs'', -⟩
    rw [hs''] at hreturn
    have hbase : v - k.base = ret := by
      rw [← (Prod.mk.inj (Option.some.inj hreturn)).1]
      exact BitVec.add_sub_cancel ret k.base
    rcases List.exists_cons_of_length_pos (show 0 < (r.contents.take (numOfPages size)).length by
      rw [List.length_take]; omega) with ⟨p, ps, hps⟩
    have hp : p = ret := by
      have hhead : r.contents.head? = some p := by
        have hne : numOfPages size ≠ 0 := by omega
        simpa [List.head?_take, hne] using congrArg List.head? hps
      have hne : r.free ≠ 0 := by omega
      rw [SlotRing.contents, List.head?_take, if_neg hne, hret] at hhead
      exact (Option.some.inj hhead).symm
    have hsize : numOfPages size = ps.length + 1 := by
      have := congrArg List.length hps
      simp only [List.length_take, List.length_cons] at this
      omega
    rw [hbase, hps, hsize, ← hp]
    exact eq_pageRange_iff p ps
  · rw [hnil] at hfit
    simp at hfit
    omega

/-- In particular pages that were never freed before come in address order, if the initial list
was in address order. -/
theorem supply_take_ascending (hboot : Ascending pages) {n : Nat}
    (hn : (history pages.length es).handedOut + n ≤ pages.length) :
    Ascending ((supply pages es).take n) := by
  have hle : (history pages.length es).handedOut ≤ pages.length := by omega
  have hshort : n ≤ (pages.drop (history pages.length es).handedOut).length := by
    rw [List.length_drop]
    omega
  rw [supply, List.drop_append_of_le_length hle, List.take_append_of_le_length hshort]
  exact (List.IsChain.drop hboot _).take _

end Runs

/-! ## The list of three pages again -/

/-- On a fresh list a two-page request gets the two pages it returns. -/
theorem request_contiguous_threePages :
    removedPages 8192 threePages = pageRange (0x1000 - Routine.bumpPhysical.base) 2 := by
  have hsome : ∃ p, Routine.bumpPhysical.run 8192 threePages = some p ∧ p.1 = 0x1000 := by
    have h : (Routine.bumpPhysical.run 8192 threePages).map Prod.fst = some 0x1000 := by
      decide +kernel
    rcases Option.map_eq_some_iff.1 h with ⟨p, hp, hfst⟩
    exact ⟨p, hp, hfst⟩
  rcases hsome with ⟨⟨v, s'⟩, hreturn, rfl⟩
  have hsize : numOfPages 8192 = 2 := by decide +kernel
  have hrun : Run Tracked.exec Sane ⟨threePages, []⟩ [] ⟨threePages, []⟩ := Run.nil
  have hascending : Ascending ((supply [0x1000, 0x2000, 0x3000] []).take (numOfPages 8192)) := by
    rw [hsize]
    unfold Ascending
    decide +kernel
  have h := (request_contiguous_iff threePages_afterInit hrun hsize.ge hreturn (by decide)).2
    hascending
  rwa [hsize] at h

/-- Two pages are taken one by one and the second of them is freed: the next two-page request
returns the third page and removes the third and the second. -/
theorem not_contiguous_threePages :
    ¬ ∀ (nodes : List NodeRef) (pages : List Word) (s₀ s' : Allocator) (es : List Event)
        (t : Tracked) (k : Routine) (size v : Word), AfterInit nodes pages s₀ →
        Run Tracked.exec Sane ⟨s₀, []⟩ es t → 2 ≤ numOfPages size →
        k.run size t.alloc = some (v, s') → v ≠ 0 →
        removedPages size t.alloc = pageRange (v - k.base) (numOfPages size) := by
  intro hclaim
  let es : List Event :=
    [.request .bumpPhysical 4096, .request .bumpPhysical 4096, .kfree 0x2000]
  have hsome : ∃ t, replay Tracked.exec Sane es ⟨threePages, []⟩ = some t := by
    apply Option.isSome_iff_exists.1
    decide +kernel
  rcases hsome with ⟨t, ht⟩
  have hreturn : ∃ s', Routine.bumpPhysical.run 8192 t.alloc = some (0x3000, s') := by
    have h : ((replay Tracked.exec Sane es ⟨threePages, []⟩).bind fun t =>
        (Routine.bumpPhysical.run 8192 t.alloc).map Prod.fst) = some 0x3000 := by decide +kernel
    rw [ht, Option.bind_some] at h
    rcases Option.map_eq_some_iff.1 h with ⟨⟨v, s'⟩, hp, rfl⟩
    exact ⟨s', hp⟩
  have hremoved : removedPages 8192 t.alloc = [0x3000, 0x2000] := by
    have h : (replay Tracked.exec Sane es ⟨threePages, []⟩).map
        (fun t => removedPages 8192 t.alloc) = some [0x3000, 0x2000] := by decide +kernel
    rw [ht] at h
    exact Option.some.inj h
  rcases hreturn with ⟨s', hreturn⟩
  have hrange := hclaim _ _ threePages s' es t .bumpPhysical 8192 0x3000 threePages_afterInit
    (run_of_replay ht) (by decide) hreturn (by decide)
  rw [hremoved] at hrange
  revert hrange
  decide +kernel

end Allocator

end OswpKernel
