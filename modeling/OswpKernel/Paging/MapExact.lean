import OswpKernel.Paging.MapRange

/-!
# Map exact — `map_user_address` and the range it is asked for

`mapUserAddress_exact_iff` compares the pages the loop goes over with those that `[a, a + n)` lies
in; a request for one whole page already goes over two.  `mapUserAddress_keeps_iff` says when a call
leaves the pages that were mapped alone: every page table it comes to, but the first, is replaced.
-/

namespace OswpKernel

namespace Paging

open Machine Execution

variable {m m' : Machine} {role : Frame → Role} {a p va e : Word} {table : Frame} {n k d x x₀ : Nat}
  {mapped : List Frame} {size : Int}

/-- The top table of a process, in a memory where the tables of the processes and of the kernel and
the free pages are apart. -/
def ProcessTable (m : Machine) (table : Frame) : Prop :=
  ∃ role, Roles m role ∧ role table = .table table []

/-! ## Pages and ranges -/

/-- The number of a page in its entry of the top table. -/
def slotPage (va : Word) : Nat := 2 ^ 18 * (pdptIndex va : Nat) + pageIn va

/-- A byte of `[a, a + n)` lies in the page of `va`. -/
def Touches (va a : Word) (n : Nat) : Prop :=
  ∃ b < n, pathOf (a + BitVec.ofNat 64 b) = pathOf va

/-- The number of pages that `[a, a + n)` lies in. -/
def requestedPages (a : Word) (n : Nat) : Nat := (a.toNat % 4096 + n + 4095) / 4096

/-- The number of pages the loop goes over for `n` bytes. -/
def loopPages (n : Nat) : Nat :=
  n / 4096 + (n / 4096 + (if n % 512 = 0 then 0 else 1) + 511) / 512

theorem turnsNonneg_userMapSize (n : Nat) : turnsNonneg (userMapSize n) = loopPages n := by
  have hentries : (n : Int).tdiv 4096 + (if (n : Int).tmod 512 > 0 then 1 else 0) =
      (n / 4096 + if n % 512 = 0 then 0 else 1 : Nat) := by
    rw [Int.tdiv_eq_ediv_of_nonneg (by omega), Int.tmod_eq_emod_of_nonneg (by omega)]
    split_ifs <;> omega
  rw [userMapSize, hentries, turnsNonneg, loopPages, structsFor,
    Int.tdiv_eq_ediv_of_nonneg (by omega), Int.tmod_eq_emod_of_nonneg (by omega)]
  split_ifs <;> omega

theorem indices_toNat (va : Word) : (pml4Index va : Nat) = va.toNat / 2 ^ 39 % 512 ∧
    slotPage va = va.toNat / 4096 % 2 ^ 27 := by
  simp only [slotPage, pageIn, pml4Index, pdptIndex, pdtIndex, ptIndex, Fin.val_ofNat,
    BitVec.toNat_ushiftRight, Nat.shiftRight_eq_div_pow, true_and]
  omega

theorem pathOf_eq_iff (va va' : Word) :
    pathOf va = pathOf va' ↔ pml4Index va = pml4Index va' ∧ slotPage va = slotPage va' := by
  have h₁ := (pdtIndex va).isLt
  have h₂ := (ptIndex va).isLt
  have h₃ := (pdtIndex va').isLt
  have h₄ := (ptIndex va').isLt
  simp only [pathOf, List.cons.injEq, and_true, slotPage, pageIn, Fin.ext_iff]
  omega

/-- The pages of a range inside one entry of the top table. -/
theorem touches_iff (hn : 0 < n) (hslot : a.toNat % 2 ^ 39 + n ≤ 2 ^ 39) :
    Touches va a n ↔ pml4Index va = pml4Index a ∧ slotPage a ≤ slotPage va ∧
      slotPage va < slotPage a + requestedPages a n := by
  have hbyte : ∀ b < n, (a + BitVec.ofNat 64 b).toNat = a.toNat + b := by
    intro b hb
    have ha := a.isLt
    rw [BitVec.toNat_add, BitVec.toNat_ofNat]
    omega
  have hindices : ∀ b < n, pml4Index (a + BitVec.ofNat 64 b) = pml4Index a ∧
      slotPage (a + BitVec.ofNat 64 b) = slotPage a + (a.toNat % 4096 + b) / 4096 := by
    intro b hb
    rw [Fin.ext_iff, (indices_toNat _).1, (indices_toNat a).1, (indices_toNat _).2,
      (indices_toNat a).2, hbyte b hb]
    omega
  rw [requestedPages]
  constructor
  · rintro ⟨b, hb, hpath⟩
    rcases (pathOf_eq_iff _ _).1 hpath with ⟨hpml4, hpage⟩
    rcases hindices b hb with ⟨hsame, hat⟩
    refine ⟨hpml4.symm.trans hsame, ?_, ?_⟩
    · omega
    · omega
  · rintro ⟨hpml4, hlow, hhigh⟩
    -- the first byte of the page, or `a` itself
    have hexists : ∃ b < n, (a.toNat % 4096 + b) / 4096 = slotPage va - slotPage a := by
      by_cases hfirst : slotPage va = slotPage a
      · exact ⟨0, hn, by omega⟩
      · exact ⟨4096 * (slotPage va - slotPage a) - a.toNat % 4096, by omega, by omega⟩
    rcases hexists with ⟨b, hb, hpage⟩
    rcases hindices b hb with ⟨hsame, hat⟩
    exact ⟨b, hb, (pathOf_eq_iff _ _).2 ⟨hsame.trans hpml4.symm, by omega⟩⟩

/-! ## The pages a call maps -/

theorem aligned_phys (hp : p.toNat < 2 ^ 32) : p &&& physMask = pageWord (frameOf p) := by
  have hmask : physMask = 0xffffffff#64 &&& frameMask := by decide
  have hword : p &&& 0xffffffff#64 = p := by
    apply BitVec.eq_of_toNat_eq
    rw [BitVec.toNat_and, show (0xffffffff#64 : Word).toNat = 2 ^ 32 - 1 by decide,
      Nat.and_two_pow_sub_one_eq_mod, Nat.mod_eq_of_lt hp]
  have haligned : (p &&& frameMask) &&& frameMask = p &&& frameMask := by
    rw [BitVec.and_assoc, BitVec.and_self]
  rw [hmask, ← BitVec.and_assoc, hword]
  apply BitVec.eq_of_toNat_eq
  rw [toNat_of_aligned haligned, frameOf_mask, pageWord_toNat]
  rw [frameOf_eq]
  omega

/-- A page that is absent is present afterwards just when the loop goes over it. -/
theorem present_sweptEntry_iff {phys : Word} (hx₀ : x₀ ≤ 512 * (d + 1)) (he : ¬ Present e) :
    Present (sweptEntry d x₀ k phys x e) ↔ x₀ ≤ x ∧ x < x₀ + k := by
  have habsent : ¬ Present (0 : Word) := fun h => h.ne_zero rfl
  by_cases hlater : d < x / 512 ∧ 512 * (x / 512) < x₀ + k
  · rw [sweptEntry_later hlater]
    split_ifs with hin
    · exact ⟨fun _ => by omega, fun _ => present_seven _⟩
    · exact ⟨fun h => absurd h habsent, fun h => absurd h.2 hin⟩
  · rw [sweptEntry_inside hlater]
    split_ifs with hin
    · exact ⟨fun _ => ⟨hin.1, hin.2.1⟩, fun _ => present_seven _⟩
    · exact ⟨fun h => absurd h he, fun h => absurd ⟨h.1, h.2, he⟩ hin⟩

/-- The call goes over the page. -/
def LoopsOver (a : Word) (k : Nat) (va : Word) : Prop :=
  pml4Index va = pml4Index a ∧ slotPage a ≤ slotPage va ∧ slotPage va < slotPage a + k

theorem pageIn_start (a : Word) : pageIn a ≤ 512 * ((pdtIndex a : Nat) + 1) := by
  have h := (ptIndex a).isLt
  rw [pageIn]
  omega

theorem userIndices_upperPath (h : (pml4Index va : Nat) < 510) : UserIndices (upperPath va) :=
  userIndices_cons h

/-- Pages behind another second-level table are as before. -/
theorem Swept.leafAt_other {r : Frame} {phys : Word} {i₄ i₃ : Slot}
    (h : Swept r i₄ i₃ m m' d x₀ k phys) (hlow : (pml4Index va : Nat) < 510)
    (hother : ¬ (pml4Index va = i₄ ∧ pdptIndex va = i₃)) : m'.leafAt r va = m.leafAt r va := by
  refine h.others _ (userIndices_upperPath hlow) rfl ?_ _
  rintro i₂ heq
  rw [upperPath, List.cons.injEq, List.cons.injEq] at heq
  exact hother ⟨heq.1, heq.2.1⟩

theorem Swept.leafAt_same {r : Frame} {phys : Word} {i₄ i₃ : Slot}
    (h : Swept r i₄ i₃ m m' d x₀ k phys) (hpml4 : pml4Index va = i₄) (hpdpt : pdptIndex va = i₃) :
    m'.leafAt r va = sweptEntry d x₀ k phys (pageIn va) (m.leafAt r va) := by
  rw [← pageAt_pageIn, ← pageAt_pageIn, hpml4, hpdpt]
  exact h.pages _ (pageIn_lt va)

/-- Which absent pages a call maps. -/
theorem mapUserAddress_present_iff (h : ProcessTable m table) (hlow : (pml4Index a : Nat) < 510)
    (hmap : mapUserAddress a p size table 7 m = some (mapped, m'))
    (hva : (pml4Index va : Nat) < 510)
    (habsent : m.translate table va = none) :
    m'.translate table va ≠ none ↔ LoopsOver a (turnsNonneg (userMapSize size)) va := by
  rcases h with ⟨role, hroles, htable⟩
  rcases mapUserAddress_pages hroles htable hlow hmap with ⟨hroom, hswept⟩
  rw [translate_eq_none_iff] at habsent
  rw [ne_eq, translate_eq_none_iff, not_not, LoopsOver]
  have hin := pageIn_lt va
  have hin' := pageIn_lt a
  rw [InGiB] at hroom
  by_cases hsame : pml4Index va = pml4Index a ∧ pdptIndex va = pdptIndex a
  · rw [hswept.leafAt_same hsame.1 hsame.2, present_sweptEntry_iff (pageIn_start a) habsent,
      slotPage, slotPage, hsame.2]
    exact ⟨fun h => ⟨hsame.1, by omega, by omega⟩, fun h => ⟨by omega, by omega⟩⟩
  · rw [hswept.leafAt_other hva hsame]
    refine ⟨fun hpresent => absurd hpresent habsent, fun hloops => ?_⟩
    -- the loop stays behind one second-level table
    have hpdpt : (pdptIndex va : Nat) = pdptIndex a := by
      rcases hloops with ⟨-, hlower, hupper⟩
      rw [slotPage, slotPage] at hlower hupper
      have hstart : pageIn a = 512 * (pdtIndex a : Nat) + ptIndex a := rfl
      omega
    exact absurd ⟨hloops.1, Fin.ext hpdpt⟩ hsame

/-- A page that a call goes over is mapped afterwards, whether or not it was before. -/
theorem mapUserAddress_covers (h : ProcessTable m table) (hlow : (pml4Index a : Nat) < 510)
    (hmap : mapUserAddress a p size table 7 m = some (mapped, m'))
    (hloops : LoopsOver a (turnsNonneg (userMapSize size)) va) : m'.translate table va ≠ none := by
  rcases h with ⟨role, hroles, htable⟩
  rcases mapUserAddress_pages hroles htable hlow hmap with ⟨hroom, hswept⟩
  rw [ne_eq, translate_eq_none_iff, not_not]
  rcases hloops with ⟨hpml4, hfrom, hto⟩
  have hin := pageIn_lt va
  have hin' := pageIn_lt a
  rw [InGiB] at hroom
  rw [slotPage, slotPage] at hfrom hto
  have hstart : pageIn a = 512 * (pdtIndex a : Nat) + ptIndex a := rfl
  have hpdpt : (pdptIndex va : Nat) = pdptIndex a := by omega
  rw [hswept.leafAt_same hpml4 (Fin.ext hpdpt)]
  by_cases hlater : (pdtIndex a : Nat) < pageIn va / 512 ∧
      512 * (pageIn va / 512) < pageIn a + turnsNonneg (userMapSize size)
  · rw [sweptEntry_later hlater, if_pos (by omega)]
    exact present_seven _
  · rw [sweptEntry_inside hlater]
    split_ifs with hnew
    · exact present_seven _
    · by_contra habsent
      exact hnew ⟨by omega, by omega, habsent⟩

/-- And to which frames. -/
theorem mapUserAddress_frame (h : ProcessTable m table) (hlow : (pml4Index a : Nat) < 510)
    (hp : p.toNat < 2 ^ 32) (hmap : mapUserAddress a p size table 7 m = some (mapped, m'))
    (hva : (pml4Index va : Nat) < 510) (habsent : m.translate table va = none) {frame : Frame}
    (hframe : m'.translate table va = some frame) :
    frame = frameOf p + (slotPage va - slotPage a) := by
  have hloops := (mapUserAddress_present_iff h hlow hmap hva habsent).1 (by rw [hframe]; simp)
  rcases h with ⟨role, hroles, htable⟩
  rcases mapUserAddress_pages hroles htable hlow hmap with ⟨hroom, hswept⟩
  rw [translate_eq_none_iff] at habsent
  rcases translate_eq_some_iff.1 hframe with ⟨hpresent, hleaf⟩
  -- outside the second-level table of `a` nothing is mapped that was not
  have hsame : pml4Index va = pml4Index a ∧ pdptIndex va = pdptIndex a := by
    by_contra hother
    rw [hswept.leafAt_other hva hother] at hpresent
    exact habsent hpresent
  have hdistance : slotPage va - slotPage a = pageIn va - pageIn a := by
    rw [slotPage, slotPage, hsame.2]
    omega
  have hat := (present_sweptEntry_iff (pageIn_start a) habsent).1
    (hswept.leafAt_same hsame.1 hsame.2 ▸ hpresent)
  have hin := pageIn_lt va
  rw [hswept.leafAt_same hsame.1 hsame.2, aligned_phys hp] at hleaf
  have hentry : sweptEntry (pdtIndex a) (pageIn a) (turnsNonneg (userMapSize size))
      (pageWord (frameOf p)) (pageIn va) (m.leafAt table va) =
        pageWord (frameOf p + (pageIn va - pageIn a)) ||| 7 := by
    rw [← pageWord_add, sweptEntry]
    split_ifs with h₁ h₂ h₃
    · rfl
    · exact absurd hat.2 h₂
    · rfl
    · exact absurd ⟨hat.1, hat.2, habsent⟩ h₃
  have hlow52 : frameOf p < 2 ^ 20 := by
    rw [frameOf_eq]
    omega
  rw [hentry, frameOf_or _ (by decide), frameOf_pageWord (by omega)] at hleaf
  rw [hdistance, ← hleaf]

/-- Of the pages that were absent, those are present that `[a, a + n)` lies in, and lead to the
frame of `p` plus their distance from the first. -/
structure MapsExactly (m m' : Machine) (table : Frame) (a p : Word) (n : Nat) : Prop where
  present : ∀ va, (pml4Index va : Nat) < 510 → m.translate table va = none →
    (m'.translate table va ≠ none ↔ Touches va a n)
  frame : ∀ va, (pml4Index va : Nat) < 510 → m.translate table va = none → ∀ f,
    m'.translate table va = some f → f = frameOf p + (slotPage va - slotPage a)

/-- The pages on which the number of turns and the size of the request disagree were there. -/
def CountsAgree (m : Machine) (table : Frame) (a : Word) (n : Nat) : Prop :=
  ∀ va, pml4Index va = pml4Index a → slotPage a ≤ slotPage va → m.translate table va = none →
    (slotPage va < slotPage a + loopPages n ↔ slotPage va < slotPage a + requestedPages a n)

/-- A request inside one entry of the top table: it would run past the end of a second-level table,
or it maps exactly its range just when the two page counts agree where pages were absent. -/
theorem mapUserAddress_exact_iff (h : ProcessTable m table) (hlow : (pml4Index a : Nat) < 510)
    (hn : 0 < n) (hslot : a.toNat % 2 ^ 39 + n ≤ 2 ^ 39) (hp : p.toNat < 2 ^ 32) :
    (¬ InGiB a n → mapUserAddress a p n table 7 m = none) ∧
      ∀ mapped m', mapUserAddress a p n table 7 m = some (mapped, m') →
        (MapsExactly m m' table a p n ↔ CountsAgree m table a n) := by
  constructor
  · intro hcrosses
    rw [Option.eq_none_iff_forall_ne_some]
    rintro ⟨mapped, m'⟩ hmap
    rcases h with ⟨role, hroles, htable⟩
    exact hcrosses (mapUserAddress_pages hroles htable hlow hmap).1
  · intro mapped m' hmap
    have hpresent : ∀ va, (pml4Index va : Nat) < 510 → m.translate table va = none →
        (m'.translate table va ≠ none ↔ LoopsOver a (loopPages n) va) := by
      intro va hva habsent
      rw [← turnsNonneg_userMapSize]
      exact mapUserAddress_present_iff h hlow hmap hva habsent
    constructor
    · intro hexact va hpml4 hfrom habsent
      have hva : (pml4Index va : Nat) < 510 := by rw [hpml4]; exact hlow
      have hiff := (hpresent va hva habsent).symm.trans (hexact.present va hva habsent)
      rw [touches_iff hn hslot] at hiff
      constructor
      · exact fun hcount => (hiff.1 ⟨hpml4, hfrom, hcount⟩).2.2
      · exact fun hcount => (hiff.2 ⟨hpml4, hfrom, hcount⟩).2.2
    · intro hagree
      refine ⟨fun va hva habsent => ?_, fun va hva habsent f hf =>
        mapUserAddress_frame h hlow hp hmap hva habsent hf⟩
      rw [hpresent va hva habsent, touches_iff hn hslot]
      refine and_congr_right fun hpml4 => and_congr_right fun hfrom => ?_
      exact hagree va hpml4 hfrom habsent

/-- Tables that are made in a run are tables of processes. -/
theorem processTable_of_run {m₀ : Machine} {es : List TableEvent} {s : Processes}
    (hboot : Consistent m₀) (hrun : Run tableStep TableAllowed ⟨m₀, []⟩ es s)
    (htable : table ∈ s.tables) : ProcessTable s.machine table := by
  rcases processTables_of_run hboot hrun with ⟨role, h⟩
  exact ⟨role, h.roles, (h.tops table htable).1⟩

/-- For 100 bytes the loop makes one turn, and that is right. -/
theorem mapUserAddress_exact_hundred : ∃ m mapped m',
    mapUserAddress 0x400000 0x7000 100 5 7 m = some (mapped, m') ∧
      MapsExactly m m' 5 0x400000 0x7000 100 := by
  have hreplay : ((replay tableStep TableAllowed [.create] ⟨kernelOnly, []⟩).bind fun s =>
      (mapUserAddress 0x400000 0x7000 100 5 7 s.machine).map fun _ => decide (5 ∈ s.tables)) =
        some true := by
    decide +kernel
  rcases Option.bind_eq_some_iff.1 hreplay with ⟨s, hs, hmapped⟩
  rcases Option.map_eq_some_iff.1 hmapped with ⟨⟨mapped, m'⟩, hmap, hcheck⟩
  have htable : ProcessTable s.machine 5 :=
    processTable_of_run kernelOnly_consistent (run_of_replay hs) (of_decide_eq_true hcheck)
  refine ⟨s.machine, mapped, m', hmap, ?_⟩
  refine ((mapUserAddress_exact_iff htable (by decide) (by decide) (by decide)
    (by decide)).2 mapped m'
    hmap).2 fun va _ _ _ => ?_
  have hcounts : loopPages 100 = requestedPages 0x400000 100 := by decide
  rw [hcounts]

/-- For one page it makes two: the page behind it is mapped as well. -/
theorem not_mapUserAddress_exact : ¬ ∀ (m : Machine) (table : Frame) (a p : Word) (n : Nat),
    ProcessTable m table → (pml4Index a : Nat) < 510 → 0 < n → a.toNat % 2 ^ 39 + n ≤ 2 ^ 39 →
      p.toNat < 2 ^ 32 → ∃ mapped m', mapUserAddress a p n table 7 m = some (mapped, m') ∧
        MapsExactly m m' table a p n := by
  intro h
  have hreplay : ((replay tableStep TableAllowed [.create] ⟨kernelOnly, []⟩).bind fun s =>
      (mapUserAddress 0x400000 0x7000 4096 5 7 s.machine).map fun r => decide (5 ∈ s.tables ∧
        s.machine.translate 5 0x401000 = none ∧ r.2.translate 5 0x401000 ≠ none)) = some true := by
    decide +kernel
  rcases Option.bind_eq_some_iff.1 hreplay with ⟨s, hs, hmapped⟩
  rcases Option.map_eq_some_iff.1 hmapped with ⟨⟨mapped, m'⟩, hmap, hcheck⟩
  rcases of_decide_eq_true hcheck with ⟨hmem, habsent, hpresent⟩
  have htable : ProcessTable s.machine 5 :=
    processTable_of_run kernelOnly_consistent (run_of_replay hs) hmem
  rcases h s.machine 5 0x400000 0x7000 4096 htable (by decide) (by decide) (by decide)
    (by decide) with
    ⟨mapped', m'', hmap', hexact⟩
  have hsame : (mapped', m'') = (mapped, m') := Option.some_inj.1 (hmap'.symm.trans hmap)
  cases hsame
  have htouches := (hexact.present 0x401000 (by decide) habsent).1 hpresent
  rw [touches_iff (by decide) (by decide)] at htouches
  exact absurd htouches (by decide)

/-! ## The pages that were there -/

/-- Every page that was present leads to the same frame, with the same flags. -/
def KeepsPages (m m' : Machine) (table : Frame) : Prop :=
  ∀ va, (pml4Index va : Nat) < 510 → Present (m.leafAt table va) →
    m'.leafAt table va = m.leafAt table va

/-- What was present in the page tables the loop comes to, the first apart, is what it enters. -/
def ComesToNoPage (m : Machine) (table : Frame) (a p : Word) (k : Nat) : Prop :=
  ∀ va, pml4Index va = pml4Index a → pdptIndex va = pdptIndex a →
    (pdtIndex a : Nat) < pdtIndex va → 512 * (pdtIndex va : Nat) < pageIn a + k →
      Present (m.leafAt table va) → pageIn va < pageIn a + k ∧
        m.leafAt table va = (p &&& physMask) + pageWord (pageIn va - pageIn a) ||| 7

/-- A call would run past the end of a second-level table, or it keeps the pages that were there
just when the page tables it replaces held none, or the same. -/
theorem mapUserAddress_keeps_iff (h : ProcessTable m table) (hlow : (pml4Index a : Nat) < 510) :
    (¬ InGiB a size → mapUserAddress a p size table 7 m = none) ∧
      ∀ mapped m', mapUserAddress a p size table 7 m = some (mapped, m') →
        (KeepsPages m m' table ↔ ComesToNoPage m table a p (turnsNonneg (userMapSize size))) := by
  rcases h with ⟨role, hroles, htable⟩
  constructor
  · intro hcrosses
    rw [Option.eq_none_iff_forall_ne_some]
    rintro ⟨mapped, m'⟩ hmap
    exact hcrosses (mapUserAddress_pages hroles htable hlow hmap).1
  · intro mapped m' hmap
    have hswept := (mapUserAddress_pages hroles htable hlow hmap).2
    have hdiv : ∀ va, pageIn va / 512 = pdtIndex va := by
      intro va
      have h := (ptIndex va).isLt
      rw [pageIn]
      omega
    constructor
    · intro hkeeps va hpml4 hpdpt hlater hreached hpresent
      have hva : (pml4Index va : Nat) < 510 := by rw [hpml4]; exact hlow
      have hkept := hkeeps va hva hpresent
      rw [hswept.leafAt_same hpml4 hpdpt, sweptEntry_later (by rw [hdiv]; exact ⟨hlater, hreached⟩)]
        at hkept
      split_ifs at hkept with hin
      · exact ⟨hin, hkept.symm⟩
      · exact absurd hkept.symm hpresent.ne_zero
    · intro hclear va hva hpresent
      by_cases hsame : pml4Index va = pml4Index a ∧ pdptIndex va = pdptIndex a
      · rw [hswept.leafAt_same hsame.1 hsame.2]
        by_cases hlater : (pdtIndex a : Nat) < pdtIndex va ∧
            512 * (pdtIndex va : Nat) < pageIn a + turnsNonneg (userMapSize size)
        -- a page table entered later is replaced whole: what it held is there only if mapped again
        · rcases hclear va hsame.1 hsame.2 hlater.1 hlater.2 hpresent with ⟨hin, hentry⟩
          rw [sweptEntry_later (by rw [hdiv]; exact hlater), if_pos hin, ← hentry]
        · rw [sweptEntry_inside (by rw [hdiv]; exact hlater), if_neg fun h => h.2.2 hpresent]
      · exact hswept.leafAt_other hva hsame

/-- Inside one page table nothing is lost. -/
theorem mapUserAddress_keeps_first : ∃ m mapped m',
    mapUserAddress 0x400000 0x7000 4096 5 7 m = some (mapped, m') ∧ KeepsPages m m' 5 := by
  have hreplay : ((replay tableStep TableAllowed [.create] ⟨kernelOnly, []⟩).bind fun s =>
      (mapUserAddress 0x400000 0x7000 4096 5 7 s.machine).map fun _ => decide (5 ∈ s.tables)) =
        some true := by
    decide +kernel
  rcases Option.bind_eq_some_iff.1 hreplay with ⟨s, hs, hmapped⟩
  rcases Option.map_eq_some_iff.1 hmapped with ⟨⟨mapped, m'⟩, hmap, hcheck⟩
  have htable : ProcessTable s.machine 5 :=
    processTable_of_run kernelOnly_consistent (run_of_replay hs) (of_decide_eq_true hcheck)
  refine ⟨s.machine, mapped, m', hmap, ?_⟩
  refine ((mapUserAddress_keeps_iff htable (by decide)).2 mapped m' hmap).2 ?_
  intro va _ _ hlater hreached
  have hturns : turnsNonneg (userMapSize 4096) = 2 := by decide
  have hstart : pageIn 0x400000 = 1024 ∧ (pdtIndex 0x400000 : Nat) = 2 := by decide
  rw [hturns, hstart.1] at hreached
  rw [hstart.2] at hlater
  omega

/-- A page in the next page table is lost when a request reaches that table. -/
theorem not_mapUserAddress_keeps : ¬ ∀ (m : Machine) (table : Frame) (a p : Word) (size : Int),
    ProcessTable m table → (pml4Index a : Nat) < 510 → ∃ mapped m',
      mapUserAddress a p size table 7 m = some (mapped, m') ∧ KeepsPages m m' table := by
  intro h
  have hreplay : ((replay tableStep TableAllowed [.create, .map 5 0x201000 0x7000 100]
      ⟨kernelOnly, []⟩).bind fun s =>
        (mapUserAddress 0x1ff000 0x9000 4096 5 7 s.machine).map fun r => decide (5 ∈ s.tables ∧
          Present (s.machine.leafAt 5 0x201000) ∧ r.2.leafAt 5 0x201000 = 0)) = some true := by
    decide +kernel
  rcases Option.bind_eq_some_iff.1 hreplay with ⟨s, hs, hmapped⟩
  rcases Option.map_eq_some_iff.1 hmapped with ⟨⟨mapped, m'⟩, hmap, hcheck⟩
  rcases of_decide_eq_true hcheck with ⟨hmem, hpresent, hlost⟩
  have htable : ProcessTable s.machine 5 :=
    processTable_of_run kernelOnly_consistent (run_of_replay hs) hmem
  rcases h s.machine 5 0x1ff000 0x9000 4096 htable (by decide) with ⟨mapped', m'', hmap', hkeeps⟩
  have hsame : (mapped', m'') = (mapped, m') := Option.some_inj.1 (hmap'.symm.trans hmap)
  cases hsame
  have hkept := hkeeps 0x201000 (by decide) hpresent
  change m'.leafAt 5 0x201000 = 0 at hlost
  rw [hlost] at hkept
  exact hpresent.ne_zero hkept.symm

end Paging

end OswpKernel
