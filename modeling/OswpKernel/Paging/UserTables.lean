import OswpKernel.Paging.Roles

/-!
# User tables — what building and taking apart the tables of a process keeps

Each routine on the tables of a process keeps `Roles`, for roles that extend the earlier ones
(`Extends`), and the entries in slots 510 and 511 of every top table but the one being made.
-/

namespace OswpKernel

namespace Paging

open Machine

variable {m m' m₁ : Machine} {role role' role₁ : Frame → Role} {e v : Word} {t f : Nat} {i : Slot}
  {r : Frame} {path : List Slot} {S : Frame → Prop} {n : Nat}

/-- A page of memory that is neither a table nor free. -/
def Data (m : Machine) (role : Frame → Role) (t : Frame) : Prop :=
  role t = .plain ∧ t < 2 ^ 19 ∧ ∀ p ∈ m.ring.contents, frameOf p ≠ t

/-- The tables there are keep their roles, and the top tables outside `S` their slots 510 and 511;
slot 511 of any of them may get the kernel's entry.  What is in use as data stays so. -/
structure Extends (S : Frame → Prop) (m : Machine) (role : Frame → Role) (m' : Machine)
    (role' : Frame → Role) : Prop where
  keep : ∀ t, role t ≠ .plain → role' t = role t
  data : ∀ t, Data m role t → Data m' role' t
  tops : ∀ t, ¬ S t → role t = .table t [] → ∀ i : Slot, 510 ≤ (i : Nat) → m'.mem t i = m.mem t i
  fill : ∀ t, role t = .table t [] →
    m'.mem t 511 = m.mem t 511 ∨ m'.mem t 511 = m.mem m.pml4t 511
  kernel : m'.mem m.pml4t 511 = m.mem m.pml4t 511
  pml4t : m'.pml4t = m.pml4t
  current : m'.current = m.current

/-- Slots 510 and 511 stay as they are. -/
theorem Extends.of_tops (hkeep : ∀ t, role t ≠ .plain → role' t = role t)
    (hdata : ∀ t, Data m role t → Data m' role' t)
    (htops : ∀ t, role t = .table t [] → ∀ i : Slot, 510 ≤ (i : Nat) → m'.mem t i = m.mem t i)
    (hkernel : m'.mem m.pml4t 511 = m.mem m.pml4t 511) (hpml4t : m'.pml4t = m.pml4t)
    (hcurrent : m'.current = m.current) : Extends S m role m' role' :=
  ⟨hkeep, hdata, fun t _ => htops t, fun t ht => Or.inl (htops t ht 511 (by decide)), hkernel,
    hpml4t,
    hcurrent⟩

theorem Extends.refl (S : Frame → Prop) (m : Machine) (role : Frame → Role) :
    Extends S m role m role :=
  Extends.of_tops (fun _ _ => rfl) (fun _ h => h) (fun _ _ _ _ => rfl) rfl rfl rfl

theorem Extends.trans (h : Extends S m role m₁ role₁) (h' : Extends S m₁ role₁ m' role') :
    Extends S m role m' role' := by
  have htop : ∀ {t}, role t = .table t [] → role₁ t = .table t [] := fun ht =>
    (h.keep _ (by rw [ht]; exact Role.noConfusion)).trans ht
  have hkernel := h'.kernel
  rw [h.pml4t] at hkernel
  refine ⟨?_, fun t ht => h'.data t (h.data t ht), ?_, ?_, hkernel.trans h.kernel,
    h'.pml4t.trans h.pml4t, h'.current.trans h.current⟩
  · intro t ht
    have h₁ := h.keep t ht
    exact (h'.keep t (h₁ ▸ ht)).trans h₁
  · intro t hS ht i hi
    exact (h'.tops t hS (htop ht) i hi).trans (h.tops t hS ht i hi)
  · intro t ht
    rcases h'.fill t (htop ht) with hsame | hfilled
    · rw [hsame]
      exact h.fill t ht
    · rw [h.pml4t] at hfilled
      exact Or.inr (hfilled.trans h.kernel)

theorem Extends.table (h : Extends S m role m' role') (ht : role t = .table r path) :
    role' t = .table r path :=
  (h.keep t (by rw [ht]; exact Role.noConfusion)).trans ht

theorem Grown.data (h : Grown m role m' role') (ht : Data m role t) : Data m' role' t := by
  refine ⟨?_, ht.2.1, fun p hp => ht.2.2 p (h.ring.subset hp)⟩
  by_contra hne
  rcases h.grows t (by rw [ht.1]; exact hne) with ⟨-, p, hp, hframe⟩
  exact ht.2.2 p hp hframe

theorem Grown.extends (h : Grown m role m' role') (hroles : Roles m role) :
    Extends S m role m' role' := by
  refine Extends.of_tops h.keep (fun _ => h.data) ?_ ?_ h.pml4t h.current
  · intro t ht i _
    have ht' : role' t = .table t [] := (h.keep t (by rw [ht]; exact Role.noConfusion)).trans ht
    exact congrFun (h.mem t fun level => by rw [ht']; exact Role.noConfusion) i
  · exact h.kept _ 0 511 hroles.top (by decide) hroles.present

/-! ## Writes into the tables of a process -/

/-- An entry below slot 510 of a process' tables is changed. -/
theorem Roles.writeUser (h : Roles m role) (ht : role t = .table r path)
    (hi : path = [] → (i : Nat) < 510) (he : e = 0 ∨ UserEntry role r path i e) :
    Roles (m.write t i e) role ∧ Extends S m role (m.write t i e) role := by
  have hlow : t < 2 ^ 19 := h.low t (by rw [ht]; exact Role.noConfusion)
  refine ⟨h.write hlow (by rw [ht]; exact (entryOk_user hi).2 he),
    Extends.of_tops (fun _ _ => rfl) (fun _ h => h) ?_ ?_ rfl rfl⟩
  · intro t' ht' j hj
    refine write_mem_of_ne m e ?_
    by_cases heq : t' = t
    · subst heq
      rw [ht] at ht'
      cases ht'
      refine Or.inr ?_
      rintro rfl
      exact absurd (hi rfl) (not_lt.2 hj)
    · exact Or.inl heq
  · refine write_mem_of_ne m e (Or.inl ?_)
    intro heq
    rw [← heq, h.top] at ht
    cases ht

/-- `page_value | flags` for an entry in use. -/
theorem UserEntry.or (h : UserEntry role r path i e) {flags : Word} (hflags : flags >>> 12 = 0#64) :
    UserEntry role r path i (e ||| flags) := by
  refine ⟨h.1.or_right flags, h.2.1.or_right flags, ?_⟩
  rw [frameOf_or e hflags]
  exact h.2.2

theorem UserEntry.marked (h : UserEntry role r path i e) : UserEntry role r path i (marked e) := by
  refine ⟨marked_present h.1, marked_has h.2.1 (by decide), ?_⟩
  rw [frameOf_marked]
  exact h.2.2

/-- An entry of a page table, any page with the flags of a user page. -/
theorem userEntry_leaf (hlen : path.length = 3) {flags : Word} (hpresent : Has flags presentBit)
    (huser : Has flags userBit) : UserEntry role r path i (e ||| flags) :=
  ⟨has_of_or_left hpresent e, has_of_or_left huser e, fun h => absurd hlen (by omega)⟩

/-- The flags of the entries for the tables of a process. -/
structure TableFlags (flags : Word) : Prop where
  low : flags >>> 12 = 0#64
  present : Has flags presentBit
  user : Has flags userBit

theorem tableFlags_seven : TableFlags 7 := ⟨by decide, by decide, by decide⟩

theorem tableFlags_copy : TableFlags 0x205 := ⟨by decide, by decide, by decide⟩

/-- A page that has been handed out is filled and given a role. -/
theorem Handed.claimExtends (h : Handed m role m' role' n f) (hroles : Roles m role)
    (page : Slot → Word) (R : Role) :
    Extends S m role (m'.setPage f page) (Function.update role' f R) := by
  have hg := h.grown.extends (S := S) hroles
  have hne : ∀ {t}, role t ≠ .plain → t ≠ f := by
    rintro t ht rfl
    exact ht (h.wasPlain hroles)
  have hmem : ∀ {t}, role t ≠ .plain → (m'.setPage f page).mem t = m'.mem t := fun ht =>
    setPage_mem_of_ne m' page (hne ht)
  refine Extends.of_tops (fun t ht => (Function.update_of_ne (hne ht) _ _).trans (hg.keep t ht))
    (fun t ht => ?_) (fun t ht i hi => ?_) ?_ hg.pml4t hg.current
  · -- the page was free, so it is no data
    have htf : t ≠ f := by
      rintro rfl
      rcases h.wasFree with ⟨p, hp, hframe⟩
      exact ht.2.2 p hp hframe
    have ht' := hg.data t ht
    exact ⟨(Function.update_of_ne htf _ _).trans ht'.1, ht'.2⟩
  · rw [hmem (by rw [ht]; exact Role.noConfusion)]
    exact congrFun (h.grown.mem t fun level => by rw [hg.table ht]; exact Role.noConfusion) i
  · rw [hmem (by rw [hroles.top]; exact Role.noConfusion), hg.kernel]

/-- A page that has been handed out becomes a table of a process, entered into the table above. -/
theorem Handed.linkUser (h : Handed m role m' role' n f) (hroles : Roles m role)
    (ht : role' t = .table r path) (hlen : path.length < 3) (hi : path = [] → (i : Nat) < 510)
    {flags : Word} (hflags : TableFlags flags) :
    Roles ((m'.clear f).write t i (pageWord f ||| flags))
        (Function.update role' f (.table r (path ++ [i]))) ∧
      Extends S m role ((m'.clear f).write t i (pageWord f ||| flags))
        (Function.update role' f (.table r (path ++ [i]))) := by
  have hplain := h.plain_head
  have hne : ∀ {t'}, role' t' ≠ .plain → t' ≠ f := by
    rintro t' ht' rfl
    exact ht' hplain
  have htf : t ≠ f := hne (by rw [ht]; exact Role.noConfusion)
  have hclaim : Roles (m'.clear f) (Function.update role' f (.table r (path ++ [i]))) := by
    refine h.roles.claimZero hplain h.low h.notFree (by simp) (by simp) ?_
    rintro _ _ ⟨⟩
    rw [List.length_append]
    exact hlen
  have ht' : Function.update role' f (.table r (path ++ [i])) t = .table r path :=
    (Function.update_of_ne htf _ _).trans ht
  have hentry : UserEntry (Function.update role' f (.table r (path ++ [i]))) r path i
      (pageWord f ||| flags) := by
    refine ⟨has_of_or_left hflags.present _, has_of_or_left hflags.user _, fun _ => ?_⟩
    rw [frameOf_or _ hflags.low, h.frame_eq]
    exact ⟨h.low, Function.update_self _ _ _⟩
  rcases hclaim.writeUser (S := S) ht' hi (Or.inr hentry) with ⟨hwritten, hextends⟩
  exact ⟨hwritten, (h.claimExtends hroles _ _).trans hextends⟩

/-- `bump` for a table. -/
theorem newTable_spec (h : Roles m role) (hnew : newTable m = some (v, f, m')) :
    v = pageWord f + KERNBASE ∧ ∃ m₁ role₁, Handed m role m₁ role₁ 1 f ∧ m' = m₁.clear f := by
  rcases freshTable_eq_some hnew with ⟨m₁, hbump, hptr, rfl⟩
  rcases bump_allocSpec h hbump with ⟨rfl, -⟩ | ⟨role₁, f', rfl, hhanded⟩
  · rw [pointerFrame_null] at hptr
    cases hptr
  · rw [hhanded.pointerFrame] at hptr
    rcases Option.some_inj.1 hptr with rfl
    exact ⟨rfl, m₁, role₁, hhanded, rfl⟩

/-! ## `map_user_address` -/

/-- One level down in the tables of a process. -/
theorem descend_user (h : Roles m role) {next : Frame} (ht : role t = .table r path)
    (hlen : path.length < 3) (hi : path = [] → (i : Nat) < 510)
    (hdescend : descend (bump 4096) 7 t i m = some (next, m')) :
    ∃ role', Roles m' role' ∧ Extends S m role m' role' ∧ role' next = .table r (path ++ [i]) := by
  rcases descend_cases hdescend with ⟨hpresent, hnext, rfl⟩ | ⟨-, v, m₁, halloc, hnext, rfl⟩
  · rcases (h.user ht hi hpresent.ne_zero).2.2 hlen with ⟨hlow, hrole⟩
    rw [tableAt_of_low hlow] at hnext
    cases hnext
    exact ⟨role, h, Extends.refl S m' role, hrole⟩
  · rcases bump_allocSpec h halloc with ⟨rfl, -⟩ | ⟨role₁, f, rfl, hhanded⟩
    · rw [pointerFrame_null] at hnext
      cases hnext
    · rw [hhanded.pointerFrame] at hnext
      rcases Option.some_inj.1 hnext with rfl
      have ht₁ : role₁ t = .table r path :=
        (hhanded.grown.keep t (by rw [ht]; exact Role.noConfusion)).trans ht
      have hne : t ≠ f := by
        rintro rfl
        rw [hhanded.plain_head] at ht₁
        cases ht₁
      rcases hhanded.linkUser h ht₁ hlen hi tableFlags_seven with ⟨hroles, hextends⟩
      rw [hhanded.linkTo, write_clear_comm m₁ hne]
      exact ⟨_, hroles, hextends, Function.update_self _ _ _⟩

/-- Where the loop of `map_user_address` stands. -/
structure UserCursor (c : Cursor) (role : Frame → Role) (r : Frame) : Prop where
  pdpti : c.pdpti ≠ 512
  pdti : c.pdti ≠ 512
  pdt : ∃ path, role c.pdt = .table r path ∧ path.length = 2
  pt : ∃ path, role c.pt = .table r path ∧ path.length = 3

theorem UserCursor.congr {c c' : Cursor} (h : UserCursor c role r) (hpdpti : c'.pdpti = c.pdpti)
    (hpdti : c'.pdti = c.pdti) (hpdt : c'.pdt = c.pdt) (hpt : c'.pt = c.pt) :
    UserCursor c' role r :=
  ⟨hpdpti ▸ h.pdpti, hpdti ▸ h.pdti, hpdt ▸ h.pdt, hpt ▸ h.pt⟩

theorem enterPage_user {c c' : Cursor} (h : Roles m role) (hc : UserCursor c role r)
    (henter : enterPage ⟨7, 7, 7⟩ (c, m) = some (c', m')) :
    Roles m' role ∧ Extends S m role m' role ∧ UserCursor c' role r := by
  rcases enterPage_cases henter with ⟨hi, ⟨-, rfl, rfl⟩ | ⟨-, rfl, rfl⟩⟩
  · exact ⟨h, Extends.refl S m' role, hc.congr rfl rfl rfl rfl⟩
  · rcases hc.pt with ⟨path, hpt, hlen⟩
    have htop : path = [] → c.pti < 510 := by
      rintro rfl
      exact absurd hlen (by decide)
    have hentry : UserEntry role r path ⟨c.pti, hi⟩ (c.phys ||| 7) :=
      userEntry_leaf hlen (by decide) (by decide)
    rcases h.writeUser hpt htop (Or.inr hentry) with ⟨hroles, hextends⟩
    exact ⟨hroles, hextends, hc.congr rfl rfl rfl rfl⟩

/-- One turn of the loop of `map_user_address`. -/
theorem mapStep_user {c c' : Cursor} {root : Frame} (h : Roles m role) (hc : UserCursor c role r)
    (hstep : mapStep (bump 4096) root ⟨7, 7, 7⟩ (c, m) = some (c', m')) :
    ∃ role', (Roles m' role' ∧ UserCursor c' role' r) ∧ Extends S m role m' role' := by
  rcases mapStep_cases hc.pdpti hc.pdti hstep with
    ⟨-, henter⟩ | ⟨-, v, next, m₁, hi, hbump, hnext, henter⟩
  · rcases enterPage_user (S := S) h hc henter with ⟨hroles, hextends, hc'⟩
    exact ⟨role, ⟨hroles, hc'⟩, hextends⟩
  · rcases bump_allocSpec h hbump with ⟨rfl, -⟩ | ⟨role₁, f, rfl, hhanded⟩
    · rw [pointerFrame_null] at hnext
      cases hnext
    · rw [hhanded.pointerFrame] at hnext
      rcases Option.some_inj.1 hnext with rfl
      rcases hc.pdt with ⟨path, hpdt, hlen⟩
      have hpdt₁ : role₁ c.pdt = .table r path :=
        (hhanded.grown.keep _ (by rw [hpdt]; exact Role.noConfusion)).trans hpdt
      have hne : c.pdt ≠ f := by
        intro heq
        rw [heq, hhanded.plain_head] at hpdt₁
        cases hpdt₁
      have htop : path = [] → c.pdti + 1 < 510 := by
        rintro rfl
        exact absurd hlen (by decide)
      rcases hhanded.linkUser (S := S) (i := ⟨c.pdti + 1, hi⟩) h hpdt₁ (by omega) htop
        tableFlags_seven with ⟨hroles, hextends⟩
      rw [hhanded.linkTo] at henter
      have hc₁ : UserCursor { c with pti := 0, pdti := c.pdti + 1, pt := f }
          (Function.update role₁ f (.table r (path ++ [⟨c.pdti + 1, hi⟩]))) r := by
        refine ⟨hc.pdpti, hi.ne, ⟨path, (Function.update_of_ne hne _ _).trans hpdt₁, hlen⟩,
          ⟨_, Function.update_self _ _ _, ?_⟩⟩
        rw [List.length_append, hlen]
        rfl
      rcases enterPage_user (S := S) hroles hc₁ henter with ⟨hroles', hextends', hc'⟩
      exact ⟨_, ⟨hroles', hc'⟩, hextends.trans hextends'⟩

/-- `map_user_address` with flags 7 below slot 510. -/
theorem mapUserAddress_spec {address phys : Word} {size : Int} {table : Frame} {mapped : List Frame}
    (h : Roles m role) (ht : role table = .table table [])
    (hi : (pml4Index address : Nat) < 510)
    (hmap : mapUserAddress address phys size table 7 m = some (mapped, m')) :
    ∃ role', Roles m' role' ∧ Extends S m role m' role' := by
  rcases Option.bind_eq_some_iff.1 hmap with ⟨⟨pdpt, m₁⟩, hdown₁, hmap⟩
  rcases Option.bind_eq_some_iff.1 hmap with ⟨⟨pdt, m₂⟩, hdown₂, hmap⟩
  rcases Option.bind_eq_some_iff.1 hmap with ⟨⟨pt, m₃⟩, hdown₃, hmap⟩
  rcases Option.bind_eq_some_iff.1 hmap with ⟨⟨c', m₄⟩, hloop, hret⟩
  rcases Prod.mk.inj (Option.some_inj.1 hret) with ⟨-, rfl⟩
  rcases descend_user (S := S) h ht (by decide) (fun _ => hi) hdown₁ with ⟨role₁, h₁, hg₁, hr₁⟩
  rcases descend_user (S := S) h₁ hr₁ (by simp) (fun h => absurd h (by simp)) hdown₂ with
    ⟨role₂, h₂, hg₂, hr₂⟩
  rcases descend_user (S := S) h₂ hr₂ (by simp) (fun h => absurd h (by simp)) hdown₃ with
    ⟨role₃, h₃, hg₃, hr₃⟩
  have hc : UserCursor (cursorAt address phys pdpt pdt pt) role₃ table :=
    ⟨(pdptIndex address).isLt.ne, (pdtIndex address).isLt.ne, ⟨_, hg₃.table hr₂, rfl⟩, _, hr₃, rfl⟩
  have hrun : ∃ role', (Roles m₄ role' ∧ UserCursor c' role' table) ∧ Extends S m₃ role₃ m₄ role' :=
    Loop.times_rule (I := fun s role => Roles s.2 role ∧ UserCursor s.1 role table)
      (R := fun s role s' role' => Extends S s.2 role s'.2 role')
      (fun s role => Extends.refl S s.2 role) Extends.trans
      (fun hI hturn => mapStep_user hI.1 hI.2 hturn) hloop ⟨h₃, hc⟩
  rcases hrun with ⟨role', ⟨h', -⟩, hg'⟩
  exact ⟨role', h', ((hg₁.trans hg₂).trans hg₃).trans hg'⟩

/-! ## `duplicate_page_table` -/

/-- What is asked of the copying of the tables from level `k` on. -/
def DuplicateSpec (k : Nat) (duplicate : Frame → Frame → Machine → Option Machine) : Prop :=
  ∀ {S m role m'} {source new r r' : Frame} {path path' : List Slot},
    Roles m role → role source = .table r path → role new = .table r' path' → path.length = k →
    path'.length = k → duplicate source new m = some m' →
    ∃ role', Roles m' role' ∧ Extends S m role m' role'

theorem duplicatePage_spec {source new r' : Frame} {path' : List Slot} (h : Roles m role)
    (hsource : role source = .table r path) (hnew : role new = .table r' path')
    (hlen : path.length = 3) (hlen' : path'.length = 3)
    (hdup : duplicatePage source new i m = some m') :
    Roles m' role ∧ Extends S m role m' role := by
  rw [duplicatePage] at hdup
  split_ifs at hdup with hused
  · cases hdup
    have hi : ∀ {path : List Slot}, path.length = 3 → path = [] → (i : Nat) < 510 := by
      rintro _ hlen rfl
      exact absurd hlen (by decide)
    have hentry := (h.user hsource (hi hlen) hused).marked
    rcases h.writeUser (S := S) hsource (hi hlen) (Or.inr hentry) with ⟨h₁, hg₁⟩
    have hcopy : UserEntry role r' path' i (marked (m.mem source i) ||| 0x205) :=
      userEntry_leaf hlen' (by decide) (by decide)
    rcases h₁.writeUser (S := S) hnew (hi hlen') (Or.inr hcopy) with ⟨h₂, hg₂⟩
    exact ⟨h₂, hg₁.trans hg₂⟩
  · cases hdup
    exact ⟨h, Extends.refl S m role⟩

theorem duplicatePt_spec : DuplicateSpec 3 duplicatePt := by
  intro S m role m' source new r r' path path' h hsource hnew hlen hlen' hdup
  rcases Loop.forEach_rule (D := fun _ _ _ => True)
    (I := fun m role' => Roles m role' ∧ role' = role)
    (R := fun m role m' role' => Extends S m role m' role') (Extends.refl S) Extends.trans
    (fun _ _ _ => trivial) (fun {i s g s'} _ hI hbody => by
      rcases hI with ⟨hroles, rfl⟩
      rcases duplicatePage_spec hroles hsource hnew hlen hlen' hbody with ⟨h', hg⟩
      exact ⟨g, ⟨h', rfl⟩, hg, trivial⟩) hdup ⟨h, rfl⟩ with ⟨role', ⟨h', -⟩, hg, -⟩
  exact ⟨role', h', hg⟩

/-- The entry for a table of the copy. -/
theorem Handed.copyLink (h : Handed m role m' role' n f) :
    copyLink (pageWord f + KERNBASE) = pageWord f ||| 0x205 := by
  rw [Machine.copyLink, BitVec.add_sub_cancel, (lowPage_pageWord h.low).aligned]

theorem duplicateEntry_spec {k : Nat} {duplicate : Frame → Frame → Machine → Option Machine}
    (hrec : DuplicateSpec (k + 1) duplicate) {source new r' : Frame} {path' : List Slot}
    (h : Roles m role) (hsource : role source = .table r path) (hnew : role new = .table r' path')
    (hlen : path.length = k) (hlen' : path'.length = k) (hk : k < 3) (hi : k = 0 → (i : Nat) < 510)
    (hdup : duplicateEntry duplicate source new i m = some m') :
    ∃ role', Roles m' role' ∧ Extends S m role m' role' := by
  rw [duplicateEntry] at hdup
  split_ifs at hdup with hused
  · have htop : ∀ {path : List Slot}, path.length = k → path = [] → (i : Nat) < 510 := by
      rintro _ hlen rfl
      exact hi hlen.symm
    have hentry := (h.user hsource (htop hlen) hused).marked
    rcases h.writeUser (S := S) hsource (htop hlen) (Or.inr hentry) with ⟨h₁, hg₁⟩
    rcases Option.bind_eq_some_iff.1 hdup with ⟨child, hchild, hdup⟩
    rcases Option.bind_eq_some_iff.1 hdup with ⟨⟨v, newChild, m₂⟩, htable, hdup⟩
    rcases hentry.2.2 (by omega) with ⟨hlow, hrole⟩
    rw [tableAt_of_low hlow] at hchild
    rcases Option.some_inj.1 hchild with rfl
    rcases newTable_spec h₁ htable with ⟨rfl, m₃, role₃, hhanded, rfl⟩
    have hkeep : ∀ {t r path}, role t = .table r path → role₃ t = .table r path := fun ht =>
      (hhanded.grown.keep _ (by rw [ht]; exact Role.noConfusion)).trans ht
    -- the new table was a free page and is none of the tables there were
    have hne : ∀ {t r path}, role t = .table r path → t ≠ newChild := by
      rintro t r path ht rfl
      have hplain := hkeep ht
      rw [hhanded.plain_head] at hplain
      cases hplain
    rcases hhanded.linkUser (S := S) (i := i) h₁ (hkeep hnew) (by omega)
      (htop hlen') tableFlags_copy
      with ⟨h₄, hg₄⟩
    have hdup' : duplicate (frameOf (marked (m.mem source i))) newChild
        ((m₃.clear newChild).write new i (copyLink (pageWord newChild + KERNBASE))) =
        some m' := hdup
    rw [hhanded.copyLink] at hdup'
    have hchildRole : Function.update role₃ newChild (.table r' (path' ++ [i]))
        (frameOf (marked (m.mem source i))) = .table r (path ++ [i]) :=
      (Function.update_of_ne (hne hrole) _ _).trans (hkeep hrole)
    rcases hrec (S := S) h₄ hchildRole (Function.update_self _ _ _)
      (by rw [List.length_append, hlen]; rfl) (by rw [List.length_append, hlen']; rfl) hdup' with
      ⟨role', h', hg'⟩
    exact ⟨role', h', (hg₁.trans hg₄).trans hg'⟩
  · cases hdup
    exact ⟨role, h, Extends.refl S m role⟩

/-- The loop over the entries of a table below the top. -/
theorem duplicateTable_spec {k : Nat} {duplicate : Frame → Frame → Machine → Option Machine}
    (hrec : DuplicateSpec (k + 1) duplicate) (hpos : k ≠ 0) (hk : k < 3) :
    DuplicateSpec k fun source new => Loop.forEach (duplicateEntry duplicate source new) slots := by
  intro S m role m' source new r r' path path' h hsource hnew hlen hlen' hdup
  rcases Loop.forEach_rule (D := fun _ _ _ => True)
    (I := fun m role' => Roles m role' ∧ role' source = .table r path ∧ role' new = .table r' path')
    (R := fun m role m' role' => Extends S m role m' role') (Extends.refl S) Extends.trans
    (fun _ _ _ => trivial) (fun {i s g s'} _ hI hbody => by
      rcases hI with ⟨hroles, hs, hn⟩
      rcases duplicateEntry_spec (S := S) hrec hroles hs hn hlen hlen' hk (fun h => absurd h hpos)
        hbody with ⟨role', h', hg⟩
      exact ⟨role', ⟨h', hg.table hs, hg.table hn⟩, hg, trivial⟩) hdup ⟨h, hsource, hnew⟩ with
    ⟨role', ⟨h', -⟩, hg, -⟩
  exact ⟨role', h', hg⟩

theorem duplicatePdt_spec : DuplicateSpec 2 duplicatePdt :=
  duplicateTable_spec duplicatePt_spec (by decide) (by decide)

theorem duplicatePdpt_spec : DuplicateSpec 1 duplicatePdpt :=
  duplicateTable_spec duplicatePdt_spec (by decide) (by decide)

/-- When only new tables have had their slots filled, all slots 510 and 511 are as they were. -/
theorem Extends.shrink (h : Extends S m role m' role') (hS : ∀ t, S t → role t = .plain) :
    Extends (fun _ => False) m role m' role' := by
  refine Extends.of_tops h.keep h.data ?_ h.kernel h.pml4t h.current
  intro t ht
  refine h.tops t (fun hnew => ?_) ht
  rw [hS t hnew] at ht
  cases ht

/-- A zeroed page becomes a top table. -/
theorem Handed.claimTop (h : Handed m role m' role' n f) (hroles : Roles m role) :
    Roles (m'.clear f) (Function.update role' f (.table f [])) ∧
      Extends S m role (m'.clear f) (Function.update role' f (.table f [])) := by
  refine ⟨?_, h.claimExtends hroles _ _⟩
  refine h.roles.claimZero h.plain_head h.low h.notFree (by simp) (by rintro _ ⟨⟩; rfl) ?_
  rintro _ _ ⟨⟩
  exact Nat.zero_le 3

/-- A slot above 509 of a top table is filled in. -/
theorem Roles.writeTop (h : Roles m role) (ht : role t = .table t []) (hi : 510 ≤ (i : Nat))
    (hok : EntryOk (m.mem m.pml4t 511) role (.table t []) i e)
    (he : i = 511 → e = m.mem m.pml4t 511) :
    Roles (m.write t i e) role ∧ Extends (· = t) m role (m.write t i e) role := by
  have hlow : t < 2 ^ 19 := h.low t (by rw [ht]; exact Role.noConfusion)
  have hne : m.pml4t ≠ t := by
    intro heq
    rw [← heq, h.top] at ht
    cases ht
  refine ⟨h.write hlow (ht ▸ hok), fun _ _ => rfl, fun _ h => h, ?_, ?_, ?_, rfl, rfl⟩
  · intro t' ht' _ j _
    exact write_mem_of_ne m e (Or.inl ht')
  · intro t' _
    by_cases hat : t' = t ∧ (511 : Slot) = i
    · rcases hat with ⟨rfl, rfl⟩
      exact Or.inr ((write_mem_self m t' 511 e).trans (he rfl))
    · exact Or.inl (write_mem_of_ne m e (by tauto))
  · exact write_mem_of_ne m e (Or.inl hne)

/-- An entry of the top table. -/
theorem duplicateTop_spec {source new : Frame} (h : Roles m role)
    (hsource : role source = .table source []) (hnew : role new = .table new [])
    (htop : m.mem source 511 = m.mem m.pml4t 511) (hdup : duplicateTop source new i m = some m') :
    ∃ role', Roles m' role' ∧ Extends (· = new) m role m' role' ∧
      (i = 511 → m'.mem new 511 = m'.mem m'.pml4t 511) := by
  rw [duplicateTop] at hdup
  have hused : m.mem source 511 ≠ 0 := by
    rw [htop]
    exact h.present.ne_zero
  split_ifs at hdup with he h510 h511
  · cases hdup
    exact ⟨role, h, Extends.refl _ m role, fun heq => absurd (h510.symm.trans heq) (by decide)⟩
  · cases hdup
    subst h511
    have hok : EntryOk (m.mem m.pml4t 511) role (.table new []) 511 (m.mem source 511) := by
      simp [EntryOk, htop]
    rcases h.writeTop hnew (by decide) hok (fun _ => htop) with ⟨hroles, hextends⟩
    refine ⟨role, hroles, hextends, fun _ => ?_⟩
    rw [write_mem_self, write_pml4t, hextends.kernel, htop]
  · have hi : (i : Nat) < 510 := slot_lt h510 h511
    rcases duplicateEntry_spec duplicatePdpt_spec h hsource hnew rfl rfl (by decide) (fun _ => hi)
      hdup with ⟨role', h', hg⟩
    exact ⟨role', h', hg, fun heq => absurd heq h511⟩
  · cases hdup
    refine ⟨role, h, Extends.refl _ m role, ?_⟩
    rintro rfl
    exact absurd hused he

/-- A top table that has been made for a process, and what making it kept. -/
structure MadeTop (m : Machine) (role : Frame → Role) (m' : Machine) (role' : Frame → Role)
    (new : Frame) : Prop where
  roles : Roles m' role'
  extends_ : Extends (fun _ => False) m role m' role'
  top : role' new = .table new []
  wasPlain : role new = .plain
  kernel : m'.mem new 511 = m'.mem m'.pml4t 511

theorem duplicatePageTable_spec {source new : Frame} (h : Roles m role)
    (hsource : role source = .table source []) (htop : m.mem source 511 = m.mem m.pml4t 511)
    (hdup : duplicatePageTable source m = some (new, m')) :
    ∃ role', MadeTop m role m' role' new := by
  rw [duplicatePageTable] at hdup
  rcases Option.bind_eq_some_iff.1 hdup with ⟨⟨v, user, m₂⟩, htable, hdup⟩
  rcases Option.bind_eq_some_iff.1 hdup with ⟨m₃, hloop, hret⟩
  rcases Prod.mk.inj (Option.some_inj.1 hret) with ⟨rfl, rfl⟩
  rcases newTable_spec h htable with ⟨rfl, m₁, role₁, hhanded, rfl⟩
  rcases hhanded.claimTop (S := (· = user)) h with ⟨h₂, hg₂⟩
  have hwas : role user = .plain := hhanded.wasPlain h
  have hne : source ≠ user := by
    rintro rfl
    rw [hwas] at hsource
    cases hsource
  have htop₂ : (m₁.clear user).mem source 511 = (m₁.clear user).mem m₁.pml4t 511 := by
    have hpml4t := hg₂.pml4t
    rw [clear_pml4t] at hpml4t
    rw [hg₂.tops source hne hsource 511 (by decide), hpml4t, hg₂.kernel, htop]
  -- the loop: slot 511 of the copy is filled in when its turn comes
  have hrun := Loop.forEach_rule
    (I := fun m role => Roles m role ∧ role source = .table source [] ∧ role user = .table user [] ∧
      m.mem source 511 = m.mem m.pml4t 511)
    (R := fun m role m' role' => Extends (· = user) m role m' role')
    (D := fun i m _ => i = 511 → m.mem user 511 = m.mem m.pml4t 511)
    (Extends.refl _) Extends.trans ?keep ?body hloop
    ⟨h₂, hg₂.table hsource, Function.update_self _ _ _, htop₂⟩
  case keep =>
    intro i m₁ role₁ m₂ role₂ hI hR hdone hi
    rcases hR.fill user hI.2.2.1 with hsame | hfilled
    · rw [hsame, hR.pml4t, hR.kernel]
      exact hdone hi
    · rw [hfilled, hR.pml4t, hR.kernel]
  case body =>
    rintro i m role m' - ⟨hroles, hs, hu, ht⟩ hbody
    rcases duplicateTop_spec hroles hs hu ht hbody with ⟨role', h', hg, hdone⟩
    refine ⟨role', ⟨h', hg.table hs, hg.table hu, ?_⟩, hg, hdone⟩
    rw [hg.tops source hne hs 511 (by decide), hg.pml4t, hg.kernel, ht]
  rcases hrun with ⟨role₃, ⟨h₃, -, huser₃, -⟩, hg₃, hdone⟩
  have htop₃ := hdone 511 (List.mem_finRange 511) rfl
  rw [hhanded.linkTo]
  have hok : EntryOk (m₃.mem m₃.pml4t 511) role₃ (.table user []) 510 (pageWord user ||| 3) := by
    simp [EntryOk]
  rcases h₃.writeTop huser₃ (by decide) hok (fun heq => absurd heq (by decide)) with ⟨h₄, hg₄⟩
  refine ⟨role₃, h₄, ((hg₂.trans hg₃).trans hg₄).shrink ?_, huser₃, hwas, ?_⟩
  · rintro t rfl
    exact hwas
  · rw [write_mem_of_ne _ _ (Or.inr (by decide)), htop₃, ← hg₄.kernel, write_pml4t]

/-! ## `map_user_pml4` -/

theorem setPage_write (m : Machine) (f : Frame) (page : Slot → Word) (i : Slot) (e : Word) :
    (m.setPage f page).write f i e = m.setPage f (Function.update page i e) := by
  have hmem : ((m.setPage f page).write f i e).mem =
      (m.setPage f (Function.update page i e)).mem := by
    funext t j
    by_cases ht : t = f
    · subst ht
      rw [setPage_mem_self]
      by_cases hj : j = i
      · subst hj
        rw [write_mem_self, Function.update_self]
      · rw [write_mem_of_ne _ _ (Or.inr hj), setPage_mem_self, Function.update_of_ne hj]
    · rw [write_mem_of_ne _ _ (Or.inl ht), setPage_mem_of_ne _ _ ht, setPage_mem_of_ne _ _ ht]
  exact congrArg (fun mem => { m with mem }) hmem

/-- The kernel's top table has nothing below slot 510. -/
theorem Roles.kernelLower (h : Roles m role) (hi : (i : Nat) < 510) : m.mem m.pml4t i = 0 := by
  have hok := h.entries m.pml4t i
  rw [h.top] at hok
  exact hok.1 rfl hi

/-- The loop of `map_user_pml4` copies the kernel's top table. -/
theorem copyTop_spec {user : Frame} (hne : m.pml4t ≠ user)
    (hloop : Loop.forEach (fun i m => some
      (if m.mem m.pml4t i ≠ 0 then m.write user i (m.mem m.pml4t i) else m)) slots (m.clear user) =
        some m') : m' = m.setPage user (m.mem m.pml4t) := by
  -- so far each entry of the copy is zero, or that of the kernel's table
  let top := m.mem m.pml4t
  have hrun := Loop.forEach_rule
    (I := fun m' page => m' = m.setPage user page ∧ ∀ i, page i = 0 ∨ page i = top i)
    (R := fun _ page _ page' => ∀ i, page' i = page i ∨ page' i = top i)
    (D := fun i _ page => page i = top i) (fun _ _ _ => Or.inl rfl) ?trans ?keep ?body hloop
    (g := fun _ => 0) ⟨rfl, fun _ => Or.inl rfl⟩
  case trans =>
    intro _ g₁ _ g₂ _ g₃ h₁ h₂ i
    rcases h₂ i with h₂ | h₂
    · rw [h₂]
      exact h₁ i
    · exact Or.inr h₂
  case keep =>
    intro i _ g₁ _ g₂ _ hR hdone
    rcases hR i with h | h
    · rw [h, hdone]
    · exact h
  case body =>
    rintro i _ page m' - ⟨rfl, hpage⟩ hbody
    have hentry : (m.setPage user page).mem (m.setPage user page).pml4t i = top i := by
      rw [setPage_pml4t, setPage_mem_of_ne m page hne]
    rw [hentry] at hbody
    rcases Option.some_inj.1 hbody with rfl
    split_ifs with hused
    · have hupdate : ∀ j, Function.update page i (top i) j = page j ∨
          Function.update page i (top i) j = top j := by
        intro j
        by_cases hj : j = i
        · subst hj
          exact Or.inr (Function.update_self _ _ _)
        · exact Or.inl (Function.update_of_ne hj _ _)
      refine ⟨Function.update page i (top i), ⟨setPage_write m user page i _, fun j => ?_⟩,
        hupdate, Function.update_self _ _ _⟩
      rcases hupdate j with h | h
      · rw [h]
        exact hpage j
      · exact Or.inr h
    · refine ⟨page, ⟨rfl, hpage⟩, fun _ => Or.inl rfl, ?_⟩
      have hzero : top i = 0 := not_not.1 hused
      rcases hpage i with h | h
      · rw [h, hzero]
      · exact h
  rcases hrun with ⟨page, ⟨rfl, -⟩, -, hdone⟩
  have hall : page = top := funext fun i => hdone i (List.mem_finRange i)
  rw [hall]

theorem mapUserPml4_spec {new : Frame} (h : Roles m role) (hmap : mapUserPml4 m = some (new, m')) :
    ∃ role', MadeTop m role m' role' new := by
  rw [mapUserPml4] at hmap
  rcases Option.bind_eq_some_iff.1 hmap with ⟨⟨v, user, m₂⟩, htable, hmap⟩
  rcases Option.bind_eq_some_iff.1 hmap with ⟨m₃, hloop, hret⟩
  rcases Prod.mk.inj (Option.some_inj.1 hret) with ⟨rfl, rfl⟩
  rcases newTable_spec h htable with ⟨rfl, m₁, role₁, hhanded, rfl⟩
  have hne : m₁.pml4t ≠ user := by
    intro heq
    have hplain := hhanded.plain_head
    rw [← heq, hhanded.roles.top] at hplain
    cases hplain
  rw [copyTop_spec hne hloop]
  -- slot 0 is empty, so slot 510 gets 0 - KERNBASE
  have hzero : (m₁.setPage user (m₁.mem m₁.pml4t)).mem user 0 = 0 := by
    rw [setPage_mem_self]
    exact hhanded.roles.kernelLower (by decide)
  have hlink : linkTo 0 7 = 0x80000007 := by decide
  rw [hzero, hlink, setPage_write]
  let page := Function.update (m₁.mem m₁.pml4t) 510 0x80000007
  have hpage : ∀ i, EntryOk (m₁.mem m₁.pml4t 511) role₁ (.table user []) i (page i) := by
    intro i
    by_cases h510 : i = 510
    · subst h510
      simp [page, EntryOk]
    · rw [show page i = m₁.mem m₁.pml4t i from Function.update_of_ne h510 _ _]
      by_cases h511 : i = 511
      · subst h511
        simp [EntryOk]
      · have hi : (i : Nat) < 510 := slot_lt h510 h511
        rw [hhanded.roles.kernelLower hi]
        exact EntryOk.zero (by simp)
  have hother : ∀ {t}, role₁ t ≠ .plain → (m₁.setPage user page).mem t = m₁.mem t := by
    intro t ht
    refine setPage_mem_of_ne m₁ page ?_
    rintro rfl
    exact ht hhanded.plain_head
  have htop : (m₁.setPage user page).mem m₁.pml4t = m₁.mem m₁.pml4t :=
    hother (by rw [hhanded.roles.top]; exact Role.noConfusion)
  have hclaim : Roles (m₁.setPage user page) (Function.update role₁ user (.table user [])) := by
    refine (hhanded.roles.setPage hhanded.plain_head hhanded.low page).claim hhanded.plain_head
      hhanded.low hhanded.notFree ?_ (by rintro _ ⟨⟩; rfl) (by rintro _ _ ⟨⟩; exact Nat.zero_le 3)
    intro i
    rw [setPage_pml4t, htop, setPage_mem_self]
    exact hpage i
  refine ⟨_, hclaim, hhanded.claimExtends h page _, Function.update_self _ _ _,
    hhanded.wasPlain h, ?_⟩
  rw [setPage_pml4t, htop, setPage_mem_self]
  exact Function.update_of_ne (by decide) _ _

/-! ## `kfree` of a page of the kernel window -/

theorem KernelPath.congr {pdpt pdt pt : Frame} (h : Roles m role)
    (hpath : KernelPath m role f pdpt pdt pt) (hpml4t : m'.pml4t = m.pml4t)
    (hsame : ∀ t level, role t = .kernel level → m'.mem t = m.mem t) :
    KernelPath m' role f pdpt pdt pt := by
  rcases hpath.roles with ⟨hr₁, hr₂, -⟩
  refine ⟨?_, ?_, ?_, hpath.roles⟩
  · rw [hpml4t, child_congr (congrFun (hsame _ _ h.top) _)]
    exact hpath.toPdpt
  · rw [child_congr (congrFun (hsame _ _ hr₁) _)]
    exact hpath.toPdt
  · rw [child_congr (congrFun (hsame _ _ hr₂) _)]
    exact hpath.toPt

/-- `unmap_page` finds the page table above a page of the kernel window. -/
theorem KernelPath.unmapTable {pdpt pdt pt : Frame} (h : Roles m role) (hf : f < 2 ^ 19)
    (hpath : KernelPath m role f pdpt pdt pt) (htop : m.mem m.current 511 = m.mem m.pml4t 511) :
    m.unmapTable (pageWord f + KERNBASE) = some pt := by
  have hindex : pml4Index (pageWord f + KERNBASE) = 511 := by
    have hwindow := pathOf_kernelWord hf
    rw [pathOf, List.cons.injEq] at hwindow
    exact hwindow.1
  -- each entry is present and leads to a table in low memory
  have hdown : ∀ {t next : Frame} {i : Slot}, m.child t i = some next → role next ≠ .plain →
      tableAt (m.mem t i) = some next := by
    intro t next i hchild hrole
    rcases child_eq_some.1 hchild with ⟨-, rfl⟩
    exact tableAt_of_low (h.low _ hrole)
  rcases hpath.roles with ⟨hr₁, hr₂, hr₃⟩
  rw [Machine.unmapTable, hindex, htop]
  refine Option.bind_eq_some_iff.2 ⟨pdpt, hdown hpath.toPdpt ?_, ?_⟩
  · rw [hr₁]
    exact Role.noConfusion
  · refine Option.bind_eq_some_iff.2 ⟨pdt, hdown hpath.toPdt ?_, hdown hpath.toPt ?_⟩
    · rw [hr₂]
      exact Role.noConfusion
    · rw [hr₃]
      exact Role.noConfusion

/-- A page that goes back to the free list. -/
theorem Roles.put (h : Roles m role) (hplain : role f = .plain) (hlow : f < 2 ^ 19)
    (hfree : ∀ p ∈ m.ring.contents, frameOf p ≠ f) (hroom : m.ring.free < m.ring.slots.length)
    {owner : Frame → Option Owner} :
    Roles { m with ring := m.ring.put (pageWord f) hroom, owner := owner } role := by
  have hframe : frameOf (pageWord f) = f := frameOf_pageWord (by omega)
  have hcontents := m.ring.contents_put (pageWord f) hroom
  refine ⟨h.top, h.present, h.entries, h.low, h.root, h.depth, h.beyond, ?_, ?_, ?_⟩
  · intro p hp
    rw [hcontents, List.mem_append, List.mem_singleton] at hp
    rcases hp with hp | rfl
    · exact h.free.low p hp
    · exact lowPage_pageWord hlow
  · rw [hcontents, List.nodup_append]
    refine ⟨h.free.nodup, List.nodup_singleton _, ?_⟩
    rintro p hp q hq rfl
    rw [List.mem_singleton] at hq
    exact hfree p hp (hq ▸ hframe)
  · intro p hp
    rw [hcontents, List.mem_append, List.mem_singleton] at hp
    rcases hp with hp | rfl
    · exact h.free.plain p hp
    · rw [hframe]
      exact hplain

/-- `kfree` of a page that was free before. -/
theorem kfree_spec {pdpt pdt pt : Frame} {m₀ : Machine} {role₀ : Frame → Role} (h : Roles m role)
    (hg : Extends S m₀ role₀ m role) (hwas : ∃ p ∈ m₀.ring.contents, frameOf p = f)
    (hpath : KernelPath m role f pdpt pdt pt)
    (htop : m.mem m.current 511 = m.mem m.pml4t 511) (hplain : role f = .plain) (hlow : f < 2 ^ 19)
    (hfree : ∀ p ∈ m.ring.contents, frameOf p ≠ f)
    (hkfree : m.kfree (pageWord f + KERNBASE) = some m') :
    Roles m' role ∧ Extends S m₀ role₀ m' role := by
  have hpage : Allocator.physAddress (pageWord f + KERNBASE) = pageWord f :=
    Allocator.physAddress_KERNBASE (lowPage_pageWord hlow).low
  rw [Machine.kfree] at hkfree
  rcases Option.bind_eq_some_iff.1 hkfree with ⟨m₁, hunmap, hput⟩
  rw [Machine.unmapPage] at hunmap
  rcases Option.bind_eq_some_iff.1 hunmap with ⟨pt', hpt', hret⟩
  rw [hpath.unmapTable h hlow htop] at hpt'
  cases hpt'
  cases hret
  rcases h.writeKernelPage (i := ptIndex (pageWord f + KERNBASE)) (e := 0) hpath.roles.2.2 with
    ⟨h₁, hg₁⟩
  simp only [hpage] at hput
  split_ifs at hput with hroom
  cases hput
  have hall := hg.trans (hg₁.extends h)
  refine ⟨h₁.put hplain hlow hfree hroom.2, ⟨hall.keep, fun t ht => ?_, hall.tops, hall.fill,
    hall.kernel, hall.pml4t, hall.current⟩⟩
  rcases hall.data t ht with ⟨hrole, hlow', htaken⟩
  refine ⟨hrole, hlow', fun p hp => ?_⟩
  rw [SlotRing.contents_put, List.mem_append, List.mem_singleton] at hp
  rcases hp with hp | rfl
  · exact htaken p hp
  · rintro rfl
    rcases hwas with ⟨q, hq, hframe⟩
    rw [frameOf_pageWord (by omega)] at ht
    exact ht.2.2 q hq hframe

/-! ## Walks in the tables of a process -/

/-- The tables of a process above a user address. -/
structure UserPath (m : Machine) (role : Frame → Role) (table : Frame) (va : Word)
    (pdpt pdt pt : Frame) : Prop where
  toPdpt : m.child table (pml4Index va) = some pdpt
  toPdt : m.child pdpt (pdptIndex va) = some pdt
  toPt : m.child pdt (pdtIndex va) = some pt
  roles : role table = .table table [] ∧ role pdpt = .table table [pml4Index va] ∧
    role pdt = .table table [pml4Index va, pdptIndex va] ∧
    role pt = .table table [pml4Index va, pdptIndex va, pdtIndex va]

variable {table pdpt pdt pt : Frame} {va : Word}

theorem UserPath.translate (hpath : UserPath m role table va pdpt pdt pt) :
    m.translate table va = m.child pt (ptIndex va) := by
  rw [Machine.translate, pathOf, walk_cons hpath.toPdpt, walk_cons hpath.toPdt,
    walk_cons hpath.toPt,
    walk]
  exact Option.bind_fun_some _

/-- A child of a process' table below slot 510. -/
theorem Roles.userChild (h : Roles m role) {next : Frame} (ht : role t = .table r path)
    (hi : path = [] → (i : Nat) < 510) (hlen : path.length < 3) (hchild : m.child t i = some next) :
    UserEntry role r path i (m.mem t i) ∧ frameOf (m.mem t i) = next ∧ next < 2 ^ 19 ∧
      role next = .table r (path ++ [i]) := by
  rcases child_eq_some.1 hchild with ⟨hpresent, rfl⟩
  have hentry := h.user ht hi hpresent.ne_zero
  exact ⟨hentry, rfl, hentry.2.2 hlen⟩

/-- A translated user address has its tables. -/
theorem Roles.userPath (h : Roles m role) (ht : role table = .table table [])
    (hi : (pml4Index va : Nat) < 510) {frame : Frame}
    (htranslate : m.translate table va = some frame) :
    ∃ pdpt pdt pt, UserPath m role table va pdpt pdt pt ∧ m.child pt (ptIndex va) = some frame := by
  rw [Machine.translate, pathOf] at htranslate
  rcases Option.bind_eq_some_iff.1 htranslate with ⟨pdpt, h₁, htranslate⟩
  rcases Option.bind_eq_some_iff.1 htranslate with ⟨pdt, h₂, htranslate⟩
  rcases Option.bind_eq_some_iff.1 htranslate with ⟨pt, h₃, htranslate⟩
  rcases Option.bind_eq_some_iff.1 htranslate with ⟨frame', h₄, hret⟩
  cases hret
  rcases h.userChild ht (fun _ => hi) (by simp) h₁ with ⟨-, -, -, hr₁⟩
  rcases h.userChild hr₁ (fun h => absurd h (by simp)) (by simp) h₂ with ⟨-, -, -, hr₂⟩
  rcases h.userChild hr₂ (fun h => absurd h (by simp)) (by simp) h₃ with ⟨-, -, -, hr₃⟩
  exact ⟨pdpt, pdt, pt, ⟨h₁, h₂, h₃, ht, hr₁, hr₂, hr₃⟩, h₄⟩

/-- The tables above an address stay where the entries in the upper tables lead where they led. -/
theorem UserPath.congr (hpath : UserPath m role table va pdpt pdt pt)
    (hkeep : ∀ t, role t ≠ .plain → role' t = role t)
    (hsame : ∀ t path, role t = .table table path → path.length < 3 → ∀ i,
      m'.child t i = m.child t i) : UserPath m' role' table va pdpt pdt pt := by
  rcases hpath.roles with ⟨hr₀, hr₁, hr₂, hr₃⟩
  have hstay : ∀ {t path}, role t = .table table path → role' t = .table table path := fun ht =>
    (hkeep _ (by rw [ht]; exact Role.noConfusion)).trans ht
  refine ⟨?_, ?_, ?_, hstay hr₀, hstay hr₁, hstay hr₂, hstay hr₃⟩
  · exact (hsame _ _ hr₀ (by simp) _).trans hpath.toPdpt
  · exact (hsame _ _ hr₁ (by simp) _).trans hpath.toPdt
  · exact (hsame _ _ hr₂ (by simp) _).trans hpath.toPt

end Paging

end OswpKernel
