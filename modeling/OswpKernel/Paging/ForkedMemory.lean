import OswpKernel.Lib.Sharing
import OswpKernel.Paging.UserPages

/-!
# Forked memory — copy-on-write against eager copies

Processes that come out of each other by `sys_fork` read and write the pages the first of them had.
`eagerStep` is what that should look like: each process has a memory of its own, made in whole when
it is forked.  `userStep` is what happens: the tables are duplicated, and a write to a page that is
not writable goes through `is_cow_enabled` and `copy_page`.

The two agree (`userStep_refines`) when no two pages of the first process lie in one frame.  If two
do, a write through one of them no longer shows through the other (`not_userStep_refines`).
-/

namespace OswpKernel

namespace Paging

open Machine Execution Sharing

variable {m m' m₀ : Machine} {role : Frame → Role} {q f new : Frame} {va : Word} {b : BitVec 8}
  {s s' : Processes} {p : Nat} {k : PagePath} {place : List Slot → Option Frame}
  {memories : List (Frame → Page)}

/-! ## Bytes and pages -/

abbrev Page := Slot → Word

/-- The word of its page that an address lies in. -/
def wordOf (va : Word) : Slot := Fin.ofNat 512 (va >>> 3).toNat

/-- The first bit of the byte in its word. -/
def bitOf (va : Word) : Nat := 8 * (va.toNat % 8)

def readByte (page : Page) (va : Word) : BitVec 8 := (page (wordOf va)).extractLsb' (bitOf va) 8

def setByte (w : Word) (bit : Nat) (b : BitVec 8) : Word :=
  w &&& ~~~((0xff : Word) <<< bit) ||| b.zeroExtend 64 <<< bit

def writeByte (page : Page) (va : Word) (b : BitVec 8) : Page := fun i =>
  if i = wordOf va then setByte (page i) (bitOf va) b else page i

/-! ## What should happen -/

inductive UserEvent
  /-- process number `p` calls `sys_fork`; the new process gets the next number -/
  | fork (p : Nat)
  /-- process number `p` stores a byte -/
  | write (p : Nat) (va : Word) (b : BitVec 8)

/-- A memory for each process, over the frames of the first one: a fork copies all of it at once.
`place` is where the first process has its pages. -/
def eagerStep (place : List Slot → Option Frame) (memories : List (Frame → Page)) :
    UserEvent → Option (List (Frame → Page))
  | .fork p => do
      let memory ← memories[p]?
      return memories ++ [memory]
  | .write p va b => do
      let memory ← memories[p]?
      let f ← place (pathOf va)
      return memories.set p (Function.update memory f (writeByte (memory f) va b))

def eagerRead (place : List Slot → Option Frame) (memories : List (Frame → Page)) (p : Nat)
    (va : Word) : Option (BitVec 8) := do
  let memory ← memories[p]?
  let f ← place (pathOf va)
  return readByte (memory f) va

/-! ## What happens -/

/-- The store itself. -/
def storeByte (table : Frame) (va : Word) (b : BitVec 8) (m : Machine) : Option Machine := do
  let f ← m.translate table va
  return m.setPage f (writeByte (m.mem f) va b)

/-- The current process stores a byte; a fault goes to `copy_page`, and the store is tried again. -/
def userWrite (va : Word) (b : BitVec 8) (m : Machine) : Option Machine :=
  if Writable m m.current va then storeByte m.current va b m
  else if IsCowEnabled m (pml4Index va) then do
    let m ← copyPage m.current va m
    if Writable m m.current va then storeByte m.current va b m else none
  else none

/-- The process becomes the current one. -/
def Processes.load (s : Processes) (table : Frame) : Processes :=
  ⟨{ s.machine with current := table }, s.tables⟩

def userStep (s : Processes) : UserEvent → Option Processes
  | .fork p => do
      let table ← s.tables[p]?
      let (new, m) ← duplicatePageTable table (s.load table).machine
      return ⟨m, s.tables ++ [new]⟩
  | .write p va b => do
      let table ← s.tables[p]?
      let m ← userWrite va b (s.load table).machine
      return ⟨m, s.tables⟩

def userRead (s : Processes) (p : Nat) (va : Word) : Option (BitVec 8) := do
  let table ← s.tables[p]?
  let f ← s.machine.translate table va
  return readByte (s.machine.mem f) va

/-- Bytes are written in pages the first process had, and a page is free when one is copied. -/
def UserAllowed (place : List Slot → Option Frame) (s : Processes) : UserEvent → Prop
  | .fork _ => True
  | .write p va _ => (pml4Index va : Nat) < 510 ∧ place (pathOf va) ≠ none ∧
      ∀ table, s.tables[p]? = some table → Writable s.machine table va ∨ 0 < s.machine.ring.free

/-! ## Agreement -/

/-- The frame process number `p` has its page `k` in. -/
def frameAt (s : Processes) (p : Nat) (k : PagePath) : Option Frame :=
  s.tables[p]?.bind fun q => s.machine.walk q k.path

/-- The entry for the page is writable. -/
def LeafWritable (s : Processes) (p : Nat) (k : PagePath) : Prop :=
  ∃ q, s.tables[p]? = some q ∧ Has (leafOf s.machine q k) writeBit

/-- The page that process number `p` should see. -/
def eagerPage (place : List Slot → Option Frame) (memories : List (Frame → Page)) (p : Nat)
    (k : PagePath) : Option Page := do
  let memory ← memories[p]?
  let f ← place k.path
  return memory f

/-- The processes see what they should, in pages of data, and a frame that two of them have, or one
has twice, is not writable. -/
structure Agrees (place : List Slot → Option Frame) (s : Processes)
    (memories : List (Frame → Page)) : Prop where
  data : ∃ role, ProcessTables s role ∧ ∀ p k f, frameAt s p k = some f → Data s.machine role f
  nodup : s.tables.Nodup
  length : memories.length = s.tables.length
  exclusive : Exclusive (frameAt s) (LeafWritable s)
  pages : ∀ p k, seen (frameAt s) s.machine.mem p k = eagerPage place memories p k

/-- No two pages lie in one frame. -/
def Apart (place : List Slot → Option Frame) : Prop :=
  ∀ (k k' : PagePath) f, place k.path = some f → place k'.path = some f → k = k'

theorem frameAt_of_table (hp : s.tables[p]? = some q) (k : PagePath) :
    frameAt s p k = s.machine.walk q k.path := by
  rw [frameAt, hp, Option.bind_some]

theorem leafWritable_of_table (hp : s.tables[p]? = some q) (k : PagePath) :
    LeafWritable s p k ↔ Has (leafOf s.machine q k) writeBit := by
  rw [LeafWritable, hp]
  constructor
  · rintro ⟨q', hq', hleaf⟩
    cases hq'
    exact hleaf
  · exact fun hleaf => ⟨q, rfl, hleaf⟩

/-- A process whose tables stay as they are has the frames it had. -/
theorem ProcessTables.frameAt_congr (h : ProcessTables s role) (s' : Processes)
    (hp : s.tables[p]? = some q) (hp' : s'.tables[p]? = some q)
    (hsame : ∀ t path, role t = .table q path → s'.machine.mem t = s.machine.mem t) (k : PagePath) :
    frameAt s' p k = frameAt s p k ∧ (LeafWritable s' p k ↔ LeafWritable s p k) := by
  have hq : role q = .table q [] := (h.tops q (List.mem_of_getElem? hp)).1
  rcases h.roles.page_congr hq hsame k with ⟨hwalk, hleaf⟩
  refine ⟨?_, ?_⟩
  · rw [frameAt_of_table hp, frameAt_of_table hp', hwalk]
  · rw [leafWritable_of_table hp, leafWritable_of_table hp', hleaf]

/-- Which process is the current one makes no difference. -/
theorem Agrees.load (h : Agrees place s memories) (table : Frame) :
    Agrees place (s.load table) memories := by
  have hframes : frameAt (s.load table) = frameAt s := rfl
  rcases h.data with ⟨role, htables, hdata⟩
  exact ⟨⟨role, htables.switch table, hdata⟩, h.nodup, h.length, h.exclusive, h.pages⟩

/-- A page the first process had is one that every process has. -/
theorem Agrees.exists_frame (h : Agrees place s memories) (hp : s.tables[p]? = some q)
    (hplace : place k.path ≠ none) : ∃ memory f₀ f, memories[p]? = some memory ∧
      place k.path = some f₀ ∧ frameAt s p k = some f ∧ s.machine.mem f = memory f₀ := by
  have hlt : p < memories.length := by
    rw [h.length]
    exact (List.getElem?_eq_some_iff.1 hp).1
  rcases Option.ne_none_iff_exists'.1 hplace with ⟨f₀, hf₀⟩
  have hpages := h.pages p k
  rw [eagerPage, List.getElem?_eq_getElem hlt, hf₀] at hpages
  rcases Option.map_eq_some_iff.1 hpages with ⟨f, hf, hmem⟩
  exact ⟨_, f₀, f, List.getElem?_eq_getElem hlt, hf₀, hf, hmem⟩

/-- A table belongs to one process. -/
theorem Agrees.process_unique {p' : Nat} (h : Agrees place s memories) (hp : s.tables[p]? = some q)
    (hp' : s.tables[p']? = some q) : p = p' :=
  (List.getElem?_inj (List.getElem?_eq_some_iff.1 hp).1 h.nodup).1 (hp.trans hp'.symm)

/-! ## A store -/

theorem Agrees.store (h : Agrees place s memories) (hp : s.tables[p]? = some q)
    (hapart : Apart place)
    (hi : (pml4Index va : Nat) < 510) (hplace : place (pathOf va) ≠ none)
    (hwritable : Writable s.machine q va) (hstore : storeByte q va b s.machine = some m') :
    ∃ memories', eagerStep place memories (.write p va b) = some memories' ∧
      Agrees place ⟨m', s.tables⟩ memories' := by
  rcases h.exists_frame (k := pagePath va hi) hp hplace with ⟨memory, f₀, f, hmemory, hf₀, hf, hmem⟩
  have hwalk : s.machine.translate q va = some f := by
    rw [frameAt_of_table hp] at hf
    exact hf
  rw [storeByte, hwalk] at hstore
  rcases Option.some_inj.1 hstore with rfl
  rcases h.data with ⟨role, htables, hdata⟩
  have hq : role q = .table q [] := (htables.tops q (List.mem_of_getElem? hp)).1
  have hplain := hdata p _ f hf
  have hown : LeafWritable s p (pagePath va hi) :=
    (leafWritable_of_table hp _).2
      (hwritable.2 _ (leaf_mem_entries htables.roles hq hi hwritable.1))
  have hroles := htables.roles.setPage hplain.1 hplain.2.1 (writeByte (s.machine.mem f) va b)
  have hextends := htables.roles.setPageExtends (S := fun _ => False) hplain.1
    (writeByte (s.machine.mem f) va b)
  generalize hs' :
    (⟨s.machine.setPage f (writeByte (s.machine.mem f) va b), s.tables⟩ : Processes) = s'
  have htables' : s'.tables = s.tables := by rw [← hs']
  have hmachine' : s'.machine = s.machine.setPage f (writeByte (s.machine.mem f) va b) := by
    rw [← hs']
  -- the tables stay as they are
  have hsame : ∀ p' k', frameAt s' p' k' = frameAt s p' k' ∧
      (LeafWritable s' p' k' ↔ LeafWritable s p' k') := by
    intro p' k'
    cases hq' : s.tables[p']? with
    | none =>
        rw [frameAt, frameAt, LeafWritable, LeafWritable, htables', hq']
        simp
    | some q' =>
        refine htables.frameAt_congr s' hq' (htables' ▸ hq') (fun t path ht => ?_) k'
        rw [hmachine']
        refine setPage_mem_of_ne _ _ ?_
        rintro rfl
        rw [hplain.1] at ht
        cases ht
  have hframes := funext fun p' => funext fun k' => (hsame p' k').1
  have hleaves := funext fun p' => funext fun k' => propext (hsame p' k').2
  refine ⟨memories.set p (Function.update memory f₀ (writeByte (memory f₀) va b)), ?_, ?_⟩
  · rw [eagerStep, hmemory]
    change (place (pathOf va)).bind _ = _
    rw [show place (pathOf va) = some f₀ from hf₀]
    rfl
  refine ⟨⟨role, hs' ▸ htables.extend hroles hextends, fun p' k' f' hf' => ?_⟩,
    htables' ▸ h.nodup, ?_, ?_, ?_⟩
  · rw [hframes] at hf'
    rw [hmachine']
    exact hextends.data f' (hdata p' k' f' hf')
  · rw [List.length_set, htables']
    exact h.length
  · rw [hframes, hleaves]
    exact h.exclusive
  · intro p' k'
    rw [hframes, hmachine']
    have hlt := (List.getElem?_eq_some_iff.1 hmemory).1
    by_cases hat : p' = p ∧ k' = pagePath va hi
    · rcases hat with ⟨rfl, rfl⟩
      rw [seen_write_self hf (setPage_mem_self _ _ _), eagerPage, List.getElem?_set_self hlt]
      change _ = (place (pathOf va)).bind _
      rw [show place (pathOf va) = some f₀ from hf₀, hmem]
      simp
    · rw [h.exclusive.seen_write_other hown hf (fun d hd => setPage_mem_of_ne _ _ hd) hat, h.pages,
        eagerPage, eagerPage]
      by_cases hpp : p' = p
      · subst hpp
        rw [hmemory, List.getElem?_set_self hlt]
        cases hf' : place k'.path with
        | none => simp
        | some f' =>
            -- another page lies in another frame
            have hne : f' ≠ f₀ := by
              rintro rfl
              exact hat ⟨rfl, hapart k' (pagePath va hi) f' hf' hf₀⟩
            simp [Function.update_of_ne hne]
      · rw [List.getElem?_set_ne fun heq => hpp heq.symm]

/-! ## A copied page -/

/-- The process has another page than one it shares, with the same contents, and may write it. -/
theorem Agrees.copy (h : Agrees place s memories) (hp : s.tables[p]? = some s.machine.current)
    (hi : (pml4Index va : Nat) < 510) (hf : frameAt s p (pagePath va hi) = some f)
    (hfree : 0 < s.machine.ring.free) (hcopy : copyPage s.machine.current va s.machine = some m') :
    Agrees place ⟨m', s.tables⟩ memories ∧ m'.current = s.machine.current ∧
      Writable m' m'.current va := by
  rcases h.data with ⟨role, htables, hdata⟩
  rcases htables.tops _ (List.mem_of_getElem? hp) with ⟨hq, htop⟩
  have hmapped : s.machine.translate s.machine.current va = some f := by
    rw [frameAt_of_table hp] at hf
    exact hf
  rcases htables.roles.userPath hq hi hmapped with ⟨pdpt, pdt, pt, hpath, hlast⟩
  rcases hpath.copied_mapped htables.roles hi htop hfree hlast hcopy with ⟨role', f', hcopied⟩
  have hsees := hpath.sees htables.roles hi hcopied.data.2.1 hcopied.tables
  generalize hs' : (⟨m', s.tables⟩ : Processes) = s'
  have htables' : s'.tables = s.tables := by rw [← hs']
  have hmachine' : s'.machine = m' := by rw [← hs']
  have hp' : s'.tables[p]? = some s.machine.current := htables' ▸ hp
  have hnew : frameAt s' p (pagePath va hi) = some f' := by
    rw [frameAt_of_table hp', hmachine']
    exact hsees.mapped
  -- the other processes keep their tables, and this one its other pages
  have hother : ∀ p' k', p' ≠ p → frameAt s' p' k' = frameAt s p' k' ∧
      (LeafWritable s' p' k' ↔ LeafWritable s p' k') := by
    intro p' k' hne
    cases hq' : s.tables[p']? with
    | none =>
        rw [frameAt, frameAt, LeafWritable, LeafWritable, htables', hq']
        simp
    | some q' =>
        refine htables.frameAt_congr s' hq' (htables' ▸ hq') (fun t path ht => ?_) k'
        rw [hmachine']
        refine hcopied.written t (htables.roles.not_mayWrite ht ?_)
        rintro rfl
        exact hne (h.process_unique hq' hp)
  have hself : ∀ k', k' ≠ pagePath va hi → frameAt s' p k' = frameAt s p k' ∧
      (LeafWritable s' p k' ↔ LeafWritable s p k') := by
    intro k' hne
    refine ⟨?_, ?_⟩
    · rw [frameAt_of_table hp, frameAt_of_table hp', hmachine', ← k'.translate_address,
        ← k'.translate_address]
      refine hsees.others _ k'.address_user ?_
      rw [k'.pathOf_address]
      exact fun heq => hne (PagePath.path_injective heq)
    · rw [leafWritable_of_table hp, leafWritable_of_table hp', hmachine',
        hcopied.leaf htables.roles hpath hi hne]
  have hold : ∀ p' k', ¬ (p' = p ∧ k' = pagePath va hi) → frameAt s' p' k' = frameAt s p' k' ∧
      (LeafWritable s' p' k' ↔ LeafWritable s p' k') := by
    intro p' k' hne
    by_cases hpp : p' = p
    · subst hpp
      exact hself k' fun hk => hne ⟨rfl, hk⟩
    · exact hother p' k' hpp
  have hkeep : ∀ p' k' d, frameAt s p' k' = some d → s'.machine.mem d = s.machine.mem d := by
    intro p' k' d hd
    rw [hmachine']
    exact hcopied.written d (hdata p' k' d hd).not_mayWrite
  have hframe : frameOf (pageWord f') = f' := frameOf_pageWord (hcopied.data.2.1.trans (by decide))
  refine ⟨⟨⟨role', hs' ▸ htables.extend hcopied.roles hcopied.extends_, fun p' k' d hd => ?_⟩,
    htables' ▸ h.nodup, htables' ▸ h.length, ?_, fun p' k' => ?_⟩, hcopied.extends_.current, ?_, ?_⟩
  · rw [hmachine']
    by_cases hat : p' = p ∧ k' = pagePath va hi
    · rcases hat with ⟨rfl, rfl⟩
      rw [hnew] at hd
      rcases Option.some_inj.1 hd with rfl
      exact hcopied.data
    · rw [(hold p' k' hat).1] at hd
      exact hcopied.extends_.data d (hdata p' k' d hd)
  · refine h.exclusive.copy hnew (fun p' k' hne => (hold p' k' hne).1) (fun p' k' hd => ?_) ?_
    · exact (hdata p' k' f' hd).2.2 _ hcopied.free hframe
    · intro p' k' hleaf
      by_cases hat : p' = p ∧ k' = pagePath va hi
      · exact Or.inl hat
      · exact Or.inr ((hold p' k' hat).2.1 hleaf)
  · rw [← h.pages p' k']
    refine seen_copy hnew (fun b l hne => (hold b l hne).1) hf ?_ hkeep p' k'
    rw [hmachine']
    exact hcopied.content f hmapped (hdata p _ f hf).not_mayWrite
  · rw [hcopied.extends_.current, hsees.mapped]
    exact Option.some_ne_none f'
  · rw [hcopied.extends_.current]
    exact fun e he => (hsees.path e he).2.1

/-! ## A fork -/

theorem getElem?_concat_of_ne {α : Type*} {l : List α} {a : α} {x : Nat} (hx : x ≠ l.length) :
    (l ++ [a])[x]? = l[x]? := by
  rcases lt_or_gt_of_ne hx with hlt | hgt
  · exact List.getElem?_append_left hlt
  · rw [List.getElem?_eq_none (by rw [List.length_append, List.length_singleton]; omega),
      List.getElem?_eq_none (by omega)]

/-- The new process shares all pages with the old one. -/
theorem Agrees.fork {memory : Frame → Page} (h : Agrees place s memories)
    (hp : s.tables[p]? = some q) (hmemory : memories[p]? = some memory)
    (hdup : duplicatePageTable q s.machine = some (new, m')) :
    Agrees place ⟨m', s.tables ++ [new]⟩ (memories ++ [memory]) := by
  rcases h.data with ⟨role, htables, hdata⟩
  rcases htables.tops _ (List.mem_of_getElem? hp) with ⟨hq, htop⟩
  rcases duplicatePageTable_spec htables.roles hq htop hdup with ⟨role', hmade⟩
  have hd := duplicatePageTable_copies htables.roles (htables.roles.duplicable hq) hdup
  have hadd := htables.add hmade
  generalize hs' : (⟨m', s.tables ++ [new]⟩ : Processes) = s' at hadd
  have htables' : s'.tables = s.tables ++ [new] := by rw [← hs']
  have hmachine' : s'.machine = m' := by rw [← hs']
  have hlast : s'.tables[s.tables.length]? = some new := by
    rw [htables']
    exact List.getElem?_concat_length
  have hcopy : ∀ k', frameAt s' s.tables.length k' = frameAt s p k' := by
    intro k'
    rw [frameAt_of_table hlast, frameAt_of_table hp, hmachine', ← k'.translate_address,
      ← k'.translate_address]
    exact hd.copy _ k'.address_user
  have hlookup : ∀ x, x ≠ s.tables.length → s'.tables[x]? = s.tables[x]? := fun x hx =>
    htables' ▸ getElem?_concat_of_ne hx
  have hp' : s'.tables[p]? = some q := by
    rw [hlookup p (List.getElem?_eq_some_iff.1 hp).1.ne]
    exact hp
  -- the old process keeps its pages, the other ones all of their tables
  have hold : ∀ x, x ≠ s.tables.length → ∀ k', frameAt s' x k' = frameAt s x k' ∧
      (x ≠ p → (LeafWritable s' x k' ↔ LeafWritable s x k')) := by
    intro x hx k'
    cases hq' : s.tables[x]? with
    | none =>
        rw [frameAt, frameAt, LeafWritable, LeafWritable, hlookup x hx, hq']
        simp
    | some q' =>
        by_cases hxp : x = p
        · subst hxp
          rw [frameAt_of_table hp, frameAt_of_table hp', hmachine', ← k'.translate_address,
            ← k'.translate_address]
          exact ⟨hd.kept _ k'.address_user, fun hne => absurd rfl hne⟩
        · have hkept := htables.frameAt_congr s' hq' ((hlookup x hx).trans hq')
            (fun t path ht => by
              rw [hmachine']
              refine hd.other htables.roles hq ht ?_
              rintro rfl
              exact hxp (h.process_unique hq' hp)) k'
          exact ⟨hkept.1, fun _ => hkept.2⟩
  have hframe : ∀ x k' d, frameAt s' x k' = some d → ∃ x', frameAt s x' k' = some d := by
    intro x k' d hd'
    by_cases hx : x = s.tables.length
    · rw [hx, hcopy] at hd'
      exact ⟨p, hd'⟩
    · exact ⟨x, (hold x hx k').1 ▸ hd'⟩
  have hkeep : ∀ x k' d, frameAt s x k' = some d → s'.machine.mem d = s.machine.mem d := by
    intro x k' d hd'
    rw [hmachine']
    exact hd.data htables.roles hq (hdata x k' d hd')
  refine ⟨⟨role', hadd, fun x k' d hd' => ?_⟩, ?_, ?_, ?_, fun x k' => ?_⟩
  · rcases hframe x k' d hd' with ⟨x', hx'⟩
    rw [hmachine']
    exact hmade.extends_.data d (hdata x' k' d hx')
  · rw [htables']
    refine List.nodup_append'.2 ⟨h.nodup, List.nodup_singleton new, ?_⟩
    rw [List.disjoint_singleton]
    intro hmem
    have hwas := hmade.wasPlain
    rw [(htables.tops new hmem).1] at hwas
    cases hwas
  · rw [htables', List.length_append, List.length_append, h.length]
    rfl
  · refine h.exclusive.share hcopy (fun x hx l => (hold x hx l).1) fun x l hleaf hmapped => ?_
    have hne : x ≠ s.tables.length := by
      rintro rfl
      rw [hcopy, frameAt_of_table hp, Option.isSome_iff_ne_none] at hmapped
      rw [leafWritable_of_table hlast, hmachine'] at hleaf
      exact hd.leaf (Or.inl rfl) hmade.roles hmade.top hmapped hleaf
    have hnep : x ≠ p := by
      rintro rfl
      rw [(hold x hne l).1, frameAt_of_table hp, Option.isSome_iff_ne_none] at hmapped
      rw [leafWritable_of_table hp', hmachine'] at hleaf
      exact hd.leaf (Or.inr rfl) hmade.roles (hmade.extends_.table hq) hmapped hleaf
    exact ⟨hnep, hne, ((hold x hne l).2 hnep).1 hleaf⟩
  · by_cases hx : x = s.tables.length
    · subst hx
      have hnew : (memories ++ [memory])[s.tables.length]? = some memory := by
        rw [← h.length]
        exact List.getElem?_concat_length
      rw [seen_congr (hcopy k') (hkeep p k'), h.pages, eagerPage, eagerPage, hmemory, hnew]
    · rw [seen_congr (hold x hx k').1 (hkeep x k'), h.pages, eagerPage, eagerPage,
        getElem?_concat_of_ne (h.length ▸ hx)]

/-! ## Ready pages -/

/-- All pages of all processes are ready. -/
def AllReady (s : Processes) : Prop :=
  ∀ (p : Nat) (q : Frame) (k : PagePath), s.tables[p]? = some q →
    s.machine.walk q k.path ≠ none → Ready s.machine q k

/-- A process whose tables stay as they are. -/
theorem AllReady.keep (h : AllReady s) (htables : ProcessTables s role) (hp : s.tables[p]? = some q)
    (hsame : ∀ t path, role t = .table q path → m'.mem t = s.machine.mem t)
    (hmapped : m'.walk q k.path ≠ none) : Ready m' q k := by
  have hq := (htables.tops q (List.mem_of_getElem? hp)).1
  rw [htables.roles.walk_congr hq hsame k.path_indices (le_refl 4)] at hmapped
  exact (h p q k hp hmapped).congr htables.roles hq hsame

/-- A store changes no table. -/
theorem AllReady.store (h : AllReady s) (hagrees : Agrees place s memories)
    (hp : s.tables[p]? = some q) (hi : (pml4Index va : Nat) < 510)
    (hstore : storeByte q va b s.machine = some m') : AllReady ⟨m', s.tables⟩ := by
  rcases hagrees.data with ⟨role, htables, hdata⟩
  rw [storeByte] at hstore
  rcases Option.bind_eq_some_iff.1 hstore with ⟨f, hf, hret⟩
  rcases Option.some_inj.1 hret with rfl
  have hplain := hdata p (pagePath va hi) f ((frameAt_of_table hp _).trans hf)
  intro p' q' k' hp' hmapped
  refine h.keep htables hp' (fun t path ht => setPage_mem_of_ne _ _ ?_) hmapped
  rintro rfl
  rw [hplain.1] at ht
  cases ht

theorem AllReady.copy (h : AllReady s) (hagrees : Agrees place s memories)
    (hp : s.tables[p]? = some s.machine.current) (hi : (pml4Index va : Nat) < 510)
    (hf : frameAt s p (pagePath va hi) = some f) (hfree : 0 < s.machine.ring.free)
    (hcopy : copyPage s.machine.current va s.machine = some m') : AllReady ⟨m', s.tables⟩ := by
  rcases hagrees.data with ⟨role, htables, -⟩
  rcases htables.tops _ (List.mem_of_getElem? hp) with ⟨hq, htop⟩
  have hmapped : s.machine.translate s.machine.current va = some f :=
    (frameAt_of_table hp _).symm.trans hf
  rcases htables.roles.userPath hq hi hmapped with ⟨pdpt, pdt, pt, hpath, hlast⟩
  rcases hpath.copied_mapped htables.roles hi htop hfree hlast hcopy with ⟨role', f', hcopied⟩
  have hsees := hpath.sees htables.roles hi hcopied.data.2.1 hcopied.tables
  intro p' q' k' hp' hmapped'
  by_cases hq' : q' = s.machine.current
  · subst hq'
    by_cases hpage : k'.path = pathOf va
    · left
      have haddress : pathOf k'.address = pathOf va := k'.pathOf_address.trans hpage
      refine ⟨?_, ?_⟩
      · rw [k'.translate_address]
        exact hmapped'
      · rw [haddress]
        exact fun e he => (hsees.path e he).2.1
    · refine hcopied.ready htables.roles hpath hi hpage (h p' _ k' hp' ?_)
      have hsame := hsees.others k'.address k'.address_user (k'.pathOf_address ▸ hpage)
      rw [k'.translate_address, k'.translate_address] at hsame
      exact hsame ▸ hmapped'
  · exact h.keep htables hp' (fun t path ht =>
      hcopied.written t (htables.roles.not_mayWrite ht hq')) hmapped'

theorem AllReady.fork (h : AllReady s) (hagrees : Agrees place s memories)
    (hp : s.tables[p]? = some q) (hdup : duplicatePageTable q s.machine = some (new, m')) :
    AllReady ⟨m', s.tables ++ [new]⟩ := by
  rcases hagrees.data with ⟨role, htables, -⟩
  have hq := (htables.tops q (List.mem_of_getElem? hp)).1
  have hd := duplicatePageTable_copies htables.roles (htables.roles.duplicable hq) hdup
  intro p' q' k' hp' hmapped
  by_cases hqq : q' = new ∨ q' = q
  · refine hd.ready hqq ?_
    rw [← k'.translate_address] at hmapped ⊢
    rcases hqq with rfl | rfl
    · exact (hd.copy _ k'.address_user) ▸ hmapped
    · exact (hd.kept _ k'.address_user) ▸ hmapped
  · rw [not_or] at hqq
    have hmem : q' ∈ s.tables := by
      have hmem := List.mem_of_getElem? hp'
      rw [List.mem_append, List.mem_singleton] at hmem
      exact hmem.resolve_right hqq.1
    rcases List.mem_iff_getElem?.1 hmem with ⟨x, hx⟩
    exact h.keep htables hx (fun t path ht => hd.other htables.roles hq ht hqq.2) hmapped

/-! ## Runs -/

theorem Agrees.read (h : Agrees place s memories) (hi : (pml4Index va : Nat) < 510) (p : Nat) :
    userRead s p va = eagerRead place memories p va := by
  have hpages := h.pages p (pagePath va hi)
  have hread : userRead s p va = (seen (frameAt s) s.machine.mem p (pagePath va hi)).map
      fun page => readByte page va := by
    rw [userRead, seen, frameAt]
    cases s.tables[p]? with
    | none => rfl
    | some q =>
        change (s.machine.walk q (pathOf va)).bind _ = _
        rw [Option.bind_some]
        change _ = ((s.machine.walk q (pathOf va)).map _).map _
        cases s.machine.walk q (pathOf va) <;> rfl
  rw [hread, hpages, eagerPage, eagerRead]
  cases memories[p]? with
  | none => rfl
  | some memory =>
      change ((place (pathOf va)).bind _).map _ = (place (pathOf va)).bind _
      cases place (pathOf va) <;> rfl

/-- A write, through `copy_page` where the page is shared. -/
theorem Agrees.write (h : Agrees place s memories) (hapart : Apart place)
    (hp : s.tables[p]? = some s.machine.current) (hi : (pml4Index va : Nat) < 510)
    (hplace : place (pathOf va) ≠ none)
    (hready : Writable s.machine s.machine.current va ∨ 0 < s.machine.ring.free)
    (hwrite : userWrite va b s.machine = some m') :
    ∃ memories', eagerStep place memories (.write p va b) = some memories' ∧
      Agrees place ⟨m', s.tables⟩ memories' := by
  rw [userWrite] at hwrite
  split_ifs at hwrite with hwritable hcow
  · exact h.store hp hapart hi hplace hwritable hwrite
  · have hfree := hready.resolve_left hwritable
    rcases Option.bind_eq_some_iff.1 hwrite with ⟨m₁, hcopy, hwrite⟩
    split_ifs at hwrite with hwritable₁
    rcases h.exists_frame (k := pagePath va hi) hp hplace with ⟨-, -, f, -, -, hf, -⟩
    rcases h.copy hp hi hf hfree hcopy with ⟨h₁, hcurrent, -⟩
    have hp₁ : (⟨m₁, s.tables⟩ : Processes).tables[p]? = some m₁.current := hcurrent ▸ hp
    exact h₁.store hp₁ hapart hi hplace hwritable₁ hwrite

/-- A step has a step of the eager semantics, and they agree afterwards. -/
theorem Agrees.step {e : UserEvent} (h : Agrees place s memories) (hapart : Apart place)
    (hallowed : UserAllowed place s e) (hstep : userStep s e = some s') :
    ∃ memories', eagerStep place memories e = some memories' ∧ Agrees place s' memories' := by
  cases e with
  | fork p =>
      rw [userStep] at hstep
      rcases Option.bind_eq_some_iff.1 hstep with ⟨q, hp, hstep⟩
      rcases Option.bind_eq_some_iff.1 hstep with ⟨⟨new, m'⟩, hdup, hret⟩
      rcases Option.some_inj.1 hret with rfl
      have hlt : p < memories.length := by
        rw [h.length]
        exact (List.getElem?_eq_some_iff.1 hp).1
      have hmemory := List.getElem?_eq_getElem hlt
      refine ⟨memories ++ [memories[p]], ?_, (h.load q).fork hp hmemory hdup⟩
      rw [eagerStep, hmemory]
      rfl
  | write p va b =>
      rcases hallowed with ⟨hi, hplace, hready⟩
      rw [userStep] at hstep
      rcases Option.bind_eq_some_iff.1 hstep with ⟨q, hp, hstep⟩
      rcases Option.bind_eq_some_iff.1 hstep with ⟨m', hwrite, hret⟩
      rcases Option.some_inj.1 hret with rfl
      exact (h.load q).write hapart hp hi hplace (hready q hp) hwrite

theorem AllReady.load (h : AllReady s) (table : Frame) : AllReady (s.load table) := h

theorem AllReady.step {e : UserEvent} (h : AllReady s) (hagrees : Agrees place s memories)
    (hallowed : UserAllowed place s e) (hstep : userStep s e = some s') : AllReady s' := by
  cases e with
  | fork p =>
      rw [userStep] at hstep
      rcases Option.bind_eq_some_iff.1 hstep with ⟨q, hp, hstep⟩
      rcases Option.bind_eq_some_iff.1 hstep with ⟨⟨new, m'⟩, hdup, hret⟩
      rcases Option.some_inj.1 hret with rfl
      exact (h.load q).fork (hagrees.load q) hp hdup
  | write p va b =>
      rcases hallowed with ⟨hi, hplace, hready⟩
      rw [userStep] at hstep
      rcases Option.bind_eq_some_iff.1 hstep with ⟨q, hp, hstep⟩
      rcases Option.bind_eq_some_iff.1 hstep with ⟨m', hwrite, hret⟩
      rcases Option.some_inj.1 hret with rfl
      have hagrees' := hagrees.load q
      rw [userWrite] at hwrite
      split_ifs at hwrite with hwritable hcow
      · exact (h.load q).store hagrees' hp hi hwrite
      · rcases Option.bind_eq_some_iff.1 hwrite with ⟨m₁, hcopy, hwrite⟩
        split_ifs at hwrite
        rcases hagrees'.exists_frame (k := pagePath va hi) hp hplace with ⟨-, -, f, -, -, hf, -⟩
        have hfree := (hready q hp).resolve_left hwritable
        rcases hagrees'.copy hp hi hf hfree hcopy with ⟨hagrees₁, hcurrent, -⟩
        have h₁ := (h.load q).copy hagrees' hp hi hf hfree hcopy
        have hp₁ : (⟨m₁, s.tables⟩ : Processes).tables[p]? = some m₁.current := hcurrent ▸ hp
        exact h₁.store hagrees₁ hp₁ hi hwrite

/-- A write to a page that is ready is carried out, unless `copy_page` finds no memory. -/
theorem Agrees.write_completes (h : Agrees place s memories) (hready : AllReady s)
    (hp : s.tables[p]? = some q) (hallowed : UserAllowed place s (.write p va b))
    (hcopy : ¬ Writable s.machine q va → copyPage q va (s.load q).machine ≠ none) :
    userStep s (.write p va b) ≠ none := by
  rcases hallowed with ⟨hi, hplace, hfree⟩
  have hagrees := h.load q
  rcases hagrees.exists_frame (k := pagePath va hi) hp hplace with ⟨-, -, f, -, -, hf, -⟩
  have hstored : ∀ {m : Machine}, Writable m m.current va → storeByte m.current va b m ≠ none := by
    intro m hwritable
    rcases Option.ne_none_iff_exists'.1 hwritable.1 with ⟨d, hd⟩
    rw [storeByte, hd]
    exact Option.some_ne_none _
  have hwrite : userWrite va b (s.load q).machine ≠ none := by
    rw [userWrite]
    by_cases hwritable : Writable (s.load q).machine (s.load q).machine.current va
    · rw [if_pos hwritable]
      exact hstored hwritable
    -- a page of the process that is not writable is marked for copying
    · have hcow : IsCowEnabled (s.load q).machine (pml4Index va) := by
        have hmapped : s.machine.walk q (pagePath va hi).path ≠ none := by
          rw [frameAt_of_table (s := s.load q) hp] at hf
          exact Option.ne_none_iff_exists'.2 ⟨f, hf⟩
        refine (hready p q (pagePath va hi) hp hmapped).resolve_left fun hat => hwritable ?_
        exact (writable_congr (pagePath va hi).pathOf_address).1 hat
      rcases Option.ne_none_iff_exists'.1 (hcopy hwritable) with ⟨m₁, hm₁⟩
      rcases hagrees.copy hp hi hf ((hfree q hp).resolve_left hwritable) hm₁ with
        ⟨-, -, hwritable₁⟩
      rw [if_neg hwritable, if_pos hcow, show copyPage (s.load q).machine.current va
        (s.load q).machine = some m₁ from hm₁]
      change (if Writable m₁ m₁.current va then _ else none) ≠ none
      rw [if_pos hwritable₁]
      exact hstored hwritable₁
  rcases Option.ne_none_iff_exists'.1 hwrite with ⟨m', hm'⟩
  rw [userStep, hp]
  change (userWrite va b (s.load q).machine).bind _ ≠ none
  rw [hm']
  exact Option.some_ne_none _

/-- A process that has not forked yet; its pages are data. -/
structure Starts (m : Machine) (role : Frame → Role) (root : Frame) : Prop where
  roles : Roles m role
  top : role root = .table root []
  kernel : m.mem root 511 = m.mem m.pml4t 511
  data : ∀ (k : PagePath) f, m.walk root k.path = some f → Data m role f

theorem Starts.agrees {root : Frame} (h : Starts m role root) (hapart : Apart (m.walk root)) :
    Agrees (m.walk root) ⟨m, [root]⟩ [m.mem] := by
  have hframe : ∀ p k f, frameAt ⟨m, [root]⟩ p k = some f →
      p = 0 ∧ m.walk root k.path = some f := by
    intro p k f hf
    cases p with
    | zero => exact ⟨rfl, (frameAt_of_table (s := ⟨m, [root]⟩) rfl k).symm.trans hf⟩
    | succ p => cases hf
  refine ⟨⟨role, ⟨h.roles, fun q hq => ?_⟩, fun p k f hf => h.data k f (hframe p k f hf).2⟩,
    List.nodup_singleton root, rfl, fun p k p' k' f _ hf hf' => ?_, fun p k => ?_⟩
  · rw [List.mem_singleton.1 hq]
    exact ⟨h.top, h.kernel⟩
  · rcases hframe p k f hf with ⟨rfl, hf⟩
    rcases hframe p' k' f hf' with ⟨rfl, hf'⟩
    exact ⟨rfl, hapart k' k f hf' hf⟩
  · cases p with
    | zero =>
        rw [seen, frameAt_of_table (s := ⟨m, [root]⟩) rfl k, eagerPage]
        change _ = (m.walk root k.path).bind _
        cases m.walk root k.path <;> rfl
    | succ p => rfl

/-- A run has a run of the eager semantics, over the same events. -/
theorem Starts.run {root : Frame} {es : List UserEvent} (h : Starts m₀ role root)
    (hapart : Apart (m₀.walk root))
    (hrun : Run userStep (UserAllowed (m₀.walk root)) ⟨m₀, [root]⟩ es s) :
    ∃ memories, Run (eagerStep (m₀.walk root)) (fun _ _ => True) [m₀.mem] es memories ∧
      Agrees (m₀.walk root) s memories ∧ (AllReady ⟨m₀, [root]⟩ → AllReady s) := by
  induction hrun with
  | nil => exact ⟨[m₀.mem], Run.nil, h.agrees hapart, id⟩
  | snoc _ hallowed hstep ih =>
      rcases ih with ⟨memories, heager, hagrees, hready⟩
      rcases hagrees.step hapart hallowed hstep with ⟨memories', heager', hagrees'⟩
      exact ⟨memories', heager.snoc trivial heager', hagrees', fun hstart =>
        (hready hstart).step hagrees hallowed hstep⟩

/-- In every run the processes read what they would read if each fork copied all frames at once, and
where the pages were ready at the start, every write for which there is memory is carried out. -/
theorem userStep_refines {root : Frame} {es : List UserEvent} (h : Starts m₀ role root)
    (hapart : Apart (m₀.walk root))
    (hrun : Run userStep (UserAllowed (m₀.walk root)) ⟨m₀, [root]⟩ es s) :
    ∃ memories, Run (eagerStep (m₀.walk root)) (fun _ _ => True) [m₀.mem] es memories ∧
      (∀ p va, (pml4Index va : Nat) < 510 →
        userRead s p va = eagerRead (m₀.walk root) memories p va) ∧
      (AllReady ⟨m₀, [root]⟩ → ∀ p q va b, s.tables[p]? = some q →
        UserAllowed (m₀.walk root) s (.write p va b) →
        (¬ Writable s.machine q va → copyPage q va (s.load q).machine ≠ none) →
        userStep s (.write p va b) ≠ none) := by
  rcases h.run hapart hrun with ⟨memories, heager, hagrees, hready⟩
  refine ⟨memories, heager, fun p va hi => hagrees.read hi p, ?_⟩
  exact fun hstart p q va b hp hallowed hcopy =>
    hagrees.write_completes (hready hstart) hp hallowed hcopy

instance (place : List Slot → Option Frame) (s : Processes) (e : UserEvent) :
    Decidable (UserAllowed place s e) :=
  match e with
  | .fork _ => isTrue trivial
  | .write p va _ => inferInstanceAs (Decidable ((pml4Index va : Nat) < 510 ∧
      place (pathOf va) ≠ none ∧
      ∀ table ∈ s.tables[p]?, Writable s.machine table va ∨ 0 < s.machine.ring.free))

/-- Entry 0 of each table of `sharedPage` leads down to frame 9, and no other one anywhere. -/
theorem sharedPage_child : ∀ i : Slot,
    ((i : Nat) < 510 → sharedPage.child 5 i = if i = 0 then some 6 else none) ∧
      sharedPage.child 6 i = (if i = 0 then some 7 else none) ∧
      sharedPage.child 7 i = (if i = 0 then some 8 else none) ∧
      sharedPage.child 8 i = if i = 0 then some 9 else none := by
  decide +kernel

theorem child_zero {m : Machine} {t next f : Frame} {i : Slot} {is : List Slot}
    (h : m.child t i = if i = 0 then some next else none) (hwalk : m.walk t (i :: is) = some f) :
    i = 0 ∧ m.walk next is = some f := by
  rw [walk, h] at hwalk
  split_ifs at hwalk with hi
  · exact ⟨hi, hwalk⟩
  · cases hwalk

/-- A machine that has the upper tables of `sharedPage`. -/
theorem shared_walk {m : Machine} (h : ∀ t, t ≠ 8 → ∀ i, m.child t i = sharedPage.child t i)
    (hf : m.walk 5 k.path = some f) : k.upper = [0, 0, 0] ∧ m.child 8 k.pt = some f := by
  rcases k with ⟨i, j, l, n, huser⟩
  rcases child_zero ((h 5 (by decide) i).trans ((sharedPage_child i).1 huser)) hf with ⟨rfl, hf⟩
  rcases child_zero ((h 6 (by decide) j).trans (sharedPage_child j).2.1) hf with ⟨rfl, hf⟩
  rcases child_zero ((h 7 (by decide) l).trans (sharedPage_child l).2.2.1) hf with ⟨rfl, hf⟩
  rcases Option.bind_eq_some_iff.1 hf with ⟨d, hd, hf⟩
  rcases Option.some_inj.1 hf with rfl
  exact ⟨rfl, hd⟩

theorem sharedPage_nine : Data sharedPage sharedRole 9 :=
  ⟨sharedRole_plain (by decide), by decide, fun p hp hframe =>
    sharedPage_data (Or.inr rfl) (Or.inr (Or.inr ⟨p, hp, hframe⟩))⟩

theorem sharedPage_starts : Starts sharedPage sharedRole 5 := by
  refine ⟨sharedPage_roles, rfl, rfl, fun k f hf => ?_⟩
  rcases shared_walk (fun _ _ _ => rfl) hf with ⟨-, hlast⟩
  rw [(sharedPage_child k.pt).2.2.2] at hlast
  split_ifs at hlast
  rcases Option.some_inj.1 hlast with rfl
  exact sharedPage_nine

theorem sharedPage_apart : Apart (sharedPage.walk 5) := by
  have hzero : ∀ {k : PagePath} {f}, sharedPage.walk 5 k.path = some f → k.path = [0, 0, 0, 0] := by
    intro k f hf
    rcases shared_walk (fun _ _ _ => rfl) hf with ⟨hupper, hlast⟩
    rw [(sharedPage_child k.pt).2.2.2] at hlast
    split_ifs at hlast with hpt
    rw [PagePath.path, hupper, hpt]
    rfl
  exact fun k k' f hf hf' => PagePath.path_injective ((hzero hf).trans (hzero hf').symm)

/-- A process, its child and its grandchild, and what the two write to the first byte. -/
def forkAndWrite : List UserEvent := [.fork 0, .write 1 0 0xab, .fork 1, .write 2 0 0xcd]

theorem userStep_refines_forked : ∃ s memories,
    Run userStep (UserAllowed (sharedPage.walk 5)) ⟨sharedPage, [5]⟩ forkAndWrite s ∧
      Run (eagerStep (sharedPage.walk 5)) (fun _ _ => True) [sharedPage.mem] forkAndWrite memories ∧
      [userRead s 0 0, userRead s 1 0, userRead s 2 0] = [some 0, some 0xab, some 0xcd] ∧
      ∀ p va, (pml4Index va : Nat) < 510 →
        userRead s p va = eagerRead (sharedPage.walk 5) memories p va := by
  have hreplay : (replay userStep (UserAllowed (sharedPage.walk 5)) forkAndWrite
      ⟨sharedPage, [5]⟩).map (fun s => [userRead s 0 0, userRead s 1 0, userRead s 2 0]) =
        some [some 0, some 0xab, some 0xcd] := by
    decide +kernel
  rcases Option.map_eq_some_iff.1 hreplay with ⟨s, hs, hreads⟩
  have hrun := run_of_replay hs
  rcases userStep_refines sharedPage_starts sharedPage_apart hrun with ⟨memories, heager, hsame, -⟩
  exact ⟨s, memories, hrun, heager, hreads, hsame⟩

/-- The process of `sharedPage`, with a second page in frame 9, at `0x1000`. -/
def twoNames : Machine := sharedPage.write 8 1 (pageWord 9 ||| 7)

theorem twoNames_starts : Starts twoNames sharedRole 5 := by
  have hentry : UserEntry sharedRole 5 [0, 0, 0] 1 (pageWord 9 ||| 7) :=
    userEntry_leaf rfl (by decide) (by decide)
  have hroles : Roles twoNames sharedRole :=
    (sharedPage_roles.writeUser (S := fun _ => False) (t := 8) rfl
      (fun hnil => absurd hnil (by simp)) (Or.inr hentry)).1
  have hchild : ∀ t, t ≠ 8 → ∀ i, twoNames.child t i = sharedPage.child t i := fun t ht i =>
    child_congr (write_mem_of_ne sharedPage _ (Or.inl ht))
  refine ⟨hroles, rfl, rfl, fun k f hf => ?_⟩
  have hlast := (shared_walk hchild hf).2
  by_cases hpt : k.pt = 1
  · rw [hpt, show twoNames.child 8 1 = some 9 by decide +kernel] at hlast
    rcases Option.some_inj.1 hlast with rfl
    exact sharedPage_nine
  · rw [show twoNames.child 8 k.pt = sharedPage.child 8 k.pt from
      child_congr (write_mem_of_ne sharedPage _ (Or.inr hpt)),
      (sharedPage_child k.pt).2.2.2] at hlast
    split_ifs at hlast
    rcases Option.some_inj.1 hlast with rfl
    exact sharedPage_nine

/-- The child writes through one of the two names, and reads the old byte through the other. -/
theorem not_userStep_refines : Starts twoNames sharedRole 5 ∧ ∃ s memories,
    Run userStep (UserAllowed (twoNames.walk 5)) ⟨twoNames, [5]⟩ [.fork 0, .write 1 0 0xab] s ∧
      Run (eagerStep (twoNames.walk 5)) (fun _ _ => True) [twoNames.mem] [.fork 0, .write 1 0 0xab]
        memories ∧
      userRead s 1 0x1000 ≠ eagerRead (twoNames.walk 5) memories 1 0x1000 := by
  have hreplay : (replay userStep (UserAllowed (twoNames.walk 5)) [.fork 0, .write 1 0 0xab]
      ⟨twoNames, [5]⟩).map (fun s => userRead s 1 0x1000) = some (some 0) := by
    decide +kernel
  have heager : (replay (eagerStep (twoNames.walk 5)) (fun _ _ => True) [.fork 0, .write 1 0 0xab]
      [twoNames.mem]).map (fun memories => eagerRead (twoNames.walk 5) memories 1 0x1000) =
        some (some 0xab) := by
    decide +kernel
  rcases Option.map_eq_some_iff.1 hreplay with ⟨s, hs, hread⟩
  rcases Option.map_eq_some_iff.1 heager with ⟨memories, hmemories, hexpected⟩
  refine ⟨twoNames_starts, s, memories, run_of_replay hs, run_of_replay hmemories, ?_⟩
  rw [hread, hexpected]
  decide

end Paging

end OswpKernel
