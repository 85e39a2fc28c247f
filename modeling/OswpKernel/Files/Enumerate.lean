import OswpKernel.Files.CloseDir

/-!
# Enumerate — reading a directory to its end (`fs.c`)

`do_opendir` copies the entries of a directory, `do_readdir` marks in the copy how far it has come,
but compares with the number of entries that the directory has by then, and nothing ends the copy.
A program (`ps`) calls `do_readdir` until it gets NULL, and then `do_closedir`; other processes run
in between.  `enumerates_iff` says when that program sees every entry once and gets its descriptor
slot back.
-/

namespace OswpKernel

namespace Files

open Caller

/-! ## What an enumeration is for -/

/-- The calls of `do_readdir` from the `j`-th on return the entries and then NULL, and `do_closedir`
empties the slot.  `tree k` is what the kernel has come to before the `k`-th call. -/
def Yields (tree : Nat → FileSystem) (dir : Nat) (slot : Fin 25) :
    List Dirent → Nat → Caller → Prop
  | [], j, s => ∃ s', Caller.doReaddir { s with files := tree j } dir = some (none, s') ∧
      ∃ r s'', Caller.doClosedir { s' with files := tree (j + 1) } dir = some (r, s'') ∧
        s''.files.fileDescriptors slot = none
  | e :: es, j, s => ∃ entry s',
      Caller.doReaddir { s with files := tree j } dir = some (some entry, s') ∧
        DirentAt s'.heap entry { e with dNo := 1 } ∧ Yields tree dir slot es (j + 1) s'

/-- `do_opendir` takes a slot, and what follows returns each entry that the directory had. -/
def Enumerates (s : Caller) (subName : Bytes.Memory) (dirname : List UInt8) (item : Tnode)
    (tree : Nat → FileSystem) : Prop :=
  ∃ dirptr s₁ slot, s.doOpendir subName dirname = some (dirptr, s₁) ∧
    s.files.fileDescriptors slot = none ∧ s₁.files.fileDescriptors slot ≠ none ∧
    Yields tree dirptr slot (s.files.dirEntries (BitVec.ofNat 32 slot) item) 0 s₁

/-- No `DIR` from the `n`-th to the one before the `i`-th is unread, and the `i`-th is. -/
structure FirstUnread (heap : LocalArray) (dir n i : Nat) : Prop where
  le : n ≤ i
  marked : ∀ k, n ≤ k → k < i → heap.getInt (dir + 48 * k + 28) = some 1
  unread : ∃ dNo, heap.getInt (dir + 48 * i + 28) = some dNo ∧ dNo ≠ 1

/-- What it takes: names that are not empty, as many entries in the directory at each call as have
been returned by then and one more, and behind the array bytes that end both loops. -/
structure ReadsWhole (s : Caller) (item : Tnode) (slot : Fin 25) (block : Nat)
    (tree : Nat → FileSystem) : Prop where
  opens : OpensDir s item slot block
  names : [] ∉ s.files.dirNames item
  empty : s.files.totalfiles item = 0 →
    s.heap.getInt (16 * block + 32) = some (BitVec.ofNat 32 slot)
  counts : ∀ j, j < s.files.totalfiles item → j < (tree j).totalfiles item
  last : ∃ i, FirstUnread s.heap (16 * block) (s.files.totalfiles item) i ∧
    ((tree (s.files.totalfiles item)).totalfiles item ≤ i ∨
      s.heap.get (16 * block + 48 * i) = some 0)
  ends : ∃ i, s.files.totalfiles item ≤ i ∧ s.heap.get (16 * block + 48 * i) = some 0

variable {heap heap₀ heap' : LocalArray} {dir i j k m n fuel : Nat} {s s' : Caller} {slot : Fin 25}
  {entries : List Dirent} {e : Dirent} {dNo fd : BitVec 32} {node item : Tnode}
  {tree : Nat → FileSystem}

/-! ## The scan over the marks -/

theorem firstUnread_eq (h : FirstUnread heap dir i m) (hfuel : m < i + fuel) :
    firstUnread heap dir fuel i = some m := by
  induction fuel generalizing i with
  | zero => exact absurd h.le (Nat.not_le_of_lt hfuel)
  | succ fuel ih =>
      rw [firstUnread]
      rcases Nat.lt_or_eq_of_le h.le with hlt | rfl
      · rw [h.marked i le_rfl hlt, Option.bind_eq_bind, Option.bind_some, if_pos rfl]
        exact ih ⟨hlt, fun k hk => h.marked k (Nat.le_of_succ_le hk), h.unread⟩ (by omega)
      · obtain ⟨dNo, hdNo, hne⟩ := h.unread
        rw [hdNo, Option.bind_eq_bind, Option.bind_some, if_neg hne]
        rfl

theorem firstUnread_some (h : firstUnread heap dir fuel i = some m) :
    FirstUnread heap dir i m := by
  induction fuel generalizing i with
  | zero => cases h
  | succ fuel ih =>
      obtain ⟨dNo, hdNo, h⟩ := Option.bind_eq_some_iff.1 h
      by_cases hmarked : dNo = 1
      · rw [if_pos hmarked] at h
        have hrest := ih h
        refine ⟨Nat.le_of_succ_le hrest.le, fun k hk hkm => ?_, hrest.unread⟩
        rcases Nat.lt_or_eq_of_le hk with hlt | rfl
        · exact hrest.marked k hlt hkm
        · rw [hdNo, hmarked]
      · rw [if_neg hmarked] at h
        obtain rfl := Option.some_inj.1 h
        exact ⟨le_rfl, fun k hk hkm => absurd hkm (Nat.not_lt_of_le hk), dNo, hdNo, hmarked⟩

/-- With the size of the heap as fuel the scan comes to every entry of it. -/
theorem firstUnread_iff : firstUnread heap dir heap.size 0 = some m ↔ FirstUnread heap dir 0 m := by
  refine ⟨firstUnread_some, fun h => firstUnread_eq h ?_⟩
  obtain ⟨dNo, hdNo, -⟩ := h.unread
  have hroom := LocalArray.getInt_room hdNo
  omega

/-! ## One call of `do_readdir` -/

/-- The array of `entries`, the first `j` of them returned, in a heap that was `heap₀`. -/
structure Marked (heap₀ : LocalArray) (dir : Nat) (entries : List Dirent) (j : Nat)
    (heap : LocalArray) : Prop where
  writes : heap₀.Writes heap dir (dir + 48 * entries.length)
  entries : ∀ i e, entries[i]? = some e →
    DirentAt heap (dir + 48 * i) { e with dNo := if i < j then 1 else 0 }

theorem Marked.firstUnread (h : Marked heap₀ dir entries j heap) (he : entries[j]? = some e) :
    FirstUnread heap dir 0 j := by
  refine ⟨Nat.zero_le _, fun k _ hk => ?_, 0, ?_, by decide⟩
  · have hlt : k < entries.length := hk.trans (List.getElem?_eq_some_iff.1 he).1
    have hat := (h.entries k _ (List.getElem?_eq_getElem hlt)).getDNo
    rwa [if_pos hk] at hat
  · have hat := (h.entries j e he).getDNo
    rwa [if_neg (Nat.lt_irrefl j)] at hat

/-- The entry is marked, and no other. -/
theorem Marked.next (h : Marked heap₀ dir entries j heap) (he : entries[j]? = some e) :
    ∃ heap', heap.putInt (dir + 48 * j + 28) 1 = some heap' ∧
      DirentAt heap' (dir + 48 * j) { e with dNo := 1 } ∧
      Marked heap₀ dir entries (j + 1) heap' := by
  have hlt := (List.getElem?_eq_some_iff.1 he).1
  obtain ⟨heap', hput, hwrites, hat⟩ := (h.entries j e he).putDNo 1
  refine ⟨heap', hput, hat, h.writes.trans (hwrites.mono (by omega) (by omega)), fun i e' he' => ?_⟩
  -- the entry itself, and those on its two sides, which the write does not reach
  rcases lt_trichotomy i j with hij | rfl | hij
  · have hbefore := h.entries i e' he'
    rw [if_pos hij] at hbefore
    rw [if_pos (Nat.lt_succ_of_lt hij)]
    exact hbefore.frame hwrites (Or.inl (by omega))
  · rw [if_pos (Nat.lt_succ_self i)]
    rw [he] at he'
    exact Option.some_inj.1 he' ▸ hat
  · have hbefore := h.entries i e' he'
    rw [if_neg (Nat.not_lt_of_lt hij)] at hbefore
    rw [if_neg (Nat.not_lt_of_le hij)]
    exact hbefore.frame hwrites (Or.inr (by omega))

/-- `do_readdir`, once the scan has found its entry. -/
theorem doReaddir_eq (hfd : s.heap.getInt (dir + 32) = some fd)
    (hnode : s.files.descriptor fd = some node) (hfirst : FirstUnread s.heap dir 0 i) :
    s.doReaddir dir =
      if i < s.files.totalfiles node then
        (s.heap.string (dir + 48 * i)).bind fun dName =>
          if 0 < dName.length then
            (s.heap.putInt (dir + 48 * i + 28) 1).map fun heap =>
              (some (dir + 48 * i), { s with heap })
          else some (none, s)
      else some (none, s) := by
  rw [Caller.doReaddir, hfd, Option.bind_eq_bind, Option.bind_some, hnode, Option.bind_eq_bind,
    Option.bind_some, firstUnread_iff.2 hfirst, Option.bind_eq_bind, Option.bind_some]
  refine if_congr Iff.rfl ?_ rfl
  refine congrArg _ (funext fun dName => if_congr Iff.rfl ?_ rfl)
  exact Option.map_eq_bind.symm

/-- With an entry left, it is that one which is returned, if the directory still has as many and
the name is not empty. -/
theorem doReaddir_left (h : Marked heap₀ dir entries j s.heap) (he : entries[j]? = some e)
    (hfd : s.heap.getInt (dir + 32) = some fd) (hnode : s.files.descriptor fd = some node) :
    s.doReaddir dir =
      if j < s.files.totalfiles node ∧ e.dName ≠ [] then
        (s.heap.putInt (dir + 48 * j + 28) 1).map fun heap =>
          (some (dir + 48 * j), { s with heap })
      else some (none, s) := by
  have hstring : s.heap.string (dir + 48 * j) = some e.dName := (h.entries j e he).string
  rw [doReaddir_eq hfd hnode (h.firstUnread he), hstring, Option.bind_some, ite_and]
  refine if_congr Iff.rfl (if_congr ?_ rfl rfl) rfl
  exact List.length_pos_iff

/-- What `do_readdir` has come to when it returns NULL. -/
theorem doReaddir_null (h : s.doReaddir dir = some (none, s')) :
    s' = s ∧ ∃ fd node i, s.heap.getInt (dir + 32) = some fd ∧
      s.files.descriptor fd = some node ∧ FirstUnread s.heap dir 0 i ∧
      (s.files.totalfiles node ≤ i ∨ s.heap.get (dir + 48 * i) = some 0) := by
  obtain ⟨fd, hfd, hrest⟩ := Option.bind_eq_some_iff.1 h
  obtain ⟨node, hnode, hrest⟩ := Option.bind_eq_some_iff.1 hrest
  obtain ⟨i, hscan, -⟩ := Option.bind_eq_some_iff.1 hrest
  have hfirst := firstUnread_some hscan
  rw [doReaddir_eq hfd hnode hfirst] at h
  -- NULL has two reasons: the count, and a name that is empty
  by_cases hcount : i < s.files.totalfiles node
  · rw [if_pos hcount] at h
    obtain ⟨dName, hstring, h⟩ := Option.bind_eq_some_iff.1 h
    by_cases hlen : 0 < dName.length
    · rw [if_pos hlen] at h
      obtain ⟨heap', -, heq⟩ := Option.map_eq_some_iff.1 h
      cases (Prod.mk.inj heq).1
    · rw [if_neg hlen] at h
      have hnul : s.heap.get (dir + 48 * i) = some 0 :=
        not_not.1 fun hne => hlen ((string_nonempty_iff hstring).2 hne)
      exact ⟨(Prod.mk.inj (Option.some_inj.1 h)).2.symm, fd, node, i, hfd, hnode, hfirst,
        Or.inr hnul⟩
  · rw [if_neg hcount] at h
    exact ⟨(Prod.mk.inj (Option.some_inj.1 h)).2.symm, fd, node, i, hfd, hnode, hfirst,
      Or.inl (Nat.le_of_not_lt hcount)⟩

/-! ## The last call -/

/-- The scan from the start comes to where the scan from the end of the array comes to. -/
theorem Marked.firstUnread_iff (h : Marked heap₀ dir entries entries.length heap) :
    FirstUnread heap dir 0 i ↔ FirstUnread heap₀ dir entries.length i := by
  -- every entry of the array is marked, and behind it the heap is as it was
  have hinside : ∀ k, k < entries.length → heap.getInt (dir + 48 * k + 28) = some 1 := by
    intro k hk
    have hat := (h.entries k _ (List.getElem?_eq_getElem hk)).getDNo
    rwa [if_pos hk] at hat
  have hbehind : ∀ k, entries.length ≤ k →
      heap.getInt (dir + 48 * k + 28) = heap₀.getInt (dir + 48 * k + 28) :=
    fun k hk => h.writes.getInt_above (by omega)
  constructor
  · rintro ⟨-, hmarked, dNo, hdNo, hne⟩
    have hle : entries.length ≤ i := by
      by_contra hlt
      rw [hinside i (Nat.lt_of_not_le hlt)] at hdNo
      exact hne (Option.some_inj.1 hdNo).symm
    refine ⟨hle, fun k hk hki => ?_, dNo, ?_, hne⟩
    · rw [← hbehind k hk]
      exact hmarked k (Nat.zero_le k) hki
    · rw [← hbehind i hle]
      exact hdNo
  · rintro ⟨hle, hmarked, dNo, hdNo, hne⟩
    refine ⟨Nat.zero_le i, fun k _ hki => ?_, dNo, ?_, hne⟩
    · by_cases hk : k < entries.length
      · exact hinside k hk
      · rw [hbehind k (Nat.le_of_not_lt hk)]
        exact hmarked k (Nat.le_of_not_lt hk) hki
    · rw [hbehind i hle]
      exact hdNo

/-- An empty name can only be behind the array. -/
theorem Marked.get_iff (h : Marked heap₀ dir entries j heap)
    (hnames : ∀ e ∈ entries, e.dName ≠ []) :
    heap.get (dir + 48 * i) = some 0 ↔
      entries.length ≤ i ∧ heap₀.get (dir + 48 * i) = some 0 := by
  by_cases hi : i < entries.length
  · have hat := h.entries i _ (List.getElem?_eq_getElem hi)
    have hname : entries[i].dName ≠ [] := hnames _ (List.getElem_mem hi)
    rw [hat.get_eq_iff]
    exact iff_of_false hname fun hboth => Nat.not_le_of_lt hi hboth.1
  · have hle := Nat.le_of_not_lt hi
    rw [h.writes.get_above (by omega), and_iff_right hle]

/-- NULL is returned if the scan ends, and there is no entry left in the directory or no name. -/
theorem doReaddir_null_iff (s' : Caller) (h : Marked heap₀ dir entries entries.length s.heap)
    (hnames : ∀ e ∈ entries, e.dName ≠ [])
    (hfd : s.heap.getInt (dir + 32) = some fd) (hnode : s.files.descriptor fd = some node) :
    s.doReaddir dir = some (none, s') ↔ s' = s ∧ ∃ i, FirstUnread heap₀ dir entries.length i ∧
      (s.files.totalfiles node ≤ i ∨ heap₀.get (dir + 48 * i) = some 0) := by
  constructor
  · intro hcall
    obtain ⟨hsame, fd', node', i, hfd', hnode', hfirst, hend⟩ := doReaddir_null hcall
    rw [hfd] at hfd'
    obtain rfl := Option.some_inj.1 hfd'
    rw [hnode] at hnode'
    obtain rfl := Option.some_inj.1 hnode'
    exact ⟨hsame, i, h.firstUnread_iff.1 hfirst,
      hend.imp_right fun hnul => ((h.get_iff hnames).1 hnul).2⟩
  · rintro ⟨rfl, i, hfirst, hend⟩
    rw [doReaddir_eq hfd hnode (h.firstUnread_iff.2 hfirst)]
    by_cases hcount : i < s'.files.totalfiles node
    · have hnul := (h.get_iff hnames).2 ⟨hfirst.le, hend.resolve_left (Nat.not_le_of_lt hcount)⟩
      obtain ⟨dName, hstring⟩ := string_of_get le_rfl hnul
      have hempty : ¬ 0 < dName.length := fun hlen => (string_nonempty_iff hstring).1 hlen hnul
      rw [if_pos hcount, hstring, Option.bind_some, if_neg hempty]
    · rw [if_neg hcount]

/-- `do_closedir` comes back, with the slot empty, if there is an empty name behind the array. -/
theorem doClosedir_frees_iff (h : Marked heap₀ dir entries j s.heap)
    (hnames : ∀ e ∈ entries, e.dName ≠ [])
    (hfd : s.heap.getInt (dir + 32) = some (BitVec.ofNat 32 slot)) :
    (∃ r s', s.doClosedir dir = some (r, s') ∧ s'.files.fileDescriptors slot = none) ↔
      ∃ i, entries.length ≤ i ∧ heap₀.get (dir + 48 * i) = some 0 := by
  rw [← exists_congr fun i => h.get_iff hnames, ← clearEntries_isSome_iff, doClosedir_eq hfd]
  constructor
  · rintro ⟨r, s', hclose, -⟩
    obtain ⟨heap', hclear, -⟩ := Option.map_eq_some_iff.1 hclose
    exact Option.isSome_of_eq_some hclear
  · intro hsome
    obtain ⟨heap', hclear⟩ := Option.isSome_iff_exists.1 hsome
    rw [hclear]
    exact ⟨_, _, rfl, Function.update_self ..⟩

/-! ## All calls -/

/-- The descriptor is read from the first entry, or from what is there instead. -/
theorem Marked.getFd (h : Marked heap₀ dir entries j heap) (hfds : ∀ e ∈ entries, e.fd = fd)
    (hempty : entries = [] → heap₀.getInt (dir + 32) = some fd) :
    heap.getInt (dir + 32) = some fd := by
  cases entries with
  | nil =>
      rw [h.writes.getInt_above (by simp)]
      exact hempty rfl
  | cons e es =>
      have hat := (h.entries 0 e rfl).getFd
      rw [← hfds e List.mem_cons_self]
      exact hat

/-- What the calls from the `j`-th on take. -/
structure YieldsFrom (tree : Nat → FileSystem) (heap₀ : LocalArray) (dir : Nat) (item : Tnode)
    (entries : List Dirent) (j : Nat) : Prop where
  names : ∀ e ∈ entries.drop j, e.dName ≠ []
  counts : ∀ i, j ≤ i → i < entries.length → i < (tree i).totalfiles item
  last : ∃ i, FirstUnread heap₀ dir entries.length i ∧
    ((tree entries.length).totalfiles item ≤ i ∨ heap₀.get (dir + 48 * i) = some 0)
  ends : ∃ i, entries.length ≤ i ∧ heap₀.get (dir + 48 * i) = some 0

theorem yieldsFrom_cons (he : entries[j]? = some e) :
    YieldsFrom tree heap₀ dir item entries j ↔
      (j < (tree j).totalfiles item ∧ e.dName ≠ []) ∧
        YieldsFrom tree heap₀ dir item entries (j + 1) := by
  obtain ⟨hj, rfl⟩ := List.getElem?_eq_some_iff.1 he
  have hdrop : entries.drop j = entries[j] :: entries.drop (j + 1) := List.drop_eq_getElem_cons hj
  constructor
  · intro h
    have hnames := List.forall_mem_cons.1 (hdrop ▸ h.names)
    exact ⟨⟨h.counts j le_rfl hj, hnames.1⟩, hnames.2,
      fun i hi => h.counts i (Nat.le_of_succ_le hi), h.last, h.ends⟩
  · rintro ⟨⟨hcount, hname⟩, h⟩
    refine ⟨hdrop ▸ List.forall_mem_cons.2 ⟨hname, h.names⟩, fun i hi hlt => ?_, h.last, h.ends⟩
    rcases Nat.lt_or_eq_of_le hi with hji | rfl
    · exact h.counts i hji hlt
    · exact hcount

/-- The two calls behind the last entry. -/
theorem yields_end_iff (hslot : ∀ k, (tree k).fileDescriptors slot = some item)
    (hfds : ∀ e ∈ entries, e.fd = BitVec.ofNat 32 slot)
    (hempty : entries = [] → heap₀.getInt (dir + 32) = some (BitVec.ofNat 32 slot))
    (hnames : ∀ e ∈ entries, e.dName ≠ [])
    (h : Marked heap₀ dir entries entries.length s.heap) :
    Yields tree dir slot [] entries.length s ↔
      YieldsFrom tree heap₀ dir item entries entries.length := by
  have hfd := h.getFd hfds hempty
  have hnode : (tree entries.length).descriptor (BitVec.ofNat 32 slot) = some item := by
    rw [descriptor_ofNat, hslot]
  have hnull := fun s' => doReaddir_null_iff (s := { s with files := tree entries.length })
    s' h hnames hfd hnode
  have hfrees := doClosedir_frees_iff (s := { s with files := tree (entries.length + 1) })
    h hnames hfd
  constructor
  · rintro ⟨s', hcall, hclose⟩
    obtain ⟨rfl, hlast⟩ := (hnull s').1 hcall
    refine ⟨?_, fun i hi hlt => absurd hlt (Nat.not_lt_of_le hi), hlast, hfrees.1 hclose⟩
    rw [List.drop_length]
    exact List.forall_mem_nil _
  · rintro ⟨-, -, hlast, hends⟩
    exact ⟨_, (hnull _).2 ⟨rfl, hlast⟩, hfrees.2 hends⟩

/-- The run, by induction on the entries that are left. -/
theorem yields_iff (hslot : ∀ k, (tree k).fileDescriptors slot = some item)
    (hfds : ∀ e ∈ entries, e.fd = BitVec.ofNat 32 slot)
    (hempty : entries = [] → heap₀.getInt (dir + 32) = some (BitVec.ofNat 32 slot))
    {rest : List Dirent} (hrest : entries.drop j = rest)
    (hbefore : ∀ e ∈ entries.take j, e.dName ≠ []) (hj : j ≤ entries.length)
    (h : Marked heap₀ dir entries j s.heap) :
    Yields tree dir slot rest j s ↔ YieldsFrom tree heap₀ dir item entries j := by
  induction rest generalizing j s with
  | nil =>
      have hall : j = entries.length := le_antisymm hj (List.drop_eq_nil_iff.1 hrest)
      subst hall
      rw [List.take_length] at hbefore
      exact yields_end_iff hslot hfds hempty hbefore h
  | cons e es ih =>
      have hfd := h.getFd hfds hempty
      have hnode : (tree j).descriptor (BitVec.ofNat 32 slot) = some item := by
        rw [descriptor_ofNat, hslot]
      have he : entries[j]? = some e := by
        rw [← List.head?_drop, hrest]
        rfl
      have hread := doReaddir_left (s := { s with files := tree j }) h he hfd hnode
      rw [yieldsFrom_cons he]
      by_cases hleft : j < (tree j).totalfiles item ∧ e.dName ≠ []
      · -- the entry is returned and marked, and the rest of the run starts from there
        obtain ⟨heap', hput, hat, hnext⟩ := h.next he
        rw [if_pos hleft, hput] at hread
        have hrest' : entries.drop (j + 1) = es := by
          rw [← List.tail_drop, hrest]
          rfl
        have hbefore' : ∀ e ∈ entries.take (j + 1), e.dName ≠ [] := by
          rw [List.take_add_one, he]
          exact List.forall_mem_append.2 ⟨hbefore, List.forall_mem_singleton.2 hleft.2⟩
        have hdone := ih (s := { s with files := tree j, heap := heap' }) hrest' hbefore'
          (List.getElem?_eq_some_iff.1 he).1 hnext
        rw [and_iff_right hleft]
        refine Iff.trans ?_ hdone
        constructor
        · rintro ⟨entry, s', hcall, -, hyields⟩
          rw [hread] at hcall
          obtain ⟨-, rfl⟩ := Prod.mk.inj (Option.some_inj.1 hcall)
          exact hyields
        · exact fun hyields => ⟨_, _, hread, hat, hyields⟩
      · rw [if_neg hleft] at hread
        refine iff_of_false ?_ fun hboth => hleft hboth.1
        rintro ⟨entry, s', hcall, -⟩
        rw [hread] at hcall
        cases (Prod.mk.inj (Option.some_inj.1 hcall)).1

/-! ## From `do_opendir` to `do_closedir` -/

variable {s₁ : Caller} {block : Nat} {subName : Bytes.Memory} {dirname : List UInt8}
  {r : BitVec 32}

theorem OpenedDir.marked (h : OpenedDir s item slot dir s₁) :
    Marked s.heap dir (s.files.dirEntries (BitVec.ofNat 32 slot) item) 0 s₁.heap := by
  refine ⟨?_, fun i e he => ?_⟩
  · rw [length_dirEntries]
    exact h.writes
  · have hdNo := (dirEntries_fields (List.mem_of_getElem? he)).2
    have hsame : { e with dNo := if i < 0 then 1 else 0 } = e := by
      rw [if_neg (Nat.not_lt_zero i), ← hdNo]
    rw [hsame]
    exact h.entries i e he

theorem dName_ne_nil_iff {fd : BitVec 32} :
    (∀ e ∈ s.files.dirEntries fd item, e.dName ≠ []) ↔ [] ∉ s.files.dirNames item := by
  rw [← map_dName_dirEntries s.files fd, List.mem_map, not_exists]
  exact forall_congr' fun e => not_and.symm

/-- If `do_closedir` has emptied a slot, it has read its number. -/
theorem doClosedir_fd (hclose : s.doClosedir dir = some (r, s'))
    (hbefore : s.files.fileDescriptors slot ≠ none)
    (hafter : s'.files.fileDescriptors slot = none) :
    s.heap.getInt (dir + 32) = some (BitVec.ofNat 32 slot) := by
  obtain ⟨fd, hfd, hrest⟩ := Option.bind_eq_some_iff.1 hclose
  cases hfind : (List.finRange 25).find? fun i : Fin 25 => BitVec.ofNat 32 i = fd with
  | none =>
      simp only [hfind] at hrest
      obtain ⟨-, rfl⟩ := Prod.mk.inj (Option.some_inj.1 hrest)
      exact absurd hafter hbefore
  | some i =>
      simp only [hfind] at hrest
      obtain ⟨heap, -, hs'⟩ := Option.bind_eq_some_iff.1 hrest
      obtain ⟨-, rfl⟩ := Prod.mk.inj (Option.some_inj.1 hs')
      have hi := List.find?_some hfind
      by_cases hi' : slot = i
      · rw [hfd, hi', of_decide_eq_true hi]
      · exact absurd ((Function.update_of_ne hi' ..).symm.trans hafter) hbefore

/-- An empty array must have the descriptor where the first entry would have it. -/
theorem yields_empty_fd (hslot : ∀ k, (tree k).fileDescriptors slot = some item)
    (h : Yields tree dir slot [] 0 s) :
    s.heap.getInt (dir + 32) = some (BitVec.ofNat 32 slot) := by
  obtain ⟨s', hcall, r, s'', hclose, hempty⟩ := h
  obtain ⟨rfl, -⟩ := doReaddir_null hcall
  have htaken : (tree 1).fileDescriptors slot ≠ none := by
    rw [hslot 1]
    exact Option.some_ne_none item
  exact doClosedir_fd (s := { s with files := tree 1 }) hclose htaken hempty

theorem OpenedDir.yields_iff (h : OpenedDir s item slot dir s₁)
    (hslot : ∀ k, (tree k).fileDescriptors slot = some item) :
    Yields tree dir slot (s.files.dirEntries (BitVec.ofNat 32 slot) item) 0 s₁ ↔
      (s.files.totalfiles item = 0 →
        s.heap.getInt (dir + 32) = some (BitVec.ofNat 32 slot)) ∧
      YieldsFrom tree s.heap dir item (s.files.dirEntries (BitVec.ofNat 32 slot) item) 0 := by
  let entries := s.files.dirEntries (BitVec.ofNat 32 slot) item
  have hlength := length_dirEntries s.files (BitVec.ofNat 32 slot) item
  have hmarked := h.marked
  have hiff : (entries = [] → s.heap.getInt (dir + 32) = some (BitVec.ofNat 32 slot)) →
      (Yields tree dir slot entries 0 s₁ ↔ YieldsFrom tree s.heap dir item entries 0) :=
    fun hempty => Files.yields_iff hslot (fun e he => (dirEntries_fields he).1) hempty rfl
      (List.forall_mem_nil _) (Nat.zero_le _) hmarked
  have hnone : s.files.totalfiles item = 0 ↔ entries = [] := by
    rw [← hlength]
    exact List.length_eq_zero_iff
  constructor
  · intro hyields
    have hempty : entries = [] → s.heap.getInt (dir + 32) = some (BitVec.ofNat 32 slot) := by
      intro hnil
      have hend : dir + 48 * entries.length ≤ dir + 32 := by
        rw [hnil]
        exact Nat.le_add_right dir 32
      rw [← hmarked.writes.getInt_above hend]
      exact yields_empty_fd hslot (hnil ▸ hyields)
    exact ⟨fun hzero => hempty (hnone.1 hzero), (hiff hempty).1 hyields⟩
  · rintro ⟨hempty, hyields⟩
    exact (hiff fun hnil => hempty (hnone.2 hnil)).2 hyields

theorem readsWhole_of_enumerates (hstrings : Strings s.files)
    (hfind : Frame.findFile s.files.heap s.files.filefsRoot subName dirname = some (some item))
    (hkept : ∀ slot, s.files.emptySlot 0 = some slot →
      ∀ k, (tree k).fileDescriptors slot = some item)
    (h : Enumerates s subName dirname item tree) :
    ∃ slot block, ReadsWhole s item slot block tree := by
  obtain ⟨dirptr, s₁, slot, hopen, hfree, htaken, hyields⟩ := h
  obtain ⟨slot', block, rfl, hopens, hopened⟩ := openedDir_of_doOpendir hstrings hfind hopen
  -- the slot that has been taken is the one that was found empty
  obtain rfl : slot = slot' := by
    by_contra hne
    rw [hopened.files] at htaken
    exact htaken ((Function.update_of_ne hne ..).trans hfree)
  obtain ⟨hempty, hrest⟩ := (hopened.yields_iff (hkept slot hopens.slot)).1 hyields
  have hlength := length_dirEntries s.files (BitVec.ofNat 32 slot) item
  refine ⟨slot, block, hopens, dName_ne_nil_iff.1 hrest.names, hempty, ?_, ?_, ?_⟩
  · exact hlength ▸ fun j hj => hrest.counts j (Nat.zero_le j) hj
  · exact hlength ▸ hrest.last
  · exact hlength ▸ hrest.ends

theorem ReadsWhole.enumerates (h : ReadsWhole s item slot block tree) (hstrings : Strings s.files)
    (hfind : Frame.findFile s.files.heap s.files.filefsRoot subName dirname = some (some item))
    (hkept : ∀ k, (tree k).fileDescriptors slot = some item) :
    Enumerates s subName dirname item tree := by
  obtain ⟨s₁, hopen, hopened⟩ := doOpendir_opened hfind hstrings h.opens
  have hlength := length_dirEntries s.files (BitVec.ofNat 32 slot) item
  refine ⟨16 * block, s₁, slot, hopen, (emptySlot_eq_some h.opens.slot).2, ?_, ?_⟩
  · have htaken : s₁.files.fileDescriptors slot = some item := by
      rw [hopened.files]
      exact Function.update_self ..
    rw [htaken]
    exact Option.some_ne_none item
  · refine (hopened.yields_iff hkept).2 ⟨h.empty, ?_, ?_, ?_, ?_⟩
    · exact dName_ne_nil_iff.2 h.names
    · intro i _ hi
      exact h.counts i (hi.trans_eq hlength)
    · rw [hlength]
      exact h.last
    · rw [hlength]
      exact h.ends

/-- A program sees every entry of a directory once, and its slot is empty again, just if
`ReadsWhole`. -/
theorem enumerates_iff (hstrings : Strings s.files)
    (hfind : Frame.findFile s.files.heap s.files.filefsRoot subName dirname = some (some item))
    (hkept : ∀ slot, s.files.emptySlot 0 = some slot →
      ∀ k, (tree k).fileDescriptors slot = some item) :
    Enumerates s subName dirname item tree ↔ ∃ slot block, ReadsWhole s item slot block tree := by
  refine ⟨readsWhole_of_enumerates hstrings hfind hkept, ?_⟩
  rintro ⟨slot, block, h⟩
  exact h.enumerates hstrings hfind (hkept slot h.opens.slot)

/-! ## A directory with one file -/

/-- The tree of `dirCaller` with the directory open. -/
def openTree : FileSystem := (dirCaller 0).files.setSlot 0 (some ⟨[98, 47], 0, 1⟩)

theorem emptySlot_dirCaller (h : (dirCaller 0).files.emptySlot 0 = some slot) : slot = 0 := by
  have hzero : (dirCaller 0).files.emptySlot 0 = some 0 := rfl
  rw [hzero] at h
  exact (Option.some_inj.1 h).symm

theorem readsWhole_dirCaller :
    ReadsWhole (dirCaller 0) ⟨[98, 47], 0, 1⟩ 0 248 fun _ => openTree := by
  have hmalloc : ((dirCaller 0).arena.doMalloc (BitVec.ofNat 64
      ((dirCaller 0).files.totalfiles ⟨[98, 47], 0, 1⟩ * 48))).map Prod.fst = some 248 := by
    decide +kernel
  obtain ⟨⟨block, arena⟩, hmalloc, rfl⟩ := Option.map_eq_some_iff.1 hmalloc
  refine ⟨⟨rfl, ⟨arena, hmalloc⟩, Or.inr (by decide), List.forall_mem_nil _, ?_⟩, by decide,
    fun hnone => absurd hnone (by decide), fun j hj => hj, ⟨1, ⟨le_rfl, ?_, 0, rfl, by decide⟩,
      Or.inl le_rfl⟩, 1, le_rfl, rfl⟩
  · exact List.forall_mem_singleton.2 ⟨by decide, fun hlink => absurd rfl hlink⟩
  · exact fun k hk hk1 => absurd hk1 (Nat.not_lt_of_le hk)

theorem enumerates_dirCaller :
    Enumerates (dirCaller 0) (fun _ => 0) [47, 98, 47] ⟨[98, 47], 0, 1⟩ fun _ => openTree :=
  (enumerates_iff (strings_dirCaller 0) (findFile_dirCaller 0)
    fun _ hslot _ => emptySlot_dirCaller hslot ▸ rfl).2 ⟨0, 248, readsWhole_dirCaller⟩

/-- The file is gone before the first call of `do_readdir`. -/
def unlinkedTree : FileSystem :=
  { openTree with
    heap := openTree.heap.setInode 1 { openTree.heap.inodes 1 with subFilesList := [] } }

/-- Then the entry that `do_opendir` has copied is never returned. -/
theorem not_enumerates :
    ¬ Enumerates (dirCaller 0) (fun _ => 0) [47, 98, 47] ⟨[98, 47], 0, 1⟩
      fun _ => unlinkedTree := by
  intro h
  obtain ⟨slot, block, hreads⟩ := readsWhole_of_enumerates (strings_dirCaller 0)
    (findFile_dirCaller 0) (fun _ hslot _ => emptySlot_dirCaller hslot ▸ rfl) h
  exact absurd (hreads.counts 0 (by decide)) (by decide)

end Files

end OswpKernel
