import Mathlib.Data.List.Nodup
import Mathlib.Data.List.Basic

/-!
# Chain — singly linked chains in a heap of nodes

A heap of nodes is seen here only through its link map `next : α → Option α`, where `none` is the
null link.  `Seg next p xs q` says that the walk from the link `p` visits exactly the nodes `xs`,
in order, and arrives at the link `q`; a null-terminated chain is a segment that arrives at `none`.

The rules below are the ones a program on such chains needs: splitting and joining segments,
framing (a write elsewhere leaves a segment alone), and what the usual relinkings do to the list
of visited nodes.  `behind` and `insertAfter` are the list side of the usual relinkings.
-/

namespace Chain

variable {α : Type*} {next next' : α → Option α} {p q r : Option α} {xs ys : List α} {a b : α}

/-- The walk from the link `p` visits exactly `xs` and arrives at the link `q`. -/
def Seg (next : α → Option α) : Option α → List α → Option α → Prop
  | p, [], q => p = q
  | p, x :: xs, q => p = some x ∧ Seg next (next x) xs q

@[simp] theorem seg_nil : Seg next p [] q ↔ p = q := Iff.rfl

@[simp] theorem seg_cons : Seg next p (a :: xs) q ↔ p = some a ∧ Seg next (next a) xs q := Iff.rfl

/-- The nodes visited by following links, at most `fuel` of them. -/
def follow (next : α → Option α) : Nat → Option α → List α
  | 0, _ => []
  | _ + 1, none => []
  | fuel + 1, some x => x :: follow next fuel (next x)

/-- The entries behind the first occurrence of `a`. -/
def behind [DecidableEq α] (a : α) : List α → List α
  | [] => []
  | x :: xs => if x = a then xs else behind a xs

/-- `b` put in right behind the first occurrence of `a`. -/
def insertAfter [DecidableEq α] (a b : α) : List α → List α
  | [] => []
  | x :: xs => if x = a then x :: b :: xs else x :: insertAfter a b xs

/-! ## Splitting and joining -/

theorem seg_append : Seg next p (xs ++ ys) q ↔ ∃ r, Seg next p xs r ∧ Seg next r ys q := by
  induction xs generalizing p with
  | nil => simp
  | cons x xs ih => simp [ih, and_assoc]

theorem seg_snoc : Seg next p (xs ++ [a]) q ↔ Seg next p xs (some a) ∧ next a = q := by
  simp [seg_append]

theorem Seg.start_of_cons (h : Seg next p (a :: xs) q) : p = some a := h.1

/-- A null-terminated chain is determined by the link it starts from. -/
theorem Seg.unique (hx : Seg next p xs none) (hy : Seg next p ys none) : xs = ys := by
  induction xs generalizing p ys with
  | nil =>
      cases ys with
      | nil => rfl
      | cons y ys => simp_all
  | cons x xs ih =>
      cases ys with
      | nil => simp_all
      | cons y ys =>
          obtain ⟨rfl, hx⟩ := hx
          obtain ⟨hxy, hy⟩ := hy
          cases hxy
          rw [ih hx hy]

/-- So is a segment whose length is known. -/
theorem Seg.eq_of_length (hx : Seg next p xs q) (hy : Seg next p ys r)
    (hlen : xs.length = ys.length) : xs = ys := by
  induction xs generalizing p ys with
  | nil => rw [List.eq_nil_of_length_eq_zero hlen.symm]
  | cons x xs ih =>
      cases ys with
      | nil => cases hlen
      | cons y ys =>
          obtain ⟨rfl, hx⟩ := hx
          obtain ⟨hxy, hy⟩ := hy
          cases hxy
          rw [ih hx hy (Nat.succ.inj hlen)]

/-- What `follow` returns on a chain it can walk to the end. -/
theorem Seg.follow_eq {fuel : Nat} (h : Seg next p xs none) (hlen : xs.length ≤ fuel) :
    follow next fuel p = xs := by
  induction xs generalizing p fuel with
  | nil =>
      cases h
      cases fuel <;> rfl
  | cons x xs ih =>
      obtain ⟨rfl, h⟩ := h
      cases fuel with
      | zero => simp at hlen
      | succ fuel => simp [follow, ih h (by simpa using hlen)]

/-- `follow` with little fuel returns the first nodes of the chain. -/
theorem Seg.follow_take {fuel : Nat} (h : Seg next p xs none) :
    follow next fuel p = xs.take fuel := by
  induction xs generalizing p fuel with
  | nil =>
      cases h
      cases fuel <;> rfl
  | cons x xs ih =>
      obtain ⟨rfl, h⟩ := h
      cases fuel with
      | zero => rfl
      | succ fuel => simp [follow, ih h]

/-- On a null-terminated chain every link leads to the node at the next position. -/
theorem Seg.next_getElem {i : Nat} (h : Seg next p xs none) (hi : i < xs.length) :
    next xs[i] = xs[i + 1]? := by
  induction xs generalizing p i with
  | nil => simp at hi
  | cons x xs ih =>
      obtain ⟨rfl, h⟩ := h
      cases i with
      | succ i => simpa using ih h (by simpa using hi)
      | zero =>
          cases xs with
          | nil => simpa using h
          | cons y ys => simpa using h.1

/-- The last node of a null-terminated chain has a null link. -/
theorem Seg.next_getLast (h : Seg next p xs none) (hlast : xs.getLast? = some a) :
    next a = none := by
  obtain ⟨ys, rfl⟩ := List.getLast?_eq_some_iff.1 hlast
  exact (seg_snoc.1 h).2

/-- A null-terminated chain visits no node twice: the walk from both visits would be the same. -/
theorem Seg.nodup (h : Seg next p xs none) : xs.Nodup := by
  induction xs generalizing p with
  | nil => exact List.nodup_nil
  | cons x xs ih =>
      refine List.nodup_cons.2 ⟨fun hx => ?_, ih h.2⟩
      obtain ⟨ys, zs, hsplit⟩ := List.append_of_mem hx
      have htail : Seg next (next x) (ys ++ x :: zs) none := hsplit ▸ h.2
      obtain ⟨r, -, hagain⟩ := seg_append.1 htail
      have hback : Seg next (next x) zs none := hagain.2
      have heq : ys ++ x :: zs = zs := htail.unique hback
      have hlen := congrArg List.length heq
      simp only [List.length_append, List.length_cons] at hlen
      omega

/-! ## Framing -/

/-- A segment only depends on the links of the nodes it visits. -/
theorem Seg.congr (h : Seg next p xs q) (hagree : ∀ x ∈ xs, next' x = next x) :
    Seg next' p xs q := by
  induction xs generalizing p with
  | nil => exact h
  | cons x xs ih =>
      obtain ⟨rfl, h⟩ := h
      refine ⟨rfl, ?_⟩
      rw [hagree x (by simp)]
      exact ih h fun y hy => hagree y (by simp [hy])

/-! ## Relinking -/

/-- Redirecting the last link of a non-empty segment. -/
theorem Seg.redirect (h : Seg next p (xs ++ [a]) q) (hlink : next' a = r)
    (hrest : ∀ x ∈ xs, next' x = next x) : Seg next' p (xs ++ [a]) r := by
  rw [seg_snoc] at h ⊢
  exact ⟨h.1.congr hrest, hlink⟩

/-- Linking a new node `b` in behind `a`; from `b` on the walk visits some of the nodes that were
behind `a`. -/
theorem Seg.relink_after {zs : List α} (h : Seg next p (xs ++ a :: zs) q)
    (hnd : (xs ++ a :: zs).Nodup) (hb : b ∉ xs ++ a :: zs) (ha' : next' a = some b)
    (hsub : ys.Sublist zs) (hback : Seg next (next' b) ys q)
    (hrest : ∀ x, x ≠ a → x ≠ b → next' x = next x) : Seg next' p (xs ++ a :: b :: ys) q := by
  obtain ⟨r, hxs, rfl, -⟩ := seg_append.1 h
  obtain ⟨-, htail, hsep⟩ := List.nodup_append.1 hnd
  obtain ⟨ha, -⟩ := List.nodup_cons.1 htail
  -- the nodes in front of `a` and those that stay behind it keep their links
  have hfront : ∀ x ∈ xs, next' x = next x := by
    intro x hx
    apply hrest
    · exact fun heq => hsep x hx a List.mem_cons_self heq
    · exact fun heq => hb (heq ▸ List.mem_append_left _ hx)
  have hbehind : ∀ x ∈ ys, next' x = next x := by
    intro x hx
    have hmem : x ∈ zs := hsub.subset hx
    apply hrest
    · exact fun heq => ha (heq ▸ hmem)
    · exact fun heq => hb (heq ▸ List.mem_append_right _ (List.mem_cons_of_mem _ hmem))
  exact seg_append.2 ⟨some a, hxs.congr hfront, rfl, ha', hback.congr hbehind⟩

/-- Linking a new node `b` in right behind `a`. -/
theorem Seg.insert_after (h : Seg next p (xs ++ a :: ys) q) (hnd : (xs ++ a :: ys).Nodup)
    (hb : b ∉ xs ++ a :: ys) (ha' : next' a = some b) (hb' : next' b = next a)
    (hrest : ∀ x, x ≠ a → x ≠ b → next' x = next x) :
    Seg next' p (xs ++ a :: b :: ys) q := by
  obtain ⟨r, -, -, hys⟩ := seg_append.1 h
  exact h.relink_after hnd hb ha' (List.Sublist.refl ys) (hb' ▸ hys) hrest

/-- Linking a new node `b` in behind `a`, in the place of the node `d`. -/
theorem Seg.replace_after {d : α} (h : Seg next p (xs ++ a :: d :: ys) q)
    (hnd : (xs ++ a :: d :: ys).Nodup) (hb : b ∉ xs ++ a :: d :: ys) (ha' : next' a = some b)
    (hb' : next' b = next d) (hrest : ∀ x, x ≠ a → x ≠ b → next' x = next x) :
    Seg next' p (xs ++ a :: b :: ys) q := by
  obtain ⟨r, -, -, -, hys⟩ := seg_append.1 h
  exact h.relink_after hnd hb ha' (List.sublist_cons_self d ys) (hb' ▸ hys) hrest

/-- Unlinking the node `b` that sits right behind `a`. -/
theorem Seg.remove_after (h : Seg next p (xs ++ a :: b :: ys) q)
    (hnd : (xs ++ a :: b :: ys).Nodup) (ha' : next' a = next b)
    (hrest : ∀ x, x ≠ a → x ≠ b → next' x = next x) : Seg next' p (xs ++ a :: ys) q := by
  obtain ⟨r, hxs, rfl, -, hys⟩ := seg_append.1 h
  obtain ⟨-, htail, hsep⟩ := List.nodup_append.1 hnd
  obtain ⟨hab, htail⟩ := List.nodup_cons.1 htail
  obtain ⟨hb, -⟩ := List.nodup_cons.1 htail
  refine seg_append.2 ⟨some a, hxs.congr fun x hx => ?_, rfl, ?_⟩
  · exact hrest x (fun hxa => hsep x hx a (by simp) hxa) (fun hxb => hsep x hx b (by simp) hxb)
  · rw [ha']
    refine hys.congr fun x hx => hrest x ?_ ?_
    · rintro rfl
      exact hab (by simp [hx])
    · rintro rfl
      exact hb hx

/-! ## The list side of relinking -/

section Lists

variable [DecidableEq α]

theorem behind_append (ha : a ∉ xs) : behind a (xs ++ a :: ys) = ys := by
  induction xs with
  | nil => simp [behind]
  | cons x xs ih =>
      simp only [List.mem_cons, not_or] at ha
      simp [behind, Ne.symm ha.1, ih ha.2]

theorem behind_of_notMem (ha : a ∉ xs) : behind a xs = [] := by
  induction xs with
  | nil => rfl
  | cons x xs ih =>
      simp only [List.mem_cons, not_or] at ha
      simp [behind, Ne.symm ha.1, ih ha.2]

theorem behind_sublist : (behind a xs).Sublist xs := by
  by_cases ha : a ∈ xs
  · obtain ⟨ys, zs, rfl, hys⟩ := List.eq_append_cons_of_mem ha
    rw [behind_append hys]
    exact (List.sublist_cons_self a zs).trans (List.sublist_append_right ys _)
  · rw [behind_of_notMem ha]
    exact List.nil_sublist xs

/-- The walk from the link of `a` visits what is behind `a`. -/
theorem Seg.behind (h : Seg next p xs none) (ha : a ∈ xs) :
    Seg next (next a) (behind a xs) none := by
  obtain ⟨ys, zs, rfl, hys⟩ := List.eq_append_cons_of_mem ha
  obtain ⟨r, -, -, htail⟩ := seg_append.1 h
  rwa [behind_append hys]

/-- Searching behind `a` first and then from the front finds the entry that follows `a` in cyclic
order, among `a` and the entries that are searched for. -/
theorem find_cyclic {found : α → Bool} {j : ℕ} (hnd : xs.Nodup) (ha : found a = false)
    (hturns : xs.filter (fun x => x = a ∨ found x) = ys) (hlen : 2 ≤ ys.length)
    (hj : ys[j]? = some a) :
    ((Chain.behind a xs).find? found).or (xs.find? found) = ys[(j + 1) % ys.length]? := by
  have hmem : a ∈ xs := by
    have hya : a ∈ ys := List.mem_of_getElem? hj
    rw [← hturns] at hya
    exact (List.mem_filter.1 hya).1
  obtain ⟨front, back, rfl, hfront⟩ := List.eq_append_cons_of_mem hmem
  have hback : a ∉ back := (List.nodup_cons.1 (List.nodup_append.1 hnd).2.1).1
  have hkeep : ∀ zs : List α, a ∉ zs →
      zs.filter (fun x => decide (x = a ∨ found x)) = zs.filter found := by
    intro zs hzs
    refine List.filter_congr fun x hx => ?_
    have hne : x ≠ a := fun heq => hzs (heq ▸ hx)
    simp [hne]
  -- `a` stands at position `j`, between the entries found in front of it and those behind it
  have hys : ys = front.filter found ++ a :: back.filter found := by
    rw [← hturns, List.filter_append, List.filter_cons_of_pos (by simp), hkeep front hfront,
      hkeep back hback]
  have hndys : ys.Nodup := hturns ▸ hnd.filter _
  have hjlt : j < ys.length := (List.getElem?_eq_some_iff.1 hj).1
  have hmid : ys[(front.filter found).length]? = some a := by simp [hys]
  have hpos : j = (front.filter found).length := by
    refine (List.getElem?_inj hjlt hndys).1 ?_
    rw [hj, hmid]
  have hfind : ∀ zs : List α, zs.find? found = (zs.filter found)[0]? := by
    intro zs
    rw [← List.head?_eq_getElem?, List.head?_filter]
  rw [behind_append hfront, hfind back]
  cases hb : back.filter found with
  | cons b bs =>
      have hlt : j + 1 < ys.length := by simp [hys, hb, hpos]
      rw [Nat.mod_eq_of_lt hlt, hys, hb, hpos]
      simp
  | nil =>
      -- nothing behind `a`: the search starts over, and so does the cyclic order
      have hlast : j + 1 = ys.length := by simp [hys, hb, hpos]
      rw [hlast, Nat.mod_self, hfind, List.filter_append,
        List.filter_cons_of_neg (by simp [ha]), hb]
      have hfrontne : front.filter found ≠ [] := by
        intro hnil
        rw [hys, hb, hnil] at hlen
        simp at hlen
      obtain ⟨f, fs, hfs⟩ := List.exists_cons_of_ne_nil hfrontne
      simp [hys, hfs]

theorem insertAfter_append (ha : a ∉ xs) :
    insertAfter a b (xs ++ a :: ys) = xs ++ a :: b :: ys := by
  induction xs with
  | nil => simp [insertAfter]
  | cons x xs ih =>
      simp only [List.mem_cons, not_or] at ha
      simp [insertAfter, Ne.symm ha.1, ih ha.2]

theorem insertAfter_perm (ha : a ∈ xs) : (insertAfter a b xs).Perm (b :: xs) := by
  obtain ⟨ys, zs, rfl, hys⟩ := List.eq_append_cons_of_mem ha
  rw [insertAfter_append hys, List.append_cons, List.append_cons ys a zs]
  exact List.perm_middle

theorem mem_insertAfter (ha : a ∈ xs) {x : α} : x ∈ insertAfter a b xs ↔ x = b ∨ x ∈ xs := by
  rw [(insertAfter_perm ha).mem_iff, List.mem_cons]

theorem behind_insertAfter (ha : a ∈ xs) : behind a (insertAfter a b xs) = b :: behind a xs := by
  rcases List.eq_append_cons_of_mem ha with ⟨ys, zs, rfl, hys⟩
  rw [insertAfter_append hys, behind_append hys, behind_append hys]

theorem head?_insertAfter : (insertAfter a b xs).head? = xs.head? := by
  cases xs with
  | nil => rfl
  | cons x xs => by_cases h : x = a <;> simp [insertAfter, h]

end Lists

end Chain
