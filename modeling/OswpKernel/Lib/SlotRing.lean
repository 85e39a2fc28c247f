import Mathlib.Data.List.Rotate
import Mathlib.Data.List.Nodup

/-!
# SlotRing — a ring of slots whose first `free` slots are filled

Taking `n` items rotates the ring by `n` slots and leaves them behind as empty slots; putting an
item back fills the first empty slot.  Seen from outside the ring is a FIFO queue: `contents`
loses its first `n` items by a `take` and gains one item at its end by a `put`.
-/

structure SlotRing (α : Type*) where
  slots : List α
  free : Nat
  free_le : free ≤ slots.length

namespace SlotRing

variable {α : Type*} (r : SlotRing α)

/-- The filled slots, first out first. -/
def contents : List α := r.slots.take r.free

/-- Take the first `n` items out. -/
def take (n : Nat) : SlotRing α where
  slots := r.slots.rotate n
  free := r.free - n
  free_le := by
    rw [List.length_rotate]
    exact (Nat.sub_le _ _).trans r.free_le

/-- Put one item into the first empty slot. -/
def put (x : α) (h : r.free < r.slots.length) : SlotRing α where
  slots := r.slots.set r.free x
  free := r.free + 1
  free_le := by
    rw [List.length_set]
    exact h

@[simp] theorem length_contents : r.contents.length = r.free := by
  rw [contents, List.length_take, Nat.min_eq_left r.free_le]

@[simp] theorem take_slots (n : Nat) : (r.take n).slots = r.slots.rotate n := rfl

@[simp] theorem take_free (n : Nat) : (r.take n).free = r.free - n := rfl

@[simp] theorem put_slots (x : α) (h : r.free < r.slots.length) :
    (r.put x h).slots = r.slots.set r.free x := rfl

@[simp] theorem put_free (x : α) (h : r.free < r.slots.length) :
    (r.put x h).free = r.free + 1 := rfl

theorem take_zero : r.take 0 = r := by
  cases r
  simp [take]

theorem take_take (m n : Nat) : (r.take m).take n = r.take (m + n) := by
  simp [take, List.rotate_rotate, Nat.sub_sub]

theorem contents_take {n : Nat} (hn : n ≤ r.free) :
    (r.take n).contents = r.contents.drop n := by
  have hlen : n ≤ r.slots.length := hn.trans r.free_le
  have hshort : r.free - n ≤ (r.slots.drop n).length := by
    have := r.free_le
    simp only [List.length_drop]
    omega
  simp only [contents, take_slots, take_free, List.rotate_eq_drop_append_take hlen,
    List.take_append_of_le_length hshort, List.drop_take]

theorem contents_put (x : α) (h : r.free < r.slots.length) :
    (r.put x h).contents = r.contents ++ [x] := by
  simp only [contents, put_slots, put_free]
  rw [List.take_succ_eq_append_getElem (by simpa using h)]
  simp [List.take_set_of_le]

/-- What a `take` of `n` items removes: the first `n` items. -/
theorem contents_eq_take_append {n : Nat} (hn : n ≤ r.free) :
    r.contents = r.contents.take n ++ (r.take n).contents := by
  rw [contents_take r hn, List.take_append_drop]

end SlotRing
