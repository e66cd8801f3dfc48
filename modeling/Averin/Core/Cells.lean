import Mathlib.Order.Nat
import Mathlib.Tactic.SplitIfs

/-!
# Cells shared by reference

An object is a cell for each of its fields. A field is overwritten in place, and a copy takes a
field over either by a cell of its own or by the cell of the original. Objects that have no
cell in common do not see each other's writes.
-/

namespace Averin

/-- The values of all cells, by field, and the first cell that is not in use. -/
structure Cells {F : Type} (V : F → Type) where
  value : (f : F) → Nat → V f
  next : Nat

/-- An object: the cell of each field. -/
abbrev Refs (F : Type) := F → Nat

namespace Refs

variable {F : Type}

/-- The objects have no cell in common. -/
def Apart (o o' : Refs F) : Prop := ∀ f, o f ≠ o' f

/-- The cells of the object are in use. -/
def Below (o : Refs F) (n : Nat) : Prop := ∀ f, o f < n

theorem Apart.symm {o o' : Refs F} (h : o.Apart o') : o'.Apart o := fun f => (h f).symm

/-- What is below a bound is below a higher one. -/
theorem Below.mono {o : Refs F} {n m : Nat} (h : o.Below n) (hle : n ≤ m) : o.Below m :=
  fun f => (h f).trans_le hle

end Refs

namespace Cells

variable {F : Type} {V : F → Type} (c : Cells V) (o : Refs F)

/-- The fields of an object. -/
def load : (f : F) → V f := fun f => c.value f (o f)

/-- Overwrite the fields of an object in place. -/
def store (v : (f : F) → V f) : Cells V :=
  { c with value := fun f r => if r = o f then v f else c.value f r }

/-- A new object. -/
def alloc (v : (f : F) → V f) : Refs F × Cells V :=
  (fun _ => c.next,
    { value := fun f r => if r = c.next then v f else c.value f r, next := c.next + 1 })

/-- A copy of an object, with cells of its own for the fields that are cloned. -/
def copy (clones : F → Bool) : Refs F × Cells V :=
  (fun f => if clones f then c.next else o f,
    { value := fun f r => if r = c.next ∧ clones f then c.value f (o f) else c.value f r
      next := c.next + 1 })

variable {c o}

@[simp] theorem store_next (v : (f : F) → V f) : (c.store o v).next = c.next := rfl

@[simp] theorem alloc_next (v : (f : F) → V f) : (c.alloc v).2.next = c.next + 1 := rfl

@[simp] theorem copy_next (clones : F → Bool) : (c.copy o clones).2.next = c.next + 1 := rfl

theorem load_store_self (v : (f : F) → V f) : (c.store o v).load o = v := by
  funext f
  simp [load, store]

/-- A write is not seen by an object that has no cell in common with the one written. -/
theorem load_store_of_apart {o' : Refs F} (h : o'.Apart o) (v : (f : F) → V f) :
    (c.store o v).load o' = c.load o' := by
  funext f
  simp [load, store, h f]

theorem load_alloc_self (v : (f : F) → V f) : (c.alloc v).2.load (c.alloc v).1 = v := by
  funext f
  simp [load, alloc]

/-- A new object leaves those that exist alone. -/
theorem load_alloc_of_below {o' : Refs F} (h : o'.Below c.next) (v : (f : F) → V f) :
    (c.alloc v).2.load o' = c.load o' := by
  funext f
  simp [load, alloc, (h f).ne]

/-- A new object is below the next one. -/
theorem alloc_below (v : (f : F) → V f) : (c.alloc v).1.Below (c.alloc v).2.next :=
  fun _ => Nat.lt_succ_self c.next

/-- A new object shares no cell with those that exist. -/
theorem alloc_apart {o' : Refs F} (h : o'.Below c.next) (v : (f : F) → V f) :
    (c.alloc v).1.Apart o' := fun f => (h f).ne'

/-- A copy that clones every field has the values of the original. -/
theorem load_copy_self {clones : F → Bool} (hall : ∀ f, clones f = true) :
    (c.copy o clones).2.load (c.copy o clones).1 = c.load o := by
  funext f
  simp [load, copy, hall]

/-- A copy leaves the objects that exist alone. -/
theorem load_copy_of_below {o' : Refs F} (h : o'.Below c.next) (clones : F → Bool) :
    (c.copy o clones).2.load o' = c.load o' := by
  funext f
  simp [load, copy, (h f).ne]

/-- A copy of every cell is below the next object. -/
theorem copy_below {clones : F → Bool} (hall : ∀ f, clones f = true) :
    (c.copy o clones).1.Below (c.copy o clones).2.next := by
  intro f
  simp [copy, hall]

/-- A copy that clones every field shares no cell with what was there. -/
theorem copy_apart {o' : Refs F} (h : o'.Below c.next) {clones : F → Bool}
    (hall : ∀ f, clones f = true) : (c.copy o clones).1.Apart o' := by
  intro f
  simpa [copy, hall] using (h f).ne'

end Cells

end Averin
