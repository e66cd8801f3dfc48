import Mathlib.Tactic.Common

/-!
# Fallible steps

A guard for the error monad, and the two facts by which a successful run of a chain of
steps is taken apart.
-/

namespace Averin

universe u

variable {ε : Type*} {α β : Type u}

/-- Succeed if the condition holds and fail with `e` otherwise. -/
def require (c : Prop) [Decidable c] (e : ε) : Except ε Unit := if c then .ok () else .error e

@[simp] theorem require_eq_ok_iff {c : Prop} [Decidable c] {e : ε} {u : Unit} :
    require c e = .ok u ↔ c := by
  unfold require
  split_ifs with h <;> simp [h]

/-- A sequence succeeds when its first step does and the rest does after it. -/
@[simp] theorem bind_eq_ok_iff {x : Except ε α} {f : α → Except ε β} {b : β} :
    (x >>= f) = .ok b ↔ ∃ a, x = .ok a ∧ f a = .ok b := by
  cases x with
  | error e => simp [bind, Except.bind]
  | ok a => simp [bind, Except.bind]

/-- A step succeeds if it gives a value. -/
theorem isOk_iff {x : Except ε α} : x.isOk = true ↔ ∃ a, x = .ok a := by
  cases x <;> simp [Except.isOk, Except.toBool]

/-- An optional value, or the given failure. -/
def orFail (x : Option α) (e : ε) : Except ε α :=
  match x with
  | none => .error e
  | some a => .ok a

/-- An optional value succeeds if it is there. -/
@[simp] theorem orFail_eq_ok_iff {x : Option α} {e : ε} {a : α} :
    orFail x e = .ok a ↔ x = some a := by
  cases x <;> simp [orFail]

/-- Relabelling failures does not change what succeeds. -/
@[simp] theorem mapError_eq_ok_iff {ε' : Type*} {f : ε → ε'} {x : Except ε α} {a : α} :
    x.mapError f = .ok a ↔ x = .ok a := by
  cases x <;> simp [Except.mapError]

/-- Failures of a sequence are relabelled part by part. -/
theorem bind_mapError {ε' : Type*} (f : ε → ε') (x : Except ε α) (k : α → Except ε β) :
    (x >>= k).mapError f = x.mapError f >>= fun a => (k a).mapError f := by
  cases x <;> rfl

/-- The failure of a guard is relabelled. -/
theorem require_mapError {ε' : Type*} (f : ε → ε') (c : Prop) [Decidable c] (e : ε) :
    (require c e).mapError f = require c (f e) := by
  unfold require
  split_ifs <;> rfl

/-- The failure of a missing value is relabelled. -/
theorem orFail_mapError {ε' : Type*} (f : ε → ε') (x : Option α) (e : ε) :
    (orFail x e).mapError f = orFail x (f e) := by
  cases x <;> rfl

/-- A check over a list succeeds when it does on every element. -/
theorem forM_eq_ok_iff {l : List α} {f : α → Except ε Unit} :
    l.forM f = .ok () ↔ ∀ a ∈ l, f a = .ok () := by
  induction l with
  | nil => exact ⟨by simp, fun _ => rfl⟩
  | cons a l ih =>
    have hcons : (a :: l).forM f = f a >>= fun _ => l.forM f := rfl
    rw [hcons, bind_eq_ok_iff, List.forall_mem_cons, ← ih]
    exact ⟨fun ⟨_, h⟩ => h, fun h => ⟨(), h⟩⟩

/-- Reading a list succeeds when it does on every element. -/
theorem mapM_isOk {l : List α} {f : α → Except ε β} (h : ∀ a ∈ l, ∃ b, f a = .ok b) :
    ∃ bs, l.mapM f = .ok bs := by
  induction l with
  | nil => exact ⟨[], rfl⟩
  | cons a l ih =>
    obtain ⟨b, hb⟩ := h a List.mem_cons_self
    obtain ⟨bs, hbs⟩ := ih fun x hx => h x (List.mem_cons_of_mem _ hx)
    exact ⟨b :: bs, by simp only [List.mapM_cons, hb, hbs]; rfl⟩

end Averin
