import Mathlib.Order.Basic
import Mathlib.Tactic.TypeStar

/-!
# Callbacks that fail

A callback works on a private state and may fail at any point. What it did before stays in the
state, so who catches a failure goes on from there. A triple says what holds of the state where a
callback returns, and what holds of it where it fails.
-/

namespace Averin

/-- A callback over a state. -/
abbrev Attempt (σ ε α : Type) := ExceptT ε (StateM σ) α

namespace Attempt

variable {σ ε α β : Type}

/-- What a callback ends with, and the state it leaves. -/
def exec (m : Attempt σ ε α) (s : σ) : Except ε α × σ := (ExceptT.run m).run s

@[simp] theorem exec_pure (a : α) (s : σ) : exec (pure a : Attempt σ ε α) s = (.ok a, s) := rfl

@[simp] theorem exec_throw (e : ε) (s : σ) :
    exec (throw e : Attempt σ ε α) s = (.error e, s) := rfl

@[simp] theorem exec_get (s : σ) : exec (get : Attempt σ ε σ) s = (.ok s, s) := rfl

@[simp] theorem exec_set (s s' : σ) :
    exec (set s' : Attempt σ ε PUnit) s = (.ok ⟨⟩, s') := rfl

@[simp] theorem exec_modify (f : σ → σ) (s : σ) :
    exec (modify f : Attempt σ ε PUnit) s = (.ok ⟨⟩, f s) := rfl

/-- The second part runs where the first one returns, on the state it left. -/
theorem exec_bind (m : Attempt σ ε α) (f : α → Attempt σ ε β) (s : σ) :
    exec (m >>= f) s = match exec m s with
      | (.ok a, s') => exec (f a) s'
      | (.error e, s') => (.error e, s') := by
  unfold exec ExceptT.run StateT.run
  simp only [Bind.bind, ExceptT.bind, ExceptT.mk, StateT.bind]
  rcases m s with ⟨_ | _, s'⟩ <;> rfl

/-- A handler goes on from the state of the failure. -/
theorem exec_tryCatch (m : Attempt σ ε α) (f : ε → Attempt σ ε α) (s : σ) :
    exec (tryCatch m f) s = match exec m s with
      | (.ok a, s') => (.ok a, s')
      | (.error e, s') => exec (f e) s' := by
  unfold exec ExceptT.run StateT.run
  simp only [tryCatch, tryCatchThe, MonadExceptOf.tryCatch, ExceptT.tryCatch, ExceptT.mk, Bind.bind,
    StateT.bind]
  rcases m s with ⟨_ | _, s'⟩ <;> rfl

/-- From a state before, the callback returns into one after or fails into another. -/
def Triple (pre : σ → Prop) (m : Attempt σ ε α) (post : α → σ → Prop) (fail : ε → σ → Prop) :
    Prop :=
  ∀ s, pre s → match exec m s with
    | (.ok a, s') => post a s'
    | (.error e, s') => fail e s'

namespace Triple

variable {pre pre' : σ → Prop} {post post' : α → σ → Prop} {mid : β → σ → Prop}
  {fail fail' : ε → σ → Prop} {m : Attempt σ ε α}

theorem pure {a : α} (h : ∀ s, pre s → post a s) : Triple pre (pure a) post fail := h

theorem throw {e : ε} (h : ∀ s, pre s → fail e s) : Triple pre (throw e) post fail := h

/-- One part after the other. -/
theorem bind {n : Attempt σ ε β} {f : β → Attempt σ ε α} (hn : Triple pre n mid fail)
    (hf : ∀ b, Triple (mid b) (f b) post fail) : Triple pre (n >>= f) post fail := by
  intro s hs
  have hstep := hn s hs
  rw [exec_bind]
  rcases hexec : exec n s with ⟨e | b, s'⟩
  · rw [hexec] at hstep
    exact hstep
  · rw [hexec] at hstep
    exact hf b s' hstep

/-- A handler takes over what holds where the callback fails. -/
theorem tryCatch {f : ε → Attempt σ ε α} (hm : Triple pre m post fail)
    (hf : ∀ e, Triple (fail e) (f e) post fail') : Triple pre (tryCatch m f) post fail' := by
  intro s hs
  have hstep := hm s hs
  rw [exec_tryCatch]
  rcases hexec : exec m s with ⟨e | a, s'⟩
  · rw [hexec] at hstep
    exact hf e s' hstep
  · rw [hexec] at hstep
    exact hstep

/-- What a callback needs may be more than was asked, and what it gives less. -/
theorem weaken (h : Triple pre m post fail) (hpre : ∀ s, pre' s → pre s)
    (hpost : ∀ a s, post a s → post' a s) (hfail : ∀ e s, fail e s → fail' e s) :
    Triple pre' m post' fail' := by
  intro s hs
  have hstep := h s (hpre s hs)
  rcases hexec : exec m s with ⟨e | a, s'⟩
  · rw [hexec] at hstep
    exact hfail e s' hstep
  · rw [hexec] at hstep
    exact hpost a s' hstep

/-- A fact that does not depend on the state is in hand. -/
theorem of_fact {p : Prop} (h : p → Triple pre m post fail) :
    Triple (fun s => p ∧ pre s) m post fail := by
  intro s hs
  exact h hs.1 s hs.2

end Triple

end Attempt

end Averin
