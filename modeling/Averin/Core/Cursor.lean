import Mathlib.Data.List.Basic
import Mathlib.Data.List.TakeWhile
import Mathlib.Tactic

/-!
# Reading a word at a cursor

`Reads s i w j` says that the word `w` stands in `s` from offset `i` up to `j`. It
composes along the input, which is how a parser that moves an offset is compared with
a grammar that concatenates words.
-/

namespace Averin

variable {α : Type*} {s w w' : List α} {i j k : Nat}

/-- The word `w` is what `s` holds from offset `i` up to offset `j`. -/
def Reads (s : List α) (i : Nat) (w : List α) (j : Nat) : Prop :=
  s.drop i = w ++ s.drop j ∧ j = i + w.length

theorem Reads.refl (s : List α) (i : Nat) : Reads s i [] i := ⟨rfl, rfl⟩

/-- What is read in two parts is read. -/
theorem Reads.trans (h : Reads s i w j) (h' : Reads s j w' k) : Reads s i (w ++ w') k := by
  refine ⟨?_, ?_⟩
  · rw [h.1, h'.1, List.append_assoc]
  · rw [h'.2, h.2, List.length_append, Nat.add_assoc]

/-- A word standing before some remainder is read up to that remainder. -/
theorem Reads.of_drop {r : List α} (h : s.drop i = w ++ r) : Reads s i w (i + w.length) := by
  refine ⟨?_, rfl⟩
  rw [← List.drop_drop, h, List.drop_left]

/-- Reading a concatenation stops in between. -/
theorem Reads.split (h : Reads s i (w ++ w') k) :
    Reads s i w (i + w.length) ∧ Reads s (i + w.length) w' k := by
  have h1 : Reads s i w (i + w.length) :=
    Reads.of_drop (r := w' ++ s.drop k) (by rw [h.1, List.append_assoc])
  refine ⟨h1, ?_, ?_⟩
  · have he := h1.1.symm.trans h.1
    rwa [List.append_assoc, List.append_cancel_left_eq] at he
  · rw [h.2, List.length_append, Nat.add_assoc]

/-- Reading one element is an index lookup. -/
theorem Reads.of_getElem? {b : α} (h : s[i]? = some b) : Reads s i [b] (i + 1) := by
  obtain ⟨hi, rfl⟩ := List.getElem?_eq_some_iff.mp h
  exact ⟨List.drop_eq_getElem_cons hi, rfl⟩

/-- What is read begins with what stands there. -/
theorem Reads.getElem? {b : α} (h : Reads s i (b :: w) j) : s[i]? = some b := by
  have hd := congrArg List.head? h.1
  simpa [List.head?_drop] using hd

theorem Reads.tail {b : α} (h : Reads s i (b :: w) j) : Reads s (i + 1) w j :=
  (Reads.split (w := [b]) h).2

theorem Reads.cons {b : α} (hb : s[i]? = some b) (h : Reads s (i + 1) w j) :
    Reads s i (b :: w) j := (Reads.of_getElem? hb).trans h

/-- A nonempty word ends inside the input. -/
theorem Reads.le_length {b : α} (h : Reads s i (b :: w) j) : j ≤ s.length := by
  have hl := congrArg List.length h.1
  have hj := h.2
  simp only [List.length_drop, List.length_append, List.length_cons] at hl hj
  omega

/-- A word ends inside the input whenever it starts there. -/
theorem Reads.length_le (h : Reads s i w j) : w.length ≤ s.length - i := by
  have hl := congrArg List.length h.1
  simp only [List.length_drop, List.length_append] at hl
  omega

/-- The longest run of elements with a property. -/
theorem Reads.takeWhile (s : List α) (i : Nat) (p : α → Bool) :
    Reads s i ((s.drop i).takeWhile p) (i + ((s.drop i).takeWhile p).length) :=
  Reads.of_drop (List.takeWhile_append_dropWhile (p := p)).symm

/-- The element after the longest run lacks the property. -/
theorem not_of_getElem?_takeWhile {p : α → Bool} {b : α}
    (h : s[i + ((s.drop i).takeWhile p).length]? = some b) : p b = false := by
  have hr := (Reads.takeWhile s i p).1
  have hd : (s.drop i).dropWhile p = s.drop (i + ((s.drop i).takeWhile p).length) := by
    conv_lhs at hr => rw [← List.takeWhile_append_dropWhile (p := p) (l := s.drop i)]
    exact List.append_cancel_left hr
  have hh : ((s.drop i).dropWhile p).head? = some b := by rw [hd, List.head?_drop, h]
  have hn := List.head?_dropWhile_not p (s.drop i)
  rw [hh] at hn
  exact hn

/-- A run that stops where the property fails is the longest one. -/
theorem takeWhile_drop_eq {p : α → Bool} (h : Reads s i w j) (hw : ∀ b ∈ w, p b = true)
    (hj : ∀ b, s[j]? = some b → p b = false) : (s.drop i).takeWhile p = w := by
  rw [h.1, List.takeWhile_append_of_pos hw]
  have hn : (s.drop j).takeWhile p = [] := by
    cases hd : s.drop j with
    | nil => rfl
    | cons b r =>
      have hb : s[j]? = some b := by rw [← List.head?_drop, hd]; rfl
      simp [hj b hb]
  rw [hn, List.append_nil]

end Averin
