import Averin.Core.Framing
import Averin.Core.Unicode

/-!
# Message layouts

A message is a sequence of fields, each written in one of a few ways: behind its length, raw
at a fixed width, as a 64-bit number, or as the raw rest of the message. The slots of a
message say which way each field is written. Messages with the same slots are told apart by
their bytes, provided only the last slot is a raw rest.
-/

namespace Averin

/-- A field with the way it is written. -/
inductive Field where
  | text (s : String) | blob (b : List UInt8) | fixed (b : List UInt8) | number (n : Int)
  | tail (s : String)

/-- The way a field is written. -/
inductive Slot where
  | text | blob | fixed (width : Nat) | number | tail
  deriving DecidableEq

namespace Field

/-- The kind of place that a field takes. -/
def slot : Field → Slot
  | text _ => .text
  | blob _ => .blob
  | fixed b => .fixed b.length
  | number _ => .number
  | tail _ => .tail

/-- The bytes of a field. -/
def encode : Field → List UInt8
  | text s => framed 4 (bytes s)
  | blob b => framed 4 b
  | fixed b => b
  | number n => beBytes 8 (n % 2 ^ 64).toNat
  | tail s => bytes s

/-- The field can be written without losing anything: a length fits its prefix, and a number
is a signed 64-bit one. -/
def Sized : Field → Prop
  | text s => (bytes s).length < 2 ^ 32
  | blob b => b.length < 2 ^ 32
  | fixed _ | tail _ => True
  | number n => -2 ^ 63 ≤ n ∧ n < 2 ^ 63

end Field

/-- A field that is no raw rest can be split off, whatever follows it. -/
theorem Field.encode_append_inj {f g : Field} {r r' : List UInt8} (hslot : f.slot = g.slot)
    (hrest : f.slot ≠ .tail) (hf : f.Sized) (hg : g.Sized)
    (h : f.encode ++ r = g.encode ++ r') : f = g ∧ r = r' := by
  cases f <;> cases g <;> try cases hslot
  · obtain ⟨hs, hr⟩ := framed_append_inj hf hg h
    exact ⟨congrArg Field.text (bytes_injective hs), hr⟩
  · obtain ⟨rfl, hr⟩ := framed_append_inj hf hg h
    exact ⟨rfl, hr⟩
  · obtain ⟨hb, hr⟩ := List.append_inj h (Slot.fixed.inj hslot)
    exact ⟨congrArg Field.fixed hb, hr⟩
  · obtain ⟨hn, hr⟩ := List.append_inj h (by simp [encode])
    exact ⟨congrArg Field.number (eq_of_be8_eq hf hg hn), hr⟩
  · exact absurd rfl hrest

/-- The bytes of a message. -/
def encodeFields (fields : List Field) : List UInt8 := fields.flatMap Field.encode

@[simp] theorem encodeFields_cons (f : Field) (fs : List Field) :
    encodeFields (f :: fs) = f.encode ++ encodeFields fs := rfl

/-- The least number of bytes a field of the slot takes. -/
def Slot.room : Slot → Nat
  | .text | .blob => 4
  | .fixed width => width
  | .number => 8
  | .tail => 0

/-- A field takes at least the room of its slot. -/
theorem Field.room_le_length (f : Field) : f.slot.room ≤ f.encode.length := by
  cases f <;> simp [slot, Slot.room, encode, framed]

/-- Fields take at least the room of their slots. -/
theorem room_le_length_encodeFields (fs : List Field) :
    ((fs.map Field.slot).map Slot.room).sum ≤ (encodeFields fs).length := by
  induction fs with
  | nil => exact Nat.zero_le _
  | cons f fs ih =>
    simp only [List.map_cons, List.sum_cons, encodeFields_cons, List.length_append]
    exact Nat.add_le_add f.room_le_length ih

/-- Only the last slot may be a raw rest. -/
def Slot.Delimited : List Slot → Prop
  | [] | [_] => True
  | slot :: slots => slot ≠ .tail ∧ Delimited slots

instance : (slots : List Slot) → Decidable (Slot.Delimited slots)
  | [] | [_] => inferInstanceAs (Decidable True)
  | _ :: slot' :: slots =>
    have := instDecidableDelimited (slot' :: slots)
    inferInstanceAs (Decidable (_ ∧ _))

/-- Messages with the same delimited slots are determined by their bytes. -/
theorem encodeFields_inj {fs gs : List Field} (hslots : fs.map Field.slot = gs.map Field.slot)
    (hdelim : Slot.Delimited (fs.map Field.slot)) (hfs : ∀ f ∈ fs, f.Sized)
    (hgs : ∀ g ∈ gs, g.Sized) (h : encodeFields fs = encodeFields gs) : fs = gs := by
  induction fs generalizing gs with
  | nil =>
    exact (List.map_eq_nil_iff.mp hslots.symm).symm
  | cons f fs ih =>
    obtain ⟨g, gs, rfl⟩ : ∃ g' gs', gs = g' :: gs' := by
      cases gs with
      | nil => cases hslots
      | cons g gs => exact ⟨g, gs, rfl⟩
    obtain ⟨hslot, hothers⟩ := List.cons.inj hslots
    rw [encodeFields_cons, encodeFields_cons] at h
    by_cases htail : f.slot = .tail
    · -- a raw rest is the last field on both sides
      obtain rfl : fs = [] := by
        cases fs with
        | nil => rfl
        | cons f' fs => exact absurd htail hdelim.1
      obtain rfl : gs = [] := List.map_eq_nil_iff.mp hothers.symm
      cases f <;> cases htail
      cases g <;> cases hslot
      rw [List.append_cancel_right_eq] at h
      exact congrArg (fun s => [Field.tail s]) (bytes_injective h)
    · obtain ⟨rfl, hrest⟩ := Field.encode_append_inj hslot htail (hfs f List.mem_cons_self)
        (hgs g List.mem_cons_self) h
      have hdelim' : Slot.Delimited (fs.map Field.slot) := by
        cases fs with
        | nil => trivial
        | cons f' fs => exact hdelim.2
      rw [ih hothers hdelim' (fun f' hf' => hfs f' (List.mem_cons_of_mem _ hf'))
        (fun g' hg' => hgs g' (List.mem_cons_of_mem _ hg')) hrest]

end Averin
