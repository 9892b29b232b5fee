/-
# Fields of a word

A field of a word is a range of its bits, as a packed bit-field of C or a descriptor's
layout names it. Reading it back gives what was written to it last, and a write to one
field leaves the fields apart from it alone, so that a record of packed fields is read
off its assignments without ever going down to bits.

Key definitions: `BitField`, `BitField.get`, `BitField.set`, `BitField.Apart`.
Key theorems: `BitField.get_set_same`, `BitField.get_set_apart`, `BitField.get_split`,
`BitField.get_of_mask`.
-/
import Mathlib.Tactic

namespace Bits

/-- A field: its lowest bit, and how many bits it has. -/
structure BitField where
  lo : ℕ
  len : ℕ
  deriving DecidableEq

namespace BitField

variable {n : ℕ}

/-- The field lies inside a word of `n` bits. -/
def Fits (f : BitField) (n : ℕ) : Prop := f.lo + f.len ≤ n

instance (f : BitField) (n : ℕ) : Decidable (f.Fits n) := by unfold Fits; infer_instance

/-- The fields have no bit in common. -/
def Apart (f g : BitField) : Prop := f.lo + f.len ≤ g.lo ∨ g.lo + g.len ≤ f.lo

instance (f g : BitField) : Decidable (f.Apart g) := by unfold Apart; infer_instance

/-- What the field holds. -/
def get (f : BitField) (w : BitVec n) : BitVec f.len := w.extractLsb' f.lo f.len

/-- The word with `v` in the field. -/
def set (f : BitField) (w : BitVec n) (v : BitVec f.len) : BitVec n :=
  (w &&& ~~~((BitVec.allOnes f.len).setWidth n <<< f.lo)) ||| (v.setWidth n <<< f.lo)

variable (f g : BitField) (w : BitVec n)

theorem getLsbD_get (i : ℕ) : (f.get w).getLsbD i = (decide (i < f.len) && w.getLsbD (f.lo + i)) := by
  unfold get
  rw [BitVec.getLsbD_extractLsb']

/-- A write puts the value's bits in the field and keeps the others. -/
theorem getLsbD_set (v : BitVec f.len) {i : ℕ} (hi : i < n) :
    (f.set w v).getLsbD i = if f.lo ≤ i ∧ i < f.lo + f.len then v.getLsbD (i - f.lo) else w.getLsbD i := by
  unfold set
  rw [BitVec.getLsbD_or, BitVec.getLsbD_and, BitVec.getLsbD_not, BitVec.getLsbD_shiftLeft, BitVec.getLsbD_shiftLeft,
    BitVec.getLsbD_setWidth, BitVec.getLsbD_setWidth, BitVec.getLsbD_allOnes]
  by_cases hlo : f.lo ≤ i
  · have hin : i - f.lo < n := by omega
    by_cases hhi : i < f.lo + f.len
    · have hlen : i - f.lo < f.len := by omega
      simp [hi, hlo, hhi, hin, hlen, not_lt.mpr hlo]
    · have hlen : ¬ i - f.lo < f.len := by omega
      have hv : v.getLsbD (i - f.lo) = false := BitVec.getLsbD_of_ge v _ (by omega)
      simp [hi, hhi, hlen, hv]
  · simp [hi, hlo, not_le.mp hlo]

theorem get_set_same (v : BitVec f.len) (h : f.Fits n) : f.get (f.set w v) = v := by
  apply BitVec.eq_of_getLsbD_eq
  intro i hi
  unfold Fits at h
  rw [getLsbD_get, getLsbD_set f w v (by omega), if_pos (by omega), Nat.add_sub_cancel_left]
  simp [hi]

theorem get_set_apart (v : BitVec f.len) (h : g.Apart f) : g.get (f.set w v) = g.get w := by
  apply BitVec.eq_of_getLsbD_eq
  intro i hi
  rw [getLsbD_get, getLsbD_get]
  by_cases hn : g.lo + i < n
  · unfold Apart at h
    rw [getLsbD_set f w v hn, if_neg (by omega)]
  · rw [BitVec.getLsbD_of_ge _ _ (not_lt.mp hn), BitVec.getLsbD_of_ge _ _ (not_lt.mp hn)]

theorem get_split (lo a b : ℕ) :
    (BitField.mk lo (b + a)).get w = (BitField.mk (lo + a) b).get w ++ (BitField.mk lo a).get w := by
  apply BitVec.eq_of_getLsbD_eq
  intro i (hi : i < b + a)
  rw [BitVec.getLsbD_append]
  simp only [getLsbD_get]
  by_cases ha : i < a
  · rw [if_pos ha]
    simp [ha, hi]
  · rw [if_neg ha, show lo + a + (i - a) = lo + i by omega]
    have hb : i - a < b := by omega
    simp [hb, hi]

theorem get_whole : (BitField.mk 0 n).get w = w := by
  apply BitVec.eq_of_getLsbD_eq
  intro i hi
  rw [getLsbD_get]
  simp [hi]

/-- The idiom of C for a field: mask, shift and cut off. -/
theorem get_of_mask (lo len : ℕ) {m : BitVec n} (hm : m = (BitVec.allOnes len).setWidth n <<< lo) :
    ((w &&& m) >>> lo).setWidth len = (BitField.mk lo len).get w := by
  apply BitVec.eq_of_getLsbD_eq
  intro i hi
  rw [getLsbD_get, BitVec.getLsbD_setWidth, BitVec.getLsbD_ushiftRight, BitVec.getLsbD_and, hm,
    BitVec.getLsbD_shiftLeft, BitVec.getLsbD_setWidth, BitVec.getLsbD_allOnes, Nat.add_sub_cancel_left]
  by_cases hn : lo + i < n
  · have hin : i < n := by omega
    simp [hi, hn, hin]
  · rw [BitVec.getLsbD_of_ge w _ (not_lt.mp hn)]
    simp

end BitField

end Bits
