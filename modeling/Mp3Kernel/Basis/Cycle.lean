/-
# Going round a cycle

The residues modulo `n` in a circle. From `x`, the next member of a set is the one
at the smallest distance ahead (`IsNext`). A search that walks ahead from `x` and
stops at the first member finds it, if there is another member at all.

Going from next to next round a set of three members visits each of them once and
comes back (`three_turns`): the member that is not the next one of `x` lies between
the next one and `x`.

Key definitions: `Cycle.ahead`, `Cycle.IsNext`. Key theorem: `Cycle.three_turns`.
-/
import Mathlib.Tactic

namespace Cycle

variable {n : ℤ}

/-- How far `y` lies ahead of `x`. -/
def ahead (n x y : ℤ) : ℤ := (y - x) % n

/-- `y` is the first member of `S` ahead of `x`, other than `x`. -/
structure IsNext (n : ℤ) (S : ℤ → Prop) (x y : ℤ) : Prop where
  mem : S y
  ne : y ≠ x
  first : ∀ z, S z → z ≠ x → ahead n x y ≤ ahead n x z

/-- A residue. -/
def InRange (n x : ℤ) : Prop := 0 ≤ x ∧ x < n

theorem ahead_eq {x y : ℤ} (hx : InRange n x) (hy : InRange n y) :
    ahead n x y = if x ≤ y then y - x else y - x + n := by
  obtain ⟨hx0, hxn⟩ := hx
  obtain ⟨hy0, hyn⟩ := hy
  unfold ahead
  split_ifs with h
  · exact Int.emod_eq_of_lt (by omega) (by omega)
  · rw [← Int.add_emod_right]
    exact Int.emod_eq_of_lt (by omega) (by omega)

theorem IsNext.unique {S : ℤ → Prop} (hS : ∀ z, S z → InRange n z) {x y z : ℤ} (hx : InRange n x)
    (hy : IsNext n S x y) (hz : IsNext n S x z) : y = z := by
  have h1 := hy.first z hz.mem hz.ne
  have h2 := hz.first y hy.mem hy.ne
  rw [ahead_eq hx (hS y hy.mem), ahead_eq hx (hS z hz.mem)] at h1 h2
  obtain ⟨hy0, hyn⟩ := hS y hy.mem
  obtain ⟨hz0, hzn⟩ := hS z hz.mem
  split_ifs at h1 h2 <;> omega

/-- Among three members, the one that is not the next of `x` is the next of that
one. -/
theorem IsNext.other {S : ℤ → Prop} (hS : ∀ z, S z → InRange n z) {x y z : ℤ} (hx : S x)
    (hall : ∀ w, S w → w = x ∨ w = y ∨ w = z) (hz : S z) (hzx : z ≠ x) (hzy : z ≠ y) (hy : IsNext n S x y) :
    IsNext n S y z := by
  have hlt := hy.first z hz hzx
  have hyx := hy.ne
  rw [ahead_eq (hS x hx) (hS y hy.mem), ahead_eq (hS x hx) (hS z hz)] at hlt
  obtain ⟨hx0, hxn⟩ := hS x hx
  obtain ⟨hy0, hyn⟩ := hS y hy.mem
  obtain ⟨hz0, hzn⟩ := hS z hz
  refine ⟨hz, hzy, fun w hw hwy => ?_⟩
  rw [ahead_eq (hS y hy.mem) (hS z hz), ahead_eq (hS y hy.mem) (hS w hw)]
  rcases hall w hw with rfl | rfl | rfl
  · split_ifs at hlt ⊢ <;> omega
  · exact absurd rfl hwy
  · exact le_refl _

/-- Three turns round a set of three members visit each once and come back. -/
theorem three_turns {S : ℤ → Prop} (hS : ∀ z, S z → InRange n z) {a b c x₀ x₁ x₂ x₃ : ℤ}
    (hmem : ∀ w, S w ↔ w = a ∨ w = b ∨ w = c) (hab : a ≠ b) (hac : a ≠ c) (hbc : b ≠ c) (h0 : S x₀)
    (h1 : IsNext n S x₀ x₁) (h2 : IsNext n S x₁ x₂) (h3 : IsNext n S x₂ x₃) :
    x₃ = x₀ ∧ [x₁, x₂, x₃].Perm [a, b, c] := by
  obtain ⟨z, hz, hz0, hz1⟩ : ∃ z, S z ∧ z ≠ x₀ ∧ z ≠ x₁ := by
    have hm0 := (hmem x₀).mp h0
    have hm1 := (hmem x₁).mp h1.mem
    have hne := h1.ne
    by_cases ha : a ≠ x₀ ∧ a ≠ x₁
    · exact ⟨a, (hmem a).mpr (by simp), ha⟩
    by_cases hb : b ≠ x₀ ∧ b ≠ x₁
    · exact ⟨b, (hmem b).mpr (by simp), hb⟩
    exact ⟨c, (hmem c).mpr (by simp), by omega, by omega⟩
  have hall : ∀ w, S w → w = x₀ ∨ w = x₁ ∨ w = z := by
    intro w hw
    have hmw := (hmem w).mp hw
    have hm0 := (hmem x₀).mp h0
    have hm1 := (hmem x₁).mp h1.mem
    have hmz := (hmem z).mp hz
    have hne := h1.ne
    omega
  have hx2 : x₂ = z := h2.unique hS (hS _ h1.mem) (h1.other hS h0 hall hz hz0 hz1)
  subst hx2
  have hx3 : x₃ = x₀ := by
    refine h3.unique hS (hS _ h2.mem) (h2.other hS h1.mem (fun w hw => ?_) h0 h1.ne.symm hz0.symm)
    have := hall w hw
    omega
  refine ⟨hx3, ?_⟩
  subst hx3
  have hn : [x₁, x₂, x₃].Nodup := by
    simp only [List.nodup_cons, List.mem_cons, List.not_mem_nil, or_false, not_or, List.nodup_nil, and_true]
    exact ⟨⟨hz1.symm, h1.ne⟩, hz0, not_false⟩
  have hn' : [a, b, c].Nodup := by simp [hab, hac, hbc]
  refine (List.perm_ext_iff_of_nodup hn hn').mpr fun w => ?_
  have hw : w ∈ [a, b, c] ↔ S w := by rw [hmem]; simp
  rw [hw]
  constructor
  · intro h
    have h' : w = x₁ ∨ w = x₂ ∨ w = x₃ := by simpa using h
    rcases h' with rfl | rfl | rfl
    · exact h1.mem
    · exact h2.mem
    · exact h3.mem
  · intro h
    have := hall w h
    simp only [List.mem_cons, List.not_mem_nil, or_false]
    omega

end Cycle
