/-
# The string functions of lib.c

A `const int8_t*` is the list of the bytes from the pointer on; behind the list
every byte reads as NUL. So `strlen`, which stops at the first NUL only, is a
recursion on the list, and an array that its owner forgot to terminate is the
array's bytes followed by whatever lies behind it.

A destination buffer is a function from the offset to the byte there (`Buf`),
because the kernel's loops also write where their length argument does not say.
A function that fills a buffer from offset 0 on is given by the bytes it stores,
and `overlay` puts them there.

Key definitions: `strlen`, `strncmp`, `strcpy`, `strncpy`, `overlay`, `cstr`.
Key theorems: `strncmp_cstr` (only the bytes up to the NUL count), `strlen_eq_length_cstr`,
`strncmp_eq_zero_iff`.
-/
import Mathlib.Tactic
import Mathlib.Data.List.GetD
import Mathlib.Data.List.TakeWhile

namespace Mp3Kernel

/-- Memory from a pointer on. -/
abbrev Buf := ℕ → UInt8

/-- `bytes` stored from offset 0 on. -/
def overlay (buf : Buf) (bytes : List UInt8) : Buf := fun i => bytes.getD i (buf i)

theorem overlay_of_lt (buf : Buf) (bytes : List UInt8) {i : ℕ} (h : i < bytes.length) :
    overlay buf bytes i = bytes[i] := by
  simp [overlay, h]

theorem overlay_of_ge (buf : Buf) (bytes : List UInt8) {i : ℕ} (h : bytes.length ≤ i) :
    overlay buf bytes i = buf i := by
  simp [overlay, h]

/-- `strlen`: the number of bytes before the first NUL. -/
def strlen : List UInt8 → ℕ
  | [] => 0
  | c :: s => if c = 0 then 0 else strlen s + 1

/-- `strncmp`: the difference of the first bytes that differ, as signed chars; 0
when the strings agree up to a NUL or on `n` bytes. -/
def strncmp : List UInt8 → List UInt8 → ℕ → ℤ
  | _, _, 0 => 0
  | s1, s2, n + 1 =>
    if s1.headD 0 ≠ s2.headD 0 ∨ s1.headD 0 = 0 then
      (s1.headD 0).toInt8.toInt - (s2.headD 0).toInt8.toInt
    else strncmp s1.tail s2.tail n

/-- `strcpy`: the bytes stored at the destination, the NUL included. -/
def strcpy : List UInt8 → List UInt8
  | [] => [0]
  | c :: s => if c = 0 then [0] else c :: strcpy s

/-- `strncpy`: the `n` bytes stored at the destination, padded with NULs. -/
def strncpy : List UInt8 → ℕ → List UInt8
  | _, 0 => []
  | [], n + 1 => List.replicate (n + 1) 0
  | c :: s, n + 1 => if c = 0 then List.replicate (n + 1) 0 else c :: strncpy s n

/-- The string at the pointer, without its NUL. -/
def cstr (s : List UInt8) : List UInt8 := s.takeWhile (· ≠ 0)

@[simp] theorem cstr_nil : cstr [] = [] := rfl

theorem cstr_cons (c : UInt8) (s : List UInt8) : cstr (c :: s) = if c = 0 then [] else c :: cstr s := by
  by_cases h : c = 0 <;> simp [cstr, h]

theorem cstr_cstr : ∀ s : List UInt8, cstr (cstr s) = cstr s
  | [] => rfl
  | c :: s => by
    by_cases h : c = 0
    · simp [cstr_cons, h]
    · simp [cstr_cons, h, cstr_cstr s]

theorem strlen_eq_length_cstr : ∀ s : List UInt8, strlen s = (cstr s).length
  | [] => rfl
  | c :: s => by
    rw [strlen, cstr_cons]
    split_ifs with h
    · rfl
    · simp [strlen_eq_length_cstr s]

theorem strlen_le_length (l : List UInt8) : strlen l ≤ l.length := by
  rw [strlen_eq_length_cstr]
  exact (List.takeWhile_sublist _).length_le

theorem strcpy_eq : ∀ s : List UInt8, strcpy s = cstr s ++ [0]
  | [] => rfl
  | c :: s => by
    rw [strcpy, cstr_cons]
    split_ifs with h
    · rfl
    · simp [strcpy_eq s]

theorem cstr_append (s t : List UInt8) : cstr (s ++ t) = if (cstr s).length = s.length then s ++ cstr t else cstr s :=
  List.takeWhile_append ..

theorem length_strncpy : ∀ (s : List UInt8) (n : ℕ), (strncpy s n).length = n
  | _, 0 => by simp [strncpy]
  | [], n + 1 => by simp [strncpy]
  | c :: s, n + 1 => by
    rw [strncpy]
    split_ifs
    · exact List.length_replicate
    · rw [List.length_cons, length_strncpy s n]

theorem strncpy_eq_take : ∀ (s : List UInt8) (n : ℕ), n ≤ strlen s → strncpy s n = s.take n
  | s, 0, _ => by cases s <;> rfl
  | [], n + 1, h => by simp [strlen] at h
  | c :: s, n + 1, h => by
    rw [strlen] at h
    split_ifs at h with hc
    · omega
    · rw [strncpy, if_neg hc, List.take_succ_cons, strncpy_eq_take s n (by omega)]

theorem strncmp_cstr : ∀ (n : ℕ) (s1 s2 : List UInt8), strncmp (cstr s1) s2 n = strncmp s1 s2 n
  | 0, _, _ => rfl
  | n + 1, [], s2 => rfl
  | n + 1, c :: s1, s2 => by
    rw [cstr_cons]
    by_cases h : c = 0
    · subst h
      simp [strncmp]
    · rw [if_neg h]
      simp [strncmp, strncmp_cstr n s1]

theorem strncmp_nul_left {s1 s2 : List UInt8} {n : ℕ} (h1 : s1.headD 0 = 0)
    (h2 : (s2.headD 0).toInt8.toInt ≠ 0) : strncmp s1 s2 (n + 1) ≠ 0 := by
  rw [strncmp, if_pos (Or.inr h1), h1]
  simpa using h2

/-! ### The bytes of a string -/

theorem getD_drop (s : List UInt8) (m j : ℕ) : (s.drop m).getD j 0 = s.getD (m + j) 0 := by
  rw [List.getD_eq_getElem?_getD, List.getD_eq_getElem?_getD, List.getElem?_drop]

theorem getD_append_nul {s : List UInt8} (rest : List UInt8) {j : ℕ} (hj : j ≤ s.length) :
    (s ++ 0 :: rest).getD j 0 = s.getD j 0 := by
  rcases lt_or_eq_of_le hj with h | rfl
  · exact List.getD_append _ _ _ _ h
  · rw [List.getD_append_right _ _ _ _ (le_refl _), Nat.sub_self, List.getD_eq_default _ _ (le_refl _)]
    rfl

theorem cstr_of_nul {s : List UInt8} (hs : ∀ c ∈ s, c ≠ 0) (rest : List UInt8) : cstr (s ++ 0 :: rest) = s := by
  unfold cstr
  rw [List.takeWhile_append_of_pos (by simpa using hs)]
  simp

theorem cstr_getD (s : List UInt8) {j : ℕ} (hj : j < (cstr s).length) : s.getD j 0 = (cstr s).getD j 0 := by
  have hpre : cstr s <+: s := List.takeWhile_prefix _
  obtain ⟨t, ht⟩ := hpre
  conv_lhs => rw [← ht]
  rw [List.getD_append _ _ _ _ hj]

theorem cstr_end : ∀ s : List UInt8, s.getD (cstr s).length 0 = 0
  | [] => rfl
  | c :: s => by
    rw [cstr_cons]
    split_ifs with h
    · exact h
    · exact cstr_end s

theorem ne_of_mem_cstr {s : List UInt8} {c : UInt8} (h : c ∈ cstr s) : c ≠ 0 := by
  have := List.mem_takeWhile_imp h
  simpa using this

/-! ### Comparing two strings -/

theorem cstr_eq_headD (s : List UInt8) : cstr s = if s.headD 0 = 0 then [] else s.headD 0 :: cstr s.tail := by
  cases s with
  | nil => rfl
  | cons c s => exact cstr_cons c s

theorem headD_eq_getD (s : List UInt8) : s.headD 0 = s.getD 0 0 := by
  cases s <;> rfl

theorem tail_getD (s : List UInt8) (i : ℕ) : s.tail.getD i 0 = s.getD (i + 1) 0 := by
  cases s <;> rfl

theorem toInt8_sub_eq_zero {c d : UInt8} : c.toInt8.toInt - d.toInt8.toInt = 0 ↔ c = d := by
  constructor
  · intro h
    have h8 : c.toInt8 = d.toInt8 := Int8.toInt_inj.mp (by omega)
    rw [← UInt8.toUInt8_toInt8 c, ← UInt8.toUInt8_toInt8 d, h8]
  · rintro rfl
    omega

/-- `strncmp` is 0 exactly when the strings are the same up to `n` bytes. -/
theorem strncmp_eq_zero_iff : ∀ (n : ℕ) (s1 s2 : List UInt8),
    strncmp s1 s2 n = 0 ↔ (cstr s1).take n = (cstr s2).take n
  | 0, s1, s2 => by simp [strncmp]
  | n + 1, s1, s2 => by
    rw [strncmp, cstr_eq_headD s1, cstr_eq_headD s2]
    by_cases hne : s1.headD 0 = s2.headD 0
    · by_cases h0 : s1.headD 0 = 0
      · rw [if_pos (Or.inr h0), toInt8_sub_eq_zero, ← hne, if_pos h0, if_pos h0]
        exact iff_of_true rfl rfl
      · rw [if_neg (not_or.mpr ⟨not_not_intro hne, h0⟩), ← hne, if_neg h0, if_neg h0, strncmp_eq_zero_iff n,
          List.take_succ_cons, List.take_succ_cons, List.cons_inj_right]
    · rw [if_pos (Or.inl hne), toInt8_sub_eq_zero]
      refine iff_of_false hne fun h => hne ?_
      split_ifs at h with h1 h2 h2
      · rw [h1, h2]
      · simp at h
      · simp at h
      · simp only [List.take_succ_cons, List.cons.injEq] at h
        exact h.1

/-- What two strings that agree up to `n` bytes, and up to the NUL of the first, start
with. -/
theorem take_cstr_congr : ∀ (n : ℕ) (s t : List UInt8),
    (∀ i < n, i ≤ strlen s → t.getD i 0 = s.getD i 0) → (cstr t).take n = (cstr s).take n
  | 0, s, t, _ => by simp
  | n + 1, s, t, h => by
    have hhead : t.headD 0 = s.headD 0 := by
      rw [headD_eq_getD, headD_eq_getD]
      exact h 0 (by omega) (by omega)
    rw [cstr_eq_headD t, cstr_eq_headD s, hhead]
    by_cases h0 : s.headD 0 = 0
    · rw [if_pos h0, if_pos h0]
    · rw [if_neg h0, if_neg h0, List.take_succ_cons, List.take_succ_cons]
      refine congrArg _ (take_cstr_congr n s.tail t.tail fun i hi hle => ?_)
      have hlen : strlen s = strlen s.tail + 1 := by
        cases s with
        | nil => exact absurd rfl h0
        | cons c s => exact if_neg h0
      rw [tail_getD, tail_getD]
      exact h (i + 1) (by omega) (by omega)

end Mp3Kernel
