/-
# Printing numbers

`itoa` writes the digits of a number from the lowest up, ends them with a NUL, and
has `strrev` reverse the string where it stands. Its loops and `strlen`'s are run for
as many rounds as a conversion buffer has bytes; that they end within them is part of
what is proved.

Key definitions: `itoa`, `strrev`, `Terminated`, `numeral`, `IsNumeral`.
Key theorems: `strrev_terminated`, `itoa_terminated`, `isNumeral_numeral`.
-/
import Mathlib.Data.Nat.Digits.Lemmas
import Mp3Kernel.Basis.Loop
import Mp3Kernel.Strings

namespace Mp3Kernel

open Loop

/-- `itoa`'s lookup table: `0` to `9`, `A` to `Z` -/
def lookup : List UInt8 :=
  [0x30, 0x31, 0x32, 0x33, 0x34, 0x35, 0x36, 0x37, 0x38, 0x39,
   0x41, 0x42, 0x43, 0x44, 0x45, 0x46, 0x47, 0x48, 0x49, 0x4A, 0x4B, 0x4C, 0x4D,
   0x4E, 0x4F, 0x50, 0x51, 0x52, 0x53, 0x54, 0x55, 0x56, 0x57, 0x58, 0x59, 0x5A]

/-- The rounds a loop over a conversion buffer is given. -/
abbrev convRounds : ℕ := 64

/-- `strlen` of a buffer -/
def strlenBuf (s : Buf) : Option ℕ := whileDo (fun len => s len != 0) (· + 1) convRounds 0

/-- The locals of `strrev`. -/
structure Swap where
  s : Buf
  beg : ℤ
  last : ℤ

/-- One round of `strrev`: the two ends are exchanged. -/
def Swap.round (w : Swap) : Swap :=
  let tmp := w.s w.last.toNat
  let s := Function.update w.s w.last.toNat (w.s w.beg.toNat)
  let s := Function.update s w.beg.toNat tmp
  ⟨s, w.beg + 1, w.last - 1⟩

/-- `strrev` -/
def strrev (s : Buf) : Option Buf := do
  let len ← strlenBuf s
  let w ← whileDo (fun w : Swap => w.beg < w.last) Swap.round convRounds ⟨s, 0, (len : ℤ) - 1⟩
  return w.s

/-- The locals of `itoa`'s loop, `newbuf` as an offset into the buffer. -/
structure Conv where
  newval : UInt32
  newbuf : ℕ
  buf : Buf

/-- One round of `itoa`: the lowest digit goes to the buffer. -/
def Conv.round (radix : UInt32) (v : Conv) : Conv :=
  { newval := v.newval / radix
    newbuf := v.newbuf + 1
    buf := Function.update v.buf v.newbuf (lookup.getD (v.newval % radix).toNat 0) }

/-- `itoa` -/
def itoa (value : UInt32) (buf : Buf) (radix : Int32) : Option Buf :=
  if value = 0 then some (Function.update (Function.update buf 0 0x30) 1 0)
  else do
    let v ← whileDo (fun v : Conv => v.newval > 0) (Conv.round radix.toUInt32) convRounds ⟨value, 0, buf⟩
    strrev (Function.update v.buf v.newbuf 0)

/-- The buffer holds the string `s` and its NUL. -/
structure Terminated (b : Buf) (s : List UInt8) : Prop where
  text : ∀ i < s.length, b i = s.getD i 0
  nul : b s.length = 0
  visible : ∀ c ∈ s, c ≠ 0

/-! ### strlen and strrev -/

theorem Terminated.ne_zero {b : Buf} {s : List UInt8} (h : Terminated b s) {i : ℕ} (hi : i < s.length) :
    b i ≠ 0 := by
  rw [h.text i hi, List.getD_eq_getElem _ _ hi]
  exact h.visible _ (List.getElem_mem hi)

theorem strlenBuf_terminated {b : Buf} {s : List UInt8} (h : Terminated b s) (hlen : s.length ≤ convRounds) :
    strlenBuf b = some s.length := by
  obtain ⟨len, hrun, hle, hend⟩ := @whileDo_inv ℕ (fun len => b len != 0) (· + 1)
    (fun len => len ≤ s.length) (fun len => s.length - len) convRounds 0 (Nat.zero_le _) hlen
    (by
      intro len hle hc
      have hne : len ≠ s.length := by
        rintro rfl
        simp [h.nul] at hc
      omega)
  have hlen' : len = s.length := by
    by_contra hne
    exact h.ne_zero (lt_of_le_of_ne hle hne) (by simpa using hend)
  rw [strlenBuf, hrun, hlen']

/-- Half way through `strrev` the ends are exchanged and the middle is as it was. -/
structure Swapped (s : Buf) (len : ℕ) (w : Swap) : Prop where
  ends : w.beg + w.last = (len : ℤ) - 1
  beg_nonneg : 0 ≤ w.beg
  last_ge : w.beg ≤ w.last + 1
  outer : ∀ i : ℕ, i < len → ((i : ℤ) < w.beg ∨ w.last < i) → w.s i = s (len - 1 - i)
  inner : ∀ i : ℕ, w.beg ≤ i → (i : ℤ) ≤ w.last → w.s i = s i
  behind : ∀ i, len ≤ i → w.s i = s i

theorem Swap.round_s (w : Swap) (i : ℕ) :
    w.round.s i = if i = w.beg.toNat then w.s w.last.toNat
      else if i = w.last.toNat then w.s w.beg.toNat else w.s i := by
  simp only [Swap.round, Function.update_apply]

theorem Swapped.round {s : Buf} {len : ℕ} {w : Swap} (h : Swapped s len w) (hlt : w.beg < w.last) :
    Swapped s len w.round := by
  obtain ⟨hends, hnonneg, -, houter, hinner, hbehind⟩ := h
  obtain ⟨b, hb⟩ := Int.eq_ofNat_of_zero_le hnonneg
  obtain ⟨l, hl⟩ := Int.eq_ofNat_of_zero_le (show 0 ≤ w.last by omega)
  have hmirror : l = len - 1 - b := by omega
  have hbeg : w.round.beg = b + 1 := by rw [← hb]; rfl
  have hlast : w.round.last = l - 1 := by rw [← hl]; rfl
  have hround : ∀ i, w.round.s i = if i = b then w.s l else if i = l then w.s b else w.s i := by
    intro i
    rw [Swap.round_s, hb, hl, Int.toNat_natCast, Int.toNat_natCast]
  refine ⟨by omega, by omega, by omega, ?_, ?_, ?_⟩
  · intro i hi hout
    rw [hround]
    by_cases hib : i = b
    · rw [if_pos hib, hinner l (by omega) (by omega), hib, hmirror]
    · rw [if_neg hib]
      by_cases hil : i = l
      · rw [if_pos hil, hinner b (by omega) (by omega), show len - 1 - i = b by omega]
      · rw [if_neg hil]
        exact houter i hi (by omega)
  · intro i hbi hil
    rw [hround, if_neg (by omega), if_neg (by omega)]
    exact hinner i (by omega) (by omega)
  · intro i hi
    rw [hround, if_neg (by omega), if_neg (by omega)]
    exact hbehind i hi

/-- `strrev` reverses a string, of odd or even length, where it stands. -/
theorem strrev_terminated {b : Buf} {s : List UInt8} (h : Terminated b s) (hlen : s.length ≤ convRounds) :
    ∃ b', strrev b = some b' ∧ Terminated b' s.reverse := by
  obtain ⟨w, hrun, hw, hend⟩ := @whileDo_inv Swap (fun w => w.beg < w.last) Swap.round
    (Swapped b s.length) (fun w => (w.last - w.beg).toNat) convRounds ⟨b, 0, (s.length : ℤ) - 1⟩
    (by
      refine ⟨by simp, le_refl _, by simp, ?_, fun _ _ _ => rfl, fun _ _ => rfl⟩
      intro i hi hout
      simp only at hout
      omega)
    (by simp only; omega)
    (by
      intro w hw hc
      have hlt : w.beg < w.last := by simpa using hc
      refine ⟨hw.round hlt, ?_⟩
      simp only [Swap.round]
      omega)
  have hge : w.last ≤ w.beg := by simpa using hend
  refine ⟨w.s, ?_, ?_, ?_, ?_⟩
  · unfold strrev
    rw [strlenBuf_terminated h hlen]
    simp only [Option.bind_eq_bind, Option.bind_some]
    rw [hrun]
    rfl
  · intro i hi
    rw [List.length_reverse] at hi
    have hmirror : w.s i = b (s.length - 1 - i) := by
      by_cases hmid : (i : ℤ) < w.beg ∨ w.last < i
      · exact hw.outer i hi hmid
      · have hends := hw.ends
        rw [hw.inner i (by omega) (by omega), show s.length - 1 - i = i by omega]
    rw [hmirror, h.text _ (by omega), List.getD_eq_getElem _ _ (by omega),
      List.getD_eq_getElem _ _ (by simpa using hi), List.getElem_reverse]
  · rw [List.length_reverse, hw.behind _ (le_refl _)]
    exact h.nul
  · intro c hc
    exact h.visible c (List.mem_reverse.mp hc)

/-! ### itoa -/

/-- The digit's character. -/
def digitChar (d : ℕ) : UInt8 := lookup.getD d 0

/-- The numeral of `v` in a radix, the highest digit first. -/
def numeral (radix v : ℕ) : List UInt8 :=
  if v = 0 then [digitChar 0] else ((Nat.digits radix v).map digitChar).reverse

/-- Some rounds of `itoa`'s loop have written the low digits. -/
structure Converted (radix : ℕ) (value : ℕ) (v : Conv) : Prop where
  digits : ∃ ds : List ℕ, ds.length = v.newbuf ∧ ds ++ Nat.digits radix v.newval.toNat = Nat.digits radix value
    ∧ ∀ i < ds.length, v.buf i = digitChar (ds.getD i 0)
  newval_lt : v.newval.toNat < 2 ^ (32 - v.newbuf)
  newbuf_le : v.newbuf ≤ 32

theorem Converted.round {radix : UInt32} {value : ℕ} {v : Conv} (hradix : 2 ≤ radix.toNat)
    (h : Converted radix.toNat value v) (hpos : 0 < v.newval.toNat) :
    Converted radix.toNat value (v.round radix) := by
  obtain ⟨⟨ds, hlen, happend, hbuf⟩, hlt, hle⟩ := h
  have hle' : v.newbuf < 32 := by
    by_contra hge
    rw [show 32 - v.newbuf = 0 by omega] at hlt
    omega
  have hdiv : (v.newval / radix).toNat = v.newval.toNat / radix.toNat := UInt32.toNat_div ..
  have hmod : (v.newval % radix).toNat = v.newval.toNat % radix.toNat := UInt32.toNat_mod ..
  refine ⟨⟨ds ++ [v.newval.toNat % radix.toNat], ?_, ?_, ?_⟩, ?_, hle'⟩
  · simp [Conv.round, hlen]
  · rw [List.append_assoc, List.singleton_append]
    simp only [Conv.round]
    rw [hdiv, ← Nat.digits_def' (by omega) hpos, happend]
  · intro i hi
    rw [List.length_append, List.length_singleton] at hi
    simp only [Conv.round, Function.update_apply]
    by_cases hnew : i = v.newbuf
    · rw [if_pos hnew, hmod, hnew, ← hlen]
      simp [digitChar]
    · rw [if_neg hnew, hbuf i (by omega), List.getD_append _ _ _ _ (by omega)]
  · simp only [Conv.round]
    rw [hdiv, Nat.div_lt_iff_lt_mul (by omega)]
    calc v.newval.toNat < 2 ^ (32 - v.newbuf) := hlt
      _ = 2 ^ (32 - (v.newbuf + 1)) * 2 := by
        rw [← pow_succ, show 32 - (v.newbuf + 1) + 1 = 32 - v.newbuf by omega]
      _ ≤ 2 ^ (32 - (v.newbuf + 1)) * radix.toNat := Nat.mul_le_mul_left _ hradix

theorem digitChar_ne_zero {d : ℕ} (h : d < 36) : digitChar d ≠ 0 := by
  have every : ∀ d < 36, digitChar d ≠ 0 := by decide
  exact every d h

theorem digits_bounded {radix : ℕ} (h2 : 2 ≤ radix) (h36 : radix ≤ 36) (v : ℕ) :
    ∀ d ∈ Nat.digits radix v, d < 36 := by
  intro d hd
  exact lt_of_lt_of_le (Nat.digits_lt_base (by omega) hd) h36

theorem length_digits_le {radix : ℕ} (h2 : 2 ≤ radix) (v : UInt32) :
    (Nat.digits radix v.toNat).length ≤ 32 := by
  rw [Nat.digits_length_le_iff (by omega)]
  calc v.toNat < 2 ^ 32 := v.toNat_lt
    _ ≤ radix ^ 32 := Nat.pow_le_pow_left h2 32

/-- `itoa`'s loop ends, having written the digits from the lowest up. -/
theorem conv_loop {value : UInt32} (buf : Buf) {radix : UInt32} (h2 : 2 ≤ radix.toNat) :
    ∃ v, whileDo (fun v : Conv => v.newval > 0) (Conv.round radix) convRounds ⟨value, 0, buf⟩ = some v
      ∧ v.newbuf = (Nat.digits radix.toNat value.toNat).length
      ∧ ∀ i < v.newbuf, v.buf i = digitChar ((Nat.digits radix.toNat value.toNat).getD i 0) := by
  obtain ⟨v, hrun, hv, hend⟩ := @whileDo_inv Conv (fun v => v.newval > 0) (Conv.round radix)
    (Converted radix.toNat value.toNat) (fun v => 32 - v.newbuf) convRounds ⟨value, 0, buf⟩
    ⟨⟨[], rfl, by simp, by simp⟩, value.toNat_lt, Nat.zero_le _⟩ (by simp [convRounds])
    (by
      intro v hv hc
      have hpos : 0 < v.newval.toNat := by simpa [UInt32.lt_iff_toNat_lt] using hc
      have hnext := hv.round h2 hpos
      have hle := hnext.newbuf_le
      refine ⟨hnext, ?_⟩
      simp only [Conv.round] at hle ⊢
      omega)
  have hzero : v.newval.toNat = 0 := by simpa [UInt32.lt_iff_toNat_lt] using hend
  obtain ⟨ds, hlen, happend, hbuf⟩ := hv.digits
  rw [hzero, Nat.digits_zero, List.append_nil] at happend
  subst happend
  exact ⟨v, hrun, hlen.symm, fun i hi => hbuf i (by omega)⟩

/-- `itoa` leaves the numeral and its NUL in the buffer. -/
theorem itoa_terminated (value : UInt32) (buf : Buf) {radix : Int32} (h2 : 2 ≤ radix.toInt)
    (h36 : radix.toInt ≤ 36) :
    ∃ b, itoa value buf radix = some b ∧ Terminated b (numeral radix.toInt.toNat value.toNat) := by
  have hradix : radix.toUInt32.toNat = radix.toInt.toNat :=
    Int32.toNat_toUInt32_of_le (Int32.le_iff_toInt_le.mpr (by simpa using by omega))
  unfold itoa numeral
  by_cases hv : value = 0
  · rw [if_pos hv, if_pos (by simp [hv])]
    refine ⟨_, rfl, ?_, ?_, ?_⟩
    · intro i hi
      obtain rfl : i = 0 := by simpa using hi
      rfl
    · rfl
    · intro c hc
      obtain rfl : c = digitChar 0 := by simpa using hc
      exact digitChar_ne_zero (by decide)
  · have hv' : value.toNat ≠ 0 := fun h => hv (UInt32.toNat_inj.mp h)
    rw [if_neg hv, if_neg hv']
    obtain ⟨v, hrun, hlen, hbuf⟩ := @conv_loop value buf radix.toUInt32 (by omega)
    rw [hradix] at hlen hbuf
    simp only [Option.bind_eq_bind]
    rw [hrun, Option.bind_some]
    apply strrev_terminated
    · refine ⟨?_, ?_, ?_⟩
      · intro i hi
        rw [List.length_map] at hi
        rw [Function.update_of_ne (by omega), hbuf i (by omega), List.getD_eq_getElem _ _ hi,
          List.getD_eq_getElem _ _ (by simpa using hi), List.getElem_map]
      · rw [List.length_map, hlen, Function.update_self]
      · intro c hc
        obtain ⟨d, hd, rfl⟩ := List.mem_map.mp hc
        exact digitChar_ne_zero (digits_bounded (by omega) (by omega) _ d hd)
    · have hle := length_digits_le (show 2 ≤ radix.toInt.toNat by omega) value
      rw [List.length_map]
      exact le_trans hle (by decide)

/-! ### Numerals -/

/-- The digit a character stands for. -/
def digitValue (c : UInt8) : ℕ := lookup.idxOf c

/-- The number a string of digits denotes. -/
def denotes (radix : ℕ) (s : List UInt8) : ℕ := s.foldl (fun n c => n * radix + digitValue c) 0

/-- `s` is the numeral of `v`: digits of the radix, no leading zero but for `0`, and
its value. -/
structure IsNumeral (radix v : ℕ) (s : List UInt8) : Prop where
  ne_nil : s ≠ []
  digits : ∀ c ∈ s, ∃ d < radix, lookup[d]? = some c
  no_leading_zero : s.head? = some 0x30 → s = [0x30]
  value : denotes radix s = v

theorem digitValue_digitChar {d : ℕ} (h : d < 36) : digitValue (digitChar d) = d := by
  have every : ∀ d < 36, digitValue (digitChar d) = d := by decide
  exact every d h

theorem lookup_digitChar {d : ℕ} (h : d < 36) : lookup[d]? = some (digitChar d) := by
  have hd : d < lookup.length := h
  rw [List.getElem?_eq_getElem hd, digitChar, List.getD_eq_getElem _ _ hd]

theorem denotes_reverse (radix : ℕ) (ds : List ℕ) (h : ∀ d ∈ ds, d < 36) :
    denotes radix ((ds.map digitChar).reverse) = Nat.ofDigits radix ds := by
  unfold denotes
  induction ds with
  | nil => rfl
  | cons d ds ih =>
    rw [List.map_cons, List.reverse_cons, List.foldl_append, ih fun d' hd' => h d' (List.mem_cons_of_mem _ hd'),
      List.foldl_cons, List.foldl_nil, digitValue_digitChar (h d List.mem_cons_self), Nat.ofDigits_cons]
    ring

theorem isNumeral_numeral {radix : ℕ} (h2 : 2 ≤ radix) (h36 : radix ≤ 36) (v : ℕ) :
    IsNumeral radix v (numeral radix v) := by
  have hbound := digits_bounded h2 h36 v
  unfold numeral
  by_cases hv : v = 0
  · rw [if_pos hv]
    refine ⟨by simp, ?_, fun _ => rfl, by simp [denotes, digitValue_digitChar, hv]⟩
    intro c hc
    obtain rfl : c = digitChar 0 := by simpa using hc
    exact ⟨0, by omega, lookup_digitChar (by decide)⟩
  · rw [if_neg hv]
    refine ⟨?_, ?_, ?_, ?_⟩
    · simpa using Nat.digits_ne_nil_iff_ne_zero.mpr hv
    · intro c hc
      obtain ⟨d, hd, rfl⟩ := List.mem_map.mp (List.mem_reverse.mp hc)
      exact ⟨d, Nat.digits_lt_base (by omega) hd, lookup_digitChar (hbound d hd)⟩
    · -- the first character is the highest digit's, which is not zero
      intro hhead
      have hne : Nat.digits radix v ≠ [] := Nat.digits_ne_nil_iff_ne_zero.mpr hv
      rw [List.head?_reverse, List.getLast?_map, List.getLast?_eq_some_getLast hne, Option.map_some,
        Option.some.injEq] at hhead
      have hdigit := digitValue_digitChar (hbound _ (List.getLast_mem hne))
      rw [hhead] at hdigit
      exact absurd hdigit.symm (Nat.getLast_digit_ne_zero radix hv)
    · rw [denotes_reverse radix _ hbound, Nat.ofDigits_digits]

end Mp3Kernel
