/-
# printf

`printf` goes over its format, and its conversions take the words behind it on the
stack, one by one. A number is converted in an array of the conversion's own, whose
bytes are whatever the stack held. For `%#x` the digits go behind the array's first
eight bytes, and zeros to those of the eight that are missing, so that the string to
print starts at the byte whose number is the number of digits.

The text is the bytes handed to `putc`; the format is the memory from its first byte
on, for a format that ends in `%` is read on behind its NUL.

Key definitions: `convHex`, `convSigned`, `printfLoop`, `printfText`.
Key theorems: `convSigned_eq`, `convHex_padded`, `printf_total`, `printed_numerals`.
-/
import Mp3Kernel.Numerals
import Mp3Kernel.Devices

namespace Mp3Kernel

open Loop

/-- The buffer from the offset `p` on. -/
def behind (b : Buf) (p : ℕ) : Buf := fun i => b (p + i)

/-- The buffer with the bytes of `t` from the offset `p` on. -/
def splice (b : Buf) (p : ℕ) (t : Buf) : Buf := fun i => if i < p then b i else t (i - p)

/-- The locals of `puts`, the bytes it has handed to `putc` among them. -/
structure Puts where
  index : ℕ
  text : List UInt8

def Puts.round (s : Buf) (p : Puts) : Puts := ⟨p.index + 1, p.text ++ [s p.index]⟩

/-- `puts` of a conversion buffer -/
def putsBuf (s : Buf) : Option (List UInt8) :=
  (whileDo (fun p : Puts => s p.index != 0) (Puts.round s) convRounds ⟨0, []⟩).map Puts.text

/-- The locals of the loop that pads. -/
structure Pad where
  i : ℕ
  convBuf : Buf

def Pad.round (p : Pad) : Pad := ⟨p.i + 1, Function.update p.convBuf p.i 0x30⟩

/-- `%x` and `%#x` -/
def convHex (alternate : Bool) (word : UInt32) (convBuf : Buf) : Option (List UInt8) :=
  if !alternate then do
    let convBuf ← itoa word convBuf 16
    putsBuf convBuf
  else do
    let t ← itoa word (behind convBuf 8) 16
    let convBuf := splice convBuf 8 t
    let startingIndex ← strlenBuf (behind convBuf 8)
    let p ← whileDo (fun p : Pad => p.i < 8) Pad.round convRounds ⟨startingIndex, convBuf⟩
    putsBuf (behind p.convBuf startingIndex)

/-- `%u` -/
def convUnsigned (word : UInt32) (convBuf : Buf) : Option (List UInt8) := do
  let convBuf ← itoa word convBuf 10
  putsBuf convBuf

/-- `%d` -/
def convSigned (word : UInt32) (convBuf : Buf) : Option (List UInt8) :=
  let value := word.toInt32
  if value < 0 then do
    let convBuf := Function.update convBuf 0 0x2D
    let t ← itoa (-value).toUInt32 (behind convBuf 1) 10
    putsBuf (splice convBuf 1 t)
  else do
    let convBuf ← itoa value.toUInt32 convBuf 10
    putsBuf convBuf

/-- What `printf` has printed, and how far it is in the format. -/
structure Printed where
  count : ℕ
  text : List UInt8

/-- One byte of the format passed, `s` printed, before the rest. -/
def Printed.after (s : List UInt8) (p : Printed) : Printed := ⟨p.count + 1, s ++ p.text⟩

/-- The loop of `printf` over the rest of the format, `esp` counting the words taken.
Behind a `%` the conversion is awaited, with `alternate` set or not. The strings and
the conversion buffers' contents are what memory holds. -/
def printfLoop (args : ℕ → UInt32) (strings : UInt32 → List UInt8) (stack : ℕ → Buf) :
    Option Bool → List UInt8 → ℕ → Option Printed
  | none, [], _ => some ⟨0, []⟩
  | some _, [], _ => some ⟨1, []⟩
  | none, c :: buf, esp =>
    if c = 0 then some ⟨0, []⟩
    else if c = 0x25 then (printfLoop args strings stack (some false) buf esp).map (Printed.after [])
    else (printfLoop args strings stack none buf esp).map (Printed.after [c])
  | some alternate, c :: buf, esp =>
    if c = 0x25 then (printfLoop args strings stack none buf esp).map (Printed.after [0x25])
    else if c = 0x23 then (printfLoop args strings stack (some true) buf esp).map (Printed.after [])
    else if c = 0x78 then do
      let s ← convHex alternate (args esp) (stack esp)
      (printfLoop args strings stack none buf (esp + 1)).map (Printed.after s)
    else if c = 0x75 then do
      let s ← convUnsigned (args esp) (stack esp)
      (printfLoop args strings stack none buf (esp + 1)).map (Printed.after s)
    else if c = 0x64 then do
      let s ← convSigned (args esp) (stack esp)
      (printfLoop args strings stack none buf (esp + 1)).map (Printed.after s)
    else if c = 0x63 then
      (printfLoop args strings stack none buf (esp + 1)).map (Printed.after [(args esp).toUInt8])
    else if c = 0x73 then
      (printfLoop args strings stack none buf (esp + 1)).map (Printed.after (cstr (strings (args esp))))
    else (printfLoop args strings stack none buf esp).map (Printed.after [])

/-- `printf` -/
def printfText (args : ℕ → UInt32) (strings : UInt32 → List UInt8) (stack : ℕ → Buf)
    (format : List UInt8) : Option Printed :=
  printfLoop args strings stack none format 0

/-! ### The conversions -/

theorem putsBuf_terminated {b : Buf} {s : List UInt8} (h : Terminated b s) (hlen : s.length ≤ convRounds) :
    putsBuf b = some s := by
  obtain ⟨p, hrun, ⟨hle, htext⟩, hend⟩ := @whileDo_inv Puts (fun p => b p.index != 0) (Puts.round b)
    (fun p => p.index ≤ s.length ∧ p.text = s.take p.index) (fun p => s.length - p.index) convRounds ⟨0, []⟩
    ⟨Nat.zero_le _, rfl⟩ hlen
    (by
      intro p hp hc
      obtain ⟨hle, htext⟩ := hp
      have hlt : p.index < s.length := by
        refine lt_of_le_of_ne hle fun heq => ?_
        rw [heq, h.nul] at hc
        exact absurd hc (by decide)
      refine ⟨⟨hlt, ?_⟩, by simp only [Puts.round]; omega⟩
      simp only [Puts.round]
      rw [htext, h.text _ hlt, List.getD_eq_getElem _ _ hlt, List.take_concat_get' s p.index hlt])
  have hindex : p.index = s.length := by
    by_contra hne
    exact h.ne_zero (lt_of_le_of_ne hle hne) (by simpa using hend)
  rw [putsBuf, hrun, Option.map_some, htext, hindex, List.take_length]

theorem length_numeral_le {radix : ℕ} (h2 : 2 ≤ radix) (v : UInt32) :
    (numeral radix v.toNat).length ≤ 32 := by
  unfold numeral
  split_ifs
  · decide
  · simpa using length_digits_le h2 v

theorem puts_itoa (word : UInt32) (convBuf : Buf) {radix : Int32} (h2 : 2 ≤ radix.toInt)
    (h36 : radix.toInt ≤ 36) :
    (itoa word convBuf radix).bind putsBuf = some (numeral radix.toInt.toNat word.toNat) := by
  obtain ⟨b, hitoa, hb⟩ := itoa_terminated word convBuf h2 h36
  rw [hitoa, Option.bind_some]
  exact putsBuf_terminated hb (le_trans (length_numeral_le (by omega) word) (by decide))

theorem convUnsigned_eq (word : UInt32) (convBuf : Buf) :
    convUnsigned word convBuf = some (numeral 10 word.toNat) :=
  puts_itoa word convBuf (by decide) (by decide)

theorem behind_splice (b : Buf) (p : ℕ) (t : Buf) : behind (splice b p t) p = t := by
  funext i
  unfold behind splice
  rw [if_neg (by omega), Nat.add_sub_cancel_left]

/-- The text of `%d`: a minus sign before a negative number's numeral. -/
def signedNumeral (value : ℤ) : List UInt8 :=
  if value < 0 then 0x2D :: numeral 10 value.natAbs else numeral 10 value.natAbs

/-- Negated, a negative number is its absolute value as an unsigned word, the smallest
one too. -/
theorem neg_toUInt32_toNat {value : Int32} (h : value < 0) : (-value).toUInt32.toNat = value.toInt.natAbs := by
  have hneg : value.toInt < 0 := Int32.lt_iff_toInt_lt.mp h
  have hrange : -2 ^ 31 ≤ value.toInt := Int32.le_toInt value
  have hbits : ((-value).toUInt32.toNat : ℤ).bmod (2 ^ 32) = (-value.toInt).bmod (2 ^ 32) := by
    rw [← Int32.toInt_neg, ← Int32.toInt_toBitVec, BitVec.toInt_eq_toNat_bmod, Int32.toNat_toBitVec]
  have hlt := (-value).toUInt32.toNat_lt
  have hmod := (Int.bmod_eq_bmod_iff_bmod_sub_eq_zero).mp hbits
  have hdvd := Int.dvd_of_bmod_eq_zero hmod
  omega

theorem terminated_minus {b t : Buf} {s : List UInt8} (h : Terminated t s) :
    Terminated (splice (Function.update b 0 0x2D) 1 t) (0x2D :: s) := by
  refine ⟨?_, ?_, ?_⟩
  · intro i hi
    cases i with
    | zero => rfl
    | succ i =>
      rw [List.length_cons] at hi
      rw [List.getD_cons_succ, ← h.text i (by omega)]
      exact congrFun (behind_splice _ 1 t) i ▸ congrArg _ (Nat.add_comm i 1)
  · rw [List.length_cons, ← h.nul]
    exact congrFun (behind_splice _ 1 t) s.length ▸ congrArg _ (Nat.add_comm s.length 1)
  · intro c hc
    rcases List.mem_cons.mp hc with rfl | hc
    · decide
    · exact h.visible c hc

/-- `%d` prints the signed numeral. -/
theorem convSigned_eq (word : UInt32) (convBuf : Buf) :
    convSigned word convBuf = some (signedNumeral word.toInt32.toInt) := by
  have hsign : word.toInt32 < 0 ↔ word.toInt32.toInt < 0 := Int32.lt_iff_toInt_lt
  unfold convSigned signedNumeral
  simp only
  by_cases hneg : word.toInt32 < 0
  · rw [if_pos hneg, if_pos (hsign.mp hneg)]
    obtain ⟨t, hitoa, ht⟩ := @itoa_terminated (-word.toInt32).toUInt32
      (behind (Function.update convBuf 0 0x2D) 1) 10 (by decide) (by decide)
    have hlen := @length_numeral_le 10 (by decide) (-word.toInt32).toUInt32
    simp only [Option.bind_eq_bind]
    rw [hitoa, Option.bind_some, ← neg_toUInt32_toNat hneg]
    apply putsBuf_terminated (terminated_minus ht)
    exact le_trans (Nat.succ_le_succ hlen) (by decide)
  · have hnonneg : 0 ≤ word.toInt32 := Int32.not_lt.mp hneg
    rw [if_neg hneg, if_neg (mt hsign.mpr hneg)]
    have habs : word.toInt32.toUInt32.toNat = word.toInt32.toInt.natAbs := by
      rw [Int32.toNat_toUInt32_of_le hnonneg, ← Int32.toNat_toInt]
      have := Int32.le_iff_toInt_le.mp hnonneg
      simp at this
      omega
    rw [← habs]
    exact puts_itoa word.toInt32.toUInt32 convBuf (by decide) (by decide)

/-! ### %#x -/

/-- The padding loop has filled the bytes from `start` on. -/
structure Padded (start : ℕ) (t : Buf) (p : Pad) : Prop where
  le : p.i ≤ 8
  zeros : ∀ j, start ≤ j → j < p.i → p.convBuf j = 0x30
  digits : ∀ j, p.convBuf (8 + j) = t j

theorem Padded.round {start : ℕ} {t : Buf} {p : Pad} (h : Padded start t p) (hlt : p.i < 8) :
    Padded start t p.round := by
  refine ⟨hlt, ?_, ?_⟩
  · intro j hs hj
    simp only [Pad.round] at hj ⊢
    by_cases hnew : j = p.i
    · rw [hnew, Function.update_self]
    · rw [Function.update_of_ne hnew]
      exact h.zeros j hs (by omega)
  · intro j
    simp only [Pad.round]
    rw [Function.update_of_ne (by omega)]
    exact h.digits j

/-- Behind the last padding byte the digits follow. -/
theorem Padded.terminated {t : Buf} {s : List UInt8} {p : Pad} (ht : Terminated t s) (hlen : s.length ≤ 8)
    (h : Padded s.length t p) (hend : ¬ p.i < 8) :
    Terminated (behind p.convBuf s.length) (List.replicate (8 - s.length) 0x30 ++ s) := by
  have hi : p.i = 8 := le_antisymm h.le (by omega)
  have hdigit : ∀ j, 8 - s.length ≤ j → behind p.convBuf s.length j = t (j - (8 - s.length)) := by
    intro j hj
    unfold behind
    rw [← h.digits, show 8 + (j - (8 - s.length)) = s.length + j by omega]
  refine ⟨?_, ?_, ?_⟩
  · intro j hj
    rw [List.length_append, List.length_replicate] at hj
    by_cases hpad : j < 8 - s.length
    · rw [List.getD_append _ _ _ _ (by simpa using hpad), List.getD_replicate _ hpad]
      exact h.zeros _ (by omega) (by omega)
    · rw [hdigit j (by omega), List.getD_append_right _ _ _ _ (by simpa using by omega),
        List.length_replicate]
      exact ht.text _ (by omega)
  · rw [hdigit _ (by simp), ← ht.nul]
    simp
  · intro c hc
    rcases List.mem_append.mp hc with hzero | hdig
    · rw [List.eq_of_mem_replicate hzero]
      decide
    · exact ht.visible c hdig

theorem length_numeral_hex (v : UInt32) : (numeral 16 v.toNat).length ≤ 8 := by
  unfold numeral
  split_ifs
  · decide
  · rw [List.length_reverse, List.length_map, Nat.digits_length_le_iff (by decide)]
    exact v.toNat_lt

/-- `%#x` prints the numeral, padded with zeros to eight digits. -/
theorem convHex_padded (word : UInt32) (convBuf : Buf) :
    convHex true word convBuf = some (List.replicate (8 - (numeral 16 word.toNat).length) 0x30
      ++ numeral 16 word.toNat) := by
  obtain ⟨t, hitoa, ht⟩ : ∃ t, itoa word (behind convBuf 8) 16 = some t
      ∧ Terminated t (numeral 16 word.toNat) := itoa_terminated word _ (by decide) (by decide)
  have hlen := length_numeral_hex word
  set s := numeral 16 word.toNat with hs
  obtain ⟨p, hrun, hp, hend⟩ := @whileDo_inv Pad (fun p => p.i < 8) Pad.round (Padded s.length t)
    (fun p => 8 - p.i) convRounds ⟨s.length, splice convBuf 8 t⟩
    ⟨hlen, fun j hj hj' => absurd hj' (by simp only; omega), fun j => congrFun (behind_splice convBuf 8 t) j⟩
    (by simp only [convRounds]; omega)
    (by
      intro p hp hc
      have hlt : p.i < 8 := by simpa using hc
      refine ⟨hp.round hlt, ?_⟩
      simp only [Pad.round]
      omega)
  unfold convHex
  simp only [Bool.not_true, Bool.false_eq_true, if_false, Option.bind_eq_bind]
  rw [hitoa, Option.bind_some, behind_splice, strlenBuf_terminated ht (le_trans hlen (by decide)),
    Option.bind_some, hrun, Option.bind_some]
  apply putsBuf_terminated (hp.terminated ht hlen (by simpa using hend))
  simp only [List.length_append, List.length_replicate]
  exact le_trans (by omega : 8 - s.length + s.length ≤ 8) (by decide)

theorem convHex_plain (word : UInt32) (convBuf : Buf) :
    convHex false word convBuf = some (numeral 16 word.toNat) :=
  puts_itoa word convBuf (by decide) (by decide)

/-! ### The loop -/

section Printf

variable (args : ℕ → UInt32) (strings : UInt32 → List UInt8) (stack : ℕ → Buf)

/-- `printf` comes to its end, whatever the format and the stack. -/
theorem printf_total (mode : Option Bool) (buf : List UInt8) (esp : ℕ) :
    ∃ p, printfLoop args strings stack mode buf esp = some p := by
  induction buf generalizing mode esp with
  | nil => cases mode <;> exact ⟨_, rfl⟩
  | cons c buf ih =>
    have after : ∀ (mode : Option Bool) (s : List UInt8) (esp : ℕ),
        ∃ p, (printfLoop args strings stack mode buf esp).map (Printed.after s) = some p := by
      intro mode s esp
      obtain ⟨p, hp⟩ := ih mode esp
      exact ⟨_, by rw [hp, Option.map_some]⟩
    cases mode with
    | none =>
      rw [printfLoop]
      split_ifs
      · exact ⟨_, rfl⟩
      · exact after ..
      · exact after ..
    | some alternate =>
      have hex : ∃ s, convHex alternate (args esp) (stack esp) = some s := by
        cases alternate
        · exact ⟨_, convHex_plain ..⟩
        · exact ⟨_, convHex_padded ..⟩
      obtain ⟨s, hs⟩ := hex
      rw [printfLoop, hs, convUnsigned_eq, convSigned_eq]
      simp only [Option.bind_eq_bind, Option.bind_some]
      split_ifs <;> exact after ..

theorem printfLoop_plain (text rest : List UInt8) (esp : ℕ) (h : ∀ c ∈ text, c ≠ 0 ∧ c ≠ 0x25) :
    printfLoop args strings stack none (text ++ rest) esp
      = (printfLoop args strings stack none rest esp).map fun p => ⟨p.count + text.length, text ++ p.text⟩ := by
  induction text with
  | nil => simp
  | cons c text ih =>
    obtain ⟨h0, hpercent⟩ := h c List.mem_cons_self
    rw [List.cons_append, printfLoop, if_neg h0, if_neg hpercent,
      ih fun c' hc' => h c' (List.mem_cons_of_mem _ hc'), Option.map_map]
    refine congrArg (fun f => Option.map f _) ?_
    funext p
    simp [Printed.after, Nat.add_assoc]

/-- A text without conversions puts on the console what the boot's `printf`s put there. -/
theorem printf_plain (dev : Devices) {text : List UInt8} (h : ∀ c ∈ text, c ≠ 0 ∧ c ≠ 0x25) :
    ∃ p, printfText args strings stack text = some p
      ∧ (printf dev text).console = dev.console ++ p.text.map fun c => (c, dev.shown) := by
  have hloop := printfLoop_plain args strings stack text [] 0 h
  rw [List.append_nil] at hloop
  refine ⟨_, hloop, ?_⟩
  have puts : ∀ (text : List UInt8) (dev : Devices),
      (printf dev text).console = dev.console ++ text.map fun c => (c, dev.shown) := by
    intro text
    induction text with
    | nil => simp [printf]
    | cons c text ih =>
      intro dev
      have htail := ih (putc dev c dev.shown)
      simpa [printf, putc] using htail
  simpa using puts text dev

/-- The conversions of a number, wherever in a format they stand, and what is behind
them. -/
theorem printfLoop_hash_x (buf : List UInt8) (esp : ℕ) :
    printfLoop args strings stack none (0x25 :: 0x23 :: 0x78 :: buf) esp
      = (printfLoop args strings stack none buf (esp + 1)).map fun p =>
        ⟨p.count + 3, List.replicate (8 - (numeral 16 (args esp).toNat).length) 0x30
          ++ numeral 16 (args esp).toNat ++ p.text⟩ := by
  obtain ⟨p, hp⟩ := printf_total args strings stack none buf (esp + 1)
  simp [printfLoop, convHex_padded, hp, Printed.after]

theorem printfLoop_d (buf : List UInt8) (esp : ℕ) :
    printfLoop args strings stack none (0x25 :: 0x64 :: buf) esp
      = (printfLoop args strings stack none buf (esp + 1)).map fun p =>
        ⟨p.count + 2, signedNumeral (args esp).toInt32.toInt ++ p.text⟩ := by
  obtain ⟨p, hp⟩ := printf_total args strings stack none buf (esp + 1)
  simp [printfLoop, convSigned_eq, hp, Printed.after]

end Printf

theorem denotes_zeros (radix n : ℕ) (s : List UInt8) :
    denotes radix (List.replicate n 0x30 ++ s) = denotes radix s := by
  induction n with
  | zero => rfl
  | succ n ih =>
    rw [← ih, List.replicate_succ, List.cons_append]
    simp [denotes, show digitValue 0x30 = 0 from rfl]

/-- **Numbers are printed as what they are.** `itoa` leaves the numeral of the value,
NUL-terminated, for every radix from 2 to 36. Wherever it stands in a format, `%#x`
prints eight hexadecimal digits that denote the word, and `%d` the signed decimal
numeral of the word, for the smallest number too. -/
theorem printed_numerals :
    (∀ (value : UInt32) (buf : Buf) (radix : Int32), 2 ≤ radix.toInt → radix.toInt ≤ 36 →
      ∃ b s, itoa value buf radix = some b ∧ Terminated b s ∧ IsNumeral radix.toInt.toNat value.toNat s)
    ∧ ∀ args strings stack buf esp,
      (∃ s p, s.length = 8 ∧ (∀ c ∈ s, ∃ d < 16, lookup[d]? = some c) ∧ denotes 16 s = (args esp).toNat
        ∧ printfLoop args strings stack none buf (esp + 1) = some p
        ∧ printfLoop args strings stack none (0x25 :: 0x23 :: 0x78 :: buf) esp
          = some ⟨p.count + 3, s ++ p.text⟩)
      ∧ ∃ s p, IsNumeral 10 (args esp).toInt32.toInt.natAbs s
        ∧ printfLoop args strings stack none buf (esp + 1) = some p
        ∧ printfLoop args strings stack none (0x25 :: 0x64 :: buf) esp
          = some ⟨p.count + 2, (if (args esp).toInt32.toInt < 0 then 0x2D :: s else s) ++ p.text⟩ := by
  refine ⟨?_, ?_⟩
  · intro value buf radix h2 h36
    obtain ⟨b, hitoa, hb⟩ := itoa_terminated value buf h2 h36
    exact ⟨b, _, hitoa, hb, isNumeral_numeral (by omega) (by omega) _⟩
  intro args strings stack buf esp
  obtain ⟨p, hp⟩ := printf_total args strings stack none buf (esp + 1)
  constructor
  · have hnum := @isNumeral_numeral 16 (by decide) (by decide) (args esp).toNat
    have hlen := length_numeral_hex (args esp)
    refine ⟨List.replicate (8 - (numeral 16 (args esp).toNat).length) 0x30
      ++ numeral 16 (args esp).toNat, p, ?_, ?_, ?_, hp, ?_⟩
    · rw [List.length_append, List.length_replicate]
      omega
    · intro c hc
      rcases List.mem_append.mp hc with hzero | hdig
      · rw [List.eq_of_mem_replicate hzero]
        exact ⟨0, by decide, rfl⟩
      · exact hnum.digits c hdig
    · rw [denotes_zeros]
      exact hnum.value
    · rw [printfLoop_hash_x, hp, Option.map_some]
  · have hnum := @isNumeral_numeral 10 (by decide) (by decide) (args esp).toInt32.toInt.natAbs
    refine ⟨_, p, hnum, hp, ?_⟩
    rw [printfLoop_d, hp, Option.map_some]
    rfl

end Mp3Kernel
