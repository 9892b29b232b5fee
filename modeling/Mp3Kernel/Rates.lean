/-
# Setting the clock's rate

`rtc_write` takes the rate from the first byte of the caller's buffer, and
`change_rate` writes it to the clock's register A through two ports, the clock's
line masked meanwhile. The register writes are read off the ports: a byte for the
index port selects the register the next byte for the data port goes to. Programs
store a whole word, so what the call does with one depends on its low byte only.

Key definitions: `changeRateIo`, `rtcWriteIo`, `registerWrites`, `ValidRate`,
`SetsFrequency`.
Key theorems: `rtcWriteIo_rtcWrite`, `registerWrites_changeRateIo`,
`rtc_write_sets_frequency`.
-/
import Mp3Kernel.Masks
import Mp3Kernel.Descriptors

namespace Mp3Kernel

/-- A_NO_NMI -/
abbrev aNoNmi : UInt8 := 0x8A
/-- RTCPORT -/
abbrev rtcPort : UInt16 := 0x70
/-- RTCDATA -/
abbrev rtcData : UInt16 := 0x71
/-- RTC_IRQ -/
abbrev rtcIrq : UInt32 := 8
/-- CUR_MASK -/
abbrev curMask : UInt8 := 0xF0

/-- `change_rate`, down to the ports; `regA` is what register A reads. -/
def changeRateIo (s : Pic) (regA : UInt8) (rate : UInt32) : Pic :=
  if rate < defaultFreq ∨ rate > freqUpperBound then s
  else
    let rate' := 16 - rateLoop 32 rate 0
    let s := s.disableIrq rtcIrq
    let s := s.outb aNoNmi rtcPort
    let temp := regA
    let s := s.outb aNoNmi rtcPort
    let s := s.outb ((temp &&& curMask) ||| rate'.toUInt8) rtcData
    s.enableIrq rtcIrq

/-- `rtc_write`, down to the ports. -/
def rtcWriteIo (s : Pic) (regA : UInt8) (buf : Buf) : Int32 × Pic :=
  let rate := (buf 0).toUInt32
  if rate > freqUpperBound ∨ rate < defaultFreq then (-1, s)
  else if rate &&& (rate - 1) ≠ 0 then (-1, s)
  else (0, changeRateIo s regA rate)

/-- The writes to the clock's registers among the bytes for ports, as (register,
data), `selected` being the register selected before them. -/
def registerWrites : Option UInt8 → List (UInt16 × UInt8) → List (Option UInt8 × UInt8)
  | _, [] => []
  | selected, (port, data) :: outs =>
    if port = rtcPort then registerWrites (some data) outs
    else if port = rtcData then (selected, data) :: registerWrites selected outs
    else registerWrites selected outs

/-- The frequencies the clock has: the powers of two from 2 to 1024. -/
def ValidRate (f : UInt32) : Prop := ∃ e ≤ 10, 1 ≤ e ∧ f.toNat = 2 ^ e

instance (f : UInt32) : Decidable (ValidRate f) :=
  inferInstanceAs (Decidable (∃ e ≤ 10, 1 ≤ e ∧ f.toNat = 2 ^ e))

/-- Writing the word `f` to the clock sets its frequency to `f` if the clock has it,
and fails and writes no port if not. -/
def SetsFrequency (s : Pic) (regA : UInt8) (rest : Buf) (f : UInt32) : Prop :=
  let r := rtcWriteIo s regA (overlay rest (le32 f))
  (r.1 = 0 ↔ ValidRate f)
  ∧ (ValidRate f → ∃ out data, r.2.outs = s.outs ++ out
      ∧ registerWrites none out = [(some aNoNmi, data)]
      ∧ (data &&& 0x0F).toNat = 16 - Nat.log2 f.toNat ∧ data &&& 0xF0 = regA &&& 0xF0)
  ∧ (¬ ValidRate f → r.1 = -1 ∧ r.2 = s)

/-! ### What a byte does -/

theorem rate_cases {rate : UInt32} (h : ValidRate rate) :
    rate = 2 ∨ rate = 4 ∨ rate = 8 ∨ rate = 16 ∨ rate = 32 ∨ rate = 64 ∨ rate = 128
      ∨ rate = 256 ∨ rate = 512 ∨ rate = 1024 := by
  obtain ⟨e, he, h1, hf⟩ := h
  simp only [← UInt32.toNat_inj, UInt32.reduceToNat, hf]
  interval_cases e <;> simp

theorem validRate_in_range {rate : UInt32} (h : ValidRate rate) :
    ¬ (rate < defaultFreq ∨ rate > freqUpperBound) := by
  rcases rate_cases h with rfl | rfl | rfl | rfl | rfl | rfl | rfl | rfl | rfl | rfl <;> decide

/-- `rtc_write`'s tests let through exactly the clock's frequencies. -/
theorem rtcWriteIo_eq (s : Pic) (regA : UInt8) (buf : Buf) :
    rtcWriteIo s regA buf =
      if ValidRate (buf 0).toUInt32 then (0, changeRateIo s regA (buf 0).toUInt32) else (-1, s) := by
  have tests : ∀ n < 256,
      (¬ ((UInt8.ofNat n).toUInt32 > freqUpperBound ∨ (UInt8.ofNat n).toUInt32 < defaultFreq)
        ∧ (UInt8.ofNat n).toUInt32 &&& ((UInt8.ofNat n).toUInt32 - 1) = 0)
      ↔ ValidRate (UInt8.ofNat n).toUInt32 := by decide +kernel
  have hb := tests (buf 0).toNat (buf 0).toNat_lt
  rw [UInt8.ofNat_toNat] at hb
  unfold rtcWriteIo
  simp only
  by_cases hv : ValidRate (buf 0).toUInt32
  · obtain ⟨hrange, hpow⟩ := hb.mpr hv
    rw [if_neg hrange, if_neg (not_not.mpr hpow), if_pos hv]
  · rw [if_neg hv]
    split_ifs with hrange hpow
    · rfl
    · rfl
    · exact absurd (hb.mp ⟨hrange, not_not.mp hpow⟩) hv

/-! ### The ports -/

theorem disableIrq_outs (s : Pic) : ∃ mask, (s.disableIrq rtcIrq).outs = s.outs ++ [(slaveData, mask)] :=
  ⟨_, @Pic.apply_outs s (.disable rtcIrq) (by decide)⟩

theorem enableIrq_outs (s : Pic) : ∃ mask, (s.enableIrq rtcIrq).outs = s.outs ++ [(slaveData, mask)] :=
  ⟨_, @Pic.apply_outs s (.enable rtcIrq) (by decide)⟩

/-- With its line masked before and unmasked after, the clock has register A selected
twice and written once. -/
theorem changeRateIo_outs (s : Pic) (regA : UInt8) {rate : UInt32}
    (h : ¬ (rate < defaultFreq ∨ rate > freqUpperBound)) :
    ∃ masked unmasked, (changeRateIo s regA rate).outs = s.outs ++
      [(slaveData, masked), (rtcPort, aNoNmi), (rtcPort, aNoNmi),
        (rtcData, (regA &&& curMask) ||| (16 - rateLoop 32 rate 0).toUInt8), (slaveData, unmasked)] := by
  obtain ⟨masked, hmasked⟩ := disableIrq_outs s
  obtain ⟨unmasked, hunmasked⟩ := enableIrq_outs ((((s.disableIrq rtcIrq).outb aNoNmi rtcPort).outb
    aNoNmi rtcPort).outb ((regA &&& curMask) ||| (16 - rateLoop 32 rate 0).toUInt8) rtcData)
  refine ⟨masked, unmasked, ?_⟩
  unfold changeRateIo
  rw [if_neg h]
  refine hunmasked.trans ?_
  simp [Pic.outb, hmasked]

theorem registerWrites_changeRateIo (s : Pic) (regA : UInt8) {rate : UInt32}
    (h : ¬ (rate < defaultFreq ∨ rate > freqUpperBound)) :
    ∃ out, (changeRateIo s regA rate).outs = s.outs ++ out
      ∧ registerWrites none out
        = [(some aNoNmi, (regA &&& curMask) ||| (16 - rateLoop 32 rate 0).toUInt8)] := by
  obtain ⟨masked, unmasked, hout⟩ := changeRateIo_outs s regA h
  exact ⟨_, hout, rfl⟩

/-- Down to the ports or not, `rtc_write` returns the same and leaves the same byte
in register A. -/
theorem rtcWriteIo_rtcWrite (s : Pic) (dev : Devices) (buf : Buf) :
    (rtcWriteIo s dev.rtcRegA buf).1 = (rtcWrite dev buf).1
    ∧ ∃ out, (rtcWriteIo s dev.rtcRegA buf).2.outs = s.outs ++ out
      ∧ ((registerWrites none out).map Prod.snd).getLastD dev.rtcRegA = (rtcWrite dev buf).2.rtcRegA := by
  unfold rtcWriteIo rtcWrite
  simp only
  split_ifs with hrange hpow
  · exact ⟨rfl, [], by simp, rfl⟩
  · exact ⟨rfl, [], by simp, rfl⟩
  · have hrange' : ¬ ((buf 0).toUInt32 < defaultFreq ∨ (buf 0).toUInt32 > freqUpperBound) :=
      fun h => hrange h.symm
    obtain ⟨out, hout, hwrites⟩ := registerWrites_changeRateIo s dev.rtcRegA hrange'
    refine ⟨rfl, out, hout, ?_⟩
    unfold changeRate
    rw [hwrites, if_neg hrange']
    rfl

theorem or_and_byte (a b c : UInt8) : (a ||| b) &&& c = (a &&& c) ||| (b &&& c) := by
  apply UInt8.toBitVec_inj.mp
  ext i hi
  simp [Bool.and_or_distrib_right]

/-- The byte for register A keeps the high half and has the rate for its low half. -/
theorem rate_byte (regA : UInt8) {rate : UInt32} (h : ValidRate rate) :
    (((regA &&& curMask) ||| (16 - rateLoop 32 rate 0).toUInt8) &&& 0x0F).toNat = 16 - Nat.log2 rate.toNat
    ∧ ((regA &&& curMask) ||| (16 - rateLoop 32 rate 0).toUInt8) &&& 0xF0 = regA &&& 0xF0 := by
  have low : ∀ r : UInt8, ((regA &&& curMask) ||| r) &&& 0x0F = r &&& 0x0F := by
    intro r
    rw [or_and_byte, UInt8.and_assoc, show curMask &&& (0x0F : UInt8) = 0 from rfl]
    simp
  have high : ∀ r : UInt8, r &&& 0xF0 = 0 → ((regA &&& curMask) ||| r) &&& 0xF0 = regA &&& 0xF0 := by
    intro r hr
    rw [or_and_byte, hr, UInt8.and_assoc, show curMask &&& (0xF0 : UInt8) = 0xF0 from rfl]
    simp
  rcases rate_cases h with rfl | rfl | rfl | rfl | rfl | rfl | rfl | rfl | rfl | rfl
  all_goals
    rw [low, high _ (by decide)]
    exact ⟨by decide, rfl⟩

/-! ### What a word does -/

theorem overlay_le32_zero (rest : Buf) (f : UInt32) : overlay rest (le32 f) 0 = f.toUInt8 := rfl

theorem toUInt8_toUInt32_of_le {f : UInt32} (h : f.toNat ≤ 255) : f.toUInt8.toUInt32 = f := by
  apply UInt32.toNat_inj.mp
  simp only [UInt8.toNat_toUInt32, UInt32.toNat_toUInt8]
  exact Nat.mod_eq_of_lt (by omega)

/-- The frequencies above 128 have no low byte the clock accepts. -/
theorem le_of_validRate {f : UInt32} (h : ValidRate f) (hlow : ValidRate f.toUInt8.toUInt32) :
    f.toNat ≤ 255 := by
  rcases rate_cases h with rfl | rfl | rfl | rfl | rfl | rfl | rfl | rfl | rfl | rfl
  case inr.inr.inr.inr.inr.inr.inr.inl => exact absurd hlow (by decide)
  case inr.inr.inr.inr.inr.inr.inr.inr.inl => exact absurd hlow (by decide)
  case inr.inr.inr.inr.inr.inr.inr.inr.inr => exact absurd hlow (by decide)
  all_goals decide

/-- **The clock takes a word by its low byte.** Writing a word to the clock does what
it should exactly when the word fits a byte, or neither the word nor its low byte is
a frequency the clock has. -/
theorem rtc_write_sets_frequency (s : Pic) (regA : UInt8) (rest : Buf) (f : UInt32) :
    SetsFrequency s regA rest f ↔ f.toNat ≤ 255 ∨ (¬ ValidRate f ∧ ¬ ValidRate f.toUInt8.toUInt32) := by
  unfold SetsFrequency
  simp only
  rw [rtcWriteIo_eq, overlay_le32_zero]
  by_cases hlow : ValidRate f.toUInt8.toUInt32
  · rw [if_pos hlow]
    constructor
    · rintro ⟨hret, -, -⟩
      exact Or.inl (le_of_validRate (hret.mp rfl) hlow)
    · intro h
      have hsmall : f.toNat ≤ 255 := h.resolve_right fun hnot => hnot.2 hlow
      rw [toUInt8_toUInt32_of_le hsmall] at hlow ⊢
      refine ⟨⟨fun _ => hlow, fun _ => rfl⟩, fun _ => ?_, fun hnot => absurd hlow hnot⟩
      obtain ⟨out, hout, hwrites⟩ := registerWrites_changeRateIo s regA (validRate_in_range hlow)
      exact ⟨out, _, hout, hwrites, rate_byte regA hlow⟩
  · rw [if_neg hlow]
    constructor
    · rintro ⟨hret, -, -⟩
      have hnot : ¬ ValidRate f := fun hv => absurd (hret.mpr hv) (by simp)
      exact Or.inr ⟨hnot, hlow⟩
    · intro h
      have hnot : ¬ ValidRate f := by
        rcases h with hsmall | ⟨hnot, -⟩
        · rwa [toUInt8_toUInt32_of_le hsmall] at hlow
        · exact hnot
      refine ⟨⟨fun h0 => absurd h0 (by simp), fun hv => absurd hv hnot⟩, fun hv => absurd hv hnot, ?_⟩
      exact fun _ => ⟨rfl, rfl⟩

/-- A program that asks for 1024 Hz is refused. -/
theorem rtc_write_refuses_1024 : ¬ SetsFrequency Pic.initial 0x26 (fun _ => 0) 1024 := by
  rintro ⟨hret, -, -⟩
  exact absurd (hret.mpr (by decide)) (by decide)

end Mp3Kernel
