/-
# The interrupt masks

i8259.c keeps the mask of each of the two interrupt controllers in a byte of its
own and writes it out at every change. `enable_irq` and `disable_irq` are one
function but for what they do with the bit of the line. A run of calls is the
list of them, and what is left of it is, per line, the last call that named it.

Key definitions: `Pic`, `updateMask`, `enableIrq`, `disableIrq`, `IrqCall`,
`Pic.run`, `lastCall`, `lastOut`.
Key theorems: `Pic.masked_apply`, `Pic.masked_run`, `Pic.apply_synced`,
`irq_masks_follow_last_call`.
-/
import Mathlib.Data.Nat.Bitwise
import Mathlib.Data.List.Induction

namespace Mp3Kernel

/-- MAX_IRQ_NUM -/
abbrev maxIrqNum : UInt32 := 15
/-- MASTER_IRQ -/
abbrev masterIrq : UInt32 := 7
/-- MASTER_DATA -/
abbrev masterData : UInt16 := 0x21
/-- SLAVE_DATA -/
abbrev slaveData : UInt16 := 0xA1

/-- i8259.c's two masks, and the bytes written to ports. -/
structure Pic where
  masterMask : UInt8
  slaveMask : UInt8
  /-- the `outb(data, port)` made, as (port, data), oldest first -/
  outs : List (UInt16 × UInt8)
  deriving DecidableEq

namespace Pic

/-- The masks as initialised. -/
def initial : Pic := ⟨0xFF, 0xFF, []⟩

/-- `outb(data, port)` -/
def outb (s : Pic) (data : UInt8) (port : UInt16) : Pic :=
  { s with outs := s.outs ++ [(port, data)] }

/-- The body `enable_irq` and `disable_irq` share: `op` is what becomes of a mask
and the bit of the line. -/
def updateMask (op : UInt32 → UInt32 → UInt32) (s : Pic) (irqNum : UInt32) : Pic :=
  if irqNum > maxIrqNum ∨ irqNum < 0 then s
  else if irqNum > masterIrq then
    let bitVector : UInt32 := 1 <<< (irqNum - (masterIrq + 1))
    let mask := (op s.slaveMask.toUInt32 bitVector).toUInt8
    outb { s with slaveMask := mask } mask slaveData
  else
    let bitVector : UInt32 := 1 <<< irqNum
    let mask := (op s.masterMask.toUInt32 bitVector).toUInt8
    outb { s with masterMask := mask } mask masterData

/-- `enable_irq` -/
def enableIrq (s : Pic) (irqNum : UInt32) : Pic :=
  updateMask (fun mask bitVector => mask &&& ~~~bitVector) s irqNum

/-- `disable_irq` -/
def disableIrq (s : Pic) (irqNum : UInt32) : Pic :=
  updateMask (fun mask bitVector => mask ||| bitVector) s irqNum

end Pic

/-- A call of `enable_irq` or of `disable_irq`. -/
inductive IrqCall where
  | enable (irqNum : UInt32)
  | disable (irqNum : UInt32)
  deriving DecidableEq

namespace IrqCall

def irqNum : IrqCall → UInt32
  | enable irqNum => irqNum
  | disable irqNum => irqNum

/-- The call leaves the bit of its line set. -/
def masks : IrqCall → Bool
  | enable _ => false
  | disable _ => true

/-- The data port of the chip a line belongs to. -/
def dataPort (irqNum : UInt32) : UInt16 := if irqNum > masterIrq then slaveData else masterData

theorem dataPort_eq_slaveData (irqNum : UInt32) : dataPort irqNum = slaveData ↔ irqNum > masterIrq := by
  unfold dataPort
  by_cases h : irqNum > masterIrq
  · simp [h]
  · rw [if_neg h]
    exact iff_of_false (by decide) h

end IrqCall

/-- The last of the calls whose argument is exactly `irqNum`. -/
def lastCall (calls : List IrqCall) (irqNum : UInt32) : Option IrqCall :=
  calls.reverse.find? fun c => c.irqNum = irqNum

/-- The byte last written to `port`. -/
def lastOut (outs : List (UInt16 × UInt8)) (port : UInt16) : Option UInt8 :=
  (outs.reverse.find? fun o => o.1 = port).map Prod.snd

namespace Pic

/-- One call. -/
def apply (s : Pic) : IrqCall → Pic
  | .enable irqNum => s.enableIrq irqNum
  | .disable irqNum => s.disableIrq irqNum

/-- A sequence of calls. -/
def run (s : Pic) (calls : List IrqCall) : Pic := calls.foldl apply s

/-- The combined mask, the slave's in the high byte. -/
def combined (s : Pic) : UInt16 := (s.slaveMask.toUInt16 <<< 8) ||| s.masterMask.toUInt16

/-- The mask of the chip a line belongs to. -/
def cachedMask (s : Pic) (irqNum : UInt32) : UInt8 :=
  if irqNum > masterIrq then s.slaveMask else s.masterMask

end Pic

/-! ### One bit of a mask -/

theorem line_testBit (line : UInt32) (h : line < 32) (i : ℕ) :
    (1 <<< line : UInt32).toNat.testBit i = decide (i = line.toNat) := by
  have h' : line.toNat < 32 := by simpa [UInt32.lt_iff_toNat_lt] using h
  rw [UInt32.toNat_shiftLeft, Nat.mod_eq_of_lt h', Nat.shiftLeft_eq]
  simp only [UInt32.toNat_one, Nat.one_mul]
  rw [Nat.mod_eq_of_lt (Nat.pow_lt_pow_right (by decide) h'), Nat.testBit_two_pow]
  simp [eq_comm]

theorem mask_and_not_testBit (mask : UInt8) (bits : UInt32) (i : ℕ) (hi : i < 8) :
    (mask.toUInt32 &&& ~~~bits).toUInt8.toNat.testBit i
      = if bits.toNat.testBit i then false else mask.toNat.testBit i := by
  have h : (mask.toUInt32 &&& ~~~bits).toUInt8.toBitVec.getLsbD i
      = (mask.toBitVec.getLsbD i && !bits.toBitVec.getLsbD i) := by
    simp [hi]
  simp only [← BitVec.testBit_toNat, UInt8.toNat_toBitVec, UInt32.toNat_toBitVec] at h
  rw [h]
  cases bits.toNat.testBit i <;> simp

theorem mask_or_testBit (mask : UInt8) (bits : UInt32) (i : ℕ) (hi : i < 8) :
    (mask.toUInt32 ||| bits).toUInt8.toNat.testBit i
      = if bits.toNat.testBit i then true else mask.toNat.testBit i := by
  have h : (mask.toUInt32 ||| bits).toUInt8.toBitVec.getLsbD i
      = (mask.toBitVec.getLsbD i || bits.toBitVec.getLsbD i) := by
    simp [hi]
  simp only [← BitVec.testBit_toNat, UInt8.toNat_toBitVec, UInt32.toNat_toBitVec] at h
  rw [h]
  cases bits.toNat.testBit i <;> simp

namespace Pic

theorem combined_testBit (s : Pic) (k : ℕ) (hk : k < 16) :
    s.combined.toNat.testBit k
      = if k < 8 then s.masterMask.toNat.testBit k else s.slaveMask.toNat.testBit (k - 8) := by
  have h : s.combined.toBitVec.getLsbD k
      = if k < 8 then s.masterMask.toBitVec.getLsbD k else s.slaveMask.toBitVec.getLsbD (k - 8) := by
    unfold combined
    split_ifs with h8
    · simp [hk, h8]
    · have hm : s.masterMask.toBitVec.getLsbD k = false := by
        apply BitVec.getLsbD_of_ge
        omega
      simp [hk, h8, hm]
  simpa only [← BitVec.testBit_toNat, UInt8.toNat_toBitVec, UInt16.toNat_toBitVec] using h

/-! ### One call -/

/-- A call with an argument above 15 does nothing at all. -/
theorem updateMask_out_of_range (op : UInt32 → UInt32 → UInt32) (s : Pic) {irqNum : UInt32}
    (h : irqNum > maxIrqNum) : updateMask op s irqNum = s := by
  unfold updateMask
  rw [if_pos (Or.inl h)]

theorem not_out_of_range {irqNum : UInt32} (h : ¬ irqNum > maxIrqNum) :
    ¬ (irqNum > maxIrqNum ∨ irqNum < 0) := by
  rintro (h' | h')
  · exact h h'
  · simp [UInt32.lt_iff_toNat_lt] at h'

theorem updateMask_master (op : UInt32 → UInt32 → UInt32) (s : Pic) {irqNum : UInt32}
    (h : ¬ irqNum > masterIrq) :
    updateMask op s irqNum =
      outb { s with masterMask := (op s.masterMask.toUInt32 (1 <<< irqNum)).toUInt8 }
        (op s.masterMask.toUInt32 (1 <<< irqNum)).toUInt8 masterData := by
  have h15 : ¬ irqNum > maxIrqNum := fun h' => h (UInt32.lt_trans (by decide) h')
  unfold updateMask
  rw [if_neg (not_out_of_range h15), if_neg h]

theorem updateMask_slave (op : UInt32 → UInt32 → UInt32) (s : Pic) {irqNum : UInt32}
    (h15 : ¬ irqNum > maxIrqNum) (h : irqNum > masterIrq) :
    updateMask op s irqNum =
      outb { s with slaveMask := (op s.slaveMask.toUInt32 (1 <<< (irqNum - 8))).toUInt8 }
        (op s.slaveMask.toUInt32 (1 <<< (irqNum - 8))).toUInt8 slaveData := by
  unfold updateMask
  rw [if_neg (not_out_of_range h15), if_pos h]
  rfl

/-- If `op` sets the bits given to `v` and keeps the others, the update sets the bit
of its line to `v` and keeps every other line's. -/
theorem updateMask_testBit {op : UInt32 → UInt32 → UInt32} {v : Bool}
    (hop : ∀ (mask : UInt8) (bits : UInt32) (i : ℕ), i < 8 →
      (op mask.toUInt32 bits).toUInt8.toNat.testBit i
        = if bits.toNat.testBit i then v else mask.toNat.testBit i)
    (s : Pic) (irqNum : UInt32) (k : ℕ) (hk : k < 16) :
    (updateMask op s irqNum).combined.toNat.testBit k
      = if irqNum.toNat = k then v else s.combined.toNat.testBit k := by
  have h15 : (irqNum > maxIrqNum) ↔ 15 < irqNum.toNat := UInt32.lt_iff_toNat_lt
  have h7 : (irqNum > masterIrq) ↔ 7 < irqNum.toNat := UInt32.lt_iff_toNat_lt
  by_cases hout : irqNum > maxIrqNum
  · have hlt := h15.mp hout
    rw [updateMask_out_of_range op s hout, if_neg (by omega)]
  have hle := mt h15.mpr hout
  rw [combined_testBit _ k hk, combined_testBit s k hk]
  by_cases hslave : irqNum > masterIrq
  · -- the slave's byte changes, whose bits are lines 8 to 15
    have hgt := h7.mp hslave
    rw [updateMask_slave op s hout hslave]
    have hline : (irqNum - 8).toNat = irqNum.toNat - 8 := by
      apply UInt32.toNat_sub_of_le
      exact UInt32.le_iff_toNat_le.mpr hgt
    by_cases hk8 : k < 8
    · rw [if_pos hk8, if_pos hk8, if_neg (by omega)]
      rfl
    · rw [if_neg hk8, if_neg hk8]
      change (op s.slaveMask.toUInt32 (1 <<< (irqNum - 8))).toUInt8.toNat.testBit (k - 8) = _
      rw [hop _ _ _ (by omega), line_testBit _ (UInt32.lt_iff_toNat_lt.mpr (by
        rw [hline]
        exact lt_of_le_of_lt (Nat.sub_le _ _) (by simp only [UInt32.reduceToNat]; omega))), hline]
      refine if_congr ?_ rfl rfl
      simp only [decide_eq_true_eq]
      omega
  · have hle7 := mt h7.mpr hslave
    rw [updateMask_master op s hslave]
    by_cases hk8 : k < 8
    · rw [if_pos hk8, if_pos hk8]
      change (op s.masterMask.toUInt32 (1 <<< irqNum)).toUInt8.toNat.testBit k = _
      rw [hop _ _ _ hk8, line_testBit _ (UInt32.lt_iff_toNat_lt.mpr (by
        simp only [UInt32.reduceToNat]
        omega))]
      refine if_congr ?_ rfl rfl
      simp [eq_comm]
    · rw [if_neg hk8, if_neg hk8, if_neg (by omega)]
      rfl

theorem enableIrq_testBit (s : Pic) (irqNum : UInt32) (k : ℕ) (hk : k < 16) :
    (s.enableIrq irqNum).combined.toNat.testBit k
      = if irqNum.toNat = k then false else s.combined.toNat.testBit k := by
  exact @updateMask_testBit (fun mask bits => mask &&& ~~~bits) false mask_and_not_testBit s irqNum k hk

theorem disableIrq_testBit (s : Pic) (irqNum : UInt32) (k : ℕ) (hk : k < 16) :
    (s.disableIrq irqNum).combined.toNat.testBit k
      = if irqNum.toNat = k then true else s.combined.toNat.testBit k := by
  exact @updateMask_testBit (fun mask bits => mask ||| bits) true mask_or_testBit s irqNum k hk

theorem masked_apply (s : Pic) (c : IrqCall) (k : ℕ) (hk : k < 16) :
    (s.apply c).combined.toNat.testBit k
      = if c.irqNum.toNat = k then c.masks else s.combined.toNat.testBit k := by
  cases c with
  | enable irqNum => exact enableIrq_testBit s irqNum k hk
  | disable irqNum => exact disableIrq_testBit s irqNum k hk

theorem apply_out_of_range (s : Pic) {c : IrqCall} (h : c.irqNum > maxIrqNum) : s.apply c = s := by
  cases c with
  | enable irqNum => exact updateMask_out_of_range (fun mask bits => mask &&& ~~~bits) s h
  | disable irqNum => exact updateMask_out_of_range (fun mask bits => mask ||| bits) s h

/-! ### The ports -/

/-- The byte last written to the data port of the line's chip is the chip's mask. -/
def Synced (s : Pic) (irqNum : UInt32) : Prop :=
  lastOut s.outs (IrqCall.dataPort irqNum) = some (s.cachedMask irqNum)

theorem updateMask_outs (op : UInt32 → UInt32 → UInt32) (s : Pic) {irqNum : UInt32}
    (h15 : ¬ irqNum > maxIrqNum) :
    (updateMask op s irqNum).outs
      = s.outs ++ [(IrqCall.dataPort irqNum, (updateMask op s irqNum).cachedMask irqNum)] := by
  unfold IrqCall.dataPort cachedMask
  by_cases hslave : irqNum > masterIrq
  · rw [updateMask_slave op s h15 hslave, if_pos hslave, if_pos hslave]
    rfl
  · rw [updateMask_master op s hslave, if_neg hslave, if_neg hslave]
    rfl

theorem apply_outs (s : Pic) {c : IrqCall} (h : ¬ c.irqNum > maxIrqNum) :
    (s.apply c).outs
      = s.outs ++ [(IrqCall.dataPort c.irqNum, (s.apply c).cachedMask c.irqNum)] := by
  cases c with
  | enable irqNum => exact updateMask_outs (fun mask bits => mask &&& ~~~bits) s h
  | disable irqNum => exact updateMask_outs (fun mask bits => mask ||| bits) s h

theorem lastOut_apply (s : Pic) {c : IrqCall} (h : ¬ c.irqNum > maxIrqNum) (port : UInt16) :
    lastOut (s.apply c).outs port
      = if IrqCall.dataPort c.irqNum = port then some ((s.apply c).cachedMask c.irqNum)
        else lastOut s.outs port := by
  rw [apply_outs s h]
  unfold lastOut
  rw [List.reverse_append, List.reverse_singleton, List.singleton_append, List.find?_cons]
  by_cases hport : IrqCall.dataPort c.irqNum = port <;> simp [hport]

/-- After a valid call the byte last written to its chip's data port is the chip's
cached mask. -/
theorem apply_synced (s : Pic) {c : IrqCall} (h : ¬ c.irqNum > maxIrqNum) :
    (s.apply c).Synced c.irqNum := by
  unfold Synced
  rw [lastOut_apply s h, if_pos rfl]

theorem cachedMask_congr (s : Pic) {i j : UInt32} (h : IrqCall.dataPort i = IrqCall.dataPort j) :
    s.cachedMask i = s.cachedMask j := by
  have hchip : (i > masterIrq) ↔ (j > masterIrq) := by
    rw [← IrqCall.dataPort_eq_slaveData, h, IrqCall.dataPort_eq_slaveData]
  unfold cachedMask
  rw [if_congr hchip rfl rfl]

theorem updateMask_cachedMask_of_ne (op : UInt32 → UInt32 → UInt32) (s : Pic) {irqNum j : UInt32}
    (h : IrqCall.dataPort irqNum ≠ IrqCall.dataPort j) :
    (updateMask op s irqNum).cachedMask j = s.cachedMask j := by
  by_cases hout : irqNum > maxIrqNum
  · rw [updateMask_out_of_range op s hout]
  unfold IrqCall.dataPort at h
  unfold cachedMask
  by_cases hslave : irqNum > masterIrq
  · have hj : ¬ j > masterIrq := fun hj => h (by rw [if_pos hslave, if_pos hj])
    rw [updateMask_slave op s hout hslave, if_neg hj, if_neg hj]
    rfl
  · have hj : j > masterIrq := by
      by_contra hj
      exact h (by rw [if_neg hslave, if_neg hj])
    rw [updateMask_master op s hslave, if_pos hj, if_pos hj]
    rfl

theorem cachedMask_apply_of_ne (s : Pic) {c : IrqCall} {j : UInt32}
    (h : IrqCall.dataPort c.irqNum ≠ IrqCall.dataPort j) :
    (s.apply c).cachedMask j = s.cachedMask j := by
  cases c with
  | enable irqNum => exact updateMask_cachedMask_of_ne (fun mask bits => mask &&& ~~~bits) s h
  | disable irqNum => exact updateMask_cachedMask_of_ne (fun mask bits => mask ||| bits) s h

/-! ### A run of calls -/

theorem lastCall_append (calls : List IrqCall) (c : IrqCall) (irqNum : UInt32) :
    lastCall (calls ++ [c]) irqNum = if c.irqNum = irqNum then some c else lastCall calls irqNum := by
  unfold lastCall
  rw [List.reverse_append, List.reverse_singleton, List.singleton_append, List.find?_cons]
  by_cases h : c.irqNum = irqNum <;> simp [h]

theorem run_append (s : Pic) (calls : List IrqCall) (c : IrqCall) :
    s.run (calls ++ [c]) = (s.run calls).apply c := by
  unfold run
  rw [List.foldl_append]
  rfl

/-- After a run, the bit of a line is what the last call that named the line left,
or the bit from before the run. -/
theorem masked_run (s : Pic) (calls : List IrqCall) (irqNum : UInt32) (h : irqNum.toNat < 16) :
    (s.run calls).combined.toNat.testBit irqNum.toNat
      = ((lastCall calls irqNum).map IrqCall.masks).getD (s.combined.toNat.testBit irqNum.toNat) := by
  induction calls using List.reverseRecOn with
  | nil => rfl
  | append_singleton calls c ih =>
    rw [run_append, masked_apply _ c _ h, lastCall_append]
    by_cases hc : c.irqNum = irqNum
    · rw [if_pos hc, if_pos (congrArg UInt32.toNat hc)]
      rfl
    · rw [if_neg hc, if_neg (fun h' => hc (UInt32.toNat_inj.mp h'))]
      exact ih

theorem lastCall_irqNum {calls : List IrqCall} {irqNum : UInt32} {c : IrqCall}
    (h : lastCall calls irqNum = some c) : c.irqNum = irqNum := by
  simpa using List.find?_some h

/-- From the masks as initialised a line is unmasked exactly when the last call that
named it was `enable_irq`. -/
theorem unmasked_run (calls : List IrqCall) (irqNum : UInt32) (h : irqNum.toNat < 16) :
    (initial.run calls).combined.toNat.testBit irqNum.toNat = false
      ↔ lastCall calls irqNum = some (.enable irqNum) := by
  rw [masked_run initial calls irqNum h]
  cases hc : lastCall calls irqNum with
  | none =>
    have hinit : ∀ k < 16, initial.combined.toNat.testBit k = true := by decide
    simp [hinit _ h]
  | some c =>
    have hnum := lastCall_irqNum hc
    cases c with
    | enable a =>
      obtain rfl : a = irqNum := hnum
      simp [IrqCall.masks]
    | disable a => simp [IrqCall.masks]

/-! ### Calls on distinct lines -/

/-- Two states with the same bits have the same masks. -/
theorem cachedMask_eq_of_testBit {s s' : Pic}
    (h : ∀ k < 16, s.combined.toNat.testBit k = s'.combined.toNat.testBit k) (irqNum : UInt32) :
    s.cachedMask irqNum = s'.cachedMask irqNum := by
  have byte_ext : ∀ a b : UInt8, (∀ i < 8, a.toNat.testBit i = b.toNat.testBit i) → a = b := by
    intro a b hab
    apply UInt8.toNat_inj.mp
    apply Nat.eq_of_testBit_eq
    intro i
    by_cases hi : i < 8
    · exact hab i hi
    · have hbig : 2 ^ 8 ≤ 2 ^ i := Nat.pow_le_pow_right (by decide) (by omega)
      rw [Nat.testBit_lt_two_pow (lt_of_lt_of_le a.toNat_lt hbig),
        Nat.testBit_lt_two_pow (lt_of_lt_of_le b.toNat_lt hbig)]
  unfold cachedMask
  split_ifs
  · apply byte_ext
    intro i hi
    have hk := h (i + 8) (by omega)
    rwa [combined_testBit _ _ (by omega), combined_testBit _ _ (by omega), if_neg (by omega),
      if_neg (by omega), Nat.add_sub_cancel] at hk
  · apply byte_ext
    intro i hi
    have hk := h i (by omega)
    rwa [combined_testBit _ _ (by omega), combined_testBit _ _ (by omega), if_pos hi,
      if_pos hi] at hk

theorem cachedMask_comm (s : Pic) {c c' : IrqCall} (h : c.irqNum ≠ c'.irqNum) (irqNum : UInt32) :
    ((s.apply c).apply c').cachedMask irqNum = ((s.apply c').apply c).cachedMask irqNum := by
  apply cachedMask_eq_of_testBit
  intro k hk
  rw [masked_apply _ c' k hk, masked_apply _ c k hk, masked_apply _ c k hk, masked_apply _ c' k hk]
  by_cases hc : c.irqNum.toNat = k
  · have hc' : c'.irqNum.toNat ≠ k := fun e => h (UInt32.toNat_inj.mp (hc.trans e.symm))
    rw [if_neg hc', if_pos hc, if_pos hc]
  · rw [if_neg hc, if_neg hc]

theorem lastOut_comm (s : Pic) {c c' : IrqCall} (h : c.irqNum ≠ c'.irqNum) (port : UInt16) :
    lastOut ((s.apply c).apply c').outs port = lastOut ((s.apply c').apply c).outs port := by
  by_cases hv : c.irqNum > maxIrqNum
  · rw [apply_out_of_range s hv, apply_out_of_range _ hv]
  by_cases hv' : c'.irqNum > maxIrqNum
  · rw [apply_out_of_range s hv', apply_out_of_range _ hv']
  rw [lastOut_apply _ hv', lastOut_apply _ hv, lastOut_apply _ hv, lastOut_apply _ hv']
  by_cases hp : IrqCall.dataPort c.irqNum = port <;> by_cases hp' : IrqCall.dataPort c'.irqNum = port
  · rw [if_pos hp', if_pos hp, cachedMask_comm s h, cachedMask_congr _ (hp'.trans hp.symm)]
  · rw [if_pos hp, if_neg hp', if_pos hp,
      ← cachedMask_apply_of_ne (s.apply c) (fun e => hp' (e.trans hp)), cachedMask_comm s h]
  · rw [if_pos hp', if_neg hp, if_pos hp',
      ← cachedMask_apply_of_ne (s.apply c') (fun e => hp (e.trans hp')), cachedMask_comm s h]
  · rw [if_neg hp, if_neg hp', if_neg hp, if_neg hp']

end Pic

/-- **The masks remember the last call on each line.** After any sequence of calls a
line's bit is clear exactly when the last call with that argument was `enable_irq`,
a call with an argument above 15 changes nothing and writes no port, a valid one
leaves its chip's mask as the last byte at the chip's data port, and two calls on
distinct lines may be exchanged. -/
theorem irq_masks_follow_last_call (calls : List IrqCall) :
    (∀ irqNum : UInt32, irqNum ≤ 15 →
      ((Pic.initial.run calls).combined.toNat.testBit irqNum.toNat = false
        ↔ lastCall calls irqNum = some (.enable irqNum)))
    ∧ (∀ c : IrqCall, c.irqNum > 15 → Pic.initial.run (calls ++ [c]) = Pic.initial.run calls)
    ∧ (∀ c : IrqCall, c.irqNum ≤ 15 →
      lastOut (Pic.initial.run (calls ++ [c])).outs (IrqCall.dataPort c.irqNum)
        = some ((Pic.initial.run (calls ++ [c])).cachedMask c.irqNum))
    ∧ ∀ c c' : IrqCall, c.irqNum ≠ c'.irqNum →
      (Pic.initial.run (calls ++ [c, c'])).masterMask = (Pic.initial.run (calls ++ [c', c])).masterMask
      ∧ (Pic.initial.run (calls ++ [c, c'])).slaveMask = (Pic.initial.run (calls ++ [c', c])).slaveMask
      ∧ ∀ port, lastOut (Pic.initial.run (calls ++ [c, c'])).outs port
        = lastOut (Pic.initial.run (calls ++ [c', c])).outs port := by
  refine ⟨?_, ?_, ?_, ?_⟩
  · intro irqNum h
    apply Pic.unmasked_run
    have := UInt32.le_iff_toNat_le.mp h
    simp only [UInt32.reduceToNat] at this
    omega
  · intro c h
    rw [Pic.run_append, Pic.apply_out_of_range _ h]
  · intro c h
    rw [Pic.run_append]
    exact Pic.apply_synced _ (UInt32.not_lt.mpr h)
  · intro c c' h
    have hpair : ∀ a b : IrqCall, Pic.initial.run (calls ++ [a, b])
        = ((Pic.initial.run calls).apply a).apply b := by
      intro a b
      rw [← Pic.run_append, ← Pic.run_append, List.append_assoc]
      rfl
    rw [hpair, hpair]
    refine ⟨?_, ?_, ?_⟩
    · exact Pic.cachedMask_comm _ h 0
    · exact Pic.cachedMask_comm _ h 8
    · exact fun port => Pic.lastOut_comm _ h port

end Mp3Kernel
