/-
# Where the PCBs and the kernel stacks lie

Process `p` owns the 8 KB below `K_MEM_END - p * K_STACK_SIZE`: its PCB at the
bottom, its kernel stack above. So the address computed from a pid and the one
computed from any stack pointer inside the stack agree (`maskPcb_eq`), and
different processes' areas are disjoint (`pcbAddr_inj`, `stack_disjoint`).
-/
import Mp3Kernel.Kernel

namespace Mp3Kernel

/-- A pid of the process table. -/
def IsPid (p : ℤ) : Prop := 0 ≤ p ∧ p < 6

instance (p : ℤ) : Decidable (IsPid p) := by unfold IsPid; infer_instance

theorem pcbAddr_cast {p : ℤ} (h : IsPid p) : (pcbAddr p : ℤ) = 0x800000 - (p + 1) * 0x2000 := by
  obtain ⟨h0, h6⟩ := h
  simp only [pcbAddr, kMemEnd, kStackSize]
  omega

theorem stackTop_eq {p : ℤ} (h : IsPid p) : stackTop p = pcbAddr p + 8188 := by
  have h1 := pcbAddr_cast h
  obtain ⟨h0, h6⟩ := h
  simp only [stackTop, kMemEnd, kStackSize, wordSize]
  omega

theorem pcbAddr_inj {p q : ℤ} (hp : IsPid p) (hq : IsPid q) (h : pcbAddr p = pcbAddr q) : p = q := by
  have h1 := pcbAddr_cast hp
  have h2 := pcbAddr_cast hq
  omega

theorem pcbAddr_ne {p q : ℤ} (hp : IsPid p) (hq : IsPid q) (h : p ≠ q) : pcbAddr p ≠ pcbAddr q :=
  fun he => h (pcbAddr_inj hp hq he)

/-- The mask clears the low 13 bits. -/
theorem maskPcb_div (x : ℕ) (h : x < 2 ^ 32) : maskPcb x = x / 8192 * 8192 := by
  have e : pcbBitmask = (2 ^ 19 - 1) <<< 13 := by decide
  unfold maskPcb
  rw [e, show (8192 : ℕ) = 2 ^ 13 by norm_num]
  apply Nat.eq_of_testBit_eq
  intro i
  rw [Nat.testBit_and, Nat.testBit_shiftLeft, Nat.testBit_mul_two_pow, Nat.testBit_div_two_pow,
    Nat.testBit_two_pow_sub_one]
  by_cases h1 : 13 ≤ i
  · simp only [ge_iff_le, h1, decide_true, Bool.true_and, Nat.sub_add_cancel h1]
    by_cases h2 : i - 13 < 19
    · simp [h2]
    · have hbit : x.testBit i = false :=
        Nat.testBit_lt_two_pow (lt_of_lt_of_le h (Nat.pow_le_pow_right (by norm_num) (by omega)))
      simp [hbit]
  · simp [h1]

theorem maskPcb_eq {p : ℤ} (hp : IsPid p) {x : ℕ} (h1 : pcbAddr p ≤ x) (h2 : x < pcbAddr p + 8192) :
    maskPcb x = pcbAddr p := by
  have hc := pcbAddr_cast hp
  obtain ⟨h0, h6⟩ := hp
  rw [maskPcb_div x (by omega)]
  obtain ⟨n, hn⟩ : ∃ n : ℕ, pcbAddr p = n * 8192 := ⟨(1023 - p).toNat, by omega⟩
  omega

theorem maskPcb_user {p : ℤ} (hp : IsPid p) : maskPcb usrStackAddr ≠ pcbAddr p := by
  have hc := pcbAddr_cast hp
  have hm : maskPcb usrStackAddr = 0x83FE000 := by decide
  obtain ⟨h0, h6⟩ := hp
  omega

/-- The stack pointer of process `p`, between its PCB and the top of its stack. -/
def InStack (p : ℤ) (x : ℕ) : Prop := pcbAddr p + pcbSize ≤ x ∧ x ≤ stackTop p

theorem InStack.mask {p : ℤ} (hp : IsPid p) {x : ℕ} (h : InStack p x) : maskPcb x = pcbAddr p := by
  obtain ⟨h1, h2⟩ := h
  have := stackTop_eq hp
  exact maskPcb_eq hp (by omega) (by omega)

theorem inStack_top {p : ℤ} (hp : IsPid p) : InStack p (stackTop p) := by
  have h := stackTop_eq hp
  have h2 : (1304 : ℕ) ≤ 8188 := by norm_num
  refine ⟨?_, le_refl _⟩
  rw [h]
  exact Nat.add_le_add_left h2 _

/-- A frame on the stack of process `p`: the stack and frame pointers in it. -/
structure OnStack (p : ℤ) (esp ebp : ℕ) : Prop where
  low : pcbAddr p + pcbSize ≤ esp
  le : esp ≤ ebp
  high : ebp + 8 ≤ stackTop p

theorem OnStack.inStack {p : ℤ} {esp ebp : ℕ} (h : OnStack p esp ebp) : InStack p esp := by
  obtain ⟨h1, h2, h3⟩ := h
  exact ⟨h1, by omega⟩

theorem Frame.Fits.onStack {f : Frame} {p : ℤ} {base : ℕ} (hp : IsPid p) (hb : InStack p base)
    (hf : f.Fits base) : OnStack p f.esp f.ebp := by
  obtain ⟨h1, h2, h3⟩ := hf
  rw [hb.mask hp] at h1
  exact ⟨h1, h2, h3.trans hb.2⟩

theorem onStack_own {p : ℤ} (hp : IsPid p) {base x : ℕ} (hb : InStack p base) (h : onStack base x) :
    pcbAddr p + pcbSize ≤ x ∧ x < stackTop p := by
  obtain ⟨h1, h2⟩ := h
  rw [hb.mask hp] at h1
  exact ⟨h1, lt_of_lt_of_le h2 hb.2⟩

theorem stack_disjoint {p q : ℤ} (hp : IsPid p) (hq : IsPid q) (hne : p ≠ q) {x : ℕ}
    (h1 : pcbAddr p ≤ x) (h2 : x < stackTop p) (h3 : pcbAddr q ≤ x) (h4 : x < stackTop q) : False := by
  have e1 := stackTop_eq hp
  have e2 := stackTop_eq hq
  have m1 := maskPcb_eq hp h1 (by omega)
  have m2 := maskPcb_eq hq h3 (by omega)
  exact hne (pcbAddr_inj hp hq (m1.symm.trans m2))

end Mp3Kernel
