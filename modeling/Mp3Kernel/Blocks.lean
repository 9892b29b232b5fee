/-
# memset, memcpy and memmove

lib.c's block operations are listings of assembly. `memset` and `memcpy` go in three
phases, byte by byte until the destination is aligned or the count has run out, then
by words with one string instruction, then the up to three bytes that are left; they
differ in how a byte is moved and in the string instruction. `memmove` is a string
instruction alone, run upwards or downwards. Whatever the alignment and the count,
what is left is the byte loop's memory.

Key definitions: `blockCode`, `memsetCode`, `memcpyCode`, `memmoveCode`,
`memsetEntry`, `copyEntry`, `Transfer`.
Key theorems: `top_phase`, `memset_halts`, `memcpy_halts`, `memmove_halts`,
`block_operations`.
-/
import Mp3Kernel.Basis.Assembly
import Mp3Kernel.Basis.Loop

namespace Mp3Kernel

open Asm Asm.Reg Asm.Operand Asm.Instr

/-- The labels of a block operation: `.memset_top` and so on. -/
inductive BlockLabel where
  | top | aligned | bottom | done | go
  deriving DecidableEq

/-- The lines from `.memset_bottom` on. -/
def bottomLines (byte : List Instr) : List (Line BlockLabel) :=
  .label .bottom ::
  .instr (testl (reg edx) edx) ::
  .jz .done ::
  (byte.map Line.instr ++
  .instr (subl 1 edx) ::
  .jmp .bottom ::
  .label .done :: [])

/-- The lines from `.memset_aligned` on. -/
def alignedLines (byte : List Instr) (words : Instr) : List (Line BlockLabel) :=
  .label .aligned ::
  .instr movwDsDx ::
  .instr movwDxEs ::
  .instr (movl ecx edx) ::
  .instr (shrl 2 ecx) ::
  .instr (andl 3 edx) ::
  .instr cld ::
  .instr words ::
  bottomLines byte

/-- The listing `memset` and `memcpy` share: `byte` moves one byte, `words` is the
string instruction. -/
def blockCode (byte : List Instr) (words : Instr) : List (Line BlockLabel) :=
  .label .top ::
  .instr (testl (reg ecx) ecx) ::
  .jz .done ::
  .instr (testl (imm 3) edi) ::
  .jz .aligned ::
  (byte.map Line.instr ++
  .instr (subl 1 ecx) ::
  .jmp .top ::
  alignedLines byte words)

/-- `memset` -/
def memsetCode : List (Line BlockLabel) := blockCode [movbTo edi, addl 1 edi] repStosl

/-- `memcpy` -/
def memcpyCode : List (Line BlockLabel) :=
  blockCode [movbFrom esi, movbTo edi, addl 1 edi, addl 1 esi] repMovsl

/-- `memmove` -/
def memmoveCode : List (Line BlockLabel) :=
  [.instr movwDsDx,
   .instr movwDxEs,
   .instr cld,
   .instr (cmp edi esi),
   .jae .go,
   .instr (leal (-1) esi ecx esi),
   .instr (leal (-1) edi ecx edi),
   .instr std,
   .label .go,
   .instr repMovsb]

/-- The state `memset(p, c, n)` enters its listing in. -/
def memsetEntry (s : State) (p : UInt32) (c : Int32) (n : UInt32) : State :=
  let c := c.toUInt32 &&& 0xFF
  { s with eax := c <<< 24 ||| c <<< 16 ||| c <<< 8 ||| c, edi := p, ecx := n }

/-- The state `memcpy(dest, src, n)` and `memmove(dest, src, n)` enter theirs in. -/
def copyEntry (s : State) (dest src n : UInt32) : State := { s with esi := src, edi := dest, ecx := n }

/-! ### The three phases -/

/-- What `byte` and `words` have to do for the listing to move `n` bytes: `P k` says
that `k` are moved. -/
structure Transfer (byte : List Instr) (words : Instr) (dst : UInt32) (n : ℕ) (P : ℕ → State → Prop) :
    Prop where
  /-- counters, flags and selectors do not matter -/
  frame : ∀ {k s s'}, P k s → s'.eax = s.eax → s'.esi = s.esi → s'.edi = s.edi → s'.mem = s.mem → P k s'
  byte_step : ∀ {k s}, P k s → k < n → P (k + 1) (byte.foldl (fun s i => exec i s) s)
  byte_ecx : ∀ s, (byte.foldl (fun s i => exec i s) s).ecx = s.ecx
  byte_edx : ∀ s, (byte.foldl (fun s i => exec i s) s).edx = s.edx
  words_step : ∀ {k s}, P k s → s.df = false → k + 4 * s.ecx.toNat ≤ n →
    P (k + 4 * s.ecx.toNat) (exec words s)
  words_edx : ∀ {k s}, P k s → s.df = false → k + 4 * s.ecx.toNat ≤ n → (exec words s).edx = s.edx

section Phases

variable {byte : List Instr} {words : Instr} {dst : UInt32} {n : ℕ} {P : ℕ → State → Prop}

theorem target_cons (line : Line BlockLabel) (rest : List (Line BlockLabel)) (l : BlockLabel) :
    target (line :: rest) l = if line.isLabel l then line :: rest else target rest l := by
  unfold target
  rw [List.dropWhile_cons]
  cases line.isLabel l <;> rfl

theorem target_top : target (blockCode byte words) .top = blockCode byte words := by
  simp [blockCode, target_cons, Line.isLabel]

theorem target_aligned : target (blockCode byte words) .aligned = alignedLines byte words := by
  simp [blockCode, alignedLines, target_cons, target_instrs, Line.isLabel]

theorem target_bottom : target (blockCode byte words) .bottom = bottomLines byte := by
  simp [blockCode, alignedLines, bottomLines, target_cons, target_instrs, Line.isLabel]

theorem target_done : target (blockCode byte words) .done = [.label .done] := by
  simp [blockCode, alignedLines, bottomLines, target_cons, target_instrs, Line.isLabel]

theorem toNat_sub_one {x : UInt32} {j : ℕ} (h : x.toNat = j + 1) : (x - 1).toNat = j := by
  rw [UInt32.toNat_sub_of_le _ _ (UInt32.le_iff_toNat_le.mpr (by simp [h])), h]
  rfl

theorem enters_of_ne_zero {r : Reg} {s : State} (h0 : s.get r ≠ 0) (l : BlockLabel) (body : List (Line BlockLabel)) :
    Reaches (blockCode byte words) (.label l :: .instr (testl (reg r) r) :: .jz .done :: body, s)
      (body, exec (testl (reg r) r) s) := by
  refine .step rfl (.step rfl (.step rfl ?_))
  rw [if_neg (by simp [exec, State.value, h0])]
  exact .refl _

namespace Transfer

theorem leaves_of_zero (T : Transfer byte words dst n P) {r : Reg} {s : State} (h0 : s.get r = 0) (hP : P n s)
    (l : BlockLabel) (body : List (Line BlockLabel)) :
    ∃ s', Reaches (blockCode byte words) (.label l :: .instr (testl (reg r) r) :: .jz .done :: body, s) ([], s') ∧
      P n s' := by
  refine ⟨exec (testl (reg r) r) s, ?_, T.frame hP rfl rfl rfl rfl⟩
  refine .step rfl (.step rfl (.step rfl ?_))
  rw [if_pos (by simp [exec, State.value, h0]), target_done]
  exact .step rfl (.refl _)

/-- `.memset_bottom`: the `edx` bytes that are left. -/
theorem bottom_phase (T : Transfer byte words dst n P) {j : ℕ} {s : State} {k : ℕ} (hj : s.edx.toNat = j)
    (hP : P k s) (hn : k + j = n) :
    ∃ s', Reaches (blockCode byte words) (bottomLines byte, s) ([], s') ∧ P n s' := by
  induction j generalizing s k with
  | zero =>
    have h0 : s.get edx = 0 := UInt32.toNat_inj.mp hj
    obtain rfl : k = n := hn
    exact T.leaves_of_zero h0 hP ..
  | succ j ih =>
    have h0 : s.get edx ≠ 0 := fun h0 => by simp [show s.edx = 0 from h0] at hj
    set t := exec (testl (reg edx) edx) s with ht
    set u := byte.foldl (fun s i => exec i s) t with hu
    have hPu : P (k + 1) u := T.byte_step (T.frame hP rfl rfl rfl rfl) (by omega)
    have hedx : (exec (subl 1 edx) u).edx = s.edx - 1 := congrArg (· - 1) (T.byte_edx t)
    obtain ⟨s', hreach, hPn⟩ := @ih (exec (subl 1 edx) u) (k + 1)
      (by rw [hedx, toNat_sub_one hj]) (T.frame hPu rfl rfl rfl rfl) (by omega)
    refine ⟨s', ?_, hPn⟩
    refine (enters_of_ne_zero h0 _ _).trans ?_
    refine (reaches_instrs byte _ t).trans ?_
    refine .step rfl (.step rfl ?_)
    rw [target_bottom]
    exact hreach

/-- `.memset_aligned`: the words, then what is left of the count. -/
theorem aligned_phase (T : Transfer byte words dst n P) {s : State} {k : ℕ} (hP : P k s)
    (hn : k + s.ecx.toNat = n) :
    ∃ s', Reaches (blockCode byte words) (alignedLines byte words, s) ([], s') ∧ P n s' := by
  set t := [movwDsDx, movwDxEs, movl ecx edx, shrl 2 ecx, andl 3 edx, cld].foldl
    (fun s i => exec i s) s with ht
  have hecx : t.ecx.toNat = s.ecx.toNat / 4 := by
    change (s.ecx >>> 2).toNat = _
    rw [UInt32.toNat_shiftRight]
    exact Nat.shiftRight_eq_div_pow _ 2
  have hedx : t.edx.toNat = s.ecx.toNat % 4 := by
    change (s.ecx &&& 3).toNat = _
    rw [UInt32.toNat_and]
    exact Nat.and_two_pow_sub_one_eq_mod _ 2
  have hPt : P k t := T.frame hP rfl rfl rfl rfl
  have hwords := T.words_step hPt rfl (by omega)
  have hedx' := T.words_edx hPt rfl (by omega)
  obtain ⟨s', hreach, hPn⟩ := T.bottom_phase (congrArg UInt32.toNat hedx') hwords (by omega)
  refine ⟨s', ?_, hPn⟩
  exact .step rfl ((reaches_instrs [_, _, _, _, _, _] _ s).trans (.step rfl hreach))

/-- `.memset_top`: single bytes up to an aligned destination. -/
theorem top_phase (T : Transfer byte words dst n P) {j : ℕ} {s : State} {k : ℕ} (hj : s.ecx.toNat = j)
    (hP : P k s) (hn : k + j = n) :
    ∃ s', Reaches (blockCode byte words) (blockCode byte words, s) ([], s') ∧ P n s' := by
  induction j generalizing s k with
  | zero =>
    have h0 : s.get ecx = 0 := UInt32.toNat_inj.mp hj
    obtain rfl : k = n := hn
    exact T.leaves_of_zero h0 hP ..
  | succ j ih =>
    have h0 : s.get ecx ≠ 0 := fun h0 => by simp [show s.ecx = 0 from h0] at hj
    set t := exec (testl (imm 3) edi) (exec (testl (reg ecx) ecx) s) with ht
    have hPt : P k t := T.frame hP rfl rfl rfl rfl
    by_cases haligned : t.zf
    · obtain ⟨s', hreach, hPn⟩ := T.aligned_phase hPt (by rw [← hn, ← hj]; rfl)
      refine ⟨s', ?_, hPn⟩
      refine (enters_of_ne_zero h0 _ _).trans ?_
      refine .step rfl (.step rfl ?_)
      rw [if_pos haligned, target_aligned]
      exact hreach
    · set u := byte.foldl (fun s i => exec i s) t with hu
      have hPu : P (k + 1) u := T.byte_step hPt (by omega)
      have hecx : (exec (subl 1 ecx) u).ecx = s.ecx - 1 := congrArg (· - 1) (T.byte_ecx t)
      obtain ⟨s', hreach, hPn⟩ := @ih (exec (subl 1 ecx) u) (k + 1)
        (by rw [hecx, toNat_sub_one hj]) (T.frame hPu rfl rfl rfl rfl) (by omega)
      refine ⟨s', ?_, hPn⟩
      refine (enters_of_ne_zero h0 _ _).trans ?_
      refine .step rfl (.step rfl ?_)
      rw [if_neg haligned]
      refine (reaches_instrs byte _ t).trans ?_
      refine .step rfl (.step rfl ?_)
      rw [target_top]
      exact hreach

end Transfer

end Phases

/-! ### memset -/

/-- The word `memset` stores is the byte four times. -/
theorem bytesOf_pattern (c : UInt32) :
    bytesOf ((c &&& 0xFF) <<< 24 ||| (c &&& 0xFF) <<< 16 ||| (c &&& 0xFF) <<< 8 ||| (c &&& 0xFF))
      = List.replicate 4 c.toUInt8 := by
  have every : ∀ i < 256, bytesOf (UInt32.ofNat i <<< 24 ||| UInt32.ofNat i <<< 16
      ||| UInt32.ofNat i <<< 8 ||| UInt32.ofNat i) = List.replicate 4 (UInt8.ofNat i) := by
    decide +kernel
  have hlow : c &&& 0xFF = UInt32.ofNat (c.toNat % 256) := by
    apply UInt32.toNat_inj.mp
    rw [UInt32.toNat_and, UInt32.toNat_ofNat_of_lt' (lt_trans (Nat.mod_lt _ (by decide)) (by decide))]
    exact Nat.and_two_pow_sub_one_eq_mod _ 8
  have hbyte : c.toUInt8 = UInt8.ofNat (c.toNat % 256) := by
    apply UInt8.toNat_inj.mp
    simp
  rw [hlow, hbyte]
  exact every _ (Nat.mod_lt _ (by decide))

/-- `k` bytes are set. -/
structure Filled (m : State) (dst : UInt32) (v : UInt8) (k : ℕ) (s : State) : Prop where
  eax : bytesOf s.eax = List.replicate 4 v
  edi : s.edi = dst + UInt32.ofNat k
  mem : s.mem = fill m.mem dst v k

theorem filled_transfer (m : State) (dst : UInt32) (v : UInt8) {n : ℕ} (hn : n < 2 ^ 32) :
    Transfer [movbTo edi, addl 1 edi] repStosl dst n (Filled m dst v) where
  frame := by
    rintro k s s' ⟨heax, hedi, hmem⟩ ha - hd hm
    exact ⟨ha ▸ heax, hd ▸ hedi, hm ▸ hmem⟩
  byte_step := by
    rintro k s ⟨heax, hedi, hmem⟩ hk
    have hal : [s.eax.toUInt8] = List.replicate 1 v := by
      have hhead := congrArg (List.take 1) heax
      exact hhead
    refine ⟨heax, ?_, ?_⟩
    · change s.edi + 1 = _
      rw [hedi, UInt32.add_assoc, UInt32.ofNat_add]
      rfl
    · change store s.mem s.edi [s.eax.toUInt8] = _
      rw [hal, store_replicate, hmem, hedi, fill_fill m.mem dst v (by omega)]
  byte_ecx := fun _ => rfl
  byte_edx := fun _ => rfl
  words_step := by
    rintro k s ⟨heax, hedi, hmem⟩ hdf hle
    rw [exec_repStosl s hdf heax (by omega)]
    refine ⟨heax, ?_, ?_⟩
    · simp only [hedi, add_ofNat_add]
    · simp only [hmem, hedi, fill_fill m.mem dst v (show k + 4 * s.ecx.toNat < 2 ^ 32 by omega)]
  words_edx := by
    rintro k s ⟨heax, hedi, hmem⟩ hdf hle
    rw [exec_repStosl s hdf heax (by omega)]

theorem memset_halts (m : State) (p : UInt32) (c : Int32) (n : UInt32) :
    ∃ s', Halts memsetCode (memsetEntry m p c n) s'
      ∧ s'.mem = fill m.mem p c.toUInt32.toUInt8 n.toNat := by
  have hstart : Filled m p c.toUInt32.toUInt8 0 (memsetEntry m p c n) :=
    ⟨bytesOf_pattern c.toUInt32, by simp [memsetEntry], (fill_zero ..).symm⟩
  obtain ⟨s', hreach, hend⟩ := (filled_transfer m p c.toUInt32.toUInt8 n.toNat_lt).top_phase rfl hstart
    (Nat.zero_add _)
  exact ⟨s', hreach, hend.mem⟩

/-! ### memcpy -/

/-- `k` bytes are copied. -/
structure Copied (m : State) (dst src : UInt32) (k : ℕ) (s : State) : Prop where
  esi : s.esi = src + UInt32.ofNat k
  edi : s.edi = dst + UInt32.ofNat k
  mem : s.mem = copied m.mem dst src k

theorem al_of_movb (a : UInt32) (b : UInt8) : ((a &&& 0xFFFFFF00) ||| b.toUInt32).toUInt8 = b := by
  rw [UInt32.toUInt8_or, UInt32.toUInt8_and, show (0xFFFFFF00 : UInt32).toUInt8 = 0 from rfl]
  simp

theorem ahead_later {dst src : UInt32} {n : ℕ} (h : Ahead dst src n) (a : UInt32) {j : ℕ} (hj : j ≤ n) :
    Ahead (dst + a) (src + a) j := by
  intro z hz
  rw [show src + a - (dst + a) = src - dst by grind]
  exact h z (by omega)

theorem copied_words {m s : State} {dst src : UInt32} {n k : ℕ} (hn : n < 2 ^ 32) (h : Ahead dst src n)
    (hP : Copied m dst src k s) (hdf : s.df = false) (hle : k + 4 * s.ecx.toNat ≤ n) :
    exec repMovsl s = { s with
      ecx := 0
      esi := s.esi + UInt32.ofNat (4 * s.ecx.toNat)
      edi := s.edi + UInt32.ofNat (4 * s.ecx.toNat)
      mem := copied s.mem s.edi s.esi (4 * s.ecx.toNat) } := by
  have hahead : Ahead s.edi s.esi (n - k) := by
    rw [hP.edi, hP.esi]
    exact ahead_later h _ (Nat.sub_le n k)
  exact rep_movs s hdf (by omega) hahead (by omega)

theorem copied_transfer (m : State) {dst src : UInt32} {n : ℕ} (hn : n < 2 ^ 32) (h : Ahead dst src n) :
    Transfer [movbFrom esi, movbTo edi, addl 1 edi, addl 1 esi] repMovsl dst n (Copied m dst src) where
  frame := by
    rintro k s s' ⟨hesi, hedi, hmem⟩ - hs hd hm
    exact ⟨hs ▸ hesi, hd ▸ hedi, hm ▸ hmem⟩
  byte_step := by
    rintro k s ⟨hesi, hedi, hmem⟩ hk
    refine ⟨?_, ?_, ?_⟩
    · change s.esi + 1 = _
      rw [hesi]
      exact add_ofNat_add src k 1
    · change s.edi + 1 = _
      rw [hedi]
      exact add_ofNat_add dst k 1
    · change store s.mem s.edi [((s.eax &&& 0xFFFFFF00) ||| (s.mem s.esi).toUInt32).toUInt8] = _
      rw [al_of_movb, ← copied_copied m.mem hn h (show k + 1 ≤ n by omega), ← hmem, ← hedi, ← hesi,
        ← store_load]
      simp [load]
  byte_ecx := fun _ => rfl
  byte_edx := fun _ => rfl
  words_step := by
    intro k s hP hdf hle
    have hrep := copied_words hn h hP hdf hle
    obtain ⟨hesi, hedi, hmem⟩ := hP
    rw [hrep]
    refine ⟨?_, ?_, ?_⟩
    · simp only [hesi, add_ofNat_add]
    · simp only [hedi, add_ofNat_add]
    · simp only [hmem, hedi, hesi, copied_copied m.mem hn h hle]
  words_edx := by
    intro k s hP hdf hle
    rw [copied_words hn h hP hdf hle]

/-- Copied upwards, no byte is read after it was written if the source lies above the
destination or the blocks do not meet. -/
theorem ahead_of_le {dst src : UInt32} {n : ℕ} (hle : dst.toNat ≤ src.toNat)
    (hsrc : src.toNat + n ≤ 2 ^ 32) : Ahead dst src n := by
  intro z hz
  rw [UInt32.toNat_add, UInt32.toNat_sub_of_le _ _ (UInt32.le_iff_toNat_le.mpr hle),
    UInt32.toNat_ofNat_of_lt' (show z < 2 ^ 32 by omega), Nat.mod_eq_of_lt (by omega)]
  omega

theorem ahead_of_apart {dst src : UInt32} {n : ℕ} (hlt : src.toNat + n ≤ dst.toNat)
    (hdst : dst.toNat + n ≤ 2 ^ 32) : Ahead dst src n := by
  intro z hz
  have hd := dst.toNat_lt
  rw [UInt32.toNat_add, UInt32.toNat_sub, UInt32.toNat_ofNat_of_lt' (show z < 2 ^ 32 by omega)]
  omega

theorem memcpy_halts (m : State) {dest src n : UInt32} (h : Ahead dest src n.toNat) :
    ∃ s', Halts memcpyCode (copyEntry m dest src n) s' ∧ s'.mem = copied m.mem dest src n.toNat := by
  have hstart : Copied m dest src 0 (copyEntry m dest src n) :=
    ⟨by simp [copyEntry], by simp [copyEntry], (copied_zero ..).symm⟩
  obtain ⟨s', hreach, hend⟩ := (copied_transfer m n.toNat_lt h).top_phase rfl hstart (Nat.zero_add _)
  exact ⟨s', hreach, hend.mem⟩

/-! ### memmove -/

/-- Copied downwards, no byte is read after it was written if the source lies below
the destination. -/
theorem behind_of_lt {dst src : UInt32} {n : ℕ} (hlt : src.toNat < dst.toNat)
    (hdst : dst.toNat + n ≤ 2 ^ 32) : Behind dst src n := by
  intro z hz
  have hd := dst.toNat_lt
  rw [UInt32.toNat_add, UInt32.toNat_sub, UInt32.toNat_ofNat_of_lt' (show z < 2 ^ 32 by omega)]
  omega

theorem target_go : target memmoveCode .go = [.label .go, .instr repMovsb] := by
  simp [memmoveCode, Line.isLabel, target]

/-- `memmove` comes to its end, and has copied the `n` bytes as they were. -/
theorem memmove_halts (m : State) {dest src n : UInt32} (hdest : dest.toNat + n.toNat ≤ 2 ^ 32)
    (hsrc : src.toNat + n.toNat ≤ 2 ^ 32) :
    ∃ s', Halts memmoveCode (copyEntry m dest src n) s' ∧ s'.mem = copied m.mem dest src n.toNat := by
  set t := [movwDsDx, movwDxEs, cld, cmp edi esi].foldl (fun s i => exec i s) (copyEntry m dest src n)
    with ht
  have hcf : t.cf = decide (src < dest) := rfl
  by_cases hlt : src < dest
  · -- the source lies below, so the copy starts at the ends and goes down
    set u := [leal (-1) esi ecx esi, leal (-1) edi ecx edi, std].foldl (fun s i => exec i s) t with hu
    refine ⟨exec repMovsb u, ?_, ?_⟩
    · refine (reaches_instrs [_, _, _, _] _ _).trans (.step rfl ?_)
      rw [if_pos (by rw [hcf]; exact decide_eq_true hlt)]
      refine (reaches_instrs [_, _, _] _ _).trans (.step rfl (.step rfl (.refl _)))
    · refine rep_movs_back u rfl ?_ ?_ (behind_of_lt (UInt32.lt_iff_toNat_lt.mp hlt) hdest)
      · change dest + n + (-1) = dest + n - 1
        grind
      · change src + n + (-1) = src + n - 1
        grind
  · refine ⟨exec repMovsb t, ?_, ?_⟩
    · refine (reaches_instrs [_, _, _, _] _ _).trans (.step rfl ?_)
      rw [if_neg (by rw [hcf]; simpa using hlt), target_go]
      exact .step rfl (.step rfl (.refl _))
    · have hle : dest.toNat ≤ src.toNat := UInt32.le_iff_toNat_le.mp (UInt32.not_lt.mp hlt)
      have hrep := @rep_movs t 1 n.toNat rfl n.toNat_lt (ahead_of_le hle hsrc) (le_of_eq (one_mul _))
      rw [one_mul] at hrep
      exact congrArg State.mem hrep

/-! ### The byte loops -/

theorem block_byte {dst : UInt32} {n i : ℕ} (h : dst.toNat + n ≤ 2 ^ 32) (hi : i < n) :
    (dst + UInt32.ofNat i - dst).toNat = i := by
  rw [show dst + UInt32.ofNat i - dst = UInt32.ofNat i by grind]
  exact UInt32.toNat_ofNat_of_lt' (show i < 2 ^ 32 by omega)

theorem block_frame {dst b : UInt32} {n : ℕ} (h : dst.toNat + n ≤ 2 ^ 32)
    (hb : b.toNat < dst.toNat ∨ dst.toNat + n ≤ b.toNat) : ¬ (b - dst).toNat < n := by
  have hd := dst.toNat_lt
  have hb' := b.toNat_lt
  rw [UInt32.toNat_sub]
  omega

theorem address_of_distance {dst b : UInt32} (h : dst.toNat ≤ b.toNat) :
    dst + UInt32.ofNat (b.toNat - dst.toNat) = b := by
  have hd : UInt32.ofNat (b.toNat - dst.toNat) = b - dst := by
    rw [← UInt32.toNat_sub_of_le _ _ (UInt32.le_iff_toNat_le.mpr h), UInt32.ofNat_toNat]
  rw [hd]
  grind

/-- `mem'` is `mem` with the `n` bytes from `dst` on replaced by `bytes`. -/
def Rewritten (mem mem' : UInt32 → UInt8) (dst : UInt32) (n : ℕ) (bytes : ℕ → UInt8) : Prop :=
  (∀ i < n, mem' (dst + UInt32.ofNat i) = bytes i)
  ∧ ∀ b, b.toNat < dst.toNat ∨ dst.toNat + n ≤ b.toNat → mem' b = mem b

theorem rewritten_fill (mem : UInt32 → UInt8) {dst : UInt32} (v : UInt8) {n : ℕ} (h : dst.toNat + n ≤ 2 ^ 32) :
    Rewritten mem (fill mem dst v n) dst n (fun _ => v) := by
  constructor
  · intro i hi
    unfold fill
    rw [block_byte h hi, if_pos hi]
  · intro b hb
    exact if_neg (block_frame h hb)

theorem rewritten_copied (mem : UInt32 → UInt8) {dst src : UInt32} {n : ℕ} (h : dst.toNat + n ≤ 2 ^ 32) :
    Rewritten mem (copied mem dst src n) dst n (fun i => mem (src + UInt32.ofNat i)) := by
  constructor
  · intro i hi
    unfold copied
    rw [block_byte h hi, if_pos hi, show dst + UInt32.ofNat i - dst = UInt32.ofNat i by grind]
  · intro b hb
    exact if_neg (block_frame h hb)

/-- The memory by the number of the byte. -/
def byteView (mem : UInt32 → UInt8) : ℤ → UInt8 := fun a => mem (UInt32.ofNat a.toNat)

theorem byteView_toNat (mem : UInt32 → UInt8) (b : UInt32) : byteView mem b.toNat = mem b := by
  simp [byteView]

/-- A block filled or copied is what the console's model says of `memset` and
`memcpy`. -/
theorem fill_loop (mem : UInt32 → UInt8) {dst : UInt32} (v : UInt8) {n : ℕ} (h : dst.toNat + n ≤ 2 ^ 32)
    (b : UInt32) :
    byteView (fill mem dst v n) b.toNat = Loop.memset (byteView mem) dst.toNat v n b.toNat := by
  obtain ⟨hin, hout⟩ := rewritten_fill mem v h
  rw [byteView_toNat]
  by_cases hb : dst.toNat ≤ b.toNat ∧ b.toNat < dst.toNat + n
  · have hi := hin (b.toNat - dst.toNat) (by omega)
    rw [address_of_distance hb.1] at hi
    rw [Loop.memset_in (by omega), hi]
  · rw [Loop.memset_out (by omega), hout b (by omega), byteView_toNat]

theorem copied_loop (mem : UInt32 → UInt8) {dst src : UInt32} {n : ℕ} (h : dst.toNat + n ≤ 2 ^ 32)
    (b : UInt32) :
    byteView (copied mem dst src n) b.toNat
      = Loop.memcpy (byteView mem) dst.toNat src.toNat n b.toNat := by
  obtain ⟨hin, hout⟩ := @rewritten_copied mem dst src n h
  rw [byteView_toNat]
  by_cases hb : dst.toNat ≤ b.toNat ∧ b.toNat < dst.toNat + n
  · have hi := hin (b.toNat - dst.toNat) (by omega)
    rw [address_of_distance hb.1] at hi
    rw [Loop.memcpy_in (by omega), hi]
    unfold byteView
    rw [show ((src.toNat : ℤ) + (b.toNat - dst.toNat)).toNat = src.toNat + (b.toNat - dst.toNat) by omega,
      UInt32.ofNat_add, UInt32.ofNat_toNat]
  · rw [Loop.memcpy_out (by omega), hout b (by omega), byteView_toNat]

/-- **The block operations are their byte loops.** On ranges that do not wrap, every
one comes to its end; `memset` has set exactly the `n` bytes to the low byte of `c`,
`memcpy` on ranges that do not meet and `memmove` on any two have put there the bytes
the source held before, and no other byte has changed. -/
theorem block_operations (m : State) (dest n : UInt32) (hdest : dest.toNat + n.toNat ≤ 2 ^ 32) :
    (∀ c, ∃ s', Halts memsetCode (memsetEntry m dest c n) s'
      ∧ Rewritten m.mem s'.mem dest n.toNat fun _ => c.toUInt32.toUInt8)
    ∧ ∀ src, src.toNat + n.toNat ≤ 2 ^ 32 →
      (dest.toNat + n.toNat ≤ src.toNat ∨ src.toNat + n.toNat ≤ dest.toNat →
        ∃ s', Halts memcpyCode (copyEntry m dest src n) s'
          ∧ Rewritten m.mem s'.mem dest n.toNat fun i => m.mem (src + UInt32.ofNat i))
      ∧ ∃ s', Halts memmoveCode (copyEntry m dest src n) s'
        ∧ Rewritten m.mem s'.mem dest n.toNat fun i => m.mem (src + UInt32.ofNat i) := by
  constructor
  · intro c
    obtain ⟨s', hhalts, hmem⟩ := memset_halts m dest c n
    exact ⟨s', hhalts, hmem ▸ rewritten_fill m.mem _ hdest⟩
  intro src hsrc
  constructor
  · intro hapart
    have hahead : Ahead dest src n.toNat := by
      rcases hapart with hbelow | habove
      · exact ahead_of_le (by omega) hsrc
      · exact ahead_of_apart habove hdest
    obtain ⟨s', hhalts, hmem⟩ := memcpy_halts m hahead
    exact ⟨s', hhalts, hmem ▸ rewritten_copied m.mem hdest⟩
  · obtain ⟨s', hhalts, hmem⟩ := memmove_halts m hdest hsrc
    exact ⟨s', hhalts, hmem ▸ rewritten_copied m.mem hdest⟩

/-- Seven bytes moved up by two, over themselves. -/
theorem block_operations_seven :
    (0x1003 : UInt32).toNat + (7 : UInt32).toNat ≤ 2 ^ 32 ∧ ∃ s',
      Halts memmoveCode (copyEntry ⟨0, 0, 0, 0, 0, false, false, false, 0, 0, fun a => a.toUInt8⟩ 0x1003 0x1001 7) s'
      ∧ s'.mem 0x1009 = 7 ∧ s'.mem 0x100A = 0x0A := by
  refine ⟨by decide, ?_⟩
  obtain ⟨s', hhalts, hin, hout⟩ := ((block_operations
    ⟨0, 0, 0, 0, 0, false, false, false, 0, 0, fun a => a.toUInt8⟩ 0x1003 7 (by decide)).2 0x1001 (by decide)).2
  exact ⟨s', hhalts, hin 6 (by decide), hout 0x100A (by decide)⟩

end Mp3Kernel
