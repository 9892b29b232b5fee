/-
# Assembly listings and string instructions

A listing is a list of lines: labels, instructions and jumps. What is left to run is
a suffix of the listing, and a jump goes back to the suffix its label starts, so that
a run is followed without counting lines. The instructions are those of 32-bit x86
that move and fill blocks; `rep` runs a string instruction `ecx` times, towards
higher or lower addresses by the direction flag. Segments are flat: a selector is
loaded and read, and an address is the same in each.

A block is an address and a length, and an address lies in it if its distance from
the block's start, mod 2^32, is below the length. `fill` and `copied` are the block
operations; both are put together from parts (`fill_fill`, `copied_copied`,
`copied_copied_back`), a copy only if no byte is read after it was written.

Key definitions: `Asm.State`, `Asm.Instr`, `Asm.Line`, `Asm.Reaches`, `Asm.Halts`,
`Asm.fill`, `Asm.copied`.
Key theorems: `Asm.Halts.unique`, `Asm.reaches_instrs`, `Asm.fill_fill`,
`Asm.copied_copied`, `Asm.exec_repStosl`, `Asm.rep_movs`, `Asm.rep_movs_back`.
-/
import Mathlib.Logic.Relation
import Mathlib.Tactic

namespace Asm

/-- The registers a string instruction uses. -/
inductive Reg where
  | eax | ecx | edx | esi | edi
  deriving DecidableEq

/-- The registers, the flags and selectors, and the memory. -/
structure State where
  eax : UInt32
  ecx : UInt32
  edx : UInt32
  esi : UInt32
  edi : UInt32
  zf : Bool
  cf : Bool
  /-- the direction flag: set, string instructions go down -/
  df : Bool
  ds : UInt16
  es : UInt16
  mem : UInt32 → UInt8

namespace State

def get (s : State) : Reg → UInt32
  | .eax => s.eax
  | .ecx => s.ecx
  | .edx => s.edx
  | .esi => s.esi
  | .edi => s.edi

def set (s : State) (v : UInt32) : Reg → State
  | .eax => { s with eax := v }
  | .ecx => { s with ecx := v }
  | .edx => { s with edx := v }
  | .esi => { s with esi := v }
  | .edi => { s with edi := v }

end State

/-- `$v` or `%r` -/
inductive Operand where
  | imm (v : UInt32)
  | reg (r : Reg)

/-- The instructions that do not jump, operands in the order source, destination. -/
inductive Instr where
  | testl (src : Operand) (dst : Reg)
  | cmp (src dst : Reg)
  | addl (v : UInt32) (dst : Reg)
  | subl (v : UInt32) (dst : Reg)
  | shrl (v : UInt32) (dst : Reg)
  | andl (v : UInt32) (dst : Reg)
  | movl (src dst : Reg)
  /-- `leal disp(base, index), dst` -/
  | leal (disp : UInt32) (base index dst : Reg)
  /-- `movb %al, (base)` -/
  | movbTo (base : Reg)
  /-- `movb (base), %al` -/
  | movbFrom (base : Reg)
  | movwDsDx
  | movwDxEs
  | cld
  | std
  | repStosl
  | repMovsl
  | repMovsb

inductive Line (L : Type) where
  | label (l : L)
  | instr (i : Instr)
  | jz (l : L)
  | jae (l : L)
  | jmp (l : L)

/-! ### The instructions -/

/-- `bytes` stored from the address `a` on. -/
def store (mem : UInt32 → UInt8) (a : UInt32) (bytes : List UInt8) : UInt32 → UInt8 :=
  fun b => bytes.getD (b - a).toNat (mem b)

/-- The `n` bytes from the address `a` on. -/
def load (mem : UInt32 → UInt8) (a : UInt32) (n : ℕ) : List UInt8 :=
  (List.range n).map fun i => mem (a + UInt32.ofNat i)

/-- The bytes of a word in memory. -/
def bytesOf (w : UInt32) : List UInt8 :=
  [w.toUInt8, (w >>> 8).toUInt8, (w >>> 16).toUInt8, (w >>> 24).toUInt8]

namespace State

def value (s : State) : Operand → UInt32
  | .imm v => v
  | .reg r => s.get r

/-- A string instruction's pointer moves on by its operand's size. -/
def advance (s : State) (a size : UInt32) : UInt32 := if s.df then a - size else a + size

/-- `stosl` -/
def stosl (s : State) : State :=
  { s with mem := store s.mem s.edi (bytesOf s.eax), edi := s.advance s.edi 4 }

/-- `movsb` and `movsl`, for an operand of `size` bytes -/
def movs (size : ℕ) (s : State) : State :=
  { s with
    mem := store s.mem s.edi (load s.mem s.esi size)
    esi := s.advance s.esi (UInt32.ofNat size)
    edi := s.advance s.edi (UInt32.ofNat size) }

end State

/-- `rep`, with `n` rounds to go, each counted down in `ecx` -/
def rep (op : State → State) : ℕ → State → State
  | 0, s => s
  | n + 1, s => rep op n (op { s with ecx := s.ecx - 1 })

/-- One instruction. -/
def exec : Instr → State → State
  | .testl src dst, s => { s with zf := s.value src &&& s.get dst == 0, cf := false }
  | .cmp src dst, s => { s with zf := s.get dst == s.get src, cf := s.get dst < s.get src }
  | .addl v dst, s => { s.set (s.get dst + v) dst with zf := s.get dst + v == 0, cf := s.get dst + v < v }
  | .subl v dst, s => { s.set (s.get dst - v) dst with zf := s.get dst == v, cf := s.get dst < v }
  | .shrl v dst, s =>
    { s.set (s.get dst >>> v) dst with
      zf := s.get dst >>> v == 0, cf := (s.get dst >>> (v - 1)) &&& 1 == 1 }
  | .andl v dst, s => { s.set (s.get dst &&& v) dst with zf := s.get dst &&& v == 0, cf := false }
  | .movl src dst, s => s.set (s.get src) dst
  | .leal disp base index dst, s => s.set (s.get base + s.get index + disp) dst
  | .movbTo base, s => { s with mem := store s.mem (s.get base) [s.eax.toUInt8] }
  | .movbFrom base, s => { s with eax := (s.eax &&& 0xFFFFFF00) ||| (s.mem (s.get base)).toUInt32 }
  | .movwDsDx, s => { s with edx := (s.edx &&& 0xFFFF0000) ||| s.ds.toUInt32 }
  | .movwDxEs, s => { s with es := s.edx.toUInt16 }
  | .cld, s => { s with df := false }
  | .std, s => { s with df := true }
  | .repStosl, s => rep State.stosl s.ecx.toNat s
  | .repMovsl, s => rep (State.movs 4) s.ecx.toNat s
  | .repMovsb, s => rep (State.movs 1) s.ecx.toNat s

/-! ### Runs -/

section Runs

variable {L : Type} [DecidableEq L]

def Line.isLabel (l : L) : Line L → Bool
  | .label l' => l' = l
  | _ => false

/-- The lines from the label `l` on. -/
def target (code : List (Line L)) (l : L) : List (Line L) := code.dropWhile fun line => !line.isLabel l

/-- One line: what is left to run behind it, and the state. -/
def step (code : List (Line L)) : List (Line L) × State → Option (List (Line L) × State)
  | ([], _) => none
  | (.label _ :: rest, s) => some (rest, s)
  | (.instr i :: rest, s) => some (rest, exec i s)
  | (.jz l :: rest, s) => some (if s.zf then target code l else rest, s)
  | (.jae l :: rest, s) => some (if s.cf then rest else target code l, s)
  | (.jmp l :: _, s) => some (target code l, s)

/-- Some lines lead from one point of a run to another. -/
def Reaches (code : List (Line L)) : List (Line L) × State → List (Line L) × State → Prop :=
  Relation.ReflTransGen fun c c' => step code c = some c'

/-- Run from its first line, the listing comes to its end, in the state `s'`. -/
def Halts (code : List (Line L)) (s s' : State) : Prop := Reaches code (code, s) ([], s')

variable {code : List (Line L)}

theorem Reaches.refl (c : List (Line L) × State) : Reaches code c c := Relation.ReflTransGen.refl

theorem Reaches.trans {a b c : List (Line L) × State} (h : Reaches code a b) (h' : Reaches code b c) :
    Reaches code a c := Relation.ReflTransGen.trans h h'

theorem Reaches.step {a b c : List (Line L) × State} (h : step code a = some b) (h' : Reaches code b c) :
    Reaches code a c := Relation.ReflTransGen.head h h'

/-- From one point at most one end is reached. -/
theorem Reaches.end_unique {c : List (Line L) × State} {s s' : State} (h : Reaches code c ([], s))
    (h' : Reaches code c ([], s')) : s = s' := by
  induction h using Relation.ReflTransGen.head_induction_on with
  | refl =>
    cases h'.cases_head with
    | inl heq => exact (Prod.mk.inj heq).2
    | inr hstep =>
      obtain ⟨c, hc, -⟩ := hstep
      cases hc
  | head hab _ ih =>
    rcases h'.cases_head with rfl | ⟨c, hc, hrest⟩
    · cases hab
    · obtain rfl := Option.some.inj (hab.symm.trans hc)
      exact ih hrest

theorem Halts.unique {s t t' : State} (h : Halts code s t) (h' : Halts code s t') : t = t' :=
  Reaches.end_unique h h'

theorem reaches_instrs (is : List Instr) (rest : List (Line L)) (s : State) :
    Reaches code (is.map Line.instr ++ rest, s) (rest, is.foldl (fun s i => exec i s) s) := by
  induction is generalizing s with
  | nil => exact Reaches.refl _
  | cons i is ih => exact Reaches.step rfl (ih (exec i s))

theorem target_instrs (is : List Instr) (rest : List (Line L)) (l : L) :
    target (is.map Line.instr ++ rest) l = target rest l := by
  induction is with
  | nil => rfl
  | cons i is ih => exact ih

end Runs

/-! ### Blocks of memory -/

/-- The `k` bytes from `dst` on set to `v`. -/
def fill (mem : UInt32 → UInt8) (dst : UInt32) (v : UInt8) (k : ℕ) : UInt32 → UInt8 :=
  fun b => if (b - dst).toNat < k then v else mem b

/-- The `k` bytes from `src` on copied to `dst`. -/
def copied (mem : UInt32 → UInt8) (dst src : UInt32) (k : ℕ) : UInt32 → UInt8 :=
  fun b => if (b - dst).toNat < k then mem (src + (b - dst)) else mem b

theorem fill_zero (mem : UInt32 → UInt8) (dst : UInt32) (v : UInt8) : fill mem dst v 0 = mem := by
  funext b
  exact if_neg (Nat.not_lt_zero _)

theorem copied_zero (mem : UInt32 → UInt8) (dst src : UInt32) : copied mem dst src 0 = mem := by
  funext b
  exact if_neg (Nat.not_lt_zero _)

theorem sub_add_toNat (b dst : UInt32) {k : ℕ} (hk : k < 2 ^ 32) :
    (b - (dst + UInt32.ofNat k)).toNat
      = if k ≤ (b - dst).toNat then (b - dst).toNat - k else (b - dst).toNat + 2 ^ 32 - k := by
  rw [UInt32.toNat_sub, UInt32.toNat_sub, UInt32.toNat_add, UInt32.toNat_ofNat_of_lt' hk]
  have hb := b.toNat_lt
  have hd := dst.toNat_lt
  split_ifs <;> omega

theorem fill_fill (mem : UInt32 → UInt8) (dst : UInt32) (v : UInt8) {k j : ℕ} (h : k + j < 2 ^ 32) :
    fill (fill mem dst v k) (dst + UInt32.ofNat k) v j = fill mem dst v (k + j) := by
  funext b
  have hx := (b - dst).toNat_lt
  unfold fill
  rw [sub_add_toNat b dst (by omega)]
  split_ifs <;> first | rfl | omega

theorem load_length (mem : UInt32 → UInt8) (a : UInt32) (n : ℕ) : (load mem a n).length = n := by
  simp [load]

theorem load_getD (mem : UInt32 → UInt8) (a : UInt32) {n i : ℕ} (h : i < n) (d : UInt8) :
    (load mem a n).getD i d = mem (a + UInt32.ofNat i) := by
  simp [load, List.getD_eq_getElem?_getD, h]

theorem store_replicate (mem : UInt32 → UInt8) (dst : UInt32) (v : UInt8) (n : ℕ) :
    store mem dst (List.replicate n v) = fill mem dst v n := by
  funext b
  unfold store fill
  split_ifs with h
  · simp [List.getD_eq_getElem?_getD, h]
  · simp [List.getD_eq_getElem?_getD, h]

theorem store_load (mem : UInt32 → UInt8) (dst src : UInt32) (n : ℕ) :
    store mem dst (load mem src n) = copied mem dst src n := by
  funext b
  unfold store copied
  split_ifs with h
  · rw [load_getD mem src h, UInt32.ofNat_toNat]
  · rw [List.getD_eq_getElem?_getD, List.getElem?_eq_none (by rw [load_length]; omega)]
    rfl

/-- No byte of the source is read behind the point the copy upwards has reached. -/
def Ahead (dst src : UInt32) (n : ℕ) : Prop := ∀ z < n, z ≤ (src - dst + UInt32.ofNat z).toNat

/-- No byte of the source is read above the point the copy downwards has reached. -/
def Behind (dst src : UInt32) (n : ℕ) : Prop :=
  ∀ z < n, (src - dst + UInt32.ofNat z).toNat ≤ z ∨ n ≤ (src - dst + UInt32.ofNat z).toNat

theorem from_later (a b dst k : UInt32) : a + k + (b - (dst + k)) = a + (b - dst) := by grind

theorem read_distance (dst src b : UInt32) :
    src + (b - dst) - dst = src - dst + UInt32.ofNat (b - dst).toNat := by
  rw [UInt32.ofNat_toNat]
  grind

/-- A copy goes on upwards. -/
theorem copied_copied (mem : UInt32 → UInt8) {dst src : UInt32} {n k j : ℕ} (hn : n < 2 ^ 32)
    (hahead : Ahead dst src n) (h : k + j ≤ n) :
    copied (copied mem dst src k) (dst + UInt32.ofNat k) (src + UInt32.ofNat k) j
      = copied mem dst src (k + j) := by
  funext b
  have hx := (b - dst).toNat_lt
  unfold copied
  rw [sub_add_toNat b dst (by omega), from_later, read_distance]
  by_cases hb : (b - dst).toNat < k + j
  · have hz := hahead (b - dst).toNat (by omega)
    rw [if_pos hb]
    split_ifs <;> first | rfl | omega
  · rw [if_neg hb]
    split_ifs <;> first | rfl | omega

/-- A copy goes on downwards, one byte. -/
theorem copied_copied_back (mem : UInt32 → UInt8) {dst src : UInt32} {n k : ℕ} (hn : n < 2 ^ 32)
    (hbehind : Behind dst src n) (h : k < n) :
    copied (copied mem (dst + UInt32.ofNat (k + 1)) (src + UInt32.ofNat (k + 1)) (n - (k + 1)))
        (dst + UInt32.ofNat k) (src + UInt32.ofNat k) 1
      = copied mem (dst + UInt32.ofNat k) (src + UInt32.ofNat k) (n - k) := by
  funext b
  have hx := (b - dst).toNat_lt
  unfold copied
  simp only [from_later]
  rw [sub_add_toNat b dst (by omega), sub_add_toNat b dst (by omega),
    sub_add_toNat _ dst (by omega), read_distance]
  by_cases hb : (b - dst).toNat = k
  · have hz := hbehind k h
    have hy := (src - dst + UInt32.ofNat k).toNat_lt
    rw [hb]
    split_ifs <;> first | rfl | omega
  · split_ifs <;> first | rfl | omega

/-! ### String instructions -/

/-- The rule for `rep`: an invariant of the rounds run and the state. -/
theorem rep_inv {op : State → State} (I : ℕ → State → Prop) {n k : ℕ} {s : State} (h0 : I k s)
    (hstep : ∀ j s, j < k + n → I j s → I (j + 1) (op { s with ecx := s.ecx - 1 })) :
    I (k + n) (rep op n s) := by
  induction n generalizing k s with
  | zero => exact h0
  | succ n ih =>
    have hrest := ih (hstep k s (by omega) h0) fun j t hj => hstep j t (by omega)
    rw [show k + 1 + n = k + (n + 1) by omega] at hrest
    exact hrest

theorem add_ofNat_add (a : UInt32) (i j : ℕ) :
    a + UInt32.ofNat i + UInt32.ofNat j = a + UInt32.ofNat (i + j) := by
  rw [UInt32.ofNat_add, UInt32.add_assoc]

theorem sub_ofNat_one (a : UInt32) (i : ℕ) : a - UInt32.ofNat i - 1 = a - UInt32.ofNat (i + 1) := by
  rw [UInt32.ofNat_add]
  grind

theorem add_ofNat_succ_sub_one (a : UInt32) (i : ℕ) : a + UInt32.ofNat (i + 1) - 1 = a + UInt32.ofNat i := by
  rw [UInt32.ofNat_add]
  grind

/-- `rep stosl` upwards sets four bytes a round. -/
theorem exec_repStosl (s : State) {v : UInt8} (hdf : s.df = false)
    (hv : bytesOf s.eax = List.replicate 4 v) (hn : 4 * s.ecx.toNat < 2 ^ 32) :
    exec .repStosl s = { s with
      ecx := 0
      edi := s.edi + UInt32.ofNat (4 * s.ecx.toNat)
      mem := fill s.mem s.edi v (4 * s.ecx.toNat) } := by
  have hrep := @rep_inv State.stosl
    (fun k t => t = { s with
      ecx := s.ecx - UInt32.ofNat k
      edi := s.edi + UInt32.ofNat (4 * k)
      mem := fill s.mem s.edi v (4 * k) }) s.ecx.toNat 0 s
    (by simp [fill_zero])
    (by
      rintro k t hk rfl
      simp only [State.stosl, State.advance, hdf, hv, store_replicate, Bool.false_eq_true, if_false,
        sub_ofNat_one, fill_fill s.mem s.edi v (show 4 * k + 4 < 2 ^ 32 by omega)]
      rw [show (4 : UInt32) = UInt32.ofNat 4 from rfl, add_ofNat_add, Nat.mul_add])
  rw [Nat.zero_add, UInt32.ofNat_toNat, UInt32.sub_self] at hrep
  exact hrep

/-- `rep movs` upwards moves an operand a round. -/
theorem rep_movs (s : State) {size n : ℕ} (hdf : s.df = false) (hn : n < 2 ^ 32)
    (hahead : Ahead s.edi s.esi n) (hle : size * s.ecx.toNat ≤ n) :
    rep (State.movs size) s.ecx.toNat s = { s with
      ecx := 0
      esi := s.esi + UInt32.ofNat (size * s.ecx.toNat)
      edi := s.edi + UInt32.ofNat (size * s.ecx.toNat)
      mem := copied s.mem s.edi s.esi (size * s.ecx.toNat) } := by
  have hrep := @rep_inv (State.movs size)
    (fun k t => t = { s with
      ecx := s.ecx - UInt32.ofNat k
      esi := s.esi + UInt32.ofNat (size * k)
      edi := s.edi + UInt32.ofNat (size * k)
      mem := copied s.mem s.edi s.esi (size * k) }) s.ecx.toNat 0 s
    (by simp [copied_zero])
    (by
      rintro k t hk rfl
      have hround : size * k + size ≤ n := by
        calc size * k + size = size * (k + 1) := by ring
          _ ≤ size * s.ecx.toNat := Nat.mul_le_mul_left size (by omega)
          _ ≤ n := hle
      simp only [State.movs, State.advance, hdf, store_load, Bool.false_eq_true, if_false,
        sub_ofNat_one, copied_copied s.mem hn hahead hround, add_ofNat_add, Nat.mul_add, Nat.mul_one])
  rw [Nat.zero_add, UInt32.ofNat_toNat, UInt32.sub_self] at hrep
  exact hrep

/-- `rep movsb` downwards moves the `n` bytes from `src` on to `dst`, started at the
last byte of each block. -/
theorem rep_movs_back (s : State) {dst src : UInt32} (hdf : s.df = true)
    (hedi : s.edi = dst + s.ecx - 1) (hesi : s.esi = src + s.ecx - 1)
    (hbehind : Behind dst src s.ecx.toNat) :
    (rep (State.movs 1) s.ecx.toNat s).mem = copied s.mem dst src s.ecx.toNat := by
  set n := s.ecx.toNat with hn
  have hrep := @rep_inv (State.movs 1)
    (fun k t => t.df = true ∧ k ≤ n
      ∧ t.edi = dst + UInt32.ofNat (n - k) - 1 ∧ t.esi = src + UInt32.ofNat (n - k) - 1
      ∧ t.mem = copied s.mem (dst + UInt32.ofNat (n - k)) (src + UInt32.ofNat (n - k)) k) n 0 s
    (by
      refine ⟨hdf, Nat.zero_le n, ?_, ?_, ?_⟩
      · rw [Nat.sub_zero, hn, UInt32.ofNat_toNat, hedi]
      · rw [Nat.sub_zero, hn, UInt32.ofNat_toNat, hesi]
      · exact (copied_zero ..).symm)
    (by
      intro k t hk ht
      obtain ⟨hdft, -, hedit, hesit, hmemt⟩ := ht
      obtain ⟨p, hp⟩ : ∃ p, n = p + 1 + k := ⟨n - (k + 1), by omega⟩
      rw [show n - k = p + 1 by omega] at hedit hesit hmemt
      have hback := @copied_copied_back s.mem dst src n p (hn ▸ s.ecx.toNat_lt) hbehind (by omega)
      rw [show n - (p + 1) = k by omega, show n - p = k + 1 by omega] at hback
      rw [add_ofNat_succ_sub_one] at hedit hesit
      rw [show n - (k + 1) = p by omega]
      refine ⟨hdft, by omega, ?_, ?_, ?_⟩
      · simp only [State.movs, State.advance, hdft, if_true, hedit]
        rfl
      · simp only [State.movs, State.advance, hdft, if_true, hesit]
        rfl
      · simp only [State.movs, store_load, hmemt, hedit, hesit]
        exact hback)
  rw [Nat.zero_add, Nat.sub_self] at hrep
  simpa using hrep.2.2.2.2

end Asm
