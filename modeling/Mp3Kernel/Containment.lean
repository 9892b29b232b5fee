/-
# Reading an image that may be malformed

The boot loader hands the kernel a module, a range of memory, and `init_file_system`
takes the boot block from its start, whatever its end is. `read_data` computes the
addresses of an inode, of its block entries and of the bytes of a block from words it
reads in the module itself, mod 2^32; it checks the inode's number and the offset, and
no block number. Here every byte it reads is recorded.

The positions a request names are inequalities between the module's words and its size
(`Named`); the reads stay inside exactly when these hold (`read_data_contained`). For a
file shorter than 2 GB the flat memory returns what the image it holds returns
(`readDataFlat_readData`).

Key definitions: `BootModule`, `readDataFlat`, `Named`, `Contained`, `imageOf`.
Key theorems: `flatLoop_round`, `flatLoop_reads`, `read_data_contained`, `readDataFlat_readData`.
-/
import Mp3Kernel.FileSystem

namespace Mp3Kernel

/-- A module in memory, from `fsBegin` up to `fsEnd`. -/
structure BootModule where
  mem : UInt32 → UInt8
  fsBegin : UInt32
  fsEnd : UInt32
  le : fsBegin ≤ fsEnd

namespace BootModule

variable (m : BootModule)

/-- The word at an address. -/
def word (a : UInt32) : UInt32 :=
  (m.mem a).toUInt32 ||| (m.mem (a + 1)).toUInt32 <<< 8 ||| (m.mem (a + 2)).toUInt32 <<< 16
    ||| (m.mem (a + 3)).toUInt32 <<< 24

/-- `init_file_system(fsBegin, fsEnd)` -/
def initFileSystemFlat : Int32 := if m.word m.fsBegin > 63 then -1 else 0

/-- `boot_block->num_inodes` -/
def numInodes : UInt32 := m.word (m.fsBegin + 4)

/-- `(inode_t*)boot_block+(inode_index+1)` -/
def inodeAddr (inodeIndex : UInt32) : UInt32 := m.fsBegin + 4096 * (inodeIndex + 1)

/-- `&inode->data_block[j]` -/
def entryAddr (inode j : UInt32) : UInt32 := inode + (4 + 4 * j)

/-- `(data_block_t*)boot_block + (boot_block->num_inodes+1 + inode->data_block[j])` -/
def blockAddr (inode j : UInt32) : UInt32 :=
  m.fsBegin + 4096 * (m.numInodes + 1 + m.word (entryAddr inode j))

end BootModule

open BootModule

/-- The addresses of a word's bytes. -/
def wordBytes (a : UInt32) : List UInt32 := [a, a + 1, a + 2, a + 3]

/-- The loop of `read_data`, for `n` more bytes from `i` on: the bytes stored and the
addresses read. `i` is an `int`, so its quotient and remainder are signed. -/
def flatLoop (m : BootModule) (inode : UInt32) : ℕ → UInt32 → UInt32 → List UInt8 × List UInt32
  | 0, _, _ => ([], [])
  | n + 1, i, dataBlock =>
    let blockIndex := (i.toInt32 / 4096).toUInt32
    let starts := i.toInt32 % 4096 = 0
    let dataBlock' := if starts then m.blockAddr inode blockIndex else dataBlock
    let a := dataBlock' + (i.toInt32 % 4096).toUInt32
    let rest := flatLoop m inode n (i + 1) dataBlock'
    (m.mem a :: rest.1,
      (if starts then wordBytes (entryAddr inode blockIndex) else []) ++ a :: rest.2)

/-- What a read of flat memory does: the value returned, the bytes stored, and the
addresses read. -/
structure FlatRead where
  ret : Int32
  data : List UInt8
  reads : List UInt32

/-- `num_bytes` -/
def numBytes (len offset length : UInt32) : UInt32 := if offset + length > len then len - offset else length

/-- `read_data` -/
def readDataFlat (m : BootModule) (inodeIndex offset length : UInt32) : FlatRead :=
  let reads := wordBytes (m.fsBegin + 4)
  if inodeIndex ≥ m.numInodes then ⟨-1, [], reads⟩
  else
    let inode := m.inodeAddr inodeIndex
    let len := m.word inode
    let reads := reads ++ wordBytes inode
    if offset > len then ⟨-1, [], reads⟩
    else
      let reads := reads ++ wordBytes (entryAddr inode (offset / 4096))
      let dataBlock := m.blockAddr inode (offset / 4096)
      let n := numBytes len offset length
      let got := flatLoop m inode ((offset + n).toNat - offset.toNat) offset dataBlock
      ⟨n.toInt32, got.1, reads ++ got.2⟩

/-! ### The positions a request names -/

namespace BootModule

variable (m : BootModule)

/-- The module's size. -/
def size : ℕ := m.fsEnd.toNat - m.fsBegin.toNat

def Inside (a : UInt32) : Prop := m.fsBegin ≤ a ∧ a < m.fsEnd

instance (a : UInt32) : Decidable (m.Inside a) := inferInstanceAs (Decidable (_ ∧ _))

theorem inside_iff (p : UInt32) : m.Inside (m.fsBegin + p) ↔ p.toNat < m.size := by
  have hle := UInt32.le_iff_toNat_le.mp m.le
  have hp := p.toNat_lt
  have hb := m.fsBegin.toNat_lt
  have he := m.fsEnd.toNat_lt
  unfold Inside size
  rw [UInt32.le_iff_toNat_le, UInt32.lt_iff_toNat_lt, UInt32.toNat_add]
  omega

theorem insideWord_iff (p : UInt32) :
    (∀ a ∈ wordBytes (m.fsBegin + p), m.Inside a) ↔ p.toNat + 4 ≤ m.size := by
  have hsize : m.size < 2 ^ 32 := lt_of_le_of_lt (Nat.sub_le _ _) m.fsEnd.toNat_lt
  have hp := p.toNat_lt
  have hbyte : ∀ k : UInt32, m.Inside (m.fsBegin + p + k) ↔ (p.toNat + k.toNat) % 2 ^ 32 < m.size := by
    intro k
    rw [UInt32.add_assoc, m.inside_iff, UInt32.toNat_add]
  simp only [wordBytes, List.mem_cons, List.not_mem_nil, or_false, forall_eq_or_imp, forall_eq, hbyte,
    m.inside_iff, UInt32.reduceToNat]
  omega

/-- The position of an inode. -/
def inodePos (inodeIndex : UInt32) : UInt32 := 4096 * (inodeIndex + 1)

/-- The position of an inode's entry `j`. -/
def entryPos (inodeIndex j : UInt32) : UInt32 := inodePos inodeIndex + (4 + 4 * j)

/-- The entry whose block a read from `offset` on takes byte `x` from. -/
def entryOf (offset x : UInt32) : UInt32 :=
  if x.toNat - x.toNat % 4096 < offset.toNat then offset / 4096
  else ((UInt32.ofNat (x.toNat - x.toNat % 4096)).toInt32 / 4096).toUInt32

/-- The position of byte `x`. -/
def bytePos (inodeIndex offset x : UInt32) : UInt32 :=
  4096 * (m.numInodes + 1 + m.word (entryAddr (m.inodeAddr inodeIndex) (entryOf offset x)))
    + (x.toInt32 % 4096).toUInt32

/-- The number of bytes a request copies. -/
def requested (inodeIndex offset length : UInt32) : ℕ :=
  (offset + numBytes (m.word (m.inodeAddr inodeIndex)) offset length).toNat - offset.toNat

end BootModule

/-- What a request names lies in the module: the number of inodes; of an inode that
exists its length; of an offset in the file its entry, and for every byte requested its
place in its block, and the block's entry where the block begins. -/
def Named (m : BootModule) (inodeIndex offset length : UInt32) : Prop :=
  8 ≤ m.size ∧
  (inodeIndex < m.numInodes →
    (inodePos inodeIndex).toNat + 4 ≤ m.size ∧
    (offset ≤ m.word (m.inodeAddr inodeIndex) →
      (entryPos inodeIndex (offset / 4096)).toNat + 4 ≤ m.size ∧
      ∀ k < m.requested inodeIndex offset length,
        ((offset.toNat + k) % 4096 = 0 →
          (entryPos inodeIndex (entryOf offset (offset + UInt32.ofNat k))).toNat + 4 ≤ m.size) ∧
        (m.bytePos inodeIndex offset (offset + UInt32.ofNat k)).toNat < m.size))

/-- Every byte read lies in the module, and a request that names one outside fails. -/
def Contained (m : BootModule) (inodeIndex offset length : UInt32) : Prop :=
  (∀ a ∈ (readDataFlat m inodeIndex offset length).reads, m.Inside a)
  ∧ (¬ Named m inodeIndex offset length → (readDataFlat m inodeIndex offset length).ret = -1)

/-! ### The loop's reads -/

theorem starts_iff (x : UInt32) : x.toInt32 % 4096 = 0 ↔ x.toNat % 4096 = 0 := by
  have hmod : (x.toInt32 % 4096).toInt = x.toInt32.toInt.tmod 4096 := Int32.toInt_mod ..
  have hword := toNat_toUInt32 x.toInt32
  rw [UInt32.toUInt32_toInt32] at hword
  rw [← Int32.toInt_inj, hmod, show (0 : Int32).toInt = 0 from rfl, ← Int.dvd_iff_tmod_eq_zero]
  split_ifs at hword <;> omega

theorem add_ofNat_toNat {offset : UInt32} {k : ℕ} (h : offset.toNat + k < 2 ^ 32) :
    (offset + UInt32.ofNat k).toNat = offset.toNat + k := by
  rw [UInt32.toNat_add, UInt32.toNat_ofNat_of_lt' (show k < 2 ^ 32 by omega), Nat.mod_eq_of_lt h]

theorem entryOf_start {offset x : UInt32} (hx : x.toNat % 4096 = 0) (hle : offset.toNat ≤ x.toNat) :
    entryOf offset x = (x.toInt32 / 4096).toUInt32 := by
  unfold entryOf
  rw [hx, Nat.sub_zero, if_neg (by omega), UInt32.ofNat_toNat]

theorem entryOf_succ {offset x y : UInt32} (hy : y.toNat = x.toNat + 1) (hne : y.toNat % 4096 ≠ 0) :
    entryOf offset y = entryOf offset x := by
  unfold entryOf
  rw [show y.toNat - y.toNat % 4096 = x.toNat - x.toNat % 4096 by omega]

section Reads

variable (m : BootModule) (inode offset : UInt32)

/-- The address of byte `x`. -/
def byteAddr (x : UInt32) : UInt32 := m.blockAddr inode (entryOf offset x) + (x.toInt32 % 4096).toUInt32

variable {m inode offset}

/-- One round reads the entry of byte `x`'s block where the block begins, and the byte,
and leaves that block to the rounds after. -/
theorem flatLoop_round {x dataBlock : UInt32} (hle : offset.toNat ≤ x.toNat)
    (hblock : x.toNat % 4096 ≠ 0 → dataBlock = m.blockAddr inode (entryOf offset x)) (n : ℕ) (a : UInt32) :
    a ∈ (flatLoop m inode (n + 1) x dataBlock).2 ↔
      (x.toNat % 4096 = 0 ∧ a ∈ wordBytes (entryAddr inode (entryOf offset x))) ∨ a = byteAddr m inode offset x ∨
        a ∈ (flatLoop m inode n (x + 1) (m.blockAddr inode (entryOf offset x))).2 := by
  have hblk : (if x.toInt32 % 4096 = 0 then m.blockAddr inode (x.toInt32 / 4096).toUInt32 else dataBlock)
      = m.blockAddr inode (entryOf offset x) := by
    split_ifs with h0
    · rw [entryOf_start ((starts_iff x).mp h0) hle]
    · exact hblock (mt (starts_iff x).mpr h0)
  have hentry : (a ∈ if x.toInt32 % 4096 = 0 then wordBytes (entryAddr inode (x.toInt32 / 4096).toUInt32) else [])
      ↔ x.toNat % 4096 = 0 ∧ a ∈ wordBytes (entryAddr inode (entryOf offset x)) := by
    split_ifs with h0
    · have hx := (starts_iff x).mp h0
      rw [entryOf_start hx hle]
      exact ⟨fun ha => ⟨hx, ha⟩, fun ha => ha.2⟩
    · exact iff_of_false (by simp) fun ha => h0 ((starts_iff x).mpr ha.1)
  rw [flatLoop]
  simp only [hblk]
  rw [List.mem_append, List.mem_cons, hentry]
  rfl

variable (m inode offset)

/-- The loop reads, for each byte, its block's entry where the block begins, and the
byte. -/
theorem flatLoop_reads (n k : ℕ) (hlt : offset.toNat + k + n < 2 ^ 32) (dataBlock : UInt32)
    (hblock : (offset.toNat + k) % 4096 ≠ 0 →
      dataBlock = m.blockAddr inode (entryOf offset (offset + UInt32.ofNat k))) (a : UInt32) :
    a ∈ (flatLoop m inode n (offset + UInt32.ofNat k) dataBlock).2 ↔
      ∃ j, k ≤ j ∧ j < k + n ∧
        (((offset.toNat + j) % 4096 = 0 ∧ a ∈ wordBytes (entryAddr inode (entryOf offset (offset + UInt32.ofNat j))))
          ∨ a = byteAddr m inode offset (offset + UInt32.ofNat j)) := by
  induction n generalizing k dataBlock with
  | zero =>
    simp only [flatLoop, List.not_mem_nil, false_iff, not_exists]
    omega
  | succ n ih =>
    have hx : (offset + UInt32.ofNat k).toNat = offset.toNat + k := add_ofNat_toNat (by omega)
    have hy : (offset + UInt32.ofNat (k + 1)).toNat = offset.toNat + (k + 1) := add_ofNat_toNat (by omega)
    have hsucc : offset + UInt32.ofNat k + 1 = offset + UInt32.ofNat (k + 1) := by
      rw [UInt32.add_assoc, UInt32.ofNat_add]
      rfl
    have hnext : (offset.toNat + (k + 1)) % 4096 ≠ 0 →
        m.blockAddr inode (entryOf offset (offset + UInt32.ofNat k))
          = m.blockAddr inode (entryOf offset (offset + UInt32.ofNat (k + 1))) := by
      intro hne
      rw [entryOf_succ (by omega : (offset + UInt32.ofNat (k + 1)).toNat = (offset + UInt32.ofNat k).toNat + 1)
        (by omega)]
    have hround := flatLoop_round (hx ▸ Nat.le_add_right ..) (fun hne => hblock (hx ▸ hne)) n a
    rw [hround, hsucc, ih (k + 1) (by omega) _ hnext, hx]
    constructor
    · rintro (ha | ha | ⟨j, hkj, hj, ha⟩)
      · exact ⟨k, le_refl k, by omega, Or.inl ha⟩
      · exact ⟨k, le_refl k, by omega, Or.inr ha⟩
      · exact ⟨j, by omega, by omega, ha⟩
    · rintro ⟨j, hkj, hj, ha⟩
      rcases Nat.eq_or_lt_of_le hkj with rfl | hlt'
      · rcases ha with ha | ha
        · exact Or.inl ha
        · exact Or.inr (Or.inl ha)
      · exact Or.inr (Or.inr ⟨j, hlt', by omega, ha⟩)

end Reads

/-! ### A request -/

section Request

variable (m : BootModule) (inodeIndex offset length : UInt32)

theorem entryAddr_eq (j : UInt32) : entryAddr (m.inodeAddr inodeIndex) j = m.fsBegin + entryPos inodeIndex j := by
  unfold entryAddr inodeAddr entryPos inodePos
  rw [UInt32.add_assoc]

theorem byteAddr_eq (x : UInt32) :
    byteAddr m (m.inodeAddr inodeIndex) offset x = m.fsBegin + m.bytePos inodeIndex offset x := by
  unfold byteAddr blockAddr bytePos
  rw [UInt32.add_assoc]

/-- The loop's reads stay inside exactly when every byte requested, and the entries of
the blocks that begin among them, do. -/
theorem loop_inside_iff :
    (∀ a ∈ (flatLoop m (m.inodeAddr inodeIndex) (m.requested inodeIndex offset length) offset
        (m.blockAddr (m.inodeAddr inodeIndex) (offset / 4096))).2, m.Inside a) ↔
      ∀ k < m.requested inodeIndex offset length,
        ((offset.toNat + k) % 4096 = 0 →
          (entryPos inodeIndex (entryOf offset (offset + UInt32.ofNat k))).toNat + 4 ≤ m.size) ∧
        (m.bytePos inodeIndex offset (offset + UInt32.ofNat k)).toNat < m.size := by
  have hzero : offset + UInt32.ofNat 0 = offset := by simp
  have hlt : offset.toNat + 0 + m.requested inodeIndex offset length < 2 ^ 32 := by
    have hend := (offset + numBytes (m.word (m.inodeAddr inodeIndex)) offset length).toNat_lt
    have hoff := offset.toNat_lt
    unfold requested
    omega
  have hfirst : (offset.toNat + 0) % 4096 ≠ 0 →
      m.blockAddr (m.inodeAddr inodeIndex) (offset / 4096)
        = m.blockAddr (m.inodeAddr inodeIndex) (entryOf offset (offset + UInt32.ofNat 0)) := by
    intro hne
    rw [hzero]
    unfold entryOf
    rw [if_pos (by omega)]
  have hreads := flatLoop_reads m (m.inodeAddr inodeIndex) offset _ 0 hlt _ hfirst
  rw [hzero] at hreads
  simp only [hreads]
  have hword : ∀ j, (∀ a ∈ wordBytes (entryAddr (m.inodeAddr inodeIndex) j), m.Inside a)
      ↔ (entryPos inodeIndex j).toNat + 4 ≤ m.size := by
    intro j
    rw [entryAddr_eq]
    exact m.insideWord_iff _
  have hbyte : ∀ x, m.Inside (byteAddr m (m.inodeAddr inodeIndex) offset x)
      ↔ (m.bytePos inodeIndex offset x).toNat < m.size := by
    intro x
    rw [byteAddr_eq]
    exact m.inside_iff _
  constructor
  · intro h k hk
    refine ⟨fun hstart => (hword _).mp fun a ha => ?_, (hbyte _).mp ?_⟩
    · exact h a ⟨k, Nat.zero_le k, by omega, Or.inl ⟨hstart, ha⟩⟩
    · exact h _ ⟨k, Nat.zero_le k, by omega, Or.inr rfl⟩
  · rintro h a ⟨k, -, hk, ha⟩
    obtain ⟨hstart, hin⟩ := h k (by omega)
    rcases ha with ⟨h0, ha⟩ | rfl
    · exact (hword _).mpr (hstart h0) a ha
    · exact (hbyte _).mpr hin

/-- The reads stay inside exactly when what the request names lies in the module. -/
theorem reads_inside_iff :
    (∀ a ∈ (readDataFlat m inodeIndex offset length).reads, m.Inside a) ↔ Named m inodeIndex offset length := by
  have hboot : (∀ a ∈ wordBytes (m.fsBegin + 4), m.Inside a) ↔ 8 ≤ m.size := m.insideWord_iff 4
  unfold Named readDataFlat
  simp only
  by_cases hin : inodeIndex ≥ m.numInodes
  · rw [if_pos hin]
    simp only
    rw [hboot]
    exact ⟨fun h => ⟨h, fun hlt => absurd hin (UInt32.not_le.mpr hlt)⟩, fun h => h.1⟩
  rw [if_neg hin]
  have hinode : (∀ a ∈ wordBytes (m.inodeAddr inodeIndex), m.Inside a) ↔ (inodePos inodeIndex).toNat + 4 ≤ m.size :=
    m.insideWord_iff _
  by_cases hoff : offset > m.word (m.inodeAddr inodeIndex)
  · rw [if_pos hoff]
    simp only [List.forall_mem_append]
    rw [hboot, hinode]
    refine and_congr_right fun _ => ⟨fun h _ => ⟨h, fun hle => absurd hoff (UInt32.not_lt.mpr hle)⟩, fun h => ?_⟩
    exact (h (UInt32.not_le.mp hin)).1
  rw [if_neg hoff]
  have hentry : (∀ a ∈ wordBytes (entryAddr (m.inodeAddr inodeIndex) (offset / 4096)), m.Inside a)
      ↔ (entryPos inodeIndex (offset / 4096)).toNat + 4 ≤ m.size := by
    rw [entryAddr_eq]
    exact m.insideWord_iff _
  have hloop := loop_inside_iff m inodeIndex offset length
  unfold requested at hloop ⊢
  simp only [List.forall_mem_append]
  rw [hboot, hinode, hentry, hloop]
  constructor
  · rintro ⟨⟨⟨hb, hi⟩, he⟩, hl⟩
    exact ⟨hb, fun _ => ⟨hi, fun _ => ⟨he, hl⟩⟩⟩
  · rintro ⟨hb, hrest⟩
    obtain ⟨hi, hrest'⟩ := hrest (UInt32.not_le.mp hin)
    obtain ⟨he, hl⟩ := hrest' (UInt32.not_lt.mp hoff)
    exact ⟨⟨⟨hb, hi⟩, he⟩, hl⟩

end Request

/-! ### The image the memory holds -/

/-- The image that lies at the module's start. -/
def imageOf (m : BootModule) : Image where
  boot :=
    { numDentries := m.word m.fsBegin
      numInodes := m.numInodes
      numDataBlocks := m.word (m.fsBegin + 8)
      dentries := fun k =>
        let d := m.fsBegin + 64 + 64 * UInt32.ofNat k
        { fileName := fun i => m.mem (d + UInt32.ofNat i)
          fileType := m.word (d + 32)
          inodeNum := m.word (d + 36)
          reserved := fun i => m.word (d + 40 + 4 * UInt32.ofNat i) } }
  inodes n :=
    { length := m.word (m.inodeAddr (UInt32.ofNat n))
      dataBlock := fun j => m.word (entryAddr (m.inodeAddr (UInt32.ofNat n)) (UInt32.ofNat j)) }
  dataBlocks b i := m.mem (m.fsBegin + 4096 * (m.numInodes + 1 + b) + UInt32.ofNat i)

theorem initFileSystem_imageOf (m : BootModule) :
    initFileSystem (imageOf m).boot = none ↔ m.initFileSystemFlat = -1 := by
  have htest : m.word m.fsBegin > 63 ↔ (imageOf m).boot.numDentries.toNat > maxDentries :=
    UInt32.lt_iff_toNat_lt
  unfold initFileSystem initFileSystemFlat
  by_cases h : m.word m.fsBegin > 63
  · rw [if_pos h, if_pos (htest.mp h)]
    exact iff_of_true rfl rfl
  · rw [if_neg h, if_neg (mt htest.mpr h)]
    exact iff_of_false (by simp) (by decide)

theorem quotient_of_lt {i : ℕ} (h : i < 2 ^ 31) :
    ((UInt32.ofNat i).toInt32 / 4096).toUInt32 = UInt32.ofNat (i / 4096) := by
  have hdiv := @Int32.ofNat_div i 4096 h (by decide)
  exact congrArg Int32.toUInt32 hdiv.symm

theorem remainder_of_lt {i : ℕ} (h : i < 2 ^ 31) :
    ((UInt32.ofNat i).toInt32 % 4096).toUInt32 = UInt32.ofNat (i % 4096) := by
  have hmod := @Int32.ofNat_mod i 4096 h (by decide)
  exact congrArg Int32.toUInt32 hmod.symm

theorem flatLoop_readLoop (m : BootModule) (inodeIndex : ℕ) (n i : ℕ) (h : i + n ≤ 2 ^ 31) (blk : UInt32) :
    (flatLoop m (m.inodeAddr (UInt32.ofNat inodeIndex)) n (UInt32.ofNat i)
        (m.fsBegin + 4096 * (m.numInodes + 1 + blk))).1
      = readLoop (imageOf m) ((imageOf m).inodes inodeIndex) n i blk := by
  induction n generalizing i blk with
  | zero => rfl
  | succ n ih =>
    have hstart : (UInt32.ofNat i).toInt32 % 4096 = 0 ↔ i % blockSize = 0 := by
      rw [starts_iff, UInt32.toNat_ofNat_of_lt' (show i < 2 ^ 32 by omega)]
    have hsucc : UInt32.ofNat i + 1 = UInt32.ofNat (i + 1) := (UInt32.ofNat_add i 1).symm
    rw [flatLoop, readLoop]
    simp only [if_congr hstart rfl rfl, quotient_of_lt (show i < 2 ^ 31 by omega),
      remainder_of_lt (show i < 2 ^ 31 by omega), hsucc]
    have hblk : (if i % blockSize = 0 then m.blockAddr (m.inodeAddr (UInt32.ofNat inodeIndex)) (UInt32.ofNat (i / 4096))
        else m.fsBegin + 4096 * (m.numInodes + 1 + blk))
        = m.fsBegin + 4096 * (m.numInodes + 1 +
          if i % blockSize = 0 then ((imageOf m).inodes inodeIndex).dataBlock (i / blockSize) else blk) := by
      split_ifs <;> rfl
    rw [hblk, ih (i + 1) (by omega)]
    rfl

theorem request_le (len offset length : UInt32) :
    (offset + numBytes len offset length).toNat ≤ len.toNat := by
  unfold numBytes
  split_ifs with hgt
  · exact le_of_eq (congrArg UInt32.toNat (by grind))
  · exact UInt32.le_iff_toNat_le.mp (UInt32.not_lt.mp hgt)

/-- Of a file of up to 2 GB the flat memory returns, and stores, what the image does. -/
theorem readDataFlat_readData (m : BootModule) (inodeIndex offset length : UInt32)
    (h : (m.word (m.inodeAddr inodeIndex)).toNat ≤ 2 ^ 31) :
    ((readDataFlat m inodeIndex offset length).ret, (readDataFlat m inodeIndex offset length).data)
      = readData (imageOf m) inodeIndex offset length := by
  have hlen : ((imageOf m).inodes inodeIndex.toNat).length = m.word (m.inodeAddr inodeIndex) := by
    simp [imageOf]
  have hfirst : ((imageOf m).inodes inodeIndex.toNat).dataBlock (offset.toNat / blockSize)
      = m.word (entryAddr (m.inodeAddr inodeIndex) (offset / 4096)) := by
    have hdiv : UInt32.ofNat (offset.toNat / blockSize) = offset / 4096 := by
      apply UInt32.toNat_inj.mp
      have hoff := offset.toNat_lt
      rw [UInt32.toNat_div, UInt32.toNat_ofNat_of_lt' (show offset.toNat / 4096 < 2 ^ 32 by omega)]
      rfl
    simp [imageOf, hdiv]
  unfold readDataFlat readData
  simp only
  rw [hlen, hfirst, show (imageOf m).boot.numInodes = m.numInodes from rfl]
  by_cases hin : inodeIndex ≥ m.numInodes
  · rw [if_pos hin, if_pos hin]
  rw [if_neg hin, if_neg hin]
  by_cases hoff : offset > m.word (m.inodeAddr inodeIndex)
  · rw [if_pos hoff, if_pos hoff]
  rw [if_neg hoff, if_neg hoff]
  simp only
  have hend : offset.toNat + ((offset + numBytes (m.word (m.inodeAddr inodeIndex)) offset length).toNat
      - offset.toNat) ≤ 2 ^ 31 := by
    have hle := UInt32.le_iff_toNat_le.mp (UInt32.not_lt.mp hoff)
    have hsum := request_le (m.word (m.inodeAddr inodeIndex)) offset length
    omega
  have hloop := flatLoop_readLoop m inodeIndex.toNat _ offset.toNat hend
    (m.word (entryAddr (m.inodeAddr inodeIndex) (offset / 4096)))
  rw [UInt32.ofNat_toNat, UInt32.ofNat_toNat] at hloop
  exact Prod.ext rfl hloop

/-! ### Well-formed modules -/

/-- The module has the blocks it counts, files have lengths the format admits, and their
bytes lie in data blocks that exist. -/
structure Consistent (m : BootModule) : Prop where
  blocks : 4096 * (m.numInodes.toNat + 1 + (m.word (m.fsBegin + 8)).toNat) ≤ m.size
  nonempty : 1 ≤ (m.word (m.fsBegin + 8)).toNat
  length : ∀ inodeIndex < m.numInodes, (m.word (m.inodeAddr inodeIndex)).toNat ≤ 1023 * 4096
  entries : ∀ inodeIndex < m.numInodes, ∀ j : ℕ, j * 4096 < (m.word (m.inodeAddr inodeIndex)).toNat →
    m.word (entryAddr (m.inodeAddr inodeIndex) (UInt32.ofNat j)) < m.word (m.fsBegin + 8)

theorem entryOf_eq {offset x : UInt32} (h : x.toNat < 2 ^ 31) (hle : offset.toNat ≤ x.toNat) :
    entryOf offset x = UInt32.ofNat (x.toNat / 4096) := by
  unfold entryOf
  split_ifs with hlt
  · -- the block began before the offset, in which the offset lies as well
    apply UInt32.toNat_inj.mp
    rw [UInt32.toNat_div, UInt32.toNat_ofNat_of_lt' (show x.toNat / 4096 < 2 ^ 32 by omega)]
    simp only [UInt32.reduceToNat]
    omega
  · rw [quotient_of_lt (by omega)]
    congr 1
    omega

theorem entryPos_toNat {inodeIndex j : UInt32} (hi : inodeIndex.toNat < 2 ^ 20 - 2) (hj : j.toNat ≤ 1023) :
    (inodePos inodeIndex).toNat = 4096 * (inodeIndex.toNat + 1)
      ∧ (entryPos inodeIndex j).toNat = 4096 * (inodeIndex.toNat + 1) + (4 + 4 * j.toNat) := by
  unfold entryPos inodePos
  simp only [UInt32.toNat_add, UInt32.toNat_mul, UInt32.reduceToNat]
  omega

/-- In a consistent module every request stays inside. -/
theorem named_of_consistent {m : BootModule} (h : Consistent m) (inodeIndex offset length : UInt32) :
    Named m inodeIndex offset length := by
  obtain ⟨hblocks, hnonempty, hlength, hentries⟩ := h
  have hsize : m.size < 2 ^ 32 := lt_of_le_of_lt (Nat.sub_le _ _) m.fsEnd.toNat_lt
  refine ⟨by omega, fun hin => ?_⟩
  have hlt := UInt32.lt_iff_toNat_lt.mp hin
  have hlen := hlength inodeIndex hin
  have hpos := fun {j : UInt32} (hj : j.toNat ≤ 1023) => @entryPos_toNat inodeIndex j (by omega) hj
  refine ⟨by rw [(@hpos 0 (by decide)).1]; omega, fun hoff => ?_⟩
  have hoff' := UInt32.le_iff_toNat_le.mp hoff
  have hfirst : (offset / 4096).toNat ≤ 1023 := by
    rw [UInt32.toNat_div]
    simp only [UInt32.reduceToNat]
    omega
  refine ⟨by rw [(hpos hfirst).2]; omega, fun k hk => ?_⟩
  have hbyte : offset.toNat + k < (m.word (m.inodeAddr inodeIndex)).toNat := by
    have hend := request_le (m.word (m.inodeAddr inodeIndex)) offset length
    unfold requested at hk
    omega
  have hx : (offset + UInt32.ofNat k).toNat = offset.toNat + k := add_ofNat_toNat (by omega)
  have hentry := @entryOf_eq offset (offset + UInt32.ofNat k) (by omega) (by omega)
  rw [hx] at hentry
  have hindex : (UInt32.ofNat ((offset.toNat + k) / 4096)).toNat = (offset.toNat + k) / 4096 :=
    UInt32.toNat_ofNat_of_lt' (show (offset.toNat + k) / 4096 < 2 ^ 32 by omega)
  rw [hentry]
  refine ⟨fun _ => by rw [(hpos (by omega)).2, hindex]; omega, ?_⟩
  have hblock := UInt32.lt_iff_toNat_lt.mp
    (hentries inodeIndex hin ((offset.toNat + k) / 4096) (by omega))
  have hrem : ((offset + UInt32.ofNat k).toInt32 % 4096).toUInt32.toNat = (offset.toNat + k) % 4096 := by
    have hnum : offset + UInt32.ofNat k = UInt32.ofNat (offset.toNat + k) := by
      rw [UInt32.ofNat_add, UInt32.ofNat_toNat]
    rw [hnum, remainder_of_lt (by omega)]
    exact UInt32.toNat_ofNat_of_lt' (show (offset.toNat + k) % 4096 < 2 ^ 32 by omega)
  unfold bytePos
  rw [hentry, UInt32.toNat_add, hrem]
  simp only [UInt32.toNat_add, UInt32.toNat_mul, UInt32.reduceToNat]
  omega

/-- **Block numbers are not checked.** Every byte a request reads lies in the module, and
a request that names one outside fails, exactly when what it names lies in the module:
`read_data` fails for an inode or an offset beyond the end, never for a block number or
for an inode beyond the module. In a consistent module every request is contained. -/
theorem read_data_contained (m : BootModule) (inodeIndex offset length : UInt32) :
    (Contained m inodeIndex offset length ↔ Named m inodeIndex offset length) ∧
      (Consistent m → Contained m inodeIndex offset length) := by
  have hiff : Contained m inodeIndex offset length ↔ Named m inodeIndex offset length := by
    unfold Contained
    rw [reads_inside_iff]
    exact ⟨fun h => h.1, fun h => ⟨h, fun hnot => absurd h hnot⟩⟩
  exact ⟨hiff, fun h => hiff.mpr (named_of_consistent h inodeIndex offset length)⟩

/-! ### A malformed image -/

/-- A module of two blocks, a boot block and an inode; the inode's one byte is said to
lie in block 256. -/
def strayModule : BootModule where
  mem a :=
    if a = 0x400004 then 1 -- num_inodes
    else if a = 0x401000 then 1 -- length
    else if a = 0x401005 then 1 -- data_block[0], its second byte
    else 0
  fsBegin := 0x400000
  fsEnd := 0x402000
  le := by decide

/-- The module is accepted, and the byte read lies far behind it. -/
theorem stray_block_read : strayModule.initFileSystemFlat = 0 ∧ ¬ Contained strayModule 0 0 1 := by
  refine ⟨by decide, fun h => ?_⟩
  have hread : 0x502000 ∈ (readDataFlat strayModule 0 0 1).reads := by decide
  exact absurd (h.1 _ hread) (by decide)

end Mp3Kernel
