/-
# The read-only file system of file_system.c

The image in memory is a boot block, the inodes and the data blocks. `readData`
walks a file byte by byte and looks up a data block whenever the index is a
multiple of the block size; `readDentryByName` compares a name with every
directory entry, over a length that only grows from one entry to the next;
`fileRead` and `dirRead` first clear the caller's buffer up to its first NUL.

A pointer to a buffer is the memory from it on (`Buf`); the pointers these
functions test for NULL are never NULL at their call sites. The buffers a call
fills are given as the bytes it stores (`Delivery.data`) and the memory after it
(`Delivery.buf`).

Key definitions: `Image`, `readDentryByName`, `readData`, `fileRead`, `dirRead`,
`loadProgram`, `fileByte`.
-/
import Mp3Kernel.Strings

namespace Mp3Kernel

/-- NAME_SIZE -/
abbrev nameSize : ℕ := 32
/-- BLOCK_SIZE -/
abbrev blockSize : ℕ := 4096
/-- NUM_DENTRIES -/
abbrev maxDentries : ℕ := 63

/-- dentry_t -/
structure Dentry where
  fileName : Fin nameSize → UInt8
  fileType : UInt32
  inodeNum : UInt32
  reserved : Fin 6 → UInt32

/-- boot_block_t, without its reserved words -/
structure BootBlock where
  numDentries : UInt32
  numInodes : UInt32
  numDataBlocks : UInt32
  dentries : Fin maxDentries → Dentry

/-- inode_t. `dataBlock` is total: `readData` also looks up the word behind the
last entry, when a read starts at the end of a file of 1023 blocks. -/
structure Inode where
  length : UInt32
  dataBlock : ℕ → UInt32

/-- The image `boot_block` points to: inode `i` lies `i + 1` blocks behind it, data
block `b` `num_inodes + 1 + b` blocks behind it. -/
structure Image where
  boot : BootBlock
  inodes : ℕ → Inode
  dataBlocks : UInt32 → ℕ → UInt8

/-- `init_file_system`: the boot block it takes; `none` is FAILURE. -/
def initFileSystem (b : BootBlock) : Option BootBlock :=
  if b.numDentries.toNat > maxDentries then none else some b

/-- The bytes of a little-endian word. -/
def le32 (w : UInt32) : List UInt8 :=
  [w.toUInt8, (w >>> 8).toUInt8, (w >>> 16).toUInt8, (w >>> 24).toUInt8]

/-- A directory entry's 64 bytes. -/
def Dentry.bytes (d : Dentry) : List UInt8 :=
  List.ofFn d.fileName ++ le32 d.fileType ++ le32 d.inodeNum ++ (List.ofFn d.reserved).flatMap le32

theorem length_bytes (d : Dentry) : d.bytes.length = 64 := by
  simp [Dentry.bytes, le32]

theorem toNat_toUInt32 (n : Int32) : (n.toUInt32.toNat : ℤ) = if 0 ≤ n.toInt then n.toInt else n.toInt + 2 ^ 32 := by
  have h : n.toInt = (n.toUInt32.toNat : ℤ).bmod (2 ^ 32) := by
    rw [← Int32.toInt_toBitVec, BitVec.toInt_eq_toNat_bmod, Int32.toNat_toBitVec]
  have hlt := UInt32.toNat_lt n.toUInt32
  rw [h]
  simp only [Int.bmod]
  split_ifs <;> omega

/-! ### Looking up a name -/

/-- The search loop of `read_dentry_by_name` over the entries that are left. A
name of 32 bytes has no NUL of its own, so `strlen` of an entry's name may run on
into the words behind it; `numBits` keeps the largest length seen. -/
def dentryLoop (fname : List UInt8) : ℕ → List Dentry → Option Dentry
  | _, [] => none
  | numBits, d :: ds =>
    let name := (d :: ds).flatMap Dentry.bytes
    let numBits' := if numBits ≠ nameSize then (if strlen name > numBits then strlen name else numBits) else numBits
    if strncmp fname name numBits' = 0 then some d else dentryLoop fname numBits' ds

/-- `read_dentry_by_name`; `none` is FAILURE. -/
def readDentryByName (b : BootBlock) (fname : List UInt8) : Option Dentry :=
  let numBits := if strlen fname > nameSize then nameSize else strlen fname
  if numBits = 0 then none else dentryLoop fname numBits (List.ofFn b.dentries)

/-- `read_dentry_by_index`; `none` is FAILURE. -/
def readDentryByIndex (b : BootBlock) (index : UInt32) : Option Dentry :=
  if h : index.toNat < maxDentries then some (b.dentries ⟨index.toNat, h⟩) else none

theorem dentryLoop_cstr (fname : List UInt8) : ∀ (ds : List Dentry) (numBits : ℕ),
    dentryLoop (cstr fname) numBits ds = dentryLoop fname numBits ds
  | [], _ => rfl
  | d :: ds, numBits => by
    simp only [dentryLoop, strncmp_cstr, dentryLoop_cstr fname ds]

/-- A lookup reads the name up to its NUL only. -/
theorem readDentryByName_cstr (b : BootBlock) (fname : List UInt8) :
    readDentryByName b (cstr fname) = readDentryByName b fname := by
  simp only [readDentryByName, strlen_eq_length_cstr, cstr_cstr, dentryLoop_cstr]

/-! ### Reading a file's bytes -/

/-- The copy loop of `read_data`, for `n` more bytes from index `i` on: the bytes
it stores, one behind the other. -/
def readLoop (img : Image) (inode : Inode) : ℕ → ℕ → UInt32 → List UInt8
  | 0, _, _ => []
  | n + 1, i, blk =>
    let blk' := if i % blockSize = 0 then inode.dataBlock (i / blockSize) else blk
    img.dataBlocks blk' (i % blockSize) :: readLoop img inode n (i + 1) blk'

/-- `read_data`: the value returned and the bytes stored at `buf`. The sums are
those of `uint32_t`; the loop runs while `i < offset + num_bytes`, so not at all
when that sum wraps below `offset`. -/
def readData (img : Image) (inodeIndex offset length : UInt32) : Int32 × List UInt8 :=
  if inodeIndex ≥ img.boot.numInodes then (-1, [])
  else
    let inode := img.inodes inodeIndex.toNat
    if offset > inode.length then (-1, [])
    else
      let blk := inode.dataBlock (offset.toNat / blockSize)
      let numBytes := if offset + length > inode.length then inode.length - offset else length
      (numBytes.toInt32, readLoop img inode ((offset + numBytes).toNat - offset.toNat) offset.toNat blk)

/-- Byte `i` of a file. -/
def fileByte (img : Image) (inode : Inode) (i : ℕ) : UInt8 :=
  img.dataBlocks (inode.dataBlock (i / blockSize)) (i % blockSize)

/-- The loop's data block is the one of its index, however the blocks lie. -/
theorem readLoop_eq (img : Image) (inode : Inode) : ∀ (n i : ℕ) (blk : UInt32),
    (i % blockSize ≠ 0 → blk = inode.dataBlock (i / blockSize)) →
    readLoop img inode n i blk = (List.range n).map fun j => fileByte img inode (i + j)
  | 0, _, _, _ => rfl
  | n + 1, i, blk, h => by
    have hblk : (if i % blockSize = 0 then inode.dataBlock (i / blockSize) else blk) =
        inode.dataBlock (i / blockSize) := by
      split_ifs with h0
      · rfl
      · exact h h0
    have hnext : (i + 1) % blockSize ≠ 0 →
        inode.dataBlock (i / blockSize) = inode.dataBlock ((i + 1) / blockSize) := by
      intro h1
      have hdiv : i / 4096 = (i + 1) / 4096 := by
        have : (i + 1) % 4096 ≠ 0 := h1
        omega
      rw [show i / blockSize = (i + 1) / blockSize from hdiv]
    rw [readLoop, List.range_succ_eq_map, List.map_cons, List.map_map]
    simp only [hblk]
    rw [readLoop_eq img inode n (i + 1) _ hnext]
    refine congrArg₂ List.cons rfl (List.map_congr_left fun j _ => ?_)
    simp only [Function.comp_apply, Nat.succ_eq_add_one]
    congr 1
    omega

/-- What a read does to its caller: the value it returns, the bytes it stores from
the buffer's start on, and the memory from the buffer on after it. -/
structure Delivery where
  ret : Int32
  data : List UInt8
  buf : Buf

/-- The loop at the head of `file_read` and `dir_read`: clear the buffer up to its
first NUL, at most 32 bytes, whatever the buffer's size. -/
def clearBuf : ℕ → ℕ → Buf → Buf
  | 0, _, buf => buf
  | n + 1, i, buf => if buf i = 0 then buf else clearBuf n (i + 1) (Function.update buf i 0)

/-- `file_read` -/
def fileRead (img : Image) (fd : Int32) (buf : Buf) (nbytes : Int32) (offset : UInt32) : Delivery :=
  let buf' := clearBuf nameSize 0 buf
  let got := readData img fd.toUInt32 offset nbytes.toUInt32
  ⟨got.1, got.2, overlay buf' got.2⟩

/-- `dir_read`. `nbytes > strlen(..)` is a comparison of `uint32_t`. -/
def dirRead (img : Image) (buf : Buf) (nbytes : Int32) (offset : UInt32) : Delivery :=
  let buf' := clearBuf nameSize 0 buf
  match readDentryByIndex img.boot offset with
  | none => ⟨-1, [], buf'⟩
  | some d =>
    let nbytes' := if nbytes.toUInt32.toNat > strlen d.bytes then Int32.ofNat (strlen d.bytes) else nbytes
    let data := strncpy d.bytes nbytes'.toUInt32.toNat
    ⟨nbytes', data, overlay buf' data⟩

/-- `load_program`: the value returned and the memory from `addr` on. -/
def loadProgram (img : Image) (fd : Int32) (addr : Buf) : Int32 × Buf :=
  let length := (img.inodes fd.toUInt32.toNat).length
  let got := fileRead img fd addr length.toInt32 0
  (if got.ret.toUInt32 ≠ length then -1 else 0, got.buf)

/-- Clearing leaves a NUL at the buffer's start. -/
theorem clearBuf_zero (buf : Buf) : clearBuf nameSize 0 buf 0 = 0 := by
  have key : ∀ (n i : ℕ) (b : Buf), b 0 = 0 → clearBuf n i b 0 = 0 := by
    intro n
    induction n with
    | zero => exact fun _ _ h => h
    | succ n ih =>
      intro i b h
      rw [clearBuf]
      split_ifs
      · exact h
      · refine ih _ _ ?_
        by_cases hi : i = 0
        · simp [hi]
        · rw [Function.update_of_ne (Ne.symm hi)]
          exact h
  rw [clearBuf]
  split_ifs with h
  · exact h
  · exact key _ _ _ (by simp)

theorem fileRead_indep (img : Image) (fd : Int32) (buf buf' : Buf) (nbytes : Int32) (offset : UInt32) :
    (fileRead img fd buf nbytes offset).ret = (fileRead img fd buf' nbytes offset).ret ∧
      (fileRead img fd buf nbytes offset).data = (fileRead img fd buf' nbytes offset).data :=
  ⟨rfl, rfl⟩

theorem dirRead_indep (img : Image) (buf buf' : Buf) (nbytes : Int32) (offset : UInt32) :
    (dirRead img buf nbytes offset).ret = (dirRead img buf' nbytes offset).ret ∧
      (dirRead img buf nbytes offset).data = (dirRead img buf' nbytes offset).data := by
  unfold dirRead
  cases readDentryByIndex img.boot offset <;> simp only [and_self]

theorem loadProgram_valid (img : Image) (fd : Int32) (addr : Buf)
    (h : fd.toUInt32 < img.boot.numInodes) : (loadProgram img fd addr).1 = 0 := by
  have h0 : ¬ fd.toUInt32 ≥ img.boot.numInodes := by simpa using h
  simp [loadProgram, fileRead, readData, h0]

theorem fileRead_bad_inode (img : Image) (fd : Int32) (buf : Buf) (nbytes : Int32) (offset : UInt32)
    (h : img.boot.numInodes ≤ fd.toUInt32) :
    fileRead img fd buf nbytes offset = ⟨-1, [], clearBuf nameSize 0 buf⟩ := by
  have hov : ∀ b : Buf, overlay b [] = b := fun b => by funext i; simp [overlay]
  simp [fileRead, readData, h, hov]

end Mp3Kernel
