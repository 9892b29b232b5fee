/-
# What a read does besides returning bytes

`read` of a file or a directory touches the caller's memory and the slot's position,
and both in more ways than the bytes it returns account for.

Before they store anything, `file_read` and `dir_read` clear the buffer up to its first
NUL, 32 bytes at most, whatever its size is. So a read changes the memory behind the
bytes it returns whenever the buffer's first bytes, and what lies behind it, hold more
bytes other than NUL than are returned (`read_frame`).

`read` then adds the value returned to the position, and `read_data` computes with
unsigned words. A negative size is either so large a word that the rest of the file is
returned, or it wraps around to before the position: then the position goes back by it,
and the value returned is the size itself (`nextPosition`). So the position always
stays in the file, and moves as it should exactly when no such size is given
(`file_position`).

Key definitions: `leading`, `room`, `Move`, `Disciplined`.
Key theorems: `read_frame`, `file_position`.
-/
import Mp3Kernel.Directory

namespace Mp3Kernel

/-! ### The bytes that are cleared -/

/-- The number of bytes before the first NUL at the buffer, up to 32. -/
def leading (buf : Buf) : ℕ := strlen ((List.range nameSize).map buf)

/-- The loop clears the bytes before the first NUL and no others. -/
theorem clearBuf_eq : ∀ (n i : ℕ) (buf : Buf) (j : ℕ), clearBuf n i buf j =
    if i ≤ j ∧ j < i + strlen ((List.range' i n).map buf) then 0 else buf j
  | 0, i, buf, j => by
    rw [clearBuf, if_neg]
    simp only [List.range'_zero, List.map_nil, strlen]
    omega
  | n + 1, i, buf, j => by
    rw [clearBuf, List.range'_succ, List.map_cons, strlen]
    by_cases h0 : buf i = 0
    · rw [if_pos h0, if_pos h0, if_neg (by omega)]
    · have hrest : (List.range' (i + 1) n).map (Function.update buf i 0) = (List.range' (i + 1) n).map buf := by
        refine List.map_congr_left fun x hx => Function.update_of_ne ?_ _ _
        obtain ⟨y, -, rfl⟩ := List.mem_range'.mp hx
        omega
      rw [if_neg h0, if_neg h0, clearBuf_eq n (i + 1), hrest]
      by_cases hj : j = i
      · subst hj
        rw [if_neg (by omega), if_pos (by omega), Function.update_self]
      · rw [Function.update_of_ne hj]
        congr 1
        apply propext
        omega

theorem strlen_getD {s : List UInt8} {j : ℕ} (h : j < strlen s) : s.getD j 0 ≠ 0 := by
  rw [strlen_eq_length_cstr] at h
  rw [cstr_getD s h, List.getD_eq_getElem _ _ h]
  exact ne_of_mem_cstr (List.getElem_mem h)

/-- A byte is changed by clearing exactly when it is one of the leading ones. -/
theorem clearBuf_iff (buf : Buf) (j : ℕ) : clearBuf nameSize 0 buf j = buf j ↔ leading buf ≤ j := by
  rw [clearBuf_eq, ← List.range_eq_range', Nat.zero_add]
  change (if 0 ≤ j ∧ j < leading buf then 0 else buf j) = buf j ↔ leading buf ≤ j
  by_cases hj : j < leading buf
  · rw [if_pos ⟨Nat.zero_le _, hj⟩]
    refine iff_of_false (fun h => strlen_getD hj ?_) (by omega)
    have hlen : j < nameSize := by
      have hle : leading buf ≤ nameSize := by
        unfold leading
        rw [strlen_eq_length_cstr]
        calc (cstr ((List.range nameSize).map buf)).length ≤ ((List.range nameSize).map buf).length :=
              (List.takeWhile_prefix _).length_le
          _ = nameSize := by rw [List.length_map, List.length_range]
      omega
    rw [List.getD_eq_getElem _ _ (by simpa using hlen), List.getElem_map, List.getElem_range]
    exact h.symm
  · rw [if_neg (by omega)]
    exact iff_of_true rfl (by omega)

/-- What is stored over a cleared buffer changes nothing from `r` on exactly when no
more than `r` bytes were cleared. -/
theorem overlay_clearBuf_iff (buf : Buf) {data : List UInt8} {r : ℕ} (hdata : data.length ≤ r) :
    (∀ j ≥ r, overlay (clearBuf nameSize 0 buf) data j = buf j) ↔ leading buf ≤ r := by
  constructor
  · intro h
    have hr := h r (le_refl _)
    rwa [overlay_of_ge _ _ hdata, clearBuf_iff] at hr
  · intro h j hj
    rw [overlay_of_ge _ _ (by omega), clearBuf_iff]
    omega

/-! ### The bytes that are returned -/

/-- How many bytes a read of a regular file at `pos` returns: what is left, up to the
size. Where the end of what is asked for is not a `uint32_t`, it is the size. -/
def fileRoom (img : Image) (inode pos : UInt32) (n : ℕ) : ℕ :=
  if inode < img.boot.numInodes ∧ pos ≤ (img.inodes inode.toNat).length then
    if pos.toNat + n < 2 ^ 32 then min n ((img.inodes inode.toNat).length.toNat - pos.toNat) else n
  else 0

/-- How many bytes a read of the directory at `pos` returns: the entry's name as `strlen`
counts it, up to the size. -/
def dirRoom (img : Image) (pos : UInt32) (n : ℕ) : ℕ :=
  if h : pos.toNat < maxDentries then min n (strlen (img.boot.dentries ⟨pos.toNat, h⟩).bytes) else 0

/-- How many bytes a read of `n` bytes from a slot returns, by what it reads. -/
def room (img : Image) (s : Fd) (n : ℕ) : ℕ :=
  match s.fopJumpTable.readOp with
  | .fileRead => fileRoom img s.inode.toUInt32 s.filePosition.toUInt32 n
  | .dirRead => dirRoom img s.filePosition.toUInt32 n
  | _ => 0

section Room

variable {img : Image} {n : Int32}

theorem length_readLoop (img : Image) (inode : Inode) : ∀ (n i : ℕ) (blk : UInt32),
    (readLoop img inode n i blk).length = n
  | 0, _, _ => rfl
  | n + 1, i, blk => by
    rw [readLoop, List.length_cons, length_readLoop img inode n]

theorem toInt_toInt32_of_lt {w : UInt32} (h : w.toNat < 2 ^ 31) : w.toInt32.toInt = w.toNat := by
  have hword := toNat_toUInt32 w.toInt32
  have hmin := Int32.le_toInt w.toInt32
  rw [UInt32.toUInt32_toInt32] at hword
  split_ifs at hword <;> omega

/-- What `read_data` returns and stores, for a size that is not negative. -/
theorem readData_room (img : Image) (inode pos : UInt32) (hn : 0 ≤ n.toInt) :
    max (readData img inode pos n.toUInt32).1.toInt 0 = fileRoom img inode pos n.toInt.toNat ∧
      (readData img inode pos n.toUInt32).2.length ≤ fileRoom img inode pos n.toInt.toNat := by
  have hnn : n.toUInt32.toNat = n.toInt.toNat := by
    have hword := toNat_toUInt32 n
    rw [if_pos hn] at hword
    omega
  have hlt := Int32.toInt_lt n
  unfold readData fileRoom
  by_cases hin : inode ≥ img.boot.numInodes
  · rw [if_pos hin, if_neg fun h => absurd hin (UInt32.not_le.mpr h.1)]
    exact ⟨rfl, le_refl _⟩
  · rw [if_neg hin]
    generalize img.inodes inode.toNat = file
    by_cases hpos : pos > file.length
    · simp only [if_pos hpos]
      rw [if_neg fun h => absurd hpos (UInt32.not_lt.mpr h.2)]
      exact ⟨rfl, le_refl _⟩
    · have hcond : inode < img.boot.numInodes ∧ pos ≤ file.length := ⟨UInt32.not_le.mp hin, UInt32.not_lt.mp hpos⟩
      have hle := UInt32.le_iff_toNat_le.mp hcond.2
      have hfile := UInt32.toNat_lt file.length
      simp only [if_neg hpos, if_pos hcond]
      generalize hw : (if pos + n.toUInt32 > file.length then file.length - pos else n.toUInt32) = w
      have hnum : w.toNat =
          if pos.toNat + n.toInt.toNat < 2 ^ 32 then min n.toInt.toNat (file.length.toNat - pos.toNat)
          else n.toInt.toNat := by
        have hsum : (pos + n.toUInt32).toNat = (pos.toNat + n.toInt.toNat) % 2 ^ 32 := by rw [UInt32.toNat_add, hnn]
        rw [← hw]
        by_cases hgt : pos + n.toUInt32 > file.length
        · rw [if_pos hgt, UInt32.toNat_sub_of_le _ _ hcond.2]
          rw [gt_iff_lt, UInt32.lt_iff_toNat_lt, hsum] at hgt
          split_ifs <;> omega
        · rw [if_neg hgt, hnn]
          rw [gt_iff_lt, UInt32.lt_iff_toNat_lt, hsum] at hgt
          split_ifs <;> omega
      have hsmall : w.toNat < 2 ^ 31 := by
        rw [hnum]
        split_ifs <;> omega
      rw [← hnum, toInt_toInt32_of_lt hsmall, length_readLoop]
      refine ⟨by omega, ?_⟩
      rw [UInt32.toNat_add]
      omega

/-- What `dir_read` returns and stores, for a size that is not negative. -/
theorem dirRead_room (img : Image) (buf : Buf) (pos : UInt32) (hn : 0 ≤ n.toInt) :
    ∃ data, (dirRead img buf n pos).buf = overlay (clearBuf nameSize 0 buf) data ∧
      max (dirRead img buf n pos).ret.toInt 0 = dirRoom img pos n.toInt.toNat ∧
      data.length ≤ dirRoom img pos n.toInt.toNat := by
  have hlt := Int32.toInt_lt n
  unfold dirRoom
  by_cases hpos : pos.toNat < maxDentries
  · rw [dif_pos hpos]
    generalize hm : min n.toInt.toNat (strlen (img.boot.dentries ⟨pos.toNat, hpos⟩).bytes) = m
    have heq := @dirRead_eq img ⟨pos.toNat, hpos⟩ buf n hn m hm.symm
    rw [UInt32.ofNat_toNat] at heq
    rw [heq]
    refine ⟨_, rfl, ?_, List.length_take_le _ _⟩
    rw [Int32.toInt_ofNat_of_lt (by omega)]
    omega
  · rw [dif_neg hpos]
    have hnone : readDentryByIndex img.boot pos = none := dif_neg hpos
    refine ⟨[], ?_, ?_, le_refl _⟩
    · unfold dirRead
      simp only [hnone]
      funext j
      rw [overlay_of_ge _ _ (Nat.zero_le j)]
    · unfold dirRead
      simp only [hnone]
      decide

/-- What a read of a file or a directory returns and stores. -/
theorem callRead_room {s : Fd} (hop : s.fopJumpTable.readOp = .fileRead ∨ s.fopJumpTable.readOp = .dirRead)
    (buf : Buf) (hn : 0 ≤ n.toInt) :
    ∃ got data, callRead img s.fopJumpTable.readOp s.inode buf n s.filePosition none = some got ∧
      got.buf = overlay (clearBuf nameSize 0 buf) data ∧ max got.ret.toInt 0 = room img s n.toInt.toNat ∧
      data.length ≤ room img s n.toInt.toNat := by
  unfold room
  rcases hop with hop | hop
  · rw [hop]
    obtain ⟨hret, hdata⟩ := readData_room img s.inode.toUInt32 s.filePosition.toUInt32 hn
    exact ⟨_, _, rfl, rfl, hret, hdata⟩
  · rw [hop]
    obtain ⟨data, hbuf, hret, hdata⟩ := dirRead_room img buf s.filePosition.toUInt32 hn
    exact ⟨_, data, rfl, hbuf, hret, hdata⟩

end Room

/-- **The memory a read changes.** For every open file or directory, every position,
every size that is not negative and every content of the caller's memory: a read that
returns `r` changes no byte of it outside the first `max r 0` ones of the buffer,
exactly when the bytes before the first NUL at the buffer, counted up to 32, are no
more than the read returns. -/
theorem read_frame {img : Image} {fa : FileArray} {fd : Int32} {i : Fin maxOpenFiles} (hfd : slotOf fd = some i)
    (hopen : (fa i).flags ≠ 0)
    (hop : (fa i).fopJumpTable.readOp = .fileRead ∨ (fa i).fopJumpTable.readOp = .dirRead) (buf : Buf) {nbytes : Int32}
    (hn : 0 ≤ nbytes.toInt) :
    ∃ fa' got, fileRequest img fa (.read fd (some buf) nbytes none) = some (fa', .delivered got) ∧
      ((∀ j : ℕ, max got.ret.toInt 0 ≤ j → got.buf j = buf j) ↔ leading buf ≤ room img (fa i) nbytes.toInt.toNat) := by
  obtain ⟨got, data, hcall, hbuf, hret, hdata⟩ := @callRead_room img nbytes (fa i) hop buf hn
  refine ⟨_, got, fileRequest_read hfd hopen hcall, ?_⟩
  rw [← overlay_clearBuf_iff buf hdata]
  simp only [hret, hbuf, Nat.cast_le, ge_iff_le]

/-- A child with the program open as descriptor 2, read up to byte `pos`. -/
def openedFiles (pos : Int32) : FileArray := fun i =>
  if i.val = 2 then
    { fopJumpTable := ⟨.fileRead, .fileWrite, .fileOpen, .fileClose⟩
      inode := 0, fileType := 2, filePosition := pos, flags := 1 }
  else childFiles i

/-- Four bytes into a buffer that starts with three bytes and a NUL. -/
theorem read_frame_four : ∃ fa' got,
    fileRequest smallImage (openedFiles 0) (.read 2 (some fun j => if j = 3 then 0 else 7) 4 none) =
        some (fa', .delivered got) ∧
      ∀ j : ℕ, max got.ret.toInt 0 ≤ j → got.buf j = if j = 3 then 0 else 7 := by
  obtain ⟨fa', got, hreq, hiff⟩ := @read_frame smallImage (openedFiles 0) 2 2 (by decide) (by decide) (by decide)
    (fun j => if j = 3 then 0 else 7) 4 (by decide)
  exact ⟨fa', got, hreq, hiff.mpr (by decide +kernel)⟩

/-- One byte, read into a variable among others: the read returns 1, and clears the
bytes behind it. -/
theorem read_frame_one : ∃ fa' got,
    fileRequest smallImage (openedFiles 0) (.read 2 (some fun _ => 7) 1 none) = some (fa', .delivered got) ∧
      got.ret = 1 ∧ got.buf 1 = 0 ∧ ¬ ∀ j : ℕ, max got.ret.toInt 0 ≤ j → got.buf j = 7 := by
  refine ⟨_, _, rfl, by decide +kernel, by decide +kernel, fun h => ?_⟩
  exact absurd (h 1 (by decide +kernel)) (by decide +kernel)

/-! ### The position -/

/-- Where a read of size `n` leaves the position of a file of `len` bytes: at its end if
the sum of position and size, as words, is behind it, else at that sum. -/
def nextPosition (len pos : ℕ) (n : Int32) : ℕ :=
  if (pos + n.toUInt32.toNat) % 2 ^ 32 ≤ len then (pos + n.toUInt32.toNat) % 2 ^ 32 else len

/-- A read as the slot sees it: the position before and after it, the size asked for and
the value returned. -/
structure Move where
  before : Int32
  nbytes : Int32
  ret : Int32
  after : Int32
  deriving DecidableEq

/-- The discipline of a file's position: it stays in the file, does not go back, and does
not move when the read fails. -/
structure Disciplined (len : ℕ) (m : Move) : Prop where
  range : 0 ≤ m.after.toInt ∧ m.after.toInt ≤ len
  grows : m.before.toInt ≤ m.after.toInt
  failed : m.ret.toInt < 0 → m.after = m.before

/-- The reads of one descriptor, each with its size and buffer, as its slot sees them. -/
def moves (img : Image) (fd : Int32) (i : Fin maxOpenFiles) : FileArray → List (Int32 × Buf) → Option (List Move)
  | _, [] => some []
  | fa, (nbytes, buf) :: rest =>
    match fileRequest img fa (.read fd (some buf) nbytes none) with
    | some (fa', .delivered got) =>
      (moves img fd i fa' rest).map (⟨(fa i).filePosition, nbytes, got.ret, (fa' i).filePosition⟩ :: ·)
    | _ => none

section Position

variable {img : Image} {inodeNum : UInt32} {pos : ℕ}

theorem nextPosition_le (len pos : ℕ) (n : Int32) : nextPosition len pos n ≤ len := by
  unfold nextPosition
  split_ifs with h
  · exact h
  · exact le_refl _

/-- What `read_data` returns at a position of the file, whatever the size. -/
theorem readData_ret (hin : inodeNum < img.boot.numInodes)
    (hlen : (img.inodes inodeNum.toNat).length.toNat ≤ 1023 * 4096)
    (hpos : pos ≤ (img.inodes inodeNum.toNat).length.toNat) (n : Int32) :
    (readData img inodeNum (UInt32.ofNat pos) n.toUInt32).1 =
      if (pos + n.toUInt32.toNat) % 2 ^ 32 ≤ (img.inodes inodeNum.toNat).length.toNat then n
      else Int32.ofNat ((img.inodes inodeNum.toNat).length.toNat - pos) := by
  generalize hi : img.inodes inodeNum.toNat = inode at *
  have hoff : (UInt32.ofNat pos).toNat = pos := by
    rw [UInt32.toNat_ofNat']
    omega
  have hsum : (UInt32.ofNat pos + n.toUInt32).toNat = (pos + n.toUInt32.toNat) % 2 ^ 32 := by
    rw [UInt32.toNat_add, hoff]
  unfold readData
  rw [if_neg (by simpa using hin)]
  simp only [hi]
  rw [if_neg (by rw [gt_iff_lt, UInt32.lt_iff_toNat_lt, hoff]; omega)]
  by_cases hle : (pos + n.toUInt32.toNat) % 2 ^ 32 ≤ inode.length.toNat
  · rw [if_pos hle, if_neg (by rw [gt_iff_lt, UInt32.lt_iff_toNat_lt, hsum]; omega)]
    exact Int32.toInt32_toUInt32 n
  · rw [if_neg hle, if_pos (by rw [gt_iff_lt, UInt32.lt_iff_toNat_lt, hsum]; omega)]
    have hdiff : inode.length - UInt32.ofNat pos = UInt32.ofNat (inode.length.toNat - pos) := by
      apply UInt32.toNat_inj.mp
      rw [UInt32.toNat_sub_of_le _ _ (by rw [UInt32.le_iff_toNat_le, hoff]; exact hpos), hoff, UInt32.toNat_ofNat']
      omega
    rw [hdiff, UInt32.toInt32_ofNat']

/-- The value a read of size `n` returns at a position of a file of `len` bytes. -/
def returnedAt (len pos : ℕ) (n : Int32) : Int32 :=
  if (pos + n.toUInt32.toNat) % 2 ^ 32 ≤ len then n else Int32.ofNat (len - pos)

/-- The position moves by the value returned. -/
theorem add_returnedAt {len : ℕ} (hpos : pos ≤ len) (n : Int32) :
    Int32.ofNat pos + returnedAt len pos n = Int32.ofNat (nextPosition len pos n) := by
  unfold returnedAt nextPosition
  split_ifs with h
  · have hword : UInt32.ofNat pos + n.toUInt32 = UInt32.ofNat ((pos + n.toUInt32.toNat) % 2 ^ 32) := by
      apply UInt32.toNat_inj.mp
      rw [UInt32.toNat_add, UInt32.toNat_ofNat', UInt32.toNat_ofNat']
      omega
    have hint := congrArg UInt32.toInt32 hword
    rwa [UInt32.toInt32_add, UInt32.toInt32_ofNat', Int32.toInt32_toUInt32, UInt32.toInt32_ofNat'] at hint
  · rw [← Int32.ofNat_add]
    congr 1
    omega

/-- One read of the file, whatever its size. -/
theorem Streaming.move {fa : FileArray} {i : Fin maxOpenFiles} (h : Streaming fa i inodeNum pos)
    (hin : inodeNum < img.boot.numInodes) (hlen : (img.inodes inodeNum.toNat).length.toNat ≤ 1023 * 4096)
    (hpos : pos ≤ (img.inodes inodeNum.toNat).length.toNat) {fd : Int32} (hfd : slotOf fd = some i)
    (n : Int32) (buf : Buf) :
    ∃ got fa', fileRequest img fa (.read fd (some buf) n none) = some (fa', .delivered got) ∧
      got.ret = returnedAt (img.inodes inodeNum.toNat).length.toNat pos n ∧
      Streaming fa' i inodeNum (nextPosition (img.inodes inodeNum.toNat).length.toNat pos n) := by
  have hcall : callRead img (fa i).fopJumpTable.readOp (fa i).inode buf n (fa i).filePosition none =
      some (fileRead img inodeNum.toInt32 buf n (UInt32.ofNat pos)) := by
    rw [h.readOp, h.inode, h.position]
    simp only [callRead, Int32.toUInt32_ofNat']
  have hret : (fileRead img inodeNum.toInt32 buf n (UInt32.ofNat pos)).ret =
      returnedAt (img.inodes inodeNum.toNat).length.toNat pos n := by
    show (readData img inodeNum.toInt32.toUInt32 (UInt32.ofNat pos) n.toUInt32).1 = _
    rw [UInt32.toUInt32_toInt32, readData_ret hin hlen hpos]
    rfl
  refine ⟨_, _, fileRequest_read hfd (by rw [h.flags]; decide) hcall, hret, ?_⟩
  refine
    { readOp := by rw [Function.update_self]; exact h.readOp
      inode := by rw [Function.update_self]; exact h.inode
      fileType := by rw [Function.update_self]; exact h.fileType
      position := ?_
      flags := by rw [Function.update_self]; exact h.flags }
  rw [Function.update_self, h.position, h.fileType, hret]
  exact add_returnedAt hpos n

/-- One read keeps the discipline exactly when its size does not wrap around to before
the position. -/
theorem disciplined_iff {len : ℕ} (hlen : len ≤ 1023 * 4096) (hpos : pos ≤ len) (n : Int32) :
    Disciplined len ⟨Int32.ofNat pos, n, returnedAt len pos n, Int32.ofNat (nextPosition len pos n)⟩ ↔
      ¬ (n.toInt < 0 ∧ 0 ≤ pos + n.toInt) := by
  have hword := toNat_toUInt32 n
  have hmin := Int32.le_toInt n
  have hmax := Int32.toInt_lt n
  have hnext := nextPosition_le len pos n
  have hbefore : (Int32.ofNat pos).toInt = pos := Int32.toInt_ofNat_of_lt (by omega)
  have hafter : (Int32.ofNat (nextPosition len pos n)).toInt = nextPosition len pos n :=
    Int32.toInt_ofNat_of_lt (by omega)
  constructor
  · rintro h ⟨hneg, hwrap⟩
    have hgrows := h.grows
    rw [hbefore, hafter] at hgrows
    rw [if_neg (by omega)] at hword
    have hback : nextPosition len pos n = (pos + n.toUInt32.toNat) % 2 ^ 32 := if_pos (by omega)
    omega
  · intro hok
    have hforward : pos ≤ nextPosition len pos n := by
      unfold nextPosition
      split_ifs at hword ⊢ <;> omega
    -- a size that is negative and does not wrap returns the rest of the file
    have hret : 0 ≤ (returnedAt len pos n).toInt := by
      unfold returnedAt
      by_cases hsum : (pos + n.toUInt32.toNat) % 2 ^ 32 ≤ len
      · rw [if_pos hsum]
        split_ifs at hword <;> omega
      · rw [if_neg hsum, Int32.toInt_ofNat_of_lt (by omega)]
        omega
    exact ⟨by rw [hafter]; omega, by rw [hbefore, hafter]; omega, fun hneg => absurd hret (not_le.mpr hneg)⟩

/-- All reads of a file, from any position of it on. -/
theorem moves_disciplined (hin : inodeNum < img.boot.numInodes)
    (hlen : (img.inodes inodeNum.toNat).length.toNat ≤ 1023 * 4096) {i : Fin maxOpenFiles} {fd : Int32}
    (hfd : slotOf fd = some i) : ∀ (reads : List (Int32 × Buf)) (fa : FileArray) (pos : ℕ),
    Streaming fa i inodeNum pos → pos ≤ (img.inodes inodeNum.toNat).length.toNat →
    ∃ ms, moves img fd i fa reads = some ms ∧ ms.map Move.nbytes = reads.map Prod.fst ∧
      (∀ m ∈ ms, 0 ≤ m.after.toInt ∧ m.after.toInt ≤ (img.inodes inodeNum.toNat).length.toNat) ∧
      ∀ m ∈ ms, Disciplined (img.inodes inodeNum.toNat).length.toNat m ↔
        ¬ (m.nbytes.toInt < 0 ∧ 0 ≤ m.before.toInt + m.nbytes.toInt)
  | [], fa, pos, _, _ => ⟨[], rfl, rfl, by simp, by simp⟩
  | (n, buf) :: reads, fa, pos, hst, hpos => by
    obtain ⟨got, fa', hreq, hret, hst'⟩ := hst.move hin hlen hpos hfd n buf
    have hnext := nextPosition_le (img.inodes inodeNum.toNat).length.toNat pos n
    obtain ⟨ms, hms, hsizes, hrange, hok⟩ := moves_disciplined hin hlen hfd reads fa' _ hst' hnext
    refine ⟨⟨Int32.ofNat pos, n, got.ret, Int32.ofNat (nextPosition (img.inodes inodeNum.toNat).length.toNat pos n)⟩ :: ms,
      ?_, ?_, ?_, ?_⟩
    · rw [moves, hreq]
      simp only [hms, Option.map_some, hst.position, hst'.position]
    · rw [List.map_cons, List.map_cons, hsizes]
    · rw [List.forall_mem_cons]
      refine ⟨?_, hrange⟩
      rw [Int32.toInt_ofNat_of_lt (by omega)]
      omega
    · rw [List.forall_mem_cons]
      refine ⟨?_, hok⟩
      rw [hret, disciplined_iff hlen hpos n]
      simp only [Int32.toInt_ofNat_of_lt (show pos < 2 ^ 31 by omega)]

/-- **The position of a file.** A regular file of at most 1023 blocks that was opened is
read with any sizes at all: every read returns and leaves the position in the file; the
position never goes back and stays where it is when a read fails, through all of the
reads, exactly when no read has a negative size that leads to a place in the file
before its position, its beginning included. -/
theorem file_position {name : List UInt8} {d : Dentry} (hd : readDentryByName img.boot name = some d)
    (hreg : d.fileType = 2) (hin : d.inodeNum < img.boot.numInodes)
    (hlen : (img.inodes d.inodeNum.toNat).length.toNat ≤ 1023 * 4096) {fa fa' : FileArray} {fd : Int32}
    (ho : openFile img fa (some name) = some (fd, fa')) (hfd : fd ≠ -1) (reads : List (Int32 × Buf)) :
    ∃ i ms, slotOf fd = some i ∧ (fa' i).filePosition = 0 ∧ moves img fd i fa' reads = some ms ∧
      ms.map Move.nbytes = reads.map Prod.fst ∧
      (∀ m ∈ ms, 0 ≤ m.after.toInt ∧ m.after.toInt ≤ (img.inodes d.inodeNum.toNat).length.toNat) ∧
      ((∀ m ∈ ms, Disciplined (img.inodes d.inodeNum.toNat).length.toNat m) ↔
        ∀ m ∈ ms, ¬ (m.nbytes.toInt < 0 ∧ 0 ≤ m.before.toInt + m.nbytes.toInt)) := by
  obtain ⟨i, hi, hst⟩ := streaming_of_open hd hreg ho hfd
  obtain ⟨ms, hms, hsizes, hrange, hok⟩ := moves_disciplined hin hlen hi reads fa' 0 hst (Nat.zero_le _)
  exact ⟨i, ms, hi, hst.position, hms, hsizes, hrange, forall₂_congr hok⟩

end Position

/-- The file of 40 bytes, read with the sizes 16, 100 and -41: no position moves back. -/
theorem file_position_small : ∃ fa' ms, openFile smallImage childFiles (some shellName) = some (2, fa') ∧
    moves smallImage 2 2 fa' [(16, fun _ => 0), (100, fun _ => 0), (-41, fun _ => 0)] = some ms ∧
      ∀ m ∈ ms, Disciplined 40 m := by
  have hrun : ((openFile smallImage childFiles (some shellName)).bind fun r =>
      (moves smallImage 2 2 r.2 [(16, fun _ => 0), (100, fun _ => 0), (-41, fun _ => 0)]).map fun ms => (r.1, ms)) =
      some (2, [⟨0, 16, 16, 16⟩, ⟨16, 100, 24, 40⟩, ⟨40, -41, 0, 40⟩]) := by decide +kernel
  obtain ⟨⟨fd, fa'⟩, ho, hrun⟩ := Option.bind_eq_some_iff.mp hrun
  obtain ⟨ms, hms, hval⟩ := Option.map_eq_some_iff.mp hrun
  obtain ⟨rfl, rfl⟩ := Prod.mk.inj hval
  have hd : readDentryByName smallImage.boot shellName = some (smallImage.boot.dentries 1) := rfl
  obtain ⟨i, ms', hi, -, hms', -, -, hiff⟩ := file_position hd rfl (by decide) (by decide) ho (by decide)
    [(16, fun _ => 0), (100, fun _ => 0), (-41, fun _ => 0)]
  obtain rfl : 2 = i := Option.some.inj hi
  obtain rfl := Option.some.inj (hms.symm.trans hms')
  exact ⟨fa', _, ho, hms, hiff.mpr (by decide)⟩

/-- A read of -4 bytes behind one of 16 returns -4, and goes back by 4. -/
theorem file_position_back : ∃ fa' ms, openFile smallImage childFiles (some shellName) = some (2, fa') ∧
    moves smallImage 2 2 fa' [(16, fun _ => 0), (-4, fun _ => 0)] = some ms ∧
      ms = [⟨0, 16, 16, 16⟩, ⟨16, -4, -4, 12⟩] ∧ ¬ ∀ m ∈ ms, Disciplined 40 m := by
  have hrun : ((openFile smallImage childFiles (some shellName)).bind fun r =>
      (moves smallImage 2 2 r.2 [(16, fun _ => 0), (-4, fun _ => 0)]).map fun ms => (r.1, ms)) =
      some (2, [⟨0, 16, 16, 16⟩, ⟨16, -4, -4, 12⟩]) := by decide +kernel
  obtain ⟨⟨fd, fa'⟩, ho, hrun⟩ := Option.bind_eq_some_iff.mp hrun
  obtain ⟨ms, hms, hval⟩ := Option.map_eq_some_iff.mp hrun
  obtain ⟨rfl, rfl⟩ := Prod.mk.inj hval
  refine ⟨fa', _, ho, hms, rfl, fun hall => ?_⟩
  exact absurd (hall ⟨16, -4, -4, 12⟩ (by simp)).grows (by decide)

end Mp3Kernel
