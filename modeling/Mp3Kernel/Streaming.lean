/-
# Reading a file to its end

A regular file is a list of bytes (`contents`), however its blocks lie in the image.
A process that has opened it and reads with any sizes gets it piece by piece: each
read returns what is left, up to the size asked for, and stores exactly the bytes
behind those already returned; once it returns 0 it always does (`file_streaming`).

The invariant is that the slot's position is the number of bytes returned so far
(`Streaming`); on the way `readData` is shown to compute without wrapping, as an
inode's length is below 2^22 and a size below 2^31.

Key definitions: `WellFormed`, `contents`, `readAll`, `Streaming`.
Key theorem: `file_streaming`.
-/
import Mp3Kernel.Sessions

namespace Mp3Kernel

/-- The image of a file system: no file is larger than its inode can hold, blocks are
numbered below `num_data_blocks`, and a regular file's inode exists. -/
structure WellFormed (img : Image) : Prop where
  length : ∀ i < img.boot.numInodes.toNat, (img.inodes i).length.toNat ≤ 1023 * 4096
  blocks : ∀ i < img.boot.numInodes.toNat, ∀ j, j * 4096 < (img.inodes i).length.toNat →
    (img.inodes i).dataBlock j < img.boot.numDataBlocks
  regular : ∀ i, (img.boot.dentries i).fileType = 2 → (img.boot.dentries i).inodeNum < img.boot.numInodes

/-- The bytes of a file. -/
def contents (img : Image) (inodeNum : UInt32) : List UInt8 :=
  (List.range (img.inodes inodeNum.toNat).length.toNat).map (fileByte img (img.inodes inodeNum.toNat))

/-- Reads of one descriptor, each with its size and buffer: what they deliver. -/
def readAll (img : Image) (fd : Int32) : FileArray → List (Int32 × Buf) → Option (List Delivery)
  | _, [] => some []
  | fa, (nbytes, buf) :: rest =>
    match fileRequest img fa (.read fd (some buf) nbytes none) with
    | some (fa', .delivered got) => (readAll img fd fa' rest).map (got :: ·)
    | _ => none

/-- The number of bytes some reads have returned. -/
def returned (ds : List Delivery) : ℤ := (ds.map fun got => got.ret.toInt).sum

/-! ### One read -/

theorem dentryLoop_mem {fname : List UInt8} {d : Dentry} : ∀ {ds : List Dentry} {numBits : ℕ},
    dentryLoop fname numBits ds = some d → d ∈ ds
  | [], _, h => by cases h
  | x :: ds, numBits, h => by
    simp only [dentryLoop] at h
    split_ifs at h with h1 h2
    all_goals
      first
      | exact List.mem_cons_of_mem _ (dentryLoop_mem h)
      | rw [← Option.some.inj h]
        simp

theorem readDentryByName_mem {b : BootBlock} {name : List UInt8} {d : Dentry}
    (h : readDentryByName b name = some d) : ∃ i, b.dentries i = d := by
  unfold readDentryByName at h
  simp only at h
  have hm : d ∈ List.ofFn b.dentries := by
    split_ifs at h
    all_goals exact dentryLoop_mem h
  exact List.mem_ofFn.mp hm

section Read

variable {img : Image} {inodeNum : UInt32} {pos : ℕ}

/-- `read_data` at a position of the file. -/
theorem readData_eq (hin : inodeNum < img.boot.numInodes)
    (hlen : (img.inodes inodeNum.toNat).length.toNat ≤ 1023 * 4096)
    (hpos : pos ≤ (img.inodes inodeNum.toNat).length.toNat) {n : UInt32} (hn : n.toNat < 2 ^ 31) :
    readData img inodeNum (UInt32.ofNat pos) n =
      (Int32.ofNat (min n.toNat ((img.inodes inodeNum.toNat).length.toNat - pos)),
        (List.range (min n.toNat ((img.inodes inodeNum.toNat).length.toNat - pos))).map fun j =>
          fileByte img (img.inodes inodeNum.toNat) (pos + j)) := by
  generalize hi : img.inodes inodeNum.toNat = inode at *
  have hoff : (UInt32.ofNat pos).toNat = pos := by
    rw [UInt32.toNat_ofNat']
    omega
  have hsum : (UInt32.ofNat pos + n).toNat = pos + n.toNat := by
    rw [UInt32.toNat_add, hoff]
    omega
  unfold readData
  rw [if_neg (by simpa using hin)]
  simp only [hi]
  rw [if_neg (by rw [gt_iff_lt, UInt32.lt_iff_toNat_lt, hoff]; omega)]
  have hnum : (if UInt32.ofNat pos + n > inode.length then inode.length - UInt32.ofNat pos else n) =
      UInt32.ofNat (min n.toNat (inode.length.toNat - pos)) := by
    apply UInt32.toNat_inj.mp
    rw [UInt32.toNat_ofNat']
    by_cases hgt : UInt32.ofNat pos + n > inode.length
    · rw [if_pos hgt]
      rw [gt_iff_lt, UInt32.lt_iff_toNat_lt, hsum] at hgt
      have hle : UInt32.ofNat pos ≤ inode.length := by
        rw [UInt32.le_iff_toNat_le, hoff]
        exact hpos
      rw [UInt32.toNat_sub_of_le _ _ hle, hoff]
      omega
    · rw [if_neg hgt]
      rw [gt_iff_lt, UInt32.lt_iff_toNat_lt, hsum] at hgt
      omega
  rw [hnum]
  have hm : (UInt32.ofNat (min n.toNat (inode.length.toNat - pos))).toNat = min n.toNat (inode.length.toNat - pos) := by
    rw [UInt32.toNat_ofNat']
    omega
  have hcount : (UInt32.ofNat pos + UInt32.ofNat (min n.toNat (inode.length.toNat - pos))).toNat -
      (UInt32.ofNat pos).toNat = min n.toNat (inode.length.toNat - pos) := by
    rw [UInt32.toNat_add, hoff, hm]
    omega
  rw [hcount, hoff, readLoop_eq img inode _ _ _ fun _ => rfl]
  rfl

/-- The slot reads the file `inodeNum`, of which `pos` bytes have been returned. -/
structure Streaming (fa : FileArray) (i : Fin maxOpenFiles) (inodeNum : UInt32) (pos : ℕ) : Prop where
  readOp : (fa i).fopJumpTable.readOp = .fileRead
  inode : (fa i).inode = inodeNum.toInt32
  fileType : (fa i).fileType = 2
  position : (fa i).filePosition = Int32.ofNat pos
  flags : (fa i).flags = 1

/-- One read of the file: what is left, up to the size, and the position behind it. -/
theorem Streaming.read {fa : FileArray} {i : Fin maxOpenFiles} (h : Streaming fa i inodeNum pos)
    (hin : inodeNum < img.boot.numInodes) (hlen : (img.inodes inodeNum.toNat).length.toNat ≤ 1023 * 4096)
    (hpos : pos ≤ (img.inodes inodeNum.toNat).length.toNat) {fd : Int32} (hfd : slotOf fd = some i)
    {n : Int32} (hn : 0 < n) (buf : Buf) {m : ℕ}
    (hm : m = min n.toInt.toNat ((img.inodes inodeNum.toNat).length.toNat - pos)) :
    ∃ got fa', fileRequest img fa (.read fd (some buf) n none) = some (fa', .delivered got) ∧
      got.ret = Int32.ofNat m ∧
      got.data = (List.range m).map (fun j => fileByte img (img.inodes inodeNum.toNat) (pos + j)) ∧
      (∀ j < m, got.buf j = fileByte img (img.inodes inodeNum.toNat) (pos + j)) ∧
      Streaming fa' i inodeNum (pos + m) := by
  have hnn : n.toUInt32.toNat = n.toInt.toNat := Int32.toNat_toUInt32_of_le (Int32.le_of_lt hn)
  have hlt : n.toUInt32.toNat < 2 ^ 31 := by
    rw [hnn]
    have := Int32.toInt_lt n
    omega
  have hdata := readData_eq hin hlen hpos hlt
  rw [hnn, ← hm] at hdata
  obtain ⟨bytes, hb⟩ : ∃ bytes, bytes = (List.range m).map fun j => fileByte img (img.inodes inodeNum.toNat) (pos + j) :=
    ⟨_, rfl⟩
  rw [← hb] at hdata
  have hcall : callRead img (fa i).fopJumpTable.readOp (fa i).inode buf n (fa i).filePosition none =
      some ⟨Int32.ofNat m, bytes, overlay (clearBuf nameSize 0 buf) bytes⟩ := by
    rw [h.readOp, h.inode, h.position]
    simp only [callRead, fileRead, UInt32.toUInt32_toInt32, Int32.toUInt32_ofNat', hdata]
  refine ⟨⟨Int32.ofNat m, bytes, overlay (clearBuf nameSize 0 buf) bytes⟩,
    Function.update fa i { fa i with filePosition := Int32.ofNat (pos + m) }, ?_, rfl, hb, ?_, ?_⟩
  · rw [fileRequest_read hfd (by rw [h.flags]; decide) hcall, h.position, h.fileType, Int32.ofNat_add]
    rfl
  · intro j hj
    show overlay (clearBuf nameSize 0 buf) bytes j = _
    rw [overlay_of_lt _ _ (by simpa [hb] using hj)]
    simp [hb]
  · exact
      { readOp := by rw [Function.update_self]; exact h.readOp
        inode := by rw [Function.update_self]; exact h.inode
        fileType := by rw [Function.update_self]; exact h.fileType
        position := by rw [Function.update_self]
        flags := by rw [Function.update_self]; exact h.flags }

/-! ### All reads -/

/-- A read of `n` bytes behind `pos` bytes returned, and what it delivers: what is left
of the file up to `n`, its bytes from `pos` on, and 0 exactly at its end. -/
structure ReadOk (img : Image) (inodeNum : UInt32) (pos : ℤ) (n : Int32) (got : Delivery) : Prop where
  ret : got.ret.toInt = min n.toInt ((contents img inodeNum).length - pos)
  bytes : ∀ j : ℕ, (j : ℤ) < got.ret.toInt → (contents img inodeNum)[pos.toNat + j]? = some (got.buf j)
  finished : got.ret = 0 ↔ pos = (contents img inodeNum).length

theorem length_contents : (contents img inodeNum).length = (img.inodes inodeNum.toNat).length.toNat := by
  simp [contents]

theorem contents_getElem {j : ℕ} (h : j < (contents img inodeNum).length) :
    (contents img inodeNum)[j]? = some (fileByte img (img.inodes inodeNum.toNat) j) := by
  rw [length_contents] at h
  simp [contents, h]

theorem contents_piece {m n : ℕ} (hm : m = min n ((img.inodes inodeNum.toNat).length.toNat - pos)) :
    (List.range m).map (fun j => fileByte img (img.inodes inodeNum.toNat) (pos + j)) =
      ((contents img inodeNum).drop pos).take n := by
  apply List.ext_getElem
  · simp [length_contents, hm]
  · intro j h1 h2
    simp [contents]

theorem drop_contents {m n : ℕ} (hm : m = min n ((img.inodes inodeNum.toNat).length.toNat - pos)) :
    (contents img inodeNum).drop (pos + m) = ((contents img inodeNum).drop pos).drop n := by
  rw [List.drop_drop]
  by_cases hle : n ≤ (img.inodes inodeNum.toNat).length.toNat - pos
  · rw [hm, min_eq_left hle]
  · have hl : (contents img inodeNum).length = (img.inodes inodeNum.toNat).length.toNat := length_contents
    rw [List.drop_eq_nil_of_le (by omega), List.drop_eq_nil_of_le (by omega)]

theorem readOk_of_ret (hlen : (img.inodes inodeNum.toNat).length.toNat ≤ 1023 * 4096)
    (hpos : pos ≤ (img.inodes inodeNum.toNat).length.toNat) {n : Int32} (hn : 0 < n) {m : ℕ}
    (hm : m = min n.toInt.toNat ((img.inodes inodeNum.toNat).length.toNat - pos)) {got : Delivery}
    (hret : got.ret = Int32.ofNat m)
    (hbuf : ∀ j < m, got.buf j = fileByte img (img.inodes inodeNum.toNat) (pos + j)) :
    ReadOk img inodeNum pos n got := by
  have hn0 : 0 < n.toInt := by simpa using Int32.lt_iff_toInt_lt.mp hn
  have hl : (contents img inodeNum).length = (img.inodes inodeNum.toNat).length.toNat := length_contents
  have hint : got.ret.toInt = m := by
    rw [hret]
    exact Int32.toInt_ofNat_of_lt (by omega)
  refine ⟨?_, fun j hj => ?_, ?_⟩
  · rw [hint, hl]
    omega
  · rw [hint] at hj
    have hjm : j < m := by omega
    rw [hbuf j hjm, Int.toNat_natCast, contents_getElem (by omega)]
  · rw [← Int32.toInt_inj, hint, hl]
    show (m : ℤ) = 0 ↔ _
    omega

/-- All reads of a file, from any position of it on. -/
theorem readAll_ok (hin : inodeNum < img.boot.numInodes)
    (hlen : (img.inodes inodeNum.toNat).length.toNat ≤ 1023 * 4096) {i : Fin maxOpenFiles} {fd : Int32}
    (hfd : slotOf fd = some i) : ∀ (reads : List (Int32 × Buf)) (fa : FileArray) (pos : ℕ),
    Streaming fa i inodeNum pos → pos ≤ (img.inodes inodeNum.toNat).length.toNat → (∀ r ∈ reads, 0 < r.1) →
    ∃ ds, readAll img fd fa reads = some ds ∧ ds.length = reads.length ∧
      (∀ x n buf got, reads[x]? = some (n, buf) → ds[x]? = some got →
        ReadOk img inodeNum (pos + returned (ds.take x)) n got) ∧
      (ds.map Delivery.data).flatten =
        ((contents img inodeNum).drop pos).take (reads.map fun r => r.1.toInt.toNat).sum
  | [], fa, pos, _, _, _ => ⟨[], rfl, rfl, by simp, by simp⟩
  | (n, buf) :: reads, fa, pos, hst, hpos, hall => by
    obtain ⟨hn, hrest⟩ := List.forall_mem_cons.mp hall
    obtain ⟨m, hm⟩ : ∃ m, m = min n.toInt.toNat ((img.inodes inodeNum.toNat).length.toNat - pos) := ⟨_, rfl⟩
    obtain ⟨got, fa', hreq, hret, hdata, hbuf, hst'⟩ := hst.read hin hlen hpos hfd hn buf hm
    obtain ⟨ds, hds, hlength, hok, hflat⟩ := readAll_ok hin hlen hfd reads fa' (pos + m) hst' (by omega) hrest
    have hone := readOk_of_ret hlen hpos hn hm hret hbuf
    refine ⟨got :: ds, ?_, by simp [hlength], ?_, ?_⟩
    · rw [readAll, hreq]
      simp only [hds, Option.map_some]
    · intro x n' buf' got' hx hg
      cases x with
      | zero =>
        simp only [List.getElem?_cons_zero, Option.some.injEq, Prod.mk.injEq] at hx hg
        obtain ⟨⟨rfl, rfl⟩, rfl⟩ := And.intro hx hg
        simpa [returned] using hone
      | succ x =>
        simp only [List.getElem?_cons_succ] at hx hg
        have hint : got.ret.toInt = m := by
          rw [hret]
          exact Int32.toInt_ofNat_of_lt (by omega)
        have := hok x n' buf' got' hx hg
        have hsum : (pos : ℤ) + returned ((got :: ds).take (x + 1)) = ((pos + m : ℕ) : ℤ) + returned (ds.take x) := by
          simp only [returned, List.take_succ_cons, List.map_cons, List.sum_cons, hint]
          push_cast
          ring
        rwa [hsum]
    · rw [List.map_cons, List.flatten_cons, hflat, hdata, contents_piece hm, drop_contents hm, List.map_cons,
        List.sum_cons, List.take_add]

theorem returned_take_succ {ds : List Delivery} {x : ℕ} {got : Delivery} (h : ds[x]? = some got) :
    returned (ds.take (x + 1)) = returned (ds.take x) + got.ret.toInt := by
  rw [List.take_add_one, h]
  simp [returned]

/-- Once a read has returned 0, the next ones do. -/
theorem zero_from_on {reads : List (Int32 × Buf)} {ds : List Delivery} (hlength : ds.length = reads.length)
    (hok : ∀ x n buf got, reads[x]? = some (n, buf) → ds[x]? = some got →
      ReadOk img inodeNum (returned (ds.take x)) n got) {x : ℕ} {got : Delivery} (hx : ds[x]? = some got)
    (h0 : got.ret = 0) : ∀ (y : ℕ) (got' : Delivery), ds[x + y]? = some got' → got'.ret = 0 := by
  have hread : ∀ z got', ds[z]? = some got' → ∃ n, ReadOk img inodeNum (returned (ds.take z)) n got' := by
    intro z got' hz
    obtain ⟨hlt, -⟩ := List.getElem?_eq_some_iff.mp hz
    rw [hlength] at hlt
    exact ⟨reads[z].1, hok z reads[z].1 reads[z].2 got' (List.getElem?_eq_getElem hlt) hz⟩
  intro y
  induction y with
  | zero =>
    intro got' hy
    rw [Nat.add_zero, hx] at hy
    rw [← Option.some.inj hy]
    exact h0
  | succ y ih =>
    intro got' hy
    have hlt : x + y < ds.length := by
      obtain ⟨hlt, -⟩ := List.getElem?_eq_some_iff.mp hy
      omega
    have hprev : ds[x + y]? = some ds[x + y] := List.getElem?_eq_getElem hlt
    have hz := ih _ hprev
    obtain ⟨n, hn⟩ := hread _ _ hprev
    obtain ⟨n', hn'⟩ := hread _ _ hy
    rw [hn'.finished, ← Nat.add_assoc, returned_take_succ hprev, hz, ← hn.finished.mp hz]
    simp

end Read

/-- A slot just opened for a regular file streams it from its start. -/
theorem streaming_of_open {img : Image} {name : List UInt8} {d : Dentry} (hd : readDentryByName img.boot name = some d)
    (hreg : d.fileType = 2) {fa fa' : FileArray} {fd : Int32} (ho : openFile img fa (some name) = some (fd, fa'))
    (hfd : fd ≠ -1) : ∃ i, slotOf fd = some i ∧ Streaming fa' i d.inodeNum 0 := by
  rcases opened_cases hd ho with ⟨-, hret, -⟩ | ⟨i, ops, -, hops, rfl, rfl⟩
  · exact absurd hret hfd
  · rw [hreg] at hops
    obtain rfl := Option.some.inj hops
    refine ⟨i, slotOf_ofNat i,
      { readOp := by rw [Function.update_self]; rfl
        inode := by rw [Function.update_self]; rfl
        fileType := ?_
        position := by rw [Function.update_self]; rfl
        flags := by rw [Function.update_self]; rfl }⟩
    rw [Function.update_self]
    exact congrArg UInt32.toInt32 hreg

/-- **File streaming.** A regular file of a well-formed image that was opened is
returned piece by piece by any reads of positive sizes: each returns what is left up
to its size and stores exactly those bytes, 0 means that the end is reached and stays,
and the pieces together are the beginning of the file, whatever the sizes. -/
theorem file_streaming {img : Image} (hw : WellFormed img) {name : List UInt8} {d : Dentry}
    (hd : readDentryByName img.boot name = some d) (hreg : d.fileType = 2) {fa fa' : FileArray} {fd : Int32}
    (ho : openFile img fa (some name) = some (fd, fa')) (hfd : fd ≠ -1) (reads : List (Int32 × Buf))
    (hpos : ∀ r ∈ reads, 0 < r.1) :
    ∃ ds, readAll img fd fa' reads = some ds ∧ ds.length = reads.length ∧
      (∀ x n buf got, reads[x]? = some (n, buf) → ds[x]? = some got →
        ReadOk img d.inodeNum (returned (ds.take x)) n got) ∧
      (∀ (x : ℕ) (got : Delivery), ds[x]? = some got → got.ret = 0 →
        ∀ (y : ℕ) (got' : Delivery), ds[x + y]? = some got' → got'.ret = 0) ∧
      (ds.map Delivery.data).flatten =
        (contents img d.inodeNum).take (reads.map fun r => r.1.toInt.toNat).sum := by
  obtain ⟨e, rfl⟩ := readDentryByName_mem hd
  have hin := hw.regular e hreg
  have hlen := hw.length _ (UInt32.lt_iff_toNat_lt.mp hin)
  obtain ⟨i, hi, hst⟩ := streaming_of_open hd hreg ho hfd
  obtain ⟨ds, hds, hlength, hok, hflat⟩ := readAll_ok hin hlen hi reads _ 0 hst (by omega) hpos
  simp only [Nat.cast_zero, zero_add, List.drop_zero] at hok hflat
  exact ⟨ds, hds, hlength, hok, fun x got hx h0 => zero_from_on hlength hok hx h0, hflat⟩

theorem wellFormed_smallImage : WellFormed smallImage := by
  refine ⟨fun i _ => ?_, fun i _ j _ => ?_, by decide +kernel⟩
  · show (40 : UInt32).toNat ≤ 1023 * 4096
    decide
  · show (1 : UInt32) < 2
    decide

/-- The file of 40 bytes, read with sizes 16, 100 and 1: the pieces have 16, 24 and 0 bytes. -/
theorem file_streaming_small : ∃ fa' ds,
    openFile smallImage childFiles (some shellName) = some (2, fa') ∧
      readAll smallImage 2 fa' [(16, fun _ => 0), (100, fun _ => 1), (1, fun _ => 2)] = some ds ∧
      (ds.map Delivery.data).flatten = (contents smallImage 0).take 117 := by
  have hopen : (openFile smallImage childFiles (some shellName)).map Prod.fst = some 2 := by decide +kernel
  obtain ⟨⟨fd, fa'⟩, ho, rfl⟩ := Option.map_eq_some_iff.mp hopen
  have hd : readDentryByName smallImage.boot shellName = some (smallImage.boot.dentries 1) := rfl
  obtain ⟨ds, hds, -, -, -, hflat⟩ := file_streaming wellFormed_smallImage hd rfl ho (by decide)
    [(16, fun _ => 0), (100, fun _ => 1), (1, fun _ => 2)] (by simp)
  exact ⟨fa', ds, ho, hds, hflat⟩

end Mp3Kernel
