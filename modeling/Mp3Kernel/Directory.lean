/-
# Listing the directory

A process that has opened a directory and reads it gets one entry's name after the
other: `read` moves the position by one for every read that returns something,
whatever it returned, so the `x`-th read looks at the `x`-th entry
(`readAll_listing`).

Two things then go wrong at the edges. `dir_read` takes `strlen` of a name that need
not end in a NUL: behind a name of 32 bytes it counts the first byte of the entry's
type as well. And behind the last of 63 entries there is no empty one to stop at, so
the read fails instead of returning 0. `directory_listing` says that nothing else
does.

Key definitions: `DirImage`, `entryName`, `Listing`, `Listed`.
Key theorems: `readAll_listing`, `directory_listing`.
-/
import Mp3Kernel.Streaming

namespace Mp3Kernel

/-- An image `init_file_system` accepts, whose first `num_dentries` entries have names
and types and whose other entries are zero. -/
structure DirImage (img : Image) : Prop where
  accepted : initFileSystem img.boot = some img.boot
  named : ∀ i : Fin maxDentries, i.val < img.boot.numDentries.toNat → (img.boot.dentries i).fileName 0 ≠ 0
  types : ∀ i : Fin maxDentries, i.val < img.boot.numDentries.toNat → (img.boot.dentries i).fileType.toNat ≤ 2
  rest : ∀ i : Fin maxDentries, img.boot.numDentries.toNat ≤ i.val →
    img.boot.dentries i = ⟨fun _ => 0, 0, 0, fun _ => 0⟩

/-- The name of an entry: its bytes up to a NUL, or all 32. -/
def entryName (d : Dentry) : List UInt8 := cstr (List.ofFn d.fileName)

/-! ### One entry -/

theorem length_entryName_le (d : Dentry) : (entryName d).length ≤ 32 := by
  have h := (List.takeWhile_sublist (l := List.ofFn d.fileName) fun c => decide (c ≠ 0)).length_le
  rw [List.length_ofFn] at h
  exact h

/-- How long `strlen` takes the name in an entry for: a name of 32 bytes runs on into
the type, which is one byte long unless it is 0. -/
theorem strlen_bytes {d : Dentry} (ht : d.fileType.toNat ≤ 2) :
    strlen d.bytes = if (entryName d).length = 32 ∧ d.fileType ≠ 0 then 33 else (entryName d).length := by
  have hfull : (List.ofFn d.fileName).length = 32 := List.length_ofFn
  have hbytes : d.bytes = List.ofFn d.fileName ++
      (le32 d.fileType ++ (le32 d.inodeNum ++ (List.ofFn d.reserved).flatMap le32)) := by
    simp only [Dentry.bytes, List.append_assoc]
  have hcase : d.fileType = 0 ∨ d.fileType = 1 ∨ d.fileType = 2 := by
    rcases (show d.fileType.toNat = 0 ∨ d.fileType.toNat = 1 ∨ d.fileType.toNat = 2 by omega) with h | h | h
    · exact Or.inl (UInt32.toNat_inj.mp h)
    · exact Or.inr (Or.inl (UInt32.toNat_inj.mp h))
    · exact Or.inr (Or.inr (UInt32.toNat_inj.mp h))
  rw [strlen_eq_length_cstr, hbytes, cstr_append, hfull]
  unfold entryName
  by_cases h32 : (cstr (List.ofFn d.fileName)).length = 32
  · rw [if_pos h32, List.length_append, hfull, h32]
    rcases hcase with h | h | h
    · rw [h]
      rfl
    · rw [h]
      rfl
    · rw [h]
      rfl
  · rw [if_neg h32, if_neg fun h => h32 h.1]

theorem bytes_take (d : Dentry) : d.bytes.take (entryName d).length = entryName d := by
  have hfull : (List.ofFn d.fileName).length = 32 := List.length_ofFn
  have hpre : entryName d <+: d.bytes := by
    have h1 : entryName d <+: List.ofFn d.fileName := List.takeWhile_prefix _
    refine h1.trans ?_
    unfold Dentry.bytes
    rw [List.append_assoc, List.append_assoc]
    exact List.prefix_append _ _
  exact (List.prefix_iff_eq_take.mp hpre).symm

theorem entryName_ne_nil {d : Dentry} (h : d.fileName 0 ≠ 0) : 0 < (entryName d).length := by
  have hcons : List.ofFn d.fileName = d.fileName 0 :: (List.ofFn fun i : Fin 31 => d.fileName i.succ) :=
    List.ofFn_succ
  unfold entryName
  rw [hcons, cstr_cons, if_neg h]
  simp

/-! ### One read -/

section Read

variable {img : Image}

theorem ofNat_toInt {n : Int32} (h : 0 ≤ n.toInt) : Int32.ofNat n.toInt.toNat = n := by
  apply Int32.toInt_inj.mp
  have hlt := Int32.toInt_lt n
  rw [Int32.toInt_ofNat_of_lt (by omega)]
  omega

/-- `dir_read` of an entry: as many of its bytes as `strlen` counts, up to the size. -/
theorem dirRead_eq (x : Fin maxDentries) (buf : Buf) {n : Int32} (hn : 0 ≤ n.toInt) {m : ℕ}
    (hm : m = min n.toInt.toNat (strlen (img.boot.dentries x).bytes)) :
    dirRead img buf n (UInt32.ofNat x) = ⟨Int32.ofNat m, (img.boot.dentries x).bytes.take m,
      overlay (clearBuf nameSize 0 buf) ((img.boot.dentries x).bytes.take m)⟩ := by
  have hlt := Int32.toInt_lt n
  have hnn : n.toUInt32.toNat = n.toInt.toNat :=
    Int32.toNat_toUInt32_of_le (Int32.le_iff_toInt_le.mpr (by simp; omega))
  have hx : (UInt32.ofNat x.val).toNat = x.val := by
    have hx63 := x.isLt
    simp only [maxDentries] at hx63
    rw [UInt32.toNat_ofNat']
    omega
  have hindex : readDentryByIndex img.boot (UInt32.ofNat x.val) = some (img.boot.dentries x) := by
    unfold readDentryByIndex
    rw [dif_pos (by rw [hx]; exact x.isLt)]
    simp only [hx]
  have hsize : (if n.toUInt32.toNat > strlen (img.boot.dentries x).bytes then
      Int32.ofNat (strlen (img.boot.dentries x).bytes) else n) = Int32.ofNat m := by
    rw [hnn, hm]
    split_ifs with h
    · rw [min_eq_right (by omega)]
    · rw [min_eq_left (by omega), ofNat_toInt (by omega)]
  have hnat : (Int32.ofNat m).toUInt32.toNat = m := by
    rw [Int32.toUInt32_ofNat', UInt32.toNat_ofNat']
    omega
  unfold dirRead
  simp only [hindex, hsize, hnat]
  rw [strncpy_eq_take _ _ (by omega)]

theorem dirRead_full (img : Image) (buf : Buf) (n : Int32) : (dirRead img buf n 63).ret = -1 := rfl

/-- The slot lists a directory, of which `pos` entries have been returned. -/
structure Listing (fa : FileArray) (i : Fin maxOpenFiles) (pos : ℕ) : Prop where
  readOp : (fa i).fopJumpTable.readOp = .dirRead
  fileType : (fa i).fileType = 1
  position : (fa i).filePosition = Int32.ofNat pos
  flags : (fa i).flags = 1

theorem numDentries_le (h : DirImage img) : img.boot.numDentries.toNat ≤ 63 := by
  have hacc := h.accepted
  unfold initFileSystem at hacc
  split_ifs at hacc with hgt
  exact not_lt.mp hgt

/-- A read returns something as long as there are entries left. -/
theorem dirRead_pos (h : DirImage img) {pos : ℕ} (hpos : pos ≤ img.boot.numDentries.toNat) (buf : Buf) {n : Int32}
    (hn : 32 ≤ n.toInt) : (dirRead img buf n (UInt32.ofNat pos)).ret > 0 ↔ pos < img.boot.numDentries.toNat := by
  have hmax := numDentries_le h
  by_cases h63 : pos = 63
  · subst h63
    rw [show UInt32.ofNat 63 = 63 from rfl, dirRead_full]
    exact iff_of_false (by decide) (by omega)
  · obtain ⟨x, rfl⟩ : ∃ x : Fin maxDentries, x.val = pos := ⟨⟨pos, by simp only [maxDentries]; omega⟩, rfl⟩
    rw [dirRead_eq x buf (by omega) rfl]
    have hlt := Int32.toInt_lt n
    have hret : Int32.ofNat (min n.toInt.toNat (strlen (img.boot.dentries x).bytes)) > 0 ↔
        0 < strlen (img.boot.dentries x).bytes := by
      rw [gt_iff_lt, Int32.lt_iff_toInt_lt, Int32.toInt_ofNat_of_lt (by omega)]
      show (0 : ℤ) < _ ↔ _
      omega
    show Int32.ofNat _ > 0 ↔ _
    rw [hret]
    by_cases hx : x.val < img.boot.numDentries.toNat
    · refine iff_of_true ?_ hx
      rw [strlen_bytes (h.types x hx)]
      have := entryName_ne_nil (h.named x hx)
      split_ifs <;> omega
    · refine iff_of_false ?_ hx
      rw [h.rest x (by omega)]
      decide

/-- One read of the directory, and the position behind it. -/
theorem Listing.read (h : DirImage img) {fa : FileArray} {i : Fin maxOpenFiles} {pos : ℕ} (hl : Listing fa i pos)
    (hpos : pos ≤ img.boot.numDentries.toNat) {fd : Int32} (hfd : slotOf fd = some i) {n : Int32}
    (hn : 32 ≤ n.toInt) (buf : Buf) :
    ∃ fa', fileRequest img fa (.read fd (some buf) n none) =
        some (fa', .delivered (dirRead img buf n (UInt32.ofNat pos))) ∧
      Listing fa' i (min (pos + 1) img.boot.numDentries.toNat) := by
  obtain ⟨got, hgot⟩ : ∃ got, got = dirRead img buf n (UInt32.ofNat pos) := ⟨_, rfl⟩
  have hret := dirRead_pos h hpos buf hn
  rw [← hgot] at hret ⊢
  have hcall : callRead img (fa i).fopJumpTable.readOp (fa i).inode buf n (fa i).filePosition none = some got := by
    rw [hl.readOp, hl.position]
    simp only [callRead, Int32.toUInt32_ofNat', hgot]
  refine ⟨Function.update fa i { fa i with filePosition := (fa i).filePosition + advance (fa i).fileType got.ret },
    ?_, ?_⟩
  · exact fileRequest_read hfd (by rw [hl.flags]; decide) hcall
  · refine
      { readOp := by rw [Function.update_self]; exact hl.readOp
        fileType := by rw [Function.update_self]; exact hl.fileType
        position := ?_
        flags := by rw [Function.update_self]; exact hl.flags }
    rw [Function.update_self, hl.fileType, hl.position]
    show Int32.ofNat pos + (if (1 : Int32) = 1 then if got.ret > 0 then 1 else 0 else got.ret) = _
    rw [if_pos rfl]
    by_cases hx : pos < img.boot.numDentries.toNat
    · rw [if_pos (hret.mpr hx), min_eq_left (by omega), Int32.ofNat_add]
      rfl
    · rw [if_neg fun hp => hx (hret.mp hp), min_eq_right (by omega), Int32.add_zero]
      congr 1
      omega

/-! ### All reads -/

/-- All reads of a directory, from any of its entries on: the `x`-th one looks at the
`x`-th entry, and the last ones behind the last entry. -/
theorem readAll_listing (h : DirImage img) {i : Fin maxOpenFiles} {fd : Int32} (hfd : slotOf fd = some i) :
    ∀ (reads : List (Int32 × Buf)) (fa : FileArray) (pos : ℕ), Listing fa i pos →
    pos ≤ img.boot.numDentries.toNat → (∀ r ∈ reads, 32 ≤ r.1.toInt) →
    ∃ ds, readAll img fd fa reads = some ds ∧ ds.length = reads.length ∧
      ∀ x n buf, reads[x]? = some (n, buf) →
        ds[x]? = some (dirRead img buf n (UInt32.ofNat (min (pos + x) img.boot.numDentries.toNat)))
  | [], fa, pos, _, _, _ => ⟨[], rfl, rfl, by simp⟩
  | (n, buf) :: reads, fa, pos, hl, hpos, hall => by
    obtain ⟨hn, hrest⟩ := List.forall_mem_cons.mp hall
    obtain ⟨fa', hreq, hl'⟩ := hl.read h hpos hfd hn buf
    obtain ⟨ds, hds, hlength, hok⟩ := readAll_listing h hfd reads fa' _ hl' (by omega) hrest
    refine ⟨dirRead img buf n (UInt32.ofNat pos) :: ds, ?_, by simp [hlength], ?_⟩
    · rw [readAll, hreq]
      simp only [hds, Option.map_some]
    · intro x n' buf' hx
      cases x with
      | zero =>
        simp only [List.getElem?_cons_zero, Option.some.injEq, Prod.mk.injEq] at hx
        obtain ⟨rfl, rfl⟩ := hx
        rw [List.getElem?_cons_zero, Nat.add_zero, min_eq_left hpos]
      | succ x =>
        rw [List.getElem?_cons_succ] at hx ⊢
        rw [hok x n' buf' hx]
        congr 3
        omega

/-- The name of entry `x`. -/
def nameOf (img : Image) (x : ℕ) : List UInt8 :=
  if h : x < maxDentries then entryName (img.boot.dentries ⟨x, h⟩) else []

/-- The `x`-th read of a directory is right: it returns the `x`-th name, or 0 behind
the last one. -/
def Listed (img : Image) (x : ℕ) (got : Delivery) : Prop :=
  if x < img.boot.numDentries.toNat then
    got.ret = Int32.ofNat (nameOf img x).length ∧ got.data = nameOf img x ∧
      ∀ j < (nameOf img x).length, some (got.buf j) = (nameOf img x)[j]?
  else got.ret = 0

/-- What a read of size `n` must avoid: a name of 32 bytes with a type other than 0,
unless `n` cuts it off, and the place behind the last entry of a full directory. -/
def Harmless (img : Image) (x : ℕ) (n : Int32) : Prop :=
  (∀ h : x < maxDentries, x < img.boot.numDentries.toNat → (nameOf img x).length = 32 →
    (img.boot.dentries ⟨x, h⟩).fileType ≠ 0 → n = 32) ∧
  (img.boot.numDentries.toNat = 63 → x < 63)

/-- The read behind the last entry says so, unless the directory is full. -/
theorem dirRead_end (h : DirImage img) {n : Int32} (hn : 32 ≤ n.toInt) (buf : Buf) :
    (dirRead img buf n (UInt32.ofNat img.boot.numDentries.toNat)).ret = 0 ↔ img.boot.numDentries.toNat ≠ 63 := by
  have hmax := numDentries_le h
  by_cases h63 : img.boot.numDentries.toNat = 63
  · rw [h63, show UInt32.ofNat 63 = 63 from rfl, dirRead_full]
    exact iff_of_false (by decide) (by simp)
  · obtain ⟨y, hy⟩ : ∃ y : Fin maxDentries, y.val = img.boot.numDentries.toNat :=
      ⟨⟨img.boot.numDentries.toNat, by simp only [maxDentries]; omega⟩, rfl⟩
    rw [← hy, dirRead_eq y buf (by omega) rfl, h.rest y (by omega)]
    refine iff_of_true ?_ (by omega)
    show Int32.ofNat (min n.toInt.toNat 0) = 0
    rw [Nat.min_zero]
    rfl

theorem listed_iff (h : DirImage img) {x : ℕ} {n : Int32} (hn : 32 ≤ n.toInt) (buf : Buf) :
    Listed img x (dirRead img buf n (UInt32.ofNat (min x img.boot.numDentries.toNat))) ↔ Harmless img x n := by
  have hmax := numDentries_le h
  have hlt := Int32.toInt_lt n
  unfold Listed Harmless
  by_cases hx : x < img.boot.numDentries.toNat
  · have hx63 : x < maxDentries := by
      simp only [maxDentries]
      omega
    have hname : nameOf img x = entryName (img.boot.dentries ⟨x, hx63⟩) := dif_pos hx63
    have hle := length_entryName_le (img.boot.dentries ⟨x, hx63⟩)
    have hbytes := strlen_bytes (h.types ⟨x, hx63⟩ hx)
    rw [if_pos hx, min_eq_left (by omega), hname,
      show UInt32.ofNat x = UInt32.ofNat (⟨x, hx63⟩ : Fin maxDentries).val from rfl,
      dirRead_eq ⟨x, hx63⟩ buf (by omega) rfl, hbytes]
    obtain ⟨d, hd⟩ : ∃ d, d = img.boot.dentries ⟨x, hx63⟩ := ⟨_, rfl⟩
    rw [← hd] at hle ⊢
    by_cases hbad : (entryName d).length = 32 ∧ d.fileType ≠ 0
    · rw [if_pos hbad]
      constructor
      · rintro ⟨hret, -⟩
        refine ⟨fun _ _ _ _ => ?_, fun _ => by omega⟩
        have hr := congrArg Int32.toInt hret
        rw [Int32.toInt_ofNat_of_lt (by omega), Int32.toInt_ofNat_of_lt (by omega), hbad.1] at hr
        apply Int32.toInt_inj.mp
        show n.toInt = 32
        omega
      · rintro ⟨h32, -⟩
        have hn32 := h32 hx63 hx hbad.1 (hd ▸ hbad.2)
        subst hn32
        rw [show min (32 : Int32).toInt.toNat 33 = (entryName d).length from hbad.1.symm, bytes_take]
        refine ⟨rfl, rfl, fun j hj => ?_⟩
        show some (overlay _ _ j) = _
        rw [overlay_of_lt _ _ hj, List.getElem?_eq_getElem hj]
    · rw [if_neg hbad, min_eq_right (by omega), bytes_take]
      refine iff_of_true ⟨rfl, rfl, fun j hj => ?_⟩ ⟨fun _ _ h1 h2 => absurd ⟨h1, hd ▸ h2⟩ hbad, fun _ => by omega⟩
      show some (overlay _ _ j) = _
      rw [overlay_of_lt _ _ hj, List.getElem?_eq_getElem hj]
  · rw [if_neg hx, min_eq_right (by omega)]
    rw [dirRead_end h hn buf]
    constructor
    · exact fun h63 => ⟨fun _ hlt => absurd hlt hx, fun he => absurd he h63⟩
    · rintro ⟨-, h63⟩ he
      have := h63 he
      omega

end Read

/-- **Listing a directory.** Reads of a directory just opened, with sizes of at least
32, always return; they return the entries' names, one after the other, and then 0,
exactly when none of them meets a name of 32 bytes whose type is not 0 with a size
above 32, or goes on behind the last entry of a full directory. -/
theorem directory_listing {img : Image} (h : DirImage img) {name : List UInt8} {d : Dentry}
    (hd : readDentryByName img.boot name = some d) (hdir : d.fileType = 1) {fa fa' : FileArray} {fd : Int32}
    (ho : openFile img fa (some name) = some (fd, fa')) (hfd : fd ≠ -1) (reads : List (Int32 × Buf))
    (hn : ∀ r ∈ reads, 32 ≤ r.1.toInt) :
    ∃ ds, readAll img fd fa' reads = some ds ∧ ds.length = reads.length ∧
      ((∀ (x : ℕ) (got : Delivery), ds[x]? = some got → Listed img x got) ↔
        ∀ (x : ℕ) (n : Int32) (buf : Buf), reads[x]? = some (n, buf) → Harmless img x n) := by
  rcases opened_cases hd ho with ⟨-, hret, -⟩ | ⟨i, ops, -, hops, rfl, rfl⟩
  · exact absurd hret hfd
  · rw [hdir] at hops
    obtain rfl := Option.some.inj hops
    have hl : Listing (Function.update fa i (openedFd d ⟨.dirRead, .dirWrite, .dirOpen, .dirClose⟩)) i 0 := by
      refine
        { readOp := by rw [Function.update_self]; rfl
          fileType := ?_
          position := by rw [Function.update_self]; rfl
          flags := by rw [Function.update_self]; rfl }
      rw [Function.update_self]
      exact congrArg UInt32.toInt32 hdir
    obtain ⟨ds, hds, hlength, hok⟩ := readAll_listing h (slotOf_ofNat i) reads _ 0 hl (by omega) hn
    simp only [Nat.zero_add] at hok
    refine ⟨ds, hds, hlength, fun hall x n buf hx => ?_, fun hall x got hx => ?_⟩
    · have hn' := hn (n, buf) (List.mem_of_getElem? hx)
      exact (listed_iff h hn' buf).mp (hall x _ (hok x n buf hx))
    · obtain ⟨hlt, -⟩ := List.getElem?_eq_some_iff.mp hx
      rw [hlength] at hlt
      have hread : reads[x]? = some (reads[x].1, reads[x].2) := List.getElem?_eq_getElem hlt
      have hn' := hn _ (List.mem_of_getElem? hread)
      rw [hok x _ _ hread] at hx
      rw [← Option.some.inj hx]
      exact (listed_iff h hn' _).mpr (hall x _ _ hread)

/-- The directory of the small image, read to its end. -/
def smallReads : List (Int32 × Buf) := [(32, fun _ => 0), (33, fun _ => 1), (100, fun _ => 2), (32, fun _ => 3)]

theorem dirImage_smallImage : DirImage smallImage := by
  refine ⟨by rfl, by decide +kernel, by decide +kernel, fun i hi => ?_⟩
  have hi3 : 3 ≤ i.val := hi
  obtain ⟨x, hx⟩ := i
  match x, hx, hi3 with
  | x + 3, hx, _ => rfl

theorem directory_listing_small : ∃ fa' ds,
    openFile smallImage childFiles (some [0x2E]) = some (2, fa') ∧ readAll smallImage 2 fa' smallReads = some ds ∧
      ds.length = 4 ∧ ∀ (x : ℕ) (got : Delivery), ds[x]? = some got → Listed smallImage x got := by
  have hopen : (openFile smallImage childFiles (some [0x2E])).map Prod.fst = some 2 := by decide +kernel
  obtain ⟨⟨fd, fa'⟩, ho, rfl⟩ := Option.map_eq_some_iff.mp hopen
  have hd : readDentryByName smallImage.boot [0x2E] = some (smallImage.boot.dentries 0) := rfl
  obtain ⟨ds, hds, hlength, hiff⟩ := directory_listing dirImage_smallImage hd rfl ho (by decide) smallReads (by decide)
  refine ⟨fa', ds, ho, hds, hlength, hiff.mpr fun x n buf _ => ⟨fun h hx hlen => ?_, fun h63 => ?_⟩⟩
  · have hshort : ∀ y : Fin 3, (nameOf smallImage y).length ≠ 32 := by decide +kernel
    exact absurd hlen (hshort ⟨x, hx⟩)
  · exact absurd h63 (by decide)

/-- The small image with a program whose name has 32 bytes. -/
def longImage : Image :=
  { smallImage with boot := { smallImage.boot with
      dentries := fun i => if i.val = 1 then smallDentry (List.replicate 32 0x61) 2 0 else smallImage.boot.dentries i } }

theorem dirImage_longImage : DirImage longImage := by
  refine ⟨by rfl, by decide +kernel, by decide +kernel, fun i hi => ?_⟩
  have hi3 : 3 ≤ i.val := hi
  show (if i.val = 1 then _ else smallImage.boot.dentries i) = _
  rw [if_neg (by omega)]
  exact dirImage_smallImage.rest i hi

/-- Reads of 33 bytes return 33 for the name of 32. -/
theorem long_name_overrun : DirImage longImage ∧ ∃ fa' ds,
    openFile longImage childFiles (some [0x2E]) = some (2, fa') ∧
      readAll longImage 2 fa' [(33, fun _ => 0), (33, fun _ => 0)] = some ds ∧
      ds.map (fun got => got.ret) = [1, 33] ∧
      ¬ ∀ (x : ℕ) (got : Delivery), ds[x]? = some got → Listed longImage x got := by
  have hrun : ((openFile longImage childFiles (some [0x2E])).bind fun r =>
      (readAll longImage 2 r.2 [(33, fun _ => 0), (33, fun _ => 0)]).map fun ds =>
        (r.1, ds.map fun got => got.ret)) = some (2, [1, 33]) := by decide +kernel
  obtain ⟨⟨fd, fa'⟩, ho, hrun⟩ := Option.bind_eq_some_iff.mp hrun
  obtain ⟨ds, hds, hret⟩ := Option.map_eq_some_iff.mp hrun
  simp only [Prod.mk.injEq] at hret
  obtain ⟨rfl, hret⟩ := hret
  refine ⟨dirImage_longImage, fa', ds, ho, hds, hret, fun hall => ?_⟩
  have hlen : ds.length = 2 := by simpa using congrArg List.length hret
  obtain ⟨g₀, g₁, rfl⟩ := List.length_eq_two.mp hlen
  have hlisted := hall 1 g₁ rfl
  unfold Listed at hlisted
  rw [if_pos (by decide)] at hlisted
  have h33 : g₁.ret = 33 := by
    simp only [List.map_cons, List.cons.injEq] at hret
    exact hret.2.1
  rw [h33] at hlisted
  exact absurd hlisted.1 (by decide +kernel)

end Mp3Kernel
