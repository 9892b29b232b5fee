/-
# The programs cat and ls

A user program reaches the kernel through the library's wrappers (`ece391Open`, …), each
one call of its session; a text it prints is the list of the `putc` calls `write` makes
for it (`Devices.wrote`). `cat` and `ls` are one loop each: read a piece, print it, until a
read returns 0 or fails.

What they print is said without the loop and without the buffer: `cat` of a regular file
prints the file (`cat_prints`), whatever the buffer held and however often it has to read;
`ls` prints the names of all entries, one a line, and fails behind the last entry of a full
directory (`ls_prints`), where `dir_read` does.

Key definitions: `catMain`, `lsMain`, `catText`, `listing`.
Key theorems: `read_file`, `read_directory`, `cat_prints`, `ls_prints`.
-/
import Mp3Kernel.Lookup
import Mp3Kernel.Arguments
import Mp3Kernel.Basis.Loop

namespace Mp3Kernel

open Loop

/-! ### The calls of a program -/

/-- The characters of a text. -/
def ascii (s : String) : List UInt8 := s.toList.map fun c => UInt8.ofNat c.toNat

/-- The bytes of an array of `n` bytes. -/
def arrayText (buf : Buf) (n : ℕ) : List UInt8 := (List.range n).map buf

/-- The string at the start of an array that holds it and its NUL. -/
theorem cstr_arrayText {buf : Buf} {str : List UInt8} {n : ℕ} (hlt : str.length < n)
    (hbuf : ∀ j (hj : j < str.length), buf j = str[j]) (hend : buf str.length = 0) (hnul : ∀ c ∈ str, c ≠ 0) :
    cstr (arrayText buf n) = str := by
  obtain ⟨m, rfl⟩ : ∃ m, n = str.length + (m + 1) := ⟨n - str.length - 1, by omega⟩
  have hfront : (List.range str.length).map buf = str := by
    apply List.ext_getElem
    · simp
    · intro j h1 h2
      simp [hbuf j h2]
  have hsplit : arrayText buf (str.length + (m + 1)) =
      str ++ 0 :: (List.range m).map fun j => buf (str.length + (j + 1)) := by
    rw [arrayText, List.range_add, List.map_append, hfront, List.range_succ_eq_map, List.map_cons, List.map_cons,
      Nat.add_zero, hend, List.map_map, List.map_map]
    rfl
  rw [hsplit, cstr_of_nul hnul]

/-- A string in memory. -/
def textBuf (s : List UInt8) : Buf := fun j => s.getD j 0

/-- What a process sees of the system: its terminal, and the image its files are in. -/
structure User where
  img : Image
  term : ℤ

namespace User

variable (u : User)

/-- `ece391_open` -/
def ece391Open (s : Session) (filename : List UInt8) : Option (Session × Int32) :=
  match s.call u.img u.term (.files (.openFile (some filename))) with
  | some (s', .ret r) => some (s', r)
  | _ => none

/-- `ece391_close` -/
def ece391Close (s : Session) (fd : Int32) : Option (Session × Int32) :=
  match s.call u.img u.term (.files (.close fd)) with
  | some (s', .ret r) => some (s', r)
  | _ => none

/-- `ece391_read`, of a descriptor that does not wait for the keyboard. -/
def ece391Read (s : Session) (fd : Int32) (buf : Buf) (nbytes : Int32) : Option (Session × Int32 × Buf) :=
  match s.call u.img u.term (.files (.read fd (some buf) nbytes none)) with
  | some (s', .delivered got) => some (s', got.ret, got.buf)
  | some (s', .ret r) => some (s', r, buf)
  | _ => none

/-- `ece391_write` -/
def ece391Write (s : Session) (fd : Int32) (buf : Buf) (nbytes : Int32) : Option (Session × Int32) :=
  match s.call u.img u.term (.write fd (some buf) nbytes) with
  | some (s', .ret r) => some (s', r)
  | _ => none

/-- `ece391_fdputs` -/
def ece391Fdputs (s : Session) (fd : Int32) (str : List UInt8) : Option Session :=
  (u.ece391Write s fd (textBuf str) (Int32.ofNat (strlen str))).map Prod.fst

/-- `ece391_getargs`, for the process that runs in `k`. -/
def ece391Getargs (k : Kernel) (buf : Buf) (nbytes : Int32) : Int32 × Buf :=
  match getargs k (some buf) nbytes with
  | .delivered got => (got.ret, got.buf)
  | .ret r => (r, buf)
  | _ => (-1, buf)

/-! ### cat and ls -/

/-- `ece391_fdputs (1, ..)` and `return status`. -/
def giveUp (s : Session) (text : String) (status : Int32) : Option (Session × Int32) :=
  (u.ece391Fdputs s 1 (ascii text)).map (·, status)

/-- One turn of the loop of ece391cat.c. -/
def catRound (fd : Int32) (x : Session × Buf) : Option (Round (Session × Buf) (Session × Int32)) :=
  (u.ece391Read x.1 fd x.2 1024).bind fun (s, cnt, buf) =>
    if cnt = 0 then some (.done (s, 0))
    else if cnt = -1 then (u.giveUp s "file read failed\n" 3).map .done
    else (u.ece391Write s 1 buf cnt).map fun w => if w.2 = -1 then .done (w.1, 3) else .again (w.1, buf)

/-- `main` of ece391cat.c, its loop run for at most `rounds` turns; `buf` is what its
buffer holds at the start. -/
def catMain (k : Kernel) (rounds : ℕ) (s : Session) (buf : Buf) : Option (Session × Int32) :=
  let args := ece391Getargs k buf 1024
  if args.1 ≠ 0 then u.giveUp s "could not read arguments\n" 3
  else
    (u.ece391Open s (arrayText args.2 1024)).bind fun (s, fd) =>
      if fd = -1 then u.giveUp s "file not found\n" 2
      else runLoop (u.catRound fd) rounds (s, args.2)

/-- One turn of the loop of ece391ls.c. -/
def lsRound (fd : Int32) (x : Session × Buf) : Option (Round (Session × Buf) (Session × Int32)) :=
  (u.ece391Read x.1 fd x.2 32).bind fun (s, cnt, buf) =>
    if cnt = 0 then some (.done (s, 0))
    else if cnt = -1 then (u.giveUp s "directory entry read failed\n" 3).map .done
    -- a store in front of the buffer
    else if cnt < 0 then none
    else
      let buf' := Function.update buf cnt.toInt.toNat 0x0A
      (u.ece391Write s 1 buf' (cnt + 1)).map fun w => if w.2 = -1 then .done (w.1, 3) else .again (w.1, buf')

/-- `main` of ece391ls.c. -/
def lsMain (rounds : ℕ) (s : Session) (buf : Buf) : Option (Session × Int32) :=
  (u.ece391Open s (ascii "." ++ [0])).bind fun (s, fd) =>
    if fd = -1 then u.giveUp s "directory open failed\n" 2
    else runLoop (u.lsRound fd) rounds (s, buf)

end User

/-! ### Printing -/

/-- The devices when `text` has been written to the terminal `term`. -/
def Devices.wrote (dev : Devices) (term : ℤ) (text : List UInt8) : Devices :=
  { dev with console := dev.console ++ text.map (·, term) }

@[simp] theorem Devices.wrote_nil (dev : Devices) (term : ℤ) : dev.wrote term [] = dev := by
  simp [Devices.wrote]

@[simp] theorem Devices.wrote_wrote (dev : Devices) (term : ℤ) (a b : List UInt8) :
    (dev.wrote term a).wrote term b = dev.wrote term (a ++ b) := by
  simp [Devices.wrote]

theorem writeLoop_wrote (term : ℤ) (buf : Buf) : ∀ (n i : ℕ) (dev : Devices),
    writeLoop term buf n i dev = dev.wrote term ((List.range n).map fun j => buf (i + j))
  | 0, i, dev => by simp [writeLoop]
  | n + 1, i, dev => by
    rw [writeLoop, writeLoop_wrote term buf n, List.range_succ_eq_map]
    simp [Devices.wrote, putc, Function.comp_def, Nat.add_comm 1, Nat.add_assoc]

theorem terminalWrite_wrote (dev : Devices) (term : ℤ) {buf : Buf} {text : List UInt8} (hlen : text.length < 2 ^ 31)
    (hbuf : ∀ j (hj : j < text.length), buf j = text[j]) :
    terminalWrite dev term buf (Int32.ofNat text.length) = (Int32.ofNat text.length, dev.wrote term text) := by
  have hn : (Int32.ofNat text.length).toInt.toNat = text.length := by
    rw [Int32.toInt_ofNat_of_lt hlen, Int.toNat_natCast]
  have htext : (List.range text.length).map (fun j => buf (0 + j)) = text := by
    apply List.ext_getElem
    · simp
    · intro j h1 h2
      simp [hbuf j h2]
  unfold terminalWrite
  rw [hn, writeLoop_wrote, htext]

/-- The session when `text` has been printed on its terminal. -/
def Session.print (s : Session) (term : ℤ) (text : List UInt8) : Session := { s with dev := s.dev.wrote term text }

section Print

variable {u : User} {s : Session}

theorem write_stdout (hs : StreamsOpen s.files) {buf : Buf} {text : List UInt8} (hlen : text.length < 2 ^ 31)
    (hbuf : ∀ j (hj : j < text.length), buf j = text[j]) :
    u.ece391Write s 1 buf (Int32.ofNat text.length) = some (s.print u.term text, Int32.ofNat text.length) := by
  have hop : (s.files 1).fopJumpTable.writeOp = .terminalWrite := by rw [(hs 1 (by decide)).2]; rfl
  have hslot : slotOf 1 = some 1 := by decide
  unfold User.ece391Write Session.call writeFile
  simp only [hslot, hop, callWrite, terminalWrite_wrote s.dev u.term hlen hbuf]
  rfl

theorem fdputs_stdout (hs : StreamsOpen s.files) {str : List UInt8} (hlen : strlen str < 2 ^ 31) :
    u.ece391Fdputs s 1 str = some (s.print u.term (cstr str)) := by
  rw [strlen_eq_length_cstr] at hlen
  unfold User.ece391Fdputs
  rw [strlen_eq_length_cstr, write_stdout hs hlen]
  · rfl
  · intro j hj
    rw [textBuf, cstr_getD str hj, List.getD_eq_getElem _ _ hj]

theorem giveUp_eq (hs : StreamsOpen s.files) {text : String} (htext : cstr (ascii text) = ascii text)
    (hlen : strlen (ascii text) < 2 ^ 31) (status : Int32) :
    u.giveUp s text status = some (s.print u.term (ascii text), status) := by
  unfold User.giveUp
  rw [fdputs_stdout hs hlen, htext, Option.map_some]

end Print

/-! ### Opening and reading -/

section Files

variable {u : User} {s : Session} {fd n : Int32} {i : Fin maxOpenFiles} {buf : Buf}

/-- A read has moved the position in slot `i`, and changed nothing else. -/
def Moved (fa : FileArray) (i : Fin maxOpenFiles) (fa' : FileArray) : Prop :=
  ∃ pos, fa' = Function.update fa i { fa i with filePosition := pos }

theorem Moved.refl (fa : FileArray) (i : Fin maxOpenFiles) : Moved fa i fa :=
  ⟨(fa i).filePosition, (Function.update_eq_self i fa).symm⟩

theorem Moved.trans {fa₁ fa₂ fa₃ : FileArray} (h : Moved fa₁ i fa₂) (h' : Moved fa₂ i fa₃) : Moved fa₁ i fa₃ := by
  obtain ⟨pos, rfl⟩ := h
  obtain ⟨pos', rfl⟩ := h'
  exact ⟨pos', by rw [Function.update_self, Function.update_idem]⟩

theorem moved_of_read {img : Image} {fa fa' : FileArray} (hfd : slotOf fd = some i) {nbytes : Int32} {got : Delivery}
    (hr : fileRequest img fa (.read fd (some buf) nbytes none) = some (fa', .delivered got)) : Moved fa i fa' := by
  simp only [fileRequest, hfd] at hr
  obtain ⟨x, hx, hxe⟩ := Option.map_eq_some_iff.mp hr
  obtain ⟨rfl, -⟩ := Prod.mk.inj hxe
  exact readBody_files hx

theorem StreamsOpen.moved {fa fa' : FileArray} (h : StreamsOpen fa) (hm : Moved fa i fa') : StreamsOpen fa' := by
  obtain ⟨pos, rfl⟩ := hm
  intro x hx
  by_cases hxi : x = i
  · subst hxi
    rw [Function.update_self]
    exact h x hx
  · rw [Function.update_of_ne hxi]
    exact h x hx

theorem ece391Read_eq {fa' : FileArray} {got : Delivery} (hfd : slotOf fd = some i)
    (hop : (s.files i).fopJumpTable.readOp ≠ .rtcRead)
    (hr : fileRequest u.img s.files (.read fd (some buf) n none) = some (fa', .delivered got)) :
    u.ece391Read s fd buf n = some (⟨fa', s.dev⟩, got.ret, got.buf) := by
  have hdev : s.requestDevices (.read fd (some buf) n none) = s.dev := by
    simp only [Session.requestDevices, hfd]
    exact if_neg hop
  unfold User.ece391Read Session.call
  simp only [hr, Option.map_some, hdev]

/-- `ece391_open` of a name without an entry, or in a full table. -/
theorem ece391Open_fails {name : List UInt8}
    (h : readDentryByName u.img.boot name = none ∨ firstFree s.files = none) :
    u.ece391Open s name = some (s, -1) := by
  have hopen : openFile u.img s.files (some name) = some (-1, s.files) := by
    cases hd : readDentryByName u.img.boot name with
    | none => exact openFile_absent hd s.files
    | some d =>
      rcases h with h | h
      · rw [hd] at h
        cases h
      · rw [openFile_eq hd, h]
  unfold User.ece391Open Session.call fileRequest
  simp only [hopen, Option.map_some]
  rfl

theorem ece391Open_eq {name : List UInt8} {d : Dentry} {ops : FopTable}
    (hd : readDentryByName u.img.boot name = some d) (hi : firstFree s.files = some i)
    (hops : fileTable d.fileType = some ops) :
    u.ece391Open s name = some (⟨Function.update s.files i (openedFd d ops), s.dev⟩, Int32.ofNat i) := by
  unfold User.ece391Open Session.call fileRequest
  simp only [openFile_eq hd, hi, hops, Option.map_some]
  rfl

theorem StreamsOpen.update {fa : FileArray} (h : StreamsOpen fa) (hi : firstFree fa = some i) (slot : Fd) :
    StreamsOpen (Function.update fa i slot) := by
  intro x hx
  have hne : x ≠ i := by
    rintro rfl
    have := (h x hx).1
    rw [flags_of_firstFree hi] at this
    cases this
  rw [Function.update_of_ne hne]
  exact h x hx

theorem fileRequest_buf {fa' : FileArray} {got : Delivery} (hfd : slotOf fd = some i)
    (hop : (s.files i).fopJumpTable.readOp = .fileRead)
    (hr : fileRequest u.img s.files (.read fd (some buf) n none) = some (fa', .delivered got)) :
    got.buf = overlay (clearBuf nameSize 0 buf) got.data := by
  simp only [fileRequest, hfd, readBody, hop, callRead, Option.map_some, Option.some.injEq, Prod.mk.injEq,
    Outcome.delivered.injEq] at hr
  rw [← hr.2]
  rfl

/-- A read of a regular file of which `pos` bytes have been read. -/
theorem read_file {inodeNum : UInt32} {pos : ℕ} (h : Streaming s.files i inodeNum pos)
    (hfd : slotOf fd = some i) (hin : inodeNum < u.img.boot.numInodes)
    (hlen : (contents u.img inodeNum).length ≤ 1023 * 4096) (hpos : pos ≤ (contents u.img inodeNum).length)
    (hn : 0 < n) {piece : List UInt8} (hpiece : piece = ((contents u.img inodeNum).drop pos).take n.toInt.toNat) :
    ∃ fa', u.ece391Read s fd buf n =
        some (⟨fa', s.dev⟩, Int32.ofNat piece.length, overlay (clearBuf nameSize 0 buf) piece) ∧
      Streaming fa' i inodeNum (pos + piece.length) ∧ Moved s.files i fa' := by
  rw [length_contents] at hlen hpos
  obtain ⟨m, hm⟩ : ∃ m, m = min n.toInt.toNat ((u.img.inodes inodeNum.toNat).length.toNat - pos) := ⟨_, rfl⟩
  have hbytes := @contents_piece u.img inodeNum pos m n.toInt.toNat hm
  rw [← hpiece] at hbytes
  have hml : piece.length = m := by rw [← hbytes]; simp
  obtain ⟨got, fa', hreq, hret, hdata, -, hst⟩ := h.read hin hlen hpos hfd hn buf hm
  have hop : (s.files i).fopJumpTable.readOp ≠ .rtcRead := by
    rw [h.readOp]
    decide
  refine ⟨fa', ?_, hml ▸ hst, moved_of_read hfd hreq⟩
  rw [ece391Read_eq hfd hop hreq, hret, hml, fileRequest_buf hfd h.readOp hreq, hdata, hbytes]

theorem read_clock (hfd : slotOf fd = some i) (hop : (s.files i).fopJumpTable.readOp = .rtcRead)
    (hflags : (s.files i).flags ≠ 0) :
    ∃ fa', u.ece391Read s fd buf n = some (⟨fa', readDevices s.dev .rtcRead⟩, 0, buf) ∧ Moved s.files i fa' := by
  have hreq := @fileRequest_read u.img s.files fd i hfd hflags buf n none ⟨0, [], buf⟩ (by rw [hop]; rfl)
  have hdev : s.requestDevices (.read fd (some buf) n none) = readDevices s.dev .rtcRead := by
    simp only [Session.requestDevices, hfd, hop]
  refine ⟨_, ?_, moved_of_read hfd hreq⟩
  unfold User.ece391Read Session.call
  simp only [hreq, Option.map_some, hdev]

theorem slot_ne_fail (hfd : slotOf fd = some i) : fd ≠ -1 := by
  rintro rfl
  cases hfd

theorem open_directory {name : List UInt8} {d : Dentry} (hd : readDentryByName u.img.boot name = some d)
    (hdir : d.fileType = 1) (hs : StreamsOpen s.files) (hfree : firstFree s.files = some i) :
    ∃ slot fd, u.ece391Open s name = some (⟨Function.update s.files i slot, s.dev⟩, fd) ∧ slotOf fd = some i ∧
      Listing (Function.update s.files i slot) i 0 ∧ StreamsOpen (Function.update s.files i slot) := by
  have hops : fileTable d.fileType = some ⟨.dirRead, .dirWrite, .dirOpen, .dirClose⟩ := by rw [hdir]; rfl
  refine ⟨_, _, ece391Open_eq hd hfree hops, slotOf_ofNat i, ?_, hs.update hfree _⟩
  exact
    { readOp := by rw [Function.update_self]; rfl
      fileType := by rw [Function.update_self, openedFd, hdir]; rfl
      position := by rw [Function.update_self]; rfl
      flags := by rw [Function.update_self]; rfl }

theorem open_clock {name : List UInt8} {d : Dentry} (hd : readDentryByName u.img.boot name = some d)
    (hclock : d.fileType = 0) (hfree : firstFree s.files = some i) :
    ∃ fa' fd, u.ece391Open s name = some (⟨fa', s.dev⟩, fd) ∧ slotOf fd = some i ∧
      (fa' i).fopJumpTable.readOp = .rtcRead ∧ (fa' i).flags ≠ 0 := by
  have hops : fileTable d.fileType = some ⟨.rtcRead, .rtcWrite, .rtcOpen, .rtcClose⟩ := by rw [hclock]; rfl
  refine ⟨_, _, ece391Open_eq hd hfree hops, slotOf_ofNat i, ?_, ?_⟩
  · rw [Function.update_self]
    rfl
  · rw [Function.update_self]
    show (1 : UInt32) ≠ 0
    decide

theorem open_file {name : List UInt8} {d : Dentry} (hd : readDentryByName u.img.boot name = some d)
    (hreg : d.fileType = 2) (hs : StreamsOpen s.files) (hfree : firstFree s.files = some i) :
    ∃ fa' fd, u.ece391Open s name = some (⟨fa', s.dev⟩, fd) ∧ slotOf fd = some i ∧ Streaming fa' i d.inodeNum 0 ∧
      StreamsOpen fa' := by
  have hops : fileTable d.fileType = some ⟨.fileRead, .fileWrite, .fileOpen, .fileClose⟩ := by rw [hreg]; rfl
  refine ⟨_, _, ece391Open_eq hd hfree hops, slotOf_ofNat i, ?_, hs.update hfree _⟩
  exact
    { readOp := by rw [Function.update_self]; rfl
      inode := by rw [Function.update_self]; rfl
      fileType := by rw [Function.update_self, openedFd, hreg]; rfl
      position := by rw [Function.update_self]; rfl
      flags := by rw [Function.update_self]; rfl }

/-- What a read of size `n` returns of the entry `x`: as much of it as `strlen` counts. -/
def entryText (img : Image) (n x : ℕ) : List UInt8 :=
  if h : x < maxDentries then (img.boot.dentries ⟨x, h⟩).bytes.take (min n (strlen (img.boot.dentries ⟨x, h⟩).bytes))
  else []

theorem entryText_name {img : Image} (h : DirImage img) {x : ℕ} (hx : x < img.boot.numDentries.toNat) :
    entryText img 32 x = nameOf img x := by
  have hmax := numDentries_le h
  have hx63 : x < maxDentries := by
    simp only [maxDentries]
    omega
  have hle := length_entryName_le (img.boot.dentries ⟨x, hx63⟩)
  rw [entryText, dif_pos hx63, nameOf, dif_pos hx63, strlen_bytes (h.types ⟨x, hx63⟩ hx)]
  split_ifs with hbad
  · rw [show min 32 33 = (entryName (img.boot.dentries ⟨x, hx63⟩)).length from hbad.1.symm, bytes_take]
  · rw [min_eq_right hle, bytes_take]

theorem entryText_pos {img : Image} (h : DirImage img) {x m : ℕ} (hx : x < img.boot.numDentries.toNat) (hm : 0 < m) :
    0 < (entryText img m x).length := by
  have hmax := numDentries_le h
  have hx63 : x < maxDentries := by
    simp only [maxDentries]
    omega
  have hname := entryName_ne_nil (h.named ⟨x, hx63⟩ hx)
  have hstr := strlen_bytes (h.types ⟨x, hx63⟩ hx)
  have h64 := length_bytes (img.boot.dentries ⟨x, hx63⟩)
  rw [entryText, dif_pos hx63, List.length_take, h64]
  split_ifs at hstr <;> omega

/-- A read of a directory of which `pos` entries have been read. -/
theorem read_directory {pos m : ℕ} (himg : DirImage u.img) (h : Listing s.files i pos)
    (hfd : slotOf fd = some i) (hpos : pos < u.img.boot.numDentries.toNat) (hn : n.toInt = m) (hm : 32 ≤ m) :
    ∃ fa', u.ece391Read s fd buf n = some (⟨fa', s.dev⟩, Int32.ofNat (entryText u.img m pos).length,
        overlay (clearBuf nameSize 0 buf) (entryText u.img m pos)) ∧
      Listing fa' i (pos + 1) ∧ Moved s.files i fa' := by
  have hmax := numDentries_le himg
  have hx63 : pos < maxDentries := by
    simp only [maxDentries]
    omega
  obtain ⟨fa', hreq, hl⟩ := h.read himg hpos.le hfd (show 32 ≤ n.toInt by omega) buf
  rw [min_eq_left (by omega)] at hl
  have hop : (s.files i).fopJumpTable.readOp ≠ .rtcRead := by
    rw [h.readOp]
    decide
  have hread := ece391Read_eq hfd hop hreq
  have h64 := length_bytes (u.img.boot.dentries ⟨pos, hx63⟩)
  have hle := strlen_le_length (u.img.boot.dentries ⟨pos, hx63⟩).bytes
  have htext : entryText u.img m pos = (u.img.boot.dentries ⟨pos, hx63⟩).bytes.take
      (min m (strlen (u.img.boot.dentries ⟨pos, hx63⟩).bytes)) := dif_pos hx63
  have hlen : (entryText u.img m pos).length =
      min n.toInt.toNat (strlen (u.img.boot.dentries ⟨pos, hx63⟩).bytes) := by
    rw [htext, List.length_take, hn, Int.toNat_natCast]
    omega
  have hcut : min m (strlen (u.img.boot.dentries ⟨pos, hx63⟩).bytes) = (entryText u.img m pos).length := by
    rw [hlen, hn, Int.toNat_natCast]
  rw [show UInt32.ofNat pos = UInt32.ofNat (⟨pos, hx63⟩ : Fin maxDentries).val from rfl,
    dirRead_eq ⟨pos, hx63⟩ buf (by omega) hlen, ← hcut, ← htext, hcut] at hread
  exact ⟨fa', hread, hl, moved_of_read hfd hreq⟩

/-- A read behind the last entry: the end, or a failure when the directory is full. -/
theorem read_directory_end (himg : DirImage u.img) (h : Listing s.files i u.img.boot.numDentries.toNat)
    (hfd : slotOf fd = some i) (hn : 32 ≤ n.toInt) :
    ∃ fa' buf', u.ece391Read s fd buf n =
        some (⟨fa', s.dev⟩, if u.img.boot.numDentries.toNat = 63 then -1 else 0, buf') ∧ Moved s.files i fa' := by
  obtain ⟨fa', hreq, -⟩ := h.read himg (le_refl _) hfd hn buf
  have hop : (s.files i).fopJumpTable.readOp ≠ .rtcRead := by
    rw [h.readOp]
    decide
  have hread := ece391Read_eq hfd hop hreq
  have hret : (dirRead u.img buf n (UInt32.ofNat u.img.boot.numDentries.toNat)).ret =
      if u.img.boot.numDentries.toNat = 63 then -1 else 0 := by
    split_ifs with h63
    · rw [h63]
      exact dirRead_full u.img buf n
    · exact (dirRead_end himg hn buf).mpr h63
  rw [hret] at hread
  exact ⟨fa', _, hread, moved_of_read hfd hreq⟩

end Files

/-! ### cat -/

theorem toInt_count {m : ℕ} (h : m < 2 ^ 31) : (Int32.ofNat m).toInt = m := Int32.toInt_ofNat_of_lt h

theorem count_ne_zero {m : ℕ} (h0 : 0 < m) (h : m < 2 ^ 31) : Int32.ofNat m ≠ 0 := by
  intro he
  have hint := congrArg Int32.toInt he
  rw [toInt_count h, Int32.toInt_zero] at hint
  omega

theorem count_ne_fail {m : ℕ} (h : m < 2 ^ 31) : Int32.ofNat m ≠ -1 := by
  intro he
  have hint := congrArg Int32.toInt he
  rw [toInt_count h, show (-1 : Int32).toInt = -1 from rfl] at hint
  omega

/-- What `cat` prints of an entry, and the status it returns: nothing of the clock, the
entries of a directory, the bytes of a file. -/
def catText (img : Image) (d : Dentry) : List UInt8 × Int32 :=
  match d.fileType.toNat with
  | 0 => ([], 0)
  | 1 =>
    let names := (List.range img.boot.numDentries.toNat).flatMap (entryText img 1024)
    if img.boot.numDentries.toNat = 63 then (names ++ ascii "file read failed\n", 3) else (names, 0)
  | _ => (contents img d.inodeNum, 0)

theorem catText_clock {img : Image} {d : Dentry} (h : d.fileType = 0) : catText img d = ([], 0) := by
  unfold catText
  rw [h]
  rfl

theorem catText_directory {img : Image} {d : Dentry} (h : d.fileType = 1) : catText img d =
    ((List.range img.boot.numDentries.toNat).flatMap (entryText img 1024) ++
      (if img.boot.numDentries.toNat = 63 then ascii "file read failed\n" else []),
      if img.boot.numDentries.toNat = 63 then 3 else 0) := by
  have hone : d.fileType.toNat = 1 := by rw [h]; rfl
  unfold catText
  simp only [hone]
  split_ifs
  · rfl
  · rw [List.append_nil]

theorem catText_file {img : Image} {d : Dentry} (h : d.fileType = 2) :
    catText img d = (contents img d.inodeNum, 0) := by
  unfold catText
  rw [h]
  rfl

section Cat

variable {u : User} {s : Session} {fd : Int32} {i : Fin maxOpenFiles} {buf : Buf}

/-- A turn of `cat` that reads `piece`: the end, or the piece is printed. -/
theorem catRound_read {fa' : FileArray} {buf' : Buf} {piece : List UInt8} (hs : StreamsOpen fa')
    (hlen : piece.length < 2 ^ 31)
    (hread : u.ece391Read s fd buf 1024 = some (⟨fa', s.dev⟩, Int32.ofNat piece.length, buf'))
    (hbuf : ∀ j (hj : j < piece.length), buf' j = piece[j]) : u.catRound fd (s, buf) =
      some (if piece = [] then .done (⟨fa', s.dev⟩, 0) else .again (⟨fa', s.dev.wrote u.term piece⟩, buf')) := by
  unfold User.catRound
  simp only [hread, Option.bind_some]
  by_cases h0 : piece = []
  · rw [if_pos h0, h0]
    rfl
  · have hpos : 0 < piece.length := List.length_pos_iff.mpr h0
    have hwrite := @write_stdout u ⟨fa', s.dev⟩ hs buf' piece hlen hbuf
    rw [if_neg (count_ne_zero hpos hlen), if_neg (count_ne_fail hlen), if_neg h0, hwrite, Option.map_some,
      if_neg (count_ne_fail hlen)]
    rfl

theorem le_chunks (m : ℕ) : m ≤ (m / 1024 + 1) * 1024 := by omega

/-- The loop of `cat` on a regular file. -/
theorem cat_file {inodeNum : UInt32} (hs : StreamsOpen s.files) (h : Streaming s.files i inodeNum 0)
    (hfd : slotOf fd = some i) (hin : inodeNum < u.img.boot.numInodes)
    (hlen : (contents u.img inodeNum).length ≤ 1023 * 4096) {rounds : ℕ}
    (hrounds : (contents u.img inodeNum).length / 1024 + 1 < rounds) :
    ∃ s', runLoop (u.catRound fd) rounds (s, buf) = some (s', 0) ∧
      s'.dev = s.dev.wrote u.term (contents u.img inodeNum) := by
  obtain ⟨c, hc⟩ : ∃ c, c = contents u.img inodeNum := ⟨_, rfl⟩
  rw [← hc] at hlen hrounds ⊢
  let Inv : ℕ → Session × Buf → Prop := fun left x => ∃ pos, StreamsOpen x.1.files ∧
    Streaming x.1.files i inodeNum pos ∧ pos ≤ c.length ∧ c.length - pos ≤ left * 1024 ∧
    x.1.dev = s.dev.wrote u.term (c.take pos)
  have h0 : Inv (c.length / 1024 + 1) (s, buf) := ⟨0, hs, h, Nat.zero_le _, le_chunks c.length, by simp⟩
  have hstep : ∀ left x, Inv left x →
      (∃ left' x', u.catRound fd x = some (.again x') ∧ left' < left ∧ Inv left' x') ∨
      ∃ r, u.catRound fd x = some (.done r) ∧ r.2 = 0 ∧ r.1.dev = s.dev.wrote u.term c := by
    rintro left ⟨s1, buf1⟩ ⟨pos, hs1, hst, hpos, hleft, hdev⟩
    obtain ⟨piece, hpiece⟩ : ∃ piece, piece = (c.drop pos).take 1024 := ⟨_, rfl⟩
    have hplen : piece.length = min 1024 (c.length - pos) := by rw [hpiece, List.length_take, List.length_drop]
    have hshort : piece.length < 2 ^ 31 := by omega
    obtain ⟨fa', hread, hst', hm⟩ := @read_file u s1 fd 1024 i buf1 inodeNum pos hst hfd hin
      (hc ▸ hlen) (hc ▸ hpos) (by decide) piece (hc ▸ hpiece)
    have hs' := hs1.moved hm
    have hround := catRound_read hs' hshort hread fun j hj => overlay_of_lt _ _ hj
    by_cases hnil : piece = []
    · rw [if_pos hnil] at hround
      refine Or.inr ⟨_, hround, rfl, ?_⟩
      rw [hnil, List.length_nil] at hplen
      show s1.dev = _
      rw [hdev, List.take_of_length_le (by omega)]
    · rw [if_neg hnil] at hround
      have hpp : 0 < piece.length := List.length_pos_iff.mpr hnil
      refine Or.inl ⟨left - 1, _, hround, by omega, pos + piece.length, hs', hst', by omega, by omega, ?_⟩
      have htake : c.take (pos + piece.length) = c.take pos ++ piece := by
        rw [List.take_add, hplen, hpiece, ← List.length_drop, ← List.take_eq_take_min]
      show s1.dev.wrote u.term piece = _
      rw [hdev, Devices.wrote_wrote, htake]
  obtain ⟨⟨s', r⟩, hrun, rfl, hdev⟩ := runLoop_inv Inv _ hstep h0 hrounds
  exact ⟨s', hrun, hdev⟩

end Cat

/-! ### A loop over the directory -/

/-- A program that reads the directory entry by entry and prints `E x` for the entry `x`
prints one after the other, and at the end what the last read makes it print. The devices
are looked at through `view`. -/
theorem listing_loop {S : Type*} {round : S → Option (Round S (Session × Int32))} {term : ℤ} {d : ℕ}
    {E : ℕ → List UInt8} {last : List UInt8} {r : Int32} (view : Devices → Devices) (dev : S → Devices)
    (At : ℕ → S → Prop)
    (hmid : ∀ pos x, pos < d → At pos x →
      ∃ x', round x = some (.again x') ∧ At (pos + 1) x' ∧ dev x' = (dev x).wrote term (E pos))
    (hend : ∀ x, At d x → ∃ s', round x = some (.done (s', r)) ∧ view s'.dev = (dev x).wrote term last)
    {x : S} (h0 : At 0 x) {rounds : ℕ} (hrounds : d < rounds) :
    ∃ s', runLoop round rounds x = some (s', r) ∧
      view s'.dev = (dev x).wrote term ((List.range d).flatMap E ++ last) := by
  let Inv : ℕ → S → Prop := fun left y => ∃ pos, pos + left = d ∧ At pos y ∧
    dev y = (dev x).wrote term ((List.range pos).flatMap E)
  have hinit : Inv d x := ⟨0, Nat.zero_add d, h0, by simp⟩
  have hstep : ∀ left y, Inv left y →
      (∃ left' y', round y = some (.again y') ∧ left' < left ∧ Inv left' y') ∨
      ∃ q, round y = some (.done q) ∧ q.2 = r ∧
        view q.1.dev = (dev x).wrote term ((List.range d).flatMap E ++ last) := by
    rintro left y ⟨pos, hpos, hat, hdev⟩
    by_cases hlt : pos < d
    · obtain ⟨y', hround, hat', hdev'⟩ := hmid pos y hlt hat
      refine Or.inl ⟨left - 1, y', hround, by omega, pos + 1, by omega, hat', ?_⟩
      rw [hdev', hdev, Devices.wrote_wrote, List.range_succ, List.flatMap_append, List.flatMap_singleton]
    · obtain rfl : pos = d := by omega
      obtain ⟨s', hround, hdev'⟩ := hend y hat
      exact Or.inr ⟨(s', r), hround, rfl, by rw [hdev', hdev, Devices.wrote_wrote]⟩
  obtain ⟨⟨s', r'⟩, hrun, rfl, hdev⟩ := runLoop_inv Inv _ hstep hinit hrounds
  exact ⟨s', hrun, hdev⟩

section Listings

variable {u : User} {s : Session} {fd : Int32} {i : Fin maxOpenFiles} {buf : Buf}

theorem length_entryText (img : Image) (n x : ℕ) : (entryText img n x).length ≤ min n 64 := by
  unfold entryText
  split_ifs with hx
  · have h64 := length_bytes (img.boot.dentries ⟨x, hx⟩)
    rw [List.length_take]
    omega
  · exact Nat.zero_le _

/-- The loop of `cat` on a directory. -/
theorem cat_directory (himg : DirImage u.img) (hs : StreamsOpen s.files) (h : Listing s.files i 0)
    (hfd : slotOf fd = some i) {rounds : ℕ} (hrounds : u.img.boot.numDentries.toNat < rounds) :
    ∃ s', runLoop (u.catRound fd) rounds (s, buf) =
        some (s', if u.img.boot.numDentries.toNat = 63 then 3 else 0) ∧
      s'.dev = s.dev.wrote u.term ((List.range u.img.boot.numDentries.toNat).flatMap (entryText u.img 1024) ++
        if u.img.boot.numDentries.toNat = 63 then ascii "file read failed\n" else []) := by
  refine listing_loop (x := (s, buf)) id (fun x => x.1.dev)
    (fun pos x => StreamsOpen x.1.files ∧ Listing x.1.files i pos) ?_ ?_ ⟨hs, h⟩ hrounds
  · rintro pos ⟨s1, buf1⟩ hpos ⟨hs1, hl⟩
    obtain ⟨fa', hread, hl', hm⟩ :=
      @read_directory u s1 fd 1024 i buf1 pos 1024 himg hl hfd hpos rfl (by decide)
    have hs' := hs1.moved hm
    have hlen := length_entryText u.img 1024 pos
    have hround := catRound_read hs' (by omega) hread fun j hj => overlay_of_lt _ _ hj
    have hne := entryText_pos himg hpos (show 0 < 1024 by decide)
    rw [if_neg (List.length_pos_iff.mp hne)] at hround
    exact ⟨_, hround, ⟨hs', hl'⟩, rfl⟩
  · rintro ⟨s1, buf1⟩ ⟨hs1, hl⟩
    obtain ⟨fa', buf', hread, hm⟩ := @read_directory_end u s1 fd 1024 i buf1 himg hl hfd (by decide)
    have hs' := hs1.moved hm
    unfold User.catRound
    simp only [hread, Option.bind_some]
    by_cases h63 : u.img.boot.numDentries.toNat = 63
    · simp only [if_pos h63]
      rw [if_neg (by decide), if_pos trivial, giveUp_eq hs' (by decide) (by decide)]
      exact ⟨_, rfl, rfl⟩
    · simp only [if_neg h63]
      rw [if_pos trivial]
      exact ⟨_, rfl, (Devices.wrote_nil ..).symm⟩

/-- The lines `ls` prints: the names of all entries. -/
def listing (img : Image) : List UInt8 :=
  (List.range img.boot.numDentries.toNat).flatMap fun x => nameOf img x ++ [0x0A]

/-- A turn of `ls` that reads the name of an entry prints it with a newline. -/
theorem lsRound_read {fa' : FileArray} {buf' : Buf} {piece : List UInt8} (hs : StreamsOpen fa')
    (hpos : 0 < piece.length) (hlen : piece.length ≤ 32)
    (hread : u.ece391Read s fd buf 32 = some (⟨fa', s.dev⟩, Int32.ofNat piece.length, buf'))
    (hbuf : ∀ j (hj : j < piece.length), buf' j = piece[j]) : ∃ buf'',
      u.lsRound fd (s, buf) = some (.again (⟨fa', s.dev.wrote u.term (piece ++ [0x0A])⟩, buf'')) := by
  have hint : (Int32.ofNat piece.length).toInt = piece.length := toInt_count (by omega)
  have hneg : ¬ Int32.ofNat piece.length < 0 := by
    rw [Int32.lt_iff_toInt_lt, hint, Int32.toInt_zero]
    omega
  have hline : ∀ j (hj : j < (piece ++ [0x0A]).length),
      Function.update buf' piece.length 0x0A j = (piece ++ [0x0A])[j] := by
    intro j hj
    rw [List.length_append, List.length_singleton] at hj
    by_cases he : j = piece.length
    · subst he
      rw [Function.update_self, List.getElem_concat_length rfl]
    · rw [Function.update_of_ne he, hbuf j (by omega), List.getElem_append_left]
  have hwrite := @write_stdout u ⟨fa', s.dev⟩ hs _ (piece ++ [0x0A]) (by simp; omega) hline
  rw [List.length_append, List.length_singleton, Int32.ofNat_add] at hwrite
  refine ⟨Function.update buf' piece.length 0x0A, ?_⟩
  unfold User.lsRound
  simp only [hread, Option.bind_some]
  rw [if_neg (count_ne_zero hpos (by omega)), if_neg (count_ne_fail (by omega)), if_neg hneg, hint, Int.toNat_natCast,
    show Int32.ofNat piece.length + 1 = Int32.ofNat piece.length + Int32.ofNat 1 from rfl, hwrite, Option.map_some,
    ← Int32.ofNat_add, if_neg (count_ne_fail (by omega))]
  rfl

/-- **What `ls` prints.** For every accepted image whose first `num_dentries` entries have
names and types and whose other entries are zero, with a directory ".", every content of
the buffer and every table with open streams and a free slot: `ls` ends and prints the
names of all entries, one a line, in their order, and returns 0, unless the directory is
full: then it complains behind the last name and returns 3. -/
theorem ls_prints (himg : DirImage u.img) {d : Dentry} (hd : readDentryByName u.img.boot (ascii "." ++ [0]) = some d)
    (hdir : d.fileType = 1) (hs : StreamsOpen s.files) (hfree : firstFree s.files = some i) {rounds : ℕ}
    (hrounds : u.img.boot.numDentries.toNat < rounds) :
    ∃ s', u.lsMain rounds s buf = some (s', if u.img.boot.numDentries.toNat = 63 then 3 else 0) ∧
      s'.dev = s.dev.wrote u.term (listing u.img ++
        if u.img.boot.numDentries.toNat = 63 then ascii "directory entry read failed\n" else []) := by
  obtain ⟨slot, fd, hopen, hslot, hl, hs'⟩ := open_directory hd hdir hs hfree
  have hnames : listing u.img = (List.range u.img.boot.numDentries.toNat).flatMap
      fun x => entryText u.img 32 x ++ [0x0A] := by
    unfold listing
    refine List.flatMap_congr fun x hx => ?_
    rw [entryText_name himg (List.mem_range.mp hx)]
  unfold User.lsMain
  rw [hnames, hopen]
  simp only [Option.bind_some, if_neg (slot_ne_fail hslot)]
  refine listing_loop (x := (⟨Function.update s.files i slot, s.dev⟩, buf)) id (fun x : Session × Buf => x.1.dev)
    (fun pos x => StreamsOpen x.1.files ∧ Listing x.1.files i pos) ?_ ?_ ⟨hs', hl⟩ hrounds
  · rintro pos ⟨s1, buf1⟩ hpos ⟨hs1, hl1⟩
    obtain ⟨fa1, hread, hl', hm⟩ :=
      @read_directory u s1 fd 32 i buf1 pos 32 himg hl1 hslot hpos rfl (by decide)
    have hs1' := hs1.moved hm
    have hlen := length_entryText u.img 32 pos
    obtain ⟨buf2, hround⟩ := lsRound_read hs1' (entryText_pos himg hpos (by decide)) (by omega) hread
      fun j hj => overlay_of_lt _ _ hj
    exact ⟨_, hround, ⟨hs1', hl'⟩, rfl⟩
  · rintro ⟨s1, buf1⟩ ⟨hs1, hl1⟩
    obtain ⟨fa1, buf', hread, hm⟩ := @read_directory_end u s1 fd 32 i buf1 himg hl1 hslot (by decide)
    have hs1' := hs1.moved hm
    unfold User.lsRound
    simp only [hread, Option.bind_some]
    by_cases h63 : u.img.boot.numDentries.toNat = 63
    · simp only [if_pos h63]
      rw [if_neg (by decide), if_pos trivial, giveUp_eq hs1' (by decide) (by decide)]
      exact ⟨_, rfl, rfl⟩
    · simp only [if_neg h63]
      rw [if_pos trivial]
      exact ⟨_, rfl, (Devices.wrote_nil ..).symm⟩

theorem ls_fails (hs : StreamsOpen s.files)
    (h : readDentryByName u.img.boot (ascii "." ++ [0]) = none ∨ firstFree s.files = none) (rounds : ℕ) :
    u.lsMain rounds s buf = some (s.print u.term (ascii "directory open failed\n"), 2) := by
  unfold User.lsMain
  rw [ece391Open_fails h]
  simp only [Option.bind_some, if_true]
  exact giveUp_eq hs (by decide) (by decide) 2

/-- What `getargs` leaves in a buffer of 1024 bytes: the arguments, NULs behind them. -/
theorem getargs_text {k : Kernel} {name : List UInt8} (hname : cstr (k.pcbOf k.running).args = name)
    (hlen : name.length < argsSize) (buf : Buf) :
    (User.ece391Getargs k buf 1024).1 = 0 ∧ cstr (arrayText (User.ece391Getargs k buf 1024).2 1024) = name := by
  have hsize : (1024 : Int32).toUInt32.toNat = argsSize := by decide
  obtain ⟨hget, -⟩ := getargs_fits hname buf (show (1024 : Int32) ≠ 0 by decide) (by omega)
  have hval : User.ece391Getargs k buf 1024 =
      (0, overlay (overlay buf (List.replicate argsSize 0)) (name ++ [0])) := by
    unfold User.ece391Getargs
    rw [hget]
  rw [hval]
  refine ⟨rfl, ?_⟩
  have hnul : ∀ c ∈ name, c ≠ 0 := by
    rw [← hname]
    exact fun c hc => ne_of_mem_cstr hc
  have hcopied : (name ++ [(0 : UInt8)]).length = name.length + 1 := List.length_append
  refine cstr_arrayText hlen (fun j hj => ?_) ?_ hnul
  · show overlay _ (name ++ [0]) j = _
    rw [overlay_of_lt _ _ (by omega), List.getElem_append_left]
  · show overlay _ (name ++ [0]) name.length = _
    rw [overlay_of_lt _ _ (by omega), List.getElem_concat_length rfl]

theorem DirImage.typesKnown {img : Image} (h : DirImage img) : TypesKnown img.boot := by
  intro x
  by_cases hx : x.val < img.boot.numDentries.toNat
  · exact h.types x hx
  · rw [h.rest x (by omega)]
    exact Nat.zero_le _

theorem cat_clock (hfd : slotOf fd = some i) (hop : (s.files i).fopJumpTable.readOp = .rtcRead)
    (hflags : (s.files i).flags ≠ 0) (rounds : ℕ) :
    ∃ s', runLoop (u.catRound fd) (rounds + 1) (s, buf) = some (s', 0) ∧ s'.dev = readDevices s.dev .rtcRead := by
  obtain ⟨fa', hread, -⟩ := @read_clock u s fd 1024 i buf hfd hop hflags
  refine ⟨⟨fa', readDevices s.dev .rtcRead⟩, ?_, rfl⟩
  unfold runLoop User.catRound
  simp only [hread, Option.bind_some]
  rfl

/-- **What `cat` prints.** For every such image whose files fit their inodes and lie in its
blocks, and every process whose arguments are the name of an entry, with open streams and
a free slot, whatever its buffer holds: `cat` ends,
prints what there is of the entry (all bytes of a regular file, in order) and returns 0;
only behind a full directory it complains and returns 3. Without such an entry, or with a
full table, it says that there is no such file and returns 2. -/
theorem cat_prints (hwf : WellFormed u.img) (himg : DirImage u.img) {k : Kernel} {name : List UInt8}
    (hname : cstr (k.pcbOf k.running).args = name) (hlen : name.length < argsSize) (hs : StreamsOpen s.files) :
    (readDentryByName u.img.boot name = none ∨ firstFree s.files = none →
      ∀ rounds, u.catMain k rounds s buf = some (s.print u.term (ascii "file not found\n"), 2)) ∧
    ∀ d i, readDentryByName u.img.boot name = some d → firstFree s.files = some i →
      ∃ n, ∀ rounds ≥ n, ∃ s', u.catMain k rounds s buf = some (s', (catText u.img d).2) ∧
        ∃ ops, fileTable d.fileType = some ops ∧
          s'.dev = (readDevices s.dev ops.readOp).wrote u.term (catText u.img d).1 := by
  obtain ⟨hret, htext⟩ := getargs_text hname hlen buf
  have hlookup : readDentryByName u.img.boot (arrayText (User.ece391Getargs k buf 1024).2 1024) =
      readDentryByName u.img.boot name := by
    rw [← readDentryByName_cstr, htext, ← hname, readDentryByName_cstr, ← readDentryByName_cstr]
  have hmain : ∀ rounds, u.catMain k rounds s buf =
      (u.ece391Open s (arrayText (User.ece391Getargs k buf 1024).2 1024)).bind fun r =>
        if r.2 = -1 then u.giveUp r.1 "file not found\n" 2
        else runLoop (u.catRound r.2) rounds (r.1, (User.ece391Getargs k buf 1024).2) := by
    intro rounds
    unfold User.catMain
    simp only [hret]
    rfl
  rw [← hlookup]
  refine ⟨fun hno rounds => ?_, fun d i hd hfree => ?_⟩
  · rw [hmain, ece391Open_fails hno, Option.bind_some, if_pos rfl]
    exact giveUp_eq hs (by decide) (by decide) 2
  · obtain ⟨e, he⟩ := readDentryByName_mem hd
    have ht := himg.typesKnown e
    have hregular := hwf.regular e
    rw [he] at ht hregular
    rcases (show d.fileType.toNat = 0 ∨ d.fileType.toNat = 1 ∨ d.fileType.toNat = 2 by omega) with h0 | h1 | h2
    · have hclock : d.fileType = 0 := UInt32.toNat_inj.mp h0
      obtain ⟨fa', fd, hopen, hslot, hop, hflags⟩ := open_clock hd hclock hfree
      refine ⟨1, fun rounds hr => ?_⟩
      obtain ⟨rounds, rfl⟩ : ∃ m, rounds = m + 1 := ⟨rounds - 1, by omega⟩
      obtain ⟨s', hrun, hdev⟩ := @cat_clock u ⟨fa', s.dev⟩ fd i (User.ece391Getargs k buf 1024).2 hslot hop hflags
        rounds
      refine ⟨s', ?_, ⟨.rtcRead, .rtcWrite, .rtcOpen, .rtcClose⟩, by rw [hclock]; rfl, ?_⟩
      · rw [hmain, hopen, Option.bind_some, if_neg (slot_ne_fail hslot), hrun, catText_clock hclock]
      · rw [hdev, catText_clock hclock, Devices.wrote_nil]
    · have hdir : d.fileType = 1 := UInt32.toNat_inj.mp h1
      obtain ⟨slot, fd, hopen, hslot, hl, hs'⟩ := open_directory hd hdir hs hfree
      refine ⟨u.img.boot.numDentries.toNat + 1, fun rounds hr => ?_⟩
      obtain ⟨s', hrun, hdev⟩ := @cat_directory u ⟨Function.update s.files i slot, s.dev⟩ fd i
        (User.ece391Getargs k buf 1024).2 himg hs' hl hslot rounds (by omega)
      refine ⟨s', ?_, ⟨.dirRead, .dirWrite, .dirOpen, .dirClose⟩, by rw [hdir]; rfl, ?_⟩
      · rw [hmain, hopen, Option.bind_some, if_neg (slot_ne_fail hslot), hrun, catText_directory hdir]
      · rw [hdev, catText_directory hdir]
        rfl
    · have hreg : d.fileType = 2 := UInt32.toNat_inj.mp h2
      have hin := hregular hreg
      have hlen : (contents u.img d.inodeNum).length ≤ 1023 * 4096 := by
        rw [length_contents]
        exact hwf.length _ (UInt32.lt_iff_toNat_lt.mp hin)
      obtain ⟨fa', fd, hopen, hslot, hst, hs'⟩ := open_file hd hreg hs hfree
      refine ⟨(contents u.img d.inodeNum).length / 1024 + 2, fun rounds hr => ?_⟩
      obtain ⟨s', hrun, hdev⟩ := @cat_file u ⟨fa', s.dev⟩ fd i (User.ece391Getargs k buf 1024).2 d.inodeNum hs' hst
        hslot hin hlen rounds (by omega)
      refine ⟨s', ?_, ⟨.fileRead, .fileWrite, .fileOpen, .fileClose⟩, by rw [hreg]; rfl, ?_⟩
      · rw [hmain, hopen, Option.bind_some, if_neg (slot_ne_fail hslot), hrun, catText_file hreg]
      · rw [hdev, catText_file hreg]
        rfl

end Listings

/-- The small system's program on terminal 0. -/
def smallUser : User := ⟨smallImage, 0⟩

/-- `ls` prints the three names of the small image. -/
theorem ls_prints_small : ∃ s', smallUser.lsMain 4 ⟨childFiles, offKernel.dev⟩ (fun _ => 0) = some (s', 0) ∧
    s'.dev.console = (ascii ".\nshell\nrtc\n").map (·, 0) := by
  have hd : readDentryByName smallImage.boot (ascii "." ++ [0]) = some (smallImage.boot.dentries 0) := rfl
  obtain ⟨s', hrun, hdev⟩ := @ls_prints smallUser ⟨childFiles, offKernel.dev⟩ 2 (fun _ => 0) dirImage_smallImage _ hd
    rfl undisturbed_childFiles.streams (by decide) 4 (by decide)
  refine ⟨s', hrun, ?_⟩
  rw [hdev]
  decide +kernel

/-- A child of the base shell that was given the argument "shell". -/
def catShell : List Event :=
  [.execute (frameOf 0) zeros (some (shellName.take 5 ++ 0x20 :: (shellName.take 5 ++ 0 :: [])))]

/-- `cat shell` prints the forty bytes of the file. -/
theorem cat_prints_shell : ∃ n s',
    smallUser.catMain (smallRun catShell).2 n ⟨childFiles, offKernel.dev⟩ (fun _ => 0) = some (s', 0) ∧
      s'.dev.console = (contents smallImage 0).map (·, 0) := by
  have hname : cstr ((smallRun catShell).2.pcbOf (smallRun catShell).2.running).args = shellName.take 5 := by
    decide +kernel
  have hd : readDentryByName smallImage.boot (shellName.take 5) = some (smallImage.boot.dentries 1) := rfl
  obtain ⟨-, hcat⟩ := @cat_prints smallUser ⟨childFiles, offKernel.dev⟩ (fun _ => 0) wellFormed_smallImage
    dirImage_smallImage _ _ hname (by decide) undisturbed_childFiles.streams
  obtain ⟨n, hn⟩ := hcat _ 2 hd (by decide)
  obtain ⟨s', hrun, ops, hops, hdev⟩ := hn n (le_refl n)
  refine ⟨n, s', hrun, ?_⟩
  obtain rfl := Option.some.inj hops
  rw [hdev]
  rfl

end Mp3Kernel
