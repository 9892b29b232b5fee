/-
# Checking and loading a program

`execute` reads four bytes of the file into a buffer on its stack, compares them with
the magic number, and has `load_program` copy the file to its place in the process's
page.

The buffer is compared whole, however few bytes the file had. What the file did not
overwrite is what the stack held, less what `file_read` cleared, and that stops at the
first NUL; so a file of one to three bytes that starts as the magic number does can
pass (`only_executables_execute`). The copy stores as many bytes as the file has, and the
page ends before the largest file does (`load_program_inside`).

Key definitions: `HasMagic`, `ShortMagic`, `OnlyExecutables`, `loadStores`, `LoadsInside`.
Key theorems: `isExecutable_iff`, `started_iff`, `only_executables_execute`,
`mem_loadStores`, `load_program_inside`.
-/
import Mp3Kernel.Commands
import Mp3Kernel.Reads

namespace Mp3Kernel

/-! ### The magic number -/

/-- The file of an entry. -/
def inodeOf (img : Image) (d : Dentry) : Inode := img.inodes d.inodeNum.toInt32.toUInt32.toNat

/-- The entry's file exists, has at least four bytes, and starts with the magic number. -/
structure HasMagic (img : Image) (d : Dentry) : Prop where
  inode : d.inodeNum.toInt32.toUInt32 < img.boot.numInodes
  length : 4 ≤ (inodeOf img d).length.toNat
  magic : ∀ i < 4, fileByte img (inodeOf img d) i = elfMagic.getD i 0

/-- The entry's file has one to three bytes, those the magic number starts with. -/
structure ShortMagic (img : Image) (d : Dentry) : Prop where
  inode : d.inodeNum.toInt32.toUInt32 < img.boot.numInodes
  nonempty : 1 ≤ (inodeOf img d).length.toNat
  length : (inodeOf img d).length.toNat ≤ 3
  magic : ∀ i < (inodeOf img d).length.toNat, fileByte img (inodeOf img d) i = elfMagic.getD i 0

/-- The test compares four bytes, none of them NUL. -/
theorem strncmp_elfMagic (got : Buf) :
    strncmp ((List.range bufSize).map got) elfMagic bufSize = 0 ↔ ∀ i < 4, got i = elfMagic.getD i 0 := by
  have hlist : (List.range bufSize).map got = [got 0, got 1, got 2, got 3] := rfl
  have hmagic : (cstr elfMagic).take bufSize = elfMagic := by decide
  rw [strncmp_eq_zero_iff, hmagic, hlist]
  constructor
  · intro h i hi
    have hpre : cstr [got 0, got 1, got 2, got 3] <+: [got 0, got 1, got 2, got 3] := List.takeWhile_prefix _
    have hall : [got 0, got 1, got 2, got 3] = elfMagic := by
      have hlen : (cstr [got 0, got 1, got 2, got 3]).length = 4 := by
        have htake := congrArg List.length h
        have hle := hpre.length_le
        simp only [List.length_take, elfMagic, List.length_cons, List.length_nil] at htake hle
        omega
      have heq := hpre.eq_of_length (by rw [hlen]; rfl)
      rw [heq] at h
      exact h
    rw [← hall]
    interval_cases i <;> rfl
  · intro h
    rw [show [got 0, got 1, got 2, got 3] = elfMagic by
      rw [h 0 (by decide), h 1 (by decide), h 2 (by decide), h 3 (by decide)]
      rfl]
    exact hmagic

/-- What `read_data` stores when it reads from the start of a file. -/
theorem readData_start (img : Image) {inodeNum : UInt32} (h : inodeNum < img.boot.numInodes) (n : UInt32) :
    ∃ m : UInt32, m.toNat = min n.toNat (img.inodes inodeNum.toNat).length.toNat ∧
      readData img inodeNum 0 n =
        (m.toInt32, (List.range m.toNat).map (fileByte img (img.inodes inodeNum.toNat))) := by
  have hgt : n > (img.inodes inodeNum.toNat).length ↔ (img.inodes inodeNum.toNat).length.toNat < n.toNat :=
    UInt32.lt_iff_toNat_lt
  refine ⟨if n > (img.inodes inodeNum.toNat).length then (img.inodes inodeNum.toNat).length else n, ?_, ?_⟩
  · split_ifs with hlt
    · have := hgt.mp hlt
      omega
    · have := mt hgt.mpr hlt
      omega
  · unfold readData
    rw [if_neg (UInt32.not_le.mpr h)]
    simp only
    rw [if_neg (by simp [UInt32.lt_iff_toNat_lt]), readLoop_eq]
    · simp
    · intro h0
      exact absurd (by simp) h0

/-- What `file_read` of four bytes leaves in the buffer: the file's bytes, over what it
held. -/
theorem fileRead_four (img : Image) (d : Dentry) (buf : Buf)
    (h : d.inodeNum.toInt32.toUInt32 < img.boot.numInodes) :
    ((fileRead img d.inodeNum.toInt32 buf 4 0).ret = 0 ↔ (inodeOf img d).length.toNat = 0)
    ∧ ∀ i, (fileRead img d.inodeNum.toInt32 buf 4 0).buf i =
      if i < min 4 (inodeOf img d).length.toNat then fileByte img (inodeOf img d) i
      else clearBuf nameSize 0 buf i := by
  obtain ⟨m, hm, hread⟩ := readData_start img h 4
  have hm4 : m.toNat = min 4 (inodeOf img d).length.toNat := hm
  unfold fileRead
  simp only
  rw [show (4 : Int32).toUInt32 = 4 from rfl, hread]
  constructor
  · constructor
    · intro h0
      have hzero := congrArg (fun x : Int32 => x.toUInt32.toNat) h0
      simp only [UInt32.toUInt32_toInt32] at hzero
      have : m.toNat = 0 := hzero
      omega
    · intro h0
      have hm0 : m = 0 := UInt32.toNat_inj.mp (by rw [hm4, h0]; rfl)
      rw [hm0]
      rfl
  · intro i
    by_cases hi : i < min 4 (inodeOf img d).length.toNat
    · rw [if_pos hi, overlay_of_lt _ _ (by simpa [hm4] using hi), List.getElem_map, List.getElem_range]
      rfl
    · rw [if_neg hi, overlay_of_ge _ _ (by rw [List.length_map, List.length_range, hm4]; omega)]

/-- The check, byte by byte. -/
theorem isExecutable_eq (img : Image) (d : Dentry) (buf : Buf) :
    isExecutable img d buf = true ↔
      d.inodeNum.toInt32.toUInt32 < img.boot.numInodes ∧ (inodeOf img d).length.toNat ≠ 0
      ∧ ∀ i < 4, (if i < min 4 (inodeOf img d).length.toNat then fileByte img (inodeOf img d) i
        else clearBuf nameSize 0 buf i) = elfMagic.getD i 0 := by
  constructor
  · intro hx
    have hin := inode_lt_of_isExecutable hx
    obtain ⟨hret, hbuf⟩ := fileRead_four img d buf hin
    simp only [isExecutable, Bool.and_eq_true, Bool.not_eq_true', decide_eq_false_iff_not, decide_eq_true_eq,
      hret, strncmp_elfMagic, hbuf] at hx
    exact ⟨hin, hx.1, hx.2⟩
  · rintro ⟨hin, hlen, hmagic⟩
    obtain ⟨hret, hbuf⟩ := fileRead_four img d buf hin
    simp only [isExecutable, Bool.and_eq_true, Bool.not_eq_true', decide_eq_false_iff_not, decide_eq_true_eq,
      hret, strncmp_elfMagic, hbuf]
    exact ⟨hlen, hmagic⟩

/-- A file that is no short start of the magic number passes exactly if it has the magic
number, whatever the buffer held. -/
theorem isExecutable_iff {img : Image} {d : Dentry} (hshort : ¬ ShortMagic img d) (buf : Buf) :
    isExecutable img d buf = true ↔ HasMagic img d := by
  rw [isExecutable_eq]
  constructor
  · rintro ⟨hin, hlen, hmagic⟩
    have hfour : 4 ≤ (inodeOf img d).length.toNat := by
      by_contra hlt
      refine hshort ⟨hin, by omega, by omega, fun i hi => ?_⟩
      have hbyte := hmagic i (by omega)
      rwa [if_pos (by omega)] at hbyte
    refine ⟨hin, hfour, fun i hi => ?_⟩
    have hbyte := hmagic i hi
    rwa [if_pos (by omega)] at hbyte
  · rintro ⟨hin, hlen, hmagic⟩
    refine ⟨hin, by omega, fun i hi => ?_⟩
    rw [if_pos (by omega)]
    exact hmagic i hi

/-- What the stack can hold for a short file to pass: a NUL that stops the clearing, and
the magic number's other bytes. -/
def stale : Buf := fun i => if i = 0 then 0 else elfMagic.getD i 0

theorem isExecutable_stale {img : Image} {d : Dentry} (h : ShortMagic img d) :
    isExecutable img d stale = true := by
  rw [isExecutable_eq]
  have hnonempty := h.nonempty
  refine ⟨h.inode, by omega, fun i hi => ?_⟩
  split_ifs with hfile
  · exact h.magic i (by omega)
  · -- the clearing stopped at the first byte
    have hclear : clearBuf nameSize 0 stale = stale := by
      rw [clearBuf, if_pos (show stale 0 = 0 from rfl)]
    rw [hclear, stale, if_neg (by omega)]

/-- The entry of the file a command names; `behind` is what lies behind the name's
array. -/
def named (img : Image) (command behind : List UInt8) : Option Dentry :=
  readDentryByName img.boot ((parseCommand command).1 ++ behind)

/-- `execute` goes on to the new process exactly when a pid is free, the arguments fit,
and the file named passes the check. -/
theorem started_iff (img : Image) (k : Kernel) (lo : Leftover) (command : List UInt8) :
    (∃ k' pid, execute img k lo (some command) = some (k', .started pid)) ↔
      ¬ getNextPid k ≥ maxOpenProcesses ∧ (∃ args, (parseCommand command).2 = some args)
      ∧ ∃ d, named img command lo.behind = some d ∧ isExecutable img d lo.buf = true := by
  unfold execute named
  simp only
  by_cases hpid : getNextPid k ≥ maxOpenProcesses
  · simp [hpid]
  rw [if_neg hpid]
  cases hargs : (parseCommand command).2 with
  | none => simp
  | some args =>
    cases hd : readDentryByName img.boot ((parseCommand command).1 ++ lo.behind) with
    | none => simp
    | some d =>
      simp only
      by_cases hx : isExecutable img d lo.buf = true
      · have hload := loadProgram_valid img d.inodeNum.toInt32 lo.page (inode_lt_of_isExecutable hx)
        rw [if_pos hx, if_neg (not_not.mpr hload)]
        simp [hpid, hx]
      · rw [if_neg hx]
        simp [hx]

/-- `execute` decides about the command, its check of the file lets through executables
only, and does not depend on what the buffer held. -/
structure OnlyExecutables (img : Image) (command behind : List UInt8) : Prop where
  decides : ∀ k buf page, (execute img k ⟨buf, behind, page⟩ (some command)).isSome
  magic : ∀ buf d, named img command behind = some d → isExecutable img d buf = true → HasMagic img d
  started : ∀ k buf page k' pid, execute img k ⟨buf, behind, page⟩ (some command) = some (k', .started pid) →
    ∃ d, named img command behind = some d ∧ HasMagic img d
  settled : ∀ buf buf' d, named img command behind = some d → isExecutable img d buf = isExecutable img d buf'

/-- **The magic number is checked on four bytes, read or not.** Only executables are
executed, whatever the stack held, exactly when the arguments are shorter than 1024 bytes
and the file named is no file of one to three bytes that starts as the magic number does. -/
theorem only_executables_execute (img : Image) (command behind : List UInt8) :
    OnlyExecutables img command behind ↔
      (argumentPart command).length < 1024 ∧ ∀ d, named img command behind = some d → ¬ ShortMagic img d := by
  constructor
  · intro h
    refine ⟨?_, fun d hd hshort => ?_⟩
    · by_contra hlong
      have hargs := parseCommand_snd command
      rw [if_neg hlong] at hargs
      have hsome := h.decides smallKernel stale stale
      unfold execute at hsome
      simp only [hargs] at hsome
      rw [if_neg (by decide +kernel)] at hsome
      cases hsome
    · have hlen := (h.magic stale d hd (isExecutable_stale hshort)).length
      have hshort' := hshort.length
      omega
  · rintro ⟨hfit, h⟩
    refine ⟨?_, ?_, ?_, ?_⟩
    · intro k buf page
      have hcommand : ∀ c, some command = some c → (argumentPart c).length < argsSize := by
        intro c hc
        rwa [← Option.some.inj hc]
      obtain ⟨k', out, hex⟩ := execute_isSome img k ⟨buf, behind, page⟩ hcommand
      rw [hex]
      rfl
    · intro buf d hd hx
      exact (isExecutable_iff (h d hd) buf).mp hx
    · intro k buf page k' pid hrun
      obtain ⟨-, -, d, hd, hx⟩ := (started_iff img k ⟨buf, behind, page⟩ command).mp ⟨k', pid, hrun⟩
      exact ⟨d, hd, (isExecutable_iff (h d hd) buf).mp hx⟩
    · intro buf buf' d hd
      rw [Bool.eq_iff_iff, isExecutable_iff (h d hd), isExecutable_iff (h d hd)]

/-- The small image with a "shell" of one byte, the first of the magic number. -/
def stubImage : Image :=
  { smallImage with
    inodes := fun _ => { length := 1, dataBlock := fun _ => 1 }
    dataBlocks := fun _ _ => 0x7F }

/-- One byte on the disk and three from the stack pass for an executable. -/
theorem stub_is_executed : ¬ OnlyExecutables stubImage shellName [] := by
  intro h
  have hd : named stubImage shellName [] = some (smallDentry (shellName.take 5) 2 0) := by rfl
  have hx : isExecutable stubImage (smallDentry (shellName.take 5) 2 0) stale = true := by decide
  exact absurd (h.magic stale _ hd hx).length (by decide)

/-! ### load_program's stores -/

/-- USR_START_ADDR -/
abbrev usrStartAddr : ℕ := 0x08048000
/-- The end of the process's page. -/
abbrev usrPageEnd : ℕ := 0x08400000

/-- The offsets the clearing loop stores at. -/
def clearedAt : ℕ → ℕ → Buf → List ℕ
  | 0, _, _ => []
  | n + 1, i, buf => if buf i = 0 then [] else i :: clearedAt n (i + 1) (Function.update buf i 0)

/-- The offsets `read_data`'s loop stores at, `i - offset` for `n` more bytes from `i` on. -/
def copiedAt (offset : ℕ) : ℕ → ℕ → List ℕ
  | 0, _ => []
  | n + 1, i => (i - offset) :: copiedAt offset n (i + 1)

/-- The addresses `load_program(fd, USR_START_ADDR)` stores at, `addr` being the memory
there before. -/
def loadStores (img : Image) (fd : Int32) (addr : Buf) : List ℕ :=
  let got := fileRead img fd addr (img.inodes fd.toUInt32.toNat).length.toInt32 0
  (clearedAt nameSize 0 addr ++ copiedAt 0 got.data.length 0).map (usrStartAddr + ·)

/-- `load_program` fails and has stored nothing, or has put the file's bytes in their
place and stored in the process's page only. -/
def LoadsInside (img : Image) (fd : Int32) (addr : Buf) : Prop :=
  let inode := img.inodes fd.toUInt32.toNat
  ((loadProgram img fd addr).1 = -1 ∧ loadStores img fd addr = [])
  ∨ ((loadProgram img fd addr).1 = 0
    ∧ (∀ i < inode.length.toNat, (loadProgram img fd addr).2 i = fileByte img inode i)
    ∧ ∀ a ∈ loadStores img fd addr, usrStartAddr ≤ a ∧ a < usrPageEnd)

theorem clearedAt_lt (n i : ℕ) (buf : Buf) : ∀ x ∈ clearedAt n i buf, x < i + n := by
  induction n generalizing i buf with
  | zero => simp [clearedAt]
  | succ n ih =>
    intro x hx
    rw [clearedAt] at hx
    split_ifs at hx
    · cases hx
    · rcases List.mem_cons.mp hx with rfl | hx
      · omega
      · have := ih (i + 1) _ x hx
        omega

theorem clearBuf_of_notMem (n i : ℕ) (buf : Buf) {x : ℕ} (hx : x ∉ clearedAt n i buf) :
    clearBuf n i buf x = buf x := by
  induction n generalizing i buf with
  | zero => rfl
  | succ n ih =>
    rw [clearedAt] at hx
    rw [clearBuf]
    split_ifs at hx ⊢
    · rfl
    · simp only [List.mem_cons, not_or] at hx
      obtain ⟨hne, hrest⟩ := hx
      rw [ih (i + 1) _ hrest, Function.update_of_ne hne]

theorem copiedAt_eq (offset n i : ℕ) (h : offset ≤ i) : copiedAt offset n i = List.range' (i - offset) n := by
  induction n generalizing i with
  | zero => rfl
  | succ n ih =>
    rw [copiedAt, ih (i + 1) (by omega), List.range'_succ, show i + 1 - offset = i - offset + 1 by omega]

section Load

variable {img : Image} {fd : Int32} (addr : Buf)

theorem fileRead_load (h : fd.toUInt32 < img.boot.numInodes) :
    (fileRead img fd addr (img.inodes fd.toUInt32.toNat).length.toInt32 0).data
      = (List.range (img.inodes fd.toUInt32.toNat).length.toNat).map
        (fileByte img (img.inodes fd.toUInt32.toNat)) := by
  obtain ⟨m, hm, hread⟩ := readData_start img h (img.inodes fd.toUInt32.toNat).length
  rw [Nat.min_self] at hm
  unfold fileRead
  rw [UInt32.toUInt32_toInt32, hread, hm]

/-- The stores cover the file, and no more than the 32 bytes that may be cleared. -/
theorem mem_loadStores (h : fd.toUInt32 < img.boot.numInodes) (a : ℕ) :
    a ∈ loadStores img fd addr ↔
      ∃ x, a = usrStartAddr + x ∧ (x ∈ clearedAt nameSize 0 addr ∨ x < (img.inodes fd.toUInt32.toNat).length.toNat) := by
  unfold loadStores
  simp only
  rw [fileRead_load addr h, copiedAt_eq 0 _ 0 (le_refl _)]
  simp only [List.length_map, List.length_range, List.mem_map, List.mem_append, List.mem_range'_1,
    Nat.sub_zero, Nat.zero_le, true_and, Nat.zero_add]
  constructor
  · rintro ⟨x, hx, rfl⟩
    exact ⟨x, rfl, hx⟩
  · rintro ⟨x, rfl, hx⟩
    exact ⟨x, hx, rfl⟩

theorem loadProgram_frame (h : fd.toUInt32 < img.boot.numInodes) {x : ℕ}
    (hx : usrStartAddr + x ∉ loadStores img fd addr) : (loadProgram img fd addr).2 x = addr x := by
  have hout := mt (mem_loadStores addr h _).mpr hx
  have hmem : (loadProgram img fd addr).2 = overlay (clearBuf nameSize 0 addr)
      (fileRead img fd addr (img.inodes fd.toUInt32.toNat).length.toInt32 0).data := rfl
  rw [hmem, fileRead_load addr h, overlay_of_ge]
  · exact clearBuf_of_notMem _ _ _ fun hc => hout ⟨x, rfl, Or.inl hc⟩
  · by_contra hlt
    exact hout ⟨x, rfl, Or.inr (by simpa using hlt)⟩

/-- **The page ends before the largest file does.** Of a valid inode, `load_program`
stores in the process's page only exactly when the file is no longer than the page from
the load address on. -/
theorem load_program_inside (h : fd.toUInt32 < img.boot.numInodes) :
    LoadsInside img fd addr ↔ (img.inodes fd.toUInt32.toNat).length.toNat ≤ usrPageEnd - usrStartAddr := by
  have hret := loadProgram_valid img fd addr h
  unfold LoadsInside
  simp only
  rw [hret]
  constructor
  · rintro (⟨h1, -⟩ | ⟨-, -, hstores⟩)
    · exact absurd h1 (by decide)
    · by_contra hlong
      have hmem := (mem_loadStores addr h usrPageEnd).mpr
        ⟨usrPageEnd - usrStartAddr, by decide, Or.inr (by omega)⟩
      exact absurd (hstores _ hmem).2 (lt_irrefl _)
  · intro hfits
    refine Or.inr ⟨rfl, ?_, ?_⟩
    · intro i hi
      have hmem : (loadProgram img fd addr).2 = overlay (clearBuf nameSize 0 addr)
          (fileRead img fd addr (img.inodes fd.toUInt32.toNat).length.toInt32 0).data := rfl
      rw [hmem, fileRead_load addr h, overlay_of_lt _ _ (by simpa using hi), List.getElem_map,
        List.getElem_range]
    · intro a ha
      obtain ⟨x, rfl, hx⟩ := (mem_loadStores addr h a).mp ha
      have hroom : usrPageEnd - usrStartAddr = 0x3B8000 := by decide
      rcases hx with hx | hx
      · have hlt := clearedAt_lt nameSize 0 addr x hx
        simp only [nameSize] at hlt
        simp only [usrStartAddr, usrPageEnd]
        omega
      · simp only [usrStartAddr, usrPageEnd] at hfits ⊢
        omega

/-- The small image's program is loaded inside the page. -/
theorem load_program_inside_small :
    (1 : Int32).toUInt32 < smallImage.boot.numInodes ∧ LoadsInside smallImage 1 fun _ => 0xFF :=
  ⟨by decide, (@load_program_inside smallImage 1 (fun _ => 0xFF) (by decide)).mpr (by decide)⟩

/-- The small image with files of the largest length. -/
def fullImage : Image :=
  { smallImage with inodes := fun _ => { length := 1023 * 4096, dataBlock := fun _ => 1 } }

/-- The largest file the format admits is stored past the end of the page. -/
theorem load_program_overruns :
    (1 : Int32).toUInt32 < fullImage.boot.numInodes ∧ (fullImage.inodes 1).length.toNat ≤ 1023 * 4096
      ∧ ¬ LoadsInside fullImage 1 fun _ => 0 := by
  refine ⟨by decide, by decide, ?_⟩
  have hret := loadProgram_valid fullImage 1 (fun _ => 0) (by decide)
  rintro (⟨h1, -⟩ | ⟨-, -, hstores⟩)
  · rw [hret] at h1
    exact absurd h1 (by decide)
  · have hmem := (mem_loadStores (fun _ => 0) (show (1 : Int32).toUInt32 < fullImage.boot.numInodes by decide)
      usrPageEnd).mpr ⟨usrPageEnd - usrStartAddr, by decide, Or.inr (by decide)⟩
    exact absurd (hstores _ hmem).2 (lt_irrefl _)

end Load

end Mp3Kernel
