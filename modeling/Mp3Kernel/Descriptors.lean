/-
# File descriptors: open, close, read and write on a process's table

A process has eight descriptor slots. A slot holds four operations, the jump
table: one of the columns of `nofunc_table`, `std_table` and `file_table`, so an
operation of the read column never stands in the close column, and each column
has its own type.

The system calls here act on one table, the one of the PCB the kernel finds; the
process model (`Mp3Kernel.Kernel`) says which one that is. Where the C code's
behaviour is undefined (the jump table of a file type above 2) there is no
result, `none`.

A read of the keyboard waits for a line: what `terminal_read` then returns and
stores is the environment's (`line`), and given for that operation only.

Key definitions: `Fd`, `FileArray`, `openFile`, `closeFile`, `readBody`, `writeFile`,
`childFiles` (execute's table), `shellFiles` (execute_shells's).
-/
import Mp3Kernel.FileSystem
import Mp3Kernel.Devices

namespace Mp3Kernel

/-- MAX_OPEN_FILES -/
abbrev maxOpenFiles : ℕ := 8
/-- STD_FILES -/
abbrev stdFiles : ℕ := 2

/-! ### The jump tables -/

/-- The functions of the read column. -/
inductive ReadOp where
  | noFunc | terminalRead | rtcRead | dirRead | fileRead
  deriving DecidableEq, Repr

/-- The functions of the write column. -/
inductive WriteOp where
  | noFunc | terminalWrite | rtcWrite | dirWrite | fileWrite
  deriving DecidableEq, Repr

/-- The functions of the open column. -/
inductive OpenOp where
  | noFunc | terminalOpen | rtcOpen | dirOpen | fileOpen
  deriving DecidableEq, Repr

/-- The functions of the close column. -/
inductive CloseOp where
  | noFunc | terminalClose | rtcClose | dirClose | fileClose
  deriving DecidableEq, Repr

/-- `fop_jump_table`, indexed by READ_INDEX, WRITE_INDEX, OPEN_INDEX, CLOSE_INDEX. -/
structure FopTable where
  readOp : ReadOp
  writeOp : WriteOp
  openOp : OpenOp
  closeOp : CloseOp
  deriving DecidableEq, Repr

/-- `nofunc_table` -/
def nofuncTable : FopTable := ⟨.noFunc, .noFunc, .noFunc, .noFunc⟩

/-- `std_table`: stdin, and stdout behind it. -/
def stdTable : ℕ → FopTable
  | 0 => ⟨.terminalRead, .noFunc, .terminalOpen, .terminalClose⟩
  | _ => ⟨.noFunc, .terminalWrite, .terminalOpen, .terminalClose⟩

/-- `file_table`, indexed by the type of a directory entry; reading it behind its
three rows has no defined result. -/
def fileTable (fileType : UInt32) : Option FopTable :=
  match fileType.toNat with
  | 0 => some ⟨.rtcRead, .rtcWrite, .rtcOpen, .rtcClose⟩
  | 1 => some ⟨.dirRead, .dirWrite, .dirOpen, .dirClose⟩
  | 2 => some ⟨.fileRead, .fileWrite, .fileOpen, .fileClose⟩
  | _ => none

/-- fd_t -/
structure Fd where
  fopJumpTable : FopTable
  inode : Int32
  fileType : Int32
  filePosition : Int32
  flags : UInt32
  deriving DecidableEq

/-- `file_array` -/
abbrev FileArray := Fin maxOpenFiles → Fd

/-- A slot as both creation loops fill it, with the flag given. -/
def initFd (k : Fin maxOpenFiles) (flags : UInt32) : Fd :=
  { fopJumpTable := if k.val < stdFiles then stdTable k else nofuncTable
    inode := 0, fileType := -1, filePosition := 0, flags := flags }

/-- The table `execute` gives a new process: `flags = (i < STD_FILES) ? 1 : 0`, `i`
the slot. -/
def childFiles : FileArray := fun i => initFd i (if i.val < stdFiles then 1 else 0)

/-- The table `execute_shells` gives the base shell of terminal `i`: the flag's test
is the same text, but its loop over the slots runs over `k`. -/
def shellFiles (i : ℤ) : FileArray := fun k => initFd k (if i < stdFiles then 1 else 0)

/-! ### The operations a slot dispatches to -/

/-- A call through the open column. -/
def callOpen (img : Image) (op : OpenOp) (filename : List UInt8) : Int32 :=
  match op with
  | .noFunc => -1
  | .terminalOpen => 0
  | .rtcOpen => 0
  | .dirOpen => if (readDentryByName img.boot filename).isNone then -1 else 0
  | .fileOpen => if (readDentryByName img.boot filename).isNone then -1 else 0

/-- A call through the close column, with the slot's inode. `terminal_close` takes
it for a pointer and fails on NULL. -/
def callClose (op : CloseOp) (inode : Int32) : Int32 :=
  match op with
  | .noFunc => -1
  | .terminalClose => if inode = 0 then -1 else 0
  | .rtcClose => 0
  | .dirClose => 0
  | .fileClose => 0

/-- A line the keyboard delivers: the value `terminal_read` returns and the bytes it
stores. -/
abbrev Line := Int32 × List UInt8

/-- A call through the read column. -/
def callRead (img : Image) (op : ReadOp) (inode : Int32) (buf : Buf) (nbytes filePosition : Int32)
    (line : Option Line) : Option Delivery :=
  match op, line with
  | .noFunc, none => some ⟨-1, [], buf⟩
  | .terminalRead, some l => some ⟨l.1, l.2, overlay buf l.2⟩
  | .rtcRead, none => some ⟨0, [], buf⟩
  | .dirRead, none => some (dirRead img buf nbytes filePosition.toUInt32)
  | .fileRead, none => some (fileRead img inode buf nbytes filePosition.toUInt32)
  | _, _ => none

/-- A call through the write column, for a caller whose terminal is `term`. -/
def callWrite (dev : Devices) (op : WriteOp) (term : ℤ) (buf : Buf) (nbytes : Int32) : Int32 × Devices :=
  match op with
  | .noFunc => (-1, dev)
  | .terminalWrite => terminalWrite dev term buf nbytes
  | .rtcWrite => rtcWrite dev buf
  | .dirWrite => (-1, dev)
  | .fileWrite => (-1, dev)

/-! ### The system calls -/

/-- `fd < 0 || fd >= MAX_OPEN_FILES` has no slot. -/
def slotOf (fd : Int32) : Option (Fin maxOpenFiles) :=
  if h : 0 ≤ fd.toInt ∧ fd.toInt < maxOpenFiles then some ⟨fd.toInt.toNat, by omega⟩ else none

/-- The scan of `open` for the first slot that is not in use. -/
def firstFree (fa : FileArray) : Option (Fin maxOpenFiles) :=
  (List.finRange maxOpenFiles).find? fun i => (fa i).flags = 0

/-- The slot `open` fills in for a directory entry. -/
def openedFd (d : Dentry) (ops : FopTable) : Fd :=
  { fopJumpTable := ops, inode := d.inodeNum.toInt32, fileType := d.fileType.toInt32
    filePosition := 0, flags := 1 }

/-- `open`; a filename of `none` is NULL. -/
def openFile (img : Image) (fa : FileArray) (filename : Option (List UInt8)) :
    Option (Int32 × FileArray) :=
  match filename with
  | none => some (-1, fa)
  | some name =>
    match readDentryByName img.boot name with
    | none => some (-1, fa)
    | some d =>
      match firstFree fa with
      | none => some (-1, fa)
      | some i =>
        match fileTable d.fileType with
        | none => none
        | some ops =>
          let fa' := Function.update fa i (openedFd d ops)
          if callOpen img ops.openOp name ≠ 0 then some (-1, fa') else some (Int32.ofNat i, fa')

/-- The slot `close` leaves: its jump table stays. -/
def closedFd (s : Fd) : Fd := { s with inode := 0, fileType := -1, filePosition := 0, flags := 0 }

/-- `close` -/
def closeFile (fa : FileArray) (fd : Int32) : Int32 × FileArray :=
  match slotOf fd with
  | none => (-1, fa)
  | some i =>
    if (fa i).flags = 0 then (-1, fa)
    else (callClose (fa i).fopJumpTable.closeOp (fa i).inode, Function.update fa i (closedFd (fa i)))

/-- How far `read` moves the position: by one entry in a directory, else by the
value the operation returned, whatever it is. -/
def advance (fileType retval : Int32) : Int32 :=
  if fileType = 1 then (if retval > 0 then 1 else 0) else retval

/-- `read` from `sti()` on, for a descriptor in range and a buffer. -/
def readBody (img : Image) (fa : FileArray) (i : Fin maxOpenFiles) (buf : Buf) (nbytes : Int32)
    (line : Option Line) : Option (Delivery × FileArray) :=
  match callRead img (fa i).fopJumpTable.readOp (fa i).inode buf nbytes (fa i).filePosition line with
  | none => none
  | some got =>
    let slot := { fa i with filePosition := (fa i).filePosition + advance (fa i).fileType got.ret }
    let ret := if slot.flags = 0 ∧ got.ret = 1 then -1 else got.ret
    some (⟨ret, got.data, got.buf⟩, Function.update fa i slot)

/-- What a read does to the devices besides the keyboard: `rtc_read` lowers the
flag it waited for. -/
def readDevices (dev : Devices) (op : ReadOp) : Devices :=
  if op = .rtcRead then { dev with readFlag := false } else dev

/-- `write` -/
def writeFile (fa : FileArray) (dev : Devices) (term : ℤ) (fd : Int32) (buf : Option Buf)
    (nbytes : Int32) : Int32 × Devices :=
  match slotOf fd, buf with
  | some i, some b => callWrite dev (fa i).fopJumpTable.writeOp term b nbytes
  | _, _ => (-1, dev)

end Mp3Kernel
