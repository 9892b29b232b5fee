/-
# Processes and terminals: execute, halt, pit_int, execute_shells

The kernel's state is what syscall_handler.c keeps: the process table, the process
at the head of each terminal, the terminal being run, and the PCBs, which lie at
the bottoms of the processes' kernel stacks and are found by address. A PCB is
reached in two ways, as the C code does it: from a pid (`pcbAddr`) and from a stack
pointer (`maskPcb`). To these come the user page's directory entry, `tss.esp0`, and
the registers and the words of the kernel stacks, which the inline assembly of
`halt` and `pit_int` moves between.

A system call comes from user code, so its stack is the one `tss.esp0` names; the
timer may also interrupt `read`, which runs with interrupts on while it waits
(`reading`), and then continues on the stack in use. Where on that stack a
function's frame lies is the compiler's choice, so an event brings its frame, and
with it what the entry leaves on the words of that stack (`Frame`). Locals the C
code does not initialise come with the event too (`Leftover`). A buffer is
its bytes; where it lies is left to `Mp3Kernel.Pointers`.

`none` is a call without defined behaviour (a frame below the stack's end, an
argument string longer than `args`), or an event that cannot happen.

Key definitions: `Kernel`, `execute`, `halt`, `pitInt`, `executeShells`, `step`.
-/
import Mp3Kernel.Basis.Machine
import Mp3Kernel.Descriptors
import Mp3Kernel.Paging

namespace Mp3Kernel

/-- K_MEM_END -/
abbrev kMemEnd : ℤ := 0x800000
/-- K_STACK_SIZE, and KSTACK_SIZE -/
abbrev kStackSize : ℤ := 0x2000
/-- WORD_SIZE -/
abbrev wordSize : ℤ := 4
/-- PUSHED_REGS_SIZE -/
abbrev pushedRegsSize : ℤ := 68
/-- MAX_OPEN_PROCESSES -/
abbrev maxOpenProcesses : ℤ := 6
/-- MAX_NAME_LENGTH -/
abbrev maxNameLength : ℕ := 32
/-- ARGS_SIZE -/
abbrev argsSize : ℕ := 1024
/-- BUFSIZE -/
abbrev bufSize : ℕ := 4
/-- PCB_BITMASK, and PCB_WRITE_BITMASK -/
abbrev pcbBitmask : ℕ := 0xFFFFE000
/-- sizeof(pcb_t): the words of a kernel stack above it are the stack's -/
abbrev pcbSize : ℕ := 1304
/-- USR_STACK_ADDR -/
abbrev usrStackAddr : ℕ := 0x83FFFFC
/-- USER_CS -/
abbrev userCS : ℕ := 0x23
/-- USER_DS -/
abbrev userDS : ℕ := 0x2B

/-- pcb_t -/
structure Pcb where
  args : List UInt8
  fileArray : FileArray
  pid : ℤ
  leaf : ℤ
  parentEsp : ℕ
  parentEbp : ℕ
  savedEsp : ℕ
  savedEbp : ℕ
  parentPid : ℤ
  terminal : ℤ

/-- A call of `read` that has passed its checks and turned interrupts on: the stack
pointer in its frame, the PCB it found, and its arguments. -/
structure ReadCall where
  esp : ℕ
  pcb : ℕ
  slot : Fin maxOpenFiles
  buf : Buf
  nbytes : Int32

/-- The kernel's state. -/
structure Kernel where
  processArray : ℤ → ℤ
  terminalArray : ℤ → ℤ
  currTerminal : ℤ
  /-- the PCB at an address -/
  pcb : ℕ → Pcb
  pageDirectory : PageDirectory
  /-- tss.esp0 -/
  esp0 : ℕ
  cpu : Cpu
  /-- the `read` waiting on the kernel stack at an address -/
  reading : ℕ → Option ReadCall
  dev : Devices

/-- `K_MEM_END - (pid + 1) * K_STACK_SIZE` -/
def pcbAddr (pid : ℤ) : ℕ := (kMemEnd - (pid + 1) * kStackSize).toNat

/-- `K_MEM_END - pid * K_STACK_SIZE - WORD_SIZE`, the top of a kernel stack -/
def stackTop (pid : ℤ) : ℕ := (kMemEnd - pid * kStackSize - wordSize).toNat

/-- `esp & PCB_BITMASK` -/
def maskPcb (esp : ℕ) : ℕ := esp &&& pcbBitmask

namespace Kernel

/-- The PCB of a pid. -/
def pcbOf (k : Kernel) (pid : ℤ) : Pcb := k.pcb (pcbAddr pid)

/-- The pid at the head of the terminal being run. -/
def running (k : Kernel) : ℤ := k.terminalArray k.currTerminal

/-- A store into the PCB at an address. -/
def setPcb (k : Kernel) (a : ℕ) (f : Pcb → Pcb) : Kernel :=
  { k with pcb := Function.update k.pcb a (f (k.pcb a)) }

/-- `change_process` -/
def changeProcess (k : Kernel) (pid : ℤ) : Kernel :=
  { k with pageDirectory := Mp3Kernel.changeProcess k.pageDirectory pid }

/-- `return_to_user`: the kernel stack of the process, then `iret` to user code with
the user stack. -/
def returnToUser (k : Kernel) (pid : ℤ) : Kernel :=
  { k with esp0 := stackTop pid, cpu := { k.cpu with esp := usrStackAddr } }

end Kernel

/-! ### Entering the kernel -/

/-- The frame of the kernel function an event runs: the registers its inline
assembly reads, and the words the entry leaves on the stack. -/
structure Frame where
  esp : ℕ
  ebp : ℕ
  scratch : ℕ → ℕ

/-- The frame lies on the stack that `base` is on, below `base` and above the PCB,
the return address included. -/
def Frame.Fits (f : Frame) (base : ℕ) : Prop :=
  maskPcb base + pcbSize ≤ f.esp ∧ f.esp ≤ f.ebp ∧ f.ebp + 8 ≤ base

instance (f : Frame) (base : ℕ) : Decidable (f.Fits base) := by unfold Frame.Fits; infer_instance

/-- The words of the stack `base` is on, between the PCB and `base`. -/
def onStack (base a : ℕ) : Prop := maskPcb base + pcbSize ≤ a ∧ a < base

instance (base a : ℕ) : Decidable (onStack base a) := by unfold onStack; infer_instance

/-- Enter the kernel with the stack pointer at `base`. -/
def enterAt (k : Kernel) (base : ℕ) (f : Frame) : Kernel :=
  { k with cpu := { k.cpu with
      esp := f.esp, ebp := f.ebp, mem := fun a => if onStack base a then f.scratch a else k.cpu.mem a } }

/-- The code running is user code: no `read` waits on the stack in use. -/
def inUser (k : Kernel) : Bool := (k.reading (maskPcb k.cpu.esp)).isNone

/-- A system call from user code. -/
def syscallEntry (k : Kernel) (f : Frame) : Option Kernel :=
  if inUser k ∧ f.Fits k.esp0 then some (enterAt k k.esp0 f) else none

/-- The stack pointer an interrupt starts from: in user code that of `tss.esp0`, in
`read` the one of its frame. -/
def irqBase (k : Kernel) : ℕ :=
  match k.reading (maskPcb k.cpu.esp) with
  | none => k.esp0
  | some call => call.esp

/-- An interrupt. -/
def irqEntry (k : Kernel) (f : Frame) : Option Kernel :=
  if f.Fits (irqBase k) then some (enterAt k (irqBase k) f) else none

/-- What the uninitialised locals of a call hold: `buf[4]` and what lies behind it,
the bytes behind `fname`, and the memory of the page a program is loaded to. -/
structure Leftover where
  buf : Buf
  behind : List UInt8
  page : Buf

/-- How a step ends for the process that ran it. -/
inductive Outcome where
  /-- the call returned -/
  | ret (r : Int32)
  /-- the call returned and filled a buffer -/
  | delivered (got : Delivery)
  /-- `execute` entered the new process -/
  | started (pid : ℤ)
  /-- the process halted and its parent's `execute` returned -/
  | resumed (pid : ℤ)
  /-- the base shell halted and was started again -/
  | restarted
  /-- `read` waits, with interrupts on -/
  | waiting
  /-- the scheduler switched to another process -/
  | switched (pid : ℤ)
  /-- the scheduler found no other process -/
  | stayed

/-! ### execute -/

/-- The loop of `get_next_pid`: the first pid that is free. The word behind the
table, which the condition reads at `i = 6`, does not matter. -/
def pidLoop (k : Kernel) : ℕ → ℤ → ℤ
  | 0, i => i
  | n + 1, i => if k.processArray i ≠ 0 then pidLoop k n (i + 1) else i

/-- `get_next_pid` -/
def getNextPid (k : Kernel) : ℤ := pidLoop k 6 0

/-- The loop that copies the program's name, up to a space or 32 characters. -/
def nameLoop (command : List UInt8) : ℕ → ℕ → List UInt8 → ℕ × List UInt8
  | 0, i, fname => (i, fname)
  | n + 1, i, fname =>
    if command.getD i 0 ≠ 0x20 then nameLoop command n (i + 1) (fname.set i (command.getD i 0)) else (i, fname)

/-- The loop that copies the arguments, up to the next NUL, and the store behind it.
It has no bound of its own: with `j = ARGS_SIZE` the store is outside `args`. -/
def argsLoop (command : List UInt8) (i : ℕ) : ℕ → ℕ → List UInt8 → Option (List UInt8)
  | 0, _, _ => none
  | n + 1, j, args =>
    if command.getD (i + j) 0 ≠ 0 then argsLoop command i n (j + 1) (args.set j (command.getD (i + j) 0))
    else some (args.set j 0)

/-- The loop that copies the arguments into the PCB. -/
def pcbArgsLoop (args : List UInt8) : ℕ → ℕ → List UInt8 → List UInt8
  | 0, _, dst => dst
  | n + 1, i, dst => if args.getD i 0 ≠ 0 then pcbArgsLoop args n (i + 1) (dst.set i (args.getD i 0)) else dst

/-- The program's name in its 32 bytes, and the arguments. -/
def parseCommand (command : List UInt8) : List UInt8 × Option (List UInt8) :=
  let name := nameLoop command maxNameLength 0 (List.replicate nameSize 0)
  (name.2, argsLoop command (name.1 + 1) argsSize 0 (List.replicate argsSize 0))

/-- The four bytes at the start of an executable. -/
def elfMagic : List UInt8 := [0x7F, 0x45, 0x4C, 0x46]

/-- `file_read` of the first four bytes, and the test for the magic number. -/
def isExecutable (img : Image) (d : Dentry) (buf : Buf) : Bool :=
  let got := fileRead img d.inodeNum.toInt32 buf 4 0
  !(got.ret = 0) && strncmp ((List.range bufSize).map got.buf) elfMagic bufSize = 0

/-- `execute` from the point where nothing can fail any more: the tables, the new
PCB, the caller's leaf flag. -/
def startProcess (k : Kernel) (pid : ℤ) (args : List UInt8) : Kernel :=
  let p := pcbAddr pid
  let caller := maskPcb k.cpu.esp
  let k1 := { k with
    processArray := Function.update k.processArray pid 1
    terminalArray := Function.update k.terminalArray k.currTerminal pid }
  let k2 := k1.setPcb p fun b => { b with
    args := pcbArgsLoop args argsSize 0 (List.replicate argsSize 0)
    fileArray := childFiles
    pid := pid
    parentEsp := k.cpu.esp
    parentEbp := k.cpu.ebp }
  let k3 := k2.setPcb p fun b => { b with terminal := (k2.pcb caller).terminal }
  let k4 := k3.setPcb caller fun b => { b with leaf := 0 }
  let k5 := k4.setPcb p fun b => { b with leaf := 1, parentPid := (k4.pcb caller).pid }
  let k6 := { k5 with terminalArray := Function.update k5.terminalArray (k5.pcb caller).terminal pid }
  k6.returnToUser pid

/-- `execute`; a command of `none` is NULL. -/
def execute (img : Image) (k : Kernel) (lo : Leftover) (command : Option (List UInt8)) :
    Option (Kernel × Outcome) :=
  match command with
  | none => some (k, .ret (-1))
  | some command =>
    let pid := getNextPid k
    if pid ≥ maxOpenProcesses then some (k, .ret (-1))
    else
      match (parseCommand command).2 with
      | none => none
      | some args =>
        match readDentryByName img.boot ((parseCommand command).1 ++ lo.behind) with
        | none => some (k, .ret (-1))
        | some d =>
          if isExecutable img d lo.buf then
            -- the user page already belongs to the new process when the load can fail
            let k' := k.changeProcess pid
            if (loadProgram img d.inodeNum.toInt32 lo.page).1 ≠ 0 then some (k', .ret (-1))
            else some (startProcess k' pid args, .started pid)
          else some (k, .ret (-1))

/-! ### halt -/

/-- The loop of `halt` over the descriptors. It reads the flags of the PCB found
from the terminal; `close` finds its PCB from the stack. -/
def closeLoop (curr : ℕ) : List (Fin maxOpenFiles) → Kernel → Kernel
  | [], k => k
  | i :: is, k =>
    if ((k.pcb curr).fileArray i).flags ≠ 0 then
      closeLoop curr is (k.setPcb (maskPcb k.cpu.esp) fun b =>
        { b with fileArray := (closeFile b.fileArray (Int32.ofNat i)).2 })
    else k

/-- The bytes of `"shell\0"`. -/
def shellName : List UInt8 := [0x73, 0x68, 0x65, 0x6C, 0x6C, 0x00]

/-- The text `halt` prints in a base shell. -/
def haltText : List UInt8 := "Sorry you can't halt the base shell\n".toList.map fun c => UInt8.ofNat c.toNat

/-- The assembly at the end of `halt`, on the parent's stack. The statement
`pushl $0` has `status` as its operand, but `$0` in the template is an immediate
and not the operand, which would be `%0`. -/
def haltAsm (c : Cpu) (parentEsp parentEbp : ℕ) (_status : UInt8) : Cpu :=
  let c1 := { c with esp := parentEsp }
  let c2 := c1.pushl 0
  let c3 := { c2 with ebp := parentEbp }
  c3.poplEax.leave.ret

/-- `halt` of a process that has a parent. -/
def haltChild (k : Kernel) (status : UInt8) : Kernel :=
  let curr := pcbAddr k.running
  let k1 := closeLoop curr (List.finRange maxOpenFiles) k
  let parent := (k1.pcb curr).parentPid
  let k2 := { k1.changeProcess parent with esp0 := stackTop parent }
  let k3 := { k2 with processArray := Function.update k2.processArray k2.running 0 }
  let k4 := { k3 with terminalArray := Function.update k3.terminalArray k3.currTerminal parent }
  let k5 := k4.setPcb (pcbAddr parent) fun b => { b with leaf := 1 }
  { k5 with cpu := haltAsm k5.cpu (k5.pcb curr).parentEsp (k5.pcb curr).parentEbp status }

/-- `halt` -/
def halt (img : Image) (k : Kernel) (lo : Leftover) (status : UInt8) : Kernel × Outcome :=
  if (k.pcbOf k.running).parentPid < 0 then
    let k1 := { k with dev := printf k.dev haltText }
    match readDentryByName img.boot shellName with
    | none => (k1, .ret (-1))
    | some d => if isExecutable img d lo.buf then (k1.returnToUser k1.running, .restarted) else (k1, .ret (-1))
  else (haltChild k status, .resumed (k.pcbOf k.running).parentPid)

/-! ### pit_int -/

/-- The search of `pit_int` for the next live leaf, around the process table. The
residues modulo 6 repeat after six steps: a search still running then never ends. -/
def leafLoop (k : Kernel) (cur : ℤ) : ℕ → ℤ → Option ℤ
  | 0, _ => none
  | n + 1, next =>
    if next ≠ cur then
      if k.processArray next ≠ 0 ∧ (k.pcbOf next).leaf ≠ 0 then some next
      else leafLoop k cur n ((next + 1) % 6)
    else some next

/-- The switch at the end of `pit_int`. -/
def switchTo (k : Kernel) (next : ℤ) : Kernel :=
  let k1 := k.setPcb (pcbAddr k.running) fun b => { b with savedEsp := k.cpu.esp, savedEbp := k.cpu.ebp }
  let k2 := { k1.changeProcess next with esp0 := stackTop next }
  let b := k2.pcbOf next
  let c := { k2.cpu with esp := b.savedEsp, ebp := b.savedEbp }
  { k2 with currTerminal := b.terminal, cpu := c.leave.ret }

/-- `pit_int` -/
def pitInt (k : Kernel) : Option (Kernel × Outcome) :=
  if k.running = -1 then some (k, .stayed)
  else
    match leafLoop k k.running 6 ((k.running + 1) % maxOpenProcesses) with
    | none => none
    | some next => if next = k.running then some (k, .stayed) else some (switchTo k next, .switched next)

/-! ### getargs -/

/-- `getargs`; a buffer of `none` is NULL. The comparison of the length is one of
`uint32_t`. -/
def getargs (k : Kernel) (buf : Option Buf) (nbytes : Int32) : Outcome :=
  match buf with
  | none => .ret (-1)
  | some b =>
    if nbytes = 0 then .ret (-1)
    else
      let args := (k.pcbOf k.running).args
      if strlen args > nbytes.toUInt32.toNat then .ret (-1)
      else .delivered ⟨0, strcpy args, overlay (overlay b (List.replicate argsSize 0)) (strcpy args)⟩

/-! ### execute_shells -/

/-- The entry point `execute_shells` reads from byte 24 of the loaded program. -/
def entryPoint (page : Buf) : ℕ :=
  (page 24).toNat + 2 ^ 8 * (page 25).toNat + 2 ^ 16 * (page 26).toNat + 2 ^ 24 * (page 27).toNat

/-- The machine at boot: the flags register `pushfl` stores, the address of
`pit_int_ret`, what the local `buf[4]` and what lies behind it hold, and the memory
of each process's page. -/
structure Boot where
  eflags : ℕ
  pitIntRet : ℕ
  buf : Buf
  pages : ℤ → Buf

/-- The words `execute_shells` pushes on the kernel stack of a shell that has not
run: what `pit_int` would leave of a process interrupted at its entry point. -/
def shellWords (bt : Boot) (eip esp0 : ℕ) : List ℕ :=
  [userDS, usrStackAddr, bt.eflags, userCS, eip] ++ List.replicate 9 0 ++ [bt.pitIntRet, esp0]

/-- One turn of the loop of `execute_shells`; `none` is FAILURE. -/
def startShell (img : Image) (bt : Boot) (inode : Int32) (k : Kernel) (i : ℤ) : Option Kernel :=
  let k1 := { k with
    terminalArray := Function.update k.terminalArray i i
    processArray := Function.update k.processArray i 1 }
  let k2 := k1.changeProcess i
  let load := loadProgram img inode (bt.pages i)
  if load.1 ≠ 0 then none
  else
    let k3 := k2.setPcb (pcbAddr i) fun b => { b with
      fileArray := shellFiles i, pid := i, leaf := 1, terminal := i, parentPid := -1 }
    let k4 := { k3 with esp0 := stackTop i }
    let pushed := (shellWords bt (entryPoint load.2) k4.esp0).foldl Cpu.pushl { k4.cpu with esp := k4.esp0 }
    let k5 := if i ≠ 0 then { k4 with cpu := { k4.cpu with mem := pushed.mem } } else k4
    let saved := (kMemEnd - i * kStackSize - pushedRegsSize).toNat
    some (k5.setPcb (pcbAddr i) fun b => { b with savedEbp := saved, savedEsp := saved })

/-- `execute_shells`; `none` is FAILURE. -/
def executeShells (img : Image) (bt : Boot) (k : Kernel) : Option Kernel :=
  match readDentryByName img.boot shellName with
  | none => none
  | some d =>
    if (fileRead img d.inodeNum.toInt32 bt.buf 4 0).ret = 0 then none
    else
      match startShell img bt d.inodeNum.toInt32 k 2 with
      | none => none
      | some k2 =>
        match startShell img bt d.inodeNum.toInt32 k2 1 with
        | none => none
        | some k1 =>
          match startShell img bt d.inodeNum.toInt32 k1 0 with
          | none => none
          | some k0 =>
            let pcb := k0.pcbOf 0
            some ({ k0 with currTerminal := pcb.terminal }.returnToUser pcb.pid)

/-! ### The system -/

/-- What can happen to the kernel: a system call of the running process, the end of
a read that waits, a timer interrupt. -/
inductive Event where
  | execute (f : Frame) (lo : Leftover) (command : Option (List UInt8))
  | halt (f : Frame) (lo : Leftover) (status : UInt8)
  | pitInt (f : Frame)
  | openFile (f : Frame) (filename : Option (List UInt8))
  | close (f : Frame) (fd : Int32)
  | read (f : Frame) (fd : Int32) (buf : Option Buf) (nbytes : Int32)
  | readDone (line : Option Line)
  | write (f : Frame) (fd : Int32) (buf : Option Buf) (nbytes : Int32)
  | getargs (f : Frame) (buf : Option Buf) (nbytes : Int32)

/-- The descriptor table of the PCB at an address. -/
def Kernel.setFiles (k : Kernel) (a : ℕ) (fa : FileArray) : Kernel :=
  k.setPcb a fun b => { b with fileArray := fa }

/-- `get_curr_pcb_term` -/
def getCurrPcbTerm (k : Kernel) : ℤ := (k.pcbOf k.running).terminal

/-- `read` up to `sti()`. -/
def beginRead (k : Kernel) (fd : Int32) (buf : Option Buf) (nbytes : Int32) : Kernel × Outcome :=
  let pcb := maskPcb k.cpu.esp
  match slotOf fd, buf with
  | some i, some b =>
    ({ k with reading := Function.update k.reading pcb (some ⟨k.cpu.esp, pcb, i, b, nbytes⟩) }, .waiting)
  | _, _ => (k, .ret (-1))

/-- `read` from `sti()` on, in the frame on the stack in use. -/
def endRead (img : Image) (k : Kernel) (line : Option Line) : Option (Kernel × Outcome) :=
  match k.reading (maskPcb k.cpu.esp) with
  | none => none
  | some call =>
    match readBody img (k.pcb call.pcb).fileArray call.slot call.buf call.nbytes line with
    | none => none
    | some (got, fa) =>
      let op := ((k.pcb call.pcb).fileArray call.slot).fopJumpTable.readOp
      some ({ k.setFiles call.pcb fa with
        reading := Function.update k.reading (maskPcb k.cpu.esp) none
        dev := readDevices k.dev op }, .delivered got)

/-- One event. -/
def step (img : Image) (k : Kernel) : Event → Option (Kernel × Outcome)
  | .execute f lo command => (syscallEntry k f).bind fun k' => execute img k' lo command
  | .halt f lo status => (syscallEntry k f).map fun k' => halt img k' lo status
  | .pitInt f => (irqEntry k f).bind pitInt
  | .openFile f filename => (syscallEntry k f).bind fun k' =>
      (openFile img (k'.pcb (maskPcb k'.cpu.esp)).fileArray filename).map fun r =>
        (k'.setFiles (maskPcb k'.cpu.esp) r.2, .ret r.1)
  | .close f fd => (syscallEntry k f).map fun k' =>
      let r := closeFile (k'.pcb (maskPcb k'.cpu.esp)).fileArray fd
      (k'.setFiles (maskPcb k'.cpu.esp) r.2, .ret r.1)
  | .read f fd buf nbytes => (syscallEntry k f).map fun k' => beginRead k' fd buf nbytes
  | .readDone line => endRead img k line
  | .write f fd buf nbytes => (syscallEntry k f).map fun k' =>
      let r := writeFile (k'.pcb (maskPcb k'.cpu.esp)).fileArray k'.dev (getCurrPcbTerm k') fd buf nbytes
      ({ k' with dev := r.2 }, .ret r.1)
  | .getargs f buf nbytes => (syscallEntry k f).map fun k' => (k', getargs k' buf nbytes)

end Mp3Kernel
