/-
# What a step can do

`step` runs a whole C function. Seen from outside it does one of four things to
the process tables, and this module says which, once, with everything that
changes and everything that does not:

* `Started`: `execute` made a process;
* `Resumed`: a process halted and its parent runs again;
* `Switched`: the scheduler switched to another process;
* `Quiet`: anything else, which changes the running process's descriptors, the
  devices and the running process's own kernel stack at most.

That the two ways to a PCB lead to the same one is what these need of the state
they start in (`Coherent`).

Key definitions: `Coherent`, `Started`, `Resumed`, `Switched`, `Quiet`.
Key theorem: `step_cases`.
-/
import Mp3Kernel.Layout

namespace Mp3Kernel

/-! ### All of the kernel's notions of the current process agree -/

/-- The read waiting at `x` is a call on the stack of `q`. -/
def ReadsOn (q : ℤ) (x : ℕ) (c : ReadCall) : Prop := x = pcbAddr q ∧ c.pcb = pcbAddr q ∧ InStack q c.esp

/-- The kernel's notions of the current process agree, and a `read` that waits on
its stack is the code running. -/
structure Coherent (k : Kernel) : Prop where
  isPid : IsPid k.running
  live : k.processArray k.running ≠ 0
  pid : (k.pcbOf k.running).pid = k.running
  terminal : (k.pcbOf k.running).terminal = k.currTerminal
  page : k.pageDirectory userProcessIndex = processEntry k.running
  esp0 : k.esp0 = stackTop k.running
  parent : 0 ≤ (k.pcbOf k.running).parentPid →
    IsPid (k.pcbOf k.running).parentPid ∧ (k.pcbOf k.running).parentPid ≠ k.running
  waiting : k.reading (pcbAddr k.running) ≠ none → maskPcb k.cpu.esp = pcbAddr k.running
  inUse : k.reading (maskPcb k.cpu.esp) ≠ none → maskPcb k.cpu.esp = pcbAddr k.running
  calls : ∀ x c, k.reading x = some c → ∃ q, IsPid q ∧ ReadsOn q x c

/-- A word of the process's own kernel stack. -/
def OwnWord (p : ℤ) (x : ℕ) : Prop := pcbAddr p + pcbSize ≤ x ∧ x < stackTop p

section Entry

variable {k k' : Kernel} {f : Frame}

theorem enterAt_mem {base x : ℕ} (h : ¬ onStack base x) : (enterAt k base f).cpu.mem x = k.cpu.mem x := by
  simp [enterAt, h]

/-- What holds in the kernel once it is entered: the frame is on the running
process's stack, and its own words are all that changed. -/
structure Entered (k : Kernel) (f : Frame) (k' : Kernel) : Prop where
  esp : k'.cpu.esp = f.esp
  ebp : k'.cpu.ebp = f.ebp
  frame : OnStack k.running f.esp f.ebp
  mem : ∀ x, ¬ OwnWord k.running x → k'.cpu.mem x = k.cpu.mem x
  rest : k' = { k with cpu := k'.cpu }

theorem entered_of_fits (hc : Coherent k) {base : ℕ} (hb : InStack k.running base) (hf : f.Fits base) :
    Entered k f (enterAt k base f) := by
  refine ⟨rfl, rfl, hf.onStack hc.isPid hb, fun x hx => ?_, rfl⟩
  exact enterAt_mem fun ho => hx (onStack_own hc.isPid hb ho)

theorem entered_of_syscall (hc : Coherent k) (h : syscallEntry k f = some k') :
    Entered k f k' ∧ k.reading (pcbAddr k.running) = none := by
  unfold syscallEntry at h
  split_ifs at h with hu
  obtain ⟨hu, hf⟩ := hu
  rw [hc.esp0] at h hf
  have hk : enterAt k (stackTop k.running) f = k' := by simpa using h
  refine ⟨hk ▸ entered_of_fits hc (inStack_top hc.isPid) hf, ?_⟩
  by_contra hr
  rw [← hc.waiting hr] at hr
  simp only [inUser, Option.isNone_iff_eq_none] at hu
  exact hr hu

theorem inStack_irqBase (hc : Coherent k) : InStack k.running (irqBase k) := by
  unfold irqBase
  cases hr : k.reading (maskPcb k.cpu.esp) with
  | none =>
    rw [show k.esp0 = stackTop k.running from hc.esp0]
    exact inStack_top hc.isPid
  | some call =>
    obtain ⟨q, hq, hx, -, hin⟩ := hc.calls _ _ hr
    have hm := hc.inUse (by rw [hr]; simp)
    have hqr : q = k.running := pcbAddr_inj hq hc.isPid (hx.symm.trans hm)
    exact hqr ▸ hin

theorem entered_of_irq (hc : Coherent k) (h : irqEntry k f = some k') : Entered k f k' := by
  unfold irqEntry at h
  split_ifs at h with hf
  have hk : enterAt k (irqBase k) f = k' := by simpa using h
  exact hk ▸ entered_of_fits hc (inStack_irqBase hc) hf

end Entry

/-! ### The four kinds of step -/

/-- `execute` made process `c`, called in frame `f` by the running process. -/
structure Started (k : Kernel) (f : Frame) (c : ℤ) (args : List UInt8) (k' : Kernel) : Prop where
  isPid : IsPid c
  free : k.processArray c = 0
  frame : OnStack k.running f.esp f.ebp
  user : k.reading (pcbAddr k.running) = none
  processArray : k'.processArray = Function.update k.processArray c 1
  terminalArray : k'.terminalArray = Function.update k.terminalArray k.currTerminal c
  currTerminal : k'.currTerminal = k.currTerminal
  child : k'.pcbOf c = { k.pcbOf c with
    args := pcbArgsLoop args argsSize 0 (List.replicate argsSize 0)
    fileArray := childFiles, pid := c, leaf := 1, parentEsp := f.esp, parentEbp := f.ebp
    parentPid := k.running, terminal := k.currTerminal }
  caller : k'.pcbOf k.running = { k.pcbOf k.running with leaf := 0 }
  others : ∀ q, IsPid q → q ≠ c → q ≠ k.running → k'.pcbOf q = k.pcbOf q
  page : k'.pageDirectory userProcessIndex = processEntry c
  esp0 : k'.esp0 = stackTop c
  reading : k'.reading = k.reading
  esp : k'.cpu.esp = usrStackAddr
  mem : ∀ x, ¬ OwnWord k.running x → k'.cpu.mem x = k.cpu.mem x

/-- The running process halted and its parent `par` runs again: the parent's
`execute` has returned from the frame the PCB recorded, with 0. -/
structure Resumed (k : Kernel) (par : ℤ) (k' : Kernel) : Prop where
  parentPid : (k.pcbOf k.running).parentPid = par
  nonneg : 0 ≤ par
  user : k.reading (pcbAddr k.running) = none
  processArray : k'.processArray = Function.update k.processArray k.running 0
  terminalArray : k'.terminalArray = Function.update k.terminalArray k.currTerminal par
  currTerminal : k'.currTerminal = k.currTerminal
  parent : k'.pcbOf par = { k.pcbOf par with leaf := 1 }
  others : ∀ q, IsPid q → q ≠ k.running → q ≠ par → k'.pcbOf q = k.pcbOf q
  page : k'.pageDirectory userProcessIndex = processEntry par
  esp0 : k'.esp0 = stackTop par
  reading : k'.reading = k.reading
  cpu : k'.cpu = Cpu.returned k'.cpu.mem (k.pcbOf k.running).parentEbp 0
  mem : ∀ x, ¬ OwnWord k.running x → x ≠ (k.pcbOf k.running).parentEsp - 4 → k'.cpu.mem x = k.cpu.mem x

/-- The scheduler, interrupting the running process in frame `f`, switched to `q`. -/
structure Switched (k : Kernel) (f : Frame) (q : ℤ) (k' : Kernel) : Prop where
  isPid : IsPid q
  ne : q ≠ k.running
  live : k.processArray q ≠ 0
  leaf : (k.pcbOf q).leaf ≠ 0
  frame : OnStack k.running f.esp f.ebp
  processArray : k'.processArray = k.processArray
  terminalArray : k'.terminalArray = k.terminalArray
  currTerminal : k'.currTerminal = (k.pcbOf q).terminal
  self : k'.pcbOf k.running = { k.pcbOf k.running with savedEsp := f.esp, savedEbp := f.ebp }
  others : ∀ r, IsPid r → r ≠ k.running → k'.pcbOf r = k.pcbOf r
  page : k'.pageDirectory userProcessIndex = processEntry q
  esp0 : k'.esp0 = stackTop q
  reading : k'.reading = k.reading
  cpu : k'.cpu = Cpu.returned k'.cpu.mem (k.pcbOf q).savedEbp k'.cpu.eax
  mem : ∀ x, ¬ OwnWord k.running x → k'.cpu.mem x = k.cpu.mem x

/-- The step left the process tables alone. -/
structure Quiet (k : Kernel) (k' : Kernel) : Prop where
  processArray : k'.processArray = k.processArray
  terminalArray : k'.terminalArray = k.terminalArray
  currTerminal : k'.currTerminal = k.currTerminal
  self : ∃ fa, k'.pcbOf k.running = { k.pcbOf k.running with fileArray := fa }
  others : ∀ q, IsPid q → q ≠ k.running → k'.pcbOf q = k.pcbOf q
  page : k'.pageDirectory userProcessIndex = k.pageDirectory userProcessIndex
  esp0 : k'.esp0 = k.esp0
  reading : ∀ x, x ≠ pcbAddr k.running → k'.reading x = k.reading x
  waiting : k'.reading (pcbAddr k.running) ≠ none → maskPcb k'.cpu.esp = pcbAddr k.running
  inUse : k'.reading (maskPcb k'.cpu.esp) ≠ none → maskPcb k'.cpu.esp = pcbAddr k.running
  calls : ∀ c, k'.reading (pcbAddr k.running) = some c → ReadsOn k.running (pcbAddr k.running) c
  mem : ∀ x, ¬ OwnWord k.running x → k'.cpu.mem x = k.cpu.mem x

theorem Started.run {k k' : Kernel} {f : Frame} {c : ℤ} {args : List UInt8} (h : Started k f c args k') :
    k'.running = c := by
  unfold Kernel.running
  rw [h.terminalArray, h.currTerminal, Function.update_self]

theorem Resumed.run {k k' : Kernel} {par : ℤ} (h : Resumed k par k') : k'.running = par := by
  unfold Kernel.running
  rw [h.terminalArray, h.currTerminal, Function.update_self]

theorem Quiet.run {k k' : Kernel} (h : Quiet k k') : k'.running = k.running := by
  unfold Kernel.running
  rw [h.terminalArray, h.currTerminal]

/-! ### execute -/

theorem pidLoop_spec (k : Kernel) : ∀ (n : ℕ) (i : ℤ),
    i ≤ pidLoop k n i ∧ pidLoop k n i ≤ i + n ∧ (pidLoop k n i < i + n → k.processArray (pidLoop k n i) = 0)
  | 0, i => by simp [pidLoop]
  | n + 1, i => by
    rw [pidLoop]
    split_ifs with h
    · obtain ⟨h1, h2, h3⟩ := pidLoop_spec k n (i + 1)
      refine ⟨by omega, by push_cast; omega, fun hlt => h3 ?_⟩
      push_cast at hlt
      omega
    · exact ⟨le_refl _, by omega, fun _ => by simpa using h⟩

theorem getNextPid_spec {k : Kernel} (h : ¬ getNextPid k ≥ maxOpenProcesses) :
    IsPid (getNextPid k) ∧ k.processArray (getNextPid k) = 0 := by
  have h6 : getNextPid k < 6 := not_le.mp h
  obtain ⟨h1, -, h3⟩ := pidLoop_spec k 6 0
  exact ⟨⟨h1, h6⟩, h3 (by simpa [getNextPid] using h6)⟩

section PcbStores

variable {k : Kernel} {p q : ℤ} {g : Pcb → Pcb}

theorem setPcb_pcbOf_same : (k.setPcb (pcbAddr p) g).pcbOf p = g (k.pcbOf p) := by
  simp [Kernel.setPcb, Kernel.pcbOf]

theorem setPcb_pcbOf_ne (hp : IsPid p) (hq : IsPid q) (h : q ≠ p) :
    (k.setPcb (pcbAddr p) g).pcbOf q = k.pcbOf q := by
  simp [Kernel.setPcb, Kernel.pcbOf, pcbAddr_ne hq hp h]

end PcbStores

/-- `startProcess` field by field, when the stack pointer leads to `p`'s PCB. -/
theorem startProcess_spec {k : Kernel} {p c : ℤ} (args : List UInt8) (hp : IsPid p) (hc : IsPid c)
    (hne : c ≠ p) (hm : maskPcb k.cpu.esp = pcbAddr p) (hpid : (k.pcbOf p).pid = p)
    (hterm : (k.pcbOf p).terminal = k.currTerminal) :
    (startProcess k c args).terminalArray = Function.update k.terminalArray k.currTerminal c ∧
      (startProcess k c args).pcbOf c = { k.pcbOf c with
        args := pcbArgsLoop args argsSize 0 (List.replicate argsSize 0)
        fileArray := childFiles, pid := c, leaf := 1, parentEsp := k.cpu.esp, parentEbp := k.cpu.ebp
        parentPid := p, terminal := k.currTerminal } ∧
      (startProcess k c args).pcbOf p = { k.pcbOf p with leaf := 0 } ∧
      ∀ q, IsPid q → q ≠ c → q ≠ p → (startProcess k c args).pcbOf q = k.pcbOf q := by
  have hcp : pcbAddr c ≠ pcbAddr p := pcbAddr_ne hc hp hne
  have hpc : pcbAddr p ≠ pcbAddr c := hcp.symm
  simp only [Kernel.pcbOf] at hpid hterm
  refine ⟨?_, ?_, ?_, fun q hq hqc hqp => ?_⟩
  · simp [startProcess, Kernel.setPcb, Kernel.returnToUser, hm, hpc, hterm]
  · simp [startProcess, Kernel.setPcb, Kernel.returnToUser, Kernel.pcbOf, hm, hcp, hpc, hpid, hterm]
  · simp [startProcess, Kernel.setPcb, Kernel.returnToUser, Kernel.pcbOf, hm, hcp, hpc]
  · have h1 : pcbAddr q ≠ pcbAddr c := pcbAddr_ne hq hc hqc
    have h2 : pcbAddr q ≠ pcbAddr p := pcbAddr_ne hq hp hqp
    simp [startProcess, Kernel.setPcb, Kernel.returnToUser, Kernel.pcbOf, hm, h1, h2]

/-- An executable's inode exists: of one that does not, `file_read` stores nothing
in the buffer it has cleared. -/
theorem inode_lt_of_isExecutable {img : Image} {d : Dentry} {buf : Buf} (h : isExecutable img d buf = true) :
    d.inodeNum.toInt32.toUInt32 < img.boot.numInodes := by
  by_contra hlt
  have hbad := fileRead_bad_inode img d.inodeNum.toInt32 buf 4 0 (by simpa using hlt)
  simp only [isExecutable, hbad, Bool.and_eq_true, decide_eq_true_eq] at h
  refine strncmp_nul_left (n := 3) ?_ ?_ h.2
  · simp [List.range_succ_eq_map, clearBuf_zero]
  · decide

/-- `execute` either changes nothing and returns -1, or starts the first free pid. -/
theorem execute_cases {img : Image} {k k' : Kernel} {lo : Leftover} {command : Option (List UInt8)}
    {out : Outcome} (h : execute img k lo command = some (k', out)) :
    (k' = k ∧ out = .ret (-1)) ∨
      ∃ cmd args, command = some cmd ∧ (parseCommand cmd).2 = some args ∧ ¬ getNextPid k ≥ maxOpenProcesses ∧
        k' = startProcess (k.changeProcess (getNextPid k)) (getNextPid k) args ∧
        out = .started (getNextPid k) := by
  unfold execute at h
  cases command with
  | none =>
    simp only [Option.some.injEq, Prod.mk.injEq] at h
    exact Or.inl ⟨h.1.symm, h.2.symm⟩
  | some cmd =>
    simp only at h
    split_ifs at h with hpid
    · simp only [Option.some.injEq, Prod.mk.injEq] at h
      exact Or.inl ⟨h.1.symm, h.2.symm⟩
    · cases hargs : (parseCommand cmd).2 with
      | none => simp [hargs] at h
      | some args =>
        simp only [hargs] at h
        cases hd : readDentryByName img.boot ((parseCommand cmd).1 ++ lo.behind) with
        | none =>
          simp only [hd, Option.some.injEq, Prod.mk.injEq] at h
          exact Or.inl ⟨h.1.symm, h.2.symm⟩
        | some d =>
          simp only [hd] at h
          split_ifs at h with hx hl
          · -- the load cannot fail: the magic number was read from this very inode
            have := loadProgram_valid img d.inodeNum.toInt32 lo.page (inode_lt_of_isExecutable hx)
            exact absurd this hl
          · simp only [Option.some.injEq, Prod.mk.injEq] at h
            exact Or.inr ⟨cmd, args, rfl, hargs, hpid, h.1.symm, h.2.symm⟩
          · simp only [Option.some.injEq, Prod.mk.injEq] at h
            exact Or.inl ⟨h.1.symm, h.2.symm⟩

section Step

variable {k ke k' : Kernel} {f : Frame} {out : Outcome}

theorem Entered.fields (he : Entered k f ke) :
    ke.processArray = k.processArray ∧ ke.terminalArray = k.terminalArray ∧ ke.currTerminal = k.currTerminal ∧
      ke.pcb = k.pcb ∧ ke.pageDirectory = k.pageDirectory ∧ ke.esp0 = k.esp0 ∧ ke.reading = k.reading ∧
      ke.dev = k.dev := by
  rw [he.rest]
  simp

theorem Entered.pcbOf (he : Entered k f ke) (q : ℤ) : ke.pcbOf q = k.pcbOf q := by
  rw [he.rest]
  rfl

theorem Entered.reading (he : Entered k f ke) : ke.reading = k.reading := by
  rw [he.rest]

theorem Entered.mask (hc : Coherent k) (he : Entered k f ke) : maskPcb ke.cpu.esp = pcbAddr k.running := by
  rw [he.esp]
  exact he.frame.inStack.mask hc.isPid

theorem Entered.running (he : Entered k f ke) : ke.running = k.running := by
  rw [he.rest]
  rfl

/-- What `execute` does to the tables when it starts a process. -/
theorem started_of_execute (hc : Coherent k) (he : Entered k f ke)
    (hu : k.reading (pcbAddr k.running) = none) (args : List UInt8)
    (hpid : ¬ getNextPid ke ≥ maxOpenProcesses) :
    Started k f (getNextPid ke) args (startProcess (ke.changeProcess (getNextPid ke)) (getNextPid ke) args) := by
  obtain ⟨hcp, hfree⟩ := getNextPid_spec hpid
  obtain ⟨e1, e2, e3, e4, e5, e6, e7, -⟩ := he.fields
  generalize getNextPid ke = c at hcp hfree
  rw [e1] at hfree
  have hne : c ≠ k.running := fun h => hc.live (h ▸ hfree)
  have hpcb : ∀ q, (ke.changeProcess c).pcbOf q = k.pcbOf q := fun q => he.pcbOf q
  have hm : maskPcb (ke.changeProcess c).cpu.esp = pcbAddr k.running := (Entered.mask hc he :)
  have hct : (ke.changeProcess c).currTerminal = k.currTerminal := e3
  obtain ⟨s1, s2, s3, s4⟩ := startProcess_spec args hc.isPid hcp hne hm (by rw [hpcb]; exact hc.pid)
    (by rw [hpcb, hct]; exact hc.terminal)
  rw [hct] at s1 s2
  rw [hpcb] at s2 s3
  refine
    { isPid := hcp
      free := hfree
      frame := he.frame
      user := hu
      processArray := by rw [← e1]; rfl
      terminalArray := by rw [s1, ← e2]; rfl
      currTerminal := e3
      child := ?_
      caller := s3
      others := fun q hq h1 h2 => by rw [s4 q hq h1 h2, hpcb]
      page := changeProcess_user ke.pageDirectory c
      esp0 := rfl
      reading := e7
      esp := rfl
      mem := fun x hx => he.mem x hx }
  rw [s2, show (ke.changeProcess c).cpu.esp = f.esp from he.esp,
    show (ke.changeProcess c).cpu.ebp = f.ebp from he.ebp]

/-! ### halt -/

/-- The loop of `halt` stores into one descriptor table only, the one `close` finds. -/
theorem closeLoop_spec (curr : ℕ) : ∀ (is : List (Fin maxOpenFiles)) (k : Kernel),
    ∃ fa, closeLoop curr is k = k.setFiles (maskPcb k.cpu.esp) fa
  | [], k => ⟨(k.pcb (maskPcb k.cpu.esp)).fileArray, by simp [closeLoop, Kernel.setFiles, Kernel.setPcb]⟩
  | i :: is, k => by
    rw [closeLoop]
    split_ifs with h
    · obtain ⟨fa, hfa⟩ := closeLoop_spec curr is (k.setPcb (maskPcb k.cpu.esp) fun b =>
        { b with fileArray := (closeFile b.fileArray (Int32.ofNat i)).2 })
      refine ⟨fa, hfa.trans ?_⟩
      simp [Kernel.setFiles, Kernel.setPcb]
    · exact ⟨(k.pcb (maskPcb k.cpu.esp)).fileArray, by simp [Kernel.setFiles, Kernel.setPcb]⟩

/-- The assembly of `halt` returns 0 from the frame recorded, whatever the status. -/
theorem haltAsm_eq (c : Cpu) (parentEsp parentEbp : ℕ) (status : UInt8) :
    haltAsm c parentEsp parentEbp status =
      Cpu.returned (Function.update c.mem (parentEsp - 4) 0) parentEbp 0 := by
  unfold haltAsm
  rw [Cpu.leave_ret]
  simp [Cpu.pushl, Cpu.poplEax]

/-- The kernel `halt` leaves, with the loop over the descriptors done. -/
theorem haltChild_eq {k : Kernel} {p par : ℤ} {fa : FileArray} (status : UInt8) (hp : k.running = p)
    (hpar : (k.pcbOf p).parentPid = par) (hne : pcbAddr p ≠ pcbAddr par)
    (hfa : closeLoop (pcbAddr p) (List.finRange maxOpenFiles) k = k.setFiles (pcbAddr p) fa) :
    haltChild k status =
      { k with
        processArray := Function.update k.processArray p 0
        terminalArray := Function.update k.terminalArray k.currTerminal par
        pcb := Function.update (Function.update k.pcb (pcbAddr p) { k.pcbOf p with fileArray := fa })
          (pcbAddr par) { k.pcbOf par with leaf := 1 }
        pageDirectory := changeProcess k.pageDirectory par
        esp0 := stackTop par
        cpu := haltAsm k.cpu (k.pcbOf p).parentEsp (k.pcbOf p).parentEbp status } := by
  have hrun : k.terminalArray k.currTerminal = p := hp
  simp only [Kernel.pcbOf] at hpar
  unfold haltChild
  simp only [hp, hfa]
  simp [Kernel.setFiles, Kernel.setPcb, Kernel.changeProcess, Kernel.running, Kernel.pcbOf, hrun, hpar, hne, hne.symm]

/-- `halt` resumes the parent, or prints and starts the base shell again. -/
theorem halt_cases {img : Image} {lo : Leftover} {status : UInt8} (h : halt img k lo status = (k', out)) :
    (0 ≤ (k.pcbOf k.running).parentPid ∧ k' = haltChild k status ∧
      out = .resumed (k.pcbOf k.running).parentPid) ∨
    ∃ dev, (k' = { k with dev := dev } ∧ out = .ret (-1)) ∨
      (k' = { k with dev := dev }.returnToUser k.running ∧ out = .restarted) := by
  unfold halt at h
  generalize printf k.dev haltText = dev at h
  split_ifs at h with hneg
  · refine Or.inr ⟨dev, ?_⟩
    simp only at h
    split at h
    · exact Or.inl (by simpa using h.symm)
    · split_ifs at h with hx
      · simp only [Prod.mk.injEq] at h
        exact Or.inr ⟨h.1.symm, h.2.symm⟩
      · exact Or.inl (by simpa using h.symm)
  · simp only [Prod.mk.injEq] at h
    exact Or.inl ⟨not_lt.mp hneg, h.1.symm, h.2.symm⟩

/-- What `halt` does to the tables when the process has a parent. -/
theorem resumed_of_haltChild (hc : Coherent k) (he : Entered k f ke)
    (hu : k.reading (pcbAddr k.running) = none) (hpar : 0 ≤ (k.pcbOf k.running).parentPid) (status : UInt8) :
    Resumed k (k.pcbOf k.running).parentPid (haltChild ke status) := by
  obtain ⟨hpp, hpne⟩ := hc.parent hpar
  obtain ⟨e1, e2, e3, e4, e5, e6, e7, -⟩ := he.fields
  obtain ⟨fa, hfa⟩ := closeLoop_spec (pcbAddr k.running) (List.finRange maxOpenFiles) ke
  rw [he.mask hc] at hfa
  have hk := haltChild_eq status he.running (congrArg Pcb.parentPid (he.pcbOf _))
    (pcbAddr_ne hpp hc.isPid hpne).symm hfa
  simp only [he.pcbOf] at hk
  rw [hk]
  refine
    { parentPid := rfl
      nonneg := hpar
      user := hu
      processArray := by rw [← e1]
      terminalArray := by rw [← e2, ← e3]
      currTerminal := e3
      parent := Function.update_self ..
      others := fun q hq hqp hqpar => ?_
      page := changeProcess_user ke.pageDirectory _
      esp0 := rfl
      reading := e7
      cpu := ?_
      mem := fun x hx hne => ?_ }
  · have h2 : pcbAddr q ≠ pcbAddr k.running := pcbAddr_ne hq hc.isPid hqp
    have h3 : pcbAddr q ≠ pcbAddr (k.pcbOf k.running).parentPid := pcbAddr_ne hq hpp hqpar
    rw [← he.pcbOf q]
    exact (Function.update_of_ne h3 ..).trans (Function.update_of_ne h2 ..)
  · simp only [haltAsm_eq]
    rfl
  · simp only [haltAsm_eq, Cpu.returned]
    rw [Function.update_of_ne hne]
    exact he.mem x hx

/-! ### pit_int -/

/-- The search of `pit_int` ends at the running process or at a live leaf. -/
theorem leafLoop_spec (k : Kernel) (cur : ℤ) : ∀ (n : ℕ) {next q : ℤ}, IsPid next →
    leafLoop k cur n next = some q → q = cur ∨ (IsPid q ∧ k.processArray q ≠ 0 ∧ (k.pcbOf q).leaf ≠ 0)
  | 0, _, _, _, h => by simp [leafLoop] at h
  | n + 1, next, q, hn, h => by
    rw [leafLoop] at h
    split_ifs at h with h1 h2
    · obtain rfl : next = q := by simpa using h
      exact Or.inr ⟨hn, h2⟩
    · refine leafLoop_spec k cur n ?_ h
      exact ⟨by omega, by omega⟩
    · obtain rfl : next = q := by simpa using h
      exact Or.inl (not_not.mp h1)

theorem switchTo_pcbOf (k : Kernel) (next r : ℤ) : (switchTo k next).pcbOf r =
    (k.setPcb (pcbAddr k.running) fun b => { b with savedEsp := k.cpu.esp, savedEbp := k.cpu.ebp }).pcbOf r := rfl

/-- What the switch of `pit_int` does to the tables. -/
theorem switched_of_switchTo (hc : Coherent k) (he : Entered k f ke) {q : ℤ} (hq : IsPid q)
    (hne : q ≠ k.running) (hlive : k.processArray q ≠ 0) (hleaf : (k.pcbOf q).leaf ≠ 0) :
    Switched k f q (switchTo ke q) := by
  obtain ⟨e1, e2, e3, e4, e5, e6, e7, -⟩ := he.fields
  have hsame : (switchTo ke q).pcbOf k.running = { k.pcbOf k.running with savedEsp := f.esp, savedEbp := f.ebp } := by
    rw [← he.pcbOf, ← he.esp, ← he.ebp, switchTo_pcbOf, he.running]
    exact setPcb_pcbOf_same
  have hother : ∀ r, IsPid r → r ≠ k.running → (switchTo ke q).pcbOf r = k.pcbOf r := by
    intro r hr hrne
    rw [← he.pcbOf, switchTo_pcbOf, he.running]
    exact setPcb_pcbOf_ne hc.isPid hr hrne
  refine
    { isPid := hq, ne := hne, live := hlive, leaf := hleaf
      frame := he.frame
      processArray := e1
      terminalArray := e2
      currTerminal := ?_
      self := hsame
      others := hother
      page := changeProcess_user ke.pageDirectory q
      esp0 := rfl
      reading := e7
      cpu := ?_
      mem := fun x hx => he.mem x hx }
  · rw [← hother q hq hne]
    rfl
  · rw [← hother q hq hne]
    exact Cpu.leave_ret _

/-- `pit_int` either stays or switches to another live leaf. -/
theorem pitInt_cases (hc : Coherent k) (he : Entered k f ke) (h : pitInt ke = some (k', out)) :
    (k' = ke ∧ out = .stayed) ∨ ∃ q, out = .switched q ∧ Switched k f q k' := by
  obtain ⟨h0, h6⟩ := hc.isPid
  unfold pitInt at h
  rw [he.running, if_neg (by omega)] at h
  have hnext : IsPid ((k.running + 1) % maxOpenProcesses) := by
    simp only [maxOpenProcesses]
    exact ⟨by omega, by omega⟩
  cases hl : leafLoop ke k.running 6 ((k.running + 1) % maxOpenProcesses) with
  | none => simp [hl] at h
  | some q =>
    simp only [hl] at h
    split_ifs at h with hq
    · simp only [Option.some.injEq, Prod.mk.injEq] at h
      exact Or.inl ⟨h.1.symm, h.2.symm⟩
    · simp only [Option.some.injEq, Prod.mk.injEq] at h
      obtain ⟨hk, ho⟩ := h
      obtain ⟨hpid, hlive, hleaf⟩ := (leafLoop_spec ke k.running 6 hnext hl).resolve_left hq
      rw [he.fields.1] at hlive
      rw [he.pcbOf] at hleaf
      exact Or.inr ⟨q, ho.symm, hk ▸ switched_of_switchTo hc he hpid hq hlive hleaf⟩

/-! ### The steps that leave the process tables alone -/

theorem setFiles_pcbOf_same {p : ℤ} {fa : FileArray} :
    (k.setFiles (pcbAddr p) fa).pcbOf p = { k.pcbOf p with fileArray := fa } := setPcb_pcbOf_same

theorem setFiles_pcbOf_ne {p q : ℤ} {fa : FileArray} (hp : IsPid p) (hq : IsPid q) (h : q ≠ p) :
    (k.setFiles (pcbAddr p) fa).pcbOf q = k.pcbOf q := setPcb_pcbOf_ne hp hq h

/-- A call of the running process that stores into its descriptors and devices. -/
theorem quiet_of_entered (hc : Coherent k) (he : Entered k f ke) (fa : FileArray) (dev : Devices) :
    Quiet k { ke.setFiles (pcbAddr k.running) fa with dev := dev } := by
  obtain ⟨e1, e2, e3, e4, e5, e6, e7, -⟩ := he.fields
  have hm := he.mask hc
  refine
    { processArray := e1
      terminalArray := e2
      currTerminal := e3
      self := ⟨fa, ?_⟩
      others := fun q hq hne => ?_
      page := congrFun e5 _
      esp0 := e6
      reading := fun x _ => congrFun e7 x
      waiting := fun _ => hm
      inUse := fun _ => hm
      calls := fun c h => ?_
      mem := fun x hx => he.mem x hx }
  · rw [← he.pcbOf]
    exact setFiles_pcbOf_same
  · rw [← he.pcbOf]
    exact setFiles_pcbOf_ne hc.isPid hq hne
  · obtain ⟨q, hq, hx, h2⟩ := hc.calls _ c ((congrFun e7 _).symm.trans h)
    obtain rfl : k.running = q := pcbAddr_inj hc.isPid hq hx
    exact ⟨hx, h2⟩

theorem quiet_of_entered_dev (hc : Coherent k) (he : Entered k f ke) (dev : Devices) :
    Quiet k { ke with dev := dev } := by
  have h := quiet_of_entered hc he (ke.pcb (pcbAddr k.running)).fileArray dev
  have hk : ({ ke.setFiles (pcbAddr k.running) (ke.pcb (pcbAddr k.running)).fileArray with dev := dev } : Kernel) =
      { ke with dev := dev } := by
    simp [Kernel.setFiles, Kernel.setPcb]
  rwa [hk] at h

theorem quiet_of_entered_same (hc : Coherent k) (he : Entered k f ke) : Quiet k ke :=
  quiet_of_entered_dev hc he ke.dev

theorem Coherent.not_reading_user (hc : Coherent k) : k.reading (maskPcb usrStackAddr) = none := by
  by_contra h
  obtain ⟨c, hcall⟩ := Option.ne_none_iff_exists'.mp h
  obtain ⟨q, hq, hx, -⟩ := hc.calls _ c hcall
  exact maskPcb_user hq hx

/-- The base shell that halts is started again with its tables as they are. -/
theorem quiet_of_restart (hc : Coherent k) (he : Entered k f ke) (hu : k.reading (pcbAddr k.running) = none)
    (dev : Devices) : Quiet k ({ ke with dev := dev }.returnToUser k.running) := by
  have hq := quiet_of_entered_same hc he
  have e7 := he.reading
  refine
    { processArray := hq.processArray
      terminalArray := hq.terminalArray
      currTerminal := hq.currTerminal
      self := hq.self
      others := hq.others
      page := hq.page
      esp0 := hc.esp0.symm
      reading := hq.reading
      waiting := fun h => absurd ((congrFun e7 _).trans hu) h
      inUse := fun h => absurd ((congrFun e7 _).trans hc.not_reading_user) h
      calls := hq.calls
      mem := hq.mem }

/-- `read` up to `sti()`. -/
theorem quiet_of_beginRead (hc : Coherent k) (he : Entered k f ke) (fd : Int32) (buf : Option Buf)
    (nbytes : Int32) : Quiet k (beginRead ke fd buf nbytes).1 := by
  have hq := quiet_of_entered_same hc he
  have hm := he.mask hc
  unfold beginRead
  simp only [hm]
  split
  · refine
      { hq with
        reading := fun x hx => ?_
        waiting := fun _ => hm
        inUse := fun _ => hm
        calls := fun c h => ?_ }
    · exact (Function.update_of_ne hx ..).trans (hq.reading x hx)
    · simp only [Function.update_self, Option.some.injEq] at h
      subst h
      refine ⟨rfl, rfl, ?_⟩
      show InStack k.running ke.cpu.esp
      rw [he.esp]
      exact he.frame.inStack
  · exact hq

/-- `read` from `sti()` on completes the read that waits on the running process's stack. -/
theorem endRead_cases (hc : Coherent k) {img : Image} {line : Option Line}
    (h : endRead img k line = some (k', out)) :
    maskPcb k.cpu.esp = pcbAddr k.running ∧ ∃ call got fa, k.reading (pcbAddr k.running) = some call ∧
      readBody img (k.pcbOf k.running).fileArray call.slot call.buf call.nbytes line = some (got, fa) ∧
      out = .delivered got ∧
      k' = { k.setFiles (pcbAddr k.running) fa with
        reading := Function.update k.reading (pcbAddr k.running) none
        dev := readDevices k.dev ((k.pcbOf k.running).fileArray call.slot).fopJumpTable.readOp } := by
  unfold endRead at h
  cases hr : k.reading (maskPcb k.cpu.esp) with
  | none => simp [hr] at h
  | some call =>
    have hm := hc.inUse (by rw [hr]; simp)
    obtain ⟨q, hq, hx, hpcb, -⟩ := hc.calls _ _ hr
    rw [← hx, hm] at hpcb
    simp only [hr, hpcb] at h
    cases hb : readBody img (k.pcb (pcbAddr k.running)).fileArray call.slot call.buf call.nbytes line with
    | none => simp [hb] at h
    | some r =>
      simp only [hb, hm, Option.some.injEq, Prod.mk.injEq] at h
      obtain ⟨rfl, rfl⟩ := h
      rw [hm] at hr
      exact ⟨hm, call, r.1, r.2, hr, hb, rfl, rfl⟩

/-- `read` from `sti()` on. -/
theorem quiet_of_endRead (hc : Coherent k) {img : Image} {line : Option Line}
    (h : endRead img k line = some (k', out)) : Quiet k k' ∧ ∃ got, out = .delivered got := by
  obtain ⟨hm, call, got, fa, -, -, rfl, rfl⟩ := endRead_cases hc h
  refine ⟨?_, got, rfl⟩
  exact
    { processArray := rfl
      terminalArray := rfl
      currTerminal := rfl
      self := ⟨fa, setFiles_pcbOf_same⟩
      others := fun q hq hne => setFiles_pcbOf_ne hc.isPid hq hne
      page := rfl
      esp0 := rfl
      reading := fun x hx => Function.update_of_ne hx ..
      waiting := fun _ => hm
      inUse := fun _ => hm
      calls := fun c hcall => by simp at hcall
      mem := fun _ _ => rfl }

/-! ### One step -/

/-- The outcome of a step that leaves the process tables alone. -/
def Outcome.IsQuiet : Outcome → Prop
  | .started _ | .resumed _ | .switched _ => False
  | _ => True

/-- **What a step can do.** From a state in which the notions of the current process
agree, a step starts a process, resumes a parent, switches, or is quiet. -/
theorem step_cases {img : Image} {ev : Event} (hc : Coherent k) (h : step img k ev = some (k', out)) :
    (∃ f lo cmd args c, ev = .execute f lo (some cmd) ∧ (parseCommand cmd).2 = some args ∧ out = .started c ∧
      Started k f c args k') ∨
    (∃ f lo status par, ev = .halt f lo status ∧ out = .resumed par ∧ Resumed k par k') ∨
    (∃ f q, ev = .pitInt f ∧ out = .switched q ∧ Switched k f q k') ∨
    (out.IsQuiet ∧ Quiet k k') := by
  cases ev with
  | execute f lo command =>
    obtain ⟨ke, hent, hex⟩ := Option.bind_eq_some_iff.mp h
    obtain ⟨he, hu⟩ := entered_of_syscall hc hent
    rcases execute_cases hex with ⟨rfl, rfl⟩ | ⟨cmd, args, rfl, hargs, hpid, rfl, rfl⟩
    · exact Or.inr (Or.inr (Or.inr ⟨trivial, quiet_of_entered_same hc he⟩))
    · exact Or.inl ⟨f, lo, cmd, args, _, rfl, hargs, rfl, started_of_execute hc he hu args hpid⟩
  | halt f lo status =>
    obtain ⟨ke, hent, hh⟩ := Option.map_eq_some_iff.mp h
    obtain ⟨he, hu⟩ := entered_of_syscall hc hent
    rcases halt_cases hh with ⟨hpar, rfl, rfl⟩ | ⟨dev, ⟨rfl, rfl⟩ | ⟨rfl, rfl⟩⟩
    · rw [he.running, he.pcbOf] at hpar ⊢
      exact Or.inr (Or.inl ⟨f, lo, status, _, rfl, rfl, resumed_of_haltChild hc he hu hpar status⟩)
    · exact Or.inr (Or.inr (Or.inr ⟨trivial, quiet_of_entered_dev hc he dev⟩))
    · rw [he.running]
      exact Or.inr (Or.inr (Or.inr ⟨trivial, quiet_of_restart hc he hu dev⟩))
  | pitInt f =>
    obtain ⟨ke, hent, hp⟩ := Option.bind_eq_some_iff.mp h
    have he := entered_of_irq hc hent
    rcases pitInt_cases hc he hp with ⟨rfl, rfl⟩ | ⟨q, rfl, hs⟩
    · exact Or.inr (Or.inr (Or.inr ⟨trivial, quiet_of_entered_same hc he⟩))
    · exact Or.inr (Or.inr (Or.inl ⟨f, q, rfl, rfl, hs⟩))
  | openFile f filename =>
    obtain ⟨ke, hent, ho⟩ := Option.bind_eq_some_iff.mp h
    obtain ⟨he, -⟩ := entered_of_syscall hc hent
    obtain ⟨r, -, hr⟩ := Option.map_eq_some_iff.mp ho
    rw [he.mask hc] at hr
    simp only [Prod.mk.injEq] at hr
    obtain ⟨rfl, rfl⟩ := hr
    exact Or.inr (Or.inr (Or.inr ⟨trivial, quiet_of_entered hc he r.2 ke.dev⟩))
  | close f fd =>
    obtain ⟨ke, hent, hr⟩ := Option.map_eq_some_iff.mp h
    obtain ⟨he, -⟩ := entered_of_syscall hc hent
    rw [he.mask hc] at hr
    simp only [Prod.mk.injEq] at hr
    obtain ⟨rfl, rfl⟩ := hr
    exact Or.inr (Or.inr (Or.inr ⟨trivial, quiet_of_entered hc he _ ke.dev⟩))
  | read f fd buf nbytes =>
    obtain ⟨ke, hent, hr⟩ := Option.map_eq_some_iff.mp h
    obtain ⟨he, -⟩ := entered_of_syscall hc hent
    have hq := quiet_of_beginRead hc he fd buf nbytes
    have ho : (beginRead ke fd buf nbytes).2.IsQuiet := by
      unfold beginRead
      simp only
      split <;> trivial
    rw [hr] at hq ho
    exact Or.inr (Or.inr (Or.inr ⟨ho, hq⟩))
  | readDone line =>
    obtain ⟨hq, got, rfl⟩ := quiet_of_endRead hc h
    exact Or.inr (Or.inr (Or.inr ⟨trivial, hq⟩))
  | write f fd buf nbytes =>
    obtain ⟨ke, hent, hr⟩ := Option.map_eq_some_iff.mp h
    obtain ⟨he, -⟩ := entered_of_syscall hc hent
    simp only [Prod.mk.injEq] at hr
    obtain ⟨rfl, rfl⟩ := hr
    exact Or.inr (Or.inr (Or.inr ⟨trivial, quiet_of_entered_dev hc he _⟩))
  | getargs f buf nbytes =>
    obtain ⟨ke, hent, hr⟩ := Option.map_eq_some_iff.mp h
    obtain ⟨he, -⟩ := entered_of_syscall hc hent
    simp only [Prod.mk.injEq] at hr
    obtain ⟨rfl, rfl⟩ := hr
    refine Or.inr (Or.inr (Or.inr ⟨?_, quiet_of_entered_same hc he⟩))
    unfold getargs
    split
    · trivial
    · simp only
      split_ifs <;> trivial

theorem started_of_step {img : Image} {ev : Event} {c : ℤ} (hc : Coherent k)
    (h : step img k ev = some (k', .started c)) :
    ∃ f lo cmd args, ev = .execute f lo (some cmd) ∧ (parseCommand cmd).2 = some args ∧ Started k f c args k' := by
  rcases step_cases hc h with ⟨f, lo, cmd, args, d, hev, hargs, ho, hst⟩ | ⟨_, _, _, _, -, ho, -⟩ |
    ⟨_, _, -, ho, -⟩ | ⟨ho, -⟩
  · injection ho with ho
    exact ⟨f, lo, cmd, args, hev, hargs, ho ▸ hst⟩
  · cases ho
  · cases ho
  · exact ho.elim

theorem resumed_of_step {img : Image} {ev : Event} {par : ℤ} (hc : Coherent k)
    (h : step img k ev = some (k', .resumed par)) :
    ∃ f lo status, ev = .halt f lo status ∧ Resumed k par k' := by
  rcases step_cases hc h with ⟨_, _, _, _, _, -, -, ho, -⟩ | ⟨f, lo, status, p, hev, ho, hr⟩ |
    ⟨_, _, -, ho, -⟩ | ⟨ho, -⟩
  · cases ho
  · injection ho with ho
    exact ⟨f, lo, status, hev, ho ▸ hr⟩
  · cases ho
  · exact ho.elim

theorem switched_of_step {img : Image} {ev : Event} {q : ℤ} (hc : Coherent k)
    (h : step img k ev = some (k', .switched q)) : ∃ f, ev = .pitInt f ∧ Switched k f q k' := by
  rcases step_cases hc h with ⟨_, _, _, _, _, -, -, ho, -⟩ | ⟨_, _, _, _, -, ho, -⟩ |
    ⟨f, r, hev, ho, hsw⟩ | ⟨ho, -⟩
  · cases ho
  · cases ho
  · injection ho with ho
    exact ⟨f, hev, ho ▸ hsw⟩
  · exact ho.elim

end Step

end Mp3Kernel
