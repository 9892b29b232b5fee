/-
# The running system

A run of the system starts in a state `execute_shells` leaves (`Booted`) and takes
steps of the kernel in any order: whichever event happens next, happens. Its
history is the list of these steps (`History`).

`execute_shells` leaves the forest of three base shells (`Fresh`), so every state
of every run holds a forest (`rep_of_history`). From that the process tables'
invariant (`process_forest`) and the agreement of the kernel's notions of the
current process (`current_process`) are read off.

Key definitions: `Booted`, `History`.
Key theorems: `rep_of_history`, `history_inv`, `process_forest`, `current_process`.
-/
import Mp3Kernel.Basis.Past
import Mp3Kernel.Forest

namespace Mp3Kernel

/-! ### execute_shells -/

/-- The registers `execute_shells` saves for a base shell. -/
def shellSaved (i : ℤ) : ℕ := (kMemEnd - i * kStackSize - pushedRegsSize).toNat

/-- The PCB of a base shell that has not run. -/
structure ShellPcb (i : ℤ) (b : Pcb) : Prop where
  fileArray : b.fileArray = shellFiles i
  pid : b.pid = i
  leaf : b.leaf = 1
  terminal : b.terminal = i
  parentPid : b.parentPid = -1
  savedEsp : b.savedEsp = shellSaved i
  savedEbp : b.savedEbp = shellSaved i

/-- The state `execute_shells` leaves: three base shells, the first one running. -/
structure Fresh (k : Kernel) : Prop where
  currTerminal : k.currTerminal = 0
  terminalArray : ∀ t, k.terminalArray (num t) = num t
  live : ∀ t, k.processArray (num t) = 1
  dead : ∀ p, IsPid p → (∀ t, p ≠ num t) → k.processArray p = 0
  pcb : ∀ t, ShellPcb (num t) (k.pcbOf (num t))
  page : k.pageDirectory userProcessIndex = processEntry 0
  esp0 : k.esp0 = stackTop 0
  reading : ∀ x, k.reading x = none

/-- One turn of the loop of `execute_shells`. -/
structure ShellStarted (k : Kernel) (i : ℤ) (k' : Kernel) : Prop where
  terminalArray : k'.terminalArray = Function.update k.terminalArray i i
  processArray : k'.processArray = Function.update k.processArray i 1
  self : ShellPcb i (k'.pcbOf i)
  others : ∀ q, IsPid q → q ≠ i → k'.pcbOf q = k.pcbOf q
  page : k'.pageDirectory userProcessIndex = processEntry i
  esp0 : k'.esp0 = stackTop i
  reading : k'.reading = k.reading

theorem startShell_spec {img : Image} {bt : Boot} {inode : Int32} {k k' : Kernel} {i : ℤ} (hi : IsPid i)
    (h : startShell img bt inode k i = some k') : ShellStarted k i k' := by
  unfold startShell at h
  simp only at h
  -- the words pushed for the shells 1 and 2 are all that the two cases differ in
  split_ifs at h with hload h0
  all_goals
    obtain rfl := Option.some.inj h
    refine ⟨rfl, rfl, ?_, fun q hq hne => ?_, changeProcess_user k.pageDirectory i, rfl, rfl⟩
    · rw [setPcb_pcbOf_same]
      constructor <;> simp [Kernel.pcbOf, Kernel.setPcb, shellSaved]
    · have hqi : pcbAddr q ≠ pcbAddr i := pcbAddr_ne hq hi hne
      simp [Kernel.pcbOf, Kernel.setPcb, Kernel.changeProcess, hqi]

/-- `execute_shells`, when it succeeds, has found the shell's program, has loaded it for
the base shells 2, 1 and 0, and runs the last one. -/
theorem executeShells_loads {img : Image} {bt : Boot} {k0 k : Kernel} (h : executeShells img bt k0 = some k) :
    ∃ d k2 k1 ks, readDentryByName img.boot shellName = some d ∧
      startShell img bt d.inodeNum.toInt32 k0 2 = some k2 ∧ startShell img bt d.inodeNum.toInt32 k2 1 = some k1 ∧
      startShell img bt d.inodeNum.toInt32 k1 0 = some ks ∧
      k = { ks with currTerminal := (ks.pcbOf 0).terminal }.returnToUser (ks.pcbOf 0).pid := by
  unfold executeShells at h
  cases hd : readDentryByName img.boot shellName with
  | none => simp [hd] at h
  | some d =>
    simp only [hd] at h
    split_ifs at h with hr
    cases h2 : startShell img bt d.inodeNum.toInt32 k0 2 with
    | none => simp [h2] at h
    | some k2 =>
      simp only [h2] at h
      cases h1 : startShell img bt d.inodeNum.toInt32 k2 1 with
      | none => simp [h1] at h
      | some k1 =>
        simp only [h1] at h
        cases h0 : startShell img bt d.inodeNum.toInt32 k1 0 with
        | none => simp [h0] at h
        | some ks =>
          simp only [h0] at h
          exact ⟨d, k2, k1, ks, rfl, h2, h1, h0, (Option.some.inj h).symm⟩

theorem executeShells_cases {img : Image} {bt : Boot} {k0 k : Kernel} (h : executeShells img bt k0 = some k) :
    ∃ k2 k1 ks, ShellStarted k0 2 k2 ∧ ShellStarted k2 1 k1 ∧ ShellStarted k1 0 ks ∧
      k = { ks with currTerminal := (ks.pcbOf 0).terminal }.returnToUser (ks.pcbOf 0).pid := by
  obtain ⟨d, k2, k1, ks, -, h2, h1, h0, hk⟩ := executeShells_loads h
  exact ⟨k2, k1, ks, startShell_spec (by decide) h2, startShell_spec (by decide) h1,
    startShell_spec (by decide) h0, hk⟩

/-- The system after `execute_shells`: the process table was empty before it, and no
call was under way. -/
def Booted (img : Image) (k : Kernel) : Prop :=
  ∃ bt k0, executeShells img bt k0 = some k ∧ (∀ p, IsPid p → k0.processArray p = 0) ∧ ∀ x, k0.reading x = none

theorem fresh_of_booted {img : Image} {k : Kernel} (h : Booted img k) : Fresh k := by
  obtain ⟨bt, k0, hex, hdead, hread⟩ := h
  obtain ⟨k2, k1, ks, s2, s1, s0, rfl⟩ := executeShells_cases hex
  have hpcb : ∀ t, ShellPcb (num t) (ks.pcbOf (num t)) := by
    intro t
    fin_cases t
    · exact s0.self
    · show ShellPcb 1 (ks.pcbOf 1)
      rw [s0.others 1 (by decide) (by decide)]
      exact s1.self
    · show ShellPcb 2 (ks.pcbOf 2)
      rw [s0.others 2 (by decide) (by decide), s1.others 2 (by decide) (by decide)]
      exact s2.self
  refine
    { currTerminal := s0.self.terminal
      terminalArray := fun t => ?_
      live := fun t => ?_
      dead := fun p hp hne => ?_
      pcb := hpcb
      page := s0.page
      esp0 := congrArg stackTop s0.self.pid
      reading := fun x => ?_ }
  · show ks.terminalArray (num t) = num t
    rw [s0.terminalArray, s1.terminalArray, s2.terminalArray]
    fin_cases t <;> simp [num]
  · show ks.processArray (num t) = 1
    rw [s0.processArray, s1.processArray, s2.processArray]
    fin_cases t <;> simp [num]
  · show ks.processArray p = 0
    have h0 : p ≠ 0 := hne 0
    have h1 : p ≠ 1 := hne 1
    have h2 : p ≠ 2 := hne 2
    rw [s0.processArray, s1.processArray, s2.processArray, Function.update_of_ne h0, Function.update_of_ne h1,
      Function.update_of_ne h2]
    exact hdead p hp
  · show ks.reading x = none
    rw [s0.reading, s1.reading, s2.reading]
    exact hread x

/-- The forest of the three base shells. -/
def shells : Forest where
  procs :=
    { stk := fun t => [num t]
      nodup := fun t => List.nodup_singleton _
      disj := fun t u p ht hu => num_inj ((List.mem_singleton.mp ht).symm.trans (List.mem_singleton.mp hu)) }
  cur := 0
  root _ := rfl
  isPid p hp := by
    obtain ⟨t, ht⟩ := hp
    rw [List.mem_singleton.mp ht]
    exact isPid_num t

theorem onStack_shellSaved (t : Fin 3) : OnStack (num t) (shellSaved (num t)) (shellSaved (num t)) := by
  have hp := isPid_num t
  have h1 := pcbAddr_cast hp
  have h2 := stackTop_eq hp
  obtain ⟨h0, h6⟩ := hp
  have h3 : (shellSaved (num t) : ℤ) = 0x800000 - num t * 0x2000 - 68 := by
    simp only [shellSaved, kMemEnd, kStackSize, pushedRegsSize]
    omega
  refine ⟨?_, le_refl _, ?_⟩
  · simp only [pcbSize]
    omega
  · omega

/-- The state `execute_shells` leaves holds the forest of the base shells. -/
theorem rep_of_fresh {k : Kernel} (h : Fresh k) : Rep k shells := by
  have hmem : ∀ {t p}, p ∈ shells.procs.stk t → p = num t := fun hp => List.mem_singleton.mp hp
  have hrun : k.running = 0 := by
    unfold Kernel.running
    rw [h.currTerminal]
    exact h.terminalArray 0
  refine
    { cur := h.currTerminal
      head := fun t => by rw [h.terminalArray]; rfl
      live := fun p ⟨t, ht⟩ => by rw [hmem ht]; exact h.live t
      dead := fun p hp hn => h.dead p hp fun t ht => hn ⟨t, List.mem_singleton.mpr ht⟩
      pid := fun p ⟨t, ht⟩ => by rw [hmem ht]; exact (h.pcb t).pid
      terminal := fun t p ht => by rw [hmem ht]; exact (h.pcb t).terminal
      leaf := fun t => by rw [h.terminalArray]; exact (h.pcb t).leaf
      inner := fun t p hp => by cases hp
      linked := fun t => List.IsChain.singleton _
      root := fun t => (h.pcb t).parentPid
      frames := fun p ⟨t, ht⟩ hpar => ?_
      saved := fun t _ => ?_
      page := by rw [hrun]; exact h.page
      esp0 := by rw [hrun]; exact h.esp0
      waiting := fun hw => absurd (h.reading _) hw
      inUse := fun hw => absurd (h.reading _) hw
      calls := fun x c hx => ?_ }
  · rw [hmem ht, (h.pcb t).parentPid] at hpar
    omega
  · rw [h.terminalArray, (h.pcb t).savedEsp, (h.pcb t).savedEbp]
    exact onStack_shellSaved t
  · rw [h.reading x] at hx
    cases hx

/-! ### Runs -/

/-- What is recorded of a step: the event and how it ended. -/
abbrev Label := Event × Outcome

/-- The steps of a run, newest first. -/
abbrev Trace := List (Past.Entry Kernel Label)

/-- The run `tr` of the system over the image `img` ends in `k`. -/
abbrev History (img : Image) (tr : Trace) (k : Kernel) : Prop :=
  Past.Hist (Booted img) (fun s l s' => step img s l.1 = some (s', l.2)) tr k

/-- Every state of every run holds a forest. -/
theorem rep_of_history {img : Image} {tr : Trace} {k : Kernel} (h : History img tr k) : ∃ a, Rep k a := by
  refine Past.Hist.inv (fun _ s => ∃ a, Rep s a) (fun s hs => ⟨_, rep_of_fresh (fresh_of_booted hs)⟩) ?_ h
  rintro tr s l s' - ⟨a, ha⟩ hst
  obtain ⟨b, -, hb⟩ := step_refines ha hst
  exact ⟨b, hb⟩

/-- The invariant rule of the system: a property of states and their past holds in
every run if it holds after `execute_shells` and every step from a forest keeps it. -/
theorem history_inv {img : Image} (I : Trace → Kernel → Prop) (h0 : ∀ s, Fresh s → I [] s)
    (hs : ∀ tr s a ev out s', Rep s a → I tr s → step img s ev = some (s', out) → I (⟨s, (ev, out), s'⟩ :: tr) s')
    {tr : Trace} {k : Kernel} (h : History img tr k) : I tr k := by
  apply Past.Hist.inv I (fun s hb => h0 s (fresh_of_booted hb)) ?_ h
  rintro tr s ⟨ev, out⟩ s' hh hi hst
  obtain ⟨a, ha⟩ := rep_of_history hh
  exact hs tr s a ev out s' ha hi hst

/-- The pid a step starts. -/
def Outcome.child : Outcome → Option ℤ
  | .started c => some c
  | _ => none

theorem Outcome.started_of_child {out : Outcome} {p : ℤ} (h : out.child = some p) : out = .started p := by
  cases out <;> simp [Outcome.child] at h
  rw [h]

/-! ### A small system

An image with a directory, a program of 40 bytes named "shell", and the clock, on
which runs can be computed. -/

/-- A directory entry. -/
def smallDentry (name : List UInt8) (fileType inodeNum : UInt32) : Dentry where
  fileName i := name.getD i 0
  fileType := fileType
  inodeNum := inodeNum
  reserved _ := 0

def smallImage : Image where
  boot :=
    { numDentries := 3, numInodes := 2, numDataBlocks := 2
      dentries := fun i => match i.val with
        | 0 => smallDentry [0x2E] 1 0
        | 1 => smallDentry (shellName.take 5) 2 0
        | 2 => smallDentry [0x72, 0x74, 0x63] 0 0
        | _ => smallDentry [] 0 0 }
  inodes _ := { length := 40, dataBlock := fun _ => 1 }
  dataBlocks _ i := elfMagic.getD i (UInt8.ofNat i)

def smallBoot : Boot where
  eflags := 0x202
  pitIntRet := 0x401000
  buf _ := 0
  pages _ _ := 0

/-- The machine before `execute_shells`. -/
def offKernel : Kernel where
  processArray _ := 0
  terminalArray _ := -1
  currTerminal := 0
  pcb _ := ⟨[], fun i => initFd i 0, 0, 0, 0, 0, 0, 0, 0, 0⟩
  pageDirectory _ := 0
  esp0 := 0
  cpu := ⟨0, 0, 0, 0, fun _ => 0⟩
  reading _ := none
  dev := ⟨[], 0, 0, false⟩

def smallKernel : Kernel := (executeShells smallImage smallBoot offKernel).getD offKernel

theorem booted_smallKernel : Booted smallImage smallKernel := by
  refine ⟨smallBoot, offKernel, ?_, fun _ _ => rfl, fun _ => rfl⟩
  have h : (executeShells smallImage smallBoot offKernel).isSome = true := by decide +kernel
  obtain ⟨k, hk⟩ := Option.isSome_iff_exists.mp h
  rw [smallKernel, hk]
  rfl

/-- The history and the last state of a run of the small system; events newest first. -/
def smallRun (evs : List Event) : Trace × Kernel := (Past.run (step smallImage) smallKernel evs).getD ([], smallKernel)

theorem history_smallRun (evs : List Event) : History smallImage (smallRun evs).1 (smallRun evs).2 := by
  unfold smallRun
  cases h : Past.run (step smallImage) smallKernel evs with
  | none => exact Past.Hist.start booted_smallKernel
  | some r => exact Past.hist_of_run booted_smallKernel h

/-- A frame near the top of process `p`'s kernel stack. -/
def frameOf (p : ℤ) : Frame := ⟨stackTop p - 200, stackTop p - 100, fun _ => 7⟩

/-- Locals that happen to hold zeros. -/
def zeros : Leftover := ⟨fun _ => 0, [], fun _ => 0⟩

/-- The process an outcome hands the machine to. -/
def Outcome.next : Outcome → Option ℤ
  | .started p => some p
  | .resumed p => some p
  | .switched p => some p
  | _ => none

/-- The first base shell starts a shell of its own, and the timer interrupts it. -/
def spawn : List Event := [.pitInt (frameOf 3), .execute (frameOf 0) zeros (some shellName)]

/-! ### The process tables -/

/-- The chain of `parent_pid`s from `p` ends in the base shell `root`. -/
structure ParentChain (k : Kernel) (p root : ℤ) (l : List ℤ) : Prop where
  first : l.head? = some p
  links : Linked (fun q => (k.pcbOf q).parentPid) l
  nodup : l.Nodup
  last : l.getLast? = some root
  rootless : (k.pcbOf root).parentPid = -1

/-- What the process tables say, over the chains of the three terminals. -/
structure ProcessTables (k : Kernel) (chain : Fin 3 → List ℤ) : Prop where
  headLive : ∀ t, IsPid (k.terminalArray (num t)) ∧ k.processArray (k.terminalArray (num t)) = 1
  headLeaf : ∀ t, (k.pcbOf (k.terminalArray (num t))).leaf = 1
  headTerminal : ∀ t, (k.pcbOf (k.terminalArray (num t))).terminal = num t
  headPid : ∀ t, (k.pcbOf (k.terminalArray (num t))).pid = k.terminalArray (num t)
  chains : ∀ t, ParentChain k (k.terminalArray (num t)) (num t) (chain t)
  disjoint : ∀ t u p, p ∈ chain t → p ∈ chain u → t = u
  live : ∀ p, (∃ t, p ∈ chain t) ↔ IsPid p ∧ k.processArray p ≠ 0
  inner : ∀ p, IsPid p → k.processArray p ≠ 0 → (∀ t, p ≠ k.terminalArray (num t)) → (k.pcbOf p).leaf = 0

theorem Rep.processTables {k : Kernel} {a : Forest} (h : Rep k a) : ProcessTables k a.procs.stk := by
  refine
    { headLive := fun t => ⟨a.isPid _ (h.head_has t), h.live _ (h.head_has t)⟩
      headLeaf := h.leaf
      headTerminal := fun t => h.terminal t _ (h.head_mem t)
      headPid := fun t => h.pid _ (h.head_has t)
      chains := fun t => ⟨h.head t, h.linked t, a.procs.nodup t, a.root t, h.root t⟩
      disjoint := a.procs.disj
      live := fun p => ⟨fun hh => ⟨a.isPid p hh, ?_⟩, fun ⟨hp, hl⟩ => h.has_of_live hp hl⟩
      inner := fun p hp hl hne => ?_ }
  · rw [h.live p hh]
    norm_num
  · obtain ⟨t, ht⟩ := h.has_of_live hp hl
    by_contra hleaf
    exact hne t (h.head_of_leaf ht hleaf)

/-- **The process forest.** In every state of every run the process tables describe
three disjoint chains of live processes over the three base shells, whose heads are
the leaves; and the pid `execute` takes is never live, so no live PCB is
overwritten: only the caller's leaf flag is cleared. -/
theorem process_forest {img : Image} {tr : Trace} {k : Kernel} (h : History img tr k) :
    (∃ chain, ProcessTables k chain) ∧
      ∀ ev k' c, step img k ev = some (k', .started c) →
        k.processArray c = 0 ∧ k'.pcbOf k.running = { k.pcbOf k.running with leaf := 0 } ∧
          ∀ q, IsPid q → k.processArray q ≠ 0 → q ≠ k.running → k'.pcbOf q = k.pcbOf q := by
  obtain ⟨a, ha⟩ := rep_of_history h
  refine ⟨⟨_, ha.processTables⟩, fun ev k' c hst => ?_⟩
  obtain ⟨_, _, _, _, -, -, hs⟩ := started_of_step ha.coherent hst
  refine ⟨hs.free, hs.caller, fun q hq hl hne => hs.others q hq (fun he => hl ?_) hne⟩
  rw [he]
  exact hs.free

theorem process_forest_spawn :
    (smallRun spawn).2.processArray 3 = 1 ∧ ∃ chain, ProcessTables (smallRun spawn).2 chain :=
  ⟨by decide +kernel, (process_forest (history_smallRun spawn)).1⟩

/-! ### The current process -/

/-- **The current process.** In every state of every run one live pid is the process
of the terminal being run, the owner of the user page, the one whose kernel stack
`tss.esp0` names, one of the terminal being run, and the one whose PCB any pointer
into that stack is masked to, in particular the one of every kernel entry. -/
theorem current_process {img : Image} {tr : Trace} {k : Kernel} (h : History img tr k) :
    ∃ p, IsPid p ∧ k.processArray p = 1 ∧ k.terminalArray k.currTerminal = p ∧
      Maps (k.pageDirectory userProcessIndex) ((p + 2) * 0x400000).toNat ∧
      (k.esp0 : ℤ) = kMemEnd - p * kStackSize - 4 ∧ k.currTerminal = (k.pcbOf p).terminal ∧
      (∀ esp : ℕ, kMemEnd - (p + 1) * kStackSize ≤ esp → esp < kMemEnd - p * kStackSize →
        (maskPcb esp : ℤ) = kMemEnd - (p + 1) * kStackSize) ∧
      ∀ f ke, syscallEntry k f = some ke ∨ irqEntry k f = some ke →
        (maskPcb ke.cpu.esp : ℤ) = kMemEnd - (p + 1) * kStackSize := by
  obtain ⟨a, ha⟩ := rep_of_history h
  have hc := ha.coherent
  have hp := hc.isPid
  have hcast := pcbAddr_cast hp
  have hmask : ∀ f ke, Entered k f ke → (maskPcb ke.cpu.esp : ℤ) = kMemEnd - (k.running + 1) * kStackSize := by
    intro f ke he
    rw [he.mask hc]
    exact hcast
  refine ⟨k.running, hp, ha.live _ ha.running_has, rfl, ?_, ?_, hc.terminal.symm, fun esp h1 h2 => ?_, ?_⟩
  · rw [hc.page]
    exact maps_processEntry hp.1 hp.2
  · have htop := stackTop_eq hp
    rw [hc.esp0]
    simp only [kMemEnd, kStackSize]
    omega
  · simp only [kMemEnd, kStackSize] at h1 h2 ⊢
    rw [maskPcb_eq hp (by omega) (by omega)]
    exact hcast
  · rintro f ke (hent | hent)
    · exact hmask f ke (entered_of_syscall hc hent).1
    · exact hmask f ke (entered_of_irq hc hent)

theorem current_process_spawn :
    (smallRun spawn).2.currTerminal = 1 ∧ ∃ p, IsPid p ∧ (smallRun spawn).2.processArray p = 1 := by
  refine ⟨by decide +kernel, ?_⟩
  obtain ⟨p, hp, hl, -⟩ := current_process (history_smallRun spawn)
  exact ⟨p, hp, hl⟩

end Mp3Kernel
