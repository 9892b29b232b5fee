/-
# The wrappers: interrupts, exceptions, system calls and the library's calls

The processor enters the kernel in a few lines of assembly, int_wrapper.S and
ex_wrapper.S, that save registers, call a C function and return with `iret`; a user
program enters it from the library's `DO_CALL`. The C functions are given here by
what they do to the processor, and all that is known of them is the calling
convention (`Keeps`): a handler may leave anything in the caller-saved registers and
in the words of its arguments.

Nothing of that reaches the interrupted code. A device's interrupt leaves every
register as it was, in user code and in the kernel (`interrupts_transparent`); a
system call changes `eax` alone (`syscall_returns`), and the library's functions hand
over their C arguments and return the handler's value (`library_call`). An exception
that pushes an error code has no such return: the wrappers leave the code on the
stack, where `iret` takes it for the address to return to (`exception_returns`).

Key definitions: `sysIntW`, `rtcIntW`, `kbrdIntW`, `pitIntW`, `exW`, `doCall`, `start`.
Key theorems: `exec_saved`, `exec_sysRestore`, `sys_returns`, `syscall_returns`,
`interrupts_transparent`, `exception_returns`, `library_call`.
-/
import Mp3Kernel.Basis.Interrupts
import Mp3Kernel.Kernel

namespace Mp3Kernel

open Trap

/-- KERNEL_CS -/
abbrev kernelCS : ℕ := 0x10
/-- KERNEL_DS -/
abbrev kernelDS : ℕ := 0x18

/-! ### int_wrapper.S -/

/-- The lines before the call in every wrapper but the system calls'. -/
def saveAll : List Op := [.pushal, .pushfl]

/-- The lines behind it. -/
def restoreAll : List Op := [.popfl, .popal]

/-- `rtc_int_w` -/
def rtcIntW (rtcInt : Processor → Processor) (p : Processor) : Processor :=
  iret (exec (saveAll ++ [.call rtcInt] ++ restoreAll) p)

/-- `kbrd_int_w` -/
def kbrdIntW (kbrdInt : Processor → Processor) (p : Processor) : Processor :=
  iret (exec (saveAll ++ [.call kbrdInt] ++ restoreAll) p)

/-- The lines from `pit_int_ret` on. -/
def pitIntRet (p : Processor) : Processor := iret (exec (restoreAll ++ [.sti]) p)

/-- `pit_int_w` -/
def pitIntW (pitInt : Processor → Processor) (p : Processor) : Processor :=
  pitIntRet (exec (saveAll ++ [.call pitInt]) p)

/-- `syscall_error` -/
def syscallError (p : Processor) : Processor := iret (exec [.movlImm 0xFFFFFFFF .eax] p)

/-- The lines of `sys_int_w` before the call: the registers, and the arguments. -/
def sysSave : List Op :=
  [.pushl .esi, .pushl .edi, .pushl .ebx, .pushl .ecx, .pushl .edx, .pushfl, .pushl .edx, .pushl .ecx, .pushl .ebx]

/-- The lines behind it. -/
def sysRestore : List Op :=
  [.popl .ebx, .popl .ecx, .popl .edx, .popfl, .popl .edx, .popl .ecx, .popl .ebx, .popl .edi, .popl .esi]

/-- `sys_int_w`. The handlers are those of `sys_int_table`; the first comparison is one
of unsigned numbers, the second of signed ones. -/
def sysIntW (sysIntTable : ℕ → Processor → Processor) (p : Processor) : Processor :=
  if p.eax > 10 then syscallError p
  else if Int32.ofNat p.eax ≤ 0 then syscallError p
  else iret (exec (sysSave ++ [.call fun q => sysIntTable q.eax q] ++ sysRestore) p)

/-! ### ex_wrapper.S and ex_handler.c -/

/-- The exceptions `initialize_idt` gives a wrapper. -/
inductive Exception where
  | divideError | debug | nmiInt | breakpoint | overflow | boundRangeExceeded | opcodeInvalid | noDevice
  | doubleFault | coprocessorSegmentOverrun | tssInvalid | noSegment | stackFault | gpFault | pageFault | fpu
  | alignmentCheck | machineCheck | simd
  deriving DecidableEq

/-- The entry of the IDT. -/
def Exception.vector : Exception → ℕ
  | .divideError => 0x00
  | .debug => 0x01
  | .nmiInt => 0x02
  | .breakpoint => 0x03
  | .overflow => 0x04
  | .boundRangeExceeded => 0x05
  | .opcodeInvalid => 0x06
  | .noDevice => 0x07
  | .doubleFault => 0x08
  | .coprocessorSegmentOverrun => 0x09
  | .tssInvalid => 0x0A
  | .noSegment => 0x0B
  | .stackFault => 0x0C
  | .gpFault => 0x0D
  | .pageFault => 0x0E
  | .fpu => 0x10
  | .alignmentCheck => 0x11
  | .machineCheck => 0x12
  | .simd => 0x13

/-- What the handler prints. -/
def Exception.text : Exception → String
  | .divideError => "divide by zero exception"
  | .debug => "debug exception"
  | .nmiInt => "nmi int exception"
  | .breakpoint => "breakpoint exception"
  | .overflow => "overflow exception"
  | .boundRangeExceeded => "bound range exceeded exception"
  | .opcodeInvalid => "opcode invalid exception"
  | .noDevice => "no device found exception"
  | .doubleFault => "double fault exception"
  | .coprocessorSegmentOverrun => "coprocessor segment overrun exception"
  | .tssInvalid => "tss invalid exception"
  | .noSegment => "no segment found exception"
  | .stackFault => "stack fault exception"
  | .gpFault => "gp fault exception"
  | .pageFault => "page fault exception"
  | .fpu => "fpu exception"
  | .alignmentCheck => "alignment check exception"
  | .machineCheck => "machine check exception"
  | .simd => "simd floating point exception"

/-- The processor pushes an error code behind the return address. -/
def Exception.PushesCode (e : Exception) : Prop := e.vector ∈ [8, 10, 11, 12, 13, 14, 17]

instance (e : Exception) : Decidable e.PushesCode := by unfold Exception.PushesCode; infer_instance

/-- The words an exception adds to those of an interrupt, when its code is `c`. -/
def Exception.code (e : Exception) (c : ℕ) : Option ℕ := if e.PushesCode then some c else none

/-- `divide_error_ex` and the other handlers, run with `ds` in the data segment
register: `none` is the endless loop. -/
def exHandler (printf : String → Processor → Processor) (e : Exception) (ds : ℕ) (p : Processor) :
    Option Processor :=
  let q := printf e.text { p with eflags := p.eflags &&& 0xFFFFFDFF }
  if ds ≠ userDS then none else some q

/-- `divide_error_ex_w` and the other wrappers. -/
def exW (printf : String → Processor → Processor) (e : Exception) (ds : ℕ) (p : Processor) : Option Processor :=
  (exHandler printf e ds (exec saveAll p)).map fun q => iret (exec restoreAll q)

/-! ### ece391syscall.S -/

/-- `int 0x80`: the interrupt, and `sys_int_w`. -/
def int80 (tss : Tss) (sysIntTable : ℕ → Processor → Processor) (p : Processor) : Processor :=
  sysIntW sysIntTable (interrupt kernelCS tss none p)

/-- `DO_CALL` up to `int 0x80`: the call's number and the C arguments in registers. -/
def doCallLoad (number : ℕ) : List Op :=
  [.pushl .ebx, .movlImm number .eax, .movlStack 2 .ebx, .movlStack 3 .ecx, .movlStack 4 .edx]

/-- The function `DO_CALL` defines for a system call. -/
def doCall (tss : Tss) (sysIntTable : ℕ → Processor → Processor) (number : ℕ) (p : Processor) : Processor :=
  (exec [.popl .ebx] (int80 tss sysIntTable (exec (doCallLoad number) p))).ret

/-- SYS_HALT -/
abbrev sysHalt : ℕ := 1

/-- `_start`, up to the `int 0x80` of `ece391_halt`; `eip` is the address behind its
call of that function. -/
def start (main : Processor → Processor) (eip : ℕ) (p : Processor) : Processor :=
  exec (doCallLoad sysHalt) (exec [.call main, .pushlImm 0, .pushlImm 0, .pushl .eax, .pushlImm eip] p)

/-! ### Saving and restoring -/

section Restore

variable {p q : Processor} {base : ℕ}

/-- The lines behind the call take the flags and the registers from the stack; the stack
pointer among them is skipped. -/
theorem exec_restoreAll {flags : ℕ} (h : OnTop q.mem q.esp (flags :: p.general.reverse)) :
    exec restoreAll q = { q with
      eflags := flags, eax := p.eax, ecx := p.ecx, edx := p.edx, ebx := p.ebx, ebp := p.ebp, esi := p.esi
      edi := p.edi, esp := q.esp + 36 } := by
  have hpopfl : Op.popfl.exec q = { q with eflags := flags }.drop 1 := by
    show { q with eflags := q.word 0 }.drop 1 = _
    rw [show q.word 0 = flags from h.head]
  have hpopal := exec_popal (p := p) (q := Op.popfl.exec q) (by rw [hpopfl]; exact h.tail)
  show Op.popal.exec (Op.popfl.exec q) = _
  rw [hpopal, hpopfl]
  rfl

/-- What a wrapper saved comes back, whatever a function that keeps the calling
convention has left in the registers. -/
theorem exec_saved (hroom : 36 ≤ p.esp) (hbase : p.esp ≤ base) (hk : Keeps base 0 (exec saveAll p) q) :
    exec restoreAll q = { p with eip := q.eip, mem := q.mem } ∧ ∀ a, p.esp ≤ a → a < base → q.mem a = p.mem a := by
  have hpush : exec saveAll p = p.pushes (p.general ++ [p.eflags]) := rfl
  have hlen : (p.general ++ [p.eflags]).length = 9 := rfl
  have hesp : (exec saveAll p).esp = p.esp - 36 := by rw [hpush, pushes_esp, hlen]
  have hsaved : OnTop (exec saveAll p).mem (exec saveAll p).esp (p.eflags :: p.general.reverse) :=
    (OnTop.nil p.mem p.esp).pushes (p.general ++ [p.eflags]) (by omega)
  have hwords : OnTop q.mem q.esp (p.eflags :: p.general.reverse) :=
    hk.onTop hsaved (by rw [hesp, List.length_cons, List.length_reverse, show p.general.length = 8 from rfl]; omega)
  constructor
  · have hback : q.esp + 36 = p.esp := by
      rw [hk.esp, hesp]
      omega
    rw [exec_restoreAll hwords, hback, hk.cs, hk.ss]
    rfl
  · intro a ha hlt
    rw [hk.stack a (by omega) hlt, hpush]
    exact pushes_mem _ (by omega) (Or.inr ha)

/-- The words `sys_int_w` saves below the arguments. -/
def sysSaved (p : Processor) : List ℕ := [p.eflags, p.edx, p.ecx, p.ebx, p.edi, p.esi]

/-- The saved registers are taken from behind the words of the arguments. -/
theorem exec_sysRestore (h : OnTop q.mem (q.esp + 12) (sysSaved p)) :
    exec sysRestore q = { q with
      eflags := p.eflags, edx := p.edx, ecx := p.ecx, ebx := p.ebx, edi := p.edi, esi := p.esi
      esp := q.esp + 36 } := by
  have hargs : OnTop q.mem q.esp [q.word 0, q.word 1, q.word 2] := by
    intro i hi
    match i, hi with
    | 0, _ => rfl
    | 1, _ => rfl
    | 2, _ => rfl
  have hpop := exec_pops [(.ebx, q.word 0), (.ecx, q.word 1), (.edx, q.word 2)] hargs
  obtain ⟨q', hq'⟩ : ∃ q', q' = exec [.popl .ebx, .popl .ecx, .popl .edx] q := ⟨_, rfl⟩
  have hafter : q' = { q with ebx := q.word 0, ecx := q.word 1, edx := q.word 2, esp := q.esp + 12 } := hq'.trans hpop
  have hflags : Op.popfl.exec q' = { q' with eflags := p.eflags, esp := q.esp + 16 } := by
    show { q' with eflags := q'.word 0 }.drop 1 = _
    rw [hafter]
    show { q with
      ebx := q.word 0, ecx := q.word 1, edx := q.word 2, eflags := q.mem (q.esp + 12), esp := q.esp + 12 + 4 } = _
    rw [h.head]
  have hsaved : OnTop (Op.popfl.exec q').mem (Op.popfl.exec q').esp [p.edx, p.ecx, p.ebx, p.edi, p.esi] := by
    rw [hflags, hafter]
    exact h.tail
  have hregs := exec_pops [(.edx, p.edx), (.ecx, p.ecx), (.ebx, p.ebx), (.edi, p.edi), (.esi, p.esi)] hsaved
  calc exec sysRestore q
      = exec [.popl .edx, .popl .ecx, .popl .ebx, .popl .edi, .popl .esi] (Op.popfl.exec q') := by rw [hq']; rfl
    _ = _ := hregs
    _ = _ := by rw [hflags, hafter]; rfl

end Restore

/-! ### The return from an interrupt -/

section Return

variable {tss : Tss} {p q : Processor} {base : ℕ}

/-- The words of an interrupt, above the ones a wrapper uses. -/
theorem entry_onTop {mem : ℕ → ℕ} {a : ℕ} {error : Option ℕ}
    (hi : Interrupted kernelCS tss error p q) (hroom : 4 * (entryWords p ++ error.toList).length ≤ entryBase tss p)
    (hmem : ∀ b, q.esp ≤ b → b < entryBase tss p → mem b = q.mem b) (ha : a = q.esp) :
    OnTop mem a (error.toList ++ (entryWords p).reverse) := by
  rw [ha]
  have hesp := hi.esp
  apply hi.words.congr
  intro b hb hlt
  apply hmem b hb
  simp only [List.length_append, List.length_reverse] at hlt hroom hesp
  omega

theorem length_entryWords : (entryWords p).length = if p.User then 5 else 3 := by
  unfold entryWords
  split_ifs <;> rfl

/-- `iret` behind a wrapper leads back to the interrupted code, if the stack pointer is
where the interrupt left it. -/
theorem iret_interrupted (hi : Interrupted kernelCS tss none p q) (hcs : p.cs % 4 = 0 ∨ p.User)
    (hroom : 4 * (entryWords p).length ≤ entryBase tss p) {r : Processor} (hesp : r.esp = q.esp) (hk : r.cs % 4 = 0)
    (hss : ¬ p.User → r.ss = p.ss) (hmem : ∀ a, q.esp ≤ a → a < entryBase tss p → r.mem a = q.mem a) :
    iret r = { r with eip := p.eip, cs := p.cs, eflags := p.eflags, esp := p.esp, ss := p.ss } := by
  apply iret_of_onTop ?_ hk hcs
  · intro hkernel
    refine ⟨?_, hss hkernel⟩
    have h := hi.esp
    rw [Option.toList_none, List.append_nil, length_entryWords, if_neg hkernel, entryBase, if_neg hkernel] at h
    rw [length_entryWords, if_neg hkernel, entryBase, if_neg hkernel] at hroom
    omega
  · have htop := entry_onTop hi (by rwa [Option.toList_none, List.append_nil]) hmem hesp
    rwa [Option.toList_none, List.nil_append] at htop

/-- A wrapper around a function that keeps the calling convention: the state before
`iret` is the one the interrupt left, but for words below it. -/
theorem wrapped {f : Processor → Processor} {i : Processor} (hroom : 36 ≤ i.esp) (hbase : i.esp ≤ base)
    (hk : Keeps base 0 (exec saveAll i) (f (exec saveAll i))) :
    ∃ eip mem, exec (saveAll ++ [.call f] ++ restoreAll) i = { i with eip := eip, mem := mem } ∧
      ∀ a, i.esp ≤ a → a < base → mem a = i.mem a := by
  obtain ⟨hback, hmem⟩ := exec_saved hroom hbase hk
  refine ⟨(f (exec saveAll i)).eip, (f (exec saveAll i)).mem, ?_, hmem⟩
  rw [exec_append, exec_append]
  exact hback

/-- So the interrupted code goes on with the registers it had. -/
theorem iret_resumes {i : Processor} (hi : Interrupted kernelCS tss none p i) (hcs : p.cs % 4 = 0 ∨ p.User)
    (hroom : 4 * (entryWords p).length ≤ entryBase tss p) {eip eflags : ℕ} {mem : ℕ → ℕ}
    (hmem : ∀ a, i.esp ≤ a → a < entryBase tss p → mem a = i.mem a) :
    iret { i with eip := eip, eflags := eflags, mem := mem } = { p with mem := mem } := by
  have hk : i.cs = kernelCS := by rw [hi.rest]
  have hss : ¬ p.User → i.ss = p.ss := by
    intro hkernel
    rw [hi.rest]
    exact if_neg hkernel
  rw [iret_interrupted (r := { i with eip := eip, eflags := eflags, mem := mem }) hi hcs hroom rfl
    (show i.cs % 4 = 0 by rw [hk]; decide) hss hmem]
  show ({ i with eip := p.eip, cs := p.cs, eflags := p.eflags, esp := p.esp, ss := p.ss, mem := mem } : Processor) = _
  rw [hi.rest]

end Return

/-! ### Interrupts of the devices -/

/-- An interrupt of the device whose handler is `handler`. -/
inductive DeviceWrapper where
  | pit | rtc | kbrd
  deriving DecidableEq

/-- The wrapper of a device. -/
def DeviceWrapper.run : DeviceWrapper → (Processor → Processor) → Processor → Processor
  | .pit => pitIntW
  | .rtc => rtcIntW
  | .kbrd => kbrdIntW

/-- **Interrupts are transparent.** Whatever a device's handler does within the calling
convention, the code interrupted, in user mode or in the kernel, goes on with all its
registers and flags, and what lay on the kernel stack lies there still. -/
theorem interrupts_transparent (w : DeviceWrapper) (tss : Tss) (handler : Processor → Processor) (p : Processor)
    (base : ℕ) (hcs : p.cs % 4 = 0 ∨ p.User) (hroom : 56 ≤ entryBase tss p) (hbase : entryBase tss p ≤ base)
    (hkeeps : ∀ q, q.esp < base → Keeps base 0 q (handler q)) :
    ∃ mem, w.run handler (interrupt kernelCS tss none p) = { p with mem := mem } ∧
      ∀ a, entryBase tss p ≤ a → a < base → mem a = p.mem a := by
  have hlen : 4 * (entryWords p).length ≤ 20 := by
    rw [length_entryWords]
    split_ifs <;> omega
  have hi := interrupted kernelCS tss none p (by rw [Option.toList_none, List.append_nil]; omega)
  obtain ⟨i, hint⟩ : ∃ i, i = interrupt kernelCS tss none p := ⟨_, rfl⟩
  rw [← hint] at hi ⊢
  have hesp := hi.esp
  rw [Option.toList_none, List.append_nil] at hesp
  have hsave : (exec saveAll i).esp < base := by
    have : (exec saveAll i).esp = i.esp - 36 := pushes_esp (i.general ++ [i.eflags]) i
    omega
  obtain ⟨eip, mem, hback, hmem⟩ := wrapped (by omega) (by omega) (hkeeps _ hsave)
  refine ⟨mem, ?_, fun a ha hlt => ?_⟩
  · have hres : ∀ flags, iret { i with eip := eip, eflags := flags, mem := mem } = { p with mem := mem } :=
      fun flags => iret_resumes hi hcs (by omega) fun a ha hlt => hmem a ha (by omega)
    cases w with
    | pit =>
      show pitIntW handler i = _
      rw [pitIntW, pitIntRet, exec_append, ← exec_append _ restoreAll, hback]
      exact hres (i.eflags ||| 0x200)
    | rtc =>
      show rtcIntW handler i = _
      rw [rtcIntW, hback]
      exact hres i.eflags
    | kbrd =>
      show kbrdIntW handler i = _
      rw [kbrdIntW, hback]
      exact hres i.eflags
  · rw [hmem a (by omega) hlt]
    exact hi.mem a (Or.inr ha)

/-- A function that overwrites the caller-saved registers, the flags and the free words
of the stack. -/
def clobber (p : Processor) : Processor :=
  { p with eax := 1, ecx := 2, edx := 3, eflags := 0, mem := fun a => if a < p.esp then 4 else p.mem a }

theorem keeps_clobber (base args : ℕ) (p : Processor) : Keeps base args p (clobber p) := by
  refine ⟨rfl, rfl, rfl, rfl, rfl, rfl, rfl, fun a ha _ => ?_⟩
  exact if_neg (by omega)

/-- A user program in the middle of its stack, with numbers in its registers. -/
def userProcessor (eax : ℕ) : Processor where
  eax := eax
  esp := 0x83FFF00
  ebp := 0x83FFF80
  eip := 0x8048000
  mem a := a
  ecx := 11
  edx := 12
  ebx := 13
  esi := 14
  edi := 15
  eflags := 0x202
  cs := userCS
  ss := userDS

/-- The first process's kernel stack. -/
def firstTss : Tss := ⟨0x7FFFFC, kernelDS⟩

theorem interrupts_transparent_clobber : ∃ mem,
    DeviceWrapper.pit.run clobber (interrupt kernelCS firstTss none (userProcessor 0)) =
      { userProcessor 0 with mem := mem } := by
  obtain ⟨mem, h, -⟩ := interrupts_transparent .pit firstTss clobber (userProcessor 0) 0x7FFFFC (Or.inr (by decide))
    (by decide) (by decide) fun q _ => keeps_clobber _ _ q
  exact ⟨mem, h⟩

/-! ### System calls -/

section Syscall

variable {tss : Tss} {p : Processor}

/-- The state in which `sys_int_w` calls a handler for `p`: its arguments are the three
registers, and above them lies what the wrapper and the interrupt have saved. -/
structure HandlerCalled (tss : Tss) (p q : Processor) : Prop where
  esp : q.esp + 56 = tss.esp0
  arguments : OnTop q.mem q.esp [p.ebx, p.ecx, p.edx]
  saved : OnTop q.mem (q.esp + 12) (sysSaved { p with eflags := gateFlags p.eflags })
  entry : OnTop q.mem (q.esp + 36) [p.eip, p.cs, p.eflags, p.esp, p.ss]
  mem : ∀ a, a < q.esp ∨ tss.esp0 ≤ a → q.mem a = p.mem a
  rest : q = { p with
    esp := q.esp, mem := q.mem, cs := kernelCS, ss := tss.ss0, eflags := gateFlags p.eflags }

theorem handler_called (huser : p.User) (hroom : 56 ≤ tss.esp0) :
    HandlerCalled tss p (exec sysSave (interrupt kernelCS tss none p)) := by
  have hlen : (entryWords p).length = 5 := by rw [length_entryWords, if_pos huser]
  have hbase : entryBase tss p = tss.esp0 := if_pos huser
  have hwords : (entryWords p).reverse = [p.eip, p.cs, p.eflags, p.esp, p.ss] := by
    rw [entryWords, if_pos huser]
    rfl
  have hi := interrupted kernelCS tss none p (by rw [Option.toList_none, List.append_nil]; omega)
  obtain ⟨i, hint⟩ : ∃ i, i = interrupt kernelCS tss none p := ⟨_, rfl⟩
  rw [← hint] at hi ⊢
  obtain ⟨ws, hws⟩ : ∃ ws, ws = [i.esi, i.edi, i.ebx, i.ecx, i.edx, i.eflags, i.edx, i.ecx, i.ebx] := ⟨_, rfl⟩
  have hpush : exec sysSave i = i.pushes ws := by rw [hws]; rfl
  have hws9 : ws.length = 9 := by rw [hws]; rfl
  have hesp := hi.esp
  rw [Option.toList_none, List.append_nil, hlen, hbase] at hesp
  have hpushed := pushes_esp ws i
  have hregs : ws.reverse = [p.ebx, p.ecx, p.edx] ++ sysSaved { p with eflags := gateFlags p.eflags } := by
    rw [hws, hi.rest]
    rfl
  have hstack := hi.words.pushes ws (by omega)
  rw [hregs, Option.toList_none, List.nil_append, hwords, List.append_assoc, onTop_append, onTop_append] at hstack
  obtain ⟨hargs, hsaved, hentry⟩ := hstack
  rw [hpush]
  refine ⟨by omega, hargs, hsaved, hentry, fun a ha => ?_, ?_⟩
  · rw [pushes_mem ws (by omega) (by omega)]
    exact hi.mem a (by omega)
  · rw [pushes_rest, hi.rest, if_pos huser]

/-- What `sys_int_w` saved is given back to `p` with the `eax` and the memory a handler
leaves. -/
theorem sys_returns {r : Processor} (huser : p.User) (hcs : r.cs = kernelCS) (hebp : r.ebp = p.ebp)
    (hsaved : OnTop r.mem (r.esp + 12) (sysSaved { p with eflags := gateFlags p.eflags }))
    (hentry : OnTop r.mem (r.esp + 36) [p.eip, p.cs, p.eflags, p.esp, p.ss]) :
    iret (exec sysRestore r) = { p with eax := r.eax, mem := r.mem } := by
  have hwords : (entryWords p).reverse = [p.eip, p.cs, p.eflags, p.esp, p.ss] := by
    rw [entryWords, if_pos huser]
    rfl
  rw [exec_sysRestore hsaved, iret_of_onTop (p := p) (by rw [hwords]; exact hentry) (by rw [hcs]; rfl)
    (Or.inr huser) (fun h => absurd huser h), hebp]

/-- A handler that keeps the calling convention is followed by the return of the system
call: `eax` and the memory are the handler's. -/
theorem handler_returns {q r : Processor} (hq : HandlerCalled tss p q) (huser : p.User)
    (hk : Keeps tss.esp0 3 q r) : iret (exec sysRestore r) = { p with eax := r.eax, mem := r.mem } := by
  have hesp := hq.esp
  have hcs : r.cs = kernelCS := by rw [hk.cs, hq.rest]
  have hebp : r.ebp = p.ebp := by rw [hk.ebp, hq.rest]
  have hsaved := hk.onTop hq.saved (by rw [show (sysSaved _).length = 6 from rfl]; omega)
  have hentry : OnTop r.mem (r.esp + 36) [p.eip, p.cs, p.eflags, p.esp, p.ss] := by
    rw [hk.esp]
    exact hq.entry.congr fun b hb hlt => hk.stack b (by omega) (by
      simp only [List.length_cons, List.length_nil] at hlt
      omega)
  exact sys_returns huser hcs hebp hsaved hentry

/-- The numbers 1 to 10 pass both comparisons. -/
theorem int80_handled {sysIntTable : ℕ → Processor → Processor} (huser : p.User) (hroom : 56 ≤ tss.esp0)
    (hlow : 1 ≤ p.eax) (hhigh : p.eax ≤ 10)
    (hkeeps : ∀ q, q.esp + 56 = tss.esp0 → Keeps tss.esp0 3 q (sysIntTable p.eax q)) :
    ∃ q, HandlerCalled tss p q ∧ int80 tss sysIntTable p =
      { p with eax := (sysIntTable p.eax q).eax, mem := (sysIntTable p.eax q).mem } := by
  have hbase : entryBase tss p = tss.esp0 := if_pos huser
  have hi := interrupted kernelCS tss none p (by
    rw [Option.toList_none, List.append_nil, length_entryWords, if_pos huser]
    omega)
  have heax : (interrupt kernelCS tss none p).eax = p.eax := by rw [hi.rest]
  have hq := handler_called huser hroom
  have hpos : ¬ Int32.ofNat p.eax ≤ 0 := by
    interval_cases p.eax <;> decide
  refine ⟨_, hq, ?_⟩
  rw [int80, sysIntW, heax, if_neg (by omega), if_neg hpos, exec_append, exec_append]
  show iret (exec sysRestore (sysIntTable (exec sysSave (interrupt kernelCS tss none p)).eax _)) = _
  rw [show (exec sysSave (interrupt kernelCS tss none p)).eax = p.eax by rw [hq.rest]]
  exact handler_returns hq huser (hkeeps _ hq.esp)

theorem iret_error {i : Processor} (hi : Interrupted kernelCS tss none p i) (huser : p.User)
    (hroom : 4 * (entryWords p).length ≤ entryBase tss p) :
    syscallError i = { p with eax := 2 ^ 32 - 1, mem := i.mem } := by
  have hcs : i.cs = kernelCS := by rw [hi.rest]
  show iret { i with eax := 2 ^ 32 - 1 } = _
  rw [iret_interrupted (r := { i with eax := 2 ^ 32 - 1 }) hi (Or.inr huser) hroom rfl
    (show i.cs % 4 = 0 by rw [hcs]; decide) (fun h => absurd huser h) fun a _ _ => rfl]
  show ({ i with
    eax := 2 ^ 32 - 1, eip := p.eip, cs := p.cs, eflags := p.eflags, esp := p.esp, ss := p.ss } : Processor) = _
  rw [hi.rest]

/-- **A system call changes `eax`.** A call with one of the numbers 1 to 10 reaches the
handler of that number, with the three arguments on its stack, and the user program
goes on with all its registers and flags but `eax`, which is what the handler
returned. With any other number no handler runs, and -1 is returned. -/
theorem syscall_returns (tss : Tss) (sysIntTable : ℕ → Processor → Processor) (p : Processor) (huser : p.User)
    (hroom : 56 ≤ tss.esp0) (hkeeps : ∀ n q, q.esp + 56 = tss.esp0 → Keeps tss.esp0 3 q (sysIntTable n q)) :
    (1 ≤ p.eax ∧ p.eax ≤ 10 → ∃ q, HandlerCalled tss p q ∧
      int80 tss sysIntTable p =
        { p with eax := (sysIntTable p.eax q).eax, mem := (sysIntTable p.eax q).mem }) ∧
    (p.eax = 0 ∨ 10 < p.eax → ∃ mem, int80 tss sysIntTable p = { p with eax := 2 ^ 32 - 1, mem := mem } ∧
      ∀ a, a + 20 < tss.esp0 ∨ tss.esp0 ≤ a → mem a = p.mem a) := by
  have hlen : (entryWords p).length = 5 := by rw [length_entryWords, if_pos huser]
  have hbase : entryBase tss p = tss.esp0 := if_pos huser
  have hi := interrupted kernelCS tss none p (by rw [Option.toList_none, List.append_nil]; omega)
  have heax : (interrupt kernelCS tss none p).eax = p.eax := by rw [hi.rest]
  constructor
  · rintro ⟨hlow, hhigh⟩
    exact int80_handled huser hroom hlow hhigh (hkeeps p.eax)
  · intro hnum
    have herror : int80 tss sysIntTable p = syscallError (interrupt kernelCS tss none p) := by
      rw [int80, sysIntW, heax]
      rcases hnum with hzero | hbig
      · rw [if_neg (by omega), if_pos (by rw [hzero]; decide)]
      · rw [if_pos hbig]
    have hesp := hi.esp
    rw [Option.toList_none, List.append_nil, hlen, hbase] at hesp
    refine ⟨(interrupt kernelCS tss none p).mem, ?_, fun a ha => hi.mem a (by omega)⟩
    rw [herror]
    exact iret_error hi huser (by omega)

theorem syscall_returns_write : ∃ q, HandlerCalled firstTss (userProcessor 4) q ∧
    int80 firstTss (fun _ => clobber) (userProcessor 4) =
      { userProcessor 4 with eax := 1, mem := (clobber q).mem } := by
  obtain ⟨h, -⟩ := syscall_returns firstTss (fun _ => clobber) (userProcessor 4) (by decide) (by decide)
    fun _ q _ => keeps_clobber _ _ q
  exact h (by decide)

end Syscall

/-! ### The library -/

section Library

variable {tss : Tss} {p : Processor}

/-- The registers `DO_CALL` loads: it has pushed `ebx`, so the arguments lie a word further. -/
theorem exec_doCallLoad (number : ℕ) (hroom : 4 ≤ p.esp) :
    exec (doCallLoad number) p = { p with
      eax := number, ebx := p.word 1, ecx := p.word 2, edx := p.word 3, esp := p.esp - 4
      mem := Function.update p.mem (p.esp - 4) p.ebx } := by
  have hword : ∀ i, Function.update p.mem (p.esp - 4) p.ebx (p.esp - 4 + 4 * (i + 1)) = p.word i := by
    intro i
    rw [Function.update_of_ne (by omega), show p.esp - 4 + 4 * (i + 1) = p.esp + 4 * i by omega]
    rfl
  show ({ p with
      eax := number, ebx := Function.update p.mem (p.esp - 4) p.ebx (p.esp - 4 + 4 * (1 + 1))
      ecx := Function.update p.mem (p.esp - 4) p.ebx (p.esp - 4 + 4 * (2 + 1))
      edx := Function.update p.mem (p.esp - 4) p.ebx (p.esp - 4 + 4 * (3 + 1)), esp := p.esp - 4
      mem := Function.update p.mem (p.esp - 4) p.ebx } : Processor) = _
  rw [hword, hword, hword]

/-- **A C call of a library function is a call of the handler.** The handler of the
function's number gets the caller's three C arguments, whatever their number; its result
is the function's, and the callee-saved registers are back, if the handler leaves alone
the two words of the user stack in between. -/
theorem library_call (tss : Tss) (sysIntTable : ℕ → Processor → Processor) (number : ℕ) (p : Processor)
    (huser : p.User) (hnum : 1 ≤ number ∧ number ≤ 10) (hroom : 56 ≤ tss.esp0) (hhigh : tss.esp0 + 4 ≤ p.esp)
    (hkeeps : ∀ n q, q.esp + 56 = tss.esp0 → Keeps tss.esp0 3 q (sysIntTable n q))
    (hstack : ∀ q a, q.esp + 56 = tss.esp0 → a = p.esp - 4 ∨ a = p.esp →
      (sysIntTable number q).mem a = q.mem a) :
    ∃ q, q.eax = number ∧ OnTop q.mem q.esp [p.word 1, p.word 2, p.word 3] ∧
      (∀ a, p.esp ≤ a → q.mem a = p.mem a) ∧
      doCall tss sysIntTable number p = { p with
        eax := (sysIntTable number q).eax, ecx := p.word 2, edx := p.word 3, eip := p.word 0, esp := p.esp + 4
        mem := (sysIntTable number q).mem } := by
  have hload := exec_doCallLoad (p := p) number (by omega)
  obtain ⟨l, hl⟩ : ∃ l, l = exec (doCallLoad number) p := ⟨_, rfl⟩
  rw [← hl] at hload
  have heax : l.eax = number := by rw [hload]
  have hluser : l.User := by rw [hload]; exact huser
  obtain ⟨q, hq, hint⟩ := int80_handled hluser hroom (by omega) (by omega) (hkeeps l.eax)
  rw [heax] at hint
  have hmem : ∀ a, tss.esp0 ≤ a → q.mem a = l.mem a := fun a ha => hq.mem a (Or.inr ha)
  have hlmem : l.mem = Function.update p.mem (p.esp - 4) p.ebx := by rw [hload]
  refine ⟨q, by rw [hq.rest, heax], ?_, fun a ha => ?_, ?_⟩
  · have hargs := hq.arguments
    rw [hload] at hargs
    exact hargs
  · rw [hmem a (by omega), hlmem, Function.update_of_ne (by omega)]
  · have hsaved : (sysIntTable number q).mem (p.esp - 4) = p.ebx := by
      rw [hstack q _ hq.esp (Or.inl rfl), hmem _ (by omega), hlmem, Function.update_self]
    have hret : (sysIntTable number q).mem p.esp = p.word 0 := by
      rw [hstack q _ hq.esp (Or.inr rfl), hmem _ (by omega), hlmem, Function.update_of_ne (by omega)]
      rfl
    rw [doCall, ← hl, hint, hload]
    show ({ p with
        eax := (sysIntTable number q).eax, ebx := (sysIntTable number q).mem (p.esp - 4), ecx := p.word 2
        edx := p.word 3, eip := (sysIntTable number q).mem (p.esp - 4 + 4), esp := p.esp - 4 + 4 + 4
        mem := (sysIntTable number q).mem } : Processor) = _
    rw [hsaved, show p.esp - 4 + 4 = p.esp by omega, hret]

theorem library_call_write : ∃ q, q.eax = 4 ∧
    doCall firstTss (fun _ => clobber) 4 (userProcessor 0) = { userProcessor 0 with
      eax := (clobber q).eax, ecx := (userProcessor 0).word 2, edx := (userProcessor 0).word 3
      eip := (userProcessor 0).word 0, esp := 0x83FFF04, mem := (clobber q).mem } := by
  have hstack : ∀ q : Processor, ∀ a, q.esp + 56 = firstTss.esp0 →
      a = (userProcessor 0).esp - 4 ∨ a = (userProcessor 0).esp → (clobber q).mem a = q.mem a := by
    intro q a hq ha
    apply if_neg
    simp only [firstTss, userProcessor] at hq ha
    omega
  obtain ⟨q, heax, -, -, hcall⟩ := library_call firstTss (fun _ => clobber) 4 (userProcessor 0) (by decide)
    (by decide) (by decide) (by decide) (fun _ q _ => keeps_clobber _ _ q) hstack
  exact ⟨q, heax, hcall⟩

/-- What `main` returns is the argument of `halt`. -/
theorem start_halts (main : Processor → Processor) (eip : ℕ) (p : Processor) (huser : (main p).User)
    (hroom : 56 ≤ tss.esp0) (hhigh : tss.esp0 + 20 ≤ (main p).esp) :
    (start main eip p).eax = sysHalt ∧ ∃ q, HandlerCalled tss (start main eip p) q ∧
      OnTop q.mem q.esp [(main p).eax, 0, 0] := by
  obtain ⟨m, hm⟩ : ∃ m, m = main p := ⟨_, rfl⟩
  rw [← hm] at huser hhigh ⊢
  obtain ⟨c, hc⟩ : ∃ c, c = m.pushes [0, 0, m.eax, eip] := ⟨_, rfl⟩
  have hstart : start main eip p = exec (doCallLoad sysHalt) c := by rw [hc, hm]; rfl
  have hcesp := pushes_esp [0, 0, m.eax, eip] m
  rw [← hc, show [0, 0, m.eax, eip].length = 4 from rfl] at hcesp
  have hwords := (OnTop.nil m.mem m.esp).pushes [0, 0, m.eax, eip] (by show 4 * 4 ≤ _; omega)
  rw [← hc] at hwords
  have hload := exec_doCallLoad (p := c) sysHalt (by omega)
  have hloaded : (start main eip p).User := by
    rw [hstart, hload, hc, pushes_rest]
    exact huser
  have hq := handler_called hloaded hroom
  refine ⟨by rw [hstart, hload], _, hq, ?_⟩
  have hebx : (start main eip p).ebx = m.eax := by
    rw [hstart, hload]
    exact hwords 1 (by simp)
  have hecx : (start main eip p).ecx = 0 := by
    rw [hstart, hload]
    exact hwords 2 (by simp)
  have hedx : (start main eip p).edx = 0 := by
    rw [hstart, hload]
    exact hwords 3 (by simp)
  have hargs := hq.arguments
  rwa [hebx, hecx, hedx] at hargs

end Library

/-! ### Exceptions -/

theorem iret_words (q : Processor) :
    (iret q).eip = q.word 0 ∧ (iret q).cs = q.word 1 ∧ (iret q).eflags = q.word 2 := by
  unfold iret
  split_ifs
  · exact ⟨rfl, rfl, rfl⟩
  · exact ⟨rfl, rfl, rfl⟩

@[simp] theorem iret_mem (q : Processor) : (iret q).mem = q.mem := by
  unfold iret
  split_ifs
  · rfl
  · rfl

/-- **Some exceptions have no way back.** Every exception of user code prints its
handler's text; the program then goes on as if nothing had happened, unless the
exception is one of those that push an error code: with these `iret` takes the code for
the address to go on at, and the address for a selector. With another data segment
than the user's the machine stops. -/
theorem exception_returns (e : Exception) (tss : Tss) (printf : String → Processor → Processor) (p : Processor)
    (c ds : ℕ) (huser : p.User) (hroom : 60 ≤ tss.esp0)
    (hkeeps : ∀ text q, q.esp < tss.esp0 → Keeps tss.esp0 0 q (printf text q)) :
    (ds ≠ userDS → exW printf e ds (interrupt kernelCS tss (e.code c) p) = none) ∧
    (ds = userDS → ∃ s q, exW printf e ds (interrupt kernelCS tss (e.code c) p) = some q ∧
      q.mem = (printf e.text s).mem ∧
      (¬ e.PushesCode → q = { p with mem := q.mem }) ∧
      (e.PushesCode → q.eip = c ∧ q.cs = p.eip ∧ q.eflags = p.cs)) := by
  have hlen : (entryWords p).length = 5 := by rw [length_entryWords, if_pos huser]
  have hbase : entryBase tss p = tss.esp0 := if_pos huser
  have hcode : (e.code c).toList.length ≤ 1 := by
    unfold Exception.code
    split_ifs <;> simp
  have hlen' : (entryWords p ++ (e.code c).toList).length = 5 + (e.code c).toList.length := by
    rw [List.length_append, hlen]
  have hi := interrupted kernelCS tss (e.code c) p (by omega)
  obtain ⟨i, hint⟩ : ∃ i, i = interrupt kernelCS tss (e.code c) p := ⟨_, rfl⟩
  rw [← hint] at hi ⊢
  have hesp := hi.esp
  constructor
  · intro hds
    rw [exW, exHandler, if_pos hds]
    rfl
  · intro hds
    obtain ⟨s, hs⟩ : ∃ s, s = { exec saveAll i with eflags := (exec saveAll i).eflags &&& 0xFFFFFDFF } := ⟨_, rfl⟩
    have hsesp : s.esp = i.esp - 36 := by
      rw [hs]
      exact pushes_esp (i.general ++ [i.eflags]) i
    have hk := hkeeps e.text s (by omega)
    have hk' : Keeps tss.esp0 0 (exec saveAll i) (printf e.text s) := by
      rw [hs] at hk ⊢
      exact ⟨hk.esp, hk.ebp, hk.ebx, hk.esi, hk.edi, hk.cs, hk.ss, hk.stack⟩
    obtain ⟨hback, hmem⟩ := exec_saved (by omega) (by omega) hk'
    have hrun : exW printf e ds i = some (iret { i with
        eip := (printf e.text s).eip, mem := (printf e.text s).mem }) := by
      rw [exW, exHandler, if_neg (not_not.mpr hds), ← hs, Option.map_some, hback]
    refine ⟨s, _, hrun, iret_mem _, fun hno => ?_, fun hyes => ?_⟩
    · rw [show e.code c = none from if_neg hno] at hi
      have hres : iret { i with eip := (printf e.text s).eip, mem := (printf e.text s).mem } =
          { p with mem := (printf e.text s).mem } :=
        iret_resumes hi (Or.inr huser) (by omega) fun a ha hlt => hmem a ha (by omega)
      rw [hres]
    · have htop := entry_onTop hi (by omega) (fun a ha hlt => hmem a ha (by omega)) rfl
      have hwords : (entryWords p).reverse = [p.eip, p.cs, p.eflags, p.esp, p.ss] := by
        rw [entryWords, if_pos huser]
        rfl
      rw [show e.code c = some c from if_pos hyes, hwords] at htop
      obtain ⟨heip, hcs, hflags⟩ := iret_words { i with eip := (printf e.text s).eip, mem := (printf e.text s).mem }
      rw [heip, hcs, hflags]
      exact ⟨htop 0 (by simp), htop 1 (by simp), htop 2 (by simp)⟩

theorem exception_returns_pageFault : ∃ s q,
    exW (fun _ => clobber) .pageFault userDS (interrupt kernelCS firstTss (some 6) (userProcessor 0)) = some q ∧
      q.mem = (clobber s).mem ∧ q.eip = 6 ∧ q.cs = 0x8048000 := by
  obtain ⟨-, h⟩ := exception_returns .pageFault firstTss (fun _ => clobber) (userProcessor 0) 6 userDS (by decide)
    (by decide) fun _ q _ => keeps_clobber _ _ q
  obtain ⟨s, q, hq, hmem, -, hcode⟩ := h rfl
  obtain ⟨heip, hcs, -⟩ := hcode (by decide)
  exact ⟨s, q, hq, hmem, heip, hcs⟩

end Mp3Kernel
