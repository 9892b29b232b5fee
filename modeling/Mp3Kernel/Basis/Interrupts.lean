/-
# Interrupts, privilege levels and calls

A 32-bit x86 with its general registers, its flags and the selectors of the two
segments an interrupt changes. An interrupt of user code goes to the stack the task
state segment names and leaves the interrupted stack pointer there; one of kernel
code stays on the stack in use. `iret` undoes both, and the selector it finds tells
it which (`iret_of_onTop`).

What lies on a stack is a list of words, top first (`OnTop`). A push puts a word in
front of it and a pop takes one away; a call of a C function leaves the list behind
its arguments as it was (`Keeps`), whatever else the function does.

The arithmetic flags a comparison sets are left out: only the jump behind it reads
them.

Key definitions: `Processor`, `Op`, `interrupt`, `iret`, `OnTop`, `Keeps`.
Key theorems: `OnTop.pushes`, `Keeps.onTop`, `exec_pops`, `exec_popal`, `interrupted`,
`iret_of_onTop`.
-/
import Mp3Kernel.Basis.Machine

namespace Trap

/-- The registers, and the memory by words. -/
structure Processor extends Cpu where
  ecx : ℕ
  edx : ℕ
  ebx : ℕ
  esi : ℕ
  edi : ℕ
  eflags : ℕ
  cs : ℕ
  ss : ℕ

/-- The general registers besides the stack pointer. -/
inductive Register where
  | eax | ecx | edx | ebx | ebp | esi | edi
  deriving DecidableEq

/-- What the task state segment says of the kernel's stack. -/
structure Tss where
  esp0 : ℕ
  ss0 : ℕ

namespace Processor

def get (p : Processor) : Register → ℕ
  | .eax => p.eax
  | .ecx => p.ecx
  | .edx => p.edx
  | .ebx => p.ebx
  | .ebp => p.ebp
  | .esi => p.esi
  | .edi => p.edi

def set (p : Processor) (v : ℕ) : Register → Processor
  | .eax => { p with eax := v }
  | .ecx => { p with ecx := v }
  | .edx => { p with edx := v }
  | .ebx => { p with ebx := v }
  | .ebp => { p with ebp := v }
  | .esi => { p with esi := v }
  | .edi => { p with edi := v }

/-- `pushl` of the value `v` -/
def push (p : Processor) (v : ℕ) : Processor := { p with toCpu := p.toCpu.pushl v }

/-- Words pushed one after the other, the first one first. -/
def pushes (p : Processor) (ws : List ℕ) : Processor := ws.foldl push p

/-- The word `i` of the stack, the top one being 0. -/
def word (p : Processor) (i : ℕ) : ℕ := p.mem (p.esp + 4 * i)

/-- `n` words taken off the stack -/
def drop (p : Processor) (n : ℕ) : Processor := { p with esp := p.esp + 4 * n }

/-- The code running is user code: the privilege level is 3. -/
def User (p : Processor) : Prop := p.cs % 4 = 3

instance (p : Processor) : Decidable p.User := by unfold User; infer_instance

/-- The words `pushal` pushes. -/
def general (p : Processor) : List ℕ := [p.eax, p.ecx, p.edx, p.ebx, p.esp, p.ebp, p.esi, p.edi]

end Processor

/-! ### Instructions -/

/-- An instruction that does not jump. A call names the function called. -/
inductive Op where
  | pushl (r : Register)
  | pushlImm (v : ℕ)
  | popl (r : Register)
  | pushfl
  | popfl
  | pushal
  | popal
  | sti
  | movlImm (v : ℕ) (r : Register)
  /-- `movl disp(%esp), r`, for the word `i` of the stack -/
  | movlStack (i : ℕ) (r : Register)
  | call (f : Processor → Processor)

open Processor in
/-- One instruction. -/
def Op.exec : Op → Processor → Processor
  | .pushl r, p => p.push (p.get r)
  | .pushlImm v, p => p.push v
  | .popl r, p => (p.set (p.word 0) r).drop 1
  | .pushfl, p => p.push p.eflags
  | .popfl, p => { p with eflags := p.word 0 }.drop 1
  | .pushal, p => p.pushes p.general
  | .popal, p =>
    { p with
      edi := p.word 0, esi := p.word 1, ebp := p.word 2, ebx := p.word 4, edx := p.word 5, ecx := p.word 6
      eax := p.word 7 }.drop 8
  | .sti, p => { p with eflags := p.eflags ||| 0x200 }
  | .movlImm v r, p => p.set v r
  | .movlStack i r, p => p.set (p.word i) r
  | .call f, p => f p

/-- Instructions one after the other. -/
def exec (is : List Op) (p : Processor) : Processor := is.foldl (fun p i => i.exec p) p

theorem exec_append (is is' : List Op) (p : Processor) : exec (is ++ is') p = exec is' (exec is p) :=
  List.foldl_append ..

/-- The flags behind an interrupt gate: TF, IF, NT, RF and VM are clear. -/
def gateFlags (eflags : ℕ) : ℕ := eflags &&& 0xFFFCBCFF

/-- Where the words an interrupt pushes begin. -/
def entryBase (tss : Tss) (p : Processor) : ℕ := if p.User then tss.esp0 else p.esp

/-- The words an interrupt pushes, the first one first. -/
def entryWords (p : Processor) : List ℕ :=
  (if p.User then [p.ss, p.esp] else []) ++ [p.eflags, p.cs, p.eip]

/-- An interrupt or an exception, through a gate into the code segment `kernelCs`. With
some exceptions the processor pushes an error code. -/
def interrupt (kernelCs : ℕ) (tss : Tss) (error : Option ℕ) (p : Processor) : Processor :=
  let entered := if p.User then { p with esp := tss.esp0, ss := tss.ss0 } else p
  let pushed := entered.pushes (entryWords p ++ error.toList)
  { pushed with cs := kernelCs, eflags := gateFlags p.eflags }

/-- `iret`: to an outer level it takes the stack pointer off the stack too. -/
def iret (p : Processor) : Processor :=
  let q := { p with eip := p.word 0, cs := p.word 1, eflags := p.word 2 }
  if p.word 1 % 4 > p.cs % 4 then { q with esp := p.word 3, ss := p.word 4 } else q.drop 3

/-- `ret` -/
def Processor.ret (p : Processor) : Processor := { p with toCpu := p.toCpu.ret }

/-! ### What lies on the stack -/

/-- The words on top of the stack at `a`. -/
def OnTop (mem : ℕ → ℕ) (a : ℕ) (ws : List ℕ) : Prop := ∀ i (h : i < ws.length), mem (a + 4 * i) = ws[i]

section OnTop

variable {mem mem' : ℕ → ℕ} {a : ℕ} {ws : List ℕ}

theorem OnTop.nil (mem : ℕ → ℕ) (a : ℕ) : OnTop mem a [] := fun i h => absurd h (Nat.not_lt_zero i)

theorem OnTop.head {v : ℕ} (h : OnTop mem a (v :: ws)) : mem a = v := h 0 (by simp)

theorem OnTop.tail {v : ℕ} (h : OnTop mem a (v :: ws)) : OnTop mem (a + 4) ws := by
  intro i hi
  have hw := h (i + 1) (by simpa using hi)
  rwa [List.getElem_cons_succ, show a + 4 * (i + 1) = a + 4 + 4 * i by omega] at hw

/-- Some words, and the words behind them. -/
theorem onTop_append {vs : List ℕ} : OnTop mem a (vs ++ ws) ↔ OnTop mem a vs ∧ OnTop mem (a + 4 * vs.length) ws := by
  constructor
  · refine fun h => ⟨fun i hi => ?_, fun i hi => ?_⟩
    · rw [h i (by rw [List.length_append]; omega), List.getElem_append_left hi]
    · have hw := h (vs.length + i) (by rw [List.length_append]; omega)
      rw [List.getElem_append_right (by omega)] at hw
      simp only [Nat.add_sub_cancel_left] at hw
      rwa [show a + 4 * (vs.length + i) = a + 4 * vs.length + 4 * i by omega] at hw
  · rintro ⟨hv, hw⟩ i hi
    by_cases hlt : i < vs.length
    · rw [List.getElem_append_left hlt]
      exact hv i hlt
    · rw [List.getElem_append_right (by omega)]
      have := hw (i - vs.length) (by rw [List.length_append] at hi; omega)
      rwa [show a + 4 * vs.length + 4 * (i - vs.length) = a + 4 * i by omega] at this

theorem OnTop.congr (h : OnTop mem a ws) (hmem : ∀ b, a ≤ b → b < a + 4 * ws.length → mem' b = mem b) :
    OnTop mem' a ws := by
  intro i hi
  rw [hmem _ (by omega) (by omega)]
  exact h i hi

theorem OnTop.push {p : Processor} (h : OnTop p.mem p.esp ws) (v : ℕ) (hroom : 4 ≤ p.esp) :
    OnTop (p.push v).mem (p.push v).esp (v :: ws) := by
  intro i hi
  show Function.update p.mem (p.esp - 4) v (p.esp - 4 + 4 * i) = _
  cases i with
  | zero => exact Function.update_self ..
  | succ i =>
    rw [Function.update_of_ne (by omega), List.getElem_cons_succ,
      show p.esp - 4 + 4 * (i + 1) = p.esp + 4 * i by omega]
    exact h i (by simpa using hi)

end OnTop

section Pushes

variable {p : Processor} {ws vs : List ℕ}

@[simp] theorem push_esp (v : ℕ) : (p.push v).esp = p.esp - 4 := rfl

theorem pushes_rest (vs : List ℕ) (p : Processor) :
    p.pushes vs = { p with esp := (p.pushes vs).esp, mem := (p.pushes vs).mem } := by
  unfold Processor.pushes
  induction vs generalizing p with
  | nil => rfl
  | cons v vs ih =>
    rw [List.foldl_cons, ih (p.push v)]
    rfl

theorem pushes_esp (vs : List ℕ) (p : Processor) : (p.pushes vs).esp = p.esp - 4 * vs.length := by
  unfold Processor.pushes
  induction vs generalizing p with
  | nil => rfl
  | cons v vs ih =>
    rw [List.foldl_cons, ih, push_esp, List.length_cons]
    omega

theorem OnTop.pushes (h : OnTop p.mem p.esp ws) (vs : List ℕ) (hroom : 4 * vs.length ≤ p.esp) :
    OnTop (p.pushes vs).mem (p.pushes vs).esp (vs.reverse ++ ws) := by
  unfold Processor.pushes
  induction vs generalizing p ws with
  | nil => exact h
  | cons v vs ih =>
    rw [List.length_cons] at hroom
    rw [List.foldl_cons, List.reverse_cons, List.append_assoc]
    exact ih (h.push v (by omega)) (by rw [push_esp]; omega)

/-- Above the words pushed the memory is as it was, and below them too. -/
theorem pushes_mem (vs : List ℕ) {p : Processor} (hroom : 4 * vs.length ≤ p.esp) {b : ℕ}
    (hb : b < p.esp - 4 * vs.length ∨ p.esp ≤ b) : (p.pushes vs).mem b = p.mem b := by
  unfold Processor.pushes
  induction vs generalizing p with
  | nil => rfl
  | cons v vs ih =>
    rw [List.length_cons] at hroom hb
    have hrest : (vs.foldl Processor.push (p.push v)).mem b = (p.push v).mem b := by
      apply ih
      · rw [push_esp]
        omega
      · rw [push_esp]
        omega
    rw [List.foldl_cons, hrest]
    exact Function.update_of_ne (by omega) ..

end Pushes

/-! ### Calls -/

/-- What the C calling convention promises of a call with `args` argument words, on a
stack that ends at `base`: the stack and frame pointers and `ebx`, `esi` and `edi` are
back, and the words behind the arguments are as they were. -/
structure Keeps (base args : ℕ) (p q : Processor) : Prop where
  esp : q.esp = p.esp
  ebp : q.ebp = p.ebp
  ebx : q.ebx = p.ebx
  esi : q.esi = p.esi
  edi : q.edi = p.edi
  cs : q.cs = p.cs
  ss : q.ss = p.ss
  stack : ∀ a, p.esp + 4 * args ≤ a → a < base → q.mem a = p.mem a

theorem Keeps.onTop {base args : ℕ} {p q : Processor} (h : Keeps base args p q) {ws : List ℕ}
    (hws : OnTop p.mem (p.esp + 4 * args) ws) (hbase : p.esp + 4 * args + 4 * ws.length ≤ base) :
    OnTop q.mem (q.esp + 4 * args) ws := by
  rw [h.esp]
  exact hws.congr fun b h1 h2 => h.stack b h1 (by omega)

/-! ### Popping -/

section Pop

variable {p q : Processor} {ws : List ℕ}

theorem word_of_onTop {vs : List ℕ} (h : OnTop p.mem p.esp vs) {i : ℕ} (hi : i < vs.length) :
    p.word i = vs[i] := h i hi

/-- Registers set to the values beside them. -/
def setAll (p : Processor) (rvs : List (Register × ℕ)) : Processor := rvs.foldl (fun p rv => p.set rv.2 rv.1) p

@[simp] theorem set_esp (p : Processor) (v : ℕ) (r : Register) : (p.set v r).esp = p.esp := by cases r <;> rfl

@[simp] theorem set_mem (p : Processor) (v : ℕ) (r : Register) : (p.set v r).mem = p.mem := by cases r <;> rfl

theorem set_drop (p : Processor) (n v : ℕ) (r : Register) : (p.drop n).set v r = (p.set v r).drop n := by
  cases r <;> rfl

theorem setAll_drop (rvs : List (Register × ℕ)) (p : Processor) (n : ℕ) :
    setAll (p.drop n) rvs = (setAll p rvs).drop n := by
  unfold setAll
  induction rvs generalizing p with
  | nil => rfl
  | cons rv rvs ih => rw [List.foldl_cons, set_drop, ih, List.foldl_cons]

theorem drop_drop (p : Processor) (m n : ℕ) : (p.drop m).drop n = p.drop (m + n) := by
  unfold Processor.drop
  rw [Nat.mul_add, Nat.add_assoc]

/-- Registers popped one after the other get the words on top. -/
theorem exec_pops (rvs : List (Register × ℕ)) {p : Processor} (h : OnTop p.mem p.esp (rvs.map Prod.snd)) :
    exec (rvs.map fun rv => .popl rv.1) p = (setAll p rvs).drop rvs.length := by
  induction rvs generalizing p with
  | nil => rfl
  | cons rv rvs ih =>
    obtain ⟨r, v⟩ := rv
    have hpop : (Op.popl r).exec p = (p.set v r).drop 1 := by
      show (p.set (p.word 0) r).drop 1 = _
      rw [show p.word 0 = v from h.head]
    have hrest : OnTop ((p.set v r).drop 1).mem ((p.set v r).drop 1).esp (rvs.map Prod.snd) := by
      show OnTop (p.set v r).mem ((p.set v r).esp + 4) _
      rw [set_mem, set_esp]
      exact h.tail
    show exec (rvs.map fun rv => .popl rv.1) ((Op.popl r).exec p) = _
    rw [hpop, ih hrest, setAll_drop, drop_drop, List.length_cons, Nat.add_comm]
    rfl

/-- `popal` gives back what `pushal` has pushed; the stack pointer it leaves out. -/
theorem exec_popal (h : OnTop q.mem q.esp p.general.reverse) :
    Op.popal.exec q = { q with
      eax := p.eax, ecx := p.ecx, edx := p.edx, ebx := p.ebx, ebp := p.ebp, esi := p.esi, edi := p.edi
      esp := q.esp + 32 } := by
  have hw : ∀ i (hi : i < p.general.reverse.length), q.word i = p.general.reverse[i] := fun i hi => word_of_onTop h hi
  show ({ q with
      edi := q.word 0, esi := q.word 1, ebp := q.word 2, ebx := q.word 4, edx := q.word 5, ecx := q.word 6
      eax := q.word 7 } : Processor).drop 8 = _
  have hlen : p.general.reverse.length = 8 := rfl
  rw [hw 0 (by omega), hw 1 (by omega), hw 2 (by omega), hw 4 (by omega), hw 5 (by omega), hw 6 (by omega),
    hw 7 (by omega)]
  rfl

end Pop

/-! ### An interrupt and its return -/

section Interrupt

variable {kernelCs : ℕ} {tss : Tss} {p q : Processor}

/-- What an interrupt leaves: the words on the stack, the kernel's segments, and the
rest as it was. -/
structure Interrupted (kernelCs : ℕ) (tss : Tss) (error : Option ℕ) (p q : Processor) : Prop where
  esp : q.esp = entryBase tss p - 4 * (entryWords p ++ error.toList).length
  words : OnTop q.mem q.esp (error.toList ++ (entryWords p).reverse)
  mem : ∀ a, a < q.esp ∨ entryBase tss p ≤ a → q.mem a = p.mem a
  rest : q = { p with
    esp := q.esp, mem := q.mem, ss := if p.User then tss.ss0 else p.ss, cs := kernelCs, eflags := gateFlags p.eflags }

theorem interrupted (kernelCs : ℕ) (tss : Tss) (error : Option ℕ) (p : Processor)
    (hroom : 4 * (entryWords p ++ error.toList).length ≤ entryBase tss p) :
    Interrupted kernelCs tss error p (interrupt kernelCs tss error p) := by
  obtain ⟨e, he⟩ : ∃ e : Processor, e = if p.User then { p with esp := tss.esp0, ss := tss.ss0 } else p := ⟨_, rfl⟩
  have hesp : e.esp = entryBase tss p := by
    rw [he, entryBase]
    split_ifs <;> rfl
  have hmem : e.mem = p.mem := by
    rw [he]
    split_ifs <;> rfl
  have hrest : e = { p with esp := entryBase tss p, ss := if p.User then tss.ss0 else p.ss } := by
    rw [he, entryBase]
    split_ifs <;> rfl
  have hint : interrupt kernelCs tss error p =
      { e.pushes (entryWords p ++ error.toList) with cs := kernelCs, eflags := gateFlags p.eflags } := by
    rw [he]
    rfl
  rw [← hesp] at hroom
  have hwords := (OnTop.nil e.mem e.esp).pushes (entryWords p ++ error.toList) hroom
  have hpushed := pushes_esp (entryWords p ++ error.toList) e
  rw [hint]
  refine ⟨?_, ?_, fun a ha => ?_, ?_⟩
  · rw [← hesp]
    exact hpushed
  · have hrev : error.toList.reverse = error.toList := by cases error <;> rfl
    rwa [List.append_nil, List.reverse_append, hrev] at hwords
  · rw [← hmem]
    apply pushes_mem _ hroom
    rw [← hpushed, hesp]
    exact ha
  · rw [pushes_rest, hrest]

/-- `iret` with the words of an interrupt on top leads back to where it came from. -/
theorem iret_of_onTop (h : OnTop q.mem q.esp (entryWords p).reverse) (hcs : q.cs % 4 = 0)
    (hp : p.cs % 4 = 0 ∨ p.User) (hsame : ¬ p.User → q.esp + 12 = p.esp ∧ q.ss = p.ss) :
    iret q = { q with eip := p.eip, cs := p.cs, eflags := p.eflags, esp := p.esp, ss := p.ss } := by
  have hw : ∀ i (hi : i < (entryWords p).reverse.length), q.word i = (entryWords p).reverse[i] :=
    fun i hi => word_of_onTop h hi
  by_cases huser : p.User
  · have hwords : (entryWords p).reverse = [p.eip, p.cs, p.eflags, p.esp, p.ss] := by
      rw [entryWords, if_pos huser]
      rfl
    simp only [hwords] at hw
    have h1 : q.word 1 = p.cs := hw 1 (by simp)
    unfold iret
    simp only [h1, show q.word 0 = p.eip from hw 0 (by simp), show q.word 2 = p.eflags from hw 2 (by simp),
      show q.word 3 = p.esp from hw 3 (by simp), show q.word 4 = p.ss from hw 4 (by simp)]
    rw [if_pos (by rw [hcs, show p.cs % 4 = 3 from huser]; decide)]
  · have hwords : (entryWords p).reverse = [p.eip, p.cs, p.eflags] := by
      rw [entryWords, if_neg huser]
      rfl
    simp only [hwords] at hw
    obtain ⟨hesp, hss⟩ := hsame huser
    have hzero : p.cs % 4 = 0 := hp.resolve_right huser
    have h1 : q.word 1 = p.cs := hw 1 (by simp)
    unfold iret
    simp only [h1, show q.word 0 = p.eip from hw 0 (by simp), show q.word 2 = p.eflags from hw 2 (by simp)]
    rw [if_neg (by rw [hcs, hzero]; decide), ← hesp, ← hss]
    rfl

end Interrupt

end Trap
