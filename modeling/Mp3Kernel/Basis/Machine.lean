/-
# A stack, four registers

The part of a 32-bit x86 that a stack switch uses: the accumulator, the stack and
frame pointers, the instruction pointer, and the words of the memory the stack
lies in. An address is a byte address; a word is four bytes.

`leave; ret` executed in a function's frame returns to the function's caller
whatever the stack pointer is: it reads the caller's frame pointer at `ebp` and
the return address at `ebp + 4` (`leave_ret`).
-/
import Mathlib.Tactic

/-- The registers and the stack's memory. -/
structure Cpu where
  eax : ℕ
  esp : ℕ
  ebp : ℕ
  eip : ℕ
  mem : ℕ → ℕ

namespace Cpu

/-- `pushl v` -/
def pushl (c : Cpu) (v : ℕ) : Cpu :=
  { c with esp := c.esp - 4, mem := Function.update c.mem (c.esp - 4) v }

/-- `popl %eax` -/
def poplEax (c : Cpu) : Cpu := { c with eax := c.mem c.esp, esp := c.esp + 4 }

/-- `leave`: the frame pointer becomes the stack pointer, and the caller's frame
pointer is popped. -/
def leave (c : Cpu) : Cpu := { c with esp := c.ebp + 4, ebp := c.mem c.ebp }

/-- `ret` -/
def ret (c : Cpu) : Cpu := { c with eip := c.mem c.esp, esp := c.esp + 4 }

/-- What a function with frame pointer `ebp` leaves to its caller when it returns
`v`, on a stack with contents `mem`. -/
def returned (mem : ℕ → ℕ) (ebp v : ℕ) : Cpu :=
  { eax := v, esp := ebp + 8, ebp := mem ebp, eip := mem (ebp + 4), mem := mem }

/-- `leave; ret` returns from the frame at `ebp` with the value in `eax`. -/
theorem leave_ret (c : Cpu) : c.leave.ret = returned c.mem c.ebp c.eax := rfl

end Cpu
