/-
# The user program's page

`change_process` points the page-directory entry of the user program's 4 MB page
at the frame of a process. `Maps` is what the x86 reads out of such an entry: a
present 4 MB page that user code may access, and its physical base.

Key definitions: `changeProcess`, `Maps`. Key theorem: `maps_processEntry`.
-/
import Mathlib.Tactic

namespace Mp3Kernel

/-- TABLE_SIZE -/
abbrev tableSize : ℤ := 0x400
/-- PAGE_SIZE -/
abbrev pageSize : ℤ := 0x1000
/-- USER_PROCESS_INDEX -/
abbrev userProcessIndex : ℕ := 32
/-- PDE_P -/
abbrev pdeP : UInt32 := 0x1
/-- PDE_RW -/
abbrev pdeRW : UInt32 := 0x2
/-- PDE_US -/
abbrev pdeUS : UInt32 := 0x4
/-- PDE_PS -/
abbrev pdePS : UInt32 := 0x80

/-- `page_directory` -/
abbrev PageDirectory := ℕ → UInt32

/-- PROCESS_LOC(n) -/
def processLoc (n : ℤ) : ℤ := (n + 2) * pageSize * tableSize

/-- The entry `change_process` writes. -/
def processEntry (pid : ℤ) : UInt32 := UInt32.ofInt (processLoc pid) ||| pdePS ||| pdeUS ||| pdeRW ||| pdeP

/-- `change_process`; the flush of the TLB has no state here. -/
def changeProcess (pd : PageDirectory) (pid : ℤ) : PageDirectory :=
  Function.update pd userProcessIndex (processEntry pid)

theorem changeProcess_user (pd : PageDirectory) (pid : ℤ) :
    changeProcess pd pid userProcessIndex = processEntry pid := Function.update_self ..

/-- The directory entry is a present 4 MB page, open to user code, at physical
address `base`. -/
def Maps (entry : UInt32) (base : ℕ) : Prop :=
  entry &&& pdeP ≠ 0 ∧ entry &&& pdeUS ≠ 0 ∧ entry &&& pdePS ≠ 0 ∧ (entry &&& 0xFFC00000).toNat = base

instance (entry : UInt32) (base : ℕ) : Decidable (Maps entry base) := by unfold Maps; infer_instance

/-- The entry of a process maps its own 4 MB frame, the one behind the kernel's two. -/
theorem maps_processEntry {p : ℤ} (h0 : 0 ≤ p) (h6 : p < 6) :
    Maps (processEntry p) ((p + 2) * 0x400000).toNat := by
  interval_cases p <;> decide

end Mp3Kernel
