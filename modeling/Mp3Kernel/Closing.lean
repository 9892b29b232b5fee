/-
# Closing the descriptors of a process that halts

Before it hands the machine back to the parent, `halt` closes the process's
descriptors, one after the other, and stops at the first slot that is not in use. So
it closes the slots below the first gap in the table (`closeTable_eq`): all of them
exactly when those in use lie together at the start of the table (`halt_closes`). A
process leaves a gap by closing a descriptor below another one.

The loop reads the flags of the PCB it finds from the terminal, `close` those of the
PCB it finds from the stack; that they are one PCB is what the forest of processes
says of every run.

Key definitions: `closeLoopCalls`, `ClosesAll`.
Key theorems: `closeTable_eq`, `closeLoop_eq`, `halt_closes`.
-/
import Mp3Kernel.System
import Mp3Kernel.Streaming

namespace Mp3Kernel

/-! ### The calls -/

/-- The slots whose close function a call of `close` calls: its own, if it is in use. -/
def closeCalls (fa : FileArray) (fd : Int32) : List (Fin maxOpenFiles) :=
  match slotOf fd with
  | none => []
  | some i => if (fa i).flags = 0 then [] else [i]

/-- The slots whose close functions the loop of `halt` calls, in this order. -/
def closeLoopCalls (curr : ℕ) : List (Fin maxOpenFiles) → Kernel → List (Fin maxOpenFiles)
  | [], _ => []
  | i :: is, k =>
    if ((k.pcb curr).fileArray i).flags ≠ 0 then
      closeCalls (k.pcb (maskPcb k.cpu.esp)).fileArray (Int32.ofNat i) ++
        closeLoopCalls curr is (k.setPcb (maskPcb k.cpu.esp) fun b =>
          { b with fileArray := (closeFile b.fileArray (Int32.ofNat i)).2 })
    else []

/-- The slots whose close functions `halt` calls. -/
def haltCalls (k : Kernel) : List (Fin maxOpenFiles) :=
  if (k.pcbOf k.running).parentPid < 0 then []
  else closeLoopCalls (pcbAddr k.running) (List.finRange maxOpenFiles) k

/-- The process `p` halts with all of its descriptors closed: every close function of a
slot with flag 1 is called once, and no slot is in use afterwards. -/
structure ClosesAll (p : ℤ) (k k' : Kernel) : Prop where
  once : ∀ i, ((k.pcbOf p).fileArray i).flags = 1 → (haltCalls k).count i = 1
  free : ∀ i, ((k'.pcbOf p).fileArray i).flags = 0

/-! ### One table -/

/-- The loop on the table alone. -/
def closeTable : List (Fin maxOpenFiles) → FileArray → FileArray
  | [], fa => fa
  | i :: is, fa => if (fa i).flags ≠ 0 then closeTable is (Function.update fa i (closedFd (fa i))) else fa

/-- The slots the loop comes to before it stops. -/
def closed (fa : FileArray) (is : List (Fin maxOpenFiles)) : List (Fin maxOpenFiles) :=
  is.takeWhile fun i => (fa i).flags ≠ 0

section Table

variable {fa : FileArray}

theorem closed_cons (i : Fin maxOpenFiles) (is : List (Fin maxOpenFiles)) :
    closed fa (i :: is) = if (fa i).flags ≠ 0 then i :: closed fa is else [] := by
  unfold closed
  rw [List.takeWhile_cons]
  by_cases h : (fa i).flags = 0
  · simp [h]
  · simp [h]

theorem closed_update {i : Fin maxOpenFiles} (slot : Fd) : ∀ {is : List (Fin maxOpenFiles)}, i ∉ is →
    closed (Function.update fa i slot) is = closed fa is
  | [], _ => rfl
  | j :: is, h => by
    have hne : j ≠ i := fun hj => h (hj ▸ List.mem_cons_self ..)
    have hrest : i ∉ is := fun hm => h (List.mem_cons_of_mem _ hm)
    rw [closed_cons, closed_cons, Function.update_of_ne hne, closed_update slot hrest]

/-- The loop closes the slots it comes to and leaves the others. -/
theorem closeTable_eq : ∀ {is : List (Fin maxOpenFiles)} {fa : FileArray}, is.Nodup → ∀ j,
    closeTable is fa j = if j ∈ closed fa is then closedFd (fa j) else fa j
  | [], _, _, _ => rfl
  | i :: is, fa, hn, j => by
    obtain ⟨hi, hn⟩ := List.nodup_cons.mp hn
    rw [closeTable, closed_cons]
    by_cases h : (fa i).flags = 0
    · rw [if_neg (not_not_intro h), if_neg (not_not_intro h)]
      rfl
    · rw [if_pos h, if_pos h, closeTable_eq hn j, closed_update _ hi]
      by_cases hj : j = i
      · subst hj
        have hout : j ∉ closed fa is := fun hm => hi ((List.takeWhile_sublist _).subset hm)
        rw [if_neg hout, if_pos (List.mem_cons_self ..), Function.update_self]
      · rw [Function.update_of_ne hj]
        simp only [List.mem_cons, hj, false_or]

/-- The slots before a stop, in a list in order: those with nothing free up to them. -/
theorem mem_closed_iff {j : Fin maxOpenFiles} : ∀ {is : List (Fin maxOpenFiles)}, is.Pairwise (· < ·) →
    (j ∈ closed fa is ↔ j ∈ is ∧ ∀ x ∈ is, x ≤ j → (fa x).flags ≠ 0)
  | [], _ => by simp [closed]
  | i :: is, h => by
    obtain ⟨hi, hrest⟩ := List.pairwise_cons.mp h
    rw [closed_cons]
    by_cases h0 : (fa i).flags = 0
    · rw [if_neg (not_not_intro h0)]
      refine iff_of_false List.not_mem_nil fun ⟨hj, hall⟩ => hall i (List.mem_cons_self ..) ?_ h0
      rcases List.mem_cons.mp hj with rfl | hj
      · exact le_refl _
      · exact le_of_lt (hi j hj)
    · rw [if_pos h0, List.mem_cons, mem_closed_iff hrest]
      constructor
      · rintro (rfl | ⟨hj, hall⟩)
        · refine ⟨List.mem_cons_self .., fun x hx hle => ?_⟩
          rcases List.mem_cons.mp hx with rfl | hx
          · exact h0
          · exact absurd (hi x hx) (not_lt.mpr hle)
        · refine ⟨List.mem_cons_of_mem _ hj, fun x hx hle => ?_⟩
          rcases List.mem_cons.mp hx with rfl | hx
          · exact h0
          · exact hall x hx hle
      · rintro ⟨hj, hall⟩
        rcases List.mem_cons.mp hj with rfl | hj
        · exact Or.inl rfl
        · exact Or.inr ⟨hj, fun x hx => hall x (List.mem_cons_of_mem _ hx)⟩

theorem mem_closed_finRange {j : Fin maxOpenFiles} :
    j ∈ closed fa (List.finRange maxOpenFiles) ↔ ∀ x ≤ j, (fa x).flags ≠ 0 := by
  rw [mem_closed_iff (List.pairwise_lt_finRange _)]
  simp

theorem count_closed {j : Fin maxOpenFiles} (h : j ∈ closed fa (List.finRange maxOpenFiles)) :
    (closed fa (List.finRange maxOpenFiles)).count j = 1 := by
  apply List.count_eq_one_of_mem _ h
  exact (List.nodup_finRange _).sublist (List.takeWhile_sublist _)

end Table

/-! ### The loop of halt -/

theorem closeFile_used {fa : FileArray} {i : Fin maxOpenFiles} (h : (fa i).flags ≠ 0) :
    (closeFile fa (Int32.ofNat i)).2 = Function.update fa i (closedFd (fa i)) ∧
      closeCalls fa (Int32.ofNat i) = [i] := by
  unfold closeFile closeCalls
  simp only [slotOf_ofNat, if_neg h, and_self]

/-- With one PCB found in both ways, the loop works on one table. -/
theorem closeLoop_eq {curr : ℕ} : ∀ {is : List (Fin maxOpenFiles)} {k : Kernel}, is.Nodup →
    maskPcb k.cpu.esp = curr →
    closeLoop curr is k = k.setFiles curr (closeTable is (k.pcb curr).fileArray) ∧
      closeLoopCalls curr is k = closed (k.pcb curr).fileArray is
  | [], k, _, _ => by
    refine ⟨?_, rfl⟩
    simp [closeLoop, closeTable, Kernel.setFiles, Kernel.setPcb]
  | i :: is, k, hn, hcurr => by
    obtain ⟨hi, hn⟩ := List.nodup_cons.mp hn
    rw [closeLoop, closeLoopCalls, closeTable, closed_cons]
    by_cases h : ((k.pcb curr).fileArray i).flags = 0
    · rw [if_neg (not_not_intro h), if_neg (not_not_intro h), if_neg (not_not_intro h), if_neg (not_not_intro h)]
      refine ⟨?_, rfl⟩
      simp [Kernel.setFiles, Kernel.setPcb]
    · rw [if_pos h, if_pos h, if_pos h, if_pos h, hcurr]
      obtain ⟨hfiles, hcalls⟩ := closeFile_used h
      have hstored : (k.setPcb curr fun b => { b with fileArray := (closeFile b.fileArray (Int32.ofNat i)).2 }) =
          k.setFiles curr (Function.update (k.pcb curr).fileArray i (closedFd ((k.pcb curr).fileArray i))) := by
        rw [← hfiles]
        rfl
      rw [hstored, hcalls]
      obtain ⟨hloop, hrest⟩ := @closeLoop_eq curr is
        (k.setFiles curr (Function.update (k.pcb curr).fileArray i (closedFd ((k.pcb curr).fileArray i)))) hn hcurr
      have htable : ((k.setFiles curr (Function.update (k.pcb curr).fileArray i
          (closedFd ((k.pcb curr).fileArray i)))).pcb curr).fileArray =
          Function.update (k.pcb curr).fileArray i (closedFd ((k.pcb curr).fileArray i)) := by
        simp [Kernel.setFiles, Kernel.setPcb]
      rw [htable] at hloop hrest
      constructor
      · rw [hloop]
        simp [Kernel.setFiles, Kernel.setPcb]
      · rw [hrest, closed_update _ hi, List.singleton_append]

section Halt

variable {img : Image} {tr : Trace} {k ke : Kernel} {f : Frame}

/-- What `halt` of a process with a parent does to its descriptors. -/
theorem haltChild_files (h : History img tr k) (hchild : 0 ≤ (k.pcbOf k.running).parentPid)
    (hent : syscallEntry k f = some ke) (status : UInt8) :
    ((haltChild ke status).pcbOf k.running).fileArray =
        closeTable (List.finRange maxOpenFiles) (k.pcbOf k.running).fileArray ∧
      haltCalls ke = closed (k.pcbOf k.running).fileArray (List.finRange maxOpenFiles) := by
  obtain ⟨a, ha⟩ := rep_of_history h
  have hc := ha.coherent
  obtain ⟨he, -⟩ := entered_of_syscall hc hent
  obtain ⟨hpp, hpne⟩ := hc.parent hchild
  obtain ⟨hloop, hcalls⟩ := closeLoop_eq (List.nodup_finRange _) (he.mask hc)
  have hfiles : (ke.pcb (pcbAddr k.running)).fileArray = (k.pcbOf k.running).fileArray :=
    congrArg Pcb.fileArray (he.pcbOf k.running)
  rw [hfiles] at hloop hcalls
  have hne : pcbAddr k.running ≠ pcbAddr (k.pcbOf k.running).parentPid := (pcbAddr_ne hpp hc.isPid hpne).symm
  have hk := haltChild_eq status he.running (congrArg Pcb.parentPid (he.pcbOf _)) hne hloop
  constructor
  · rw [hk]
    simp only [Kernel.pcbOf] at hne ⊢
    rw [Function.update_of_ne hne, Function.update_self]
  · unfold haltCalls
    rw [he.running, he.pcbOf, if_neg (not_lt.mpr hchild), hcalls]

/-- **`halt` and the descriptors.** In every state of every run in which a process with a
parent runs, whatever it has opened, closed, read and written: its `halt` calls the
close function of every slot in use once and leaves no slot in use, exactly when the
slots in use have no free one below them. -/
theorem halt_closes (h : History img tr k) (hchild : 0 ≤ (k.pcbOf k.running).parentPid)
    (hent : syscallEntry k f = some ke) (lo : Leftover) (status : UInt8) :
    ∃ k', step img k (.halt f lo status) = some (k', .resumed (k.pcbOf k.running).parentPid) ∧
      (ClosesAll k.running ke k' ↔ ∀ i j, j < i → ((k.pcbOf k.running).fileArray i).flags ≠ 0 →
        ((k.pcbOf k.running).fileArray j).flags ≠ 0) := by
  obtain ⟨a, ha⟩ := rep_of_history h
  obtain ⟨he, -⟩ := entered_of_syscall ha.coherent hent
  obtain ⟨hfiles, hcalls⟩ := haltChild_files h hchild hent status
  refine ⟨haltChild ke status, ?_, ?_⟩
  · rw [step, hent, Option.map_some, halt, he.running, he.pcbOf, if_neg (not_lt.mpr hchild)]
  · have htable := he.pcbOf k.running
    constructor
    · intro hall i j hj hused
      have hfree := hall.free i
      rw [hfiles, closeTable_eq (List.nodup_finRange _)] at hfree
      split_ifs at hfree with hm
      · exact mem_closed_finRange.mp hm j (le_of_lt hj)
      · exact absurd hfree hused
    · intro hpacked
      have hmem : ∀ i, ((k.pcbOf k.running).fileArray i).flags ≠ 0 →
          i ∈ closed (k.pcbOf k.running).fileArray (List.finRange maxOpenFiles) := by
        intro i hused
        refine mem_closed_finRange.mpr fun x hx => ?_
        rcases lt_or_eq_of_le hx with hlt | rfl
        · exact hpacked i x hlt hused
        · exact hused
      refine ⟨fun i hflag => ?_, fun i => ?_⟩
      · rw [htable] at hflag
        rw [hcalls]
        exact count_closed (hmem i (by rw [hflag]; decide))
      · rw [hfiles, closeTable_eq (List.nodup_finRange _)]
        split_ifs with hm
        · rfl
        · by_contra hused
          exact hm (hmem i hused)

end Halt

/-- A child opens two files and halts. -/
def openTwo : List Event :=
  [.openFile (frameOf 3) (some shellName), .openFile (frameOf 3) (some shellName),
    .execute (frameOf 0) zeros (some shellName)]

theorem halt_closes_openTwo : ∃ ke k', syscallEntry (smallRun openTwo).2 (frameOf 3) = some ke ∧
    step smallImage (smallRun openTwo).2 (.halt (frameOf 3) zeros 0) = some (k', .resumed 0) ∧ ClosesAll 3 ke k' := by
  have hent : (syscallEntry (smallRun openTwo).2 (frameOf 3)).isSome := by decide +kernel
  obtain ⟨ke, hke⟩ := Option.isSome_iff_exists.mp hent
  have hrun : (smallRun openTwo).2.running = 3 := by decide +kernel
  have hpar : ((smallRun openTwo).2.pcbOf 3).parentPid = 0 := by decide +kernel
  obtain ⟨k', hst, hiff⟩ := halt_closes (history_smallRun openTwo) (by rw [hrun, hpar]) hke zeros 0
  rw [hrun] at hst hiff
  rw [hpar] at hst
  exact ⟨ke, k', hke, hst, hiff.mpr (by decide +kernel)⟩

/-- The child closes the first of the two files before it halts: the second one stays
open. -/
theorem halt_leaves_open : ∃ ke k',
    syscallEntry (smallRun (.close (frameOf 3) 2 :: openTwo)).2 (frameOf 3) = some ke ∧
      step smallImage (smallRun (.close (frameOf 3) 2 :: openTwo)).2 (.halt (frameOf 3) zeros 0) =
        some (k', .resumed 0) ∧
      haltCalls ke = [0, 1] ∧ ((k'.pcbOf 3).fileArray 3).flags = 1 ∧ ¬ ClosesAll 3 ke k' := by
  have hrun : ((syscallEntry (smallRun (.close (frameOf 3) 2 :: openTwo)).2 (frameOf 3)).map fun ke =>
      (haltCalls ke, (((haltChild ke 0).pcbOf 3).fileArray 3).flags, (ke.pcbOf ke.running).parentPid)) =
      some ([0, 1], 1, 0) := by decide +kernel
  obtain ⟨ke, hke, hval⟩ := Option.map_eq_some_iff.mp hrun
  simp only [Prod.mk.injEq] at hval
  obtain ⟨hcalls, hflag, hpar⟩ := hval
  refine ⟨ke, haltChild ke 0, hke, ?_, hcalls, hflag, fun h => ?_⟩
  · rw [step, hke, Option.map_some, halt, hpar, if_neg (by decide)]
  · rw [h.free 3] at hflag
    exact absurd hflag (by decide)

end Mp3Kernel
