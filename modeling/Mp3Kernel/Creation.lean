/-
# The two ways a process is created

`execute` and `execute_shells` each fill in the descriptor table of the process they
create. The loops are the same but for the flags: `execute_shells` tests the
terminal where `execute` tests the slot, so a base shell has slots whose flag is not
the one a child has (`misflagged`). A closed slot, or one that was opened, no longer
shows the difference: `close` fails in both and leaves both flags 0.

Two sessions with the same calls, one of a child and one of a base shell, therefore
have the same replies until an `open` finds its slot in one of them among the slots
that are still misflagged. Which slots those are, and which ones are free in the
child, can be told from the calls (`Agreeable`), and the replies are the same exactly
when no `open` meets one (`creation_paths_agree`).

Key definitions: `replies`, `misflagged`, `Agreeable`.
Key theorem: `creation_paths_agree`.
-/
import Mp3Kernel.Sessions

namespace Mp3Kernel

/-- The replies to a list of calls, oldest first. -/
def replies (img : Image) (term : ℤ) (s : Session) : List Syscall → Option (List Outcome)
  | [] => some []
  | c :: cs =>
    match s.call img term c with
    | none => none
    | some (s', out) => (replies img term s' cs).map (out :: ·)

/-! ### When the replies agree -/

/-- The slots whose flag in the base shell of terminal `t` is not that of a child. -/
def misflagged (t : Fin 3) : Finset (Fin maxOpenFiles) :=
  Finset.univ.filter fun i => (shellFiles (num t) i).flags ≠ (childFiles i).flags

/-- The slots that are free in a new child. -/
def childFree : Finset (Fin maxOpenFiles) := Finset.univ.filter fun i => (childFiles i).flags = 0

/-- An `open` of a name that exists finds a free slot of the child below every slot
that is still misflagged. -/
def CallOk (img : Image) (own free : Finset (Fin maxOpenFiles)) : Syscall → Prop
  | .files (.openFile (some name)) =>
    (readDentryByName img.boot name).isSome → ∀ d ∈ own, ∃ f ∈ free, f < d
  | _ => True

/-- The slots still misflagged after a call: a slot passed to `close` is not. -/
def nextOwn (own : Finset (Fin maxOpenFiles)) : Syscall → Finset (Fin maxOpenFiles)
  | .files (.close fd) => own.filter fun i => slotOf fd ≠ some i
  | _ => own

/-- The slots free in the child after a call: `open` takes the first one, `close`
adds one. -/
def nextFree (img : Image) (free : Finset (Fin maxOpenFiles)) : Syscall → Finset (Fin maxOpenFiles)
  | .files (.openFile (some name)) =>
    if (readDentryByName img.boot name).isSome then free.filter fun i => ∃ f ∈ free, f < i else free
  | .files (.close fd) => Finset.univ.filter fun i => i ∈ free ∨ slotOf fd = some i
  | _ => free

/-- The calls never open into a difference between the two tables. -/
def Agreeable (img : Image) : Finset (Fin maxOpenFiles) → Finset (Fin maxOpenFiles) → List Syscall → Prop
  | _, _, [] => True
  | own, free, c :: cs => CallOk img own free c ∧ Agreeable img (nextOwn own c) (nextFree img free c) cs

/-! ### Twin tables -/

/-- A slot of a child, `x`, and the same slot of a base shell that has made the same
calls, `y`: whether their flags differ, and whether it is free in the child. -/
structure TwinSlot (own free : Prop) (x y : Fd) : Prop where
  free : free ↔ x.flags = 0
  table : y.fopJumpTable = x.fopJumpTable
  inode : y.inode = x.inode
  fileType : y.fileType = x.fileType
  position : x.fopJumpTable.readOp = .dirRead ∨ x.fopJumpTable.readOp = .fileRead → y.filePosition = x.filePosition
  flags : ¬ own → y.flags = x.flags
  differ : own → (y.flags = 0 ↔ x.flags ≠ 0)
  closing : own → callClose x.fopJumpTable.closeOp x.inode = -1
  reading : own → x.fopJumpTable.readOp = .noFunc ∨ x.fopJumpTable.readOp = .terminalRead
  unused : own → x.inode = 0 ∧ x.fileType = -1

/-- The tables of a child and of a base shell that have made the same calls: `own` are
the slots whose flags differ, `free` those free in the child. -/
def Twins (own free : Finset (Fin maxOpenFiles)) (c s : FileArray) : Prop :=
  ∀ i, TwinSlot (i ∈ own) (i ∈ free) (c i) (s i)

theorem twins_start (t : Fin 3) : Twins (misflagged t) childFree childFiles (shellFiles (num t)) := by
  intro i
  refine
    { free := by simp [childFree]
      table := rfl
      inode := rfl
      fileType := rfl
      position := fun _ => rfl
      flags := fun hi => by simpa [misflagged] using hi
      differ := ?_
      closing := ?_
      reading := ?_
      unused := fun _ => ⟨rfl, rfl⟩ }
  all_goals
    revert i
    fin_cases t <;> decide

section Twin

variable {own free own' free' : Finset (Fin maxOpenFiles)} {c s : FileArray}

/-- The first free slots of twin tables are the same exactly when a free slot of the
child lies below every slot that differs. -/
theorem Twins.firstFree (h : Twins own free c s) :
    firstFree s = firstFree c ↔ ∀ d ∈ own, ∃ f ∈ free, f < d := by
  constructor
  · intro he d hd
    cases hc : Mp3Kernel.firstFree c with
    | none =>
      rw [hc] at he
      have h1 := firstFree_none_iff.mp hc d
      have h2 := firstFree_none_iff.mp he d
      exact absurd (((h d).differ hd).mpr h1) h2
    | some f =>
      rw [hc] at he
      obtain ⟨hcf, hcmin⟩ := firstFree_iff.mp hc
      obtain ⟨hsf, hsmin⟩ := firstFree_iff.mp he
      refine ⟨f, (h f).free.mpr hcf, ?_⟩
      have hne : f ≠ d := by
        rintro rfl
        exact ((h f).differ hd).mp hsf hcf
      by_contra hlt
      have hdf : d < f := lt_of_le_of_ne (not_lt.mp hlt) hne.symm
      exact hsmin d hdf (((h d).differ hd).mpr (hcmin d hdf))
  · intro hall
    cases hc : Mp3Kernel.firstFree c with
    | none =>
      have hnone := firstFree_none_iff.mp hc
      refine firstFree_none_iff.mpr fun i => ?_
      have hi : i ∉ own := fun hi => by
        obtain ⟨f, hf, -⟩ := hall i hi
        exact hnone f ((h f).free.mp hf)
      rw [(h i).flags hi]
      exact hnone i
    | some f =>
      obtain ⟨hcf, hcmin⟩ := firstFree_iff.mp hc
      -- every slot that differs is behind the child's first free one
      have hbelow : ∀ d ∈ own, f < d := by
        intro d hd
        obtain ⟨g, hg, hgd⟩ := hall d hd
        refine lt_of_le_of_lt ?_ hgd
        by_contra hlt
        exact hcmin g (not_le.mp hlt) ((h g).free.mp hg)
      have hout : ∀ j ≤ f, j ∉ own := fun j hj hjo => absurd (hbelow j hjo) (not_lt.mpr hj)
      refine firstFree_iff.mpr ⟨?_, fun j hj => ?_⟩
      · rw [(h f).flags (hout f (le_refl f))]
        exact hcf
      · rw [(h j).flags (hout j hj.le)]
        exact hcmin j hj

theorem Twins.update (h : Twins own free c s) {i : Fin maxOpenFiles} {x y : Fd}
    (hrest : ∀ j, j ≠ i → (j ∈ own' ↔ j ∈ own) ∧ (j ∈ free' ↔ j ∈ free))
    (hi : TwinSlot (i ∈ own') (i ∈ free') x y) :
    Twins own' free' (Function.update c i x) (Function.update s i y) := by
  intro j
  by_cases hj : j = i
  · subst hj
    rw [Function.update_self, Function.update_self]
    exact hi
  · rw [Function.update_of_ne hj, Function.update_of_ne hj, (hrest j hj).1, (hrest j hj).2]
    exact h j

/-! ### One call -/

/-- What `close` does to a slot. -/
def closeSlot (x : Fd) : Int32 × Fd :=
  if x.flags = 0 then (-1, x) else (callClose x.fopJumpTable.closeOp x.inode, closedFd x)

theorem closeFile_eq {fa : FileArray} {fd : Int32} {i : Fin maxOpenFiles} (hi : slotOf fd = some i) :
    closeFile fa fd = ((closeSlot (fa i)).1, Function.update fa i (closeSlot (fa i)).2) := by
  unfold closeFile closeSlot
  rw [hi]
  simp only
  split_ifs with hf
  · rw [Function.update_eq_self]
  · rfl

/-- Closing twin slots has the same result, and they do not differ any more. -/
theorem TwinSlot.close {o f : Prop} {x y : Fd} (h : TwinSlot o f x y) :
    (closeSlot y).1 = (closeSlot x).1 ∧ TwinSlot False True (closeSlot x).2 (closeSlot y).2 := by
  have hcl : callClose y.fopJumpTable.closeOp y.inode = callClose x.fopJumpTable.closeOp x.inode := by
    rw [h.table, h.inode]
  by_cases ho : o
  · obtain ⟨hin, htype⟩ := h.unused ho
    have hpos : ∀ {P : Prop}, x.fopJumpTable.readOp = .dirRead ∨ x.fopJumpTable.readOp = .fileRead → P := by
      intro P hr
      rcases h.reading ho with h1 | h1 <;> rw [h1] at hr <;> simp at hr
    by_cases hx : x.flags = 0
    · have hy : ¬ y.flags = 0 := fun hy => (h.differ ho).mp hy hx
      unfold closeSlot
      rw [if_pos hx, if_neg hy, hcl]
      refine ⟨h.closing ho, ?_⟩
      exact ⟨by simp [hx], h.table, hin.symm, htype.symm, fun hr => hpos hr, fun _ => hx.symm, False.elim, False.elim,
        False.elim, False.elim⟩
    · have hy : y.flags = 0 := (h.differ ho).mpr hx
      unfold closeSlot
      rw [if_neg hx, if_pos hy]
      refine ⟨(h.closing ho).symm, ?_⟩
      exact ⟨by simp [closedFd], h.table, h.inode.trans hin, h.fileType.trans htype, fun hr => hpos hr, fun _ => hy,
        False.elim, False.elim, False.elim, False.elim⟩
  · have hfl := h.flags ho
    unfold closeSlot
    rw [hfl]
    split_ifs with hx
    · exact ⟨rfl, ⟨by simp [hx], h.table, h.inode, h.fileType, h.position, fun _ => hfl, False.elim, False.elim,
        False.elim, False.elim⟩⟩
    · exact ⟨hcl, ⟨by simp [closedFd], h.table, rfl, rfl, fun _ => rfl, fun _ => rfl, False.elim, False.elim,
        False.elim, False.elim⟩⟩

theorem callRead_position {img : Image} {op : ReadOp} {inode : Int32} {buf : Buf} {nbytes p q : Int32}
    {line : Option Line} (h : op = .dirRead ∨ op = .fileRead → q = p) :
    callRead img op inode buf nbytes q line = callRead img op inode buf nbytes p line := by
  cases op with
  | dirRead => rw [h (Or.inl rfl)]
  | fileRead => rw [h (Or.inr rfl)]
  | _ => cases line <;> rfl

/-- Reading twin slots without the keyboard delivers the same. -/
theorem Twins.read (h : Twins own free c s) {img : Image} {i : Fin maxOpenFiles} {buf : Buf} {nbytes : Int32}
    {got : Delivery} {c' : FileArray} (hc : readBody img c i buf nbytes none = some (got, c')) :
    ∃ s', readBody img s i buf nbytes none = some (got, s') ∧ Twins own free c' s' := by
  have hi := h i
  unfold readBody at hc ⊢
  rw [hi.table, hi.inode, callRead_position hi.position]
  cases hg : callRead img (c i).fopJumpTable.readOp (c i).inode buf nbytes (c i).filePosition none with
  | none =>
    rw [hg] at hc
    cases hc
  | some g =>
    rw [hg] at hc
    simp only [Option.some.injEq, Prod.mk.injEq] at hc
    obtain ⟨rfl, rfl⟩ := hc
    -- where the flags differ, the operation has failed and the flag is not looked at
    have hret : (if (s i).flags = 0 ∧ g.ret = 1 then -1 else g.ret) =
        if (c i).flags = 0 ∧ g.ret = 1 then -1 else g.ret := by
      by_cases ho : i ∈ own
      · have hg1 : g.ret ≠ 1 := by
          rcases hi.reading ho with hop | hop
          · rw [hop] at hg
            obtain rfl := Option.some.inj hg
            simp
          · rw [hop] at hg
            cases hg
        rw [if_neg fun hx => hg1 hx.2, if_neg fun hx => hg1 hx.2]
      · rw [hi.flags ho]
    refine ⟨Function.update s i { s i with filePosition := (s i).filePosition + advance (s i).fileType g.ret }, ?_,
      h.update (fun j _ => ⟨Iff.rfl, Iff.rfl⟩) ?_⟩
    · simp only [hret]
    · refine { hi with position := fun hr => ?_ }
      show (s i).filePosition + advance (s i).fileType g.ret = (c i).filePosition + advance (c i).fileType g.ret
      rw [hi.position hr, hi.fileType]

theorem Twins.open (h : Twins own free c s) {img : Image} {name : List UInt8} {r : Int32} {c' : FileArray}
    (hex : (readDentryByName img.boot name).isSome) (hc : openFile img c (some name) = some (r, c'))
    (hok : ∀ d ∈ own, ∃ f ∈ free, f < d) :
    ∃ s', openFile img s (some name) = some (r, s') ∧
      Twins own (free.filter fun i => ∃ f ∈ free, f < i) c' s' := by
  obtain ⟨d, hd⟩ := Option.isSome_iff_exists.mp hex
  rw [openFile_eq hd] at hc ⊢
  rw [h.firstFree.mpr hok]
  cases hf : Mp3Kernel.firstFree c with
  | none =>
    rw [hf] at hc
    simp only [Option.some.injEq, Prod.mk.injEq] at hc
    obtain ⟨rfl, rfl⟩ := hc
    refine ⟨s, rfl, fun i => ?_⟩
    have hempty : ∀ j, j ∉ free := fun j hj => firstFree_none_iff.mp hf j ((h j).free.mp hj)
    have hi := h i
    refine { hi with free := ?_ }
    rw [← hi.free]
    simp [hempty]
  | some f =>
    rw [hf] at hc
    obtain ⟨ops, hops, hx⟩ := Option.map_eq_some_iff.mp hc
    simp only [Prod.mk.injEq] at hx
    obtain ⟨rfl, rfl⟩ := hx
    obtain ⟨hcf, hcmin⟩ := firstFree_iff.mp hf
    obtain ⟨hsf, -⟩ := firstFree_iff.mp ((h.firstFree.mpr hok).trans hf)
    have hno : f ∉ own := fun ho => ((h f).differ ho).mp hsf hcf
    have hmin : ∀ g ∈ free, f ≤ g := fun g hg => not_lt.mp fun hlt => hcmin g hlt ((h g).free.mp hg)
    refine ⟨Function.update s f (openedFd d ops), by simp only [hops, Option.map_some],
      h.update (fun j hj => ⟨Iff.rfl, ?_⟩) ?_⟩
    · rw [Finset.mem_filter]
      refine ⟨fun hh => hh.1, fun hh => ⟨hh, f, (h f).free.mpr hcf, ?_⟩⟩
      exact lt_of_le_of_ne (hmin j hh) hj.symm
    · have hff : f ∉ free.filter fun i => ∃ g ∈ free, g < i := by
        rw [Finset.mem_filter]
        rintro ⟨-, g, hg, hlt⟩
        exact absurd (hmin g hg) (not_le.mpr hlt)
      exact ⟨iff_of_false hff (by simp [openedFd]), rfl, rfl, rfl, fun _ => rfl, fun _ => rfl, fun ho => absurd ho hno,
        fun ho => absurd ho hno, fun ho => absurd ho hno, fun ho => absurd ho hno⟩

/-- Where the first free slots are not the same, `open` does not return the same. -/
theorem open_differs {img : Image} {name : List UInt8} {r : Int32} {c' : FileArray}
    (hex : (readDentryByName img.boot name).isSome) (hne : Mp3Kernel.firstFree s ≠ Mp3Kernel.firstFree c)
    (hc : openFile img c (some name) = some (r, c')) (s' : FileArray) :
    openFile img s (some name) ≠ some (r, s') := by
  obtain ⟨d, hd⟩ := Option.isSome_iff_exists.mp hex
  intro hs
  rcases opened_cases hd hc with ⟨hf, rfl, -⟩ | ⟨f, ops, hf, -, rfl, -⟩
  · rcases opened_cases hd hs with ⟨hg, -, -⟩ | ⟨g, ops', -, -, hr, -⟩
    · exact hne (hg.trans hf.symm)
    · exact ofNat_slot_ne g hr.symm
  · rcases opened_cases hd hs with ⟨-, hr, -⟩ | ⟨g, ops', hg, -, hr, -⟩
    · exact ofNat_slot_ne f hr
    · exact hne (by rw [hf, hg, ofNat_slot_inj hr])

theorem callWrite_ret (dev dev' : Devices) (op : WriteOp) (term term' : ℤ) (buf : Buf) (nbytes : Int32) :
    (callWrite dev op term buf nbytes).1 = (callWrite dev' op term' buf nbytes).1 := by
  cases op with
  | rtcWrite =>
    simp only [callWrite, rtcWrite]
    split_ifs <;> rfl
  | _ => rfl

theorem Twins.write (h : Twins own free c s) (dev dev' : Devices) (term term' : ℤ) (fd : Int32) (buf : Option Buf)
    (nbytes : Int32) :
    (writeFile s dev' term' fd buf nbytes).1 = (writeFile c dev term fd buf nbytes).1 := by
  unfold writeFile
  split
  · rw [(h _).table]
    exact callWrite_ret ..
  · rfl

end Twin

/-- The call reads no line from the keyboard. -/
def NoLine : Syscall → Prop
  | .files (.read _ _ _ line) => line = none
  | _ => True

section Request

variable {own free : Finset (Fin maxOpenFiles)} {c s : FileArray} {img : Image}

/-- What a request does to twins: if it meets no difference between them, it has the same
reply in both and they stay twins; if it does, the replies are not the same. -/
structure Answers (img : Image) (own free : Finset (Fin maxOpenFiles)) (s : FileArray) (r : Request) (c' : FileArray)
    (out : Outcome) : Prop where
  same : CallOk img own free (.files r) → ∃ s', fileRequest img s r = some (s', out) ∧
    Twins (nextOwn own (.files r)) (nextFree img free (.files r)) c' s'
  differs : ¬ CallOk img own free (.files r) → ∀ s', fileRequest img s r ≠ some (s', out)

theorem Twins.openRequest (h : Twins own free c s) (name : List UInt8) {c' : FileArray} {out : Outcome}
    (hc : fileRequest img c (.openFile (some name)) = some (c', out)) :
    Answers img own free s (.openFile (some name)) c' out := by
  obtain ⟨y, hy, hye⟩ := Option.map_eq_some_iff.mp hc
  simp only [Prod.mk.injEq] at hye
  obtain ⟨rfl, rfl⟩ := hye
  cases hd : readDentryByName img.boot name with
  | none =>
    rw [openFile_absent hd] at hy
    obtain rfl := Option.some.inj hy
    have hex : ¬ (readDentryByName img.boot name).isSome := by simp [hd]
    refine ⟨fun _ => ⟨s, ?_, ?_⟩, fun hno => absurd (fun he => absurd he hex) hno⟩
    · simp only [fileRequest, openFile_absent hd, Option.map_some]
    · simp only [nextFree, hex]
      exact h
  | some d =>
    have hex : (readDentryByName img.boot name).isSome := by simp [hd]
    refine ⟨fun hcall => ?_, fun hno s' hs => ?_⟩
    · obtain ⟨s', hs, htw⟩ := h.open hex hy (hcall hex)
      refine ⟨s', by simp only [fileRequest, hs, Option.map_some], ?_⟩
      simp only [nextFree, hex, if_true]
      exact htw
    · have hok : ¬ ∀ d ∈ own, ∃ f ∈ free, f < d := fun hok => hno fun _ => hok
      obtain ⟨w, hw, hwe⟩ := Option.map_eq_some_iff.mp hs
      simp only [Prod.mk.injEq, Outcome.ret.injEq] at hwe
      refine open_differs hex (fun he => hok (h.firstFree.mp he)) hy w.2 ?_
      rw [hw, ← hwe.2]

theorem Twins.closeRequest (h : Twins own free c s) (fd : Int32) {c' : FileArray} {out : Outcome}
    (hc : fileRequest img c (.close fd) = some (c', out)) : Answers img own free s (.close fd) c' out := by
  simp only [fileRequest, Option.some.injEq, Prod.mk.injEq] at hc
  obtain ⟨rfl, rfl⟩ := hc
  refine ⟨fun _ => ⟨(closeFile s fd).2, ?_, ?_⟩, fun hno => absurd trivial hno⟩
  · cases hi : slotOf fd with
    | none => simp [fileRequest, closeFile, hi]
    | some i => simp only [fileRequest, closeFile_eq hi, (h i).close.1]
  · cases hi : slotOf fd with
    | none =>
      simp only [closeFile, nextOwn, nextFree, hi]
      simpa using h
    | some i =>
      simp only [closeFile_eq hi, nextOwn, nextFree, hi]
      refine h.update (fun j hj => ?_) ?_
      · simp [Ne.symm hj]
      · simpa using (h i).close.2

theorem Twins.readRequest (h : Twins own free c s) (fd : Int32) (buf : Option Buf) (nbytes : Int32) {c' : FileArray}
    {out : Outcome} (hc : fileRequest img c (.read fd buf nbytes none) = some (c', out)) :
    Answers img own free s (.read fd buf nbytes none) c' out := by
  refine ⟨fun _ => ?_, fun hno => absurd trivial hno⟩
  rcases refused_or_slot fd buf with hno | ⟨i, b, hi, rfl⟩
  · rw [fileRequest_refused hno] at hc
    simp only [Option.some.injEq, Prod.mk.injEq] at hc
    obtain ⟨rfl, rfl⟩ := hc
    exact ⟨s, fileRequest_refused hno, h⟩
  · simp only [fileRequest, hi] at hc ⊢
    obtain ⟨y, hy, hye⟩ := Option.map_eq_some_iff.mp hc
    simp only [Prod.mk.injEq] at hye
    obtain ⟨rfl, rfl⟩ := hye
    obtain ⟨s', hs, htw⟩ := h.read hy
    exact ⟨s', by rw [hs]; rfl, htw⟩

/-- Every request that reads no line. -/
theorem Twins.request (h : Twins own free c s) {r : Request} (hl : NoLine (.files r)) {c' : FileArray} {out : Outcome}
    (hc : fileRequest img c r = some (c', out)) : Answers img own free s r c' out := by
  cases r with
  | openFile filename =>
    cases filename with
    | none =>
      have hc' : some (c, Outcome.ret (-1)) = some (c', out) := hc
      simp only [Option.some.injEq, Prod.mk.injEq] at hc'
      obtain ⟨rfl, rfl⟩ := hc'
      exact ⟨fun _ => ⟨s, rfl, h⟩, fun hno => absurd trivial hno⟩
    | some name => exact h.openRequest name hc
  | close fd => exact h.closeRequest fd hc
  | read fd buf nbytes line =>
    obtain rfl : line = none := hl
    exact h.readRequest fd buf nbytes hc

end Request

/-- **One call.** If the call meets no difference between twin sessions, it has the
same reply in both and they stay twins; if it does, the replies are not the same. -/
theorem twins_step {own free : Finset (Fin maxOpenFiles)} {c s c' : Session} {img : Image} {term : ℤ} (term' : ℤ)
    {r : Syscall} {out : Outcome} (h : Twins own free c.files s.files) (hl : NoLine r)
    (hc : c.call img term r = some (c', out)) :
    (CallOk img own free r ∧ ∃ s', s.call img term' r = some (s', out) ∧
      Twins (nextOwn own r) (nextFree img free r) c'.files s'.files) ∨
    (¬ CallOk img own free r ∧ ∀ s', s.call img term' r ≠ some (s', out)) := by
  cases r with
  | write fd buf nbytes =>
    simp only [Session.call, Option.some.injEq, Prod.mk.injEq] at hc
    obtain ⟨rfl, rfl⟩ := hc
    refine Or.inl ⟨trivial, { s with dev := (writeFile s.files s.dev term' fd buf nbytes).2 }, ?_, h⟩
    simp only [Session.call]
    rw [h.write c.dev s.dev term term']
  | files r =>
    obtain ⟨x, hx, hxe⟩ := Option.map_eq_some_iff.mp hc
    simp only [Prod.mk.injEq] at hxe
    obtain ⟨rfl, rfl⟩ := hxe
    have hanswers := h.request hl hx
    by_cases hok : CallOk img own free (.files r)
    · obtain ⟨s', hs, htw⟩ := hanswers.same hok
      refine Or.inl ⟨hok, ⟨s', s.requestDevices r⟩, ?_, htw⟩
      simp only [Session.call, hs, Option.map_some]
    · refine Or.inr ⟨hok, fun s' hs => ?_⟩
      obtain ⟨z, hz, hze⟩ := Option.map_eq_some_iff.mp hs
      simp only [Prod.mk.injEq] at hze
      refine hanswers.differs hok z.1 ?_
      rw [hz, ← hze.2]

/-- Twin sessions have the same replies exactly when the calls meet no difference. -/
theorem replies_twins (img : Image) (term term' : ℤ) : ∀ (cs : List Syscall) (own free : Finset (Fin maxOpenFiles))
    (c s : Session) (rs : List Outcome), Twins own free c.files s.files → (∀ r ∈ cs, NoLine r) →
    replies img term c cs = some rs → (replies img term' s cs = some rs ↔ Agreeable img own free cs)
  | [], _, _, _, _, rs, _, _, hc => by
    obtain rfl : [] = rs := by simpa [replies] using hc
    exact iff_of_true rfl trivial
  | r :: cs, own, free, c, s, rs, h, hl, hc => by
    obtain ⟨hl1, hl2⟩ := List.forall_mem_cons.mp hl
    rw [replies] at hc
    cases hcall : c.call img term r with
    | none =>
      rw [hcall] at hc
      cases hc
    | some x =>
      obtain ⟨c', out⟩ := x
      rw [hcall] at hc
      obtain ⟨rs', hrs', rfl⟩ := Option.map_eq_some_iff.mp hc
      rw [Agreeable, replies]
      rcases twins_step term' h hl1 hcall with ⟨hok, s', hs, htw⟩ | ⟨hok, hs⟩
      · have ih := replies_twins img term term' cs _ _ c' s' rs' htw hl2 hrs'
        rw [hs]
        simp only [hok, true_and]
        rw [← ih]
        constructor
        · intro hx
          obtain ⟨ys, hys, hye⟩ := Option.map_eq_some_iff.mp hx
          injection hye with _ hye
          rw [hys, hye]
        · intro hx
          rw [hx]
          rfl
      · refine iff_of_false (fun hx => ?_) fun hx => hok hx.1
        cases hsc : s.call img term' r with
        | none =>
          rw [hsc] at hx
          cases hx
        | some y =>
          rw [hsc] at hx
          obtain ⟨ys, -, hye⟩ := Option.map_eq_some_iff.mp hx
          injection hye with hye _
          exact hs y.1 (by rw [hsc, ← hye])

/-- **The two ways a process is created.** A program that makes the same descriptor
calls as a child and as a base shell gets the same replies exactly when each of its
`open`s of a name that exists finds a slot free in the child below every slot that
`execute_shells` flagged wrongly and that was not closed before. -/
theorem creation_paths_agree (img : Image) (term term' : ℤ) (dev dev' : Devices) (t : Fin 3) (cs : List Syscall)
    (hl : ∀ r ∈ cs, NoLine r) (rs : List Outcome) (hc : replies img term ⟨childFiles, dev⟩ cs = some rs) :
    replies img term' ⟨shellFiles (num t), dev'⟩ cs = some rs ↔ Agreeable img (misflagged t) childFree cs :=
  replies_twins img term term' cs _ _ _ _ rs (twins_start t) hl hc

/-- Close descriptor 2, which fails, and open the file "shell". -/
def closeOpen : List Syscall := [.files (.close 2), .files (.openFile (some shellName))]

theorem creation_paths_agree_closeOpen :
    replies smallImage 0 ⟨shellFiles (num 0), offKernel.dev⟩ closeOpen = some [.ret (-1), .ret 2] := by
  have hagree : Agreeable smallImage (misflagged 0) childFree closeOpen := by
    refine ⟨trivial, fun _ => ?_, trivial⟩
    decide +kernel
  refine (creation_paths_agree smallImage 0 0 offKernel.dev offKernel.dev 0 closeOpen ?_ _ rfl).mpr hagree
  simp [closeOpen, NoLine]

/-- A new child opens "shell" as descriptor 2; the base shell of the first terminal
has no free slot at all. -/
theorem base_shell_cannot_open :
    replies smallImage 0 ⟨childFiles, offKernel.dev⟩ [.files (.openFile (some shellName))] = some [.ret 2] ∧
      replies smallImage 0 ⟨shellFiles (num 0), offKernel.dev⟩ [.files (.openFile (some shellName))] =
        some [.ret (-1)] ∧
      (some [.ret 2] : Option (List Outcome)) ≠ some [.ret (-1)] := by
  refine ⟨rfl, rfl, ?_⟩
  simp

end Mp3Kernel
