/-
# Sessions: the descriptor calls of one process

A process sees its descriptors through `open`, `close` and `read`, which act on its
table alone (`fileRequest`), and `write`, which reads the table and acts on the
devices. A session is a process's table and the devices; it starts with the table
that `execute` or `execute_shells` fills in.

`fileRequest_cases` says once what a request can do to a table, and the invariants
here are derived from it. Two of them bear on descriptors that are closed: the
guard of `read` and `write` is the jump table left in a slot, not its flag, so a
closed descriptor is never dead for `read` (`dead_descriptor`); and `close` resets a
slot whatever the operation it dispatches to has returned, so the standard streams
are kept exactly as long as nobody closes them (`streams_kept`).

Key definitions: `Request`, `fileRequest`, `Session`, `SessionRun`.
Key theorems: `fileRequest_cases`, `dead_descriptor`, `streams_kept`.
-/
import Mp3Kernel.System

namespace Mp3Kernel

open Past

/-! ### Requests -/

/-- A call that acts on the caller's table; the line the keyboard delivers to a read
comes with it. -/
inductive Request where
  | openFile (filename : Option (List UInt8))
  | close (fd : Int32)
  | read (fd : Int32) (buf : Option Buf) (nbytes : Int32) (line : Option Line)

/-- What a request does to the table, and its outcome. -/
def fileRequest (img : Image) (fa : FileArray) : Request → Option (FileArray × Outcome)
  | .openFile filename => (openFile img fa filename).map fun r => (r.2, .ret r.1)
  | .close fd => some ((closeFile fa fd).2, .ret (closeFile fa fd).1)
  | .read fd buf nbytes line =>
    match slotOf fd, buf with
    | some i, some b => (readBody img fa i b nbytes line).map fun r => (r.2, .delivered r.1)
    | _, _ => some (fa, .ret (-1))

/-- A descriptor call. -/
inductive Syscall where
  | files (r : Request)
  | write (fd : Int32) (buf : Option Buf) (nbytes : Int32)

/-- A process's table and the devices. -/
structure Session where
  files : FileArray
  dev : Devices

/-- The devices after a request. -/
def Session.requestDevices (s : Session) : Request → Devices
  | .read fd (some _) _ _ =>
    match slotOf fd with
    | some i => readDevices s.dev (s.files i).fopJumpTable.readOp
    | none => s.dev
  | _ => s.dev

/-- A descriptor call of a process of terminal `term`. -/
def Session.call (img : Image) (term : ℤ) (s : Session) : Syscall → Option (Session × Outcome)
  | .files r => (fileRequest img s.files r).map fun x => (⟨x.1, s.requestDevices r⟩, x.2)
  | .write fd buf nbytes =>
    let r := writeFile s.files s.dev term fd buf nbytes
    some ({ s with dev := r.2 }, .ret r.1)

/-- The calls of a session so far, newest first. -/
abbrev Calls := List (Entry Session (Syscall × Outcome))

/-- The session started in a state of `init` and made the calls `tr`. -/
abbrev SessionRun (img : Image) (term : ℤ) (init : Session → Prop) (tr : Calls) (s : Session) : Prop :=
  Hist init (fun s l s' => s.call img term l.1 = some (s', l.2)) tr s

/-- The session of a process started by `execute`. -/
def OfChild (s : Session) : Prop := s.files = childFiles

/-- The session of any process: started by `execute`, or a base shell. -/
def OfProcess (s : Session) : Prop := OfChild s ∨ ∃ t, s.files = shellFiles (num t)

/-! ### What a request can do -/

theorem firstFree_iff {fa : FileArray} {i : Fin maxOpenFiles} :
    firstFree fa = some i ↔ (fa i).flags = 0 ∧ ∀ j < i, (fa j).flags ≠ 0 := by
  unfold firstFree List.finRange
  rw [List.find?_ofFn_eq_some]
  simp

theorem firstFree_none_iff {fa : FileArray} : firstFree fa = none ↔ ∀ i, (fa i).flags ≠ 0 := by
  unfold firstFree
  rw [List.find?_eq_none]
  simp

theorem slotOf_ofNat : ∀ i : Fin maxOpenFiles, slotOf (Int32.ofNat i) = some i := by decide

theorem ofNat_slot_ne : ∀ i : Fin maxOpenFiles, Int32.ofNat i ≠ -1 := by decide

theorem ofNat_slot_inj {i j : Fin maxOpenFiles} (h : Int32.ofNat i = Int32.ofNat j) : i = j := by
  have hi := slotOf_ofNat i
  rw [h, slotOf_ofNat j] at hi
  exact (Option.some.inj hi).symm

theorem callOpen_fileTable {img : Image} {name : List UInt8} {d : Dentry} {ops : FopTable}
    (hd : readDentryByName img.boot name = some d) (hops : fileTable d.fileType = some ops) :
    callOpen img ops.openOp name = 0 := by
  unfold fileTable at hops
  split at hops
  · obtain rfl := Option.some.inj hops
    rfl
  · obtain rfl := Option.some.inj hops
    simp [callOpen, hd]
  · obtain rfl := Option.some.inj hops
    simp [callOpen, hd]
  · cases hops

/-- `open` of a name that exists. -/
theorem openFile_eq {img : Image} {fa : FileArray} {name : List UInt8} {d : Dentry}
    (hd : readDentryByName img.boot name = some d) : openFile img fa (some name) =
      match firstFree fa with
      | none => some (-1, fa)
      | some i => (fileTable d.fileType).map fun ops => (Int32.ofNat i, Function.update fa i (openedFd d ops)) := by
  unfold openFile
  simp only [hd]
  cases firstFree fa with
  | none => rfl
  | some i =>
    simp only
    cases hops : fileTable d.fileType with
    | none => rfl
    | some ops => simp [callOpen_fileTable hd hops]

theorem openFile_absent {img : Image} {name : List UInt8} (hd : readDentryByName img.boot name = none)
    (fa : FileArray) : openFile img fa (some name) = some (-1, fa) := by
  unfold openFile
  simp only [hd]

/-- What `open` of a name that exists has done: nothing in a full table, or it has filled
in the first free slot. -/
theorem opened_cases {img : Image} {fa fa' : FileArray} {name : List UInt8} {d : Dentry} {fd : Int32}
    (hd : readDentryByName img.boot name = some d) (ho : openFile img fa (some name) = some (fd, fa')) :
    (firstFree fa = none ∧ fd = -1 ∧ fa' = fa) ∨
    ∃ i ops, firstFree fa = some i ∧ fileTable d.fileType = some ops ∧ fd = Int32.ofNat i ∧
      fa' = Function.update fa i (openedFd d ops) := by
  rw [openFile_eq hd] at ho
  cases hi : firstFree fa with
  | none =>
    simp only [hi, Option.some.injEq, Prod.mk.injEq] at ho
    exact Or.inl ⟨rfl, ho.1.symm, ho.2.symm⟩
  | some i =>
    simp only [hi] at ho
    obtain ⟨ops, hops, hx⟩ := Option.map_eq_some_iff.mp ho
    simp only [Prod.mk.injEq] at hx
    exact Or.inr ⟨i, ops, rfl, hops, hx.1.symm, hx.2.symm⟩

theorem readBody_files {img : Image} {fa fa' : FileArray} {i : Fin maxOpenFiles} {buf : Buf} {nbytes : Int32}
    {line : Option Line} {got : Delivery} (h : readBody img fa i buf nbytes line = some (got, fa')) :
    ∃ pos, fa' = Function.update fa i { fa i with filePosition := pos } := by
  unfold readBody at h
  split at h
  · cases h
  · simp only [Option.some.injEq, Prod.mk.injEq] at h
    exact ⟨_, h.2.symm⟩

theorem fileRequest_read {img : Image} {fa : FileArray} {fd : Int32} {i : Fin maxOpenFiles} (hfd : slotOf fd = some i)
    (hflags : (fa i).flags ≠ 0) {buf : Buf} {nbytes : Int32} {line : Option Line} {got : Delivery}
    (hcall : callRead img (fa i).fopJumpTable.readOp (fa i).inode buf nbytes (fa i).filePosition line = some got) :
    fileRequest img fa (.read fd (some buf) nbytes line) = some (Function.update fa i
      { fa i with filePosition := (fa i).filePosition + advance (fa i).fileType got.ret }, .delivered got) := by
  have hret : ¬ ((fa i).flags = 0 ∧ got.ret = 1) := fun h => hflags h.1
  simp only [fileRequest, hfd, readBody, hcall, if_neg hret, Option.map_some]

theorem fileRequest_refused {img : Image} {fa : FileArray} {fd : Int32} {buf : Option Buf} {nbytes : Int32}
    {line : Option Line} (h : slotOf fd = none ∨ buf = none) :
    fileRequest img fa (.read fd buf nbytes line) = some (fa, .ret (-1)) := by
  unfold fileRequest
  simp only
  split
  · rename_i i b hi
    rcases h with h | h
    · rw [hi] at h
      cases h
    · cases h
  · rfl

theorem refused_or_slot (fd : Int32) (buf : Option Buf) :
    (slotOf fd = none ∨ buf = none) ∨ ∃ i b, slotOf fd = some i ∧ buf = some b := by
  cases hi : slotOf fd with
  | none => exact Or.inl (Or.inl rfl)
  | some i =>
    cases buf with
    | none => exact Or.inl (Or.inr rfl)
    | some b => exact Or.inr ⟨i, b, rfl, rfl⟩

/-- **What a request can do to a table.** It fails and changes nothing; or it opens
the first free slot; or it closes a slot in use; or it reads, which moves one
position. -/
theorem fileRequest_cases {img : Image} {fa fa' : FileArray} {r : Request} {out : Outcome}
    (h : fileRequest img fa r = some (fa', out)) :
    (fa' = fa ∧ out = .ret (-1)) ∨
    (∃ name d i ops, r = .openFile (some name) ∧ readDentryByName img.boot name = some d ∧ firstFree fa = some i ∧
      fileTable d.fileType = some ops ∧ fa' = Function.update fa i (openedFd d ops) ∧ out = .ret (Int32.ofNat i)) ∨
    (∃ fd i, r = .close fd ∧ slotOf fd = some i ∧ (fa i).flags ≠ 0 ∧ fa' = Function.update fa i (closedFd (fa i)) ∧
      out = .ret (callClose (fa i).fopJumpTable.closeOp (fa i).inode)) ∨
    (∃ fd buf nbytes line i got, r = .read fd (some buf) nbytes line ∧ slotOf fd = some i ∧
      readBody img fa i buf nbytes line = some (got, fa') ∧ out = .delivered got) := by
  cases r with
  | openFile filename =>
    obtain ⟨x, hx, hxe⟩ := Option.map_eq_some_iff.mp h
    simp only [Prod.mk.injEq] at hxe
    obtain ⟨rfl, rfl⟩ := hxe
    cases filename with
    | none =>
      obtain rfl : (-1, fa) = x := by simpa [openFile] using hx
      exact Or.inl ⟨rfl, rfl⟩
    | some name =>
      cases hd : readDentryByName img.boot name with
      | none =>
        obtain rfl : (-1, fa) = x := Option.some.inj ((openFile_absent hd fa).symm.trans hx)
        exact Or.inl ⟨rfl, rfl⟩
      | some d =>
        rcases opened_cases hd hx with ⟨-, hret, hfa⟩ | ⟨i, ops, hi, hops, hret, hfa⟩
        · exact Or.inl ⟨hfa, by rw [hret]⟩
        · exact Or.inr (Or.inl ⟨name, d, i, ops, rfl, hd, hi, hops, hfa, by rw [hret]⟩)
  | close fd =>
    simp only [fileRequest, Option.some.injEq, Prod.mk.injEq] at h
    obtain ⟨rfl, rfl⟩ := h
    unfold closeFile
    cases hi : slotOf fd with
    | none => exact Or.inl ⟨rfl, rfl⟩
    | some i =>
      simp only
      split_ifs with hf
      · exact Or.inl ⟨rfl, rfl⟩
      · exact Or.inr (Or.inr (Or.inl ⟨fd, i, rfl, hi, hf, rfl, rfl⟩))
  | read fd buf nbytes line =>
    rcases refused_or_slot fd buf with hno | ⟨i, b, hi, rfl⟩
    · rw [fileRequest_refused hno] at h
      simp only [Option.some.injEq, Prod.mk.injEq] at h
      exact Or.inl ⟨h.1.symm, h.2.symm⟩
    · simp only [fileRequest, hi] at h
      obtain ⟨x, hx, hxe⟩ := Option.map_eq_some_iff.mp h
      simp only [Prod.mk.injEq] at hxe
      obtain ⟨rfl, rfl⟩ := hxe
      exact Or.inr (Or.inr (Or.inr ⟨fd, b, nbytes, line, i, x.1, rfl, hi, hx, rfl⟩))

/-- A descriptor call is a request, or leaves the table alone. -/
theorem call_files {img : Image} {term : ℤ} {s s' : Session} {c : Syscall} {out : Outcome}
    (h : s.call img term c = some (s', out)) :
    (∃ r, c = .files r ∧ fileRequest img s.files r = some (s'.files, out)) ∨
      (s'.files = s.files ∧ ∃ fd buf nbytes, c = .write fd buf nbytes) := by
  cases c with
  | files r =>
    obtain ⟨x, hx, hxe⟩ := Option.map_eq_some_iff.mp h
    simp only [Prod.mk.injEq] at hxe
    obtain ⟨rfl, rfl⟩ := hxe
    exact Or.inl ⟨r, rfl, hx⟩
  | write fd buf nbytes =>
    simp only [Session.call, Option.some.injEq, Prod.mk.injEq] at h
    exact Or.inr ⟨by rw [← h.1], fd, buf, nbytes, rfl⟩

/-- A property of tables that every request keeps holds in every session. -/
theorem files_inv {img : Image} {term : ℤ} {init : Session → Prop} (P : FileArray → Prop)
    (h0 : ∀ s, init s → P s.files)
    (hs : ∀ fa r fa' out, P fa → fileRequest img fa r = some (fa', out) → P fa')
    {tr : Calls} {s : Session} (h : SessionRun img term init tr s) : P s.files := by
  refine Hist.inv (fun _ s => P s.files) h0 ?_ h
  rintro _ s ⟨c, out⟩ s' - hp hst
  rcases call_files hst with ⟨r, -, hr⟩ | ⟨hf, -⟩
  · exact hs _ _ _ _ hp hr
  · rw [hf]
    exact hp

/-! ### Closed descriptors -/

/-- A slot that is not in use has no file type. -/
def NoStaleType (fa : FileArray) : Prop := ∀ i, (fa i).flags = 0 → (fa i).fileType = -1

theorem noStaleType_update {fa : FileArray} (h : NoStaleType fa) {i : Fin maxOpenFiles} {slot : Fd}
    (hs : slot.flags = 0 → slot.fileType = -1) : NoStaleType (Function.update fa i slot) := by
  intro j
  by_cases hj : j = i
  · rw [hj, Function.update_self]
    exact hs
  · rw [Function.update_of_ne hj]
    exact h j

theorem noStaleType_of_run {img : Image} {term : ℤ} {tr : Calls} {s : Session}
    (h : SessionRun img term OfProcess tr s) : NoStaleType s.files := by
  refine files_inv NoStaleType ?_ ?_ h
  · rintro s (hs | ⟨t, hs⟩) i -
    · rw [hs]
      rfl
    · rw [hs]
      rfl
  · intro fa r fa' out hp hr
    rcases fileRequest_cases hr with ⟨rfl, -⟩ | ⟨_, d, i, ops, -, -, -, -, rfl, -⟩ | ⟨_, i, -, -, -, rfl, -⟩ |
      ⟨_, _, _, _, i, _, -, -, hb, -⟩
    · exact hp
    · exact noStaleType_update hp fun h0 => absurd h0 (by simp [openedFd])
    · exact noStaleType_update hp fun _ => rfl
    · obtain ⟨pos, rfl⟩ := readBody_files hb
      exact noStaleType_update hp (hp i)

/-- The operation takes this line: the keyboard's a line, every other none. -/
def Takes (op : ReadOp) (line : Option Line) : Prop := line.isSome ↔ op = .terminalRead

theorem callRead_isSome (img : Image) {op : ReadOp} {line : Option Line} (h : Takes op line) (inode : Int32)
    (buf : Buf) (nbytes pos : Int32) : ∃ got, callRead img op inode buf nbytes pos line = some got := by
  unfold Takes at h
  cases line with
  | none => cases op <;> first | exact ⟨_, rfl⟩ | exact absurd h (by simp)
  | some l => cases op <;> first | exact ⟨_, rfl⟩ | exact absurd h (by simp)

/-- A read of a slot that is not in use either moves the position there or does not
return -1: the position moves by the value the operation returned. -/
theorem readBody_not_dead {img : Image} {fa fa' : FileArray} {i : Fin maxOpenFiles} {buf : Buf} {nbytes : Int32}
    {line : Option Line} {got : Delivery} (h : readBody img fa i buf nbytes line = some (got, fa'))
    (ht : (fa i).fileType = -1) : ¬ (got.ret = -1 ∧ fa' = fa) := by
  rintro ⟨hret, hfa⟩
  unfold readBody at h
  split at h
  · cases h
  · rename_i g hg
    simp only [Option.some.injEq, Prod.mk.injEq] at h
    obtain ⟨rfl, hupd⟩ := h
    have hadv : advance (fa i).fileType g.ret = g.ret := by
      rw [ht]
      rfl
    have hpos : (fa i).filePosition + g.ret = (fa i).filePosition := by
      have := congrArg Fd.filePosition (congrFun (hupd.trans hfa) i)
      rw [Function.update_self, hadv] at this
      exact this
    have hzero : g.ret = 0 := Int32.add_eq_left.mp hpos
    simp [hzero] at hret

/-- The writes that return -1 and leave the devices alone: those of the operations
that do not write, a rate the clock does not take, and -1 bytes for the terminal. -/
def SilentWrite (op : WriteOp) (buf : Buf) (nbytes : Int32) : Prop :=
  match op with
  | .noFunc | .dirWrite | .fileWrite => True
  | .terminalWrite => nbytes = -1
  | .rtcWrite => rateOk (buf 0).toUInt32 = false

theorem callWrite_silent (dev : Devices) (op : WriteOp) (term : ℤ) (buf : Buf) (nbytes : Int32) :
    callWrite dev op term buf nbytes = (-1, dev) ↔ SilentWrite op buf nbytes := by
  cases op with
  | noFunc => exact iff_of_true rfl trivial
  | terminalWrite => exact terminalWrite_dead dev term buf nbytes
  | rtcWrite => exact rtcWrite_dead dev buf
  | dirWrite => exact iff_of_true rfl trivial
  | fileWrite => exact iff_of_true rfl trivial

/-- **A closed descriptor is not dead.** In every session, on every slot that is not
in use, no read does what it should, to return -1 and to change nothing; a write
does exactly when the operation left in the slot writes nothing. -/
theorem dead_descriptor {img : Image} {term : ℤ} {tr : Calls} {s : Session}
    (h : SessionRun img term OfProcess tr s) {fd : Int32} {i : Fin maxOpenFiles} (hi : slotOf fd = some i)
    (hflag : (s.files i).flags = 0) (buf : Buf) (nbytes : Int32) :
    (∀ line, Takes (s.files i).fopJumpTable.readOp line →
      ∃ s' got, s.call img term (.files (.read fd (some buf) nbytes line)) = some (s', .delivered got) ∧
        ¬ (got.ret = -1 ∧ got.buf = buf ∧ s' = s)) ∧
    ∃ s' r, s.call img term (.write fd (some buf) nbytes) = some (s', .ret r) ∧
      ((r = -1 ∧ s' = s) ↔ SilentWrite (s.files i).fopJumpTable.writeOp buf nbytes) := by
  have htype := noStaleType_of_run h i hflag
  refine ⟨fun line hline => ?_, ?_⟩
  · obtain ⟨g, hg⟩ := callRead_isSome img hline (s.files i).inode buf nbytes (s.files i).filePosition
    obtain ⟨got, fa', hb⟩ : ∃ got fa', readBody img s.files i buf nbytes line = some (got, fa') := by
      unfold readBody
      rw [hg]
      exact ⟨_, _, rfl⟩
    refine ⟨⟨fa', s.requestDevices (.read fd (some buf) nbytes line)⟩, got, ?_, ?_⟩
    · simp only [Session.call, fileRequest, hi, hb, Option.map_some]
    · rintro ⟨hret, -, hs⟩
      exact readBody_not_dead hb htype ⟨hret, congrArg Session.files hs⟩
  · have hw : writeFile s.files s.dev term fd (some buf) nbytes =
        callWrite s.dev (s.files i).fopJumpTable.writeOp term buf nbytes := by
      unfold writeFile
      rw [hi]
    refine ⟨_, _, rfl, ?_⟩
    rw [hw, ← callWrite_silent s.dev _ term, Prod.ext_iff]
    refine and_congr_right fun _ => ?_
    constructor
    · exact fun hs => congrArg Session.dev hs
    · intro hd
      rw [hd]

/-- The session of a new process of the small system, after some calls, newest first. -/
def smallSession (calls : List Syscall) : Calls × Session :=
  (run (fun s c => Session.call smallImage 0 s c) ⟨childFiles, offKernel.dev⟩ calls).getD ([], ⟨childFiles, offKernel.dev⟩)

theorem ofChild_small : OfChild ⟨childFiles, offKernel.dev⟩ := rfl

theorem sessionRun_smallSession {init : Session → Prop} (h0 : init ⟨childFiles, offKernel.dev⟩)
    (calls : List Syscall) : SessionRun smallImage 0 init (smallSession calls).1 (smallSession calls).2 := by
  unfold smallSession
  cases h : run (fun s c => Session.call smallImage 0 s c) ⟨childFiles, offKernel.dev⟩ calls with
  | none => exact Hist.start h0
  | some r => exact hist_of_run h0 h

/-- Open the file "shell", which gets descriptor 2, and close it. -/
def openClose : List Syscall := [.files (.close 2), .files (.openFile (some shellName))]

theorem dead_descriptor_openClose : ∃ s' r,
    (smallSession openClose).2.call smallImage 0 (.write 2 (some fun _ => 0) 4) = some (s', .ret r) ∧
      ((r = -1 ∧ s' = (smallSession openClose).2) ↔
        SilentWrite ((smallSession openClose).2.files 2).fopJumpTable.writeOp (fun _ => 0) 4) :=
  (dead_descriptor (sessionRun_smallSession (Or.inl ofChild_small) openClose) (by decide) (by decide +kernel) _ _).2

/-- A read of the closed descriptor 2 returns four bytes of inode 0. -/
theorem closed_descriptor_reads : ∃ s' got,
    SessionRun smallImage 0 OfProcess (smallSession openClose).1 (smallSession openClose).2 ∧
      ((smallSession openClose).2.files 2).flags = 0 ∧
      (smallSession openClose).2.call smallImage 0 (.files (.read 2 (some fun _ => 0) 4 none)) =
        some (s', .delivered got) ∧
      got.ret = 4 ∧ got.data = elfMagic ∧ ¬ (got.ret = -1 ∧ got.buf = (fun _ => 0) ∧ s' = (smallSession openClose).2) := by
  have hslot : slotOf 2 = some 2 := by decide
  have hread : (readBody smallImage (smallSession openClose).2.files 2 (fun _ => 0) 4 none).map
      (fun x => (x.1.ret, x.1.data)) = some (4, elfMagic) := by decide +kernel
  obtain ⟨⟨got, fa'⟩, hbody, hgot⟩ := Option.map_eq_some_iff.mp hread
  simp only [Prod.mk.injEq] at hgot
  refine ⟨⟨fa', (smallSession openClose).2.requestDevices (.read 2 (some fun _ => 0) 4 none)⟩, got,
    sessionRun_smallSession (Or.inl ofChild_small) openClose, by decide +kernel, ?_, hgot.1, hgot.2, ?_⟩
  · simp only [Session.call, fileRequest, hslot, hbody, Option.map_some]
  · rintro ⟨hret, -⟩
    rw [hgot.1] at hret
    exact absurd hret (by decide)

/-! ### The standard streams -/

theorem slotOf_eq {fd : Int32} {i : Fin maxOpenFiles} (h : slotOf fd = some i) : fd = Int32.ofNat i := by
  unfold slotOf at h
  split_ifs at h with hfd
  obtain rfl := Option.some.inj h
  apply Int32.toInt_inj.mp
  rw [Int32.toInt_ofNat_of_lt]
  · simp only
    omega
  · simp only [maxOpenFiles] at hfd
    simp only
    omega

theorem ofNat_ne_std : ∀ i : Fin maxOpenFiles, ¬ i.val < stdFiles → Int32.ofNat i ≠ 0 ∧ Int32.ofNat i ≠ 1 := by
  decide

theorem flags_of_firstFree {fa : FileArray} {i : Fin maxOpenFiles} (h : firstFree fa = some i) : (fa i).flags = 0 := by
  have := List.find?_some h
  simpa using this

theorem callClose_fileTable {t : UInt32} {ops : FopTable} (h : fileTable t = some ops) (inode : Int32) :
    callClose ops.closeOp inode = 0 := by
  unfold fileTable at h
  split at h
  · obtain rfl := Option.some.inj h
    rfl
  · obtain rfl := Option.some.inj h
    rfl
  · obtain rfl := Option.some.inj h
    rfl
  · cases h

/-- The standard streams are open, with the terminal's operations. -/
def StreamsOpen (fa : FileArray) : Prop :=
  ∀ i : Fin maxOpenFiles, i.val < stdFiles → (fa i).flags = 1 ∧ (fa i).fopJumpTable = stdTable i

/-- A failing `close` changes nothing, the standard streams stay open, and `open`
never returns a descriptor of theirs: in every step so far. -/
def StreamsKept (tr : Calls) : Prop :=
  ∀ e ∈ tr, (∀ fd, e.label = (.files (.close fd), .ret (-1)) → e.after.files = e.before.files) ∧
    StreamsOpen e.after.files ∧
    ∀ name r, e.label = (.files (.openFile name), .ret r) → r ≠ 0 ∧ r ≠ 1

/-- Nobody has closed a standard stream. -/
def NoStdClose (tr : Calls) : Prop :=
  ∀ e ∈ tr, ∀ fd, e.label.1 = .files (.close fd) → fd ≠ 0 ∧ fd ≠ 1

/-- The table of a process that has not closed a standard stream: the streams are
open, and every other slot in use closes without failing. -/
structure Undisturbed (fa : FileArray) : Prop where
  streams : StreamsOpen fa
  closable : ∀ i : Fin maxOpenFiles, ¬ i.val < stdFiles → (fa i).flags ≠ 0 →
    callClose (fa i).fopJumpTable.closeOp (fa i).inode = 0

theorem undisturbed_childFiles : Undisturbed childFiles := by
  refine ⟨fun i hi => ?_, fun i hi hf => ?_⟩
  · simp [childFiles, initFd, hi]
  · simp [childFiles, initFd, hi] at hf

theorem Undisturbed.update {fa : FileArray} (h : Undisturbed fa) {i : Fin maxOpenFiles} {slot : Fd}
    (h1 : i.val < stdFiles → slot.flags = 1 ∧ slot.fopJumpTable = stdTable i)
    (h2 : ¬ i.val < stdFiles → slot.flags ≠ 0 → callClose slot.fopJumpTable.closeOp slot.inode = 0) :
    Undisturbed (Function.update fa i slot) := by
  refine ⟨fun j hj => ?_, fun j hj => ?_⟩
  · by_cases hji : j = i
    · subst hji
      rw [Function.update_self]
      exact h1 hj
    · rw [Function.update_of_ne hji]
      exact h.streams j hj
  · by_cases hji : j = i
    · subst hji
      rw [Function.update_self]
      exact h2 hj
    · rw [Function.update_of_ne hji]
      exact h.closable j hj

/-- A request that does not close a standard stream keeps the table as it should be:
no failing `close` changes it, and `open` returns a descriptor behind the streams. -/
theorem Undisturbed.request {img : Image} {fa fa' : FileArray} {r : Request} {out : Outcome} (h : Undisturbed fa)
    (hr : fileRequest img fa r = some (fa', out)) (hc : ∀ fd, r = .close fd → fd ≠ 0 ∧ fd ≠ 1) :
    Undisturbed fa' ∧ (∀ fd, r = .close fd → out = .ret (-1) → fa' = fa) ∧
      ∀ name x, r = .openFile name → out = .ret x → x ≠ 0 ∧ x ≠ 1 := by
  rcases fileRequest_cases hr with ⟨rfl, rfl⟩ | ⟨_, d, i, ops, rfl, -, hi, hops, rfl, rfl⟩ |
    ⟨fd, i, rfl, hi, hf, rfl, rfl⟩ | ⟨_, _, _, _, i, _, rfl, -, hb, rfl⟩
  · refine ⟨h, fun _ _ _ => rfl, fun name x _ hx => ?_⟩
    injection hx with hx
    rw [← hx]
    decide
  · have hlow : ¬ i.val < stdFiles := fun hlt => by
      have := (h.streams i hlt).1
      rw [flags_of_firstFree hi] at this
      cases this
    refine ⟨h.update (fun hlt => absurd hlt hlow) fun _ _ => callClose_fileTable hops _, ?_, ?_⟩
    · intro _ hx
      cases hx
    · intro name x _ hx
      injection hx with hx
      rw [← hx]
      exact ofNat_ne_std i hlow
  · obtain ⟨h0, h1⟩ := hc fd rfl
    have hlow : ¬ i.val < stdFiles := fun hlt => by
      have hfd := slotOf_eq hi
      have hcase : i.val = 0 ∨ i.val = 1 := by
        simp only [stdFiles] at hlt
        omega
      rcases hcase with hv | hv
      · exact h0 (by rw [hfd, hv]; rfl)
      · exact h1 (by rw [hfd, hv]; rfl)
    refine ⟨h.update (fun hlt => absurd hlt hlow) fun _ hne => absurd rfl hne, fun _ _ hx => ?_, ?_⟩
    · rw [h.closable i hlow hf] at hx
      exact absurd hx (by simp)
    · intro _ _ hx
      cases hx
  · obtain ⟨pos, rfl⟩ := readBody_files hb
    refine ⟨h.update (h.streams i) (h.closable i), ?_, ?_⟩
    · intro _ hx
      cases hx
    · intro _ _ hx
      cases hx

/-- As long as nobody closes a standard stream, all is kept. -/
theorem kept_of_noStdClose {img : Image} {term : ℤ} {tr : Calls} {s : Session}
    (h : SessionRun img term OfChild tr s) : NoStdClose tr → StreamsKept tr ∧ Undisturbed s.files := by
  refine Hist.inv (fun tr s => NoStdClose tr → StreamsKept tr ∧ Undisturbed s.files) ?_ ?_ h
  · intro s hs _
    refine ⟨fun e he => absurd he (by simp), ?_⟩
    rw [hs]
    exact undisturbed_childFiles
  · rintro tr s ⟨c, out⟩ s' - ih hst hno
    obtain ⟨hnew, hold⟩ := List.forall_mem_cons.mp hno
    obtain ⟨hkept, hu⟩ := ih hold
    rcases call_files hst with ⟨r, rfl, hr⟩ | ⟨hfiles, fd, buf, nbytes, rfl⟩
    · obtain ⟨hu', hclose, hopen⟩ := hu.request hr fun fd hfd => hnew fd (by rw [hfd])
      refine ⟨List.forall_mem_cons.mpr ⟨⟨fun fd hl => ?_, hu'.streams, fun name x hl => ?_⟩, hkept⟩, hu'⟩
      · simp only [Prod.mk.injEq, Syscall.files.injEq] at hl
        exact hclose fd hl.1 hl.2
      · simp only [Prod.mk.injEq, Syscall.files.injEq] at hl
        exact hopen name x hl.1 hl.2
    · refine ⟨List.forall_mem_cons.mpr ⟨⟨fun fd hl => hfiles, ?_, fun name x hl => ?_⟩, hkept⟩, hfiles ▸ hu⟩
      · rw [show s'.files = s.files from hfiles]
        exact hu.streams
      · simp at hl

theorem streams_before {img : Image} {term : ℤ} {tr : Calls} {s : Session}
    (h : SessionRun img term OfChild tr s) (hk : StreamsKept tr) : StreamsOpen s.files := by
  cases h with
  | start h0 =>
    rw [h0]
    exact undisturbed_childFiles.streams
  | next hp hst => exact (hk _ (List.mem_cons_self ..)).2.1

/-- **The standard streams.** In every session of a process started by `execute`: no
failing `close` changes the table, the streams stay open and `open` never takes
their descriptors, exactly when the process closes neither descriptor 0 nor 1. -/
theorem streams_kept {img : Image} {term : ℤ} {tr : Calls} {s : Session}
    (h : SessionRun img term OfChild tr s) : StreamsKept tr ↔ NoStdClose tr := by
  refine ⟨fun hk e he fd hfd => ?_, fun hno => (kept_of_noStdClose h hno).1⟩
  obtain ⟨new, old, rfl⟩ := List.append_of_mem he
  obtain ⟨hold, hst⟩ := h.reached
  have hbefore := streams_before hold fun x hx => hk x (by simp [hx])
  have hafter := (hk e he).2.1
  have key : ∀ i : Fin maxOpenFiles, i.val < stdFiles → slotOf fd ≠ some i := by
    intro i hlt hi
    have hclose : (closeFile e.before.files fd).2 =
        Function.update e.before.files i (closedFd (e.before.files i)) := by
      unfold closeFile
      rw [hi]
      simp only [(hbefore i hlt).1]
      rw [if_neg (by decide)]
    have hfiles : e.after.files = Function.update e.before.files i (closedFd (e.before.files i)) := by
      rcases call_files hst with ⟨r, hrc, hr⟩ | ⟨-, _, _, _, hw⟩
      · rw [hfd] at hrc
        injection hrc with hrc
        subst hrc
        simp only [fileRequest, Option.some.injEq, Prod.mk.injEq] at hr
        rw [← hr.1, hclose]
      · rw [hfd] at hw
        cases hw
    have h1 := (hafter i hlt).1
    rw [hfiles, Function.update_self] at h1
    cases h1
  constructor
  · rintro rfl
    exact key 0 (by decide) (by decide)
  · rintro rfl
    exact key 1 (by decide) (by decide)

theorem streams_kept_openClose :
    (smallSession openClose).1.length = 2 ∧
      (StreamsKept (smallSession openClose).1 ↔ NoStdClose (smallSession openClose).1) :=
  ⟨by decide +kernel, streams_kept (sessionRun_smallSession ofChild_small openClose)⟩

/-- Close descriptor 0, which returns -1, and open a file. -/
def closeStdin : List Syscall := [.files (.openFile (some shellName)), .files (.close 0)]

/-- The failing `close` has reset the slot, and `open` takes descriptor 0. -/
theorem stdin_lost :
    SessionRun smallImage 0 OfChild (smallSession closeStdin).1 (smallSession closeStdin).2 ∧
      (smallSession closeStdin).1.map (fun e => match e.label.2 with
        | .ret r => r
        | _ => 99) = [0, -1] ∧
      ((smallSession closeStdin).2.files 0).fopJumpTable.readOp = .fileRead ∧
      ¬ StreamsKept (smallSession closeStdin).1 := by
  have hh := sessionRun_smallSession ofChild_small closeStdin
  have hop : ((smallSession closeStdin).2.files 0).fopJumpTable.readOp = .fileRead := by decide +kernel
  refine ⟨hh, by decide +kernel, hop, fun hk => ?_⟩
  have hread := ((streams_before hh hk) 0 (by decide)).2
  rw [hread] at hop
  cases hop

end Mp3Kernel
