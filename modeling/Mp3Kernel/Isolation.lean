/-
# Descriptor isolation

Every process of every run has a session of its own: the requests it has made since
it was created, with their replies, are a run of `fileRequest` on the table it was
created with, and the table in its PCB is the one that run ends in
(`session_of_history`). Nothing another process does shows in it. A read is one
request although it waits in between, and is recorded when it ends (`Log`).

So the replies are a function of the requests: what `open` is asked for up to the
NUL, the descriptor, the size, the line the keyboard delivers; not of the other
processes, of what used the pid before, or of what the buffers hold (`answers_of_asks`).
Buffers have no addresses here; `Mp3Kernel.Pointers` gives them some.

Key definitions: `Log`, `logOf`, `Ask`, `Outcome.answer`.
Key theorems: `served_of_step`, `session_of_history`, `answers_of_asks`.
-/
import Mp3Kernel.Sessions

namespace Mp3Kernel

open Past

/-! ### What a step does to the running process's table -/

/-- The events that request something of the running process's table. -/
def Event.onFiles : Event → Bool
  | .openFile .. | .close .. | .read .. | .readDone .. => true
  | _ => false

/-- How the running process of `k` was served by an event: what became of its table
and of the read that waits on its stack. -/
inductive Served (img : Image) (k : Kernel) : Event → Outcome → Kernel → Prop
  | opened {f : Frame} {name : Option (List UInt8)} {r : Int32 × FileArray} {k' : Kernel} :
      openFile img (k.pcbOf k.running).fileArray name = some r →
      (k'.pcbOf k.running).fileArray = r.2 →
      k'.reading (pcbAddr k.running) = k.reading (pcbAddr k.running) → Served img k (.openFile f name) (.ret r.1) k'
  | closed {f : Frame} {fd : Int32} {k' : Kernel} :
      (k'.pcbOf k.running).fileArray = (closeFile (k.pcbOf k.running).fileArray fd).2 →
      k'.reading (pcbAddr k.running) = k.reading (pcbAddr k.running) →
      Served img k (.close f fd) (.ret (closeFile (k.pcbOf k.running).fileArray fd).1) k'
  | refused {f : Frame} {fd : Int32} {buf : Option Buf} {nbytes : Int32} {k' : Kernel} :
      slotOf fd = none ∨ buf = none →
      (k'.pcbOf k.running).fileArray = (k.pcbOf k.running).fileArray →
      k'.reading (pcbAddr k.running) = k.reading (pcbAddr k.running) →
      Served img k (.read f fd buf nbytes) (.ret (-1)) k'
  | waits {f : Frame} {fd : Int32} {buf : Buf} {nbytes : Int32} {i : Fin maxOpenFiles} {esp : ℕ} {k' : Kernel} :
      slotOf fd = some i →
      (k'.pcbOf k.running).fileArray = (k.pcbOf k.running).fileArray →
      k'.reading (pcbAddr k.running) = some ⟨esp, pcbAddr k.running, i, buf, nbytes⟩ →
      Served img k (.read f fd (some buf) nbytes) .waiting k'
  | delivered {line : Option Line} {call : ReadCall} {got : Delivery} {k' : Kernel} :
      k.reading (pcbAddr k.running) = some call →
      readBody img (k.pcbOf k.running).fileArray call.slot call.buf call.nbytes line =
        some (got, (k'.pcbOf k.running).fileArray) →
      k'.reading (pcbAddr k.running) = none → Served img k (.readDone line) (.delivered got) k'
  | other {ev : Event} {out : Outcome} {k' : Kernel} :
      ev.onFiles = false →
      (k'.pcbOf k.running).fileArray = (k.pcbOf k.running).fileArray →
      k'.reading (pcbAddr k.running) = k.reading (pcbAddr k.running) → Served img k ev out k'

section Step

variable {img : Image} {k k' : Kernel} {ev : Event} {out : Outcome}

theorem pcb_entered {ke : Kernel} {f : Frame} (hc : Coherent k) (he : Entered k f ke) :
    ke.pcb (maskPcb ke.cpu.esp) = k.pcbOf k.running := by
  rw [he.mask hc, he.fields.2.2.2.1]
  rfl

theorem beginRead_refused {fd : Int32} {buf : Option Buf} {nbytes : Int32} (h : slotOf fd = none ∨ buf = none) :
    beginRead k fd buf nbytes = (k, .ret (-1)) := by
  unfold beginRead
  dsimp only
  split
  · rename_i i b hi
    rcases h with h | h
    · rw [hi] at h
      cases h
    · cases h
  · rfl

/-- Every step that the running process survives serves it in one of these ways. -/
theorem served_of_step (hc : Coherent k) (h : step img k ev = some (k', out))
    (hl : k'.processArray k.running ≠ 0) : Served img k ev out k' := by
  cases ev with
  | execute f lo command =>
    obtain ⟨ke, hent, hex⟩ := Option.bind_eq_some_iff.mp h
    obtain ⟨he, hu⟩ := entered_of_syscall hc hent
    rcases execute_cases hex with ⟨rfl, rfl⟩ | ⟨cmd, args, rfl, hargs, hpid, rfl, rfl⟩
    · exact .other rfl (by rw [he.pcbOf]) (by rw [he.reading])
    · have hst := started_of_execute hc he hu args hpid
      exact .other rfl (by rw [hst.caller]) (by rw [hst.reading])
  | halt f lo status =>
    obtain ⟨ke, hent, hh⟩ := Option.map_eq_some_iff.mp h
    obtain ⟨he, hu⟩ := entered_of_syscall hc hent
    rcases halt_cases hh with ⟨hpar, rfl, rfl⟩ | ⟨dev, ⟨rfl, rfl⟩ | ⟨rfl, rfl⟩⟩
    · rw [he.running, he.pcbOf] at hpar
      have hr := resumed_of_haltChild hc he hu hpar status
      rw [hr.processArray, Function.update_self] at hl
      exact absurd rfl hl
    · exact .other rfl (congrArg Pcb.fileArray (he.pcbOf _)) (congrFun he.reading _)
    · exact .other rfl (congrArg Pcb.fileArray (he.pcbOf _)) (congrFun he.reading _)
  | pitInt f =>
    obtain ⟨ke, hent, hp⟩ := Option.bind_eq_some_iff.mp h
    have he := entered_of_irq hc hent
    rcases pitInt_cases hc he hp with ⟨rfl, rfl⟩ | ⟨q, rfl, hs⟩
    · exact .other rfl (by rw [he.pcbOf]) (by rw [he.reading])
    · exact .other rfl (by rw [hs.self]) (by rw [hs.reading])
  | openFile f filename =>
    obtain ⟨ke, hent, ho⟩ := Option.bind_eq_some_iff.mp h
    obtain ⟨he, -⟩ := entered_of_syscall hc hent
    obtain ⟨r, hr, hk⟩ := Option.map_eq_some_iff.mp ho
    rw [pcb_entered hc he] at hr
    rw [he.mask hc] at hk
    simp only [Prod.mk.injEq] at hk
    obtain ⟨rfl, rfl⟩ := hk
    exact .opened hr (by rw [setFiles_pcbOf_same]) (congrFun he.reading _)
  | close f fd =>
    obtain ⟨ke, hent, hk⟩ := Option.map_eq_some_iff.mp h
    obtain ⟨he, -⟩ := entered_of_syscall hc hent
    rw [pcb_entered hc he, he.mask hc] at hk
    simp only [Prod.mk.injEq] at hk
    obtain ⟨rfl, rfl⟩ := hk
    exact .closed (by rw [setFiles_pcbOf_same]) (congrFun he.reading _)
  | read f fd buf nbytes =>
    obtain ⟨ke, hent, hk⟩ := Option.map_eq_some_iff.mp h
    obtain ⟨he, -⟩ := entered_of_syscall hc hent
    have hfiles : (ke.pcbOf k.running).fileArray = (k.pcbOf k.running).fileArray := by rw [he.pcbOf]
    have hread := congrFun he.reading (pcbAddr k.running)
    rcases refused_or_slot fd buf with hno | ⟨i, b, hi, rfl⟩
    · rw [beginRead_refused hno] at hk
      simp only [Prod.mk.injEq] at hk
      obtain ⟨rfl, rfl⟩ := hk
      exact .refused hno hfiles hread
    · simp only [beginRead, he.mask hc, hi, Prod.mk.injEq] at hk
      obtain ⟨rfl, rfl⟩ := hk
      exact .waits hi hfiles (Function.update_self ..)
  | readDone line =>
    obtain ⟨-, call, got, fa, hr, hb, rfl, rfl⟩ := endRead_cases hc h
    refine .delivered hr (hb.trans ?_) (Function.update_self ..)
    have hfiles : ∀ rd d, ({ k.setFiles (pcbAddr k.running) fa with reading := rd, dev := d } : Kernel).pcbOf
        k.running = { k.pcbOf k.running with fileArray := fa } := fun _ _ => setFiles_pcbOf_same
    rw [hfiles]
  | write f fd buf nbytes =>
    obtain ⟨ke, hent, hk⟩ := Option.map_eq_some_iff.mp h
    obtain ⟨he, -⟩ := entered_of_syscall hc hent
    simp only [Prod.mk.injEq] at hk
    obtain ⟨rfl, rfl⟩ := hk
    exact .other rfl (congrArg Pcb.fileArray (he.pcbOf _)) (congrFun he.reading _)
  | getargs f buf nbytes =>
    obtain ⟨ke, hent, hk⟩ := Option.map_eq_some_iff.mp h
    obtain ⟨he, -⟩ := entered_of_syscall hc hent
    simp only [Prod.mk.injEq] at hk
    obtain ⟨rfl, rfl⟩ := hk
    exact .other rfl (by rw [he.pcbOf]) (by rw [he.reading])

end Step

/-! ### The requests of a process -/

/-- The requests a process has made, with their replies, newest first, and the read
it is waiting in. -/
structure Log where
  pending : Option (Int32 × Buf × Int32)
  served : List (Request × Outcome)

/-- One more event of the process itself. -/
def Log.own (log : Log) : Event → Outcome → Log
  | .openFile _ name, out => { log with served := (.openFile name, out) :: log.served }
  | .close _ fd, out => { log with served := (.close fd, out) :: log.served }
  | .read _ fd buf nbytes, .ret r => { log with served := (.read fd buf nbytes none, .ret r) :: log.served }
  | .read _ fd (some buf) nbytes, .waiting => { log with pending := some (fd, buf, nbytes) }
  | .readDone line, out =>
    match log.pending with
    | some (fd, buf, nbytes) => ⟨none, (.read fd (some buf) nbytes line, out) :: log.served⟩
    | none => log
  | _, _ => log

/-- The requests of the process with pid `p` since it was created. -/
def logOf (p : ℤ) : Trace → Log
  | [] => ⟨none, []⟩
  | e :: tr =>
    if e.label.2.child = some p then ⟨none, []⟩
    else if e.before.running = p then (logOf p tr).own e.label.1 e.label.2
    else logOf p tr

/-- The table the process with pid `p` was created with. -/
def originOf (p : ℤ) : Trace → FileArray
  | [] => shellFiles p
  | e :: tr => if e.label.2.child = some p then childFiles else originOf p tr

/-- The read a process is waiting in is the one the kernel holds for it. -/
def PendingOk (k : Kernel) (p : ℤ) : Option (Int32 × Buf × Int32) → Prop
  | none => k.reading (pcbAddr p) = none
  | some (fd, buf, nbytes) => ∃ esp i, slotOf fd = some i ∧
      k.reading (pcbAddr p) = some ⟨esp, pcbAddr p, i, buf, nbytes⟩

/-- The log of a process is a run of its requests on a table, with the replies it got. -/
def Replays (img : Image) (fa : FileArray) (served : List (Request × Outcome)) (fa' : FileArray) : Prop :=
  ∃ h, run (fileRequest img) fa (served.map Prod.fst) = some (h, fa') ∧ h.map (fun e => e.label) = served

theorem PendingOk.congr {k k' : Kernel} {p : ℤ} {x : Option (Int32 × Buf × Int32)} (h : PendingOk k p x)
    (hr : k'.reading (pcbAddr p) = k.reading (pcbAddr p)) : PendingOk k' p x := by
  unfold PendingOk at h ⊢
  rw [hr]
  exact h

theorem Log.own_other (log : Log) {ev : Event} (h : ev.onFiles = false) (out : Outcome) : log.own ev out = log := by
  cases ev <;> first | rfl | cases h

theorem Replays.snoc {img : Image} {fa fa' fa'' : FileArray} {served : List (Request × Outcome)} {r : Request}
    {out : Outcome} (h : Replays img fa served fa') (hr : fileRequest img fa' r = some (fa'', out)) :
    Replays img fa ((r, out) :: served) fa'' := by
  obtain ⟨tr, hrun, hlab⟩ := h
  refine ⟨⟨fa', (r, out), fa''⟩ :: tr, ?_, ?_⟩
  · rw [List.map_cons, run, hrun]
    simp only [hr]
  · rw [List.map_cons, hlab]

/-- What the log of `p` says about the run, and about `p`'s table while it lives. -/
def SessionOk (img : Image) (p : ℤ) (tr : Trace) (k : Kernel) : Prop :=
  ∃ fa, Replays img (originOf p tr) (logOf p tr).served fa ∧
    (k.processArray p ≠ 0 → fa = (k.pcbOf p).fileArray ∧ PendingOk k p (logOf p tr).pending)

section History

variable {img : Image} {k k' : Kernel} {ev : Event} {out : Outcome} {a : Forest} {tr : Trace}

/-- A step of the process itself. -/
theorem SessionOk.own (h : SessionOk img k.running tr k) (hl : k.processArray k.running ≠ 0)
    (hs : k'.processArray k.running ≠ 0 → Served img k ev out k')
    (hc : out.child ≠ some k.running) (hdead : k'.processArray k.running = 0 → ev.onFiles = false) :
    SessionOk img k.running (⟨k, (ev, out), k'⟩ :: tr) k' := by
  obtain ⟨fa, hrep, hlive⟩ := h
  obtain ⟨hfa, hpend⟩ := hlive hl
  have horigin : originOf k.running (⟨k, (ev, out), k'⟩ :: tr) = originOf k.running tr := if_neg hc
  have hlog : logOf k.running (⟨k, (ev, out), k'⟩ :: tr) = (logOf k.running tr).own ev out := by
    simp only [logOf, hc, if_false, if_true]
  unfold SessionOk
  rw [horigin, hlog]
  by_cases hl' : k'.processArray k.running = 0
  · rw [Log.own_other _ (hdead hl')]
    exact ⟨fa, hrep, fun hne => absurd hl' hne⟩
  · rw [hfa] at hrep
    cases hs hl' with
    | opened ho hf hr =>
      refine ⟨_, hrep.snoc ?_, fun _ => ⟨hf.symm, hpend.congr hr⟩⟩
      simp only [fileRequest, ho, Option.map_some]
    | closed hf hr => exact ⟨_, hrep.snoc rfl, fun _ => ⟨hf.symm, hpend.congr hr⟩⟩
    | refused hno hf hr =>
      refine ⟨_, hrep.snoc ?_, fun _ => ⟨hf.symm, hpend.congr hr⟩⟩
      exact fileRequest_refused hno
    | waits hi hf hr => exact ⟨_, hrep, fun _ => ⟨hf.symm, _, _, hi, hr⟩⟩
    | @delivered line call got _ hcall hb hr =>
      cases hp : (logOf k.running tr).pending with
      | none =>
        rw [hp] at hpend
        rw [show k.reading (pcbAddr k.running) = none from hpend] at hcall
        cases hcall
      | some x =>
        obtain ⟨fd, buf, nbytes⟩ := x
        rw [hp] at hpend
        obtain ⟨esp, i, hi, hreading⟩ := hpend
        rw [hcall] at hreading
        obtain rfl := Option.some.inj hreading
        simp only [Log.own, hp]
        refine ⟨_, hrep.snoc ?_, fun _ => ⟨rfl, hr⟩⟩
        simp only [fileRequest, hi, hb, Option.map_some]
    | other hev hf hr =>
      rw [Log.own_other _ hev]
      exact ⟨_, hrep, fun _ => ⟨hf.symm, hpend.congr hr⟩⟩

/-- One more step, seen by any process. -/
theorem SessionOk.step (hrep : Rep k a) {p : ℤ} (hp : IsPid p) (h : SessionOk img p tr k)
    (hs : Mp3Kernel.step img k ev = some (k', out)) : SessionOk img p (⟨k, (ev, out), k'⟩ :: tr) k' := by
  by_cases hchild : out.child = some p
  · obtain rfl := Outcome.started_of_child hchild
    obtain ⟨_, _, _, _, -, -, hst⟩ := started_of_step hrep.coherent hs
    refine ⟨childFiles, ?_, fun _ => ⟨by rw [hst.child], ?_⟩⟩
    · simp only [originOf, logOf, Outcome.child, if_true]
      exact ⟨[], rfl, rfl⟩
    · simp only [logOf, Outcome.child, if_true]
      show k'.reading (pcbAddr p) = none
      rw [hst.reading]
      exact hrep.not_reading hp (started_fresh hrep hs)
  · by_cases hrun : p = k.running
    · subst hrun
      refine h.own hrep.coherent.live (fun hl => served_of_step hrep.coherent hs hl) hchild fun hdead => ?_
      rcases step_cases hrep.coherent hs with ⟨_, _, _, _, c, rfl, -⟩ | ⟨_, _, _, _, rfl, -⟩ | ⟨_, _, rfl, -⟩ |
        ⟨-, hq⟩
      · rfl
      · rfl
      · rfl
      · rw [hq.processArray] at hdead
        exact absurd hdead hrep.coherent.live
    · have hlog : logOf p (⟨k, (ev, out), k'⟩ :: tr) = logOf p tr := by
        simp only [logOf, hchild, if_false, Ne.symm hrun]
      have horigin : originOf p (⟨k, (ev, out), k'⟩ :: tr) = originOf p tr := if_neg hchild
      obtain ⟨fa, hreplay, hlive⟩ := h
      unfold SessionOk
      rw [hlog, horigin]
      refine ⟨fa, hreplay, fun hl => ?_⟩
      rcases live_before hrep hs hp hl with hhas | rfl
      · have hun := step_untouched hrep hs hhas hrun
        obtain ⟨hfa, hpend⟩ := hlive (by rw [← hun.processArray]; exact hl)
        obtain ⟨l, hpcb⟩ := hun.pcb
        exact ⟨by rw [hpcb]; exact hfa, hpend.congr hun.reading⟩
      · exact absurd rfl hchild

/-- **Every process has a session of its own.** In every run, the requests a process
has made since it was created, with their replies, are a run of `fileRequest` on the
table it was created with, and its table is the one that run ends in. -/
theorem session_of_history (h : History img tr k) {p : ℤ} (hp : IsPid p) : SessionOk img p tr k := by
  apply history_inv (SessionOk img p) ?_ ?_ h
  · intro s hf
    refine ⟨shellFiles p, ⟨[], rfl, rfl⟩, fun hl => ?_⟩
    obtain ⟨t, ht⟩ := (rep_of_fresh hf).has_of_live hp hl
    obtain rfl := List.mem_singleton.mp ht
    exact ⟨(hf.pcb t).fileArray.symm, hf.reading _⟩
  · intro tr s a ev out s' ha hi hst
    exact hi.step ha hp hst

end History

/-! ### What the replies depend on -/

/-- What a request asks for: a name up to its NUL, a descriptor, a size, whether the
buffer is NULL, the line the keyboard delivers. -/
inductive Ask where
  | openFile (name : Option (List UInt8))
  | close (fd : Int32)
  | read (fd : Int32) (null : Bool) (nbytes : Int32) (line : Option Line)
  deriving DecidableEq

def Request.ask : Request → Ask
  | .openFile name => .openFile (name.map cstr)
  | .close fd => .close fd
  | .read fd buf nbytes line => .read fd buf.isNone nbytes line

/-- What the caller learns: the value returned and the bytes delivered. -/
def Outcome.answer : Outcome → Option (Int32 × List UInt8)
  | .ret r => some (r, [])
  | .delivered got => some (got.ret, got.data)
  | _ => none

section Replies

variable {img : Image} {fa fa₁ fa₂ : FileArray}

theorem openFile_cstr (img : Image) (fa : FileArray) (name : List UInt8) :
    openFile img fa (some (cstr name)) = openFile img fa (some name) := by
  cases hd : readDentryByName img.boot name with
  | none =>
    have hd' : readDentryByName img.boot (cstr name) = none := by rw [readDentryByName_cstr, hd]
    unfold openFile
    simp only [hd, hd']
  | some d => rw [openFile_eq hd, openFile_eq ((readDentryByName_cstr _ _).trans hd)]

/-- The table after a read, the value and the bytes do not depend on the buffer. -/
theorem readBody_indep {i : Fin maxOpenFiles} {buf₁ buf₂ : Buf} {nbytes : Int32} {line : Option Line}
    {got₁ got₂ : Delivery} (h₁ : readBody img fa i buf₁ nbytes line = some (got₁, fa₁))
    (h₂ : readBody img fa i buf₂ nbytes line = some (got₂, fa₂)) :
    fa₁ = fa₂ ∧ got₁.ret = got₂.ret ∧ got₁.data = got₂.data := by
  have hcall : ∀ g₁ g₂ : Delivery,
      callRead img (fa i).fopJumpTable.readOp (fa i).inode buf₁ nbytes (fa i).filePosition line = some g₁ →
      callRead img (fa i).fopJumpTable.readOp (fa i).inode buf₂ nbytes (fa i).filePosition line = some g₂ →
      g₁.ret = g₂.ret ∧ g₁.data = g₂.data := by
    intro g₁ g₂ hg₁ hg₂
    cases line <;> cases hop : (fa i).fopJumpTable.readOp <;> rw [hop] at hg₁ hg₂ <;>
      simp only [callRead, Option.some.injEq, reduceCtorEq] at hg₁ hg₂ <;> subst hg₁ <;> subst hg₂
    · exact ⟨rfl, rfl⟩
    · exact ⟨rfl, rfl⟩
    · exact dirRead_indep ..
    · exact fileRead_indep ..
    · exact ⟨rfl, rfl⟩
  unfold readBody at h₁ h₂
  split at h₁
  · cases h₁
  · split at h₂
    · cases h₂
    · rename_i g₁ hg₁ _ g₂ hg₂
      obtain ⟨hret, hdata⟩ := hcall g₁ g₂ hg₁ hg₂
      simp only [Option.some.injEq, Prod.mk.injEq] at h₁ h₂
      obtain ⟨rfl, rfl⟩ := h₁
      obtain ⟨rfl, rfl⟩ := h₂
      simp only [hret, hdata, and_self]

/-- Two requests that ask for the same change the table alike and answer alike. -/
theorem fileRequest_congr {r₁ r₂ : Request} {out₁ out₂ : Outcome} (hask : r₁.ask = r₂.ask)
    (h₁ : fileRequest img fa r₁ = some (fa₁, out₁)) (h₂ : fileRequest img fa r₂ = some (fa₂, out₂)) :
    fa₁ = fa₂ ∧ out₁.answer = out₂.answer := by
  cases r₁ with
  | openFile name₁ =>
    cases r₂ with
    | openFile name₂ =>
      have hn : name₁.map cstr = name₂.map cstr := by simpa [Request.ask] using hask
      have hopen : ∀ name, openFile img fa (name.map cstr) = openFile img fa name := by
        intro name
        cases name with
        | none => rfl
        | some n => exact openFile_cstr img fa n
      have heq : fileRequest img fa (.openFile name₁) = fileRequest img fa (.openFile name₂) := by
        simp only [fileRequest]
        rw [← hopen name₁, hn, hopen name₂]
      rw [heq, h₂] at h₁
      obtain ⟨rfl, rfl⟩ : fa₂ = fa₁ ∧ out₂ = out₁ := by simpa using h₁
      exact ⟨rfl, rfl⟩
    | close fd₂ => cases hask
    | read fd₂ buf₂ n₂ line₂ => cases hask
  | close fd₁ =>
    cases r₂ with
    | openFile name₂ => cases hask
    | close fd₂ =>
      obtain rfl : fd₁ = fd₂ := by simpa [Request.ask] using hask
      rw [h₂] at h₁
      obtain ⟨rfl, rfl⟩ : fa₂ = fa₁ ∧ out₂ = out₁ := by simpa using h₁
      exact ⟨rfl, rfl⟩
    | read fd₂ buf₂ n₂ line₂ => cases hask
  | read fd₁ buf₁ n₁ line₁ =>
    cases r₂ with
    | openFile name₂ => cases hask
    | close fd₂ => cases hask
    | read fd₂ buf₂ n₂ line₂ =>
      simp only [Request.ask, Ask.read.injEq] at hask
      obtain ⟨rfl, hnull, rfl, rfl⟩ := hask
      rcases refused_or_slot fd₁ buf₁ with hno | ⟨i, b₁, hi, rfl⟩
      · have hno₂ : slotOf fd₁ = none ∨ buf₂ = none := by
          rcases hno with h | rfl
          · exact Or.inl h
          · exact Or.inr (Option.isNone_iff_eq_none.mp hnull.symm)
        rw [fileRequest_refused hno] at h₁
        rw [fileRequest_refused hno₂, h₁] at h₂
        obtain ⟨rfl, rfl⟩ : fa₁ = fa₂ ∧ out₁ = out₂ := by simpa using h₂
        exact ⟨rfl, rfl⟩
      · obtain ⟨b₂, rfl⟩ : ∃ b, buf₂ = some b := by
          cases buf₂ with
          | none => cases hnull
          | some b => exact ⟨b, rfl⟩
        simp only [fileRequest, hi] at h₁ h₂
        obtain ⟨x₁, hx₁, he₁⟩ := Option.map_eq_some_iff.mp h₁
        obtain ⟨x₂, hx₂, he₂⟩ := Option.map_eq_some_iff.mp h₂
        simp only [Prod.mk.injEq] at he₁ he₂
        obtain ⟨rfl, rfl⟩ := he₁
        obtain ⟨rfl, rfl⟩ := he₂
        obtain ⟨hfa, hret, hdata⟩ := readBody_indep hx₁ hx₂
        exact ⟨hfa, by simp only [Outcome.answer, hret, hdata]⟩

/-- The oldest requests of a run are a run. -/
theorem Replays.cons_iff {served : List (Request × Outcome)} {r : Request} {out : Outcome} :
    Replays img fa ((r, out) :: served) fa₂ ↔
      ∃ fa₁, Replays img fa served fa₁ ∧ fileRequest img fa₁ r = some (fa₂, out) := by
  refine ⟨?_, fun ⟨fa₁, h, hr⟩ => h.snoc hr⟩
  rintro ⟨tr, hrun, hlab⟩
  rw [List.map_cons, run] at hrun
  cases hold : run (fileRequest img) fa (served.map Prod.fst) with
  | none =>
    rw [hold] at hrun
    cases hrun
  | some x =>
    rw [hold] at hrun
    simp only at hrun
    cases hreq : fileRequest img x.2 r with
    | none =>
      rw [hreq] at hrun
      cases hrun
    | some y =>
      rw [hreq] at hrun
      simp only [Option.some.injEq, Prod.mk.injEq] at hrun
      obtain ⟨rfl, rfl⟩ := hrun
      rw [List.map_cons, List.cons.injEq, Prod.mk.injEq] at hlab
      obtain ⟨⟨-, hout⟩, htail⟩ := hlab
      exact ⟨x.2, ⟨x.1, hold, htail⟩, by rw [hreq, ← hout]⟩

theorem Replays.older {new old : List (Request × Outcome)} (h : Replays img fa (new ++ old) fa₂) :
    ∃ fa₁, Replays img fa old fa₁ := by
  induction new generalizing fa₂ with
  | nil => exact ⟨fa₂, h⟩
  | cons x new ih =>
    obtain ⟨fa₁, h₁, -⟩ := Replays.cons_iff.mp h
    exact ih h₁

/-- What some requests ask for. -/
def asks (served : List (Request × Outcome)) : List Ask := served.map fun x => x.1.ask

/-- What they were answered. -/
def answers (served : List (Request × Outcome)) : List (Option (Int32 × List UInt8)) :=
  served.map fun x => x.2.answer

/-- Two runs on one table that ask for the same get the same answers. -/
theorem Replays.agree : ∀ {s₁ s₂ : List (Request × Outcome)} {fa₁ fa₂ : FileArray}, Replays img fa s₁ fa₁ →
    Replays img fa s₂ fa₂ → asks s₁ = asks s₂ → fa₁ = fa₂ ∧ answers s₁ = answers s₂
  | [], [], _, _, ⟨_, h₁, _⟩, ⟨_, h₂, _⟩, _ => by
    simp only [List.map_nil, run, Option.some.injEq, Prod.mk.injEq] at h₁ h₂
    exact ⟨h₁.2.symm.trans h₂.2, rfl⟩
  | [], y :: s₂, _, _, _, _, hask => by cases hask
  | x :: s₁, [], _, _, _, _, hask => by cases hask
  | x :: s₁, y :: s₂, _, _, h₁, h₂, hask => by
    obtain ⟨hxy, hrest⟩ := List.cons.inj hask
    obtain ⟨m₁, hm₁, hr₁⟩ := Replays.cons_iff.mp h₁
    obtain ⟨m₂, hm₂, hr₂⟩ := Replays.cons_iff.mp h₂
    obtain ⟨rfl, hans⟩ := Replays.agree hm₁ hm₂ hrest
    obtain ⟨hfa, hout⟩ := fileRequest_congr hxy hr₁ hr₂
    refine ⟨hfa, ?_⟩
    show x.2.answer :: answers s₁ = y.2.answer :: answers s₂
    rw [hout, hans]

end Replies

/-! ### Isolation -/

/-- The process `p` of the run was started by `execute`. -/
def StartedIn (p : ℤ) (tr : Trace) : Prop := ∃ e ∈ tr, e.label.2.child = some p

instance (p : ℤ) (tr : Trace) : Decidable (StartedIn p tr) := List.decidableBEx ..

theorem originOf_started {p : ℤ} : ∀ {tr : Trace}, StartedIn p tr → originOf p tr = childFiles
  | [], ⟨_, he, _⟩ => by cases he
  | x :: tr, ⟨e, he, hl⟩ => by
    rw [originOf]
    split_ifs with hc
    · rfl
    · rcases List.mem_cons.mp he with rfl | he
      · exact absurd hl hc
      · exact originOf_started ⟨e, he, hl⟩

theorem isPid_of_started {img : Image} {tr : Trace} {k : Kernel} (h : History img tr k) {p : ℤ}
    (hp : StartedIn p tr) : IsPid p := by
  obtain ⟨e, he, hl⟩ := hp
  obtain ⟨new, old, rfl⟩ := List.append_of_mem he
  obtain ⟨hold, hst⟩ := h.reached
  obtain ⟨a, ha⟩ := rep_of_history hold
  rw [Outcome.started_of_child hl] at hst
  obtain ⟨_, _, _, _, -, -, hs⟩ := started_of_step ha.coherent hst
  exact hs.isPid

/-- **Descriptor isolation.** Take two runs over one image and in each a process that
`execute` started, under whatever pid. If, as far as the first one has come, both
have asked for the same, in the same order, they have got the same return values and
the same bytes, whatever the other processes and the timer did in between and
whoever had the pids before. -/
theorem answers_of_asks {img : Image} {tr₁ tr₂ : Trace} {k₁ k₂ : Kernel} {p₁ p₂ : ℤ} (h₁ : History img tr₁ k₁)
    (h₂ : History img tr₂ k₂) (hp₁ : StartedIn p₁ tr₁) (hp₂ : StartedIn p₂ tr₂)
    (hask : asks (logOf p₁ tr₁).served <:+ asks (logOf p₂ tr₂).served) :
    answers (logOf p₁ tr₁).served <:+ answers (logOf p₂ tr₂).served := by
  obtain ⟨fa₁, hrep₁, -⟩ := session_of_history h₁ (isPid_of_started h₁ hp₁)
  obtain ⟨fa₂, hrep₂, -⟩ := session_of_history h₂ (isPid_of_started h₂ hp₂)
  rw [originOf_started hp₁] at hrep₁
  rw [originOf_started hp₂] at hrep₂
  obtain ⟨new, hnew⟩ := hask
  obtain ⟨later, old, hsplit, -, hold⟩ := List.map_eq_append_iff.mp hnew.symm
  rw [hsplit] at hrep₂ ⊢
  obtain ⟨fa, hrep⟩ := hrep₂.older
  obtain ⟨-, hans⟩ := hrep₁.agree hrep hold.symm
  rw [hans]
  exact ⟨answers later, (List.map_append ..).symm⟩

end Mp3Kernel
