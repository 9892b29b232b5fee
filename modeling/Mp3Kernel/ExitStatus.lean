/-
# The exit status

`halt` leaves a process on its parent's kernel stack, in the frame of the `execute`
call that created it, and returns from that call. The calls that have not returned
form a stack for each terminal (`callStack`, read off the history alone), and every
`halt` returns from the top one: the parent continues behind its call, in the frame
it had (`Pending.returns`).

The value the call returns is the one `halt` pushes. That is `$0`, an immediate
zero, where the operand of the statement is the status: so the status is delivered
exactly when it is 0 (`exit_status`).

Key definitions: `Call`, `callStack`, `ExitStatusDelivered`.
Key theorem: `exit_status`.
-/
import Mp3Kernel.System

namespace Mp3Kernel

open Past

/-- A call of `execute` that started `child`: its caller, its frame, and the words of
the frame that `leave; ret` reads. -/
structure Call where
  parent : ℤ
  child : ℤ
  esp : ℕ
  ebp : ℕ
  callerEbp : ℕ
  retAddr : ℕ

/-- The call a step makes. -/
def callOf (e : Entry Kernel Label) (f : Frame) (c : ℤ) : Call :=
  ⟨e.before.running, c, f.esp, f.ebp, e.after.cpu.mem f.ebp, e.after.cpu.mem (f.ebp + 4)⟩

/-- What a step does to the calls under way in its terminal: `execute` adds one when
it starts a process, `halt` takes the newest away when it resumes one. -/
def stepCalls (e : Entry Kernel Label) (cs : List Call) : List Call :=
  match e.label.2, e.label.1 with
  | .started c, .execute f _ _ => callOf e f c :: cs
  | .resumed _, _ => cs.tail
  | _, _ => cs

/-- The calls of `execute` under way in terminal `t`, newest first. -/
def callStack : Trace → ℤ → List Call
  | [], _ => []
  | e :: tr, t => if e.before.currTerminal = t then stepCalls e (callStack tr t) else callStack tr t

/-- The call returns `v` to its caller, which runs. -/
def Returns (call : Call) (v : ℕ) (k : Kernel) : Prop :=
  k.running = call.parent ∧ k.cpu.eax = v ∧ k.cpu.esp = call.ebp + 8 ∧ k.cpu.ebp = call.callerEbp ∧
    k.cpu.eip = call.retAddr

/-- The status `s` of the process halting in step `e` is delivered: the newest call
under way in the terminal is the one that created the process, and it returns `s`
there. -/
def Delivered (old : Trace) (e : Entry Kernel Label) (s : UInt8) : Prop :=
  ∃ call rest, callStack old e.before.currTerminal = call :: rest ∧ call.child = e.before.running ∧
    e.after.currTerminal = e.before.currTerminal ∧ Returns call s.toNat e.after

/-- Every process started by `execute` that halts in the run has its status delivered. -/
def ExitStatusDelivered (tr : Trace) : Prop :=
  ∀ new e old f lo s p, tr = new ++ e :: old → e.label = (.halt f lo s, .resumed p) → Delivered old e s

/-! ### The calls under way -/

/-- The kernel still holds what the call's return needs. -/
structure Pending (k : Kernel) (call : Call) : Prop where
  nonneg : 0 ≤ call.parent
  parentPid : (k.pcbOf call.child).parentPid = call.parent
  parentEsp : (k.pcbOf call.child).parentEsp = call.esp
  parentEbp : (k.pcbOf call.child).parentEbp = call.ebp
  callerEbp : k.cpu.mem call.ebp = call.callerEbp
  retAddr : k.cpu.mem (call.ebp + 4) = call.retAddr

/-- The calls under way are those that created the processes of the forest. -/
def CallsMatch (tr : Trace) (k : Kernel) (a : Forest) : Prop :=
  ∀ t, (callStack tr (num t)).map Call.child = (a.procs.stk t).dropLast ∧
    ∀ call ∈ callStack tr (num t), Pending k call

section Step

variable {img : Image} {tr : Trace} {k k' : Kernel} {ev : Event} {out : Outcome} {a : Forest}

theorem ownWord_frame {p : ℤ} {esp ebp : ℕ} (h : OnStack p esp ebp) : OwnWord p ebp ∧ OwnWord p (ebp + 4) := by
  obtain ⟨h1, h2, h3⟩ := h
  simp only [pcbSize] at h1
  refine ⟨⟨?_, by omega⟩, ?_, by omega⟩
  · simp only [pcbSize]
    omega
  · simp only [pcbSize]
    omega

/-- A call stays under way as long as the process it created lives. -/
theorem Pending.keep (h : Rep k a) (hs : step img k ev = some (k', out)) {call : Call} (hp : Pending k call)
    (hc : a.procs.Has call.child) (hl : k'.processArray call.child ≠ 0) : Pending k' call := by
  have hpar : 0 ≤ (k.pcbOf call.child).parentPid := by
    rw [hp.parentPid]
    exact hp.nonneg
  have hid := step_identity h hs hc hl
  have hframe := h.frames _ hc hpar
  have hhas := h.parent_has hc hpar
  obtain ⟨hne, -, hnr⟩ := parent_stays_idle h hs hc hl hpar
  have hmem := (step_untouched h hs hhas hne).mem hnr
  rw [hp.parentPid, hp.parentEsp, hp.parentEbp] at hframe
  rw [hp.parentPid] at hmem
  obtain ⟨hw1, hw2⟩ := ownWord_frame hframe
  exact
    { nonneg := hp.nonneg
      parentPid := hid.parentPid.trans hp.parentPid
      parentEsp := hid.parentEsp.trans hp.parentEsp
      parentEbp := hid.parentEbp.trans hp.parentEbp
      callerEbp := (hmem _ hw1).trans hp.callerEbp
      retAddr := (hmem _ hw2).trans hp.retAddr }

theorem has_of_call (hm : CallsMatch tr k a) {t : Fin 3} {call : Call} (hc : call ∈ callStack tr (num t)) :
    call.child ∈ (a.procs.stk t).dropLast := by
  rw [← (hm t).1]
  exact List.mem_map_of_mem hc

/-- A step that neither starts nor resumes a process leaves the calls as they are. -/
theorem callStack_same {e : Entry Kernel Label} (h : e.label.2.IsQuiet ∨ ∃ q, e.label.2 = .switched q) (t : ℤ) :
    callStack (e :: tr) t = callStack tr t := by
  obtain ⟨s, ⟨ev, out⟩, s'⟩ := e
  have hstep : stepCalls ⟨s, (ev, out), s'⟩ (callStack tr t) = callStack tr t := by
    unfold stepCalls
    cases out with
    | started c => exact absurd h (by simp [Outcome.IsQuiet])
    | resumed c => exact absurd h (by simp [Outcome.IsQuiet])
    | _ => rfl
  rw [callStack, hstep, ite_self]

theorem CallsMatch.started (h : Rep k a) (hm : CallsMatch tr k a) {f : Frame} {lo : Leftover} {cmd : List UInt8}
    {c : ℤ} {args : List UInt8} (hs : step img k (.execute f lo (some cmd)) = some (k', .started c))
    (hst : Started k f c args k') (hn : ¬ a.procs.Has c) :
    CallsMatch (⟨k, (.execute f lo (some cmd), .started c), k'⟩ :: tr) k' (a.start c hst.isPid hn) := by
  have hkeep : ∀ t, ∀ call ∈ callStack tr (num t), Pending k' call := by
    intro t call hc
    have hhas : a.procs.Has call.child := ⟨t, List.mem_of_mem_dropLast (has_of_call hm hc)⟩
    refine ((hm t).2 call hc).keep h hs hhas ?_
    have hne : call.child ≠ c := fun he => hn (he ▸ hhas)
    rw [hst.processArray, Function.update_of_ne hne, h.live _ hhas]
    norm_num
  intro t
  have hcur := h.cur
  by_cases ht : t = a.cur
  · subst ht
    have hstk : (a.start c hst.isPid hn).procs.stk a.cur = c :: a.procs.stk a.cur := a.procs.push_stk_same _ _ hn
    have hne : a.procs.stk a.cur ≠ [] := by
      rw [h.stk_eq]
      simp
    rw [callStack, if_pos hcur]
    refine ⟨?_, fun call hc => ?_⟩
    · rw [hstk, List.dropLast_cons_of_ne_nil hne, ← (hm a.cur).1]
      rfl
    · rcases List.mem_cons.mp hc with rfl | hc
      · refine ⟨h.coherent.isPid.1, ?_, ?_, ?_, rfl, rfl⟩
        · exact (congrArg Pcb.parentPid hst.child).trans rfl
        · exact (congrArg Pcb.parentEsp hst.child).trans rfl
        · exact (congrArg Pcb.parentEbp hst.child).trans rfl
      · exact hkeep a.cur call hc
  · have hstk : (a.start c hst.isPid hn).procs.stk t = a.procs.stk t := a.procs.push_stk_ne _ hn ht
    have hne : k.currTerminal ≠ num t := fun he => ht (num_inj (he.symm.trans hcur))
    rw [callStack, if_neg hne, hstk]
    exact ⟨(hm t).1, hkeep t⟩

theorem CallsMatch.resumed (h : Rep k a) (hm : CallsMatch tr k a) {par : ℤ}
    (hs : step img k ev = some (k', .resumed par)) (hr : Resumed k par k') {l : List ℤ}
    (hl : a.procs.stk a.cur = k.running :: par :: l) :
    CallsMatch (⟨k, (ev, .resumed par), k'⟩ :: tr) k' (a.stop k.running par l hl) := by
  have hcur := h.cur
  have hkeep : ∀ t, ∀ call ∈ callStack tr (num t), call.child ≠ k.running → Pending k' call := by
    intro t call hc hne
    have hhas : a.procs.Has call.child := ⟨t, List.mem_of_mem_dropLast (has_of_call hm hc)⟩
    refine ((hm t).2 call hc).keep h hs hhas ?_
    rw [hr.processArray, Function.update_of_ne hne, h.live _ hhas]
    norm_num
  intro t
  by_cases ht : t = a.cur
  · subst ht
    have hstk : (a.stop k.running par l hl).procs.stk a.cur = par :: l := by
      refine (a.procs.pop_stk_same a.cur).trans ?_
      rw [hl]
      rfl
    have hnd := a.procs.nodup a.cur
    rw [hl] at hnd
    have hmap := (hm a.cur).1
    rw [hl, List.dropLast_cons_of_ne_nil (by simp)] at hmap
    rw [callStack, if_pos hcur]
    show (callStack tr (num a.cur)).tail.map Call.child = _ ∧ ∀ call ∈ (callStack tr (num a.cur)).tail, _
    refine ⟨?_, fun call hc => ?_⟩
    · rw [List.map_tail, hmap, hstk]
      rfl
    · refine hkeep a.cur call (List.mem_of_mem_tail hc) fun he => ?_
      have hin : call.child ∈ (par :: l).dropLast := by
        have := List.mem_map_of_mem (f := Call.child) hc
        rwa [List.map_tail, hmap] at this
      exact (List.nodup_cons.mp hnd).1 (he ▸ List.mem_of_mem_dropLast hin)
  · have hstk : (a.stop k.running par l hl).procs.stk t = a.procs.stk t := a.procs.pop_stk_ne ht
    have hne : k.currTerminal ≠ num t := fun he => ht (num_inj (he.symm.trans hcur))
    rw [callStack, if_neg hne, hstk]
    refine ⟨(hm t).1, fun call hc => hkeep t call hc fun he => ht ?_⟩
    have hmem : k.running ∈ a.procs.stk t := he ▸ List.mem_of_mem_dropLast (has_of_call hm hc)
    exact a.procs.disj _ _ _ hmem (h.running_eq ▸ h.head_mem a.cur)

/-- In every run the calls under way are those that created the live processes. -/
theorem callsMatch_of_history (h : History img tr k) : ∃ a, Rep k a ∧ CallsMatch tr k a := by
  refine Hist.inv (fun tr s => ∃ a, Rep s a ∧ CallsMatch tr s a) ?_ ?_ h
  · intro s hs
    refine ⟨shells, rep_of_fresh (fresh_of_booted hs), fun t => ⟨rfl, ?_⟩⟩
    intro call hc
    cases hc
  · rintro tr s ⟨ev, out⟩ s' - ⟨a, ha, hm⟩ hs
    have hsame : (out.IsQuiet ∨ ∃ q, out = .switched q) → s'.processArray = s.processArray →
        CallsMatch (⟨s, (ev, out), s'⟩ :: tr) s' a := by
      intro ho hpa t
      rw [callStack_same ho]
      refine ⟨(hm t).1, fun call hc => ?_⟩
      have hhas : a.procs.Has call.child := ⟨t, List.mem_of_mem_dropLast (has_of_call hm hc)⟩
      refine ((hm t).2 call hc).keep ha hs hhas ?_
      rw [hpa, ha.live _ hhas]
      norm_num
    rcases step_cases ha.coherent hs with ⟨f, lo, cmd, args, c, rfl, -, rfl, hst⟩ | ⟨_, _, _, par, -, rfl, hr⟩ |
      ⟨f, q, -, rfl, hsw⟩ | ⟨ho, hq⟩
    · obtain ⟨hn, hrep⟩ := ha.started hst
      exact ⟨_, hrep, hm.started ha hs hst hn⟩
    · obtain ⟨l, hl, hrep⟩ := ha.resumed hr
      exact ⟨_, hrep, hm.resumed ha hs hr hl⟩
    · obtain ⟨t, -, -, hrep⟩ := ha.switched hsw
      exact ⟨_, hrep, hsame (Or.inr ⟨q, rfl⟩) hsw.processArray⟩
    · exact ⟨a, ha.quiet hq, hsame (Or.inl ho) hq.processArray⟩

/-- **LIFO.** A process that halts was created by the newest call under way in its
terminal, and `halt` returns from that call, with 0. -/
theorem halt_returns (h : History img tr k) {p : ℤ} (hs : step img k ev = some (k', .resumed p)) :
    ∃ call rest, callStack tr k.currTerminal = call :: rest ∧ call.child = k.running ∧ call.parent = p ∧
      k'.currTerminal = k.currTerminal ∧ Returns call 0 k' := by
  obtain ⟨a, ha, hm⟩ := callsMatch_of_history h
  obtain ⟨_, _, _, -, hr⟩ := resumed_of_step ha.coherent hs
  obtain ⟨l, hl⟩ := ha.stk_cur hr.parentPid hr.nonneg
  obtain ⟨hmap, hpend⟩ := hm a.cur
  rw [hl, List.dropLast_cons_of_ne_nil (by simp)] at hmap
  rw [← ha.cur] at hmap hpend
  cases hcs : callStack tr k.currTerminal with
  | nil =>
    rw [hcs] at hmap
    cases hmap
  | cons call rest =>
    rw [hcs, List.map_cons, List.cons.injEq] at hmap
    have hp := hpend call (by rw [hcs]; simp)
    obtain ⟨-, hpar, hesp, hebp, hce, hra⟩ := hp
    have hparent : call.parent = p := by rw [← hpar, hmap.1, hr.parentPid]
    rw [hmap.1] at hesp hebp
    -- the words `leave; ret` reads are on the parent's stack, above the word pushed
    have hframe := ha.frames _ ha.running_has (by rw [hr.parentPid]; exact hr.nonneg)
    rw [hr.parentPid, hesp, hebp] at hframe
    have hpid : IsPid p := (hr.parentPid ▸ ha.coherent.parent (by rw [hr.parentPid]; exact hr.nonneg)).1
    have hne : p ≠ k.running :=
      (hr.parentPid ▸ ha.coherent.parent (by rw [hr.parentPid]; exact hr.nonneg)).2
    have hlow := hframe.low
    have hle := hframe.le
    simp only [pcbSize] at hlow
    obtain ⟨hw1, hw2⟩ := ownWord_frame hframe
    have hm1 : k'.cpu.mem call.ebp = call.callerEbp := by
      rw [← hce]
      refine hr.mem _ (not_ownWord_of_ne ha.coherent.isPid hpid hne hw1) ?_
      rw [hesp]
      omega
    have hm2 : k'.cpu.mem (call.ebp + 4) = call.retAddr := by
      rw [← hra]
      refine hr.mem _ (not_ownWord_of_ne ha.coherent.isPid hpid hne hw2) ?_
      rw [hesp]
      omega
    have hcpu := hr.cpu
    rw [hebp] at hcpu
    refine ⟨call, rest, rfl, hmap.1, hparent, hr.currTerminal, hr.run.trans hparent.symm, ?_, ?_, ?_, ?_⟩
    · rw [hcpu]
      rfl
    · rw [hcpu]
      rfl
    · rw [hcpu]
      exact hm1
    · rw [hcpu]
      exact hm2

/-- **The exit status.** In every run, all exit statuses are delivered exactly when
every process started by `execute` halts with status 0: the call that created the
process returns, in LIFO order, but always with 0. -/
theorem exit_status (h : History img tr k) :
    ExitStatusDelivered tr ↔ ∀ e ∈ tr, ∀ f lo s p, e.label = (.halt f lo s, .resumed p) → s = 0 := by
  have key : ∀ new e old f lo s p, tr = new ++ e :: old → e.label = (.halt f lo s, .resumed p) →
      (Delivered old e s ↔ s = 0) := by
    rintro new ⟨s0, l, s1⟩ old f lo s p rfl (rfl : l = _)
    obtain ⟨hold, hstep⟩ := h.reached
    obtain ⟨call, rest, hcs, hchild, -, hterm, hret⟩ := halt_returns hold hstep
    have h0 : s1.cpu.eax = 0 := hret.2.1
    constructor
    · rintro ⟨call', rest', -, -, -, hret'⟩
      have hs : s.toNat = 0 := by rw [← hret'.2.1, h0]
      exact UInt8.toNat_inj.mp hs
    · rintro rfl
      exact ⟨call, rest, hcs, hchild, hterm, hret⟩
  constructor
  · intro hd e he f lo s p hlabel
    obtain ⟨old, new, rfl⟩ := List.append_of_mem he
    exact (key old e new f lo s p rfl hlabel).mp (hd old e new f lo s p rfl hlabel)
  · intro hz new e old f lo s p htr hlabel
    exact (key new e old f lo s p htr hlabel).mpr (hz e (by rw [htr]; simp) f lo s p hlabel)

end Step

/-- The first base shell starts a shell, which halts with status `s`. -/
def exitWith (s : UInt8) : List Event :=
  [.halt (frameOf 3) zeros s, .execute (frameOf 0) zeros (some shellName)]

/-- The status of a `halt`, and 0 for every other event. -/
def Event.status : Event → UInt8
  | .halt _ _ s => s
  | _ => 0

theorem exit_status_exitWith_zero :
    (smallRun (exitWith 0)).1.length = 2 ∧ ExitStatusDelivered (smallRun (exitWith 0)).1 := by
  have hzero : ∀ e ∈ (smallRun (exitWith 0)).1, e.label.1.status = 0 := by decide +kernel
  refine ⟨by decide +kernel, (exit_status (history_smallRun (exitWith 0))).mpr ?_⟩
  intro e he f lo s p hlabel
  have hs := hzero e he
  rw [hlabel] at hs
  exact hs

theorem resumed_of_next {img : Image} {k k' : Kernel} {f : Frame} {lo : Leftover} {s : UInt8} {out : Outcome}
    {p : ℤ} (hc : Coherent k) (hs : step img k (.halt f lo s) = some (k', out)) (hn : out.next = some p) :
    out = .resumed p := by
  rcases step_cases hc hs with ⟨_, _, _, _, _, hev, -⟩ | ⟨_, _, _, par, -, rfl, -⟩ | ⟨_, _, hev, -⟩ | ⟨ho, -⟩
  · cases hev
  · rw [Option.some.inj hn]
  · cases hev
  · cases out <;> simp [Outcome.next, Outcome.IsQuiet] at hn ho

/-- A shell that halts with status 1: its parent's `execute` returns 0. -/
theorem exit_status_one_lost : ∃ tr k,
    History smallImage tr k ∧ tr.map (fun e => e.label.1.status) = [1, 0] ∧ k.running = 0 ∧ k.cpu.eax = 0 ∧
      ¬ ExitStatusDelivered tr := by
  have hh := history_smallRun (exitWith 1)
  have hstatus : (smallRun (exitWith 1)).1.map (fun e => e.label.1.status) = [1, 0] := by decide +kernel
  have hnext : (smallRun (exitWith 1)).1.map (fun e => e.label.2.next) = [some 0, some 3] := by decide +kernel
  have heax : (smallRun (exitWith 1)).2.cpu.eax = 0 := by decide +kernel
  refine ⟨_, _, hh, hstatus, by decide +kernel, heax, fun hd => ?_⟩
  generalize smallRun (exitWith 1) = r at hh hstatus hnext heax hd
  obtain ⟨tr, k⟩ := r
  dsimp only at hh hstatus hnext heax hd
  cases hh with
  | start h0 => cases hstatus
  | next hp hst =>
    rename_i old s l
    obtain ⟨ev, out⟩ := l
    simp only [List.map_cons, List.cons.injEq] at hstatus hnext
    obtain ⟨a, ha⟩ := rep_of_history hp
    cases ev with
    | halt f lo status =>
      obtain rfl : status = 1 := hstatus.1
      have hout : out = .resumed 0 := resumed_of_next ha.coherent hst hnext.1
      obtain ⟨call, rest, -, -, -, hret⟩ := hd [] _ old f lo 1 0 rfl (by rw [hout])
      have : k.cpu.eax = 1 := hret.2.1
      omega
    | _ => exact absurd hstatus.1 (by simp [Event.status])

end Mp3Kernel
