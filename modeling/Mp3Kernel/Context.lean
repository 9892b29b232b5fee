/-
# No stale context is resumed

The scheduler loads the registers it finds in a PCB, and `halt` those it finds in
the PCB of the process that halts. Neither is initialised when a pid is reused, so
that they are the right ones is a fact about the past: the process the scheduler
switches to was left by the scheduler, with these very registers, and has not run
since (`Suspended`); the parent that `halt` resumes called `execute` in the frame
recorded, and has not run since (`Called`).

Both are invariants over histories, carried by the steps in which the process in
question does not run (`Idle`).

Key definitions: `Idle`, `Suspended`, `Called`.
Key theorem: `no_stale_context`.
-/
import Mp3Kernel.System

namespace Mp3Kernel

open Past

/-- The process runs neither before nor after the step. -/
def Idle (q : ℤ) (e : Entry Kernel Label) : Prop := e.before.running ≠ q ∧ e.after.running ≠ q

/-- The scheduler left the process, with these registers, and stored them. -/
def SwitchedAway (q : ℤ) (esp ebp : ℕ) (e : Entry Kernel Label) : Prop :=
  e.before.running = q ∧ e.after.running ≠ q ∧
    (∃ f r, e.label = (.pitInt f, .switched r) ∧ f.esp = esp ∧ f.ebp = ebp) ∧
    (e.after.pcbOf q).savedEsp = esp ∧ (e.after.pcbOf q).savedEbp = ebp

/-- The process `p` called `execute`, in a frame with these registers, and the call
started `c` and recorded them. -/
def CalledExecute (p c : ℤ) (esp ebp : ℕ) (e : Entry Kernel Label) : Prop :=
  e.before.running = p ∧ e.after.running = c ∧
    (∃ f lo cmd, e.label = (.execute f lo (some cmd), .started c) ∧ f.esp = esp ∧ f.ebp = ebp) ∧
    (e.after.pcbOf c).parentEsp = esp ∧ (e.after.pcbOf c).parentEbp = ebp

/-- The registers in the PCB of `q` are those with which the scheduler last left it,
and `q` has not run since; or `q` is one of the base shells 1 and 2, has never run,
and they are those `execute_shells` set up. -/
def Suspended (tr : Trace) (k : Kernel) (q : ℤ) : Prop :=
  Since (SwitchedAway q (k.pcbOf q).savedEsp (k.pcbOf q).savedEbp) (Idle q) tr ∨
    ((q = 1 ∨ q = 2) ∧ (∀ e ∈ tr, Idle q e) ∧
      (k.pcbOf q).savedEsp = shellSaved q ∧ (k.pcbOf q).savedEbp = shellSaved q)

/-- The registers in the PCB of `c` are those of the `execute` call that created it,
made by its parent `p`, which has not run since; nor has `c` been created again. -/
def Called (tr : Trace) (k : Kernel) (p c : ℤ) : Prop :=
  Since (CalledExecute p c (k.pcbOf c).parentEsp (k.pcbOf c).parentEbp)
    (fun e => Idle p e ∧ e.label.2 ≠ .started c) tr

/-- Where the registers of all processes that do not run come from. -/
structure Contexts (tr : Trace) (k : Kernel) : Prop where
  heads : ∀ t, k.terminalArray (num t) ≠ k.running → Suspended tr k (k.terminalArray (num t))
  parents : ∀ c, IsPid c → k.processArray c ≠ 0 → 0 ≤ (k.pcbOf c).parentPid →
    Called tr k (k.pcbOf c).parentPid c

section Keep

variable {tr : Trace} {k : Kernel} {e : Entry Kernel Label}

theorem Suspended.keep {q : ℤ} (h : Suspended tr k q) (hi : Idle q e)
    (h1 : (e.after.pcbOf q).savedEsp = (k.pcbOf q).savedEsp)
    (h2 : (e.after.pcbOf q).savedEbp = (k.pcbOf q).savedEbp) : Suspended (e :: tr) e.after q := by
  unfold Suspended
  rw [h1, h2]
  rcases h with h | ⟨hq, hall, hs⟩
  · exact Or.inl (h.later hi)
  · exact Or.inr ⟨hq, List.forall_mem_cons.mpr ⟨hi, hall⟩, hs⟩

theorem Called.keep {p c : ℤ} (h : Called tr k p c) (hi : Idle p e) (hn : e.label.2 ≠ .started c)
    (h1 : (e.after.pcbOf c).parentEsp = (k.pcbOf c).parentEsp)
    (h2 : (e.after.pcbOf c).parentEbp = (k.pcbOf c).parentEbp) : Called (e :: tr) e.after p c := by
  unfold Called
  rw [h1, h2]
  exact h.later ⟨hi, hn⟩

end Keep

/-- Nothing has run yet. -/
theorem contexts_of_fresh {k : Kernel} (h : Fresh k) : Contexts [] k := by
  have hr := rep_of_fresh h
  have hrun : k.running = 0 := by
    rw [hr.running_eq]
    exact h.terminalArray 0
  refine ⟨fun t ht => ?_, fun c hc hl hpar => ?_⟩
  · rw [h.terminalArray] at ht ⊢
    rw [hrun] at ht
    refine Or.inr ⟨?_, by simp, (h.pcb t).savedEsp, (h.pcb t).savedEbp⟩
    have := t.isLt
    unfold num at ht ⊢
    omega
  · obtain ⟨t, ht⟩ := hr.has_of_live hc hl
    rw [List.mem_singleton.mp ht, (h.pcb t).parentPid] at hpar
    omega

section Step

variable {img : Image} {tr : Trace} {k k' : Kernel} {ev : Event} {out : Outcome} {a : Forest}

/-- The top process of a terminal stays it, unless the new one runs. -/
theorem head_after (h : Rep k a) (hs : step img k ev = some (k', out)) (t : Fin 3)
    (hne : k'.terminalArray (num t) ≠ k'.running) : k'.terminalArray (num t) = k.terminalArray (num t) := by
  rcases step_cases h.coherent hs with ⟨_, _, _, _, c, -, -, -, hst⟩ | ⟨_, _, _, par, -, -, hr⟩ |
    ⟨_, r, -, -, hsw⟩ | ⟨-, hq⟩
  · rw [hst.run] at hne
    rw [hst.terminalArray] at hne ⊢
    by_cases ht : num t = k.currTerminal
    · rw [ht, Function.update_self] at hne
      exact absurd rfl hne
    · exact Function.update_of_ne ht ..
  · rw [hr.run] at hne
    rw [hr.terminalArray] at hne ⊢
    by_cases ht : num t = k.currTerminal
    · rw [ht, Function.update_self] at hne
      exact absurd rfl hne
    · exact Function.update_of_ne ht ..
  · rw [hsw.terminalArray]
  · rw [hq.terminalArray]

/-- The step in which a process stops running and stays on top of its terminal is
the scheduler's. -/
theorem suspended_of_left (h : Rep k a) (hs : step img k ev = some (k', out))
    (hhead : ∃ t, k'.terminalArray (num t) = k.running) (hne : k.running ≠ k'.running) :
    Suspended (⟨k, (ev, out), k'⟩ :: tr) k' k.running := by
  obtain ⟨t, ht⟩ := hhead
  have hsame := head_after h hs t (ht ▸ hne)
  have htc : t = a.cur := h.head_inj (hsame.symm.trans (ht.trans h.running_eq))
  rcases step_cases h.coherent hs with ⟨_, _, _, _, c, -, -, -, hst⟩ | ⟨_, _, _, par, -, -, hr⟩ |
    ⟨f, r, rfl, rfl, hsw⟩ | ⟨-, hq⟩
  · rw [hst.terminalArray, htc, ← h.cur, Function.update_self] at ht
    exact absurd (ht.symm.trans hst.run.symm) hne
  · rw [hr.terminalArray, htc, ← h.cur, Function.update_self] at ht
    exact absurd (ht.symm.trans hr.run.symm) hne
  · refine Or.inl (Since.now _ ⟨rfl, hne.symm, ⟨f, r, rfl, ?_, ?_⟩, rfl, rfl⟩)
    · rw [hsw.self]
    · rw [hsw.self]
  · exact absurd hq.run.symm hne

theorem called_of_started (h : Rep k a) {c : ℤ} (hs : step img k ev = some (k', .started c)) :
    Called (⟨k, (ev, .started c), k'⟩ :: tr) k' (k'.pcbOf c).parentPid c := by
  obtain ⟨f, lo, cmd, args, rfl, -, hst⟩ := started_of_step h.coherent hs
  refine Since.now _ ⟨?_, hst.run, ⟨f, lo, cmd, rfl, ?_, ?_⟩, rfl, rfl⟩
  · rw [hst.child]
  · rw [hst.child]
  · rw [hst.child]

/-- One more step. -/
theorem Contexts.step (h : Rep k a) (hi : Contexts tr k) (hs : step img k ev = some (k', out)) :
    Contexts (⟨k, (ev, out), k'⟩ :: tr) k' := by
  refine ⟨fun t ht => ?_, fun c hc hl hpar => ?_⟩
  · have hsame := head_after h hs t ht
    by_cases hrun : k'.terminalArray (num t) = k.running
    · rw [hrun] at ht ⊢
      exact suspended_of_left h hs ⟨t, hrun⟩ ht
    · rw [hsame] at ht hrun ⊢
      obtain ⟨l, hpcb⟩ := (step_untouched h hs (h.head_has t) hrun).pcb
      have hidle : Idle (k.terminalArray (num t)) ⟨k, (ev, out), k'⟩ := ⟨Ne.symm hrun, Ne.symm ht⟩
      refine (hi.heads t hrun).keep hidle ?_ ?_
      · rw [hpcb]
      · rw [hpcb]
  · rcases live_before h hs hc hl with hhas | rfl
    · have hid := step_identity h hs hhas hl
      rw [hid.parentPid] at hpar ⊢
      obtain ⟨hp1, hp2, -⟩ := parent_stays_idle h hs hhas hl hpar
      refine (hi.parents c hc (by rw [h.live c hhas]; norm_num) hpar).keep ⟨hp1.symm, hp2.symm⟩ ?_
        hid.parentEsp hid.parentEbp
      rintro (rfl : out = .started c)
      exact started_fresh h hs hhas
    · exact called_of_started h hs

theorem contexts_of_history (h : History img tr k) : Contexts tr k := by
  apply history_inv Contexts (fun s hs => contexts_of_fresh hs) ?_ h
  intro tr s a ev out s' ha hi hst
  exact hi.step ha hst

/-- **No stale context is resumed.** When the scheduler switches to `q`, the machine
continues from the registers in `q`'s PCB, and these are those with which the
scheduler last left `q`, or the initial ones of a base shell that never ran; `q` has
not run since. When a process halts and `p` is resumed, the machine returns from the
frame in the halting process's PCB, which is that of the `execute` call of `p` that
created the process; `p` has not run since. -/
theorem no_stale_context (h : History img tr k) (hs : Mp3Kernel.step img k ev = some (k', out)) :
    (∀ q, out = .switched q → Suspended tr k q ∧
      k'.cpu = Cpu.returned k'.cpu.mem (k.pcbOf q).savedEbp k'.cpu.eax) ∧
    ∀ p, out = .resumed p → Called tr k p k.running ∧
      k'.cpu = Cpu.returned k'.cpu.mem (k.pcbOf k.running).parentEbp k'.cpu.eax := by
  obtain ⟨a, ha⟩ := rep_of_history h
  have hctx := contexts_of_history h
  refine ⟨fun q hq => ?_, fun p hp => ?_⟩
  · obtain ⟨f, -, hsw⟩ := switched_of_step ha.coherent (hq ▸ hs)
    obtain ⟨t, -, ht, -⟩ := ha.switched hsw
    have hne := hsw.ne
    have hcpu := hsw.cpu
    rw [ht] at hne hcpu ⊢
    exact ⟨hctx.heads t hne, hcpu⟩
  · obtain ⟨_, _, _, -, hr⟩ := resumed_of_step ha.coherent (hp ▸ hs)
    refine ⟨?_, ?_⟩
    · have hl : k.processArray k.running ≠ 0 := ha.coherent.live
      have hcall := hctx.parents k.running ha.coherent.isPid hl (by rw [hr.parentPid]; exact hr.nonneg)
      rwa [hr.parentPid] at hcall
    · rw [show k'.cpu.eax = 0 by rw [hr.cpu]; rfl]
      exact hr.cpu

end Step

theorem no_stale_context_spawn : ∃ k' out,
    step smallImage (smallRun spawn).2 (.pitInt (frameOf 1)) = some (k', out) ∧ out.next = some 2 ∧
      ∀ q, out = .switched q → Suspended (smallRun spawn).1 (smallRun spawn).2 q := by
  have hnext : ((step smallImage (smallRun spawn).2 (.pitInt (frameOf 1))).bind fun r => r.2.next) = some 2 := by
    decide +kernel
  obtain ⟨⟨k', out⟩, hs, ho⟩ := Option.bind_eq_some_iff.mp hnext
  exact ⟨k', out, hs, ho, fun q hq => ((no_stale_context (history_smallRun spawn) hs).1 q hq).1⟩

end Mp3Kernel
