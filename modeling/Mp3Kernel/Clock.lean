/-
# Waiting for the clock

`rtc_read` spins until `readFlag` is set and then clears it; `rtc_int` sets it. The
flag is shared by all readers, and nobody clears it before waiting: a tick that came
while no one was reading is still there when the next call begins, and the call returns
at once (`stale_tick`). A call that begins with the flag clear does wait for a tick of
its own, whatever the other readers do in between (`fresh_tick`).

A call is followed statement by statement: its beginning, each test of the loop, and
the clearing of the flag with which it returns. Any number of processes may stand at
any of these, and interrupts come between any two of them.

Key definitions: `clockStep`, `FreshReturns`. Key theorems: `waiting_invariant`, `fresh_tick`.
-/
import Mp3Kernel.Basis.Past

namespace Mp3Kernel

open Past

/-- Where a process stands in `rtc_read`. -/
inductive ClockPc where
  | outside
  /-- in `while(!readFlag){}` -/
  | waiting
  /-- behind the loop, before `readFlag = 0` -/
  | woken
deriving DecidableEq, Repr

/-- The flag of rtc.c and the processes' places in `rtc_read`. -/
structure Clock (P : Type) where
  readFlag : Int32
  pc : P → ClockPc

/-- What can happen: an interrupt, and the statements of a call. -/
inductive ClockEvent (P : Type) where
  | rtcInt
  | begin (p : P)
  | test (p : P)
  | clear (p : P)
deriving DecidableEq, Repr

section Clock

variable {P : Type} [DecidableEq P]

/-- One statement, or one interrupt. The statement that clears the flag also returns. -/
def clockNext (s : Clock P) : ClockEvent P → Option (Clock P × Option Int32)
  | .rtcInt => some ({ s with readFlag := 1 }, none)
  | .begin p => if s.pc p = .outside then some ({ s with pc := Function.update s.pc p .waiting }, none) else none
  | .test p =>
    if s.pc p = .waiting then
      if s.readFlag = 0 then some (s, none)
      else some ({ s with pc := Function.update s.pc p .woken }, none)
    else none
  | .clear p =>
    if s.pc p = .woken then some (⟨0, Function.update s.pc p .outside⟩, some 0) else none

/-- No tick yet, and no one reading. -/
def clockInit (s : Clock P) : Prop := s.readFlag = 0 ∧ ∀ p, s.pc p = .outside

def clockStep (s : Clock P) (l : ClockEvent P × Option Int32) (s' : Clock P) : Prop :=
  clockNext s l.1 = some (s', l.2)

/-- A step of a run. -/
abbrev ClockEntry (P : Type) := Entry (Clock P) (ClockEvent P × Option Int32)

/-- There was a tick since the process began its last call. -/
def TickSince (p : P) (tr : List (ClockEntry P)) : Prop :=
  Since (fun e => e.label.1 = .rtcInt) (fun e => e.label.1 ≠ .begin p) tr

/-- Every call that returned was preceded by a tick after its beginning. -/
def FreshReturns (tr : List (ClockEntry P)) : Prop :=
  ∀ (new : List (ClockEntry P)) (e : ClockEntry P) (old : List (ClockEntry P)) (p : P), tr = new ++ e :: old →
    e.label.1 = .clear p → TickSince p old

/-- No call began with the flag set. -/
def BeginsClear (tr : List (ClockEntry P)) : Prop :=
  ∀ e ∈ tr, ∀ p, e.label.1 = .begin p → e.before.readFlag = 0

/-! ### The invariant -/

/-- What is known of the ticks: a process behind the loop has had its own, and one in
the loop has had it if the flag is set. -/
structure Waits (tr : List (ClockEntry P)) (s : Clock P) : Prop where
  woken : ∀ p, s.pc p = .woken → TickSince p tr
  waiting : ∀ p, s.pc p = .waiting → s.readFlag ≠ 0 → TickSince p tr

omit [DecidableEq P] in
theorem TickSince.keep {p : P} {tr : List (ClockEntry P)} {e : ClockEntry P} (h : TickSince p tr)
    (he : e.label.1 ≠ .begin p) : TickSince p (e :: tr) := Since.later h he

/-- What one step does to the flag and to the places. -/
theorem clockStep_cases {s s' : Clock P} {l : ClockEvent P × Option Int32} (h : clockStep s l s') :
    (l.1 = .rtcInt ∧ s'.pc = s.pc) ∨
    (∃ p, l.1 = .begin p ∧ s'.readFlag = s.readFlag ∧ s'.pc = Function.update s.pc p .waiting) ∨
    (∃ p, l.1 = .test p ∧ s.pc p = .waiting ∧ s.readFlag = 0 ∧ s' = s) ∨
    (∃ p, l.1 = .test p ∧ s.pc p = .waiting ∧ s.readFlag ≠ 0 ∧ s'.readFlag = s.readFlag ∧
      s'.pc = Function.update s.pc p .woken) ∨
    (∃ p, l.1 = .clear p ∧ s.pc p = .woken ∧ s'.readFlag = 0 ∧ s'.pc = Function.update s.pc p .outside) := by
  obtain ⟨ev, out⟩ := l
  unfold clockStep at h
  cases ev with
  | rtcInt =>
    simp only [clockNext, Option.some.injEq, Prod.mk.injEq] at h
    obtain ⟨rfl, -⟩ := h
    exact Or.inl ⟨rfl, rfl⟩
  | begin p =>
    simp only [clockNext, Option.ite_none_right_eq_some, Option.some.injEq, Prod.mk.injEq] at h
    obtain ⟨-, rfl, -⟩ := h
    exact Or.inr (Or.inl ⟨p, rfl, rfl, rfl⟩)
  | test p =>
    simp only [clockNext, Option.ite_none_right_eq_some] at h
    obtain ⟨hpc, h⟩ := h
    split_ifs at h with hflag
    · simp only [Option.some.injEq, Prod.mk.injEq] at h
      exact Or.inr (Or.inr (Or.inl ⟨p, rfl, hpc, hflag, h.1.symm⟩))
    · simp only [Option.some.injEq, Prod.mk.injEq] at h
      obtain ⟨rfl, -⟩ := h
      exact Or.inr (Or.inr (Or.inr (Or.inl ⟨p, rfl, hpc, hflag, rfl, rfl⟩)))
  | clear p =>
    simp only [clockNext, Option.ite_none_right_eq_some, Option.some.injEq, Prod.mk.injEq] at h
    obtain ⟨hpc, rfl, -⟩ := h
    exact Or.inr (Or.inr (Or.inr (Or.inr ⟨p, rfl, hpc, rfl, rfl⟩)))

theorem unmoved {pc : P → ClockPc} {p q : P} {a b : ClockPc} (h : Function.update pc p a q = b) (hab : a ≠ b) :
    q ≠ p ∧ pc q = b := by
  have hne : q ≠ p := by
    rintro rfl
    exact hab (by rwa [Function.update_self] at h)
  rw [Function.update_of_ne hne] at h
  exact ⟨hne, h⟩

/-- One step keeps it, if it is not the beginning of a call with the flag set. -/
theorem Waits.step {tr : List (ClockEntry P)} {s s' : Clock P} {l : ClockEvent P × Option Int32} (h : Waits tr s)
    (hstep : clockStep s l s') (hb : ∀ p, l.1 = .begin p → s.readFlag = 0) : Waits (⟨s, l, s'⟩ :: tr) s' := by
  rcases clockStep_cases hstep with ⟨hl, hpc⟩ | ⟨p, hl, hf, hpc⟩ | ⟨p, hl, hw, hf, rfl⟩ | ⟨p, hl, hw, hf, hf', hpc⟩ |
    ⟨p, hl, hw, hf, hpc⟩
  · exact ⟨fun q _ => Since.now tr hl, fun q _ _ => Since.now tr hl⟩
  · refine ⟨fun q hq => ?_, fun q hq hset => ?_⟩
    · obtain ⟨hne, hq⟩ := unmoved (hpc ▸ hq) (by decide)
      exact (h.woken q hq).keep (by rw [hl]; exact fun he => hne (ClockEvent.begin.inj he).symm)
    · exact absurd (hb p hl) (hf ▸ hset)
  · exact ⟨fun q hq => (h.woken q hq).keep (by simp [hl]), fun q hq hset => absurd hf hset⟩
  · refine ⟨fun q hq => ?_, fun q hq hset => ?_⟩
    · by_cases hqp : q = p
      · subst hqp
        exact (h.waiting q hw hf).keep (by simp [hl])
      · rw [hpc, Function.update_of_ne hqp] at hq
        exact (h.woken q hq).keep (by simp [hl])
    · obtain ⟨hne, hq⟩ := unmoved (hpc ▸ hq) (by decide)
      exact (h.waiting q hq hf).keep (by simp [hl])
  · refine ⟨fun q hq => ?_, fun q _ hset => absurd hf hset⟩
    obtain ⟨-, hq⟩ := unmoved (hpc ▸ hq) (by decide)
    exact (h.woken q hq).keep (by simp [hl])

/-- Along a run in which no call begins with the flag set, every call that has seen the
flag set has had a tick of its own. -/
theorem waiting_invariant {tr : List (ClockEntry P)} {s : Clock P} (h : Hist clockInit clockStep tr s)
    (hb : BeginsClear tr) : Waits tr s := by
  induction h with
  | start hi => exact ⟨fun p hp => by simp [hi.2 p] at hp, fun p hp => by simp [hi.2 p] at hp⟩
  | next hp hst ih =>
    obtain ⟨hnow, hold⟩ := List.forall_mem_cons.mp hb
    exact (ih hold).step hst hnow

/-- Where the flag is set, a call can begin, test and return, with no tick in between. -/
theorem stale_of_set {tr : List (ClockEntry P)} {s : Clock P} (h : Hist clockInit clockStep tr s) {p : P}
    (hp : s.pc p = .outside) (hset : s.readFlag ≠ 0) :
    ∃ tr' s', Hist clockInit clockStep (tr' ++ tr) s' ∧
      tr'.map (fun e => e.label.1) = [.clear p, .test p, .begin p] ∧ ¬ FreshReturns (tr' ++ tr) := by
  obtain ⟨s₁, hs₁⟩ : ∃ s₁ : Clock P, s₁ = { s with pc := Function.update s.pc p .waiting } := ⟨_, rfl⟩
  obtain ⟨s₂, hs₂⟩ : ∃ s₂ : Clock P, s₂ = { s₁ with pc := Function.update s₁.pc p .woken } := ⟨_, rfl⟩
  obtain ⟨s₃, hs₃⟩ : ∃ s₃ : Clock P, s₃ = ⟨0, Function.update s₂.pc p .outside⟩ := ⟨_, rfl⟩
  have hpc₁ : s₁.pc p = .waiting := by rw [hs₁]; exact Function.update_self ..
  have hpc₂ : s₂.pc p = .woken := by rw [hs₂]; exact Function.update_self ..
  have hset₁ : s₁.readFlag ≠ 0 := by rw [hs₁]; exact hset
  have hst₁ : clockStep s (.begin p, none) s₁ := by simp [clockStep, clockNext, hp, hs₁]
  have hst₂ : clockStep s₁ (.test p, none) s₂ := by simp [clockStep, clockNext, hpc₁, hset₁, hs₂]
  have hst₃ : clockStep s₂ (.clear p, some 0) s₃ := by simp [clockStep, clockNext, hpc₂, hs₃]
  refine ⟨[⟨s₂, (.clear p, some 0), s₃⟩, ⟨s₁, (.test p, none), s₂⟩, ⟨s, (.begin p, none), s₁⟩], s₃,
    ((h.next hst₁).next hst₂).next hst₃, rfl, ?_⟩
  intro hfresh
  have htick : TickSince p (⟨s₁, (.test p, none), s₂⟩ :: ⟨s, (.begin p, none), s₁⟩ :: tr) := hfresh [] _ _ p rfl rfl
  -- neither of the two statements is a tick, and the older one begins the call
  rcases since_cons.mp htick with hnow | ⟨-, hold⟩
  · exact absurd hnow (by simp)
  · rcases since_cons.mp hold with hnow | ⟨hbegin, -⟩
    · exact absurd hnow (by simp)
    · exact hbegin rfl

/-- **A fresh tick.** In every run in which no `rtc_read` begins with the flag set, every
call that returned was preceded by a tick after its beginning. And where the flag is
set, a call that begins can return without one. -/
theorem fresh_tick {tr : List (ClockEntry P)} {s : Clock P} (h : Hist clockInit clockStep tr s) :
    (BeginsClear tr → FreshReturns tr) ∧
    ∀ p, s.pc p = .outside → s.readFlag ≠ 0 →
      ∃ tr' s', Hist clockInit clockStep (tr' ++ tr) s' ∧
        tr'.map (fun e => e.label.1) = [.clear p, .test p, .begin p] ∧ ¬ FreshReturns (tr' ++ tr) := by
  refine ⟨?_, fun p hp hset => stale_of_set h hp hset⟩
  rintro hb new e old p rfl hl
  obtain ⟨hold, hst⟩ := h.reached
  have hbold : BeginsClear old := fun x hx => hb x (by simp [hx])
  apply (waiting_invariant hold hbold).woken
  rcases clockStep_cases hst with ⟨h1, -⟩ | ⟨q, h1, -⟩ | ⟨q, h1, -⟩ | ⟨q, h1, -⟩ | ⟨q, h1, hq, -⟩
  · exact absurd (hl.symm.trans h1) (by simp)
  · exact absurd (hl.symm.trans h1) (by simp)
  · exact absurd (hl.symm.trans h1) (by simp)
  · exact absurd (hl.symm.trans h1) (by simp)
  · rw [ClockEvent.clear.inj (hl.symm.trans h1)]
    exact hq

end Clock

/-- A reader that tests once before the tick comes. -/
def clockEvents : List (ClockEvent (Fin 6)) :=
  [.clear 1, .test 1, .rtcInt, .test 1, .begin 1]

/-- A clock no one has read. -/
def freshClock : Clock (Fin 6) := ⟨0, fun _ => .outside⟩

theorem fresh_tick_wait : ∃ tr s, run clockNext freshClock clockEvents = some (tr, s) ∧ tr.length = 5 ∧
    FreshReturns tr := by
  obtain ⟨⟨tr, s⟩, hrun⟩ := Option.isSome_iff_exists.mp
    (show (run clockNext freshClock clockEvents).isSome = true by decide)
  have hlen : (run clockNext freshClock clockEvents).map (fun r => r.1.length) = some 5 := by decide
  have hbegins : (run clockNext freshClock clockEvents).map
      (fun r => decide (∀ e ∈ r.1, e.label.1 = .begin 1 → e.before.readFlag = 0)) = some true := by decide
  have honly : (run clockNext freshClock clockEvents).map
      (fun r => r.1.map fun e => e.label.1) = some clockEvents := by decide
  rw [hrun, Option.map_some, Option.some.injEq] at hlen hbegins honly
  have hhist : Hist clockInit clockStep tr s := hist_of_run ⟨rfl, fun _ => rfl⟩ hrun
  refine ⟨tr, s, hrun, hlen, (fresh_tick hhist).1 fun e he p hl => ?_⟩
  have hp : p = 1 := by
    have hmem : e.label.1 ∈ clockEvents := honly ▸ List.mem_map_of_mem he
    rw [hl] at hmem
    simpa [clockEvents] using hmem
  subst hp
  exact of_decide_eq_true hbegins e he hl

/-- A tick, and then a call that returns with no other tick. -/
theorem stale_tick : ∃ (tr : List (ClockEntry (Fin 6))) (s : Clock (Fin 6)), Hist clockInit clockStep tr s ∧
    tr.map (fun e => e.label.1) = [.clear 0, .test 0, .begin 0, .rtcInt] ∧ ¬ FreshReturns tr := by
  have htick : Hist clockInit clockStep [⟨freshClock, (.rtcInt, none), { freshClock with readFlag := 1 }⟩]
      { freshClock with readFlag := 1 } := Hist.next (Hist.start ⟨rfl, fun _ => rfl⟩) rfl
  obtain ⟨tr', s', hhist, hcall, hstale⟩ := stale_of_set htick (p := 0) rfl (by decide)
  refine ⟨_, s', hhist, ?_, hstale⟩
  rw [List.map_append, hcall]
  rfl

end Mp3Kernel
