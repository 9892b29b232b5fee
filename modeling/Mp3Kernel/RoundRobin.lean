/-
# The scheduler's turns

`pit_int` walks round the process table from the running process and switches to the
first live leaf it meets. In every state of every run the live leaves are the heads
of the three terminals, so the walk always ends at another head (`pitInt_next`), and
three turns with no `execute` or `halt` between them run each terminal's head once
(`round_robin`).

Key definitions: `Head`, `Ready`, `Others`, `Turn`.
Key theorems: `leafLoop_ends`, `pitInt_next`, `round_robin`.
-/
import Mp3Kernel.Basis.Cycle
import Mp3Kernel.System

namespace Mp3Kernel

open Cycle

/-- The process runs one of the terminals. -/
def Head (k : Kernel) (p : ℤ) : Prop := ∃ t, p = k.terminalArray (num t)

/-- A live leaf, as `pit_int` looks for one. -/
def Ready (k : Kernel) (p : ℤ) : Prop := k.processArray p ≠ 0 ∧ (k.pcbOf p).leaf ≠ 0

/-! ### The search -/

/-- The search of `pit_int` from `j` places ahead of `cur` on ends: at the first live
leaf, or back at `cur` when there is none. -/
theorem leafLoop_ends (k : Kernel) {cur : ℤ} (hcur : IsPid cur) : ∀ n j : ℕ, 1 ≤ j → j ≤ 6 → j + n = 7 →
    ∃ i : ℕ, j ≤ i ∧ i ≤ 6 ∧ leafLoop k cur n ((cur + j) % 6) = some ((cur + i) % 6) ∧
      (i < 6 → Ready k ((cur + i) % 6)) ∧ ∀ m : ℕ, j ≤ m → m < i → ¬ Ready k ((cur + m) % 6)
  | 0, j, _, h6, h7 => by omega
  | n + 1, j, h1, h6, h7 => by
    have hpid := hcur
    obtain ⟨hc0, hc6⟩ := hpid
    rw [leafLoop]
    by_cases hj : j = 6
    · have hback : (cur + (j : ℕ)) % 6 = cur := by omega
      refine ⟨j, le_refl _, h6, ?_, fun h => by omega, fun m hm hlt => by omega⟩
      rw [if_neg (not_not_intro hback), hback]
    · have hne : (cur + (j : ℕ)) % 6 ≠ cur := by omega
      rw [if_pos hne]
      by_cases hr : Ready k ((cur + j) % 6)
      · refine ⟨j, le_refl _, h6, if_pos hr, fun _ => hr, fun m hm hlt => by omega⟩
      · obtain ⟨i, hi, hi6, hloop, hready, hnone⟩ := leafLoop_ends k hcur n (j + 1) (by omega) (by omega) (by omega)
        have hstep : ((cur + (j : ℕ)) % 6 + 1) % 6 = (cur + ((j + 1 : ℕ) : ℤ)) % 6 := by
          push_cast
          omega
        refine ⟨i, by omega, hi6, ?_, hready, fun m hm hlt => ?_⟩
        · rw [show (if k.processArray ((cur + j) % 6) ≠ 0 ∧ (k.pcbOf ((cur + j) % 6)).leaf ≠ 0 then
              some ((cur + (j : ℤ)) % 6) else leafLoop k cur n (((cur + (j : ℤ)) % 6 + 1) % 6)) =
              leafLoop k cur n (((cur + (j : ℤ)) % 6 + 1) % 6) from if_neg hr, hstep]
          exact hloop
        · by_cases hmj : m = j
          · rw [hmj]
            exact hr
          · exact hnone m (by omega) hlt

section Turn

variable {img : Image} {k k' : Kernel} {a : Forest}

/-- The live leaves are the heads. -/
theorem ready_iff_head (h : Rep k a) {p : ℤ} (hp : IsPid p) : Ready k p ↔ Head k p := by
  constructor
  · rintro ⟨hl, hleaf⟩
    obtain ⟨t, ht⟩ := h.has_of_live hp hl
    exact ⟨t, h.head_of_leaf ht hleaf⟩
  · rintro ⟨t, rfl⟩
    refine ⟨?_, ?_⟩
    · rw [h.live _ (h.head_has t)]
      norm_num
    · rw [h.leaf t]
      norm_num

theorem isPid_of_head (h : Rep k a) {p : ℤ} (hp : Head k p) : IsPid p := by
  obtain ⟨t, rfl⟩ := hp
  exact a.isPid _ (h.head_has t)

theorem head_running (h : Rep k a) : Head k k.running := ⟨a.cur, h.running_eq⟩

theorem exists_other_head (h : Rep k a) : ∃ p, Head k p ∧ p ≠ k.running := by
  obtain ⟨t, ht⟩ : ∃ t : Fin 3, t ≠ a.cur := exists_ne _
  refine ⟨_, ⟨t, rfl⟩, fun he => ht ?_⟩
  rw [h.running_eq] at he
  exact h.head_inj he

/-- **One turn.** The search of `pit_int` ends, at the next head round the process
table, and `pit_int` switches to it. -/
theorem pitInt_next (img : Image) (h : Rep k a) {f : Frame} {ke : Kernel} (hent : irqEntry k f = some ke) :
    ∃ q k', step img k (.pitInt f) = some (k', .switched q) ∧ Switched k f q k' ∧
      IsNext 6 (Head k) k.running q := by
  have hc := h.coherent
  have hpid := hc.isPid
  obtain ⟨hc0, hc6⟩ := hpid
  have he := entered_of_irq hc hent
  have hready : ∀ p, Ready ke p ↔ Ready k p := by
    intro p
    unfold Ready
    rw [he.fields.1, he.pcbOf]
  obtain ⟨i, hi1, hi6, hloop, hfound, hnone⟩ := leafLoop_ends ke hc.isPid 6 1 (by omega) (by omega) (by omega)
  -- the loop passes no other head, and there is one less than 6 places ahead
  have hfirst : ∀ p, Head k p → p ≠ k.running → (i : ℤ) ≤ ahead 6 k.running p ∧ ahead 6 k.running p < 6 := by
    intro p hp hne
    obtain ⟨hp0, hp6⟩ := isPid_of_head h hp
    obtain ⟨m, hm⟩ : ∃ m, m = ((p - k.running) % 6).toNat := ⟨_, rfl⟩
    have hahead : ahead 6 k.running p = m := by
      unfold ahead
      omega
    have hpm : p = (k.running + m) % 6 := by omega
    refine ⟨?_, by omega⟩
    by_contra hlt
    refine hnone m (by omega) (by omega) ((hready _).mpr ?_)
    rw [← hpm]
    exact (ready_iff_head h (isPid_of_head h hp)).mpr hp
  obtain ⟨r, hr, hrne⟩ := exists_other_head h
  have hir := hfirst r hr hrne
  obtain ⟨q, hq⟩ : ∃ q, q = (k.running + (i : ℤ)) % 6 := ⟨_, rfl⟩
  rw [← hq] at hloop hfound
  have hqpid : IsPid q := ⟨by omega, by omega⟩
  have hqne : q ≠ k.running := by omega
  have hqready := (hready q).mp (hfound (by omega))
  have hsw := switched_of_switchTo hc he hqpid hqne hqready.1 hqready.2
  refine ⟨q, switchTo ke q, ?_, hsw, (ready_iff_head h hqpid).mp hqready, hqne, fun z hz hzne => ?_⟩
  · rw [step, hent, Option.bind_some]
    unfold pitInt
    rw [he.running, if_neg (by omega)]
    have hstart : ((k.running + 1) % maxOpenProcesses : ℤ) = (k.running + (1 : ℕ)) % 6 := rfl
    rw [hstart, hloop]
    simp only [hqne, if_false]
  · have hqd : ahead 6 k.running q = i := by
      unfold ahead
      omega
    rw [hqd]
    exact (hfirst z hz hzne).1

/-- An event that is neither `execute`, `halt` nor `pit_int`. -/
def Event.Other : Event → Prop
  | .execute .. | .halt .. | .pitInt .. => False
  | _ => True

/-- Some steps, none of them an `execute`, a `halt` or a `pit_int`. -/
def Others (img : Image) : Kernel → Kernel → Prop :=
  Relation.ReflTransGen fun k k' => ∃ ev out, ev.Other ∧ step img k ev = some (k', out)

/-- Such steps, and then a `pit_int`. -/
def Turn (img : Image) (k k' : Kernel) : Prop :=
  ∃ m f out, Others img k m ∧ step img m (.pitInt f) = some (k', out)

/-- Other steps leave the terminals' processes alone. -/
theorem others_same (h : Rep k a) (hs : Others img k k') :
    Rep k' a ∧ k'.terminalArray = k.terminalArray ∧ k'.running = k.running := by
  induction hs with
  | refl => exact ⟨h, rfl, rfl⟩
  | tail _ hst ih =>
    obtain ⟨hrep, hterm, hrun⟩ := ih
    obtain ⟨ev, out, hev, hst⟩ := hst
    rcases step_cases hrep.coherent hst with ⟨_, _, _, _, _, rfl, -⟩ | ⟨_, _, _, _, rfl, -⟩ | ⟨_, _, rfl, -⟩ |
      ⟨-, hq⟩
    · cases hev
    · cases hev
    · cases hev
    · exact ⟨hrep.quiet hq, hq.terminalArray.trans hterm, hq.run.trans hrun⟩

/-- A turn runs the next head, and leaves the terminals' processes alone. -/
theorem turn_next (h : Rep k a) (ht : Turn img k k') :
    (∃ b, Rep k' b) ∧ k'.terminalArray = k.terminalArray ∧ IsNext 6 (Head k) k.running k'.running := by
  obtain ⟨m, f, out, ho, hst⟩ := ht
  obtain ⟨hm, hterm, hrun⟩ := others_same h ho
  obtain ⟨ke, hent, -⟩ := Option.bind_eq_some_iff.mp hst
  obtain ⟨q, k'', hstep, hsw, hnext⟩ := pitInt_next img hm hent
  rw [hst] at hstep
  obtain ⟨rfl, -⟩ : k' = k'' ∧ out = .switched q := by simpa using hstep
  obtain ⟨t, -, -, hrep⟩ := hm.switched hsw
  have hhead : Head m = Head k := by
    funext p
    unfold Head
    rw [hterm]
  rw [hhead, hrun] at hnext
  rw [hm.switched_run hsw]
  exact ⟨⟨_, hrep⟩, hsw.terminalArray.trans hterm, hnext⟩

/-- **Round robin.** From every state of every run: every `pit_int` ends, with a switch
to the head of a terminal, live and a leaf; and three of them, with no `execute` or
`halt` before or between them, run the head of each terminal once and end with the
process that ran. -/
theorem round_robin {tr : Trace} (h : History img tr k) :
    (∀ f ke, irqEntry k f = some ke → ∃ q k', step img k (.pitInt f) = some (k', .switched q) ∧
      k'.running = q ∧ k.processArray q = 1 ∧ (k.pcbOf q).leaf = 1 ∧ ∃ t, q = k.terminalArray (num t)) ∧
    ∀ k₁ k₂ k₃, Turn img k k₁ → Turn img k₁ k₂ → Turn img k₂ k₃ →
      k₃.running = k.running ∧ [k₁.running, k₂.running, k₃.running].Perm
        [k.terminalArray (num 0), k.terminalArray (num 1), k.terminalArray (num 2)] := by
  obtain ⟨a, ha⟩ := rep_of_history h
  refine ⟨fun f ke hent => ?_, fun k₁ k₂ k₃ h1 h2 h3 => ?_⟩
  · obtain ⟨q, k', hstep, hsw, hnext⟩ := pitInt_next img ha hent
    obtain ⟨t, rfl⟩ := hnext.mem
    exact ⟨_, k', hstep, ha.switched_run hsw, ha.live _ (ha.head_has t), ha.leaf t, t, rfl⟩
  · obtain ⟨⟨b, hb⟩, hterm1, hn1⟩ := turn_next ha h1
    obtain ⟨⟨c, hc⟩, hterm2, hn2⟩ := turn_next hb h2
    obtain ⟨-, -, hn3⟩ := turn_next hc h3
    have hhead1 : Head k₁ = Head k := by
      funext p
      unfold Head
      rw [hterm1]
    have hhead2 : Head k₂ = Head k := by
      funext p
      unfold Head
      rw [hterm2, hterm1]
    rw [hhead1] at hn2
    rw [hhead2] at hn3
    have hmem : ∀ w, Head k w ↔ w = k.terminalArray (num 0) ∨ w = k.terminalArray (num 1) ∨
        w = k.terminalArray (num 2) := by
      intro w
      unfold Head
      exact Fin.exists_fin_succ.trans (by simp [Fin.exists_fin_two])
    have hne : ∀ t u : Fin 3, t ≠ u → k.terminalArray (num t) ≠ k.terminalArray (num u) :=
      fun t u htu he => htu (ha.head_inj he)
    exact three_turns (fun z hz => isPid_of_head ha hz) hmem (hne 0 1 (by decide)) (hne 0 2 (by decide))
      (hne 1 2 (by decide)) (head_running ha) hn1 hn2 hn3

end Turn

/-- Three turns of the small system in which the first base shell has a child. -/
theorem round_robin_spawn : ∃ k₁ k₂ k₃,
    Turn smallImage (smallRun spawn).2 k₁ ∧ Turn smallImage k₁ k₂ ∧ Turn smallImage k₂ k₃ ∧ k₃.running = 1 := by
  have hrun : ((step smallImage (smallRun spawn).2 (.pitInt (frameOf 1))).bind fun r₁ =>
      (step smallImage r₁.1 (.pitInt (frameOf 2))).bind fun r₂ =>
        step smallImage r₂.1 (.pitInt (frameOf 3))).isSome := by decide +kernel
  obtain ⟨r₃, hr⟩ := Option.isSome_iff_exists.mp hrun
  obtain ⟨r₁, h1, hr⟩ := Option.bind_eq_some_iff.mp hr
  obtain ⟨r₂, h2, h3⟩ := Option.bind_eq_some_iff.mp hr
  have t1 : Turn smallImage (smallRun spawn).2 r₁.1 := ⟨_, _, _, .refl, h1⟩
  have t2 : Turn smallImage r₁.1 r₂.1 := ⟨_, _, _, .refl, h2⟩
  have t3 : Turn smallImage r₂.1 r₃.1 := ⟨_, _, _, .refl, h3⟩
  refine ⟨_, _, _, t1, t2, t3, ?_⟩
  rw [((round_robin (history_smallRun spawn)).2 _ _ _ t1 t2 t3).1]
  decide +kernel

end Mp3Kernel
