/-
# Which modifier keys are held

The handler keeps Alt and Ctrl per terminal, in the terminal that is shown when the key
goes down or up, while the keys themselves are held or not whatever is shown. As long
as the terminal stays the same the two agree; an Alt+Fn that changes it finds the flags
of a terminal that has not heard of the Alt (`modifiers_track`).

Scancode sequences are lists, the newest one first.

Key definitions: `held`, `Tracks`, `Leaves`. Key theorem: `modifiers_track`.
-/
import Mp3Kernel.Keyboard

namespace Mp3Kernel

/-- The scancode `down` has occurred, and no `up` since. -/
def held (down up : UInt8) : List UInt8 → Bool
  | [] => false
  | c :: old => if c = down then true else if c = up then false else held down up old

/-- Alt: LALT_PRESS and LALT_RELEASE -/
def altHeld : List UInt8 → Bool := held 0x38 0xB8

/-- Ctrl: LCTRL_PRESS and LCTRL_RELEASE -/
def ctrlHeld : List UInt8 → Bool := held 0x1D 0x9D

/-- The handler, run on all scancodes. -/
def Keyboard.interrupts (k : Keyboard) (codes : List UInt8) : Keyboard := codes.foldr (fun c k => k.kbrdInt c) k

/-- The flags of the terminal shown are right. -/
def Tracks (k : Keyboard) (codes : List UInt8) : Prop :=
  (k.isAlt k.currentTerminal = 1 ↔ altHeld codes = true) ∧ (k.isCtrl k.currentTerminal = 1 ↔ ctrlHeld codes = true)

/-- Some Fn of another terminal than `t` comes while Alt is held. -/
def Leaves (t : Terminal) (codes : List UInt8) : Prop :=
  ∃ new u old, codes = new ++ ![0x3B, 0x3C, 0x3D] u :: old ∧ u ≠ t ∧ altHeld old = true

/-! ### The kinds of scancodes -/

theorem scan_fn (c : UInt8) (t : Terminal) : scan c = .fn t ↔ c = ![0x3B, 0x3C, 0x3D] t := by
  have h : ∀ (i : Fin 256) (t : Terminal), scan (UInt8.ofFin i) = .fn t ↔ UInt8.ofFin i = ![0x3B, 0x3C, 0x3D] t := by
    decide +kernel
  exact h c.toFin t

/-- What a scancode says about a key, if it says anything. -/
def told (down up c : UInt8) : Option Bool :=
  if c = down then some true else if c = up then some false else none

theorem held_cons (down up c : UInt8) (codes : List UInt8) :
    held down up (c :: codes) = (told down up c).getD (held down up codes) := by
  show (if _ then _ else _) = _
  unfold told
  split_ifs <;> rfl

theorem told_alt (c : UInt8) : told 0x38 0xB8 c = match scan c with
    | .alt b => some b
    | _ => none := by
  have h : ∀ i : Fin 256, told 0x38 0xB8 (UInt8.ofFin i) = match scan (UInt8.ofFin i) with
      | .alt b => some b
      | _ => none := by decide +kernel
  exact h c.toFin

theorem told_ctrl (c : UInt8) : told 0x1D 0x9D c = match scan c with
    | .ctrl b => some b
    | _ => none := by
  have h : ∀ i : Fin 256, told 0x1D 0x9D (UInt8.ofFin i) = match scan (UInt8.ofFin i) with
      | .ctrl b => some b
      | _ => none := by decide +kernel
  exact h c.toFin

/-! ### The flags after a scancode -/

namespace Keyboard

/-- Keys that are neither modifiers nor switches leave the flags and the terminal. -/
structure SameFlags (k k' : Keyboard) : Prop where
  alt : k'.isAlt = k.isAlt
  ctrl : k'.isCtrl = k.isCtrl
  current : k'.currentTerminal = k.currentTerminal

theorem sameFlags_enter (k : Keyboard) : SameFlags k (k.answer .enter) := by
  unfold answer enterKey
  dsimp only
  split_ifs <;> exact ⟨rfl, rfl, rfl⟩

theorem sameFlags_backspace (k : Keyboard) : SameFlags k (k.answer .backspace) := by
  unfold answer backspaceKey
  dsimp only
  split_ifs <;> exact ⟨rfl, rfl, rfl⟩

theorem sameFlags_plain (k : Keyboard) (q : Prop) [Decidable q] (c : UInt8) :
    SameFlags k (k.answer (if q then .redraw else .char c)) := by
  by_cases hq : q
  · rw [if_pos hq]
    unfold answer
    dsimp only
    split_ifs
    · constructor <;> (unfold redraw; dsimp only)
    · exact ⟨rfl, rfl, rfl⟩
  · rw [if_neg hq]
    unfold answer
    dsimp only
    split_ifs <;> exact ⟨rfl, rfl, rfl⟩

/-- The flags after a scancode that says `b` about their key, or nothing. -/
def flagged (flags : Terminal → ℤ) (t : Terminal) : Option Bool → Terminal → ℤ
  | some b => Function.update flags t (if b then 1 else 0)
  | none => flags

/-- The flags and the terminal after one scancode. -/
structure After (k : Keyboard) (c : UInt8) (k' : Keyboard) : Prop where
  alt : k'.isAlt = flagged k.isAlt k.currentTerminal (told 0x38 0xB8 c)
  ctrl : k'.isCtrl = flagged k.isCtrl k.currentTerminal (told 0x1D 0x9D c)
  current : k'.currentTerminal = match scan c with
    | .fn u => if k.isAlt k.currentTerminal = 1 then u else k.currentTerminal
    | _ => k.currentTerminal

theorem after_kbrdInt (k : Keyboard) (c : UInt8) : After k c (k.kbrdInt c) := by
  have halt := told_alt c
  have hctrl := told_ctrl c
  rw [kbrdInt_eq]
  unfold press
  dsimp only
  have hsame : ∀ {k' : Keyboard}, SameFlags k k' → told 0x38 0xB8 c = none → told 0x1D 0x9D c = none →
      (∀ u, scan c = .fn u → k.isAlt k.currentTerminal ≠ 1) → After k c k' := by
    intro k' h ha hc hfn
    refine ⟨by rw [ha]; exact h.alt, by rw [hc]; exact h.ctrl, ?_⟩
    rw [h.current]
    split
    · rename_i u hu
      rw [if_neg (hfn u hu)]
    · rfl
  cases hs : scan c with
  | ctrl b =>
    rw [hs] at halt hctrl
    exact ⟨by rw [halt]; rfl, by rw [hctrl]; rfl, by rw [hs]; rfl⟩
  | shift b =>
    rw [hs] at halt hctrl
    exact ⟨by rw [halt]; rfl, by rw [hctrl]; rfl, by rw [hs]; rfl⟩
  | alt b =>
    rw [hs] at halt hctrl
    exact ⟨by rw [halt]; rfl, by rw [hctrl]; rfl, by rw [hs]; rfl⟩
  | caps =>
    rw [hs] at halt hctrl
    exact ⟨by rw [halt]; rfl, by rw [hctrl]; rfl, by rw [hs]; rfl⟩
  | fn u =>
    rw [hs] at halt hctrl
    by_cases h1 : k.isAlt k.currentTerminal = 1
    · simp only [h1, if_true]
      unfold answer switchTerminal
      dsimp only
      split_ifs with hcur
      · exact ⟨by rw [halt]; rfl, by rw [hctrl]; rfl, by rw [hs]; simp [h1]⟩
      · exact ⟨by rw [halt]; rfl, by rw [hctrl]; rfl, by rw [hs]; simpa [h1] using hcur⟩
    · simp only [h1, if_false]
      exact hsame (sameFlags_plain k _ _) halt hctrl fun _ _ => h1
  | enter =>
    rw [hs] at halt hctrl
    exact hsame (sameFlags_enter k) halt hctrl (by simp [hs])
  | backspace =>
    rw [hs] at halt hctrl
    exact hsame (sameFlags_backspace k) halt hctrl (by simp [hs])
  | key =>
    rw [hs] at halt hctrl
    exact hsame (sameFlags_plain k _ _) halt hctrl (by simp [hs])
  | other =>
    rw [hs] at halt hctrl
    exact hsame ⟨rfl, rfl, rfl⟩ halt hctrl (by simp [hs])

end Keyboard

/-! ### Sequences of scancodes -/

/-- As long as the terminal has not changed: its flags are right, and the others have
never been set. -/
structure Stays (t : Terminal) (k : Keyboard) (codes : List UInt8) : Prop where
  current : k.currentTerminal = t
  alt : k.isAlt t = if altHeld codes then 1 else 0
  ctrl : k.isCtrl t = if ctrlHeld codes then 1 else 0
  others : ∀ u, u ≠ t → k.isAlt u = 0

theorem Stays.tracks {t : Terminal} {k : Keyboard} {codes : List UInt8} (h : Stays t k codes) : Tracks k codes := by
  unfold Tracks
  rw [h.current, h.alt, h.ctrl]
  constructor
  · cases altHeld codes <;> simp
  · cases ctrlHeld codes <;> simp

theorem flagged_self (flags : Terminal → ℤ) (t : Terminal) {b : Bool} (hb : flags t = if b then 1 else 0)
    (o : Option Bool) : Keyboard.flagged flags t o t = if o.getD b then 1 else 0 := by
  cases o with
  | none => exact hb
  | some b' => exact Function.update_self ..

theorem flagged_other {flags : Terminal → ℤ} {t u : Terminal} (hu : u ≠ t) (o : Option Bool) :
    Keyboard.flagged flags t o u = flags u := by
  cases o with
  | none => rfl
  | some b' => exact Function.update_of_ne hu _ _

/-- A scancode keeps it, unless it is the Fn of another terminal with Alt held. -/
theorem Stays.step {t : Terminal} {k : Keyboard} {codes : List UInt8} (h : Stays t k codes) {c : UInt8}
    (hc : ∀ u, c = ![0x3B, 0x3C, 0x3D] u → altHeld codes = true → u = t) : Stays t (k.kbrdInt c) (c :: codes) := by
  have hafter := k.after_kbrdInt c
  refine ⟨?_, ?_, ?_, fun u hu => ?_⟩
  · rw [hafter.current]
    split
    · rename_i u hu
      split_ifs with h1
      · refine hc u ((scan_fn c u).mp hu) ?_
        exact (h.tracks.1).mp h1
      · exact h.current
    · exact h.current
  · rw [hafter.alt, h.current, flagged_self _ t h.alt]
    show _ = if held _ _ (c :: codes) then (1 : ℤ) else 0
    rw [held_cons]
    rfl
  · rw [hafter.ctrl, h.current, flagged_self _ t h.ctrl]
    show _ = if held _ _ (c :: codes) then (1 : ℤ) else 0
    rw [held_cons]
    rfl
  · rw [hafter.alt, h.current, flagged_other hu, h.others u hu]

theorem Leaves.later {t : Terminal} {old codes : List UInt8} (hsuffix : old <:+ codes) (h : Leaves t old) :
    Leaves t codes := by
  obtain ⟨more, rfl⟩ := hsuffix
  obtain ⟨new, u, older, rfl, hu, hheld⟩ := h
  exact ⟨more ++ new, u, older, by simp, hu, hheld⟩

theorem stays_of_not_leaves {k : Keyboard} (halt : ∀ t, k.isAlt t = 0) (hctrl : ∀ t, k.isCtrl t = 0)
    {codes : List UInt8} (h : ¬ Leaves k.currentTerminal codes) :
    Stays k.currentTerminal (k.interrupts codes) codes := by
  induction codes with
  | nil => exact ⟨rfl, halt _, hctrl _, fun u _ => halt u⟩
  | cons c codes ih =>
    refine (ih fun hl => h (hl.later (List.suffix_cons c codes))).step fun u hu hheld => ?_
    by_contra hne
    exact h ⟨[], u, codes, by rw [hu]; rfl, hne, hheld⟩

/-- The first switch with Alt held shows a terminal whose Alt flag is clear. -/
theorem Stays.lost {t u : Terminal} {k : Keyboard} {codes : List UInt8} (h : Stays t k codes) (hu : u ≠ t)
    (hheld : altHeld codes = true) :
    ¬ Tracks (k.kbrdInt (![0x3B, 0x3C, 0x3D] u)) (![0x3B, 0x3C, 0x3D] u :: codes) := by
  obtain ⟨c, hc⟩ : ∃ c : UInt8, c = ![0x3B, 0x3C, 0x3D] u := ⟨_, rfl⟩
  rw [← hc]
  have hs : scan c = .fn u := (scan_fn c u).mpr hc
  have hafter := k.after_kbrdInt c
  have htold : told 0x38 0xB8 c = none := by rw [told_alt, hs]
  have hcurrent : (k.kbrdInt c).currentTerminal = u := by
    rw [hafter.current, hs, h.current]
    exact if_pos (by rw [h.alt, hheld]; rfl)
  have hflag : (k.kbrdInt c).isAlt u = 0 := by
    rw [hafter.alt, htold]
    exact h.others u hu
  have hstill : altHeld (c :: codes) = true := by
    unfold altHeld
    rw [held_cons, htold]
    exact hheld
  rintro ⟨htrack, -⟩
  rw [hcurrent, hflag] at htrack
  exact absurd (htrack.mpr hstill) (by decide)

/-- **Modifier tracking.** From a state with no key held, the flags of the terminal
shown say which of Alt and Ctrl is held, after every scancode of a sequence, exactly if
no Fn of another terminal than the first one comes while Alt is held. -/
theorem modifiers_track {k : Keyboard} (halt : ∀ t, k.isAlt t = 0) (hctrl : ∀ t, k.isCtrl t = 0)
    (codes : List UInt8) :
    (∀ old, old <:+ codes → Tracks (k.interrupts old) old) ↔ ¬ Leaves k.currentTerminal codes := by
  constructor
  · intro hall hleaves
    induction codes with
    | nil =>
      obtain ⟨new, u, old, hsplit, -⟩ := hleaves
      exact absurd hsplit (by simp)
    | cons c codes ih =>
      by_cases hold : Leaves k.currentTerminal codes
      · exact ih (fun old hs => hall old (hs.trans (List.suffix_cons c codes))) hold
      · obtain ⟨new, u, old, hsplit, hu, hheld⟩ := hleaves
        rcases List.cons_eq_append_iff.mp hsplit with ⟨-, hcons⟩ | ⟨new', -, hcodes⟩
        · rw [List.cons.injEq] at hcons
          obtain ⟨hc, rfl⟩ := hcons
          have hnow := hall (c :: old) (List.suffix_refl _)
          rw [← hc] at hnow
          exact (stays_of_not_leaves halt hctrl hold).lost hu hheld hnow
        · exact hold ⟨new', u, old, hcodes, hu, hheld⟩
  · intro hnot old hsuffix
    exact (stays_of_not_leaves halt hctrl fun hl => hnot (hl.later hsuffix)).tracks

theorem modifiers_track_stay : (∀ t, bootConsole.kbd.isAlt t = 0) ∧
    ∀ old, old <:+ [0x9D, 0x1E, 0x3B, 0x1D, 0x38] → Tracks (bootConsole.kbd.interrupts old) old := by
  have hnot : ¬ Leaves bootConsole.kbd.currentTerminal [0x9D, 0x1E, 0x3B, 0x1D, 0x38] := by
    rintro ⟨new, u, old, hsplit, hu, -⟩
    have hmem : ![0x3B, 0x3C, 0x3D] u ∈ ([0x9D, 0x1E, 0x3B, 0x1D, 0x38] : List UInt8) := by
      rw [hsplit]
      simp
    revert hu hmem
    fin_cases u
    · exact fun hu _ => hu rfl
    · exact fun _ hmem => absurd hmem (by decide)
    · exact fun _ hmem => absurd hmem (by decide)
  exact ⟨fun _ => rfl, (modifiers_track (fun _ => rfl) (fun _ => rfl) _).mpr hnot⟩

/-- Alt, and then F2: terminal 1 is shown, and its Alt flag is clear. -/
theorem alt_lost : altHeld [0x3C, 0x38] = true ∧
    (bootConsole.kbd.interrupts [0x3C, 0x38]).currentTerminal = 1 ∧
    (bootConsole.kbd.interrupts [0x3C, 0x38]).isAlt 1 = 0 ∧
    ¬ Tracks (bootConsole.kbd.interrupts [0x3C, 0x38]) [0x3C, 0x38] := by
  have hstays : Stays 0 (bootConsole.kbd.interrupts [0x38]) [0x38] := by
    refine stays_of_not_leaves (k := bootConsole.kbd) (fun _ => rfl) (fun _ => rfl) ?_
    rintro ⟨new, u, old, hsplit, hu, hheld⟩
    have hold : old = [] := by
      have := congrArg List.length hsplit
      simp only [List.length_cons, List.length_nil, List.length_append] at this
      exact List.length_eq_zero_iff.mp (by omega)
    rw [hold] at hheld
    exact absurd hheld (by decide)
  exact ⟨by decide, rfl, rfl, hstays.lost (u := 1) (by decide) (by decide)⟩

end Mp3Kernel
