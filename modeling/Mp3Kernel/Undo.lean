/-
# Backspace undoes typing

A key is echoed by `putc` and stored in the line buffer by the handler; a backspace
covers the character with a blank and takes the byte back. The two are separate code, and
neither knows the other: the screen keeps no record of the line, and the buffer none of
the cursor.

`LineEdit` and `ScreenEdit` say what `n` keys, `e` of them taken back, have done to the
buffer and to the screen. The screen is a window on a roll, on which a backspace is the
exact reverse of a key; only the rows that typing has scrolled away do not come back, so
the window stays where it is, and the cursor's row in it is smaller by their number
(`backspace_undoes_typing`).

Key definitions: `Echoes`, `Aside`, `scrollsOn`, `takenBackOn`, `LineEdit`, `ScreenEdit`.
Key theorems: `ScreenEdit.typed`, `ScreenEdit.takenBack`, `typing_run`, `takingBack_run`,
`backspace_undoes_typing`.
-/
import Mp3Kernel.Reference
import Mp3Kernel.Input
import Mp3Kernel.Cursor

namespace Mp3Kernel

open Past Typing Terminal

/-- A character that `putc` places on the screen. -/
def Echoes (ch : UInt8) : Prop := ¬ (ch = 0x0A ∨ ch = 0x0D) ∧ ch ≠ 0

instance (ch : UInt8) : Decidable (Echoes ch) := inferInstanceAs (Decidable (¬ (ch = 0x0A ∨ ch = 0x0D) ∧ ch ≠ 0))

/-- The tests on which `putc` calls `vert_scroll`. -/
def Screen.scrolls (s : Screen) (c : UInt8) (t : Terminal) : Bool :=
  if c = 0x0A ∨ c = 0x0D then s.screenY t + 1 > numRows - 1
  else c ≠ 0 ∧ s.screenY t + (s.screenX t + 1).tdiv numCols = numRows

/-- The scrolls that a key typed on terminal `t` causes. -/
def scrollsBy (t : Terminal) (e : ConsoleEntry) : ℕ :=
  (typedBy t e).countP fun ch => e.before.kbd.kbrdBufLength t < 127 && e.before.kbd.screen.scrolls ch t

/-- All scrolls that typing on terminal `t` causes. -/
def scrollsOn (t : Terminal) : List ConsoleEntry → ℕ
  | [] => 0
  | e :: old => scrollsOn t old + scrollsBy t e

/-- The backspaces of a step on terminal `t`: one or none. -/
def takenBackBy (t : Terminal) (e : ConsoleEntry) : ℕ :=
  match e.label.1 with
  | .key scancode => if e.before.kbd.press scancode = .backspace ∧ e.before.kbd.currentTerminal = t then 1 else 0
  | _ => 0

/-- All backspaces on terminal `t`. -/
def takenBackOn (t : Terminal) : List ConsoleEntry → ℕ
  | [] => 0
  | e :: old => takenBackOn t old + takenBackBy t e

/-- The step writes nothing to terminal `t`, and no line buffer. -/
structure Aside (t : Terminal) (e : ConsoleEntry) : Prop where
  buf : e.after.kbd.kbrdBuf = e.before.kbd.kbrdBuf
  length : e.after.kbd.kbrdBufLength = e.before.kbd.kbrdBufLength
  marker : e.after.kbd.lineMarker = e.before.kbd.lineMarker
  x : e.after.kbd.screen.screenX t = e.before.kbd.screen.screenX t
  y : e.after.kbd.screen.screenY t = e.before.kbd.screen.screenY t
  cells : ∀ i : ℕ, i < 4000 →
    e.after.kbd.screen.mem (vidmemPages t + i) = e.before.kbd.screen.mem (vidmemPages t + i)

/-! ### The line buffer -/

/-- From the keyboard `k₀`, `n` keys have been typed on terminal `t` and `e` taken back:
the counters of `t` say so, and up to the first key, and behind the last one left, the
buffers are as they were. -/
structure LineEdit (t : Terminal) (k₀ : Keyboard) (n e : ℕ) (k : Keyboard) : Prop where
  marker : (k.lineMarker t).toNat + e = (k₀.lineMarker t).toNat + n
  length : k.kbrdBufLength t + e = k₀.kbrdBufLength t + n
  markers : ∀ u, u ≠ t → k.lineMarker u = k₀.lineMarker u
  lengths : ∀ u, u ≠ t → k.kbrdBufLength u = k₀.kbrdBufLength u
  cells : ∀ a, a < rowAt t + (k₀.lineMarker t).toNat ∨ rowAt t + (k.lineMarker t).toNat ≤ a →
    k.kbrdBuf a = k₀.kbrdBuf a

section Line

variable {t : Terminal} {k₀ k : Keyboard} {n e : ℕ}

theorem LineEdit.refl (t : Terminal) (k : Keyboard) : LineEdit t k 0 0 k :=
  ⟨rfl, rfl, fun _ _ => rfl, fun _ _ => rfl, fun _ _ => rfl⟩

theorem LineEdit.typed (h : LineEdit k.currentTerminal k₀ n 0 k) (ch : UInt8)
    (hfits : (k₀.lineMarker k.currentTerminal).toNat + n < 127) :
    LineEdit k.currentTerminal k₀ (n + 1) 0 (k.typeKey ch) := by
  have hmark := h.marker
  have hlen := h.length
  have hnew : (k.typeKey ch).lineMarker k.currentTerminal =
      UInt8.ofInt ((k.lineMarker k.currentTerminal).toNat + 1) := Function.update_self ..
  have hval := toNat_ofInt (v := (k.lineMarker k.currentTerminal).toNat + 1) (by omega) (by omega)
  have hcount : (k.typeKey ch).kbrdBufLength k.currentTerminal = k.kbrdBufLength k.currentTerminal + 1 :=
    Function.update_self ..
  refine ⟨?_, ?_, fun u hu => ?_, fun u hu => ?_, fun a ha => ?_⟩
  · rw [hnew]
    omega
  · rw [hcount]
    omega
  · exact (Function.update_of_ne hu _ _).trans (h.markers u hu)
  · exact (Function.update_of_ne hu _ _).trans (h.lengths u hu)
  · rw [hnew] at ha
    have hne : a ≠ rowAt k.currentTerminal + (k.lineMarker k.currentTerminal).toNat := by omega
    exact (Function.update_of_ne hne _ _).trans (h.cells a (by omega))

/-- A backspace after at least one key that is left is accepted, and takes the last of
them back: behind the first marker there were only NULs. -/
theorem LineEdit.takenBack (h : LineEdit k.currentTerminal k₀ n e k) (hlt : e < n)
    (hfits : (k₀.lineMarker k.currentTerminal).toNat + n ≤ 127) (hcount : 0 ≤ k₀.kbrdBufLength k.currentTerminal)
    (hnul : ∀ j : ℕ, (k₀.lineMarker k.currentTerminal).toNat ≤ j → j < 128 →
      k₀.kbrdBuf (rowAt k.currentTerminal + j) = 0) :
    0 < k.kbrdBufLength k.currentTerminal ∧ LineEdit k.currentTerminal k₀ n (e + 1) k.backspaceKey := by
  have hmark := h.marker
  have hlen := h.length
  have hpos : 0 < k.kbrdBufLength k.currentTerminal := by omega
  have hval := toNat_ofInt (v := (k.lineMarker k.currentTerminal).toNat - 1) (by omega) (by omega)
  refine ⟨hpos, ?_⟩
  unfold Keyboard.backspaceKey
  dsimp only
  rw [if_pos hpos]
  refine ⟨?_, ?_, fun u hu => ?_, fun u hu => ?_, fun a ha => ?_⟩
  · show (Function.update k.lineMarker k.currentTerminal
      (UInt8.ofInt ((k.lineMarker k.currentTerminal).toNat - 1)) k.currentTerminal).toNat + (e + 1) = _
    rw [Function.update_self]
    omega
  · show Function.update k.kbrdBufLength k.currentTerminal (k.kbrdBufLength k.currentTerminal - 1) _ + _ = _
    rw [Function.update_self]
    push_cast
    omega
  · exact (Function.update_of_ne hu _ _).trans (h.markers u hu)
  · exact (Function.update_of_ne hu _ _).trans (h.lengths u hu)
  · change a < _ ∨ rowAt k.currentTerminal + (Function.update k.lineMarker k.currentTerminal
      (UInt8.ofInt ((k.lineMarker k.currentTerminal).toNat - 1)) k.currentTerminal).toNat ≤ a at ha
    rw [Function.update_self] at ha
    show Function.update k.kbrdBuf (rowAt k.currentTerminal + ((k.lineMarker k.currentTerminal).toNat - 1)) 0 a = _
    rw [Function.update_apply]
    by_cases hat : a = rowAt k.currentTerminal + ((k.lineMarker k.currentTerminal).toNat - 1)
    · rw [if_pos hat]
      have hcell := hnul ((k.lineMarker k.currentTerminal).toNat - 1) (by omega) (by omega)
      rw [hat, ← hcell]
      congr 1
      omega
    · rw [if_neg hat]
      exact h.cells a (by omega)

/-- All keys taken back: the buffers are what they were. -/
theorem LineEdit.undone (h : LineEdit t k₀ n n k) :
    k.kbrdBuf = k₀.kbrdBuf ∧ k.lineMarker = k₀.lineMarker ∧ k.kbrdBufLength = k₀.kbrdBufLength := by
  have hmark : (k.lineMarker t).toNat = (k₀.lineMarker t).toNat := Nat.add_right_cancel h.marker
  refine ⟨funext fun a => h.cells a ?_, funext fun u => ?_, funext fun u => ?_⟩
  · rw [hmark]
    omega
  · by_cases hu : u = t
    · rw [hu]
      exact UInt8.toNat_inj.mp hmark
    · exact h.markers u hu
  · by_cases hu : u = t
    · rw [hu]
      have hlen := h.length
      omega
    · exact h.lengths u hu

end Line

/-! ### The screen -/

/-- The roll on which the window is the page, with nothing written below it. -/
def Page.roll (p : Page) : Roll 80 UInt8 :=
  ⟨p.y, p.x, fun i j => if i < 25 then some (p.cells ((80 * i + j) * 2)) else none⟩

/-- From the page `p₀`, `n` keys have been echoed and `e` of them erased, with `top` rows
scrolled away: the terminal shows `p`, the window at `top` on the roll `r`. -/
structure ScreenEdit (t : Terminal) (p₀ : Page) (n e top : ℕ) (s : Screen) (p : Page) (r : Roll 80 UInt8) : Prop where
  shows : Shows s t p
  onto : Onto top 0x20 r p.view
  edit : Overtyped p₀.roll 0x20 n e r
  low : top = 0 ∨ 80 * top + 1920 ≤ p₀.roll.place + n

section Screen

variable {t : Terminal} {p₀ p : Page} {n e top : ℕ} {s : Screen} {r : Roll 80 UInt8}

theorem ScreenEdit.refl (h : Shows s t p₀) : ScreenEdit t p₀ 0 0 0 s p₀ p₀.roll := by
  refine ⟨h, ⟨?_, rfl, fun i j => ?_, fun i j hi => ?_⟩, Overtyped.refl _ _, Or.inl rfl⟩
  · exact (Nat.zero_add _).symm
  · show p₀.cells ((80 * i + j) * 2) = (if 0 + i.val < 25 then some _ else none).getD 0x20
    rw [Nat.zero_add, if_pos i.isLt]
    rfl
  · exact if_neg (by omega)

theorem scrolls_iff (h : Shows s t p) {ch : UInt8} (hecho : Echoes ch) :
    s.scrolls ch t = true ↔ p.x.val = 79 ∧ p.y.val = 24 := by
  unfold Screen.scrolls
  rw [if_neg hecho.1, h.x, h.y, decide_eq_true_iff]
  simp only [ne_eq, hecho.2, not_false_eq_true, true_and, numCols, numRows]
  by_cases hx : p.x.val = 79
  · rw [hx]
    show (p.y.val : ℤ) + 1 = 25 ↔ _
    omega
  · have hdiv : ((p.x.val : ℤ) + 1).tdiv 80 = 0 := Int.tdiv_eq_zero_of_lt (by omega) (by omega)
    rw [hdiv]
    omega

/-- The window goes down by the scrolls of a character. -/
theorem follow_put (h : Shows s t p) (ho : Onto top 0x20 r p.view) {ch : UInt8} (hecho : Echoes ch) :
    follow 25 top (r.put ch).row = top + (if s.scrolls ch t then 1 else 0) := by
  have hrow : r.row = top + p.y.val := ho.row
  have hcol : r.col.val = p.x.val := congrArg Fin.val ho.col
  have hscrolls := scrolls_iff h hecho
  unfold Roll.put Roll.advance follow
  by_cases hc : (r.write ch).col.val + 1 < 80
  · have hx : p.x.val + 1 < 80 := hcol ▸ hc
    rw [dif_pos hc, if_neg (by rw [hscrolls]; omega)]
    show max top (r.row + 1 - 25) = _
    omega
  · have hx : p.x.val = 79 := by
      have : ¬ p.x.val + 1 < 80 := hcol ▸ hc
      omega
    rw [dif_neg hc]
    show max top (r.row + 1 + 1 - 25) = _
    by_cases hy : p.y.val = 24
    · rw [if_pos (hscrolls.mpr ⟨hx, hy⟩)]
      omega
    · rw [if_neg fun hs => hy (hscrolls.mp hs).2]
      omega

/-- A key is echoed. -/
theorem ScreenEdit.typed (h : ScreenEdit t p₀ n 0 top s p r) {ch : UInt8} (hecho : Echoes ch) :
    ScreenEdit t p₀ (n + 1) 0 (top + (if s.scrolls ch t then 1 else 0)) (s.putc ch t) (p.putc ch) (r.put ch) := by
  have honto := onto_putc h.onto ch
  have hput : refPutc r ch = r.put ch := by
    unfold refPutc
    rw [if_neg hecho.1, if_neg hecho.2]
  rw [hput, follow_put h.shows h.onto hecho] at honto
  refine ⟨Screen.shows_putc h.shows ch, honto, h.edit.put ch, ?_⟩
  have hedit := (h.edit.put ch).place
  have hlow := h.low
  by_cases hs : s.scrolls ch t
  · right
    have hrow := honto.row
    have hplace : (r.put ch).place = 80 * (r.put ch).row + (r.put ch).col.val := rfl
    have hp := r.put_place ch
    have hbefore : r.place = 80 * r.row + r.col.val := rfl
    have hr : r.row = top + p.y.val := h.onto.row
    have hc : r.col.val = p.x.val := congrArg Fin.val h.onto.col
    obtain ⟨hx, hy⟩ := (scrolls_iff h.shows hecho).mp hs
    rw [if_pos hs]
    omega
  · rw [if_neg hs]
    omega

theorem ScreenEdit.takenBack (h : ScreenEdit t p₀ n e top s p r) (hlt : e < n) (hn : n ≤ 1920) :
    ∃ p', ScreenEdit t p₀ n (e + 1) top (s.backspaceHelper t) p' (r.erase 0x20) := by
  have hplace := h.edit.place
  have hlow := h.low
  obtain ⟨v, hv, honto⟩ := h.onto.erase (by omega)
  obtain ⟨p', hp', rfl⟩ := view_erase hv
  exact ⟨p', (Screen.shows_backspace h.shows hp').1, honto, h.edit.erase hlt, hlow⟩

/-- The characters of the page `p₀` scrolled up `up` rows, with `k` cells from the cursor
on blank. -/
def undoneCell (p₀ : Page) (up k : ℕ) (i : Fin 25) (j : Fin 80) : UInt8 :=
  let first : ℤ := 80 * (p₀.y.val - up) + p₀.x.val
  if first ≤ 80 * i.val + j.val ∧ 80 * i.val + j.val < first + k then 0x20
  else if i.val + up < 25 then p₀.cells ((80 * (i.val + up) + j.val) * 2)
  else 0x20

/-- All characters erased: the cursor is in the cell it was in, `top` rows further up, and
so are the others; the cells that were written are blank. -/
theorem ScreenEdit.undone (h : ScreenEdit t p₀ n n top s p r) :
    s.screenX t = p₀.x.val ∧ s.screenY t = p₀.y.val - top ∧
    ∀ i j, s.mem (vidmemPages t + ((80 * i.val + j.val) * 2 : ℕ)) = undoneCell p₀ top n i j := by
  obtain ⟨hrow, hcol, hcells⟩ := h.edit.undone
  have hr : r.row = top + p.y.val := h.onto.row
  have hy : r.row = p₀.y.val := hrow
  refine ⟨?_, ?_, fun i j => ?_⟩
  · rw [h.shows.x]
    exact congrArg (fun x : Fin 80 => (x.val : ℤ)) (h.onto.col.symm.trans hcol)
  · rw [h.shows.y]
    omega
  · have hplace : p₀.roll.place = 80 * p₀.y.val + p₀.x.val := rfl
    have hold : p₀.roll.cells (top + i) j =
        if top + i.val < 25 then some (p₀.cells ((80 * (top + i.val) + j.val) * 2)) else none := rfl
    unfold undoneCell
    calc s.mem (vidmemPages t + ((80 * i.val + j.val) * 2 : ℕ)) = p.view.cells i j := h.shows.cells _ (by omega)
      _ = (r.cells (top + i) j).getD 0x20 := h.onto.cells i j
      _ = _ := by
        rw [hcells]
        by_cases hin : p₀.roll.place ≤ 80 * (top + i.val) + j.val ∧ 80 * (top + i.val) + j.val < p₀.roll.place + n
        · rw [if_pos hin, if_pos (by omega)]
          rfl
        · rw [if_neg hin, if_neg (by omega), hold, Nat.add_comm top]
          split_ifs <;> rfl

end Screen

/-! ### One step -/

section Step

variable {t : Terminal} {c c' : Console} {l : ConsoleEvent × ConsoleOut}

/-- What a step types on a terminal: nothing, or the key that is pressed while it is
shown. -/
theorem typedBy_cases (hstep : consoleStep c l c') :
    typedBy t ⟨c, l, c'⟩ = [] ∨ ∃ ch, typedBy t ⟨c, l, c'⟩ = [ch] ∧ c.kbd.currentTerminal = t ∧
      c'.kbd = c.kbd.answer (.char ch) := by
  obtain ⟨ev, out⟩ := l
  unfold typedBy
  cases ev with
  | key scancode =>
    simp only [consoleStep, consoleNext, Option.some.injEq, Prod.mk.injEq] at hstep
    dsimp only
    cases hp : c.kbd.press scancode with
    | char ch =>
      dsimp only
      by_cases ht : c.kbd.currentTerminal = t
      · rw [if_pos ht, ← hstep.1]
        exact Or.inr ⟨ch, rfl, ht, (c.kbd.kbrdInt_eq scancode).trans (congrArg c.kbd.answer hp)⟩
      · rw [if_neg ht]
        exact Or.inl rfl
    | _ => exact Or.inl rfl
  | _ => exact Or.inl rfl

theorem takenBackBy_cases (hstep : consoleStep c l c') :
    takenBackBy t ⟨c, l, c'⟩ = 0 ∨ takenBackBy t ⟨c, l, c'⟩ = 1 ∧ c.kbd.currentTerminal = t ∧
      c'.kbd = c.kbd.answer .backspace := by
  obtain ⟨ev, out⟩ := l
  unfold takenBackBy
  cases ev with
  | key scancode =>
    simp only [consoleStep, consoleNext, Option.some.injEq, Prod.mk.injEq] at hstep
    dsimp only
    by_cases hp : c.kbd.press scancode = .backspace ∧ c.kbd.currentTerminal = t
    · rw [if_pos hp, ← hstep.1, ← hp.1]
      exact Or.inr ⟨rfl, hp.2, c.kbd.kbrdInt_eq scancode⟩
    · rw [if_neg hp]
      exact Or.inl rfl
  | _ => exact Or.inl rfl

end Step

/-! ### Runs -/

/-- What `n` keys, `e` of them taken back, have done from the keyboard `k₀` and the page
`p₀` on. -/
structure Undoing (t : Terminal) (k₀ : Keyboard) (p₀ : Page) (n e top : ℕ) (k : Keyboard) : Prop where
  line : LineEdit t k₀ n e k
  screen : ∃ p r, ScreenEdit t p₀ n e top k.screen p r

section Runs

variable {t : Terminal} {k₀ k : Keyboard} {p₀ : Page} {n e top : ℕ}

theorem Undoing.aside (h : Undoing t k₀ p₀ n e top k) {x : ConsoleEntry} (hk : x.before.kbd = k)
    (ha : Aside t x) : Undoing t k₀ p₀ n e top x.after.kbd := by
  subst hk
  obtain ⟨hline, p, r, hscreen⟩ := h
  have hs := hscreen.shows
  refine ⟨⟨?_, ?_, ?_, ?_, ?_⟩, p, r, ⟨ha.x.trans hs.x, ha.y.trans hs.y, fun i hi => ?_⟩, hscreen.onto,
    hscreen.edit, hscreen.low⟩
  · rw [ha.marker]
    exact hline.marker
  · rw [ha.length]
    exact hline.length
  · rw [ha.marker]
    exact hline.markers
  · rw [ha.length]
    exact hline.lengths
  · rw [ha.buf, ha.marker]
    exact hline.cells
  · exact (ha.cells i hi).trans (hs.cells i hi)

theorem Undoing.typed (h : Undoing k.currentTerminal k₀ p₀ n 0 top k) {ch : UInt8} (hecho : Echoes ch)
    (hfits : (k₀.lineMarker k.currentTerminal).toNat + n < 127) (hlen : k.kbrdBufLength k.currentTerminal < 127) :
    Undoing k.currentTerminal k₀ p₀ (n + 1) 0
      (top + (if k.screen.scrolls ch k.currentTerminal then 1 else 0)) (k.answer (.char ch)) := by
  obtain ⟨hline, p, r, hscreen⟩ := h
  have hanswer : k.answer (.char ch) = k.typeKey ch := if_pos hlen
  rw [hanswer]
  exact ⟨hline.typed ch hfits, _, _, hscreen.typed hecho⟩

theorem Undoing.takenBack (h : Undoing k.currentTerminal k₀ p₀ n e top k) (hlt : e < n)
    (hfits : (k₀.lineMarker k.currentTerminal).toNat + n ≤ 127) (hcount : 0 ≤ k₀.kbrdBufLength k.currentTerminal)
    (hnul : ∀ j : ℕ, (k₀.lineMarker k.currentTerminal).toNat ≤ j → j < 128 →
      k₀.kbrdBuf (rowAt k.currentTerminal + j) = 0) :
    Undoing k.currentTerminal k₀ p₀ n (e + 1) top (k.answer .backspace) := by
  obtain ⟨hline, p, r, hscreen⟩ := h
  obtain ⟨hpos, hback⟩ := hline.takenBack hlt hfits hcount hnul
  obtain ⟨p', herased⟩ := hscreen.takenBack hlt (by omega)
  have hafter := answer_screen k .backspace
  refine ⟨hback, p', r.erase 0x20, ?_⟩
  rw [hafter, Keyboard.screenAfter, if_pos hpos]
  exact herased

/-- A run in which keys are typed on terminal `t`. -/
theorem typing_run {c c' : Console} {tr : List ConsoleEntry} (h : Hist (fun s => s = c) consoleStep tr c')
    (hshows : Shows c.kbd.screen t p₀) (hkeys : ∀ x ∈ tr, typedBy t x ≠ [] ∨ Aside t x)
    (hecho : ∀ ch ∈ typedOn t tr, Echoes ch)
    (hmark : (c.kbd.lineMarker t).toNat + (typedOn t tr).length ≤ 127)
    (hlen : c.kbd.kbrdBufLength t + (typedOn t tr).length ≤ 127) :
    Undoing t c.kbd p₀ (typedOn t tr).length 0 (scrollsOn t tr) c'.kbd := by
  induction h with
  | start hs =>
    rw [hs]
    exact ⟨LineEdit.refl t c.kbd, _, _, ScreenEdit.refl hshows⟩
  | @next tr s l s' hp hst ih =>
    obtain ⟨hnow, hold⟩ := List.forall_mem_cons.mp hkeys
    have htyped : typedOn t (⟨s, l, s'⟩ :: tr) = typedOn t tr ++ typedBy t ⟨s, l, s'⟩ := rfl
    have hscrolled : scrollsOn t (⟨s, l, s'⟩ :: tr) = scrollsOn t tr + scrollsBy t ⟨s, l, s'⟩ := rfl
    rw [htyped] at hecho hmark hlen ⊢
    rw [hscrolled]
    rw [List.length_append] at hmark hlen ⊢
    have hbefore := ih hold (fun ch hch => hecho ch (List.mem_append_left _ hch)) (by omega) (by omega)
    rcases typedBy_cases (t := t) hst with hnone | ⟨ch, hone, rfl, hafter⟩
    · have hscrolls : scrollsBy t ⟨s, l, s'⟩ = 0 := by rw [scrollsBy, hnone]; rfl
      rw [hnone, hscrolls]
      exact hbefore.aside rfl (hnow.resolve_left fun hne => hne hnone)
    · have hcount := hbefore.line.length
      rw [hone, List.length_singleton] at hmark hlen ⊢
      have hroom : s.kbd.kbrdBufLength s.kbd.currentTerminal < 127 := by omega
      have hscrolls : scrollsBy s.kbd.currentTerminal ⟨s, l, s'⟩ =
          if s.kbd.screen.scrolls ch s.kbd.currentTerminal then 1 else 0 := by
        rw [scrollsBy, hone, List.countP_singleton]
        simp only [hroom, decide_true, Bool.true_and]
      rw [hscrolls, hafter]
      refine hbefore.typed (hecho ch ?_) (by omega) hroom
      rw [hone]
      exact List.mem_append_right _ List.mem_cons_self

/-- A run in which keys are taken back there, no more than were typed. -/
theorem takingBack_run {c c' : Console} {tr : List ConsoleEntry} (h : Hist (fun s => s = c) consoleStep tr c')
    (hbefore : Undoing t k₀ p₀ n 0 top c.kbd) (hkeys : ∀ x ∈ tr, takenBackBy t x = 1 ∨ Aside t x)
    (hle : takenBackOn t tr ≤ n) (hfits : (k₀.lineMarker t).toNat + n ≤ 127) (hcount : 0 ≤ k₀.kbrdBufLength t)
    (hnul : ∀ j : ℕ, (k₀.lineMarker t).toNat ≤ j → j < 128 → k₀.kbrdBuf (rowAt t + j) = 0) :
    Undoing t k₀ p₀ n (takenBackOn t tr) top c'.kbd := by
  induction h with
  | start hs =>
    rw [hs]
    exact hbefore
  | @next tr s l s' hp hst ih =>
    obtain ⟨hnow, hold⟩ := List.forall_mem_cons.mp hkeys
    have htaken : takenBackOn t (⟨s, l, s'⟩ :: tr) = takenBackOn t tr + takenBackBy t ⟨s, l, s'⟩ := rfl
    rw [htaken] at hle ⊢
    have hmid := ih hold (by omega)
    rcases takenBackBy_cases (t := t) hst with hnone | ⟨hone, rfl, hafter⟩
    · rw [hnone]
      exact hmid.aside rfl (hnow.resolve_left fun h1 => by omega)
    · rw [hone] at hle ⊢
      rw [hafter]
      exact hmid.takenBack hle hfits hcount hnul

end Runs

/-- **Backspace undoes typing.** The page `p₀` of a terminal has its cursor on it, and the
row of its line buffer is a text with NULs behind it; the keys counted are not fewer than
none. In a run, `k` characters are typed there, for which the row and the count have room,
and each is echoed; in a run from there on, `k` backspaces come; and no other step writes
to the terminal or to a line buffer. Then the buffers, the markers and the counts are
exactly what they were; the cursor is in its column, as many rows further up as typing has
scrolled; and so are the characters of the page, with `k` blanks from the cursor on. -/
theorem backspace_undoes_typing {t : Terminal} {p₀ : Page} {text : List UInt8} {k : ℕ} {c c₁ c₂ : Console}
    {typing takingBack : List ConsoleEntry} (hshows : Shows c.kbd.screen t p₀) (hrow : RowText c.kbd t text)
    (hmark : text.length + k ≤ 127) (hcount : 0 ≤ c.kbd.kbrdBufLength t) (hlen : c.kbd.kbrdBufLength t + k ≤ 127)
    (htyping : Hist (fun s => s = c) consoleStep typing c₁)
    (htyped : ∀ x ∈ typing, typedBy t x ≠ [] ∨ Aside t x) (hecho : ∀ ch ∈ typedOn t typing, Echoes ch)
    (hk : (typedOn t typing).length = k) (hback : Hist (fun s => s = c₁) consoleStep takingBack c₂)
    (htaken : ∀ x ∈ takingBack, takenBackBy t x = 1 ∨ Aside t x) (hk' : takenBackOn t takingBack = k) :
    c₂.kbd.kbrdBuf = c.kbd.kbrdBuf ∧ c₂.kbd.lineMarker = c.kbd.lineMarker ∧
    c₂.kbd.kbrdBufLength = c.kbd.kbrdBufLength ∧ c₂.kbd.screen.screenX t = p₀.x.val ∧
    c₂.kbd.screen.screenY t = p₀.y.val - scrollsOn t typing ∧
    ∀ (i : Fin 25) (j : Fin 80), c₂.kbd.screen.mem (vidmemPages t + ((80 * i.val + j.val) * 2 : ℕ)) =
      undoneCell p₀ (scrollsOn t typing) k i j := by
  have hmarker := hrow.marker
  have hafter := typing_run htyping hshows htyped hecho (by omega) (by omega)
  rw [hk] at hafter
  have hnul : ∀ j : ℕ, (c.kbd.lineMarker t).toNat ≤ j → j < 128 → c.kbd.kbrdBuf (rowAt t + j) = 0 := by
    intro j hj hj128
    rw [hrow.cells j hj128]
    exact List.getD_eq_default _ _ (by omega)
  have hend := takingBack_run hback hafter htaken hk'.le (by omega) hcount hnul
  rw [hk'] at hend
  obtain ⟨hline, p, r, hscreen⟩ := hend
  obtain ⟨hbuf, hmarks, hlens⟩ := hline.undone
  obtain ⟨hx, hy, hcells⟩ := hscreen.undone
  exact ⟨hbuf, hmarks, hlens, hx, hy, hcells⟩

/-- A console whose cursor is two cells before the end of the first terminal's page. -/
def lateConsole : Console :=
  { bootConsole with
    kbd := { bootConsole.kbd with
      screen := { bootConsole.kbd.screen with screenX := fun _ => 78, screenY := fun _ => 24 } } }

/-- Two keys there, with a tick of the scheduler in between, as a run. -/
def lateTyping : List ConsoleEntry :=
  let first := afterKey lateConsole 0x1E
  let ticked := { first with running := 1 }
  [⟨ticked, (.key 0x30, .nothing), afterKey ticked 0x30⟩, ⟨first, (.tick 1, .nothing), ticked⟩,
    ⟨lateConsole, (.key 0x1E, .nothing), first⟩]

/-- Two backspaces behind it. -/
def lateBack (c : Console) : List ConsoleEntry :=
  [⟨afterKey c 0x0E, (.key 0x0E, .nothing), afterKey (afterKey c 0x0E) 0x0E⟩,
    ⟨c, (.key 0x0E, .nothing), afterKey c 0x0E⟩]

theorem backspace_undoes_typing_late : ∃ c₁ c₂, Hist (fun s => s = lateConsole) consoleStep lateTyping c₁ ∧
    Hist (fun s => s = c₁) consoleStep (lateBack c₁) c₂ ∧ c₂.kbd.kbrdBuf = lateConsole.kbd.kbrdBuf ∧
    c₂.kbd.lineMarker = lateConsole.kbd.lineMarker ∧ c₂.kbd.kbrdBufLength = lateConsole.kbd.kbrdBufLength ∧
    c₂.kbd.screen.screenX 0 = 78 ∧ c₂.kbd.screen.screenY 0 = 23 := by
  obtain ⟨c₁, hc₁⟩ : ∃ c₁, c₁ = afterKey { afterKey lateConsole 0x1E with running := 1 } 0x30 := ⟨_, rfl⟩
  have htyping : Hist (fun s => s = lateConsole) consoleStep lateTyping c₁ := by
    rw [hc₁]
    exact Hist.next (Hist.next (Hist.next (Hist.start rfl) rfl) rfl) rfl
  have hback : Hist (fun s => s = c₁) consoleStep (lateBack c₁) (afterKey (afterKey c₁ 0x0E) 0x0E) :=
    Hist.next (Hist.next (Hist.start rfl) rfl) rfl
  have hshows : Shows lateConsole.kbd.screen 0 ⟨78, 24, fun _ => 0⟩ := ⟨rfl, rfl, fun _ _ => rfl⟩
  have hrow : RowText lateConsole.kbd 0 [] := ⟨rfl, fun _ _ => rfl⟩
  have hkeys : typedOn 0 lateTyping = [0x61, 0x62] ∧ scrollsOn 0 lateTyping = 1 ∧
      takenBackOn 0 (lateBack c₁) = 2 ∧ ∀ x ∈ lateBack c₁, takenBackBy 0 x = 1 := by
    rw [hc₁]
    decide +kernel
  obtain ⟨htyped, hscrolled, htaken, hall⟩ := hkeys
  have hnew : ∀ x ∈ lateTyping, typedBy 0 x ≠ [] ∨ Aside 0 x := by
    refine List.forall_mem_cons.mpr ⟨Or.inl (by decide +kernel), List.forall_mem_cons.mpr ⟨Or.inr ?_, ?_⟩⟩
    · exact ⟨rfl, rfl, rfl, rfl, rfl, fun _ _ => rfl⟩
    · exact List.forall_mem_cons.mpr ⟨Or.inl (by decide +kernel), by simp⟩
  have hecho : ∀ ch ∈ typedOn 0 lateTyping, Echoes ch := by
    rw [htyped]
    exact List.forall_mem_cons.mpr ⟨by decide, List.forall_mem_singleton.mpr (by decide)⟩
  have hundone := backspace_undoes_typing hshows hrow (show ([] : List UInt8).length + 2 ≤ 127 by decide) (le_refl 0)
    (show (0 : ℤ) + 2 ≤ 127 by decide) htyping hnew hecho (by rw [htyped]; rfl) hback
    (fun x hx => Or.inl (hall x hx)) htaken
  rw [hscrolled] at hundone
  obtain ⟨hbuf, hmark, hlen, hx, hy, -⟩ := hundone
  exact ⟨c₁, _, htyping, hback, hbuf, hmark, hlen, hx, hy⟩

end Mp3Kernel
