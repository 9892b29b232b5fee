/-
# The cursors stay on the screen

All that moves a cursor is `putc`, `backspace_helper` and `reset`. The first and the
last keep it on the page, from wherever it is on it. A backspace moves it back, and in
the top left corner there is no back: the row becomes -1, and the blank is stored
before the page. The keyboard buffer does not rule that out, since keys with no
character (F4, say) are counted but not echoed, and Ctrl+L moves the cursor but not the
count. In every run, the cursors and the stores are in range exactly if no backspace
is accepted in the corner (`cursor_range`).

Key definitions: `OnScreen`, `Corner`. Key theorems: `onScreen_step`, `cursor_range`.
-/
import Mp3Kernel.Page
import Mp3Kernel.Keyboard

namespace Mp3Kernel

open Past

/-- All cursors are on their pages, and no byte has been stored through `vidmem_pages`
outside the visible part of a page. -/
structure OnScreen (s : Screen) : Prop where
  x : ∀ t, 0 ≤ s.screenX t ∧ s.screenX t < numCols
  y : ∀ t, 0 ≤ s.screenY t ∧ s.screenY t < numRows
  stores : ∀ o ∈ s.stores, 0 ≤ o.2 ∧ o.2 ≤ 3999

/-- A backspace that the handler accepts while the cursor is in the top left corner. -/
def Corner (k : Keyboard) (p : Press) : Prop :=
  p = .backspace ∧ k.kbrdBufLength k.currentTerminal > 0 ∧
    k.screen.screenX k.currentTerminal = 0 ∧ k.screen.screenY k.currentTerminal = 0

/-! ### Output -/

section Output

variable {s s' : Screen}

theorem OnScreen.shows (h : OnScreen s) (t : Terminal) : ∃ p, Shows s t p := by
  have hx := h.x t
  have hy := h.y t
  simp only [numCols, numRows] at hx hy
  refine ⟨⟨⟨(s.screenX t).toNat, by omega⟩, ⟨(s.screenY t).toNat, by omega⟩,
    fun i => s.mem (vidmemPages t + i)⟩, ?_, ?_, fun _ _ => rfl⟩
  · show s.screenX t = ((s.screenX t).toNat : ℤ)
    omega
  · show s.screenY t = ((s.screenY t).toNat : ℤ)
    omega

theorem Shows.onPage {t : Terminal} {p : Page} (h : Shows s t p) :
    (0 ≤ s.screenX t ∧ s.screenX t < numCols) ∧ 0 ≤ s.screenY t ∧ s.screenY t < numRows := by
  rw [h.x, h.y]
  simp only [numCols, numRows]
  omega

/-- Whatever touches one page and leaves a page there keeps all cursors on the screen. -/
theorem OnScreen.touched (h : OnScreen s) {t : Terminal} {p : Page} (hshows : Shows s' t p)
    (htouch : Touches t s s') : OnScreen s' := by
  obtain ⟨hx, hy⟩ := hshows.onPage
  refine ⟨fun u => ?_, fun u => ?_, fun o ho => ?_⟩
  · by_cases hu : u = t
    · rw [hu]
      exact hx
    · rw [htouch.x u hu]
      exact h.x u
  · by_cases hu : u = t
    · rw [hu]
      exact hy
    · rw [htouch.y u hu]
      exact h.y u
  · obtain ⟨new, hnew, hin⟩ := htouch.stores
    rw [hnew] at ho
    rcases List.mem_append.mp ho with ho | ho
    · have := hin o ho
      omega
    · exact h.stores o ho

theorem OnScreen.putc (h : OnScreen s) (c : UInt8) (t : Terminal) : OnScreen (s.putc c t) := by
  obtain ⟨p, hp⟩ := h.shows t
  exact h.touched (Screen.shows_putc hp c) (Screen.touches_putc hp c)

theorem OnScreen.terminalWrite (h : OnScreen s) (bytes : List UInt8) (t : Terminal) :
    OnScreen (Screen.terminalWrite t bytes s) := by
  obtain ⟨p, hp⟩ := h.shows t
  have hwrite := Screen.shows_terminalWrite bytes hp
  exact h.touched hwrite.1 hwrite.2

theorem OnScreen.puts (h : OnScreen s) (str : List UInt8) (t : Terminal) : OnScreen (Screen.puts t str s) := by
  rw [Screen.puts_eq]
  exact h.terminalWrite _ t

theorem OnScreen.reset (h : OnScreen s) : OnScreen s.reset := by
  obtain ⟨hshows, htouch⟩ := Screen.shows_reset s
  exact h.touched hshows htouch

theorem OnScreen.copied (h : OnScreen s) (hx : s'.screenX = s.screenX) (hy : s'.screenY = s.screenY)
    (hstores : s'.stores = s.stores) : OnScreen s' :=
  ⟨fun t => hx ▸ h.x t, fun t => hy ▸ h.y t, fun o ho => h.stores o (hstores ▸ ho)⟩

/-- A backspace anywhere but in the corner. -/
theorem OnScreen.backspace (h : OnScreen s) {t : Terminal} (hcorner : ¬ (s.screenX t = 0 ∧ s.screenY t = 0)) :
    OnScreen (s.backspaceHelper t) := by
  obtain ⟨p, hp⟩ := h.shows t
  have herase : ∃ p', p.erase = some p' := by
    unfold Page.erase
    by_cases hx : 0 < p.x.val
    · exact ⟨_, if_pos hx⟩
    · have hy : 0 < p.y.val := by
        by_contra hy
        exact hcorner ⟨by rw [hp.x]; omega, by rw [hp.y]; omega⟩
      exact ⟨_, by rw [if_neg hx, if_pos hy]⟩
  obtain ⟨p', hp'⟩ := herase
  obtain ⟨hshows, htouch⟩ := Screen.shows_backspace hp hp'
  exact h.touched hshows htouch

theorem backspaceHelper_y {t : Terminal} (hx : s.screenX t = 0) :
    (s.backspaceHelper t).screenY t = s.screenY t - 1 := by
  unfold Screen.backspaceHelper
  rw [if_pos hx]
  show (Screen.setY _ t (((s.setX t _).setY t ((s.setX t _).screenY t - 1)).screenY t)).screenY t = _
  rw [Screen.setY_screenY, Screen.setY_screenY]
  rfl

end Output

/-! ### The keyboard -/

/-- What the answer to a key press does to the screen. -/
def Keyboard.screenAfter (k : Keyboard) : Press → Screen
  | .switch t => if k.currentTerminal ≠ t then (k.screen.updateCurrTerm t).updateVidmem t else k.screen
  | .enter => k.screen.putc 0x0A k.currentTerminal
  | .backspace =>
    if k.kbrdBufLength k.currentTerminal > 0 then k.screen.backspaceHelper k.currentTerminal else k.screen
  | .redraw =>
    if k.kbrdBufLength k.currentTerminal < 127 then
      Screen.puts k.currentTerminal (k.rowString k.currentTerminal) k.screen.reset
    else k.screen
  | .char c => if k.kbrdBufLength k.currentTerminal < 127 then k.screen.putc c k.currentTerminal else k.screen
  | _ => k.screen

theorem answer_screen (k : Keyboard) (p : Press) : (k.answer p).screen = k.screenAfter p := by
  cases p with
  | switch t =>
    simp only [Keyboard.answer, Keyboard.switchTerminal, Keyboard.screenAfter]
    split_ifs <;> rfl
  | enter =>
    simp only [Keyboard.answer, Keyboard.enterKey, Keyboard.screenAfter]
    split_ifs <;> rfl
  | backspace =>
    simp only [Keyboard.answer, Keyboard.backspaceKey, Keyboard.screenAfter]
    split_ifs <;> rfl
  | redraw =>
    simp only [Keyboard.answer, Keyboard.redraw, Keyboard.screenAfter]
    split_ifs
    · dsimp only
    · rfl
  | char c =>
    simp only [Keyboard.answer, Keyboard.typeKey, Keyboard.screenAfter]
    split_ifs <;> rfl
  | _ => rfl

/-- A key press keeps the cursors on the screen, unless it is a backspace accepted in
the corner. -/
theorem onScreen_answer {k : Keyboard} (h : OnScreen k.screen) {p : Press} (hp : ¬ Corner k p) :
    OnScreen (k.answer p).screen := by
  rw [answer_screen]
  cases p with
  | switch t =>
    simp only [Keyboard.screenAfter]
    split_ifs
    · rw [Screen.updateCurrTerm_eq]
      exact h.copied rfl rfl rfl
    · exact h
  | enter => exact h.putc _ _
  | backspace =>
    simp only [Keyboard.screenAfter]
    split_ifs with hlen
    · exact h.backspace fun hc => hp ⟨rfl, hlen, hc.1, hc.2⟩
    · exact h
  | redraw =>
    simp only [Keyboard.screenAfter]
    split_ifs
    · exact h.reset.puts _ _
    · exact h
  | char c =>
    simp only [Keyboard.screenAfter]
    split_ifs
    · exact h.putc _ _
    · exact h
  | _ => exact h

/-! ### Runs -/

theorem resume_screen {c c' : Console} {out : ConsoleOut} (h : c.resume = some (c', out)) :
    c'.kbd.screen = c.kbd.screen := by
  rcases Console.resume_cases h with ⟨n, -, -, rfl⟩ | ⟨n, -, -, rfl⟩ | ⟨n, -, -, -, rfl⟩ | ⟨n, -, -, rfl⟩ |
    ⟨n, -, -, rfl⟩ | ⟨n, -, -, rfl⟩
  · rfl
  · rfl
  · rfl
  · show (c.kbd.copyLine n).1.screen = _
    unfold Keyboard.copyLine
    split_ifs <;> rfl
  · rfl
  · rfl

/-- A step with a backspace accepted in the corner. -/
def CornerStep (e : ConsoleEntry) : Prop :=
  ∃ scancode, e.label.1 = .key scancode ∧ Corner e.before.kbd (e.before.kbd.press scancode)

/-- One step keeps the cursors on the screen, unless it is such a backspace. -/
theorem onScreen_step {c c' : Console} {l : ConsoleEvent × ConsoleOut} (h : OnScreen c.kbd.screen)
    (hstep : consoleStep c l c') (hcorner : ¬ CornerStep ⟨c, l, c'⟩) : OnScreen c'.kbd.screen := by
  obtain ⟨ev, out⟩ := l
  unfold consoleStep at hstep
  cases ev with
  | key scancode =>
    simp only [consoleNext, Option.some.injEq, Prod.mk.injEq] at hstep
    rw [← hstep.1]
    show OnScreen (c.kbd.kbrdInt scancode).screen
    rw [Keyboard.kbrdInt_eq]
    exact onScreen_answer h fun hc => hcorner ⟨scancode, rfl, hc⟩
  | tick t =>
    simp only [consoleNext, Option.some.injEq, Prod.mk.injEq] at hstep
    rw [← hstep.1]
    exact h
  | call nbytes =>
    simp only [consoleNext, Option.ite_none_right_eq_some, Option.some.injEq, Prod.mk.injEq] at hstep
    rw [← hstep.2.1]
    exact h
  | resume =>
    rw [resume_screen hstep]
    exact h
  | putc ch t =>
    simp only [consoleNext, Option.some.injEq, Prod.mk.injEq] at hstep
    rw [← hstep.1]
    exact h.putc ch t
  | puts str t =>
    simp only [consoleNext, Option.some.injEq, Prod.mk.injEq] at hstep
    rw [← hstep.1]
    exact h.puts str t
  | terminalWrite bytes t =>
    simp only [consoleNext, Option.some.injEq, Prod.mk.injEq] at hstep
    rw [← hstep.1]
    exact h.terminalWrite bytes t
  | refresh =>
    simp only [consoleNext, Option.some.injEq, Prod.mk.injEq] at hstep
    rw [← hstep.1]
    show OnScreen c.kbd.screen.refreshVidmem
    rw [Screen.refreshVidmem_eq]
    exact h.copied rfl rfl rfl

/-- A backspace accepted in the corner leaves the row -1. -/
theorem CornerStep.off {e : ConsoleEntry} (hstep : consoleStep e.before e.label e.after) (h : CornerStep e) :
    ¬ OnScreen e.after.kbd.screen := by
  obtain ⟨scancode, hkey, hpress, hlen, hx, hy⟩ := h
  unfold consoleStep at hstep
  rw [hkey] at hstep
  simp only [consoleNext, Option.some.injEq, Prod.mk.injEq] at hstep
  have hscreen : e.after.kbd.screen = e.before.kbd.screen.backspaceHelper e.before.kbd.currentTerminal := by
    rw [← hstep.1]
    show (e.before.kbd.kbrdInt scancode).screen = _
    rw [Keyboard.kbrdInt_eq, answer_screen, hpress]
    exact if_pos hlen
  intro hon
  have hrow := (hon.y e.before.kbd.currentTerminal).1
  rw [hscreen, backspaceHelper_y hx, hy] at hrow
  exact absurd hrow (by decide)

theorem onScreen_init {c : Console} (h : ConsoleInit c) : OnScreen c.kbd.screen := by
  refine ⟨fun t => ?_, fun t => ?_, fun o ho => ?_⟩
  · rw [h.x t]
    decide
  · rw [h.y t]
    decide
  · rw [h.stores] at ho
    exact absurd ho (by simp)

/-- **Cursor range.** In every run from zeroed cursors, all cursors are on the screen and
all bytes stored through the pages lie in their visible part, in every state reached,
exactly if no backspace is accepted while the cursor is in the top left corner. -/
theorem cursor_range {tr : List ConsoleEntry} {c : Console} (h : Hist ConsoleInit consoleStep tr c) :
    (∀ e ∈ tr, OnScreen e.after.kbd.screen) ↔ ∀ e ∈ tr, ¬ CornerStep e := by
  constructor
  · intro hall e he hcorner
    obtain ⟨new, old, rfl⟩ := List.append_of_mem he
    exact hcorner.off h.reached.2 (hall e he)
  · have hrun : (∀ e ∈ tr, ¬ CornerStep e) → OnScreen c.kbd.screen ∧ ∀ e ∈ tr, OnScreen e.after.kbd.screen := by
      induction h with
      | start hi => exact fun _ => ⟨onScreen_init hi, by simp⟩
      | next hp hst ih =>
        intro hno
        obtain ⟨hnow, hold⟩ := List.forall_mem_cons.mp hno
        obtain ⟨hbefore, hall⟩ := ih hold
        have hafter := onScreen_step hbefore hst hnow
        exact ⟨hafter, List.forall_mem_cons.mpr ⟨hafter, hall⟩⟩
    exact fun hno => (hrun hno).2

/-- A console on which one scancode has come. -/
def afterKey (c : Console) (scancode : UInt8) : Console := { c with kbd := c.kbd.kbrdInt scancode }

/-- Two scancodes after boot, as a run. -/
def twoKeys (first second : UInt8) : List ConsoleEntry :=
  [⟨afterKey bootConsole first, (.key second, .nothing), afterKey (afterKey bootConsole first) second⟩,
   ⟨bootConsole, (.key first, .nothing), afterKey bootConsole first⟩]

theorem hist_twoKeys (first second : UInt8) :
    Hist ConsoleInit consoleStep (twoKeys first second) (afterKey (afterKey bootConsole first) second) :=
  Hist.next (Hist.next (Hist.start consoleInit_boot) rfl) rfl

theorem cursor_range_typed : Hist ConsoleInit consoleStep (twoKeys 0x1E 0x0E)
    (afterKey (afterKey bootConsole 0x1E) 0x0E) ∧ ∀ e ∈ twoKeys 0x1E 0x0E, OnScreen e.after.kbd.screen := by
  refine ⟨hist_twoKeys _ _, (cursor_range (hist_twoKeys _ _)).mpr fun e he => ?_⟩
  rcases List.mem_cons.mp he with rfl | he
  · rintro ⟨scancode, -, -, -, hx, -⟩
    exact absurd hx (by decide)
  · rw [List.mem_singleton.mp he]
    rintro ⟨scancode, -, -, hlen, -⟩
    exact absurd hlen (by decide)

/-- F4 and then Backspace: F4 is counted but prints nothing, and the cursor is in the
corner. -/
theorem corner_backspace : ∃ tr c, Hist ConsoleInit consoleStep tr c ∧
    tr.map (fun e => e.label.1) = [.key 0x0E, .key 0x3E] ∧ c.kbd.screen.screenY 0 = -1 ∧
    (0, -2) ∈ c.kbd.screen.stores ∧ ¬ ∀ e ∈ tr, OnScreen e.after.kbd.screen := by
  have hy : (afterKey (afterKey bootConsole 0x3E) 0x0E).kbd.screen.screenY 0 = -1 := by decide
  have hstores : (afterKey (afterKey bootConsole 0x3E) 0x0E).kbd.screen.stores = [(0, -1), (0, -2)] := by decide
  refine ⟨_, _, hist_twoKeys 0x3E 0x0E, rfl, hy, by rw [hstores]; simp, fun hall => ?_⟩
  have hon := (hall _ List.mem_cons_self).y 0
  exact absurd (hy ▸ hon.1) (by decide)

end Mp3Kernel
