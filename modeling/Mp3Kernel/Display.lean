/-
# Output goes where it is directed

Processes write to their own terminals while any of the three is shown. `displayNext`
has all that touches the pages, the cursors and the screen: output directed to a
terminal, a reset of the one shown, a switch, a refresh. `replay` reads off a sequence of
these what one page should be: only what is directed to its terminal counts.

Key definitions: `DisplayEvent`, `displayNext`, `replay`.
Key theorems: `shows_step`, `output_isolation`.
-/
import Mp3Kernel.Page
import Mp3Kernel.Keyboard

namespace Mp3Kernel

open Terminal

/-- What touches the screen. -/
inductive DisplayEvent where
  | putc (c : UInt8) (t : Terminal)
  | puts (str : List UInt8) (t : Terminal)
  | terminalWrite (bytes : List UInt8) (t : Terminal)
  /-- Ctrl+L's `reset` -/
  | reset
  /-- Alt+Fn -/
  | switch (t : Terminal)
  /-- `refresh_vidmem` -/
  | refresh
deriving DecidableEq, Repr

/-- One of them, on the variables of lib.c and keyboard.c. -/
def displayNext (k : Keyboard) : DisplayEvent → Keyboard
  | .putc c t => { k with screen := k.screen.putc c t }
  | .puts str t => { k with screen := Screen.puts t str k.screen }
  | .terminalWrite bytes t => { k with screen := Screen.terminalWrite t bytes k.screen }
  | .reset => { k with screen := k.screen.reset }
  | .switch t => k.switchTerminal t
  | .refresh => { k with screen := k.screen.refreshVidmem }

/-- The terminal shown after an event. -/
def shownAfter (shown : Terminal) : DisplayEvent → Terminal
  | .switch t => t
  | _ => shown

/-- What an event does to the page of terminal `t` while `shown` is shown: nothing,
unless it is directed to `t`. -/
def pageNext (t shown : Terminal) (p : Page) : DisplayEvent → Page
  | .putc c u => if u = t then p.putc c else p
  | .puts str u => if u = t then (cstr str).foldl Page.putc p else p
  | .terminalWrite bytes u => if u = t then bytes.foldl Page.putc p else p
  | .reset => if shown = t then Page.blank else p
  | .switch _ => p
  | .refresh => p

/-- The page of terminal `t` by what is directed to it alone. -/
def replay (t : Terminal) : Terminal → Page → List DisplayEvent → Page
  | _, p, [] => p
  | shown, p, e :: es => replay t (shownAfter shown e) (pageNext t shown p e) es

/-! ### One event -/

variable {k : Keyboard}

theorem shows_directed {s s' : Screen} {u : Terminal} {page : Terminal → Page} (h : ∀ u, Shows s u (page u))
    {f : Page → Page} (hf : Shows s' u (f (page u))) (htouch : Touches u s s') (t : Terminal) :
    Shows s' t (if u = t then f (page t) else page t) := by
  by_cases hut : u = t
  · rw [if_pos hut, ← hut]
    exact hf
  · rw [if_neg hut]
    exact (h t).other (Ne.symm hut) htouch

/-- An event does to each page what is directed to it. -/
theorem shows_step (hagree : k.screen.currTerminal = k.currentTerminal) {page : Terminal → Page}
    (h : ∀ u, Shows k.screen u (page u)) (e : DisplayEvent) (t : Terminal) :
    Shows (displayNext k e).screen t (pageNext t k.currentTerminal (page t) e) := by
  cases e with
  | putc c u =>
    exact shows_directed (f := fun p => p.putc c) h (Screen.shows_putc (h u) c) (Screen.touches_putc (h u) c) t
  | puts str u =>
    have hwrite := Screen.shows_terminalWrite (cstr str) (h u)
    rw [← Screen.puts_eq] at hwrite
    exact shows_directed (f := fun p => (cstr str).foldl Page.putc p) h hwrite.1 hwrite.2 t
  | terminalWrite bytes u =>
    have hwrite := Screen.shows_terminalWrite bytes (h u)
    exact shows_directed (f := fun p => bytes.foldl Page.putc p) h hwrite.1 hwrite.2 t
  | reset =>
    obtain ⟨hblank, htouch⟩ := Screen.shows_reset k.screen
    rw [hagree] at hblank htouch
    exact shows_directed (f := fun _ => Page.blank) h hblank htouch t
  | switch u =>
    show Shows (k.switchTerminal u).screen t (page t)
    unfold Keyboard.switchTerminal
    split_ifs
    · show Shows ((k.screen.updateCurrTerm u).updateVidmem u) t (page t)
      have hsame : Shows { k.screen with currTerminal := u } t (page t) := ⟨(h t).x, (h t).y, (h t).cells⟩
      rw [Screen.updateCurrTerm_eq]
      exact Screen.shows_updateVidmem hsame u
    · exact h t
  | refresh => exact Screen.shows_refreshVidmem (h t)

/-- It keeps the two variables for the terminal shown together. -/
theorem agree_step (hagree : k.screen.currTerminal = k.currentTerminal) {page : Terminal → Page}
    (h : ∀ u, Shows k.screen u (page u)) (e : DisplayEvent) :
    (displayNext k e).currentTerminal = shownAfter k.currentTerminal e ∧
      (displayNext k e).screen.currTerminal = (displayNext k e).currentTerminal := by
  cases e with
  | putc c u => exact ⟨rfl, (Screen.touches_putc (h u) c).shown.trans hagree⟩
  | puts str u =>
    have hwrite := Screen.shows_terminalWrite (cstr str) (h u)
    rw [← Screen.puts_eq] at hwrite
    exact ⟨rfl, hwrite.2.shown.trans hagree⟩
  | terminalWrite bytes u =>
    have hwrite := Screen.shows_terminalWrite bytes (h u)
    exact ⟨rfl, hwrite.2.shown.trans hagree⟩
  | reset => exact ⟨rfl, (Screen.shows_reset k.screen).2.shown.trans hagree⟩
  | switch u =>
    have hnext : displayNext k (.switch u) = k.switchTerminal u := rfl
    rw [hnext]
    unfold Keyboard.switchTerminal
    by_cases hu : k.currentTerminal ≠ u
    · rw [if_pos hu]
      refine ⟨rfl, ?_⟩
      show ((k.screen.updateCurrTerm u).updateVidmem u).currTerminal = u
      rw [Screen.updateCurrTerm_eq]
      rfl
    · rw [if_neg hu]
      exact ⟨not_not.mp hu, hagree⟩
  | refresh =>
    refine ⟨rfl, ?_⟩
    show k.screen.refreshVidmem.currTerminal = _
    rw [Screen.refreshVidmem_eq]
    exact hagree

theorem painted_step (hagree : k.screen.currTerminal = k.currentTerminal) {e : DisplayEvent}
    (he : e = .refresh ∨ ∃ u, e = .switch u ∧ k.currentTerminal ≠ u) :
    Screen.Painted (displayNext k e).screen (displayNext k e).currentTerminal := by
  rcases he with rfl | ⟨u, rfl, hu⟩
  · show Screen.Painted k.screen.refreshVidmem k.currentTerminal
    rw [← hagree]
    exact Screen.painted_refreshVidmem k.screen
  · have hswitch : displayNext k (.switch u) =
        { k with currentTerminal := u, screen := (k.screen.updateCurrTerm u).updateVidmem u } := if_pos hu
    rw [hswitch]
    exact Screen.painted_updateVidmem _ u

/-! ### All events -/

/-- The display after a sequence of events, the first one first. -/
def displayed (k : Keyboard) (es : List DisplayEvent) : Keyboard := es.foldl displayNext k

theorem displayed_concat (k : Keyboard) (es : List DisplayEvent) (e : DisplayEvent) :
    displayed k (es ++ [e]) = displayNext (displayed k es) e := by
  unfold displayed
  rw [List.foldl_append]
  rfl

theorem shows_replay (hagree : k.screen.currTerminal = k.currentTerminal) {page : Terminal → Page}
    (h : ∀ u, Shows k.screen u (page u)) (es : List DisplayEvent) :
    (∀ t, Shows (displayed k es).screen t (replay t k.currentTerminal (page t) es)) ∧
      (displayed k es).screen.currTerminal = (displayed k es).currentTerminal := by
  induction es generalizing k page with
  | nil => exact ⟨h, hagree⟩
  | cons e es ih =>
    obtain ⟨hcurrent, hagree'⟩ := agree_step hagree h e
    have hrest := ih hagree' fun u => shows_step hagree h e u
    rw [hcurrent] at hrest
    exact hrest

/-- **Output isolation.** From cursors on their pages, after any sequence of events: each
terminal's page and cursor are those the events directed to it alone make; the two
variables for the terminal shown agree; and if the last event is a switch to another
terminal or a refresh, the 4 KB at VIDEO are the page of the terminal shown. -/
theorem output_isolation (hagree : k.screen.currTerminal = k.currentTerminal) {page : Terminal → Page}
    (h : ∀ u, Shows k.screen u (page u)) (es : List DisplayEvent) :
    (∀ t, Shows (displayed k es).screen t (replay t k.currentTerminal (page t) es)) ∧
    (displayed k es).screen.currTerminal = (displayed k es).currentTerminal ∧
    ∀ old e, es = old ++ [e] → (e = .refresh ∨ ∃ u, e = .switch u ∧ (displayed k old).currentTerminal ≠ u) →
      Screen.Painted (displayed k es).screen (displayed k es).currentTerminal := by
  obtain ⟨hpages, hvars⟩ := shows_replay hagree h es
  refine ⟨hpages, hvars, ?_⟩
  rintro old e rfl he
  rw [displayed_concat]
  exact painted_step (shows_replay hagree h old).2 he

/-- The page of a terminal of zeros. -/
def zeroPage : Page := { Page.blank with cells := fun _ => 0 }

/-- Output to all terminals, around a switch and a reset. -/
def mixedOutput : List DisplayEvent :=
  [.putc 0x61 1, .switch 1, .puts [0x62, 0x0A] 0, .reset, .terminalWrite [0x63] 2]

theorem output_isolation_boot :
    (∀ t, Shows (displayed bootConsole.kbd (mixedOutput ++ [.refresh])).screen t
      (replay t 0 zeroPage (mixedOutput ++ [.refresh]))) ∧
    Screen.Painted (displayed bootConsole.kbd (mixedOutput ++ [.refresh])).screen
      (displayed bootConsole.kbd (mixedOutput ++ [.refresh])).currentTerminal := by
  have h : ∀ u, Shows bootConsole.kbd.screen u ((fun _ => zeroPage) u) := fun _ => ⟨rfl, rfl, fun _ _ => rfl⟩
  obtain ⟨hpages, -, hpaint⟩ := output_isolation (k := bootConsole.kbd) rfl h (mixedOutput ++ [.refresh])
  exact ⟨hpages, hpaint mixedOutput .refresh rfl (Or.inl rfl)⟩

end Mp3Kernel
