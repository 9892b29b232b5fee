/-
# The screen is a window on one without end

A terminal's page forgets what scrolls out of it. The reference screen does not: it is a
roll of 80 columns on which each byte is placed where the cursor is, and whose cursor only
moves on. `Page.view` leaves out the attributes of a page, and a page on which bytes are
printed shows the last 25 rows the reference has got to (`screen_refinement`).

`putc` scrolls in two places, after a newline in the last row and after a character in
the last cell; on the roll, both are the cursor's step to a row that the window has not
shown yet.

Key definitions: `Page.view`, `refPutc`, `reference`, `Attribs`.
Key theorems: `view_put`, `view_erase`, `onto_putc`, `screen_refinement`.
-/
import Mp3Kernel.Page
import Mp3Kernel.Keyboard
import Mp3Kernel.Basis.Roll

namespace Mp3Kernel

open Typing Terminal

/-- The cursor and the characters of a page. -/
def Page.view (p : Page) : View 25 80 UInt8 := ⟨p.y, p.x, fun i j => p.cells ((80 * i + j) * 2)⟩

/-- A byte on the reference screen. -/
def refPutc (r : Roll 80 UInt8) (c : UInt8) : Roll 80 UInt8 :=
  if c = 0x0A ∨ c = 0x0D then r.newline else if c = 0 then r else r.put c

/-- The reference screen after a byte string. -/
def reference (bytes : List UInt8) : Roll 80 UInt8 := bytes.foldl refPutc (Roll.empty (by decide))

/-- All attributes of a page are ATTRIB. -/
def Attribs (p : Page) : Prop := ∀ i, i % 2 = 1 → p.cells i = attrib

/-! ### A page without its attributes -/

section View

variable {p : Page}

theorem cursor_eq_iff (p : Page) (i : Fin 25) (j : Fin 80) :
    (80 * i.val + j.val) * 2 = p.cursor ↔ i = p.y ∧ j = p.x := by
  unfold Page.cursor
  have hcell : 80 * i.val + j.val = 80 * p.y.val + p.x.val ↔ i.val = p.y.val ∧ j = p.x := Roll.cell_eq_iff j p.x
  rw [Fin.ext_iff, ← hcell]
  omega

theorem view_write (p : Page) (c : UInt8) : (p.write c).view = p.view.write c := by
  refine View.ext rfl rfl (funext fun i => funext fun j => ?_)
  show Function.update (Function.update p.cells p.cursor c) (p.cursor + 1) attrib ((80 * i.val + j.val) * 2) =
    if i = p.y ∧ j = p.x then c else p.cells ((80 * i.val + j.val) * 2)
  have hodd : (80 * i.val + j.val) * 2 ≠ p.cursor + 1 := by
    unfold Page.cursor
    omega
  rw [Function.update_of_ne hodd, Function.update_apply]
  simp only [cursor_eq_iff]

theorem view_scrolled (cells : ℕ → UInt8) (i : Fin 25) (j : Fin 80) :
    Page.scrolled cells ((80 * i + j) * 2) =
      View.scrolled 0x20 (fun (i : Fin 25) (j : Fin 80) => cells ((80 * i + j) * 2)) i j := by
  unfold Page.scrolled View.scrolled
  rw [if_neg (by omega)]
  by_cases hi : i.val + 1 < 25
  · rw [if_pos (by omega), dif_pos hi]
    show cells ((80 * i.val + j.val) * 2 + 160) = cells ((80 * (i.val + 1) + j.val) * 2)
    congr 1
    ring
  · rw [if_neg (by omega), dif_neg hi]

theorem view_newline (p : Page) : Page.view { p.down with x := 0 } = p.view.newline 0x20 := by
  unfold Page.down View.newline
  by_cases hlast : p.y.val + 1 < 25
  · rw [dif_pos hlast, dif_pos (show p.view.row.val + 1 < 25 from hlast)]
    rfl
  · rw [dif_neg hlast, dif_neg (show ¬ p.view.row.val + 1 < 25 from hlast)]
    exact View.ext rfl rfl (funext fun i => funext fun j => view_scrolled p.cells i j)

theorem view_put (p : Page) {c : UInt8} (hnl : ¬ (c = 0x0A ∨ c = 0x0D)) (h0 : c ≠ 0) :
    (p.putc c).view = p.view.put 0x20 c := by
  unfold Page.putc View.put View.advance
  rw [if_neg hnl, if_neg h0, ← view_write]
  by_cases hx : p.x.val + 1 < 80
  · rw [dif_pos hx, dif_pos (show (p.write c).view.col.val + 1 < 80 from hx)]
    rfl
  · rw [dif_neg hx, dif_neg (show ¬ (p.write c).view.col.val + 1 < 80 from hx)]
    exact view_newline (p.write c)

/-- A page on which a character can be erased. -/
theorem view_erase {v : View 25 80 UInt8} (hv : p.view.erase 0x20 = some v) :
    ∃ p', p.erase = some p' ∧ p'.view = v := by
  unfold View.erase View.retreat at hv
  unfold Page.erase
  by_cases hx : 0 < p.x.val
  · rw [if_pos (show 0 < p.view.col.val from hx), Option.map_some, Option.some.injEq] at hv
    rw [if_pos hx]
    exact ⟨_, rfl, (view_write _ _).trans hv⟩
  · rw [if_neg (show ¬ 0 < p.view.col.val from hx)] at hv
    rw [if_neg hx]
    by_cases hy : 0 < p.y.val
    · rw [if_pos (show 0 < p.view.row.val from hy), Option.map_some, Option.some.injEq] at hv
      rw [if_pos hy]
      exact ⟨_, rfl, (view_write _ _).trans hv⟩
    · rw [if_neg (show ¬ 0 < p.view.row.val from hy)] at hv
      exact absurd hv (by simp)

end View

/-! ### The page and the roll -/

/-- A byte printed on a page goes to the roll the page is a window on. -/
theorem onto_putc {top : ℕ} {r : Roll 80 UInt8} {p : Page} (ho : Onto top 0x20 r p.view) (c : UInt8) :
    Onto (follow 25 top (refPutc r c).row) 0x20 (refPutc r c) (p.putc c).view := by
  unfold refPutc
  by_cases hnl : c = 0x0A ∨ c = 0x0D
  · have hview : (p.putc c).view = p.view.newline 0x20 := by
      unfold Page.putc
      rw [if_pos hnl]
      exact view_newline p
    rw [if_pos hnl, hview]
    exact ho.newline
  · rw [if_neg hnl]
    by_cases h0 : c = 0
    · have hsame : p.putc c = p := by
        unfold Page.putc
        rw [if_neg hnl, if_pos h0]
      rw [if_pos h0, hsame, ho.settled]
      exact ho
    · rw [if_neg h0, view_put p hnl h0]
      exact ho.put c

theorem row_le_refPutc (r : Roll 80 UInt8) (c : UInt8) : r.row ≤ (refPutc r c).row := by
  unfold refPutc
  split_ifs
  · exact Nat.le_succ _
  · exact le_refl _
  · exact Roll.row_le_advance (r.write c)

theorem onto_blank : Onto 0 0x20 (Roll.empty (by decide)) Page.blank.view := by
  refine ⟨rfl, rfl, fun i j => ?_, fun _ _ _ => rfl⟩
  show (if ((80 * i.val + j.val) * 2) % 2 = 1 then attrib else 0x20) = _
  rw [if_neg (by omega)]
  rfl

theorem attribs_blank : Attribs Page.blank := fun i hi => by
  show (if i % 2 = 1 then attrib else 0x20) = _
  rw [if_pos hi]

theorem attribs_putc {p : Page} (h : Attribs p) (c : UInt8) : Attribs (p.putc c) := by
  have hwrite : Attribs (p.write c) := by
    intro i hi
    show Function.update (Function.update p.cells p.cursor c) (p.cursor + 1) attrib i = attrib
    have hne : i ≠ p.cursor := by
      unfold Page.cursor
      omega
    rw [Function.update_apply, Function.update_of_ne hne, h i hi, ite_self]
  have hdown : ∀ {q : Page}, Attribs q → Attribs q.down := by
    intro q hq i hi
    unfold Page.down
    split_ifs
    · exact hq i hi
    · show Page.scrolled q.cells i = attrib
      exact if_pos hi
  unfold Page.putc
  split_ifs
  · exact fun i hi => hdown h i hi
  · exact h
  · exact fun i hi => hwrite i hi
  · exact fun i hi => hdown hwrite i hi

theorem attribs_foldl {p : Page} (h : Attribs p) (bytes : List UInt8) : Attribs (bytes.foldl Page.putc p) := by
  induction bytes generalizing p with
  | nil => exact h
  | cons c bytes ih => exact ih (attribs_putc h c)

/-! ### The screen -/

/-- **Screen refinement.** All bytes of a string are written to a terminal whose page is
blank, with the cursor in its first cell. Then the cursor and the 80 × 25 cells in video
memory are those of the window on the reference screen whose last row is the 25th, or the
row of the reference cursor if that is further down; a cell the reference has not written
is a space; and all attributes are ATTRIB. -/
theorem screen_refinement {s : Screen} {t : Terminal} (h : Shows s t Page.blank) (bytes : List UInt8) :
    let s' := Screen.terminalWrite t bytes s
    let r := reference bytes
    s'.screenX t = r.col.val ∧ s'.screenY t = (min r.row 24 : ℕ) ∧
    ∀ (i : Fin 25) (j : Fin 80),
      s'.mem (vidmemPages t + ((80 * i.val + j.val) * 2 : ℕ)) = (r.cells (r.row - 24 + i) j).getD 0x20 ∧
      s'.mem (vidmemPages t + ((80 * i.val + j.val) * 2 + 1 : ℕ)) = attrib := by
  intro s' r
  obtain ⟨hshows, -⟩ := Screen.shows_terminalWrite bytes h
  obtain ⟨p, hp⟩ : ∃ p, p = bytes.foldl Page.putc Page.blank := ⟨_, rfl⟩
  have honto : Onto (follow 25 0 r.row) 0x20 r p.view := by
    have hstep : ∀ top r p c, Onto top 0x20 r (Page.view p) →
        Onto (follow 25 top (refPutc r c).row) 0x20 (refPutc r c) (Page.view (p.putc c)) :=
      fun _ _ _ c ho => onto_putc ho c
    rw [hp]
    exact Onto.foldl row_le_refPutc hstep onto_blank bytes
  have hattribs : Attribs p := by
    rw [hp]
    exact attribs_foldl attribs_blank bytes
  have htop : follow 25 0 r.row = r.row - 24 := by
    unfold follow
    omega
  rw [← hp] at hshows
  rw [htop] at honto
  have hrow : r.row = r.row - 24 + p.y.val := honto.row
  refine ⟨?_, ?_, fun i j => ⟨?_, ?_⟩⟩
  · calc s'.screenX t = p.x.val := hshows.x
      _ = r.col.val := congrArg (fun x : Fin 80 => (x.val : ℤ)) honto.col.symm
  · calc s'.screenY t = p.y.val := hshows.y
      _ = (min r.row 24 : ℕ) := by omega
  · calc s'.mem (vidmemPages t + ((80 * i.val + j.val) * 2 : ℕ)) = p.view.cells i j := hshows.cells _ (by omega)
      _ = (r.cells (r.row - 24 + i) j).getD 0x20 := honto.cells i j
  · calc s'.mem (vidmemPages t + ((80 * i.val + j.val) * 2 + 1 : ℕ)) = p.cells ((80 * i.val + j.val) * 2 + 1) :=
        hshows.cells _ (by omega)
      _ = attrib := hattribs _ (by omega)

/-- A character, the newlines that scroll it away, and another one. -/
def scrolledAway : List UInt8 := 0x61 :: List.replicate 25 0x0A ++ [0x62]

theorem screen_refinement_scrolled :
    let s' := Screen.terminalWrite 0 scrolledAway bootConsole.kbd.screen.reset
    s'.screenX 0 = 1 ∧ s'.screenY 0 = 24 ∧ s'.mem (vidmemPages 0 + (3840 : ℕ)) = 0x62 ∧
      s'.mem (vidmemPages 0 + (0 : ℕ)) = 0x20 := by
  intro s'
  have hblank : Shows bootConsole.kbd.screen.reset 0 Page.blank := (Screen.shows_reset bootConsole.kbd.screen).1
  obtain ⟨hx, hy, hcells⟩ := screen_refinement hblank scrolledAway
  have hfacts : (reference scrolledAway).col.val = 1 ∧ (reference scrolledAway).row = 25 ∧
      (reference scrolledAway).cells 25 0 = some 0x62 ∧ (reference scrolledAway).cells 1 0 = none := by decide
  obtain ⟨hcol, hrow, hlast, hfirst⟩ := hfacts
  have hlow : (80 * (24 : Fin 25).val + (0 : Fin 80).val) * 2 = 3840 := by decide
  have hcorner : (80 * (0 : Fin 25).val + (0 : Fin 80).val) * 2 = 0 := by decide
  have hbottom := (hcells 24 0).1
  have htop := (hcells 0 0).1
  rw [hcol] at hx
  rw [hrow] at hy hbottom htop
  rw [hlow] at hbottom
  rw [hcorner] at htop
  refine ⟨hx, hy, hbottom.trans ?_, htop.trans ?_⟩
  · show ((reference scrolledAway).cells 25 0).getD 0x20 = 0x62
    rw [hlast, Option.getD_some]
  · show ((reference scrolledAway).cells 1 0).getD 0x20 = 0x20
    rw [hfirst, Option.getD_none]

end Mp3Kernel
