/-
# A page, and the screen as three of them

What one terminal shows is a page: 25 rows of 80 cells and a cursor that is always on
one of them. `Page` says what the operations of lib.c do to a page, with no addresses
and no counters out of range.

`Shows s t p` says that terminal `t` of the screen `s` is the page `p`. As long as that
holds, each function of lib.c does to the memory what the page operation says, and
touches nothing else: no byte of another page, no other cursor, and no byte behind the
4000 visible ones (`Touches`).

Key definitions: `Page`, `Shows`, `Touches`.
Key theorems: `vertScroll_spec`, `shows_putc`, `shows_backspace`, `shows_reset`.
-/
import Mp3Kernel.Screen
import Mp3Kernel.Strings

namespace Mp3Kernel

open Loop

/-! ### Pages -/

/-- A page: the cursor, and a character byte and an attribute byte for each cell. -/
structure Page where
  x : Fin 80
  y : Fin 25
  cells : ℕ → UInt8

namespace Page

/-- The offset of the cursor's cell. -/
def cursor (p : Page) : ℕ := (80 * p.y + p.x) * 2

/-- The cells one row up, and a blank last row. -/
def scrolled (cells : ℕ → UInt8) : ℕ → UInt8 :=
  fun i => if i % 2 = 1 then attrib else if i < 3840 then cells (i + 160) else 0x20

/-- The cursor moves to the next row; at the last one the page scrolls. -/
def down (p : Page) : Page :=
  if h : p.y.val + 1 < 25 then { p with y := ⟨p.y.val + 1, h⟩ } else { p with cells := scrolled p.cells }

/-- A character at the cursor. -/
def write (p : Page) (c : UInt8) : Page :=
  { p with cells := Function.update (Function.update p.cells p.cursor c) (p.cursor + 1) attrib }

/-- A character is printed. -/
def putc (p : Page) (c : UInt8) : Page :=
  if c = 0x0A ∨ c = 0x0D then { p.down with x := 0 }
  else if c = 0 then p
  else if h : p.x.val + 1 < 80 then { p.write c with x := ⟨p.x.val + 1, h⟩ }
  else { (p.write c).down with x := 0 }

/-- The character before the cursor is erased; there is none in the top left corner. -/
def erase (p : Page) : Option Page :=
  if 0 < p.x.val then some (write { p with x := ⟨p.x.val - 1, by omega⟩ } 0x20)
  else if 0 < p.y.val then some (write { p with x := 79, y := ⟨p.y.val - 1, by omega⟩ } 0x20)
  else none

/-- A page with nothing on it. -/
def blank : Page := ⟨0, 0, fun i => if i % 2 = 1 then attrib else 0x20⟩

theorem cursor_lt (p : Page) : p.cursor + 1 < 4000 := by
  unfold cursor
  omega

end Page

/-! ### The page in the memory -/

/-- Terminal `t` shows the page `p`. -/
structure Shows (s : Screen) (t : Terminal) (p : Page) : Prop where
  x : s.screenX t = p.x.val
  y : s.screenY t = p.y.val
  cells : ∀ i : ℕ, i < 4000 → s.mem (vidmemPages t + i) = p.cells i

/-- Of the pages and cursors, only those of terminal `t` may have changed, and only the
visible bytes of the page. -/
structure Touches (t : Terminal) (s s' : Screen) : Prop where
  mem : ∀ a, vid1 ≤ a → (a < vidmemPages t ∨ vidmemPages t + 4000 ≤ a) → s'.mem a = s.mem a
  x : ∀ u, u ≠ t → s'.screenX u = s.screenX u
  y : ∀ u, u ≠ t → s'.screenY u = s.screenY u
  shown : s'.currTerminal = s.currTerminal
  stores : ∃ new, s'.stores = new ++ s.stores ∧ ∀ o ∈ new, 0 ≤ o.2 ∧ o.2 < 4000

theorem vidmemPages_eq (t : Terminal) : vidmemPages t = 0xB9000 + 0x1000 * t.val := by
  fin_cases t <;> rfl

theorem Touches.refl (t : Terminal) (s : Screen) : Touches t s s :=
  ⟨fun _ _ _ => rfl, fun _ _ => rfl, fun _ _ => rfl, rfl, [], rfl, by simp⟩

theorem Touches.trans {t : Terminal} {s₁ s₂ s₃ : Screen} (h : Touches t s₁ s₂) (h' : Touches t s₂ s₃) :
    Touches t s₁ s₃ := by
  obtain ⟨new, hnew, hin⟩ := h.stores
  obtain ⟨new', hnew', hin'⟩ := h'.stores
  refine ⟨fun a h1 h2 => (h'.mem a h1 h2).trans (h.mem a h1 h2), fun u hu => (h'.x u hu).trans (h.x u hu),
    fun u hu => (h'.y u hu).trans (h.y u hu), h'.shown.trans h.shown, new' ++ new, ?_, ?_⟩
  · rw [hnew', hnew, List.append_assoc]
  · intro o ho
    rcases List.mem_append.mp ho with ho | ho
    · exact hin' o ho
    · exact hin o ho

theorem Shows.other {s s' : Screen} {t u : Terminal} {p : Page} (h : Shows s t p) (hne : t ≠ u)
    (htouch : Touches u s s') : Shows s' t p := by
  refine ⟨(htouch.x t hne).trans h.x, (htouch.y t hne).trans h.y, fun i hi => ?_⟩
  have hval : t.val ≠ u.val := fun he => hne (Fin.ext he)
  have h1 := vidmemPages_eq t
  have h2 := vidmemPages_eq u
  rw [htouch.mem _ (by simp only [vid1]; omega) (by omega)]
  exact h.cells i hi

namespace Screen

variable {s : Screen} {t : Terminal}

theorem store_store_mem (o : ℕ) (c a : UInt8) (i : ℕ) :
    ((s.store t o c).store t (o + 1) a).mem (vidmemPages t + i) =
      if i = o + 1 then a else if i = o then c else s.mem (vidmemPages t + i) := by
  show Function.update (Function.update s.mem _ _) _ _ _ = _
  rw [Function.update_apply, Function.update_apply]
  by_cases h1 : i = o + 1
  · rw [if_pos h1, if_pos (by omega)]
  · rw [if_neg h1, if_neg (by omega)]
    by_cases h2 : i = o
    · rw [if_pos h2, if_pos (by omega)]
    · rw [if_neg h2, if_neg (by omega)]

theorem touches_store_store {o : ℕ} (ho : o + 1 < 4000) (c a : UInt8) :
    Touches t s ((s.store t o c).store t (o + 1) a) := by
  refine ⟨fun b _ hb => ?_, fun _ _ => rfl, fun _ _ => rfl, rfl, [(t, (o : ℤ) + 1), (t, o)], rfl, ?_⟩
  · show Function.update (Function.update s.mem _ _) _ _ _ = _
    rw [Function.update_of_ne (by omega), Function.update_of_ne (by omega)]
  · simp only [List.mem_cons, List.not_mem_nil, or_false]
    rintro x (rfl | rfl)
    · exact ⟨by show (0 : ℤ) ≤ o + 1; omega, by show (o : ℤ) + 1 < 4000; omega⟩
    · exact ⟨by show (0 : ℤ) ≤ o; omega, by show (o : ℤ) < 4000; omega⟩

theorem touches_setX (s : Screen) (t : Terminal) (x : ℤ) : Touches t s (s.setX t x) :=
  ⟨fun _ _ _ => rfl, fun _ hu => Function.update_of_ne hu _ _, fun _ _ => rfl, rfl, [], rfl, by simp⟩

theorem touches_setY (s : Screen) (t : Terminal) (y : ℤ) : Touches t s (s.setY t y) :=
  ⟨fun _ _ _ => rfl, fun _ _ => rfl, fun _ hu => Function.update_of_ne hu _ _, rfl, [], rfl, by simp⟩

theorem touches_updateCursor (s : Screen) (t : Terminal) : Touches t s s.updateCursor :=
  ⟨fun _ _ _ => rfl, fun _ _ => rfl, fun _ _ => rfl, rfl, [], rfl, by simp⟩

/-- The cell loops of `vert_scroll` and `reset`: the character of cell `j` is a value
`w j` that the cells from `j` on decide, and these are still as they were. -/
theorem cells_loop (s : Screen) (t : Terminal) {v : ℕ → Screen → UInt8} {w : ℕ → UInt8} {n i : ℕ}
    (hi : i + n ≤ 2000)
    (hv : ∀ j s', i ≤ j → j < i + n →
      (∀ a : ℕ, 2 * j ≤ a → a < 4000 → s'.mem (vidmemPages t + a) = s.mem (vidmemPages t + a)) → v j s' = w j) :
    let s' := loop (fun j s => (s.store t (j * 2) (v j s)).store t (j * 2 + 1) attrib) n i s
    Touches t s s' ∧ s'.screenX = s.screenX ∧ s'.screenY = s.screenY ∧
      ∀ a : ℕ, a < 4000 → s'.mem (vidmemPages t + a) =
        if 2 * i ≤ a ∧ a < 2 * (i + n) then if a % 2 = 1 then attrib else w (a / 2)
        else s.mem (vidmemPages t + a) := by
  refine loop_inv (fun j s' => Touches t s s' ∧ s'.screenX = s.screenX ∧ s'.screenY = s.screenY ∧
    ∀ a : ℕ, a < 4000 → s'.mem (vidmemPages t + a) =
      if 2 * i ≤ a ∧ a < 2 * j then if a % 2 = 1 then attrib else w (a / 2) else s.mem (vidmemPages t + a)) ?_ ?_
  · refine ⟨Touches.refl t s, rfl, rfl, fun a _ => ?_⟩
    rw [if_neg (by omega)]
  · rintro j s' hij hjn ⟨htouch, hx, hy, hmem⟩
    have hval : v j s' = w j := by
      refine hv j s' hij hjn fun a ha ha' => ?_
      rw [hmem a ha', if_neg (by omega)]
    have hcast : ((j : ℤ) * 2) = ((j * 2 : ℕ) : ℤ) := by push_cast; rfl
    simp only [hval, hcast]
    refine ⟨htouch.trans (touches_store_store (by omega) _ _), hx, hy, fun a ha => ?_⟩
    rw [store_store_mem, hmem a ha]
    by_cases h1 : a = j * 2 + 1
    · rw [if_pos h1, if_pos (by omega), if_pos (by omega)]
    · rw [if_neg h1]
      by_cases h2 : a = j * 2
      · rw [if_pos h2, if_pos (by omega), if_neg (by omega), show a / 2 = j by omega]
      · rw [if_neg h2]
        by_cases h3 : 2 * i ≤ a ∧ a < 2 * j
        · rw [if_pos h3, if_pos (show 2 * i ≤ a ∧ a < 2 * (j + 1) by omega)]
        · rw [if_neg h3, if_neg (by omega)]

/-- `vert_scroll` moves the rows up and blanks the last one. -/
theorem vertScroll_spec (s : Screen) (t : Terminal) :
    Touches t s (s.vertScroll t) ∧ (s.vertScroll t).screenX = s.screenX ∧ (s.vertScroll t).screenY = s.screenY ∧
      ∀ a : ℕ, a < 4000 → (s.vertScroll t).mem (vidmemPages t + a) =
        Page.scrolled (fun i => s.mem (vidmemPages t + i)) a := by
  obtain ⟨s₁, hs₁⟩ : ∃ s₁, s₁ = loop (fun (j : ℕ) (s : Screen) =>
      (s.store t (j * 2) (s.mem (vidmemPages t + (j + numCols) * 2))).store t (j * 2 + 1) attrib) 1920 0 s := ⟨_, rfl⟩
  have hup := cells_loop s t (v := fun j s' => s'.mem (vidmemPages t + (j + numCols) * 2))
    (w := fun j => s.mem (vidmemPages t + ((j * 2 + 160 : ℕ) : ℤ))) (n := 1920) (i := 0) (by omega) (by
      intro j s' _ hj hsame
      rw [show ((j : ℤ) + numCols) * 2 = ((j * 2 + 160 : ℕ) : ℤ) by simp only [numCols]; push_cast; ring]
      exact hsame _ (by omega) (by omega))
  have hdown := cells_loop s₁ t (v := fun _ _ => 0x20) (w := fun _ => 0x20) (n := 80) (i := 1920) (by omega)
    (fun _ _ _ _ _ => rfl)
  rw [← hs₁] at hup
  have hs : s.vertScroll t = loop (fun (j : ℕ) (s : Screen) =>
      (s.store t (j * 2) 0x20).store t (j * 2 + 1) attrib) 80 1920 s₁ := by rw [hs₁]; rfl
  rw [hs]
  refine ⟨hup.1.trans hdown.1, hdown.2.1.trans hup.2.1, hdown.2.2.1.trans hup.2.2.1, fun a ha => ?_⟩
  rw [hdown.2.2.2 a ha, hup.2.2.2 a ha]
  unfold Page.scrolled
  by_cases hlow : a < 3840
  · rw [if_neg (by omega), if_pos (by omega), if_pos hlow]
    by_cases hodd : a % 2 = 1
    · rw [if_pos hodd, if_pos hodd]
    · rw [if_neg hodd, if_neg hodd, show a / 2 * 2 + 160 = a + 160 by omega]
  · rw [if_pos (by omega), if_neg hlow]

/-! ### The operations on a page that is shown -/

attribute [local irreducible] vertScroll

@[simp] theorem setX_mem (s : Screen) (t : Terminal) (x : ℤ) : (s.setX t x).mem = s.mem := rfl
@[simp] theorem setY_mem (s : Screen) (t : Terminal) (y : ℤ) : (s.setY t y).mem = s.mem := rfl
@[simp] theorem setX_screenX (s : Screen) (t : Terminal) (x : ℤ) : (s.setX t x).screenX t = x :=
  Function.update_self ..
@[simp] theorem setY_screenX (s : Screen) (t : Terminal) (y : ℤ) : (s.setY t y).screenX = s.screenX := rfl
@[simp] theorem setY_screenY (s : Screen) (t : Terminal) (y : ℤ) : (s.setY t y).screenY t = y :=
  Function.update_self ..
@[simp] theorem setX_screenY (s : Screen) (t : Terminal) (x : ℤ) : (s.setX t x).screenY = s.screenY := rfl

variable {p : Page}

theorem shows_setX (h : Shows s t p) {x : ℤ} {x' : Fin 80} (hx : x = x'.val) :
    Shows (s.setX t x) t { p with x := x' } :=
  ⟨(Function.update_self ..).trans hx, h.y, h.cells⟩

theorem shows_setY (h : Shows s t p) {y : ℤ} {y' : Fin 25} (hy : y = y'.val) :
    Shows (s.setY t y) t { p with y := y' } :=
  ⟨h.x, (Function.update_self ..).trans hy, h.cells⟩

theorem shows_updateCursor (h : Shows s t p) : Shows s.updateCursor t p := ⟨h.x, h.y, h.cells⟩

theorem scroll_cells {cells : ℕ → UInt8} (h : ∀ i : ℕ, i < 4000 → s.mem (vidmemPages t + i) = cells i) {i : ℕ}
    (hi : i < 4000) : (s.vertScroll t).mem (vidmemPages t + i) = Page.scrolled cells i := by
  rw [(vertScroll_spec s t).2.2.2 i hi]
  simp only [Page.scrolled]
  by_cases hlow : i < 3840
  · rw [if_pos hlow, if_pos hlow, h (i + 160) (by omega)]
  · rw [if_neg hlow, if_neg hlow]

/-- The offset both kinds of `putc` compute is the cursor's cell. -/
theorem offset_eq (h : Shows s t p) : (numCols * s.screenY t + s.screenX t) * 2 = p.cursor := by
  rw [h.x, h.y]
  unfold Page.cursor
  push_cast
  rfl

theorem shows_write (h : Shows s t p) {o : ℤ} (ho : o = p.cursor) (c : UInt8) :
    Shows ((s.store t o c).store t (o + 1) attrib) t (p.write c) ∧
      Touches t s ((s.store t o c).store t (o + 1) attrib) := by
  subst ho
  refine ⟨⟨h.x, h.y, fun i hi => ?_⟩, touches_store_store p.cursor_lt c attrib⟩
  rw [store_store_mem, h.cells i hi]
  show _ = Function.update (Function.update p.cells _ _) _ _ _
  rw [Function.update_apply, Function.update_apply]

/-- A new row, in the way `\n` makes it. -/
theorem shows_newline (h : Shows s t p) {s' : Screen} (hs' : s' = (s.setY t (s.screenY t + 1)).setX t 0) :
    Shows (if s'.screenY t > numRows - 1 then (s'.vertScroll t).setY t (numRows - 1) else s') t
      { p.down with x := 0 } := by
  have hy : s'.screenY t = p.y.val + 1 := by
    rw [hs', ← h.y]
    exact Function.update_self ..
  have hx : s'.screenX t = 0 := by
    rw [hs']
    exact Function.update_self ..
  have hcells : ∀ i : ℕ, i < 4000 → s'.mem (vidmemPages t + i) = p.cells i := by
    rw [hs']
    exact h.cells
  unfold Page.down
  by_cases hlast : p.y.val + 1 < 25
  · rw [if_neg (by rw [hy]; simp only [numRows]; omega), dif_pos hlast]
    exact ⟨hx, by rw [hy]; push_cast; rfl, hcells⟩
  · rw [if_pos (by rw [hy]; simp only [numRows]; omega), dif_neg hlast]
    have h24 : numRows - 1 = (p.y.val : ℤ) := by
      simp only [numRows]
      omega
    refine ⟨?_, (setY_screenY ..).trans h24, fun a ha => ?_⟩
    · rw [setY_screenX, (vertScroll_spec s' t).2.1, hx]
      rfl
    · rw [setY_mem]
      exact scroll_cells hcells ha

/-- A new row, in the way a character in the last column makes it. -/
theorem shows_wrap (h : Shows s t p) (hlast : p.x.val = 79) {s' r : Screen} (hs' : s' = s.setX t (s.screenX t + 1))
    (hr : r = if s'.screenY t + (s'.screenX t).tdiv numCols = numRows then (s'.vertScroll t).setY t (numRows - 1)
      else s'.setY t ((s'.screenY t + (s'.screenX t).tdiv numCols).tmod numRows)) :
    Shows (r.setX t ((r.screenX t).tmod numCols)) t { p.down with x := 0 } := by
  have hx : s'.screenX t = 80 := by
    rw [hs', setX_screenX, h.x, hlast]
    rfl
  have hdiv : (80 : ℤ).tdiv numCols = 1 := rfl
  have hy : s'.screenY t = p.y.val := by
    rw [hs', ← h.y]
    rfl
  have hcells : ∀ i : ℕ, i < 4000 → s'.mem (vidmemPages t + i) = p.cells i := by
    rw [hs']
    exact h.cells
  rw [hx, hdiv, hy] at hr
  unfold Page.down
  by_cases hrow : p.y.val + 1 < 25
  · rw [if_neg (by simp only [numRows]; omega),
      Int.tmod_eq_of_lt (by omega) (by simp only [numRows]; omega)] at hr
    rw [dif_pos hrow, hr]
    refine ⟨?_, ?_, hcells⟩
    · rw [setX_screenX, setY_screenX, hx]
      rfl
    · rw [setX_screenY, setY_screenY]
      push_cast
      rfl
  · rw [if_pos (by simp only [numRows]; omega)] at hr
    have h24 : numRows - 1 = (p.y.val : ℤ) := by
      simp only [numRows]
      omega
    rw [dif_neg hrow, hr]
    refine ⟨?_, ?_, fun a ha => ?_⟩
    · rw [setX_screenX, setY_screenX, (vertScroll_spec s' t).2.1, hx]
      rfl
    · rw [setX_screenY, setY_screenY, h24]
    · rw [setX_mem, setY_mem]
      exact scroll_cells hcells ha

/-- `putc` prints on its page. -/
theorem shows_putc (h : Shows s t p) (c : UInt8) : Shows (s.putc c t) t (p.putc c) := by
  unfold putc Page.putc
  refine shows_updateCursor ?_
  by_cases hnl : c = 0x0A ∨ c = 0x0D
  · rw [if_pos hnl, if_pos hnl]
    exact shows_newline h rfl
  · rw [if_neg hnl, if_neg hnl]
    by_cases h0 : c = 0
    · rw [if_pos h0, if_pos h0]
      exact h
    · rw [if_neg h0, if_neg h0]
      obtain ⟨hw, -⟩ := shows_write h (offset_eq h) c
      obtain ⟨s₁, hs₁⟩ : ∃ s₁, s₁ = (s.store t ((numCols * s.screenY t + s.screenX t) * 2) c).store t
          ((numCols * s.screenY t + s.screenX t) * 2 + 1) attrib := ⟨_, rfl⟩
      rw [← hs₁] at hw
      simp only [← hs₁]
      by_cases hx : p.x.val + 1 < 80
      · rw [dif_pos hx]
        have hx1 : s₁.screenX t + 1 = ((p.x.val + 1 : ℕ) : ℤ) := by
          rw [hw.x]
          push_cast
          rfl
        have hdiv : ((p.x.val + 1 : ℕ) : ℤ).tdiv numCols = 0 :=
          Int.tdiv_eq_zero_of_lt (by omega) (by simp only [numCols]; omega)
        have hmod : ((p.x.val + 1 : ℕ) : ℤ).tmod numCols = ((p.x.val + 1 : ℕ) : ℤ) :=
          Int.tmod_eq_of_lt (by omega) (by simp only [numCols]; omega)
        have hy : s₁.screenY t = p.y.val := hw.y
        have hymod : (p.y.val : ℤ).tmod numRows = p.y.val :=
          Int.tmod_eq_of_lt (by omega) (by simp only [numRows]; omega)
        simp only [setX_screenX, setX_screenY, hx1, hdiv, hy, add_zero]
        rw [if_neg (by simp only [numRows]; omega)]
        refine ⟨?_, ?_, hw.cells⟩
        · rw [setX_screenX, setY_screenX, setX_screenX, hmod]
        · rw [setX_screenY, setY_screenY, hymod]
          rfl
      · rw [dif_neg hx]
        have hlast : (p.write c).x.val = 79 := show p.x.val = 79 by omega
        exact shows_wrap hw hlast rfl rfl

/-- `putc` touches no other terminal. -/
theorem touches_putc (h : Shows s t p) (c : UInt8) : Touches t s (s.putc c t) := by
  unfold putc
  refine Touches.trans ?_ (touches_updateCursor _ t)
  by_cases hnl : c = 0x0A ∨ c = 0x0D
  · rw [if_pos hnl]
    have hrow := (touches_setY s t (s.screenY t + 1)).trans (touches_setX _ t 0)
    dsimp only
    split_ifs
    · exact (hrow.trans (vertScroll_spec _ t).1).trans (touches_setY _ t _)
    · exact hrow
  · rw [if_neg hnl]
    by_cases h0 : c = 0
    · rw [if_pos h0]
      exact Touches.refl t s
    · rw [if_neg h0]
      have hcol := (shows_write h (offset_eq h) c).2.trans (touches_setX _ t (s.screenX t + 1))
      dsimp only
      refine Touches.trans ?_ (touches_setX _ t _)
      split_ifs
      · exact (hcol.trans (vertScroll_spec _ t).1).trans (touches_setY _ t _)
      · exact hcol.trans (touches_setY _ t _)

theorem touches_putcforcenoscroll (h : Shows s t p) (c : UInt8) : Touches t s (s.putcforcenoscroll c t) := by
  unfold putcforcenoscroll
  refine Touches.trans ?_ (touches_updateCursor _ t)
  split_ifs
  · exact (touches_setY s t _).trans (touches_setX _ t _)
  · exact (((shows_write h (offset_eq h) c).2.trans (touches_setX _ t _)).trans (touches_setX _ t _)).trans
      (touches_setY _ t _)

theorem shows_terminalWrite : ∀ (bytes : List UInt8) {s : Screen} {p : Page}, Shows s t p →
    Shows (terminalWrite t bytes s) t (bytes.foldl Page.putc p) ∧ Touches t s (terminalWrite t bytes s)
  | [], s, _, h => ⟨h, Touches.refl t s⟩
  | c :: bytes, _, _, h =>
    have hrest := shows_terminalWrite bytes (shows_putc h c)
    ⟨hrest.1, (touches_putc h c).trans hrest.2⟩

theorem puts_eq (t : Terminal) : ∀ (str : List UInt8) (s : Screen), puts t str s = terminalWrite t (cstr str) s
  | [], _ => rfl
  | c :: str, s => by
    rw [puts, cstr_cons]
    by_cases h0 : c = 0
    · rw [if_neg (by simpa using h0), if_pos h0]
      rfl
    · rw [if_pos h0, if_neg h0]
      exact puts_eq t str _

/-- `backspace_helper` erases the character before the cursor, if there is one. -/
theorem shows_backspace (h : Shows s t p) {p' : Page} (hp : p.erase = some p') :
    Shows (s.backspaceHelper t) t p' ∧ Touches t s (s.backspaceHelper t) := by
  unfold Page.erase at hp
  unfold backspaceHelper
  by_cases hx : 0 < p.x.val
  · rw [if_pos hx, Option.some.injEq] at hp
    rw [if_neg (by rw [h.x]; omega), ← hp]
    -- one column back, a blank, which moves the cursor on, and back again
    obtain ⟨q, hq⟩ : ∃ q : Page, q = { p with x := ⟨p.x.val - 1, by omega⟩ } := ⟨_, rfl⟩
    have hback : Shows (s.setX t (s.screenX t - 1)) t q := by
      rw [hq]
      refine shows_setX h ?_
      rw [h.x]
      show (p.x.val : ℤ) - 1 = ((p.x.val - 1 : ℕ) : ℤ)
      omega
    have hqx : q.x.val + 1 < 80 := by
      rw [hq]
      show p.x.val - 1 + 1 < 80
      omega
    have hput := shows_putc hback 0x20
    have hputc : q.putc 0x20 = { q.write 0x20 with x := ⟨q.x.val + 1, hqx⟩ } := by
      unfold Page.putc
      rw [if_neg (by decide), if_neg (by decide), dif_pos hqx]
    refine ⟨shows_updateCursor ?_, ?_⟩
    · rw [← hq]
      rw [hputc] at hput
      have hx' : ((s.setX t (s.screenX t - 1)).putc 0x20 t).screenX t - 1 = q.x.val := by
        rw [hput.x]
        push_cast
        ring
      exact shows_setX hput hx'
    · exact (((touches_setX s t _).trans (touches_putc hback 0x20)).trans (touches_setX _ t _)).trans
        (touches_updateCursor _ t)
  · rw [if_neg hx] at hp
    by_cases hy : 0 < p.y.val
    · rw [if_pos hy, Option.some.injEq] at hp
      rw [if_pos (by rw [h.x]; omega), ← hp]
      obtain ⟨q, hq⟩ : ∃ q : Page, q = { p with x := 79, y := ⟨p.y.val - 1, by omega⟩ } := ⟨_, rfl⟩
      have hup : Shows ((s.setX t (numCols - 1)).setY t ((s.setX t (numCols - 1)).screenY t - 1)) t q := by
        rw [hq]
        have h79 : Shows (s.setX t (numCols - 1)) t { p with x := 79 } := shows_setX h rfl
        refine shows_setY h79 ?_
        rw [setX_screenY, h.y]
        show (p.y.val : ℤ) - 1 = ((p.y.val - 1 : ℕ) : ℤ)
        omega
      rw [← hq]
      have hw := (shows_write hup (offset_eq hup) 0x20).1
      refine ⟨shows_updateCursor ⟨?_, ?_, hw.cells⟩, ?_⟩
      · rw [setY_screenX, setX_screenX]
        rw [hq]
        rfl
      · rw [setY_screenY]
        exact hup.y
      · exact (((((touches_setX s t _).trans (touches_setY _ t _)).trans (touches_putcforcenoscroll hup 0x20)).trans
          (touches_setX _ t _)).trans (touches_setY _ t _)).trans (touches_updateCursor _ t)
    · rw [if_neg hy] at hp
      exact absurd hp (by simp)

/-- `reset` blanks the page of the terminal shown. -/
theorem shows_reset (s : Screen) :
    Shows s.reset s.currTerminal Page.blank ∧ Touches s.currTerminal s s.reset := by
  obtain ⟨s₁, hs₁⟩ : ∃ s₁, s₁ = loop (fun (i : ℕ) (s : Screen) =>
      { s with mem := Function.update (Function.update s.mem (video + i * 2) 0x20) (video + i * 2 + 1) attrib })
      2000 0 s := ⟨_, rfl⟩
  have hfront : Touches s.currTerminal s s₁ := by
    rw [hs₁]
    refine loop_inv (fun _ s' => Touches s.currTerminal s s') (Touches.refl _ s) fun j s' _ hj h => h.trans ?_
    refine ⟨fun a ha _ => ?_, fun _ _ => rfl, fun _ _ => rfl, rfl, [], rfl, by simp⟩
    simp only [vid1] at ha
    simp only [video]
    rw [Function.update_of_ne (by omega), Function.update_of_ne (by omega)]
  have hback := cells_loop s₁ s.currTerminal (v := fun _ _ => 0x20) (w := fun _ => 0x20) (n := 2000) (i := 0) (by omega)
    (fun _ _ _ _ _ => rfl)
  have hs : s.reset = updateCursor (((loop (fun (j : ℕ) (s' : Screen) =>
      (s'.store s.currTerminal (j * 2) 0x20).store s.currTerminal (j * 2 + 1) attrib) 2000 0 s₁).setX
        s.currTerminal 0).setY s.currTerminal 0) := by rw [hs₁]; rfl
  rw [hs]
  refine ⟨shows_updateCursor ⟨?_, setY_screenY .., fun a ha => ?_⟩, ?_⟩
  · rw [setY_screenX, setX_screenX]
    rfl
  · rw [setY_mem, setX_mem, hback.2.2.2 a ha, if_pos (by omega)]
    rfl
  · exact (((hfront.trans hback.1).trans (touches_setX _ _ _)).trans (touches_setY _ _ _)).trans
      (touches_updateCursor _ _)

/-- The screen is a copy of a terminal's page. -/
def Painted (s : Screen) (t : Terminal) : Prop :=
  ∀ i : ℕ, i < fourKb → s.mem (video + i) = s.mem (vidmemPages t + i)

theorem copy_spec (s : Screen) (t u : Terminal) {i : ℕ} (hi : i < fourKb) :
    memcpy s.mem video (vidmemPages t) fourKb (vidmemPages u + i) = s.mem (vidmemPages u + i) ∧
      memcpy s.mem video (vidmemPages t) fourKb (video + i) = s.mem (vidmemPages t + i) := by
  have hu := vidmemPages_eq u
  simp only [fourKb] at hi
  constructor
  · refine memcpy_out (Or.inr ?_)
    simp only [video, fourKb]
    omega
  · rw [memcpy_in (by simp only [fourKb]; omega), show video + (i : ℤ) - video = i by ring]

theorem updateCurrTerm_eq (s : Screen) (t : Terminal) : s.updateCurrTerm t.val = { s with currTerminal := t } :=
  dif_pos (Nat.le_of_lt_succ t.isLt)

theorem painted_updateVidmem (s : Screen) (t : Terminal) : Painted (s.updateVidmem t) t := by
  intro i hi
  have h := copy_spec s t t hi
  exact h.2.trans h.1.symm

theorem shows_updateVidmem (h : Shows s t p) (u : Terminal) : Shows (s.updateVidmem u) t p :=
  ⟨h.x, h.y, fun i hi => (copy_spec s u t (by simp only [fourKb]; omega)).1.trans (h.cells i hi)⟩

theorem refreshVidmem_eq (s : Screen) :
    s.refreshVidmem = { s with mem := memcpy s.mem video (vidmemPages s.currTerminal) fourKb } := by
  unfold refreshVidmem
  generalize s.currTerminal = t
  fin_cases t <;> rfl

theorem painted_refreshVidmem (s : Screen) : Painted s.refreshVidmem s.currTerminal := by
  rw [refreshVidmem_eq]
  intro i hi
  have h := copy_spec s s.currTerminal s.currTerminal hi
  exact h.2.trans h.1.symm

theorem shows_refreshVidmem (h : Shows s t p) : Shows s.refreshVidmem t p := by
  rw [refreshVidmem_eq]
  exact ⟨h.x, h.y, fun i hi => (copy_spec s _ t (by simp only [fourKb]; omega)).1.trans (h.cells i hi)⟩

end Screen

end Mp3Kernel
