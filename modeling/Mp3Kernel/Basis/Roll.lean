/-
# A roll of paper, and a window on it

A `Roll` is written on as on a typewriter: it has `w` columns and no last row. A `View`
is what a terminal has of it: `h` rows, which move up when the cursor would leave them at
the bottom, so that the first one is lost and a blank one comes in.

`Onto top fill r v` says that the view `v` is a window on the roll `r`, from the row `top`
on, and that nothing has been written below it. Each operation on the view keeps it on
the roll, with the window as far down as the cursor has been (`follow`): what is lost at
the top of the view is still on the roll, and no row is lost or shown twice.

Key definitions: `Roll`, `View`, `Onto`, `follow`, `Overtyped`.
Key theorems: `Onto.newline`, `Onto.put`, `Onto.erase`, `Onto.foldl`, `Overtyped.put`, `Overtyped.erase`.
-/
import Mathlib.Tactic

namespace Typing

variable {w h : ℕ} {α : Type*}

/-- A roll with `w` columns: the cursor and the cells. -/
structure Roll (w : ℕ) (α : Type*) where
  row : ℕ
  col : Fin w
  /-- `none` where nothing has been written -/
  cells : ℕ → Fin w → Option α

/-- A view of `h` rows and `w` columns. -/
@[ext]
structure View (h w : ℕ) (α : Type*) where
  row : Fin h
  col : Fin w
  cells : Fin h → Fin w → α

/-! ### The roll -/

namespace Roll

/-- A roll with nothing on it. -/
def empty (hw : 0 < w) : Roll w α := ⟨0, ⟨0, hw⟩, fun _ _ => none⟩

/-- The cells before the cursor, counted row by row. -/
def place (r : Roll w α) : ℕ := w * r.row + r.col

/-- A glyph at the cursor. -/
def write (r : Roll w α) (a : α) : Roll w α :=
  { r with cells := fun i j => if i = r.row ∧ j = r.col then some a else r.cells i j }

/-- The cursor goes to the first column of the next row. -/
def newline (r : Roll w α) : Roll w α := { r with row := r.row + 1, col := ⟨0, r.col.pos⟩ }

/-- The cursor goes to the next column; behind the last one, to the next row. -/
def advance (r : Roll w α) : Roll w α :=
  if hc : r.col.val + 1 < w then { r with col := ⟨r.col.val + 1, hc⟩ } else r.newline

/-- A glyph is typed. -/
def put (r : Roll w α) (a : α) : Roll w α := (r.write a).advance

/-- The cursor goes back a column; from the first one, to the row before. -/
def retreat (r : Roll w α) : Roll w α :=
  if 0 < r.col.val then { r with col := ⟨r.col.val - 1, by omega⟩ }
  else { r with row := r.row - 1, col := ⟨w - 1, Nat.sub_one_lt_of_lt r.col.pos⟩ }

/-- The glyph before the cursor is covered with a blank. -/
def erase (r : Roll w α) (fill : α) : Roll w α := r.retreat.write fill

variable {r r' : Roll w α}

theorem cell_eq_iff {i i' : ℕ} (j j' : Fin w) : w * i + j.val = w * i' + j'.val ↔ i = i' ∧ j = j' := by
  constructor
  · intro heq
    have hdiv := congrArg (· / w) heq
    simp only [Nat.mul_add_div j.pos, Nat.div_eq_of_lt j.isLt, Nat.div_eq_of_lt j'.isLt, add_zero] at hdiv
    refine ⟨hdiv, Fin.ext ?_⟩
    rw [hdiv] at heq
    exact Nat.add_left_cancel heq
  · rintro ⟨rfl, rfl⟩
    rfl

theorem cursor_eq (hp : r'.place = r.place) : r'.row = r.row ∧ r'.col = r.col :=
  (cell_eq_iff r'.col r.col).mp hp

theorem write_cells (r : Roll w α) (a : α) (i : ℕ) (j : Fin w) :
    (r.write a).cells i j = if w * i + j = r.place then some a else r.cells i j := by
  show (if i = r.row ∧ j = r.col then some a else r.cells i j) = _
  simp only [place, cell_eq_iff]

@[simp] theorem advance_cells (r : Roll w α) : r.advance.cells = r.cells := by
  unfold advance
  split_ifs <;> rfl

@[simp] theorem retreat_cells (r : Roll w α) : r.retreat.cells = r.cells := by
  unfold retreat
  split_ifs <;> rfl

theorem put_cells (r : Roll w α) (a : α) (i : ℕ) (j : Fin w) :
    (r.put a).cells i j = if w * i + j = r.place then some a else r.cells i j := by
  rw [put, advance_cells]
  exact write_cells r a i j

theorem advance_place (r : Roll w α) : r.advance.place = r.place + 1 := by
  unfold advance place
  by_cases hc : r.col.val + 1 < w
  · rw [dif_pos hc]
    rfl
  · rw [dif_neg hc]
    have hlast : r.col.val + 1 = w := by omega
    calc w * (r.row + 1) + 0 = w * r.row + w := by ring
      _ = w * r.row + r.col + 1 := by omega

theorem put_place (r : Roll w α) (a : α) : (r.put a).place = r.place + 1 := advance_place (r.write a)

theorem retreat_place (hr : 0 < r.place) : r.retreat.place + 1 = r.place := by
  unfold retreat place at *
  by_cases hc : 0 < r.col.val
  · rw [if_pos hc]
    show w * r.row + (r.col.val - 1) + 1 = _
    omega
  · rw [if_neg hc]
    have hw := r.col.pos
    obtain ⟨m, hm⟩ : ∃ m, r.row = m + 1 := by
      refine Nat.exists_eq_succ_of_ne_zero fun h0 => ?_
      rw [h0, Nat.mul_zero] at hr
      omega
    rw [hm]
    show w * (m + 1 - 1) + (w - 1) + 1 = _
    calc w * m + (w - 1) + 1 = w * m + w := by omega
      _ = w * (m + 1) := by ring
      _ = w * (m + 1) + r.col := by omega

theorem erase_place (hr : 0 < r.place) (fill : α) : (r.erase fill).place + 1 = r.place := retreat_place hr

theorem erase_cells (hr : 0 < r.place) (fill : α) (i : ℕ) (j : Fin w) :
    (r.erase fill).cells i j = if w * i + j + 1 = r.place then some fill else r.cells i j := by
  rw [erase, write_cells, retreat_cells]
  have hp := retreat_place hr
  by_cases heq : w * i + j.val = r.retreat.place
  · rw [if_pos heq, if_pos (by omega)]
  · rw [if_neg heq, if_neg (by omega)]

theorem row_le_advance (r : Roll w α) : r.row ≤ r.advance.row := by
  unfold advance
  split_ifs
  · exact le_refl _
  · exact Nat.le_succ _

end Roll

/-! ### The view -/

namespace View

/-- A glyph at the cursor. -/
def write (v : View h w α) (a : α) : View h w α :=
  { v with cells := fun i j => if i = v.row ∧ j = v.col then a else v.cells i j }

/-- The rows one up, and a blank last one. -/
def scrolled (fill : α) (cells : Fin h → Fin w → α) : Fin h → Fin w → α :=
  fun i j => if hi : i.val + 1 < h then cells ⟨i.val + 1, hi⟩ j else fill

/-- The cursor goes to the next row; at the last one, the view scrolls. -/
def newline (fill : α) (v : View h w α) : View h w α :=
  if hr : v.row.val + 1 < h then { v with row := ⟨v.row.val + 1, hr⟩, col := ⟨0, v.col.pos⟩ }
  else { v with col := ⟨0, v.col.pos⟩, cells := scrolled fill v.cells }

/-- The cursor goes to the next column; behind the last one, to the next row. -/
def advance (fill : α) (v : View h w α) : View h w α :=
  if hc : v.col.val + 1 < w then { v with col := ⟨v.col.val + 1, hc⟩ } else v.newline fill

/-- A glyph is typed. -/
def put (fill : α) (v : View h w α) (a : α) : View h w α := (v.write a).advance fill

/-- The cursor goes back, if it can without leaving the view. -/
def retreat (v : View h w α) : Option (View h w α) :=
  if 0 < v.col.val then some { v with col := ⟨v.col.val - 1, by omega⟩ }
  else if 0 < v.row.val then
    some { v with row := ⟨v.row.val - 1, by omega⟩, col := ⟨w - 1, Nat.sub_one_lt_of_lt v.col.pos⟩ }
  else none

/-- The glyph before the cursor is covered with a blank. -/
def erase (fill : α) (v : View h w α) : Option (View h w α) := v.retreat.map fun v => v.write fill

end View

/-! ### The window -/

/-- A window of `h` rows at `top` moves down until it has the row `row`. -/
def follow (h top row : ℕ) : ℕ := max top (row + 1 - h)

/-- The view is the window at `top` on the roll, where what is not written shows as `fill`,
and nothing is written below the window. -/
structure Onto (top : ℕ) (fill : α) (r : Roll w α) (v : View h w α) : Prop where
  row : r.row = top + v.row
  col : r.col = v.col
  cells : ∀ i j, v.cells i j = (r.cells (top + i) j).getD fill
  below : ∀ i j, top + h ≤ i → r.cells i j = none

theorem follow_follow {a b : ℕ} (top : ℕ) (hab : a ≤ b) : follow h (follow h top a) b = follow h top b := by
  unfold follow
  omega

section Window

variable {top : ℕ} {fill : α} {r : Roll w α} {v : View h w α}

theorem Onto.settled (ho : Onto top fill r v) : follow h top r.row = top := by
  have hrow := ho.row
  have hlt := v.row.isLt
  unfold follow
  omega

theorem Onto.write (ho : Onto top fill r v) (a : α) : Onto top fill (r.write a) (v.write a) := by
  refine ⟨ho.row, ho.col, fun i j => ?_, fun i j hi => ?_⟩
  · show (if i = v.row ∧ j = v.col then a else v.cells i j) =
      (if top + i.val = r.row ∧ j = r.col then some a else r.cells (top + i) j).getD fill
    have hiff : (top + i.val = r.row ∧ j = r.col) ↔ (i = v.row ∧ j = v.col) := by
      rw [ho.row, ho.col, Nat.add_left_cancel_iff, ← Fin.ext_iff]
    by_cases hat : i = v.row ∧ j = v.col
    · rw [if_pos hat, if_pos (hiff.mpr hat)]
      rfl
    · rw [if_neg hat, if_neg fun hc => hat (hiff.mp hc)]
      exact ho.cells i j
  · have hrow := ho.row
    have hlt := v.row.isLt
    exact (if_neg fun hc => by omega).trans (ho.below i j hi)

theorem Onto.scrolled (ho : Onto top fill r v) (i : Fin h) (j : Fin w) :
    View.scrolled fill v.cells i j = (r.cells (top + 1 + i) j).getD fill := by
  unfold View.scrolled
  by_cases hi : i.val + 1 < h
  · rw [dif_pos hi, ho.cells]
    show (r.cells (top + (i.val + 1)) j).getD fill = _
    rw [show top + (i.val + 1) = top + 1 + i.val by omega]
  · rw [dif_neg hi, ho.below _ j (by omega)]
    rfl

theorem Onto.newline (ho : Onto top fill r v) :
    Onto (follow h top r.newline.row) fill r.newline (v.newline fill) := by
  have hrow := ho.row
  have hlt := v.row.isLt
  have hnext : r.newline.row = r.row + 1 := rfl
  unfold View.newline
  by_cases hr : v.row.val + 1 < h
  · have htop : follow h top r.newline.row = top := by
      unfold follow
      omega
    rw [htop, dif_pos hr]
    refine ⟨?_, rfl, ho.cells, ho.below⟩
    show r.row + 1 = top + (v.row.val + 1)
    omega
  · have htop : follow h top r.newline.row = top + 1 := by
      unfold follow
      omega
    rw [htop, dif_neg hr]
    refine ⟨?_, rfl, ho.scrolled, fun i j hi => ho.below i j (by omega)⟩
    show r.row + 1 = top + 1 + v.row.val
    omega

theorem Onto.advance (ho : Onto top fill r v) :
    Onto (follow h top r.advance.row) fill r.advance (v.advance fill) := by
  have hcol := congrArg Fin.val ho.col
  unfold Roll.advance View.advance
  by_cases hc : v.col.val + 1 < w
  · rw [dif_pos hc, dif_pos (show r.col.val + 1 < w by omega)]
    have hstay : follow h top r.row = top := ho.settled
    refine ⟨?_, ?_, ?_, ?_⟩
    · show r.row = follow h top r.row + v.row.val
      rw [hstay]
      exact ho.row
    · refine Fin.ext ?_
      show r.col.val + 1 = v.col.val + 1
      rw [hcol]
    · show ∀ i j, v.cells i j = (r.cells (follow h top r.row + i) j).getD fill
      rw [hstay]
      exact ho.cells
    · show ∀ i j, follow h top r.row + h ≤ i → r.cells i j = none
      rw [hstay]
      exact ho.below
  · rw [dif_neg hc, dif_neg (show ¬ r.col.val + 1 < w by omega)]
    exact ho.newline

theorem Onto.put (ho : Onto top fill r v) (a : α) :
    Onto (follow h top (r.put a).row) fill (r.put a) (v.put fill a) := (ho.write a).advance

/-- There is a cell before the cursor in the window, and the window stays. -/
theorem Onto.retreat (ho : Onto top fill r v) (hp : w * top < r.place) :
    ∃ v', v.retreat = some v' ∧ Onto top fill r.retreat v' := by
  have hrow := ho.row
  have hcol := congrArg Fin.val ho.col
  unfold View.retreat Roll.retreat
  by_cases hc : 0 < v.col.val
  · rw [if_pos hc, if_pos (show 0 < r.col.val by omega)]
    refine ⟨_, rfl, ho.row, Fin.ext ?_, ho.cells, ho.below⟩
    show r.col.val - 1 = v.col.val - 1
    rw [hcol]
  · rw [if_neg hc, if_neg (show ¬ 0 < r.col.val by omega)]
    have hv : 0 < v.row.val := by
      by_contra h0
      have htop : r.row = top := by omega
      have hplace : r.place = w * top + v.col.val := by rw [Roll.place, htop, hcol]
      omega
    rw [if_pos hv]
    refine ⟨_, rfl, ?_, rfl, ho.cells, ho.below⟩
    show r.row - 1 = top + (v.row.val - 1)
    omega

theorem Onto.erase (ho : Onto top fill r v) (hp : w * top < r.place) :
    ∃ v', v.erase fill = some v' ∧ Onto top fill (r.erase fill) v' := by
  obtain ⟨v', hv', ho'⟩ := ho.retreat hp
  refine ⟨v'.write fill, ?_, ho'.write fill⟩
  rw [View.erase, hv']
  rfl

/-- A sequence of operations on a machine that has a view: what it shows is what they do
to the roll, seen through the window as far down as the cursor has gone. -/
theorem Onto.foldl {β σ : Type*} {view : σ → View h w α} {f : Roll w α → β → Roll w α} {g : σ → β → σ}
    (hrow : ∀ r b, r.row ≤ (f r b).row)
    (hstep : ∀ top r s b, Onto top fill r (view s) → Onto (follow h top (f r b).row) fill (f r b) (view (g s b)))
    {s : σ} (ho : Onto top fill r (view s)) (bs : List β) :
    Onto (follow h top (bs.foldl f r).row) fill (bs.foldl f r) (view (bs.foldl g s)) := by
  have hmono : ∀ (bs : List β) (r : Roll w α), r.row ≤ (bs.foldl f r).row := by
    intro bs
    induction bs with
    | nil => exact fun r => le_refl _
    | cons b bs ih => exact fun r => (hrow r b).trans (ih (f r b))
  induction bs generalizing top r s with
  | nil =>
    show Onto (follow h top r.row) fill r (view s)
    rw [ho.settled]
    exact ho
  | cons b bs ih =>
    have hrest := ih (hstep top r s b ho)
    rw [follow_follow top (hmono bs (f r b))] at hrest
    exact hrest

end Window

/-! ### Typing and taking back -/

/-- From the roll `r₀`, `n` glyphs have been typed and `e` of them taken back: the cursor
is behind those that are left, the cells behind it are blank as far as something was
typed, and all others are as they were. -/
structure Overtyped (r₀ : Roll w α) (fill : α) (n e : ℕ) (r : Roll w α) : Prop where
  place : r.place + e = r₀.place + n
  kept : ∀ i (j : Fin w), w * i + j < r₀.place ∨ r₀.place + n ≤ w * i + j → r.cells i j = r₀.cells i j
  blank : ∀ i (j : Fin w), r.place ≤ w * i + j → w * i + j < r₀.place + n → r.cells i j = some fill

section Overtyped

variable {r₀ r : Roll w α} {fill : α} {n e : ℕ}

theorem Overtyped.refl (r₀ : Roll w α) (fill : α) : Overtyped r₀ fill 0 0 r₀ :=
  ⟨rfl, fun _ _ _ => rfl, fun _ _ _ _ => by omega⟩

theorem Overtyped.put (he : Overtyped r₀ fill n 0 r) (a : α) : Overtyped r₀ fill (n + 1) 0 (r.put a) := by
  have hp := he.place
  have hnext := r.put_place a
  refine ⟨by omega, fun i j hij => ?_, fun i j h₁ h₂ => by omega⟩
  rw [r.put_cells, if_neg (by omega)]
  exact he.kept i j (by omega)

theorem Overtyped.erase (he : Overtyped r₀ fill n e r) (hlt : e < n) :
    Overtyped r₀ fill n (e + 1) (r.erase fill) := by
  have hp := he.place
  have hr : 0 < r.place := by omega
  have hback := Roll.erase_place hr fill
  refine ⟨by omega, fun i j hij => ?_, fun i j h₁ h₂ => ?_⟩
  · rw [Roll.erase_cells hr, if_neg (by omega)]
    exact he.kept i j hij
  · rw [Roll.erase_cells hr]
    by_cases hat : w * i + j.val + 1 = r.place
    · exact if_pos hat
    · rw [if_neg hat]
      exact he.blank i j (by omega) h₂

/-- All of them taken back: the cursor is where it was, and blanks are where the glyphs
were. -/
theorem Overtyped.undone (he : Overtyped r₀ fill n n r) :
    r.row = r₀.row ∧ r.col = r₀.col ∧ ∀ i (j : Fin w), r.cells i j =
      if r₀.place ≤ w * i + j ∧ w * i + j < r₀.place + n then some fill else r₀.cells i j := by
  have hp : r.place = r₀.place := Nat.add_right_cancel he.place
  obtain ⟨hrow, hcol⟩ := Roll.cursor_eq hp
  refine ⟨hrow, hcol, fun i j => ?_⟩
  by_cases hin : r₀.place ≤ w * i + j ∧ w * i + j < r₀.place + n
  · rw [if_pos hin]
    exact he.blank i j (by omega) hin.2
  · rw [if_neg hin]
    exact he.kept i j (by omega)

end Overtyped

end Typing
