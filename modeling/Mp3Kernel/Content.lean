/-
# What a line buffer holds

`Holds k t done cur` reads the buffer of terminal `t` as text: the lines completed but
not read yet, and the keys of the line being typed. A key goes to the end of the second
part and a backspace comes from there; Enter moves it to the first part, if a read is
on, and clears both if not; a read takes bytes from the front, past the end of the first
part if there are not enough.

Key definitions: `Holds`, `RowText`, `RowOnly`.
Key theorems: `Holds.typeKey`, `Holds.backspaceKey`, `Holds.enterKey_locked`, `RowText.copyLine`,
`Holds.copyLine`.
-/
import Mathlib.Data.List.GetD
import Mp3Kernel.Lines

namespace Mp3Kernel

open Loop

/-- The buffer of terminal `t` holds the completed text `done` and the unfinished line
`cur`; behind them the row is NUL. A backspace may take back at least all of `cur`, and
no more as long as there is completed text. -/
structure Holds (k : Keyboard) (t : Terminal) (done cur : List UInt8) : Prop where
  marker : (k.lineMarker t).toNat = (done ++ cur).length
  cells : ∀ j : ℕ, j < 128 ∨ j < (done ++ cur).length → k.kbrdBuf (rowAt t + j) = (done ++ cur).getD j 0
  curLe : (cur.length : ℤ) ≤ k.kbrdBufLength t
  doneOr : done = [] ∨ k.kbrdBufLength t = cur.length

/-- The row of terminal `t` is the text its marker counts, with NULs behind it. -/
structure RowText (k : Keyboard) (t : Terminal) (text : List UInt8) : Prop where
  marker : (k.lineMarker t).toNat = text.length
  cells : ∀ j : ℕ, j < 128 → k.kbrdBuf (rowAt t + j) = text.getD j 0

/-- Only the row of terminal `t` and its counters have changed. -/
structure RowOnly (t : Terminal) (k k' : Keyboard) : Prop where
  cells : ∀ a, a < rowAt t ∨ rowAt t + 128 ≤ a → k'.kbrdBuf a = k.kbrdBuf a
  length : ∀ u, u ≠ t → k'.kbrdBufLength u = k.kbrdBufLength u
  marker : ∀ u, u ≠ t → k'.lineMarker u = k.lineMarker u

/-! ### Bytes of a text, and NUL behind it -/

theorem getD_concat (text : List UInt8) (ch : UInt8) (j : ℕ) :
    (text ++ [ch]).getD j 0 = if j = text.length then ch else text.getD j 0 := by
  by_cases hlt : j < text.length
  · rw [List.getD_append _ _ _ _ hlt, if_neg (by omega)]
  · rw [List.getD_append_right _ _ _ _ (by omega)]
    by_cases heq : j = text.length
    · rw [if_pos heq, heq, Nat.sub_self]
      rfl
    · rw [if_neg heq, List.getD_eq_default _ _ (by simp; omega), List.getD_eq_default _ _ (by omega)]

theorem getD_dropLast {text : List UInt8} (h : text ≠ []) (j : ℕ) :
    text.dropLast.getD j 0 = if j = text.length - 1 then 0 else text.getD j 0 := by
  have hlast := List.dropLast_append_getLast h
  have hlen : text.dropLast.length = text.length - 1 := List.length_dropLast
  by_cases heq : j = text.length - 1
  · rw [if_pos heq, List.getD_eq_default _ _ (by omega)]
  · rw [if_neg heq]
    conv_rhs => rw [← hlast]
    rw [getD_concat, if_neg (by omega)]

section Content

variable {k k' : Keyboard} {t u : Terminal} {done cur : List UInt8}

theorem Holds.same (h : Holds k t done cur) (hs : SameLines k k') : Holds k' t done cur := by
  refine ⟨?_, fun j hj => ?_, ?_, ?_⟩
  · rw [hs.marker]
    exact h.marker
  · rw [hs.buf]
    exact h.cells j hj
  · rw [hs.length]
    exact h.curLe
  · rw [hs.length]
    exact h.doneOr

theorem Holds.other (h : Holds k u done cur) (hu : u ≠ t) (hfits : (done ++ cur).length ≤ 128)
    (hrow : RowOnly t k k') : Holds k' u done cur := by
  have hval : u.val ≠ t.val := fun he => hu (Fin.ext he)
  refine ⟨?_, fun j hj => ?_, ?_, ?_⟩
  · rw [hrow.marker u hu]
    exact h.marker
  · rw [hrow.cells _ (by simp only [rowAt, kbrdBufSize]; omega)]
    exact h.cells j hj
  · rw [hrow.length u hu]
    exact h.curLe
  · rw [hrow.length u hu]
    exact h.doneOr

/-! ### Keys -/

theorem Holds.typeKey (h : Holds k k.currentTerminal done cur) (ch : UInt8)
    (hfits : (done ++ cur).length < 255) : Holds (k.typeKey ch) k.currentTerminal done (cur ++ [ch]) := by
  have hmark := h.marker
  have hnew : (k.typeKey ch).lineMarker k.currentTerminal =
      UInt8.ofInt ((k.lineMarker k.currentTerminal).toNat + 1) := Function.update_self ..
  have hlen : (k.typeKey ch).kbrdBufLength k.currentTerminal = k.kbrdBufLength k.currentTerminal + 1 :=
    Function.update_self ..
  refine ⟨?_, fun j hj => ?_, ?_, ?_⟩
  · have hval := toNat_ofInt (v := (k.lineMarker k.currentTerminal).toNat + 1) (by omega) (by omega)
    rw [hnew, ← List.append_assoc, List.length_append, List.length_singleton]
    omega
  · rw [← List.append_assoc, getD_concat]
    rw [← List.append_assoc, List.length_append, List.length_singleton] at hj
    show Function.update k.kbrdBuf (rowAt k.currentTerminal + (k.lineMarker k.currentTerminal).toNat) ch _ = _
    rw [Function.update_apply, hmark]
    by_cases hjl : j = (done ++ cur).length
    · rw [if_pos (by omega), if_pos hjl]
    · rw [if_neg (by omega), if_neg hjl, h.cells j (by omega)]
  · have hle := h.curLe
    rw [hlen, List.length_append, List.length_singleton]
    omega
  · rw [hlen, List.length_append, List.length_singleton]
    rcases h.doneOr with hd | hd
    · exact Or.inl hd
    · right
      omega

/-- A backspace that is accepted and finds something in the buffer takes a key of the
unfinished line. -/
theorem Holds.cur_ne_nil (h : Holds k t done cur) (hlen : 0 < k.kbrdBufLength t)
    (hmark : 0 < (k.lineMarker t).toNat) : cur ≠ [] := by
  rintro rfl
  rw [h.marker, List.append_nil] at hmark
  rcases h.doneOr with hd | hd
  · rw [hd] at hmark
    exact absurd hmark (by simp)
  · rw [hd] at hlen
    exact absurd hlen (by simp)

theorem Holds.backspaceKey (h : Holds k k.currentTerminal done cur)
    (hlen : 0 < k.kbrdBufLength k.currentTerminal) (hcur : cur ≠ []) :
    Holds k.backspaceKey k.currentTerminal done cur.dropLast := by
  have hmark := h.marker
  have hle := h.curLe
  have hpos : 0 < cur.length := List.length_pos_iff.mpr hcur
  have hbyte := UInt8.toNat_lt (k.lineMarker k.currentTerminal)
  have hdrop : done ++ cur.dropLast = (done ++ cur).dropLast := (List.dropLast_append_of_ne_nil hcur).symm
  have hne : done ++ cur ≠ [] := by simp [hcur]
  have htext : (done ++ cur).length = done.length + cur.length := List.length_append
  unfold Keyboard.backspaceKey
  dsimp only
  rw [if_pos hlen]
  refine ⟨?_, fun j hj => ?_, ?_, ?_⟩
  · have hval := toNat_ofInt (v := (k.lineMarker k.currentTerminal).toNat - 1) (by omega) (by omega)
    rw [hdrop, List.length_dropLast]
    show (Function.update k.lineMarker k.currentTerminal
      (UInt8.ofInt ((k.lineMarker k.currentTerminal).toNat - 1)) k.currentTerminal).toNat = _
    rw [Function.update_self]
    omega
  · rw [hdrop, List.length_dropLast] at hj
    rw [hdrop, getD_dropLast hne]
    show Function.update k.kbrdBuf (rowAt k.currentTerminal + ((k.lineMarker k.currentTerminal).toNat - 1)) 0 _ = _
    rw [Function.update_apply, hmark]
    by_cases hjl : j = (done ++ cur).length - 1
    · rw [if_pos (by omega), if_pos hjl]
    · rw [if_neg (by omega), if_neg hjl, h.cells j (by omega)]
  · rw [List.length_dropLast]
    show _ ≤ Function.update k.kbrdBufLength k.currentTerminal (k.kbrdBufLength k.currentTerminal - 1) _
    rw [Function.update_self]
    omega
  · rw [List.length_dropLast]
    show _ ∨ Function.update k.kbrdBufLength k.currentTerminal (k.kbrdBufLength k.currentTerminal - 1) _ = _
    rw [Function.update_self]
    rcases h.doneOr with hd | hd
    · exact Or.inl hd
    · right
      omega

/-- Enter while a read is on: the line is completed, and stays. -/
theorem Holds.enterKey_locked (h : Holds k k.currentTerminal done cur) (key : UInt8)
    (hlock : k.readLock k.currentTerminal ≠ 0) :
    Holds (k.enterKey key) k.currentTerminal (done ++ cur) [] := by
  unfold Keyboard.enterKey
  dsimp only
  rw [if_neg hlock]
  have hlen : Function.update k.kbrdBufLength k.currentTerminal 0 k.currentTerminal = 0 := Function.update_self ..
  refine ⟨?_, fun j hj => ?_, ?_, Or.inr ?_⟩
  · rw [List.append_nil]
    exact h.marker
  · rw [List.append_nil] at hj ⊢
    exact h.cells j hj
  · exact hlen.ge
  · exact hlen

/-- Enter while no read is on clears the buffer. -/
theorem holds_enterKey_unlocked (key : UInt8) (hlock : k.readLock k.currentTerminal = 0) :
    Holds (k.enterKey key) k.currentTerminal [] [] := by
  unfold Keyboard.enterKey
  dsimp only
  rw [if_pos hlock]
  have hlen : Function.update k.kbrdBufLength k.currentTerminal 0 k.currentTerminal = 0 := Function.update_self ..
  refine ⟨?_, fun j hj => ?_, hlen.ge, Or.inl rfl⟩
  · show (Function.update k.lineMarker k.currentTerminal _ k.currentTerminal).toNat = 0
    rw [Function.update_self]
    rfl
  · have hj128 : j < 128 := by simpa using hj
    show memset k.kbrdBuf (rowAt k.currentTerminal + (0 : ℕ)) 0 kbrdBufSize _ = _
    rw [memset_in (by simp only [kbrdBufSize]; omega)]
    rfl

/-! ### Reads -/

theorem Holds.rowText (h : Holds k t done cur) : RowText k t (done ++ cur) :=
  ⟨h.marker, fun j hj => h.cells j (Or.inl hj)⟩

theorem RowText.stay {text : List UInt8} (h : RowText k k.currentTerminal text) (hfits : text.length ≤ 127) {n : ℕ}
    (hn : 1 ≤ n) : k.writeBytes n = (text.drop (min n 128 - 1)).length := by
  rw [writeBytes_eq k hn, h.marker, List.length_drop]
  split_ifs <;> omega

/-- A read takes `nbytes - 1` bytes from the front, or all if there are fewer. -/
theorem RowText.copyLine {text : List UInt8} (h : RowText k k.currentTerminal text) (hfits : text.length ≤ 127) {n : ℕ}
    (hn : 1 ≤ n) :
    RowText (k.copyLine n).1 k.currentTerminal (text.drop (min n 128 - 1)) ∧
      (k.copyLine n).2 = ((List.range (min n 128 - 1)).map fun j : ℕ => text.getD j 0) ++ [0x0A] := by
  have hstay := h.stay hfits hn
  have hlen := List.length_drop (i := min n 128 - 1) (l := text)
  rw [copyLine_eq]
  refine ⟨⟨?_, fun j hj => ?_⟩, ?_⟩
  · have hval := toNat_ofInt (v := k.writeBytes n) (by omega) (by omega)
    show (Function.update k.lineMarker k.currentTerminal (UInt8.ofInt (k.writeBytes n)) k.currentTerminal).toNat = _
    rw [Function.update_self]
    omega
  · rw [getD_drop]
    show memset (memcpy k.kbrdBuf (rowAt k.currentTerminal)
      (rowAt k.currentTerminal + ((min n 128 - 1 : ℕ) : ℤ)) (k.writeBytes n))
      (rowAt k.currentTerminal + ((k.writeBytes n : ℕ) : ℤ)) 0 (min n 128) _ = _
    by_cases hin : j < k.writeBytes n
    · rw [memset_out (by omega), memcpy_in (by omega),
        show rowAt k.currentTerminal + ((min n 128 - 1 : ℕ) : ℤ) + (rowAt k.currentTerminal + (j : ℤ) -
          rowAt k.currentTerminal) = rowAt k.currentTerminal + ((min n 128 - 1 + j : ℕ) : ℤ) by omega]
      exact h.cells _ (by omega)
    · rw [List.getD_eq_default _ _ (by omega)]
      by_cases hnul : j < k.writeBytes n + min n 128
      · rw [memset_in (by omega)]
      · rw [memset_out (by omega), memcpy_out (by omega), h.cells j hj, List.getD_eq_default _ _ (by omega)]
  · unfold Keyboard.moveLine
    dsimp only
    congr 1
    refine List.map_congr_left fun j hj => ?_
    rw [List.mem_range] at hj
    exact h.cells j (by omega)

/-- Of completed and unfinished text, the read takes the completed first. -/
theorem Holds.copyLine (h : Holds k k.currentTerminal done cur) (hfits : (done ++ cur).length ≤ 127) {n : ℕ}
    (hn : 1 ≤ n) :
    Holds (k.copyLine n).1 k.currentTerminal (done.drop (n - 1)) (cur.drop (n - 1 - done.length)) ∧
      (k.copyLine n).2 = ((List.range (min n 128 - 1)).map fun j : ℕ => (done ++ cur).getD j 0) ++ [0x0A] := by
  obtain ⟨hrow, hbuf⟩ := h.rowText.copyLine hfits hn
  have hdrop : done.drop (n - 1) ++ cur.drop (n - 1 - done.length) = (done ++ cur).drop (min n 128 - 1) := by
    rw [← List.drop_append]
    by_cases hle : n ≤ 128
    · rw [min_eq_left hle]
    · rw [min_eq_right (by omega), List.drop_eq_nil_of_le (by omega), List.drop_eq_nil_of_le (by omega)]
  have hlen := List.length_drop (i := min n 128 - 1) (l := done ++ cur)
  have hkept : (k.copyLine n).1.kbrdBufLength = k.kbrdBufLength := by
    rw [copyLine_eq]
    rfl
  refine ⟨⟨?_, fun j hj => ?_, ?_, ?_⟩, hbuf⟩
  · rw [hdrop]
    exact hrow.marker
  · rw [hdrop] at hj ⊢
    exact hrow.cells j (by omega)
  · have hle := h.curLe
    rw [hkept, List.length_drop]
    omega
  · rw [hkept]
    rcases h.doneOr with hd | hd
    · exact Or.inl (by rw [hd, List.drop_nil])
    · by_cases hm : n - 1 < done.length
      · right
        rw [hd, show n - 1 - done.length = 0 by omega, List.drop_zero]
      · exact Or.inl (List.drop_eq_nil_of_le (by omega))

/-! ### The other rows -/

theorem rowOnly_typeKey (k : Keyboard) (ch : UInt8) (h : (k.lineMarker k.currentTerminal).toNat < 128) :
    RowOnly k.currentTerminal k (k.typeKey ch) := by
  refine ⟨fun a ha => ?_, fun u hu => Function.update_of_ne hu _ _, fun u hu => Function.update_of_ne hu _ _⟩
  show Function.update k.kbrdBuf (rowAt k.currentTerminal + (k.lineMarker k.currentTerminal).toNat) ch a = _
  exact Function.update_of_ne (by omega) _ _

theorem rowOnly_backspaceKey (k : Keyboard) (hlen : 0 < k.kbrdBufLength k.currentTerminal)
    (h0 : 0 < (k.lineMarker k.currentTerminal).toNat) (h1 : (k.lineMarker k.currentTerminal).toNat ≤ 128) :
    RowOnly k.currentTerminal k k.backspaceKey := by
  unfold Keyboard.backspaceKey
  dsimp only
  rw [if_pos hlen]
  refine ⟨fun a ha => ?_, fun u hu => Function.update_of_ne hu _ _, fun u hu => Function.update_of_ne hu _ _⟩
  show Function.update k.kbrdBuf (rowAt k.currentTerminal + ((k.lineMarker k.currentTerminal).toNat - 1)) 0 a = _
  exact Function.update_of_ne (by omega) _ _

theorem rowOnly_enterKey (k : Keyboard) (key : UInt8) : RowOnly k.currentTerminal k (k.enterKey key) := by
  unfold Keyboard.enterKey
  dsimp only
  split_ifs
  · refine ⟨fun a ha => ?_, fun u hu => Function.update_of_ne hu _ _, fun u hu => Function.update_of_ne hu _ _⟩
    show memset k.kbrdBuf (rowAt k.currentTerminal + (0 : ℕ)) 0 kbrdBufSize a = _
    exact memset_out (by simp only [kbrdBufSize]; omega)
  · exact ⟨fun _ _ => rfl, fun u hu => Function.update_of_ne hu _ _, fun _ _ => rfl⟩

theorem rowOnly_copyLine {text : List UInt8} (h : RowText k k.currentTerminal text) (hfits : text.length ≤ 127) {n : ℕ}
    (hn : 1 ≤ n) : RowOnly k.currentTerminal k (k.copyLine n).1 := by
  have hstay := h.stay hfits hn
  rw [List.length_drop] at hstay
  rw [copyLine_eq]
  refine ⟨fun a ha => ?_, fun _ _ => rfl, fun u hu => Function.update_of_ne hu _ _⟩
  show memset (memcpy k.kbrdBuf (rowAt k.currentTerminal) _ (k.writeBytes n))
    (rowAt k.currentTerminal + ((k.writeBytes n : ℕ) : ℤ)) 0 (min n 128) a = _
  rw [memset_out (by omega), memcpy_out (by omega)]

end Content

end Mp3Kernel
