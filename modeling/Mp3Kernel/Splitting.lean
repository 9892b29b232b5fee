/-
# A line read in pieces

A read with a small size takes the beginning of the line in the buffer, one byte less
than it asks for, and moves the rest to the front; the last byte it gets is a newline.
The sizes around the line's length and the buffer's behave differently: at a size of
the length one character stays, above it none, and at 128 and above the buffer's own
size takes the place of the one asked for. `terminal_read_splits` covers them all:
whatever the size, what is returned and what stays are the line, cut in two; and over
any run in which nothing is typed in between, the pieces are the line in order, each
character once, and NULs behind it.

Key definitions: `Calm`.
Key theorems: `read_piece`, `pieces_step`, `terminal_read_splits`.
-/
import Mp3Kernel.Input

namespace Mp3Kernel

open Past Terminal

/-- The first `m` bytes of a text that is padded with NULs. -/
def cellsOf (text : List UInt8) (m : ℕ) : List UInt8 := (List.range m).map fun j : ℕ => text.getD j 0

/-- A step between the reads of a line of terminal `t`, or of such a read: the terminal is
shown, no key is typed, a backspace finds nothing to take back, Enter comes only while a
read is on, and the process that gets a piece is the terminal's. -/
structure Calm (t : Terminal) (e : ConsoleEntry) : Prop where
  shown : e.before.kbd.currentTerminal = t
  typed : ∀ scancode, e.label.1 = .key scancode → ∀ ch, e.before.kbd.press scancode ≠ .char ch
  takenBack : ∀ scancode, e.label.1 = .key scancode → e.before.kbd.press scancode = .backspace →
    e.before.kbd.kbrdBufLength t ≤ 0
  enter : ∀ scancode, e.label.1 = .key scancode → e.before.kbd.press scancode = .enter → e.before.kbd.readLock t ≠ 0
  own : ∀ buf, e.label.2 = .delivered buf → e.before.running = t

theorem length_cellsOf (text : List UInt8) (m : ℕ) : (cellsOf text m).length = m := by
  rw [cellsOf, List.length_map, List.length_range]

theorem cellsOf_append (text : List UInt8) (m n : ℕ) :
    cellsOf text m ++ cellsOf (text.drop m) n = cellsOf text (m + n) := by
  unfold cellsOf
  rw [List.range_add, List.map_append, List.map_map]
  congr 1
  refine List.map_congr_left fun j _ => ?_
  exact getD_drop text m j

theorem take_cellsOf (text : List UInt8) (m : ℕ) :
    (cellsOf text m).take text.length ++ text.drop m = text := by
  have htake : (cellsOf text m).take text.length = text.take m := by
    refine List.ext_getElem ?_ fun j hj hj' => ?_
    · rw [List.length_take, List.length_take, length_cellsOf, min_comm]
    · rw [List.length_take] at hj'
      simp only [cellsOf, List.getElem_take, List.getElem_map, List.getElem_range]
      exact List.getD_eq_getElem _ _ (by omega)
  rw [htake, List.take_append_drop]

theorem RowOnly.refl (t : Terminal) (k : Keyboard) : RowOnly t k k :=
  ⟨fun _ _ => rfl, fun _ _ => rfl, fun _ _ => rfl⟩

theorem RowOnly.trans {t : Terminal} {k₁ k₂ k₃ : Keyboard} (h₁ : RowOnly t k₁ k₂) (h₂ : RowOnly t k₂ k₃) :
    RowOnly t k₁ k₃ :=
  ⟨fun a ha => (h₂.cells a ha).trans (h₁.cells a ha), fun u hu => (h₂.length u hu).trans (h₁.length u hu),
    fun u hu => (h₂.marker u hu).trans (h₁.marker u hu)⟩

theorem SameLines.rowOnly {t : Terminal} {k k' : Keyboard} (h : SameLines k k') : RowOnly t k k' :=
  ⟨fun a _ => by rw [h.buf], fun u _ => by rw [h.length], fun u _ => by rw [h.marker]⟩

theorem SameLines.rowText {t : Terminal} {k k' : Keyboard} {text : List UInt8} (hs : SameLines k k')
    (h : RowText k t text) : RowText k' t text :=
  ⟨by rw [hs.marker]; exact h.marker, fun j hj => by rw [hs.buf]; exact h.cells j hj⟩

theorem setReader_self (c : Console) (pc : ReaderPc) : (c.setReader pc).reader c.running = pc :=
  Function.update_self ..

/-! ### One read -/

section Piece

variable {c : Console} {t : Terminal} {text : List UInt8} {n : ℕ}

/-- The statements of a read from the end of its wait on: the piece, and what stays. -/
theorem read_piece (hrow : RowText c.kbd t text) (hlen : text.length ≤ 127) (hshown : c.kbd.currentTerminal = t)
    (hrun : c.running = t) (hreader : c.reader t = .waiting n) (henter : c.kbd.isEnter t ≠ 0) (hn : 1 ≤ n) :
    ∃ tr c', run consoleNext c [.resume, .resume, .resume, .resume] = some (tr, c') ∧
      tr.map (fun e => e.label.2) =
        [.returned (min n 128), .nothing, .delivered (cellsOf text (min n 128 - 1) ++ [0x0A]), .nothing] ∧
      RowText c'.kbd t (text.drop (min n 128 - 1)) ∧ RowOnly t c.kbd c'.kbd := by
  subst hshown
  obtain ⟨htext, hbuf⟩ := hrow.copyLine hlen hn
  have honly := rowOnly_copyLine hrow hlen hn
  have hret : (if n < kbrdBufSize then n else kbrdBufSize) = min n 128 := by
    simp only [kbrdBufSize]
    split_ifs <;> omega
  rw [← hrun] at hreader henter
  set c₁ := c.setReader (.woken n) with hc₁
  set c₂ := { c₁ with kbd := (c.kbd.copyLine n).1 }.setReader (.copied n) with hc₂
  set c₃ := { c₂ with kbd := c₂.kbd.setLock 0 }.setReader (.unlocked n) with hc₃
  set c₄ := { c₃ with kbd := c₃.kbd.clearEnter }.setReader .outside with hc₄
  have hwake : c.resume = some (c₁, .nothing) := by
    rw [Console.resume, hreader]
    exact if_neg henter
  have hcopy : c₁.resume = some (c₂, .delivered (c.kbd.copyLine n).2) := by
    rw [Console.resume, show c₁.reader c₁.running = .woken n from setReader_self c _]
    rfl
  have hunlock : c₂.resume = some (c₃, .nothing) := by
    rw [Console.resume, show c₂.reader c₂.running = .copied n from setReader_self _ _]
  have hclear : c₃.resume = some (c₄, .returned (min n 128)) := by
    rw [Console.resume, show c₃.reader c₃.running = .unlocked n from setReader_self _ _, ← hret]
  have hsame : SameLines (c.kbd.copyLine n).1 c₄.kbd := ⟨rfl, rfl, rfl, rfl, rfl⟩
  refine ⟨_, c₄, by simp only [run, consoleNext, hwake, hcopy, hunlock, hclear]; rfl, ?_, hsame.rowText htext,
    honly.trans hsame.rowOnly⟩
  rw [hbuf]
  rfl

end Piece

/-! ### Runs -/

/-- After a run from the keyboard `k`: the pieces so far are the first `m` bytes of the
text, and the row holds the others. -/
structure Pieces (t : Terminal) (text : List UInt8) (k : Keyboard) (tr : List ConsoleEntry) (c : Console) (m : ℕ) :
    Prop where
  delivered : deliveredTo t tr = cellsOf text m
  left : RowText c.kbd t (text.drop m)
  only : RowOnly t k c.kbd

section Run

variable {t : Terminal} {text : List UInt8} {k : Keyboard} {tr : List ConsoleEntry} {c c' : Console} {m : ℕ}

theorem RowText.enterKey_locked {k : Keyboard} (h : RowText k k.currentTerminal text) (key : UInt8)
    (hlock : k.readLock k.currentTerminal ≠ 0) : RowText (k.enterKey key) k.currentTerminal text := by
  unfold Keyboard.enterKey
  dsimp only
  rw [if_neg hlock]
  exact ⟨h.marker, h.cells⟩

theorem Pieces.frame (h : Pieces t text k tr c m) {l : ConsoleEvent × ConsoleOut} (hdel : deliveredBy t ⟨c, l, c'⟩ = [])
    (hrow : RowText c'.kbd t (text.drop m)) (honly : RowOnly t c.kbd c'.kbd) :
    Pieces t text k (⟨c, l, c'⟩ :: tr) c' m := by
  refine ⟨?_, hrow, h.only.trans honly⟩
  rw [deliveredTo, hdel, List.append_nil]
  exact h.delivered

/-- A read that copies takes the next piece. -/
theorem Pieces.copied_piece (h : Pieces c.kbd.currentTerminal text k tr c m) (hlen : text.length ≤ 127)
    (hown : c.running = c.kbd.currentTerminal) {n : ℕ} (hn : 1 ≤ n) (hc' : c'.kbd = (c.kbd.copyLine n).1) :
    Pieces c.kbd.currentTerminal text k (⟨c, (.resume, .delivered (c.kbd.copyLine n).2), c'⟩ :: tr) c'
      (m + (min n 128 - 1)) := by
  have hfits : (text.drop m).length ≤ 127 := by
    rw [List.length_drop]
    omega
  obtain ⟨hrow, hbuf⟩ := h.left.copyLine hfits hn
  have honly := rowOnly_copyLine h.left hfits hn
  rw [← hc'] at hrow honly
  have hdel : deliveredBy c.kbd.currentTerminal ⟨c, (.resume, .delivered (c.kbd.copyLine n).2), c'⟩ =
      (c.kbd.copyLine n).2.dropLast := if_pos hown
  refine ⟨?_, ?_, h.only.trans honly⟩
  · calc deliveredTo c.kbd.currentTerminal tr ++
          deliveredBy c.kbd.currentTerminal ⟨c, (.resume, .delivered (c.kbd.copyLine n).2), c'⟩
        = cellsOf text m ++ (c.kbd.copyLine n).2.dropLast := by rw [h.delivered, hdel]
      _ = cellsOf text m ++ cellsOf (text.drop m) (min n 128 - 1) := by rw [hbuf, List.dropLast_concat]; rfl
      _ = cellsOf text (m + (min n 128 - 1)) := cellsOf_append ..
  · rw [List.drop_drop] at hrow
    exact hrow

/-- One step keeps it. -/
theorem pieces_step (h : Pieces t text k tr c m) (hlen : text.length ≤ 127) (hasked : Asked c)
    {l : ConsoleEvent × ConsoleOut} (hstep : consoleStep c l c') (hcalm : Calm t ⟨c, l, c'⟩) :
    ∃ m', Pieces t text k (⟨c, l, c'⟩ :: tr) c' m' := by
  obtain rfl : c.kbd.currentTerminal = t := hcalm.shown
  rcases line_cases hstep with hq | ⟨scancode, ch, rfl, hp, -, -⟩ | ⟨scancode, rfl, hp, hpos, -⟩ |
    ⟨scancode, rfl, hp, rfl⟩ | ⟨n, rfl, hn, rfl⟩
  · refine ⟨m, h.frame ?_ (hq.same.rowText h.left) hq.same.rowOnly⟩
    unfold deliveredBy
    split
    · rename_i buf hbuf
      exact absurd hbuf (hq.out buf)
    · rfl
  · exact absurd hp (hcalm.typed scancode rfl ch)
  · exact absurd hpos (not_lt.mpr (hcalm.takenBack scancode rfl hp))
  · have hlock := hcalm.enter scancode rfl hp
    exact ⟨m, h.frame rfl (h.left.enterKey_locked 0x0A hlock) (rowOnly_enterKey c.kbd 0x0A)⟩
  · have hsize := hasked c.running
    rw [hn] at hsize
    exact ⟨_, h.copied_piece hlen (hcalm.own _ rfl) hsize rfl⟩

theorem pieces_run (hrow : RowText c.kbd t text) (hlen : text.length ≤ 127) (hasked : Asked c)
    (h : Hist (fun s => s = c) consoleStep tr c') (hcalm : ∀ e ∈ tr, Calm t e) :
    Asked c' ∧ ∃ m, Pieces t text c.kbd tr c' m := by
  induction h with
  | start hs =>
    rw [hs]
    exact ⟨hasked, 0, rfl, hrow, RowOnly.refl t c.kbd⟩
  | next hp hst ih =>
    obtain ⟨hnow, hold⟩ := List.forall_mem_cons.mp hcalm
    obtain ⟨hbefore, m, hpieces⟩ := ih hold
    exact ⟨asked_step hbefore hst, pieces_step hpieces hlen hbefore hst hnow⟩

/-- **A line read in pieces.** The row of the terminal shown holds a text of at most 127
characters, with NULs behind it. A read of any size that is released there returns the
smaller of this size and 128; it gets one byte less of the row, and a newline; the other
characters stay, at the front of the row and counted by its marker, with NULs behind
them; and the other rows are as they were. In any run of such reads the pieces are the
text in order, with NULs behind it, and what has not been delivered is in the row. -/
theorem terminal_read_splits (hrow : RowText c.kbd t text) (hlen : text.length ≤ 127)
    (hshown : c.kbd.currentTerminal = t) :
    (∀ n, 1 ≤ n → c.running = t → c.reader t = .waiting n → c.kbd.isEnter t ≠ 0 →
      ∃ tr c', run consoleNext c [.resume, .resume, .resume, .resume] = some (tr, c') ∧
        tr.map (fun e => e.label.2) =
          [.returned (min n 128), .nothing, .delivered (cellsOf text (min n 128 - 1) ++ [0x0A]), .nothing] ∧
        RowText c'.kbd t (text.drop (min n 128 - 1)) ∧
        (c'.kbd.lineMarker t).toNat = text.length - (min n 128 - 1) ∧ RowOnly t c.kbd c'.kbd) ∧
    ∀ tr c', Hist (fun s => s = c) consoleStep tr c' → Asked c → (∀ e ∈ tr, Calm t e) →
      ∃ m, deliveredTo t tr = cellsOf text m ∧ RowText c'.kbd t (text.drop m) ∧
        (deliveredTo t tr).take text.length ++ text.drop m = text ∧ RowOnly t c.kbd c'.kbd := by
  refine ⟨fun n hn hrun hreader henter => ?_, fun tr c' h hasked hcalm => ?_⟩
  · obtain ⟨tr, c', hruns, houts, hleft, honly⟩ := read_piece hrow hlen hshown hrun hreader henter hn
    refine ⟨tr, c', hruns, houts, hleft, ?_, honly⟩
    rw [hleft.marker, List.length_drop]
  · obtain ⟨-, m, hpieces⟩ := pieces_run hrow hlen hasked h hcalm
    refine ⟨m, hpieces.delivered, hpieces.left, ?_, hpieces.only⟩
    rw [hpieces.delivered]
    exact take_cellsOf text m

/-- Three keys and Enter, for a read of three bytes; newest first. -/
def threeKeys : List ConsoleEvent := [.key 0x1C, .key 0x2E, .key 0x30, .key 0x1E, .resume, .call 3]

/-- The rest of this read, and another one that asks for more than is left. -/
def twoReads : List ConsoleEvent :=
  [.resume, .resume, .resume, .resume, .key 0x1C, .resume, .call 128, .resume, .resume, .resume, .resume]

end Run

theorem terminal_read_splits_three : ∃ before c, run consoleNext bootConsole threeKeys = some (before, c) ∧
    (∃ tr c', run consoleNext c [.resume, .resume, .resume, .resume] = some (tr, c') ∧
      tr.map (fun e => e.label.2) = [.returned 3, .nothing, .delivered [0x61, 0x62, 0x0A], .nothing] ∧
      RowText c'.kbd 0 [0x63]) ∧
    ∃ tr c', run consoleNext c twoReads = some (tr, c') ∧ (deliveredTo 0 tr).take 3 = [0x61, 0x62, 0x63] ∧
      ∃ m, deliveredTo 0 tr = cellsOf [0x61, 0x62, 0x63] m ∧ RowText c'.kbd 0 ([0x61, 0x62, 0x63].drop m) := by
  have hfacts : (run consoleNext bootConsole threeKeys).map (fun r => (decide ((r.2.kbd.lineMarker 0).toNat = 3 ∧
      (∀ j < 128, r.2.kbd.kbrdBuf (rowAt 0 + (j : ℕ)) = ([0x61, 0x62, 0x63] : List UInt8).getD j 0) ∧
      r.2.kbd.currentTerminal = 0 ∧ r.2.running = 0 ∧ r.2.reader 0 = .waiting 3 ∧ r.2.kbd.isEnter 0 ≠ 0 ∧
      ∀ t, 1 ≤ (r.2.reader t).size),
      (run consoleNext r.2 twoReads).map fun r => ((deliveredTo 0 r.1).take 3, decide (∀ e ∈ r.1,
        e.before.kbd.currentTerminal = 0 ∧ e.before.running = 0 ∧
        (e.label.1 = .resume ∨ e.label.1 = .call 128 ∨ e.label.1 = .key 0x1C ∧ e.before.kbd.readLock 0 ≠ 0))))) =
      some (true, some ([0x61, 0x62, 0x63], true)) := by decide +kernel
  obtain ⟨⟨before, c⟩, hrun, heq⟩ := Option.map_eq_some_iff.mp hfacts
  simp only [Prod.mk.injEq, decide_eq_true_eq] at heq
  obtain ⟨⟨hmark, hcells, hshown, hrunning, hreader, henter, hasked⟩, htwo⟩ := heq
  obtain ⟨⟨tr, c'⟩, hreads, heq⟩ := Option.map_eq_some_iff.mp htwo
  simp only [Prod.mk.injEq, decide_eq_true_eq] at heq
  obtain ⟨htaken, hsteps⟩ := heq
  have hsplits := @terminal_read_splits 0 [0x61, 0x62, 0x63] c ⟨hmark, hcells⟩ (by decide) hshown
  refine ⟨before, c, hrun, ?_, tr, c', hreads, htaken, ?_⟩
  · obtain ⟨tr, c', hresume, houts, hleft, -⟩ := hsplits.1 3 (by decide) hrunning hreader henter
    exact ⟨tr, c', hresume, houts, hleft⟩
  · have hcalm : ∀ e ∈ tr, Calm 0 e := by
      intro e he
      obtain ⟨hcurrent, hown, hevent⟩ := hsteps e he
      have hkey : ∀ scancode, e.label.1 = .key scancode → scancode = 0x1C ∧ e.before.kbd.readLock 0 ≠ 0 := by
        intro scancode hsc
        rw [hsc] at hevent
        rcases hevent with h | h | ⟨h, hlock⟩
        · exact absurd h (by simp)
        · exact absurd h (by simp)
        · exact ⟨ConsoleEvent.key.inj h, hlock⟩
      refine ⟨hcurrent, fun scancode hsc ch hp => ?_, fun scancode hsc hp => ?_, fun scancode hsc _ => ?_,
        fun _ _ => hown⟩
      · rw [(hkey scancode hsc).1] at hp
        exact absurd hp (by simp [Keyboard.press, scan])
      · rw [(hkey scancode hsc).1] at hp
        exact absurd hp (by simp [Keyboard.press, scan])
      · exact (hkey scancode hsc).2
    have hhist : Hist (fun s => s = c) consoleStep tr c' := by
      refine hist_of_run ?_ hreads
      rfl
    obtain ⟨m, hdel, hleft, -⟩ := hsplits.2 tr c' hhist hasked hcalm
    exact ⟨m, hdel, hleft⟩

end Mp3Kernel
