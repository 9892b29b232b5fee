/-
# Input goes to the terminal it was typed on

`terminal_read` waits for the Enter of its own terminal, but locks, copies and unlocks
whatever terminal is shown. So a process can be given what was typed on another
terminal (`stolen_key`), and the line it waits for can be cleared away. When a process
executes these statements only while its own terminal is shown, and the buffers do not
run over, the text a terminal's processes get is what was typed there, in order and at
most once, and a line completed for a waiting process is delivered or still in the
buffer (`input_isolation`).

Key definitions: `typedOn`, `deliveredTo`, `Completes`, `Misuses`, `Kept`.
Key theorems: `Kept.step`, `tidy_step`, `input_isolation`.
-/
import Mp3Kernel.Content

namespace Mp3Kernel

open Past Terminal

/-- The bytes other than NUL. -/
def nonNul (bytes : List UInt8) : List UInt8 := bytes.filter fun c => c ≠ 0

/-- What a step types on terminal `t`. -/
def typedBy (t : Terminal) (e : ConsoleEntry) : List UInt8 :=
  match e.label.1 with
  | .key scancode =>
    match e.before.kbd.press scancode with
    | .char ch => if e.before.kbd.currentTerminal = t then [ch] else []
    | _ => []
  | _ => []

/-- What a step delivers to the process of terminal `t`, without the final newline. -/
def deliveredBy (t : Terminal) (e : ConsoleEntry) : List UInt8 :=
  match e.label.2 with
  | .delivered buf => if e.before.running = t then buf.dropLast else []
  | _ => []

/-- All that was typed on terminal `t`, in order. -/
def typedOn (t : Terminal) : List ConsoleEntry → List UInt8
  | [] => []
  | e :: old => typedOn t old ++ typedBy t e

/-- All that was delivered to the processes of terminal `t`, in order. -/
def deliveredTo (t : Terminal) : List ConsoleEntry → List UInt8
  | [] => []
  | e :: old => deliveredTo t old ++ deliveredBy t e

/-- The bytes in the buffer of terminal `t`. -/
def lineOf (k : Keyboard) (t : Terminal) : List UInt8 :=
  (List.range (k.lineMarker t).toNat).map fun j : ℕ => k.kbrdBuf (rowAt t + (j : ℤ))

/-- The step is an Enter on terminal `t` while its process waits in `terminal_read`. -/
def Completes (t : Terminal) (e : ConsoleEntry) : Prop :=
  ∃ scancode n, e.label.1 = .key scancode ∧ e.before.kbd.press scancode = .enter ∧
    e.before.kbd.currentTerminal = t ∧ e.before.reader t = .waiting n

/-- What makes input go astray: a process locks, copies or unlocks while another terminal
than its own is shown; a key is stored behind a full row; a backspace is accepted in an
empty buffer; or Enter, with no read on, clears a buffer that holds more than the line
being typed. -/
def Misuses (e : ConsoleEntry) : Prop :=
  let k := e.before.kbd
  let ct := k.currentTerminal
  (((∃ n, e.label.1 = .call n) ∨ e.label.1 = .resume ∧
    ∃ n, e.before.reader e.before.running = .woken n ∨ e.before.reader e.before.running = .copied n) ∧
      ct ≠ e.before.running) ∨
  (∃ scancode ch, e.label.1 = .key scancode ∧ k.press scancode = .char ch ∧ k.kbrdBufLength ct < 127 ∧
    127 ≤ (k.lineMarker ct).toNat) ∨
  (∃ scancode, e.label.1 = .key scancode ∧ k.press scancode = .backspace ∧ 0 < k.kbrdBufLength ct ∧
    (k.lineMarker ct).toNat = 0) ∨
  (∃ scancode, e.label.1 = .key scancode ∧ k.press scancode = .enter ∧ k.readLock ct = 0 ∧
    k.kbrdBufLength ct < (k.lineMarker ct).toNat)

/-! ### Text -/

theorem nonNul_append (a b : List UInt8) : nonNul (a ++ b) = nonNul a ++ nonNul b := List.filter_append ..

/-- A text padded with NULs, or cut off, keeps what is left of its other bytes. -/
theorem nonNul_padded (text : List UInt8) (m : ℕ) :
    nonNul ((List.range m).map fun j : ℕ => text.getD j 0) = nonNul (text.take m) := by
  induction m with
  | zero => rfl
  | succ m ih =>
    rw [List.range_succ, List.map_append, nonNul_append, ih]
    by_cases hm : m < text.length
    · rw [List.take_succ_eq_append_getElem hm, nonNul_append]
      show _ ++ nonNul [text.getD m 0] = _
      rw [List.getD_eq_getElem _ _ hm]
    · rw [List.take_of_length_le (by omega), List.take_of_length_le (by omega)]
      have hnul : text.getD m 0 = 0 := List.getD_eq_default _ _ (by omega)
      show nonNul text ++ nonNul [text.getD m 0] = _
      rw [hnul]
      exact List.append_nil _

theorem Holds.lineOf_eq {k : Keyboard} {t : Terminal} {done cur : List UInt8} (h : Holds k t done cur) :
    lineOf k t = done ++ cur := by
  unfold lineOf
  rw [h.marker]
  refine List.ext_getElem (by simp) fun j hj hj' => ?_
  rw [List.getElem_map, List.getElem_range, h.cells j (Or.inr hj'), List.getD_eq_getElem _ _ hj']

/-! ### One terminal -/

/-- What is known of terminal `t`: its buffer's text, which fits the row; that what was
delivered and is still there was typed, in order; and that no completed line is lost. -/
structure Kept (t : Terminal) (tr : List ConsoleEntry) (c : Console) (done cur : List UInt8) : Prop where
  holds : Holds c.kbd t done cur
  fits : (done ++ cur).length ≤ 127
  typed : (nonNul (deliveredTo t tr) ++ nonNul (done ++ cur)).Sublist (nonNul (typedOn t tr))
  lines : ∀ new e old, tr = new ++ e :: old → Completes t e →
    nonNul (lineOf e.before.kbd t) <+: nonNul (deliveredTo t new) ++ nonNul done

/-- One step, given what it does to the text: what it delivers and leaves comes from what
was there and what it types; and the completed text is delivered first. -/
theorem Kept.step {t : Terminal} {tr : List ConsoleEntry} {c c' : Console} {l : ConsoleEvent × ConsoleOut}
    {done cur done' cur' : List UInt8} (h : Kept t tr c done cur) (hholds : Holds c'.kbd t done' cur')
    (hfits : (done' ++ cur').length ≤ 127)
    (htyped : (nonNul (deliveredBy t ⟨c, l, c'⟩) ++ nonNul (done' ++ cur')).Sublist
      (nonNul (done ++ cur) ++ nonNul (typedBy t ⟨c, l, c'⟩)))
    (hdone : nonNul done <+: nonNul (deliveredBy t ⟨c, l, c'⟩) ++ nonNul done')
    (hline : Completes t ⟨c, l, c'⟩ → nonNul (lineOf c.kbd t) <+: nonNul done') :
    Kept t (⟨c, l, c'⟩ :: tr) c' done' cur' := by
  have hdel : nonNul (deliveredTo t (⟨c, l, c'⟩ :: tr)) =
      nonNul (deliveredTo t tr) ++ nonNul (deliveredBy t ⟨c, l, c'⟩) := nonNul_append ..
  have htyp : nonNul (typedOn t (⟨c, l, c'⟩ :: tr)) =
      nonNul (typedOn t tr) ++ nonNul (typedBy t ⟨c, l, c'⟩) := nonNul_append ..
  refine ⟨hholds, hfits, ?_, fun new e old hsplit hcompletes => ?_⟩
  · rw [hdel, htyp, List.append_assoc]
    calc (nonNul (deliveredTo t tr) ++ (nonNul (deliveredBy t ⟨c, l, c'⟩) ++ nonNul (done' ++ cur'))).Sublist
          (nonNul (deliveredTo t tr) ++ (nonNul (done ++ cur) ++ nonNul (typedBy t ⟨c, l, c'⟩))) :=
        (List.Sublist.refl _).append htyped
      _ = nonNul (deliveredTo t tr) ++ nonNul (done ++ cur) ++ nonNul (typedBy t ⟨c, l, c'⟩) :=
        (List.append_assoc ..).symm
      List.Sublist _ (nonNul (typedOn t tr) ++ nonNul (typedBy t ⟨c, l, c'⟩)) :=
        h.typed.append (List.Sublist.refl _)
  · rcases List.cons_eq_append_iff.mp hsplit with ⟨rfl, hcons⟩ | ⟨new', rfl, rfl⟩
    · rw [List.cons.injEq] at hcons
      rw [hcons.1] at hcompletes ⊢
      exact hline hcompletes
    · rw [deliveredTo, nonNul_append, List.append_assoc]
      refine (h.lines new' e old rfl hcompletes).trans ?_
      exact (List.prefix_append_right_inj _).mpr hdone

theorem Kept.frame {t : Terminal} {tr : List ConsoleEntry} {c c' : Console} {l : ConsoleEvent × ConsoleOut}
    {done cur : List UInt8} (h : Kept t tr c done cur) (hholds : Holds c'.kbd t done cur)
    (hdel : deliveredBy t ⟨c, l, c'⟩ = []) (hno : ¬ Completes t ⟨c, l, c'⟩) :
    Kept t (⟨c, l, c'⟩ :: tr) c' done cur := by
  refine h.step hholds h.fits ?_ ?_ fun hc => absurd hc hno
  · rw [hdel]
    exact List.sublist_append_left _ _
  · rw [hdel]
    exact List.prefix_refl _

section Step

variable {t : Terminal} {tr : List ConsoleEntry} {c : Console} {done cur : List UInt8}

theorem Kept.elsewhere (h : Kept t tr c done cur) (ht : t ≠ c.kbd.currentTerminal) {l : ConsoleEvent × ConsoleOut}
    {c' : Console} (hrow : RowOnly c.kbd.currentTerminal c.kbd c'.kbd) (hdel : deliveredBy t ⟨c, l, c'⟩ = []) :
    Kept t (⟨c, l, c'⟩ :: tr) c' done cur := by
  have hfits := h.fits
  refine h.frame (h.holds.other ht (by omega) hrow) hdel ?_
  rintro ⟨scancode, n, -, -, hcurrent, -⟩
  exact ht hcurrent.symm

/-- A key on the terminal shown. -/
theorem Kept.typed_key (h : Kept c.kbd.currentTerminal tr c done cur) {scancode ch : UInt8}
    (hp : c.kbd.press scancode = .char ch) (hfull : ¬ 127 ≤ (c.kbd.lineMarker c.kbd.currentTerminal).toNat) :
    Kept c.kbd.currentTerminal (⟨c, (.key scancode, .nothing), { c with kbd := c.kbd.typeKey ch }⟩ :: tr)
      { c with kbd := c.kbd.typeKey ch } done (cur ++ [ch]) := by
  have hmark := h.holds.marker
  have htyped : typedBy c.kbd.currentTerminal ⟨c, (.key scancode, .nothing), { c with kbd := c.kbd.typeKey ch }⟩ =
      [ch] := by
    simp only [typedBy, hp, if_true]
  refine h.step (h.holds.typeKey ch (by omega)) ?_ ?_ (List.prefix_refl _) ?_
  · rw [← List.append_assoc, List.length_append, List.length_singleton]
    omega
  · rw [htyped, ← List.append_assoc, nonNul_append (done ++ cur)]
    exact List.Sublist.refl _
  · rintro ⟨sc, n, hkey, hpress, -⟩
    rw [← ConsoleEvent.key.inj hkey, hp] at hpress
    exact absurd hpress (by simp)

/-- A backspace that is accepted there. -/
theorem Kept.erased_key (h : Kept c.kbd.currentTerminal tr c done cur) {scancode : UInt8}
    (hp : c.kbd.press scancode = .backspace) (hlen : 0 < c.kbd.kbrdBufLength c.kbd.currentTerminal)
    (hmark : 0 < (c.kbd.lineMarker c.kbd.currentTerminal).toNat) :
    Kept c.kbd.currentTerminal (⟨c, (.key scancode, .nothing), { c with kbd := c.kbd.backspaceKey }⟩ :: tr)
      { c with kbd := c.kbd.backspaceKey } done cur.dropLast := by
  have hcur := h.holds.cur_ne_nil hlen hmark
  have hsub : (done ++ cur.dropLast).Sublist (done ++ cur) :=
    (List.Sublist.refl done).append (List.dropLast_sublist cur)
  refine h.step (h.holds.backspaceKey hlen hcur) (hsub.length_le.trans h.fits) ?_ (List.prefix_refl _) ?_
  · exact (hsub.filter _).trans (List.sublist_append_left _ _)
  · rintro ⟨sc, n, hkey, hpress, -⟩
    rw [← ConsoleEvent.key.inj hkey, hp] at hpress
    exact absurd hpress (by simp)

/-- Enter there while a read is on. -/
theorem Kept.entered (h : Kept c.kbd.currentTerminal tr c done cur) (scancode : UInt8)
    (hlock : c.kbd.readLock c.kbd.currentTerminal ≠ 0) :
    Kept c.kbd.currentTerminal (⟨c, (.key scancode, .nothing), { c with kbd := c.kbd.enterKey 0x0A }⟩ :: tr)
      { c with kbd := c.kbd.enterKey 0x0A } (done ++ cur) [] := by
  refine h.step (h.holds.enterKey_locked 0x0A hlock) ?_ ?_ ?_ ?_
  · rw [List.append_nil]
    exact h.fits
  · rw [List.append_nil]
    exact List.sublist_append_left _ _
  · rw [nonNul_append done cur]
    exact List.prefix_append _ _
  · intro _
    rw [h.holds.lineOf_eq]

/-- Enter there with no read on, in a buffer that holds only the line being typed. -/
theorem Kept.cleared (h : Kept c.kbd.currentTerminal tr c done cur) (scancode : UInt8)
    (hlock : c.kbd.readLock c.kbd.currentTerminal = 0)
    (hlen : ¬ c.kbd.kbrdBufLength c.kbd.currentTerminal < (c.kbd.lineMarker c.kbd.currentTerminal).toNat)
    (hreader : ∀ n, c.reader c.kbd.currentTerminal ≠ .waiting n) :
    Kept c.kbd.currentTerminal (⟨c, (.key scancode, .nothing), { c with kbd := c.kbd.enterKey 0x0A }⟩ :: tr)
      { c with kbd := c.kbd.enterKey 0x0A } [] [] := by
  have hnil : done = [] := by
    rcases h.holds.doneOr with hd | hd
    · exact hd
    · have hmark := h.holds.marker
      rw [List.length_append] at hmark
      exact List.length_eq_zero_iff.mp (by omega)
  refine h.step (holds_enterKey_unlocked 0x0A hlock) (by simp) ?_ ?_ ?_
  · exact List.nil_sublist _
  · rw [hnil]
    exact List.prefix_refl _
  · rintro ⟨sc, n, -, -, -, hn⟩
    exact absurd hn (hreader n)

/-- A read that copies out of the buffer of its own terminal. -/
theorem Kept.copied_line (h : Kept c.kbd.currentTerminal tr c done cur) (hown : c.kbd.currentTerminal = c.running)
    {n : ℕ} (hn : 1 ≤ n) {c' : Console} (hc' : c'.kbd = (c.kbd.copyLine n).1) :
    Kept c.kbd.currentTerminal (⟨c, (.resume, .delivered (c.kbd.copyLine n).2), c'⟩ :: tr) c'
      (done.drop (n - 1)) (cur.drop (n - 1 - done.length)) := by
  obtain ⟨hholds, hbuf⟩ := h.holds.copyLine h.fits hn
  rw [← hc'] at hholds
  have hdrop : done.drop (n - 1) ++ cur.drop (n - 1 - done.length) = (done ++ cur).drop (n - 1) :=
    List.drop_append.symm
  have hfits := h.fits
  have hdel : nonNul (deliveredBy c.kbd.currentTerminal ⟨c, (.resume, .delivered (c.kbd.copyLine n).2), c'⟩) =
      nonNul ((done ++ cur).take (n - 1)) := by
    simp only [deliveredBy, hown, if_true]
    rw [hbuf, List.dropLast_concat, nonNul_padded]
    congr 1
    by_cases hbig : n ≤ 128
    · rw [min_eq_left hbig]
    · rw [List.take_of_length_le (by omega), List.take_of_length_le (by omega)]
  refine h.step hholds ?_ ?_ ?_ ?_
  · rw [hdrop, List.length_drop]
    omega
  · rw [hdel, hdrop, ← nonNul_append, List.take_append_drop]
    exact List.sublist_append_left _ _
  · rw [hdel, ← nonNul_append]
    have hpre : done <+: (done ++ cur).take (n - 1) ++ done.drop (n - 1) := by
      rw [List.take_append]
      by_cases hm : n - 1 ≤ done.length
      · rw [show n - 1 - done.length = 0 by omega, List.take_zero, List.append_nil, List.take_append_drop]
      · rw [List.take_of_length_le (by omega), List.append_assoc]
        exact List.prefix_append _ _
    exact hpre.filter _
  · rintro ⟨sc, m, hkey, -⟩
    exact absurd hkey (by simp)

end Step

/-! ### The lock -/

/-- The places in `terminal_read` between the statements that lock and unlock. -/
def ReaderPc.locks : ReaderPc → Bool
  | .locked _ => true
  | .waiting _ => true
  | .woken _ => true
  | .copied _ => true
  | _ => false

/-- Whoever is between them holds the lock of its own terminal. -/
def OwnLocks (c : Console) : Prop := ∀ t, (c.reader t).locks = true → c.kbd.readLock t ≠ 0

theorem answer_readLock (k : Keyboard) (p : Press) : (k.answer p).readLock = k.readLock := by
  cases p with
  | switch t =>
    simp only [Keyboard.answer, Keyboard.switchTerminal]
    split_ifs <;> rfl
  | enter =>
    simp only [Keyboard.answer, Keyboard.enterKey]
    split_ifs <;> rfl
  | backspace =>
    simp only [Keyboard.answer, Keyboard.backspaceKey]
    split_ifs <;> rfl
  | redraw =>
    simp only [Keyboard.answer, Keyboard.redraw]
    split_ifs
    · dsimp only
    · rfl
  | char c =>
    simp only [Keyboard.answer, Keyboard.typeKey]
    split_ifs <;> rfl
  | _ => rfl

/-- The running process moves on without touching the locks. -/
theorem ownLocks_setReader {c : Console} (h : OwnLocks c) {k : Keyboard} (hk : k.readLock = c.kbd.readLock)
    {pc : ReaderPc} (hpc : pc.locks = true → c.kbd.readLock c.running ≠ 0) :
    OwnLocks ({ c with kbd := k }.setReader pc) := by
  intro t ht
  show k.readLock t ≠ 0
  rw [hk]
  change (Function.update c.reader c.running pc t).locks = true at ht
  by_cases htr : t = c.running
  · rw [htr, Function.update_self] at ht
    rw [htr]
    exact hpc ht
  · rw [Function.update_of_ne htr] at ht
    exact h t ht

theorem ownLocks_setLock {c : Console} (h : OwnLocks c) (hown : c.kbd.currentTerminal = c.running) {v : ℤ}
    {pc : ReaderPc} (hpc : pc.locks = true → v ≠ 0) :
    OwnLocks ({ c with kbd := c.kbd.setLock v }.setReader pc) := by
  intro t ht
  show Function.update c.kbd.readLock c.kbd.currentTerminal v t ≠ 0
  change (Function.update c.reader c.running pc t).locks = true at ht
  rw [hown]
  by_cases htr : t = c.running
  · rw [htr, Function.update_self] at ht ⊢
    exact hpc ht
  · rw [Function.update_of_ne htr] at ht ⊢
    exact h t ht

theorem ownLocks_step {c c' : Console} {l : ConsoleEvent × ConsoleOut} (h : OwnLocks c) (hstep : consoleStep c l c')
    (hok : ¬ Misuses ⟨c, l, c'⟩) : OwnLocks c' := by
  obtain ⟨ev, out⟩ := l
  unfold consoleStep at hstep
  cases ev with
  | key scancode =>
    simp only [consoleNext, Option.some.injEq, Prod.mk.injEq] at hstep
    rw [← hstep.1]
    intro t ht
    show (c.kbd.kbrdInt scancode).readLock t ≠ 0
    rw [Keyboard.kbrdInt_eq, answer_readLock]
    exact h t ht
  | call nbytes =>
    simp only [consoleNext, Option.ite_none_right_eq_some, Option.some.injEq, Prod.mk.injEq] at hstep
    rw [← hstep.2.1]
    refine ownLocks_setLock h ?_ fun _ => one_ne_zero
    by_contra hne
    exact hok (Or.inl ⟨Or.inl ⟨nbytes, rfl⟩, hne⟩)
  | resume =>
    have hnow := h c.running
    rcases Console.resume_cases hstep with ⟨n, hn, -, rfl⟩ | ⟨n, hn, -, rfl⟩ | ⟨n, hn, -, -, rfl⟩ |
      ⟨n, hn, -, rfl⟩ | ⟨n, hn, -, rfl⟩ | ⟨n, hn, -, rfl⟩
    all_goals rw [hn] at hnow
    · exact ownLocks_setReader h rfl fun _ => hnow rfl
    · exact h
    · exact ownLocks_setReader h rfl fun _ => hnow rfl
    · refine ownLocks_setReader h ?_ fun _ => hnow rfl
      rw [copyLine_eq]
      rfl
    · refine ownLocks_setLock h ?_ fun hpc => absurd hpc (by simp [ReaderPc.locks])
      by_contra hne
      exact hok (Or.inl ⟨Or.inr ⟨rfl, n, Or.inr hn⟩, hne⟩)
    · exact ownLocks_setReader h rfl fun hpc => absurd hpc (by simp [ReaderPc.locks])
  | _ =>
    simp only [consoleNext, Option.some.injEq, Prod.mk.injEq] at hstep
    rw [← hstep.1]
    exact h

/-! ### All terminals -/

/-- The invariant of the runs that misuse nothing. -/
structure Tidy (tr : List ConsoleEntry) (c : Console) : Prop where
  kept : ∀ t, ∃ done cur, Kept t tr c done cur
  locks : OwnLocks c
  asked : Asked c

/-- One step keeps it. -/
theorem tidy_step {tr : List ConsoleEntry} {c c' : Console} {l : ConsoleEvent × ConsoleOut} (h : Tidy tr c)
    (hstep : consoleStep c l c') (hok : ¬ Misuses ⟨c, l, c'⟩) : Tidy (⟨c, l, c'⟩ :: tr) c' := by
  refine ⟨fun t => ?_, ownLocks_step h.locks hstep hok, asked_step h.asked hstep⟩
  obtain ⟨done, cur, hkept⟩ := h.kept t
  obtain ⟨done₀, cur₀, hshown⟩ := h.kept c.kbd.currentTerminal
  have hmark := hshown.holds.marker
  have hfits := hshown.fits
  rcases line_cases hstep with hq | ⟨scancode, ch, rfl, hp, hlen, rfl⟩ | ⟨scancode, rfl, hp, hlen, rfl⟩ |
    ⟨scancode, rfl, hp, rfl⟩ | ⟨n, rfl, hn, rfl⟩
  · refine ⟨done, cur, hkept.frame (hkept.holds.same hq.same) ?_ ?_⟩
    · unfold deliveredBy
      split
      · rename_i buf hbuf
        exact absurd hbuf (hq.out buf)
      · rfl
    · rintro ⟨scancode, n, hkey, hpress, -⟩
      exact hq.enter scancode hkey hpress
  · have hfull : ¬ 127 ≤ (c.kbd.lineMarker c.kbd.currentTerminal).toNat := fun hfull =>
      hok (Or.inr (Or.inl ⟨scancode, ch, rfl, hp, hlen, hfull⟩))
    by_cases ht : t = c.kbd.currentTerminal
    · rw [ht]
      exact ⟨done₀, cur₀ ++ [ch], hshown.typed_key hp hfull⟩
    · exact ⟨done, cur, hkept.elsewhere ht (rowOnly_typeKey c.kbd ch (by omega)) rfl⟩
  · have hpos : 0 < (c.kbd.lineMarker c.kbd.currentTerminal).toNat := by
      by_contra hzero
      exact hok (Or.inr (Or.inr (Or.inl ⟨scancode, rfl, hp, hlen, Nat.eq_zero_of_not_pos hzero⟩)))
    by_cases ht : t = c.kbd.currentTerminal
    · rw [ht]
      exact ⟨done₀, cur₀.dropLast, hshown.erased_key hp hlen hpos⟩
    · exact ⟨done, cur, hkept.elsewhere ht (rowOnly_backspaceKey c.kbd hlen hpos (by omega)) rfl⟩
  · by_cases ht : t = c.kbd.currentTerminal
    · rw [ht]
      by_cases hlock : c.kbd.readLock c.kbd.currentTerminal = 0
      · refine ⟨[], [], hshown.cleared scancode hlock (fun hlt => ?_) fun n hn => ?_⟩
        · exact hok (Or.inr (Or.inr (Or.inr ⟨scancode, rfl, hp, hlock, hlt⟩)))
        · exact h.locks c.kbd.currentTerminal (by rw [hn]; rfl) hlock
      · exact ⟨done₀ ++ cur₀, [], hshown.entered scancode hlock⟩
    · exact ⟨done, cur, hkept.elsewhere ht (rowOnly_enterKey c.kbd 0x0A) rfl⟩
  · have hown : c.kbd.currentTerminal = c.running := by
      by_contra hne
      exact hok (Or.inl ⟨Or.inr ⟨rfl, n, Or.inl hn⟩, hne⟩)
    have hsize := h.asked c.running
    rw [hn] at hsize
    by_cases ht : t = c.kbd.currentTerminal
    · rw [ht]
      exact ⟨_, _, hshown.copied_line hown hsize rfl⟩
    · refine ⟨done, cur, hkept.elsewhere ht (rowOnly_copyLine hshown.holds.rowText hfits hsize) ?_⟩
      exact if_neg fun hr => ht (hr.symm.trans hown.symm)

theorem tidy_init {c : Console} (h : ConsoleInit c) : Tidy [] c := by
  refine ⟨fun t => ⟨[], [], ⟨?_, fun j hj => ?_, ?_, Or.inl rfl⟩, by simp, by simp [deliveredTo, nonNul], ?_⟩,
    fun t ht => ?_, (inBounds_init h).2⟩
  · rw [h.marker t]
    rfl
  · have hj128 : j < 128 := by simpa using hj
    exact h.buf _ (by simp only [rowAt, kbrdBufSize]; omega) (by simp only [rowAt, kbrdBufSize]; omega)
  · rw [h.length t]
    simp
  · intro new e old hsplit
    exact absurd hsplit (by simp)
  · rw [h.reader t] at ht
    exact absurd ht (by simp [ReaderPc.locks])

/-- **Input isolation.** In every run in which no step misuses a terminal: what the
processes of a terminal are given, apart from NULs and final newlines, was typed while
it was shown, in this order and at most once; and the text in the buffer when Enter is
pressed for a waiting process has been delivered to that terminal since, or is what the
buffer still begins with. -/
theorem input_isolation {tr : List ConsoleEntry} {c : Console} (h : Hist ConsoleInit consoleStep tr c)
    (hok : ∀ e ∈ tr, ¬ Misuses e) :
    (∀ t, (nonNul (deliveredTo t tr)).Sublist (nonNul (typedOn t tr))) ∧
    ∀ t new e old, tr = new ++ e :: old → Completes t e →
      nonNul (lineOf e.before.kbd t) <+: nonNul (deliveredTo t new) ++ nonNul (lineOf c.kbd t) := by
  have htidy : Tidy tr c := by
    induction h with
    | start hi => exact tidy_init hi
    | next hp hst ih =>
      obtain ⟨hnow, hold⟩ := List.forall_mem_cons.mp hok
      exact tidy_step (ih hold) hst hnow
  refine ⟨fun t => ?_, fun t new e old hsplit hcompletes => ?_⟩
  · obtain ⟨done, cur, hkept⟩ := htidy.kept t
    exact (List.sublist_append_left _ _).trans hkept.typed
  · obtain ⟨done, cur, hkept⟩ := htidy.kept t
    rw [hkept.holds.lineOf_eq, nonNul_append done cur, ← List.append_assoc]
    exact (hkept.lines new e old hsplit hcompletes).trans (List.prefix_append _ _)

theorem input_isolation_line : ∃ tr c, run consoleNext bootConsole oneLine = some (tr, c) ∧
    nonNul (deliveredTo 0 tr) = [0x61] ∧ ∀ t, (nonNul (deliveredTo t tr)).Sublist (nonNul (typedOn t tr)) := by
  have hfacts : (run consoleNext bootConsole oneLine).map (fun r => (nonNul (deliveredTo 0 r.1), decide (∀ e ∈ r.1,
      e.before.kbd.currentTerminal = e.before.running ∧
      (e.before.kbd.lineMarker e.before.kbd.currentTerminal).toNat < 127 ∧
      e.before.kbd.kbrdBufLength e.before.kbd.currentTerminal ≤
        (e.before.kbd.lineMarker e.before.kbd.currentTerminal).toNat ∧
      (e.before.kbd.readLock e.before.kbd.currentTerminal = 0 →
        ((e.before.kbd.lineMarker e.before.kbd.currentTerminal).toNat : ℤ) ≤
          e.before.kbd.kbrdBufLength e.before.kbd.currentTerminal)))) = some ([0x61], true) := by decide
  obtain ⟨⟨tr, c⟩, hrun, heq⟩ := Option.map_eq_some_iff.mp hfacts
  simp only [Prod.mk.injEq, decide_eq_true_eq] at heq
  refine ⟨tr, c, hrun, heq.1, (input_isolation (hist_of_boot hrun) fun e he hmis => ?_).1⟩
  obtain ⟨hown, hmark, hle, hge⟩ := heq.2 e he
  rcases hmis with ⟨-, hne⟩ | ⟨scancode, ch, -, -, -, hfull⟩ | ⟨scancode, -, -, hpos, hzero⟩ |
    ⟨scancode, -, -, hlock, hlt⟩
  · exact hne hown
  · omega
  · omega
  · have := hge hlock
    omega

/-- The process of terminal 1 begins to read while terminal 0 is shown. Alt+F2, Enter,
Alt+F1, and an `a` on terminal 0: the process is given the `a`. -/
def stolenKey : List ConsoleEvent :=
  [.resume, .resume, .key 0x1E, .key 0x3B, .key 0x38, .key 0x1C, .key 0x3C, .key 0x38, .resume, .call 128, .tick 1]

theorem stolen_key : ∃ tr c, Hist ConsoleInit consoleStep tr c ∧ tr.map (fun e => e.label.1) = stolenKey ∧
    typedOn 1 tr = [] ∧ nonNul (deliveredTo 1 tr) = [0x61] ∧
    ¬ (nonNul (deliveredTo 1 tr)).Sublist (nonNul (typedOn 1 tr)) := by
  have hfacts : (run consoleNext bootConsole stolenKey).map (fun r => (r.1.map fun e => e.label.1,
      typedOn 1 r.1, nonNul (deliveredTo 1 r.1))) = some (stolenKey, [], [0x61]) := by decide +kernel
  obtain ⟨⟨tr, c⟩, hrun, heq⟩ := Option.map_eq_some_iff.mp hfacts
  simp only [Prod.mk.injEq] at heq
  obtain ⟨hlabels, htyped, hdel⟩ := heq
  refine ⟨tr, c, hist_of_boot hrun, hlabels, htyped, hdel, ?_⟩
  rw [htyped, hdel]
  decide

end Mp3Kernel
