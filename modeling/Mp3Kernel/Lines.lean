/-
# The line buffers stay in bounds, and when they do not

A line buffer has two counters: `line_marker`, where the next key goes, and
`kbrd_buf_length`, how many keys a backspace may take back. Only the second one is
tested before a key is stored, and Enter clears it while the first one stays if a read
is on. So a buffer that holds an unread line takes up to 127 keys more, and runs over;
and a read that takes away the line while keys of the next one are in the buffer leaves
a length with no keys behind it. Nothing else goes wrong (`buffer_bounds`).

Key definitions: `SameLines`, `InBounds`, `Overruns`.
Key theorems: `line_cases`, `inBounds_step`, `buffer_bounds`.
-/
import Mp3Kernel.Keyboard

namespace Mp3Kernel

open Past Loop

/-! ### What touches the line buffers -/

/-- The line buffers and their counters are as before. -/
structure SameLines (k k' : Keyboard) : Prop where
  buf : k'.kbrdBuf = k.kbrdBuf
  length : k'.kbrdBufLength = k.kbrdBufLength
  marker : k'.lineMarker = k.lineMarker
  stores : k'.bufStores = k.bufStores
  wrapped : k'.wrapped = k.wrapped

theorem SameLines.refl (k : Keyboard) : SameLines k k := ⟨rfl, rfl, rfl, rfl, rfl⟩

/-- What a key press does to the line buffers. -/
theorem answer_lines (k : Keyboard) (p : Press) :
    (SameLines k (k.answer p) ∧ p ≠ .enter) ∨
    (∃ ch, p = .char ch ∧ k.kbrdBufLength k.currentTerminal < 127 ∧ k.answer p = k.typeKey ch) ∨
    (p = .backspace ∧ 0 < k.kbrdBufLength k.currentTerminal ∧ k.answer p = k.backspaceKey) ∨
    (p = .enter ∧ k.answer p = k.enterKey 0x0A) := by
  cases p with
  | switch t =>
    refine Or.inl ⟨?_, by simp⟩
    unfold Keyboard.answer Keyboard.switchTerminal
    dsimp only
    split_ifs
    · exact ⟨rfl, rfl, rfl, rfl, rfl⟩
    · exact SameLines.refl k
  | enter => exact Or.inr (Or.inr (Or.inr ⟨rfl, rfl⟩))
  | backspace =>
    by_cases hlen : 0 < k.kbrdBufLength k.currentTerminal
    · exact Or.inr (Or.inr (Or.inl ⟨rfl, hlen, rfl⟩))
    · have hsame : k.answer .backspace = k := if_neg hlen
      rw [hsame]
      exact Or.inl ⟨SameLines.refl k, by simp⟩
  | redraw =>
    refine Or.inl ⟨?_, by simp⟩
    unfold Keyboard.answer
    dsimp only
    split_ifs
    · constructor <;> (unfold Keyboard.redraw; dsimp only)
    · exact SameLines.refl k
  | char ch =>
    by_cases hlen : k.kbrdBufLength k.currentTerminal < 127
    · exact Or.inr (Or.inl ⟨ch, rfl, hlen, if_pos hlen⟩)
    · have hsame : k.answer (.char ch) = k := if_neg hlen
      rw [hsame]
      exact Or.inl ⟨SameLines.refl k, by simp⟩
  | _ => exact Or.inl ⟨⟨rfl, rfl, rfl, rfl, rfl⟩, by simp⟩

/-- A step that leaves the line buffers alone. -/
structure QuietStep (c : Console) (l : ConsoleEvent × ConsoleOut) (c' : Console) : Prop where
  same : SameLines c.kbd c'.kbd
  enter : ∀ scancode, l.1 = .key scancode → c.kbd.press scancode ≠ .enter
  out : ∀ buf, l.2 ≠ .delivered buf

/-- What a step does to the line buffers: nothing, or it stores a key, takes one back,
completes a line or copies one out. -/
theorem line_cases {c c' : Console} {l : ConsoleEvent × ConsoleOut} (h : consoleStep c l c') :
    QuietStep c l c' ∨
    (∃ scancode ch, l = (.key scancode, .nothing) ∧ c.kbd.press scancode = .char ch ∧
      c.kbd.kbrdBufLength c.kbd.currentTerminal < 127 ∧ c' = { c with kbd := c.kbd.typeKey ch }) ∨
    (∃ scancode, l = (.key scancode, .nothing) ∧ c.kbd.press scancode = .backspace ∧
      0 < c.kbd.kbrdBufLength c.kbd.currentTerminal ∧ c' = { c with kbd := c.kbd.backspaceKey }) ∨
    (∃ scancode, l = (.key scancode, .nothing) ∧ c.kbd.press scancode = .enter ∧
      c' = { c with kbd := c.kbd.enterKey 0x0A }) ∨
    (∃ n, l = (.resume, .delivered (c.kbd.copyLine n).2) ∧ c.reader c.running = .woken n ∧
      c' = { c with kbd := (c.kbd.copyLine n).1 }.setReader (.copied n)) := by
  obtain ⟨ev, out⟩ := l
  unfold consoleStep at h
  cases ev with
  | key scancode =>
    simp only [consoleNext, Option.some.injEq, Prod.mk.injEq] at h
    obtain ⟨rfl, rfl⟩ := h
    have hkey := Keyboard.kbrdInt_eq c.kbd scancode
    rcases answer_lines c.kbd (c.kbd.press scancode) with ⟨hs, hp⟩ | ⟨ch, hp, hlen, ha⟩ | ⟨hp, hlen, ha⟩ | ⟨hp, ha⟩
    · rw [← hkey] at hs
      refine Or.inl ⟨hs, fun sc hsc => ?_, by simp⟩
      rw [← ConsoleEvent.key.inj hsc]
      exact hp
    · exact Or.inr (Or.inl ⟨scancode, ch, rfl, hp, hlen, by rw [hkey, ha]⟩)
    · exact Or.inr (Or.inr (Or.inl ⟨scancode, rfl, hp, hlen, by rw [hkey, ha]⟩))
    · exact Or.inr (Or.inr (Or.inr (Or.inl ⟨scancode, rfl, hp, by rw [hkey, ha]⟩)))
  | call nbytes =>
    simp only [consoleNext, Option.ite_none_right_eq_some, Option.some.injEq, Prod.mk.injEq] at h
    obtain ⟨-, rfl, rfl⟩ := h
    exact Or.inl ⟨⟨rfl, rfl, rfl, rfl, rfl⟩, by simp, by simp⟩
  | resume =>
    rcases Console.resume_cases h with ⟨n, -, rfl, rfl⟩ | ⟨n, -, rfl, rfl⟩ | ⟨n, -, -, rfl, rfl⟩ |
      ⟨n, hn, rfl, rfl⟩ | ⟨n, -, rfl, rfl⟩ | ⟨n, -, rfl, rfl⟩
    · exact Or.inl ⟨⟨rfl, rfl, rfl, rfl, rfl⟩, by simp, by simp⟩
    · exact Or.inl ⟨SameLines.refl _, by simp, by simp⟩
    · exact Or.inl ⟨⟨rfl, rfl, rfl, rfl, rfl⟩, by simp, by simp⟩
    · exact Or.inr (Or.inr (Or.inr (Or.inr ⟨n, rfl, hn, rfl⟩)))
    · exact Or.inl ⟨⟨rfl, rfl, rfl, rfl, rfl⟩, by simp, by simp⟩
    · exact Or.inl ⟨⟨rfl, rfl, rfl, rfl, rfl⟩, by simp, by simp⟩
  | _ =>
    simp only [consoleNext, Option.some.injEq, Prod.mk.injEq] at h
    obtain ⟨rfl, rfl⟩ := h
    exact Or.inl ⟨⟨rfl, rfl, rfl, rfl, rfl⟩, by simp, by simp⟩

/-! ### Counters of eight bits -/

theorem toNat_ofInt {v : ℤ} (h0 : 0 ≤ v) (h1 : v < 256) : ((UInt8.ofInt v).toNat : ℤ) = v := by
  obtain ⟨n, rfl⟩ := Int.eq_ofNat_of_zero_le h0
  rw [UInt8.ofInt, UInt8.toNat_ofNat']
  omega

theorem writeBytes_eq (k : Keyboard) {n : ℕ} (hn : 1 ≤ n) :
    k.writeBytes n =
      if (k.lineMarker k.currentTerminal).toNat < n then 0 else (k.lineMarker k.currentTerminal).toNat - (n - 1) := by
  unfold Keyboard.writeBytes
  dsimp only
  by_cases h : (k.lineMarker k.currentTerminal).toNat < n
  · rw [if_pos h, if_pos (by omega)]
  · rw [if_neg h, if_neg (by omega)]
    omega

theorem copyLine_eq (k : Keyboard) (n : ℕ) : k.copyLine n = k.moveLine (min n 128) (k.writeBytes n) := by
  unfold Keyboard.copyLine
  by_cases h : n < kbrdBufSize
  · rw [if_pos h, min_eq_left (by simp only [kbrdBufSize] at h; omega)]
  · rw [if_neg h, min_eq_right (by simp only [kbrdBufSize] at h; omega)]

/-! ### Bounds -/

/-- The bounds of the line buffers: `0 ≤ kbrd_buf_length ≤ line_marker ≤ 127`, no byte
stored outside its row, no marker that did not fit. -/
structure InBounds (k : Keyboard) : Prop where
  length : ∀ t, 0 ≤ k.kbrdBufLength t
  marker : ∀ t, k.kbrdBufLength t ≤ (k.lineMarker t).toNat
  markerLe : ∀ t, (k.lineMarker t).toNat ≤ 127
  stores : ∀ o ∈ k.bufStores, 0 ≤ o.2 ∧ o.2 ≤ 127
  wrapped : k.wrapped = false

/-- The two steps that break them: a key is stored behind a full row, or a line is copied
out of a buffer in which more keys of the next line are counted than stay. -/
def Overruns (e : ConsoleEntry) : Prop :=
  let k := e.before.kbd
  (∃ scancode ch, e.label.1 = .key scancode ∧ k.press scancode = .char ch ∧
    k.kbrdBufLength k.currentTerminal < 127 ∧ 127 ≤ (k.lineMarker k.currentTerminal).toNat) ∨
  (∃ n, e.label.1 = .resume ∧ e.before.reader e.before.running = .woken n ∧
    (k.writeBytes n : ℤ) < k.kbrdBufLength k.currentTerminal)

section Bounds

variable {k : Keyboard}

theorem InBounds.same {k' : Keyboard} (h : InBounds k) (hs : SameLines k k') : InBounds k' :=
  ⟨fun t => hs.length ▸ h.length t, fun t => by rw [hs.length, hs.marker]; exact h.marker t,
    fun t => hs.marker ▸ h.markerLe t, fun o ho => h.stores o (hs.stores ▸ ho), hs.wrapped.trans h.wrapped⟩

/-- Bounds, when the counters of one terminal have changed. -/
theorem InBounds.update (h : InBounds k) (k' : Keyboard) (t : Terminal) (len mark : ℤ)
    (new : List (Terminal × ℤ)) (hlen : 0 ≤ len) (hmark : len ≤ mark) (hmax : mark ≤ 127)
    (hl : k'.kbrdBufLength = Function.update k.kbrdBufLength t len)
    (hm : k'.lineMarker = Function.update k.lineMarker t (UInt8.ofInt mark))
    (hw : k'.wrapped = (k.wrapped || !decide (0 ≤ mark ∧ mark < 256)))
    (hs : k'.bufStores = new ++ k.bufStores) (hnew : ∀ o ∈ new, 0 ≤ o.2 ∧ o.2 ≤ 127) : InBounds k' := by
  have hval := toNat_ofInt (show 0 ≤ mark by omega) (show mark < 256 by omega)
  refine ⟨fun u => ?_, fun u => ?_, fun u => ?_, fun o ho => ?_, ?_⟩
  · rw [hl, Function.update_apply]
    split_ifs
    · exact hlen
    · exact h.length u
  · rw [hl, hm, Function.update_apply, Function.update_apply]
    split_ifs
    · omega
    · exact h.marker u
  · rw [hm, Function.update_apply]
    split_ifs
    · omega
    · exact h.markerLe u
  · rw [hs] at ho
    rcases List.mem_append.mp ho with ho | ho
    · exact hnew o ho
    · exact h.stores o ho
  · rw [hw, h.wrapped, decide_eq_true (by omega)]
    rfl

theorem InBounds.typeKey (h : InBounds k) (ch : UInt8) (hfits : (k.lineMarker k.currentTerminal).toNat < 127) :
    InBounds (k.typeKey ch) := by
  have h1 := h.length k.currentTerminal
  have h2 := h.marker k.currentTerminal
  refine h.update _ k.currentTerminal (k.kbrdBufLength k.currentTerminal + 1)
    ((k.lineMarker k.currentTerminal).toNat + 1) [(k.currentTerminal, (k.lineMarker k.currentTerminal).toNat)]
    (by omega) (by omega) (by omega) rfl rfl rfl rfl ?_
  intro o ho
  rw [List.mem_singleton.mp ho]
  exact ⟨by omega, by show ((k.lineMarker k.currentTerminal).toNat : ℤ) ≤ 127; omega⟩

theorem InBounds.backspaceKey (h : InBounds k) (hlen : 0 < k.kbrdBufLength k.currentTerminal) :
    InBounds k.backspaceKey := by
  have h2 := h.marker k.currentTerminal
  have h3 := h.markerLe k.currentTerminal
  unfold Keyboard.backspaceKey
  dsimp only
  rw [if_pos hlen]
  refine h.update _ k.currentTerminal (k.kbrdBufLength k.currentTerminal - 1)
    ((k.lineMarker k.currentTerminal).toNat - 1) [(k.currentTerminal, (k.lineMarker k.currentTerminal).toNat - 1)]
    (by omega) (by omega) (by omega) rfl rfl rfl rfl ?_
  intro o ho
  rw [List.mem_singleton.mp ho]
  exact ⟨by show (0 : ℤ) ≤ (k.lineMarker k.currentTerminal).toNat - 1; omega,
    by show ((k.lineMarker k.currentTerminal).toNat : ℤ) - 1 ≤ 127; omega⟩

theorem block_in_row (t : Terminal) {i n : ℕ} (h : i + n ≤ 128) :
    ∀ o ∈ (List.range n).map fun j : ℕ => (t, ((i + j : ℕ) : ℤ)), 0 ≤ o.2 ∧ o.2 ≤ 127 := by
  intro o ho
  obtain ⟨j, hj, rfl⟩ := List.mem_map.mp ho
  rw [List.mem_range] at hj
  exact ⟨by show (0 : ℤ) ≤ ((i + j : ℕ) : ℤ); omega, by show ((i + j : ℕ) : ℤ) ≤ 127; omega⟩

theorem InBounds.enterKey (h : InBounds k) (key : UInt8) : InBounds (k.enterKey key) := by
  have h3 := h.markerLe k.currentTerminal
  unfold Keyboard.enterKey
  dsimp only
  split_ifs with hlock
  · exact h.update _ k.currentTerminal 0 0 _ (by omega) (by omega) (by omega) rfl rfl rfl rfl
      (block_in_row k.currentTerminal (i := 0) (n := kbrdBufSize) (by decide))
  · have hsame : k.lineMarker = Function.update k.lineMarker k.currentTerminal
        (UInt8.ofInt (k.lineMarker k.currentTerminal).toNat) := by
      have hval := toNat_ofInt (v := (k.lineMarker k.currentTerminal).toNat) (by omega) (by omega)
      rw [UInt8.toNat_inj.mp (Nat.cast_inj.mp hval), Function.update_eq_self]
    exact h.update _ k.currentTerminal 0 (k.lineMarker k.currentTerminal).toNat [] (by omega) (by omega) (by omega)
      rfl hsame (by rw [decide_eq_true (by omega)]; simp) rfl (by simp)

theorem InBounds.copyLine (h : InBounds k) {n : ℕ} (hn : 1 ≤ n)
    (hfits : k.kbrdBufLength k.currentTerminal ≤ k.writeBytes n) : InBounds (k.copyLine n).1 := by
  have h1 := h.length k.currentTerminal
  have h3 := h.markerLe k.currentTerminal
  have hstay := writeBytes_eq k hn
  have hin : k.writeBytes n + min n 128 ≤ 128 := by
    rw [hstay]
    split_ifs <;> omega
  rw [copyLine_eq]
  have hlen : (k.moveLine (min n 128) (k.writeBytes n)).1.kbrdBufLength =
      Function.update k.kbrdBufLength k.currentTerminal (k.kbrdBufLength k.currentTerminal) :=
    (Function.update_eq_self ..).symm
  refine h.update _ k.currentTerminal (k.kbrdBufLength k.currentTerminal) (k.writeBytes n)
    (((List.range (min n 128)).map fun j : ℕ => (k.currentTerminal, ((k.writeBytes n + j : ℕ) : ℤ))) ++
      (List.range (k.writeBytes n)).map fun j : ℕ => (k.currentTerminal, (j : ℤ)))
    h1 hfits (by omega) hlen rfl rfl (List.append_assoc ..).symm ?_
  intro o ho
  rcases List.mem_append.mp ho with ho | ho
  · exact block_in_row k.currentTerminal hin o ho
  · refine block_in_row k.currentTerminal (i := 0) (n := k.writeBytes n) (by omega) o ?_
    simpa using ho

end Bounds

/-! ### Runs -/

/-- The size a process in `terminal_read` has asked for. -/
def ReaderPc.size : ReaderPc → ℕ
  | .outside => 1
  | .locked n => n
  | .waiting n => n
  | .woken n => n
  | .copied n => n
  | .unlocked n => n

/-- All readers have asked for something. -/
def Asked (c : Console) : Prop := ∀ t, 1 ≤ (c.reader t).size

theorem asked_setReader {c : Console} (h : Asked c) {pc : ReaderPc} (hpc : 1 ≤ pc.size) : Asked (c.setReader pc) := by
  intro t
  show 1 ≤ (Function.update c.reader c.running pc t).size
  rw [Function.update_apply]
  split_ifs
  · exact hpc
  · exact h t

theorem asked_step {c c' : Console} {l : ConsoleEvent × ConsoleOut} (h : Asked c) (hstep : consoleStep c l c') :
    Asked c' := by
  obtain ⟨ev, out⟩ := l
  unfold consoleStep at hstep
  cases ev with
  | call nbytes =>
    simp only [consoleNext, Option.ite_none_right_eq_some, Option.some.injEq, Prod.mk.injEq] at hstep
    rw [← hstep.2.1]
    exact asked_setReader h hstep.1.2
  | resume =>
    have hnow := h c.running
    rcases Console.resume_cases hstep with ⟨n, hn, -, rfl⟩ | ⟨n, hn, -, rfl⟩ | ⟨n, hn, -, -, rfl⟩ |
      ⟨n, hn, -, rfl⟩ | ⟨n, hn, -, rfl⟩ | ⟨n, hn, -, rfl⟩
    all_goals rw [hn] at hnow
    · exact asked_setReader h hnow
    · exact h
    · exact asked_setReader h hnow
    · exact asked_setReader h hnow
    · exact asked_setReader h hnow
    · exact asked_setReader h (le_refl 1)
  | _ =>
    simp only [consoleNext, Option.some.injEq, Prod.mk.injEq] at hstep
    rw [← hstep.1]
    exact h

/-- One step keeps the bounds, unless it is one of the two. -/
theorem inBounds_step {c c' : Console} {l : ConsoleEvent × ConsoleOut} (h : InBounds c.kbd) (hasked : Asked c)
    (hstep : consoleStep c l c') (hno : ¬ Overruns ⟨c, l, c'⟩) : InBounds c'.kbd := by
  rcases line_cases hstep with hq | ⟨scancode, ch, rfl, hp, hlen, rfl⟩ | ⟨scancode, rfl, hp, hlen, rfl⟩ |
    ⟨scancode, rfl, hp, rfl⟩ | ⟨n, rfl, hn, rfl⟩
  · exact h.same hq.same
  · refine h.typeKey ch ?_
    by_contra hfull
    exact hno (Or.inl ⟨scancode, ch, rfl, hp, hlen, not_lt.mp hfull⟩)
  · exact h.backspaceKey hlen
  · exact h.enterKey 0x0A
  · have hsize := hasked c.running
    rw [hn] at hsize
    refine h.copyLine hsize ?_
    by_contra hmore
    exact hno (Or.inr ⟨n, rfl, hn, not_le.mp hmore⟩)

theorem marker_of_fits {k : Keyboard} (h : InBounds k) {t : Terminal} {v : ℤ} {b : Bool}
    (hm : k.lineMarker t = UInt8.ofInt v) (hw : k.wrapped = (b || !decide (0 ≤ v ∧ v < 256))) :
    ((k.lineMarker t).toNat : ℤ) = v := by
  have hfits : 0 ≤ v ∧ v < 256 := by
    by_contra hno
    rw [decide_eq_false hno, h.wrapped] at hw
    simp at hw
  rw [hm]
  exact toNat_ofInt hfits.1 hfits.2

/-- Each of the two breaks them. -/
theorem Overruns.broken {e : ConsoleEntry} (hstep : consoleStep e.before e.label e.after) (h : Overruns e) :
    ¬ InBounds e.after.kbd := by
  intro hin
  unfold consoleStep at hstep
  rcases h with ⟨scancode, ch, hl, hp, hlen, hfull⟩ | ⟨n, hl, hn, hmore⟩
  · have hafter : e.after.kbd = e.before.kbd.typeKey ch := by
      rw [hl] at hstep
      simp only [consoleNext, Option.some.injEq, Prod.mk.injEq] at hstep
      rw [← hstep.1]
      show e.before.kbd.kbrdInt scancode = _
      rw [Keyboard.kbrdInt_eq, hp]
      exact if_pos hlen
    rw [hafter] at hin
    have hle := hin.markerLe e.before.kbd.currentTerminal
    have hval : (((e.before.kbd.typeKey ch).lineMarker e.before.kbd.currentTerminal).toNat : ℤ) =
        (e.before.kbd.lineMarker e.before.kbd.currentTerminal).toNat + 1 :=
      marker_of_fits hin (Function.update_self ..) rfl
    omega
  · have hafter : e.after.kbd = (e.before.kbd.copyLine n).1 := by
      rw [hl] at hstep
      simp only [consoleNext, Console.resume, hn, Option.some.injEq, Prod.mk.injEq] at hstep
      rw [← hstep.1]
      rfl
    rw [hafter, copyLine_eq] at hin
    have hle := hin.marker e.before.kbd.currentTerminal
    have hval := marker_of_fits hin (t := e.before.kbd.currentTerminal) (Function.update_self ..) rfl
    have hsame : (e.before.kbd.moveLine (min n 128) (e.before.kbd.writeBytes n)).1.kbrdBufLength =
      e.before.kbd.kbrdBufLength := rfl
    rw [hval, hsame] at hle
    omega

theorem inBounds_init {c : Console} (h : ConsoleInit c) : InBounds c.kbd ∧ Asked c := by
  refine ⟨⟨fun t => ?_, fun t => ?_, fun t => ?_, fun o ho => ?_, h.wrapped⟩, fun t => ?_⟩
  · rw [h.length t]
  · rw [h.length t]
    omega
  · rw [h.marker t]
    decide
  · rw [h.bufStores] at ho
    exact absurd ho (by simp)
  · rw [h.reader t]
    decide

/-- **Keyboard buffer bounds.** In every run from the empty buffers, with reads of at
least one byte: the bounds hold in every state reached exactly if no key is stored
behind a full row, and no line is copied out while more keys of the next one are
counted than stay. -/
theorem buffer_bounds {tr : List ConsoleEntry} {c : Console} (h : Hist ConsoleInit consoleStep tr c) :
    (∀ e ∈ tr, InBounds e.after.kbd) ↔ ∀ e ∈ tr, ¬ Overruns e := by
  constructor
  · intro hall e he hover
    obtain ⟨new, old, rfl⟩ := List.append_of_mem he
    exact hover.broken h.reached.2 (hall e he)
  · have hrun : (∀ e ∈ tr, ¬ Overruns e) →
        (InBounds c.kbd ∧ Asked c) ∧ ∀ e ∈ tr, InBounds e.after.kbd := by
      induction h with
      | start hi => exact fun _ => ⟨inBounds_init hi, by simp⟩
      | next hp hst ih =>
        intro hno
        obtain ⟨hnow, hold⟩ := List.forall_mem_cons.mp hno
        obtain ⟨⟨hbefore, hasked⟩, hall⟩ := ih hold
        have hafter := inBounds_step hbefore hasked hst hnow
        exact ⟨⟨hafter, asked_step hasked hst⟩, List.forall_mem_cons.mpr ⟨hafter, hall⟩⟩
    exact fun hno => (hrun hno).2

theorem hist_of_boot {evs : List ConsoleEvent} {tr : List ConsoleEntry} {c : Console}
    (h : run consoleNext bootConsole evs = some (tr, c)) : Hist ConsoleInit consoleStep tr c :=
  hist_of_run consoleInit_boot h

/-- A line with one key, read to its end; the events are listed newest first. -/
def oneLine : List ConsoleEvent :=
  [.resume, .resume, .resume, .resume, .key 0x1C, .key 0x1E, .resume, .call 128]

theorem buffer_bounds_line : ∃ tr c, run consoleNext bootConsole oneLine = some (tr, c) ∧ tr.length = 8 ∧
    ∀ e ∈ tr, InBounds e.after.kbd := by
  have hfacts : (run consoleNext bootConsole oneLine).map (fun r => (r.1.length, decide (∀ e ∈ r.1,
      (e.before.kbd.lineMarker e.before.kbd.currentTerminal).toNat < 127 ∧
        (e.label.1 = .resume → e.before.kbd.kbrdBufLength e.before.kbd.currentTerminal ≤ 0)))) =
      some (8, true) := by decide
  obtain ⟨⟨tr, c⟩, hrun, heq⟩ := Option.map_eq_some_iff.mp hfacts
  simp only [Prod.mk.injEq, decide_eq_true_eq] at heq
  refine ⟨tr, c, hrun, heq.1, (buffer_bounds (hist_of_boot hrun)).mpr fun e he hover => ?_⟩
  obtain ⟨hmark, hlen⟩ := heq.2 e he
  rcases hover with ⟨scancode, ch, -, -, -, hfull⟩ | ⟨n, hl, -, hmore⟩
  · omega
  · have := hlen hl
    omega

/-- A read waits; Enter, and before the reader runs a key of the next line; then the copy
and a backspace: the length has outlived its keys, and the backspace stores before the
row. -/
def lateKey : List ConsoleEvent :=
  [.key 0x0E, .resume, .resume, .key 0x1E, .key 0x1C, .resume, .call 128]

theorem late_key_overrun : ∃ tr c, Hist ConsoleInit consoleStep tr c ∧
    tr.map (fun e => e.label.1) = lateKey ∧ (0, -1) ∈ c.kbd.bufStores ∧ c.kbd.lineMarker 0 = 255 ∧
    ¬ ∀ e ∈ tr, InBounds e.after.kbd := by
  have hfacts : (run consoleNext bootConsole lateKey).map (fun r => (r.1.map fun e => e.label.1,
      r.1.length, decide (((0 : Terminal), (-1 : ℤ)) ∈ r.2.kbd.bufStores), r.2.kbd.lineMarker 0)) =
      some (lateKey, 7, true, 255) := by decide
  obtain ⟨⟨tr, c⟩, hrun, heq⟩ := Option.map_eq_some_iff.mp hfacts
  simp only [Prod.mk.injEq, decide_eq_true_eq] at heq
  obtain ⟨hlabels, hlen, hstore, hmark⟩ := heq
  have hhist := hist_of_boot hrun
  refine ⟨tr, c, hhist, hlabels, hstore, hmark, fun hall => ?_⟩
  cases hhist with
  | start => exact absurd hlen (by simp)
  | next hp hst =>
    have hin := (hall _ List.mem_cons_self).markerLe 0
    rw [hmark] at hin
    exact absurd hin (by decide)

end Mp3Kernel
