/-
# The line discipline

A process waits in `terminal_read` with a buffer of at least 128 bytes, on its own
terminal, which stays displayed. What it should get is the line as edited up to the
first Enter; what is typed after that should be there for the next read. But the copy
takes all that is in the buffer, and the keys typed between Enter and the copy are in
the same buffer, behind the line: they are delivered with it (`late_key`).

`Edit` is the line editor by itself: the completed lines, and the keys of the line
being typed. The buffer is at all times what it says (`Following`), so the read is
right when every key typed after Enter has been taken back before the copy, and nothing
else touches the buffer and its flags (`line_discipline`).

Key definitions: `Edit`, `firstLine`, `afterFirst`, `Blocked`, `Orderly`, `Following`.
Key theorems: `edit_enter`, `following_step`, `line_discipline`.
-/
import Mp3Kernel.Input

namespace Mp3Kernel

open Past Terminal

/-! ### The line editor -/

/-- The keys of the line discipline. -/
inductive LineKey where
  | char (c : UInt8)
  | backspace
  | enter
deriving DecidableEq, Repr

/-- Completed lines, and the line being typed. -/
structure Edit where
  done : List UInt8
  cur : List UInt8
deriving DecidableEq, Repr

namespace Edit

/-- One key: a line takes 127 characters. -/
def press (e : Edit) : LineKey → Edit
  | .char c => if e.cur.length < 127 then { e with cur := e.cur ++ [c] } else e
  | .backspace => { e with cur := e.cur.dropLast }
  | .enter => ⟨e.done ++ e.cur, []⟩

/-- All that has been typed and not taken back. -/
def text (e : Edit) : List UInt8 := e.done ++ e.cur

end Edit

/-- The editor after a sequence of keys, the first one first. -/
def edit (keys : List LineKey) : Edit := keys.foldl Edit.press ⟨[], []⟩

/-- The keys before the first Enter. -/
def beforeFirst : List LineKey → List LineKey
  | [] => []
  | .enter :: _ => []
  | key :: keys => key :: beforeFirst keys

/-- The keys after the first Enter. -/
def afterFirst : List LineKey → List LineKey
  | [] => []
  | .enter :: keys => keys
  | _ :: keys => afterFirst keys

/-- The line up to the first Enter, as edited. -/
def firstLine (keys : List LineKey) : List UInt8 := (edit (beforeFirst keys)).cur

theorem edit_concat (keys : List LineKey) (key : LineKey) : edit (keys ++ [key]) = (edit keys).press key := by
  unfold edit
  rw [List.foldl_append]
  rfl

/-- Completed text in front does not change what is typed behind it. -/
theorem foldl_press_append (keys : List LineKey) (front : List UInt8) (e : Edit) :
    keys.foldl Edit.press ⟨front ++ e.done, e.cur⟩ =
      ⟨front ++ (keys.foldl Edit.press e).done, (keys.foldl Edit.press e).cur⟩ := by
  induction keys generalizing e with
  | nil => rfl
  | cons key keys ih =>
    have hkey : Edit.press ⟨front ++ e.done, e.cur⟩ key = ⟨front ++ (e.press key).done, (e.press key).cur⟩ := by
      cases key with
      | char c =>
        unfold Edit.press
        dsimp only
        split_ifs <;> rfl
      | backspace => rfl
      | enter =>
        show (⟨front ++ e.done ++ e.cur, []⟩ : Edit) = ⟨front ++ (e.done ++ e.cur), []⟩
        rw [List.append_assoc]
    rw [List.foldl_cons, List.foldl_cons, hkey]
    exact ih (e.press key)

/-- Without Enter there is no completed line. -/
theorem edit_done {keys : List LineKey} (h : LineKey.enter ∉ keys) : (edit keys).done = [] := by
  induction keys using List.reverseRecOn with
  | nil => rfl
  | append_singleton keys key ih =>
    rw [List.mem_append, not_or] at h
    have hdone := ih h.1
    rw [edit_concat]
    cases key with
    | char c =>
      unfold Edit.press
      dsimp only
      split_ifs <;> exact hdone
    | backspace => exact hdone
    | enter => exact absurd (List.mem_singleton_self _) h.2

theorem edit_cur_le (keys : List LineKey) : (edit keys).cur.length ≤ 127 := by
  induction keys using List.reverseRecOn with
  | nil => exact Nat.zero_le _
  | append_singleton keys key ih =>
    rw [edit_concat]
    cases key with
    | char c =>
      unfold Edit.press
      dsimp only
      split_ifs with hlen
      · rw [List.length_append, List.length_singleton]
        omega
      · exact ih
    | backspace =>
      show (edit keys).cur.dropLast.length ≤ 127
      rw [List.length_dropLast]
      omega
    | enter => exact Nat.zero_le _

theorem enter_notMem_beforeFirst (keys : List LineKey) : LineKey.enter ∉ beforeFirst keys := by
  induction keys with
  | nil => exact List.not_mem_nil
  | cons key keys ih =>
    cases key with
    | enter => exact List.not_mem_nil
    | char c => simpa [beforeFirst] using ih
    | backspace => simpa [beforeFirst] using ih

/-- The keys around the first Enter, and one more at the end. -/
theorem split_enter {keys : List LineKey} (h : LineKey.enter ∈ keys) :
    keys = beforeFirst keys ++ .enter :: afterFirst keys ∧
      ∀ key, beforeFirst (keys ++ [key]) = beforeFirst keys ∧
        afterFirst (keys ++ [key]) = afterFirst keys ++ [key] := by
  induction keys with
  | nil => exact absurd h List.not_mem_nil
  | cons k keys ih =>
    cases k with
    | enter => exact ⟨rfl, fun key => ⟨rfl, rfl⟩⟩
    | char c =>
      obtain ⟨hsplit, hmore⟩ := ih (by simpa using h)
      exact ⟨congrArg (LineKey.char c :: ·) hsplit,
        fun key => ⟨congrArg (LineKey.char c :: ·) (hmore key).1, (hmore key).2⟩⟩
    | backspace =>
      obtain ⟨hsplit, hmore⟩ := ih (by simpa using h)
      exact ⟨congrArg (LineKey.backspace :: ·) hsplit,
        fun key => ⟨congrArg (LineKey.backspace :: ·) (hmore key).1, (hmore key).2⟩⟩

/-- All keys together: the first line, and behind it what the later keys make. -/
theorem edit_enter {keys : List LineKey} (h : LineKey.enter ∈ keys) :
    edit keys = ⟨firstLine keys ++ (edit (afterFirst keys)).done, (edit (afterFirst keys)).cur⟩ := by
  have hfirst : Edit.press (edit (beforeFirst keys)) .enter = ⟨firstLine keys ++ [], []⟩ := by
    show (⟨(edit _).done ++ (edit _).cur, []⟩ : Edit) = _
    rw [edit_done (enter_notMem_beforeFirst keys), List.nil_append, List.append_nil]
    rfl
  calc edit keys = edit (beforeFirst keys ++ .enter :: afterFirst keys) := by rw [← (split_enter h).1]
    _ = (afterFirst keys).foldl Edit.press ((edit (beforeFirst keys)).press .enter) := by
      unfold edit
      rw [List.foldl_append]
      rfl
    _ = (afterFirst keys).foldl Edit.press ⟨firstLine keys ++ [], []⟩ := by rw [hfirst]
    _ = _ := foldl_press_append (afterFirst keys) (firstLine keys) ⟨[], []⟩

/-! ### Runs -/

/-- The key of the line discipline that is pressed. -/
def Press.lineKey : Press → Option LineKey
  | .char c => some (.char c)
  | .backspace => some .backspace
  | .enter => some .enter
  | _ => none

/-- The key a step presses. -/
def keyTyped (e : ConsoleEntry) : Option LineKey :=
  match e.label.1 with
  | .key scancode => (e.before.kbd.press scancode).lineKey
  | _ => none

/-- The keys of a run, in order. -/
def keysTyped : List ConsoleEntry → List LineKey
  | [] => []
  | e :: old => keysTyped old ++ (keyTyped e).toList

/-- The buffer a step fills for the process of terminal `t`. -/
def bufferTo (t : Terminal) (e : ConsoleEntry) : Option (List UInt8) :=
  match e.label.2 with
  | .delivered buf => if e.before.running = t then some buf else none
  | _ => none

/-- The buffers filled for the process of terminal `t`, in order. -/
def buffersTo (t : Terminal) : List ConsoleEntry → List (List UInt8)
  | [] => []
  | e :: old => buffersTo t old ++ (bufferTo t e).toList

/-- Terminal `t` stays displayed, and its process does not begin another read. -/
def StaysOn (t : Terminal) (e : ConsoleEntry) : Prop :=
  e.after.kbd.currentTerminal = t ∧ ∀ n, e.label.1 = .call n → e.before.running ≠ t

/-- The process of terminal `t`, which is displayed, waits for a line of up to `n` bytes,
with nothing in the buffer. -/
structure Blocked (t : Terminal) (n : ℕ) (c : Console) : Prop where
  shown : c.kbd.currentTerminal = t
  reader : c.reader t = .waiting n
  lock : c.kbd.readLock t ≠ 0
  enter : c.kbd.isEnter t = 0
  empty : Holds c.kbd t [] []
  length : c.kbd.kbrdBufLength t = 0

/-- What a step must not do: copy while something typed after the first Enter is in the
buffer; clear, by an Enter after the lock is gone, a buffer that is not empty; store a
key at a marker of 255; or go on, in a read of another terminal, beyond its waiting
loop. -/
structure Orderly (old : List ConsoleEntry) (e : ConsoleEntry) : Prop where
  copy : ∀ n, e.label.1 = .resume → e.before.reader e.before.running = .woken n →
    (edit (afterFirst (keysTyped old))).text = []
  clear : keyTyped e = some .enter → e.before.kbd.readLock e.before.kbd.currentTerminal = 0 →
    (e.before.kbd.lineMarker e.before.kbd.currentTerminal).toNat = 0
  room : ∀ ch, keyTyped e = some (.char ch) → e.before.kbd.kbrdBufLength e.before.kbd.currentTerminal < 127 →
    (e.before.kbd.lineMarker e.before.kbd.currentTerminal).toNat < 255
  own : e.label.1 = .resume → e.before.running ≠ e.before.kbd.currentTerminal →
    ∃ n, e.before.reader e.before.running = .waiting n

/-- All steps of a run are orderly. -/
def OrderlyRun : List ConsoleEntry → Prop
  | [] => True
  | e :: old => Orderly old e ∧ OrderlyRun old

/-- While terminal `t` is displayed and its process runs, it is enough to watch the lock, the
marker and the copies. -/
theorem orderlyRun_of_shown {t : Terminal} {tr : List ConsoleEntry}
    (h : ∀ part ∈ tr.tails, ∀ e ∈ part.head?, e.before.running = t ∧ e.before.kbd.currentTerminal = t ∧
      (e.before.kbd.readLock t = 0 → (e.before.kbd.lineMarker t).toNat = 0) ∧
      (e.before.kbd.lineMarker t).toNat < 255 ∧
      (e.label.1 = .resume → (edit (afterFirst (keysTyped part.tail))).text = [])) : OrderlyRun tr := by
  induction tr with
  | nil => trivial
  | cons e old ih =>
    rw [List.tails_cons] at h
    obtain ⟨hnow, hold⟩ := List.forall_mem_cons.mp h
    obtain ⟨hrunning, hcurrent, hclear, hroom, hcopy⟩ := hnow e rfl
    refine ⟨⟨fun n hl _ => hcopy hl, ?_, fun ch _ _ => ?_, fun _ hne => ?_⟩, ih hold⟩
    · rw [hcurrent]
      exact fun _ => hclear
    · rw [hcurrent]
      exact hroom
    · exact absurd (hrunning.trans hcurrent.symm) hne

/-- The buffer of terminal `t` is what the editor says. -/
structure Edited (k : Keyboard) (t : Terminal) (e : Edit) : Prop where
  holds : Holds k t e.done e.cur
  length : k.kbrdBufLength t = e.cur.length

/-! ### Keys -/

section Keys

variable {k : Keyboard} {p : Press} {key : LineKey}

/-- What a key of the line discipline does to the flags. -/
theorem answer_lineKey (hp : p.lineKey = some key) :
    (k.answer p).currentTerminal = k.currentTerminal ∧
      (k.answer p).isEnter = if key = .enter then Function.update k.isEnter k.currentTerminal 1 else k.isEnter := by
  cases p with
  | char c =>
    rw [← Option.some.inj hp, if_neg (by simp)]
    simp only [Keyboard.answer, Keyboard.typeKey]
    split_ifs <;> exact ⟨rfl, rfl⟩
  | backspace =>
    rw [← Option.some.inj hp, if_neg (by simp)]
    simp only [Keyboard.answer, Keyboard.backspaceKey]
    split_ifs <;> exact ⟨rfl, rfl⟩
  | enter =>
    rw [← Option.some.inj hp, if_pos rfl]
    simp only [Keyboard.answer, Keyboard.enterKey]
    split_ifs <;> exact ⟨rfl, rfl⟩
  | _ => cases hp

/-- A key of another kind leaves the line buffers and the Enter flags. -/
theorem answer_otherKey (hp : p.lineKey = none) :
    SameLines k (k.answer p) ∧ (k.answer p).isEnter = k.isEnter := by
  constructor
  · rcases answer_lines k p with ⟨hs, -⟩ | ⟨ch, rfl, -⟩ | ⟨rfl, -⟩ | ⟨rfl, -⟩
    · exact hs
    all_goals cases hp
  · cases p with
    | switch t =>
      simp only [Keyboard.answer, Keyboard.switchTerminal]
      split_ifs <;> rfl
    | redraw =>
      simp only [Keyboard.answer]
      split_ifs
      · unfold Keyboard.redraw
        dsimp only
      · rfl
    | char c => cases hp
    | backspace => cases hp
    | enter => cases hp
    | _ => rfl

section Follow

variable {e : Edit} (h : Edited k k.currentTerminal e)

include h

theorem Edited.char (c : UInt8) (hroom : k.kbrdBufLength k.currentTerminal < 127 →
    (k.lineMarker k.currentTerminal).toNat < 255) :
    Edited (k.answer (.char c)) k.currentTerminal (e.press (.char c)) := by
  have hlen := h.length
  have hmark := h.holds.marker
  by_cases hfull : k.kbrdBufLength k.currentTerminal < 127
  · have hans : k.answer (.char c) = k.typeKey c := if_pos hfull
    have hpress : e.press (.char c) = { e with cur := e.cur ++ [c] } := if_pos (by omega)
    have hfits := hroom hfull
    rw [hans, hpress]
    refine ⟨h.holds.typeKey c (by omega), ?_⟩
    show Function.update k.kbrdBufLength k.currentTerminal (k.kbrdBufLength k.currentTerminal + 1) _ = _
    rw [Function.update_self, hlen, List.length_append, List.length_singleton]
    push_cast
    rfl
  · have hans : k.answer (.char c) = k := if_neg hfull
    have hpress : e.press (.char c) = e := if_neg (by omega)
    rw [hans, hpress]
    exact h

theorem Edited.backspace : Edited (k.answer .backspace) k.currentTerminal (e.press .backspace) := by
  have hlen := h.length
  by_cases hpos : 0 < k.kbrdBufLength k.currentTerminal
  · have hcurpos : 0 < e.cur.length := by omega
    refine ⟨h.holds.backspaceKey hpos (List.length_pos_iff.mp hcurpos), ?_⟩
    show (Keyboard.backspaceKey k).kbrdBufLength k.currentTerminal = (e.cur.dropLast.length : ℤ)
    unfold Keyboard.backspaceKey
    dsimp only
    rw [if_pos hpos, List.length_dropLast]
    show Function.update k.kbrdBufLength k.currentTerminal (k.kbrdBufLength k.currentTerminal - 1) _ = _
    rw [Function.update_self]
    omega
  · have hans : k.answer .backspace = k := if_neg hpos
    have hnil : e.cur = [] := List.length_eq_zero_iff.mp (by omega)
    have hpress : e.press .backspace = e := by
      show ({ e with cur := e.cur.dropLast } : Edit) = e
      rw [hnil, List.dropLast_nil, ← hnil]
    rw [hans, hpress]
    exact h

theorem Edited.enter (hclear : k.readLock k.currentTerminal = 0 → (k.lineMarker k.currentTerminal).toNat = 0) :
    Edited (k.answer .enter) k.currentTerminal (e.press .enter) := by
  have hmark := h.holds.marker
  constructor
  · by_cases hlock : k.readLock k.currentTerminal = 0
    · have hempty : e.done ++ e.cur = [] := List.length_eq_zero_iff.mp (hmark ▸ hclear hlock)
      show Holds (k.enterKey 0x0A) k.currentTerminal (e.done ++ e.cur) []
      rw [hempty]
      exact holds_enterKey_unlocked 0x0A hlock
    · exact h.holds.enterKey_locked 0x0A hlock
  · show (k.enterKey 0x0A).kbrdBufLength k.currentTerminal = 0
    unfold Keyboard.enterKey
    dsimp only
    split_ifs
    · exact Function.update_self ..
    · exact Function.update_self ..

/-- The buffer follows the editor. -/
theorem Edited.press (hp : p.lineKey = some key)
    (hroom : ∀ ch, p = .char ch → k.kbrdBufLength k.currentTerminal < 127 →
      (k.lineMarker k.currentTerminal).toNat < 255)
    (hclear : p = .enter → k.readLock k.currentTerminal = 0 → (k.lineMarker k.currentTerminal).toNat = 0) :
    Edited (k.answer p) k.currentTerminal (e.press key) := by
  cases p with
  | char c =>
    rw [← Option.some.inj hp]
    exact h.char c (hroom c rfl)
  | backspace =>
    rw [← Option.some.inj hp]
    exact h.backspace
  | enter =>
    rw [← Option.some.inj hp]
    exact h.enter (hclear rfl)
  | _ => cases hp

end Follow

end Keys

/-! ### The read -/

/-- A line in the caller's buffer: 127 bytes, padded with NULs, and a newline. -/
def paddedLine (line : List UInt8) : List UInt8 := ((List.range 127).map fun j : ℕ => line.getD j 0) ++ [0x0A]

/-- Until the copy the buffer has all keys. -/
structure BeforeCopy (t : Terminal) (n : ℕ) (tr : List ConsoleEntry) (c : Console) : Prop where
  reader : c.reader t = .waiting n ∨ c.reader t = .woken n ∧ LineKey.enter ∈ keysTyped tr
  lock : c.kbd.readLock t ≠ 0
  enter : c.kbd.isEnter t ≠ 0 → LineKey.enter ∈ keysTyped tr
  buffers : buffersTo t tr = []
  edited : Edited c.kbd t (edit (keysTyped tr))

/-- From the copy on the first line is delivered, and the buffer has the keys after it. -/
structure AfterCopy (t : Terminal) (n : ℕ) (tr : List ConsoleEntry) (c : Console) : Prop where
  reader : c.reader t = .copied n ∨ c.reader t = .unlocked n ∨ c.reader t = .outside
  enter : LineKey.enter ∈ keysTyped tr
  buffers : buffersTo t tr = [paddedLine (firstLine (keysTyped tr))]
  edited : Edited c.kbd t (edit (afterFirst (keysTyped tr)))

/-- The read of terminal `t` along a run. -/
structure Following (t : Terminal) (n : ℕ) (tr : List ConsoleEntry) (c : Console) : Prop where
  shown : c.kbd.currentTerminal = t
  phase : BeforeCopy t n tr c ∨ AfterCopy t n tr c

section Read

variable {t : Terminal} {n : ℕ} {tr : List ConsoleEntry} {c : Console} {e : ConsoleEntry}

theorem Edited.same {k k' : Keyboard} {d : Edit} (h : Edited k t d) (hs : SameLines k k') : Edited k' t d :=
  ⟨h.holds.same hs, by rw [hs.length]; exact h.length⟩

theorem keysTyped_quiet (hkey : keyTyped e = none) : keysTyped (e :: tr) = keysTyped tr := by
  rw [keysTyped, hkey]
  exact List.append_nil _

theorem buffersTo_quiet (hbuf : bufferTo t e = none) : buffersTo t (e :: tr) = buffersTo t tr := by
  rw [buffersTo, hbuf]
  exact List.append_nil _

/-- A step that presses no key, delivers nothing and leaves the buffers, before the copy. -/
theorem BeforeCopy.quiet (h : BeforeCopy t n tr c) (hkey : keyTyped e = none) (hbuf : bufferTo t e = none)
    (hs : SameLines c.kbd e.after.kbd)
    (hreader : e.after.reader t = .waiting n ∨ e.after.reader t = .woken n ∧ LineKey.enter ∈ keysTyped tr)
    (hlock : e.after.kbd.readLock t ≠ 0) (henter : e.after.kbd.isEnter t = c.kbd.isEnter t) :
    BeforeCopy t n (e :: tr) e.after := by
  refine ⟨?_, hlock, ?_, (buffersTo_quiet hbuf).trans h.buffers, ?_⟩
  · rw [keysTyped_quiet hkey]
    exact hreader
  · rw [henter, keysTyped_quiet hkey]
    exact h.enter
  · rw [keysTyped_quiet hkey]
    exact h.edited.same hs

theorem AfterCopy.quiet (h : AfterCopy t n tr c) (hkey : keyTyped e = none) (hbuf : bufferTo t e = none)
    (hs : SameLines c.kbd e.after.kbd)
    (hreader : e.after.reader t = .copied n ∨ e.after.reader t = .unlocked n ∨ e.after.reader t = .outside) :
    AfterCopy t n (e :: tr) e.after := by
  refine ⟨hreader, ?_, ?_, ?_⟩
  · rw [keysTyped_quiet hkey]
    exact h.enter
  · rw [buffersTo_quiet hbuf, keysTyped_quiet hkey]
    exact h.buffers
  · rw [keysTyped_quiet hkey]
    exact h.edited.same hs

theorem Following.quiet (h : Following t n tr c) (hshown : e.after.kbd.currentTerminal = t)
    (hkey : keyTyped e = none) (hbuf : bufferTo t e = none) (hs : SameLines c.kbd e.after.kbd)
    (hreader : e.after.reader t = c.reader t) (hlock : c.kbd.readLock t ≠ 0 → e.after.kbd.readLock t ≠ 0)
    (henter : e.after.kbd.isEnter t = c.kbd.isEnter t) : Following t n (e :: tr) e.after := by
  refine ⟨hshown, ?_⟩
  rcases h.phase with hb | ha
  · left
    exact hb.quiet hkey hbuf hs (by rw [hreader]; exact hb.reader) (hlock hb.lock) henter
  · right
    exact ha.quiet hkey hbuf hs (by rw [hreader]; exact ha.reader)

/-- A key of the line discipline. -/
theorem Following.key (h : Following t n tr c) {scancode : UInt8} {key : LineKey}
    (hp : (c.kbd.press scancode).lineKey = some key)
    (ho : Orderly tr ⟨c, (.key scancode, .nothing), { c with kbd := c.kbd.kbrdInt scancode }⟩) :
    Following t n (⟨c, (.key scancode, .nothing), { c with kbd := c.kbd.kbrdInt scancode }⟩ :: tr)
      { c with kbd := c.kbd.kbrdInt scancode } := by
  rw [Keyboard.kbrdInt_eq] at ho ⊢
  obtain ⟨hcurrent, henter⟩ := answer_lineKey (k := c.kbd) hp
  have hkeys : ∀ c' : Console, keysTyped (⟨c, (.key scancode, .nothing), c'⟩ :: tr) = keysTyped tr ++ [key] := by
    intro c'
    have hkey : keyTyped ⟨c, (.key scancode, .nothing), c'⟩ = some key := hp
    rw [keysTyped, hkey]
    rfl
  have hbufs : ∀ c' : Console, buffersTo t (⟨c, (.key scancode, .nothing), c'⟩ :: tr) = buffersTo t tr :=
    fun c' => List.append_nil _
  have hpress : ∀ d, Edited c.kbd t d → Edited (c.kbd.answer (c.kbd.press scancode)) t (d.press key) := by
    intro d hd
    rw [← h.shown] at hd ⊢
    exact hd.press hp (fun ch hch => ho.room ch (congrArg Press.lineKey hch))
      fun hen => ho.clear (congrArg Press.lineKey hen)
  refine ⟨hcurrent.trans h.shown, ?_⟩
  rcases h.phase with hb | ha
  · left
    refine ⟨?_, ?_, fun hset => ?_, (hbufs _).trans hb.buffers, ?_⟩
    · rw [hkeys, List.mem_append]
      rcases hb.reader with hw | ⟨hw, hen⟩
      · exact Or.inl hw
      · exact Or.inr ⟨hw, Or.inl hen⟩
    · show (c.kbd.answer _).readLock t ≠ 0
      rw [answer_readLock]
      exact hb.lock
    · rw [hkeys, List.mem_append]
      by_cases hen : key = .enter
      · exact Or.inr (by rw [hen]; exact List.mem_singleton_self _)
      · change (c.kbd.answer (c.kbd.press scancode)).isEnter t ≠ 0 at hset
        rw [henter, if_neg hen] at hset
        exact Or.inl (hb.enter hset)
    · rw [hkeys, edit_concat]
      exact hpress _ hb.edited
  · right
    obtain ⟨hfirst, hafter⟩ := (split_enter ha.enter).2 key
    refine ⟨ha.reader, ?_, ?_, ?_⟩
    · rw [hkeys]
      exact List.mem_append_left _ ha.enter
    · rw [hbufs, hkeys, firstLine, hfirst]
      exact ha.buffers
    · rw [hkeys, hafter, edit_concat]
      exact hpress _ ha.edited

/-- The copy, when all that was typed after the first Enter is taken back: it delivers the
first line and leaves nothing. -/
theorem BeforeCopy.copy (h : BeforeCopy t n tr c) (hn : 128 ≤ n) (hshown : c.kbd.currentTerminal = t)
    (hrun : c.running = t) (hwoken : c.reader t = .woken n)
    (htext : (edit (afterFirst (keysTyped tr))).text = []) {c' : Console}
    (hc' : c' = { c with kbd := (c.kbd.copyLine n).1 }.setReader (.copied n)) :
    AfterCopy t n (⟨c, (.resume, .delivered (c.kbd.copyLine n).2), c'⟩ :: tr) c' := by
  have henter : LineKey.enter ∈ keysTyped tr := by
    rcases h.reader with hw | ⟨-, hen⟩
    · exact absurd (hw.symm.trans hwoken) (by simp)
    · exact hen
  obtain ⟨hdone, hcur⟩ := List.append_eq_nil_iff.mp htext
  have hedit : edit (keysTyped tr) = ⟨firstLine (keysTyped tr), []⟩ := by
    rw [edit_enter henter, hdone, hcur, List.append_nil]
  have hlen : (firstLine (keysTyped tr)).length ≤ 127 := edit_cur_le _
  have hedited := h.edited
  rw [hedit, ← hshown] at hedited
  obtain ⟨hholds, hbuf⟩ := hedited.holds.copyLine (by rw [List.append_nil]; exact hlen) (n := n) (by omega)
  dsimp only at hholds
  rw [List.drop_eq_nil_of_le (by omega), List.drop_nil] at hholds
  have hkeys : keysTyped (⟨c, (.resume, .delivered (c.kbd.copyLine n).2), c'⟩ :: tr) = keysTyped tr :=
    keysTyped_quiet rfl
  have hkbd : c'.kbd = (c.kbd.copyLine n).1 := by
    rw [hc']
    rfl
  refine ⟨Or.inl ?_, by rw [hkeys]; exact henter, ?_, ?_⟩
  · rw [hc', ← hrun]
    exact Function.update_self ..
  · have hto : bufferTo t ⟨c, (.resume, .delivered (c.kbd.copyLine n).2), c'⟩ = some (c.kbd.copyLine n).2 :=
      if_pos hrun
    rw [hkeys, buffersTo, h.buffers, hto, hbuf, List.append_nil, min_eq_right hn]
    rfl
  · have hafter : edit (afterFirst (keysTyped tr)) = ⟨[], []⟩ := by
      calc edit (afterFirst (keysTyped tr)) = ⟨(edit (afterFirst (keysTyped tr))).done, (edit _).cur⟩ := rfl
        _ = ⟨[], []⟩ := by rw [hdone, hcur]
    rw [hkeys, hafter, hkbd, ← hshown]
    refine ⟨hholds, ?_⟩
    rw [copyLine_eq]
    exact hedited.length

/-- The next statement of the read. -/
theorem Following.resume (h : Following t n tr c) (hn : 128 ≤ n) (hrun : c.running = t) {c' : Console}
    {out : ConsoleOut} (hstep : c.resume = some (c', out)) (ho : Orderly tr ⟨c, (.resume, out), c'⟩)
    (hshown : c'.kbd.currentTerminal = t) : Following t n (⟨c, (.resume, out), c'⟩ :: tr) c' := by
  subst hrun
  have hnow : ∀ (k : Keyboard) (pc : ReaderPc), ({ c with kbd := k }.setReader pc).reader c.running = pc :=
    fun k pc => Function.update_self ..
  refine ⟨hshown, ?_⟩
  rcases h.phase with hb | ha
  · rcases hb.reader with hw | ⟨hw, hen⟩
    · left
      simp only [Console.resume, hw] at hstep
      split_ifs at hstep with hzero
      · simp only [Option.some.injEq, Prod.mk.injEq] at hstep
        obtain ⟨rfl, rfl⟩ := hstep
        exact hb.quiet rfl rfl (SameLines.refl _) (Or.inl hw) hb.lock rfl
      · simp only [Option.some.injEq, Prod.mk.injEq] at hstep
        obtain ⟨rfl, rfl⟩ := hstep
        exact hb.quiet rfl rfl (SameLines.refl _) (Or.inr ⟨hnow _ _, hb.enter hzero⟩) hb.lock rfl
    · right
      have htext := ho.copy n rfl hw
      simp only [Console.resume, hw, Option.some.injEq, Prod.mk.injEq] at hstep
      obtain ⟨hc', rfl⟩ := hstep
      exact hb.copy hn h.shown rfl hw htext hc'.symm
  · right
    rcases ha.reader with hw | hw | hw
    · simp only [Console.resume, hw, Option.some.injEq, Prod.mk.injEq] at hstep
      obtain ⟨rfl, rfl⟩ := hstep
      exact ha.quiet rfl rfl ⟨rfl, rfl, rfl, rfl, rfl⟩ (Or.inr (Or.inl (hnow _ _)))
    · simp only [Console.resume, hw, Option.some.injEq, Prod.mk.injEq] at hstep
      obtain ⟨rfl, rfl⟩ := hstep
      exact ha.quiet rfl rfl ⟨rfl, rfl, rfl, rfl, rfl⟩ (Or.inr (Or.inr (hnow _ _)))
    · simp [Console.resume, hw] at hstep

theorem Following.resume_other (h : Following t n tr c) (hrun : c.running ≠ t) {m : ℕ}
    (hwait : c.reader c.running = .waiting m) {c' : Console} {out : ConsoleOut}
    (hstep : c.resume = some (c', out)) : Following t n (⟨c, (.resume, out), c'⟩ :: tr) c' := by
  simp only [Console.resume, hwait] at hstep
  split_ifs at hstep
  · simp only [Option.some.injEq, Prod.mk.injEq] at hstep
    obtain ⟨rfl, rfl⟩ := hstep
    exact h.quiet h.shown rfl rfl (SameLines.refl _) rfl id rfl
  · simp only [Option.some.injEq, Prod.mk.injEq] at hstep
    obtain ⟨rfl, rfl⟩ := hstep
    exact h.quiet h.shown rfl rfl (SameLines.refl _) (Function.update_of_ne hrun.symm _ _) id rfl

/-- One step. -/
theorem following_step (h : Following t n tr c) (hn : 128 ≤ n) {l : ConsoleEvent × ConsoleOut} {c' : Console}
    (hstep : consoleStep c l c') (hstays : StaysOn t ⟨c, l, c'⟩) (ho : Orderly tr ⟨c, l, c'⟩) :
    Following t n (⟨c, l, c'⟩ :: tr) c' := by
  obtain ⟨ev, out⟩ := l
  obtain ⟨hshown, hcalls⟩ := hstays
  unfold consoleStep at hstep
  cases ev with
  | key scancode =>
    simp only [consoleNext, Option.some.injEq, Prod.mk.injEq] at hstep
    obtain ⟨rfl, rfl⟩ := hstep
    cases hp : (c.kbd.press scancode).lineKey with
    | some key => exact h.key hp ho
    | none =>
      obtain ⟨hs, henter⟩ := answer_otherKey (k := c.kbd) hp
      have hlock := answer_readLock c.kbd (c.kbd.press scancode)
      rw [← Keyboard.kbrdInt_eq] at hs henter hlock
      exact h.quiet hshown hp rfl hs rfl (fun hne => by rw [hlock]; exact hne) (congrFun henter t)
  | call nbytes =>
    simp only [consoleNext, Option.ite_none_right_eq_some, Option.some.injEq, Prod.mk.injEq] at hstep
    obtain ⟨-, rfl, rfl⟩ := hstep
    have hother : c.running ≠ t := hcalls nbytes rfl
    refine h.quiet hshown rfl rfl ⟨rfl, rfl, rfl, rfl, rfl⟩ (Function.update_of_ne hother.symm _ _) (fun _ => ?_) rfl
    show Function.update c.kbd.readLock c.kbd.currentTerminal 1 t ≠ 0
    rw [h.shown, Function.update_self]
    exact one_ne_zero
  | resume =>
    by_cases hrun : c.running = t
    · exact h.resume hn hrun hstep ho hshown
    · obtain ⟨m, hwait⟩ := ho.own rfl (by rw [h.shown]; exact hrun)
      exact h.resume_other hrun hwait hstep
  | _ =>
    simp only [consoleNext, Option.some.injEq, Prod.mk.injEq] at hstep
    obtain ⟨rfl, rfl⟩ := hstep
    exact h.quiet hshown rfl rfl ⟨rfl, rfl, rfl, rfl, rfl⟩ rfl id rfl

/-- What the first two statements of a read leave, if it is a read of the terminal
displayed and there is nothing in the buffer. -/
theorem blocked_of_call (hown : c.kbd.currentTerminal = c.running) (hempty : Holds c.kbd c.running [] [])
    (hlen : c.kbd.kbrdBufLength c.running = 0) {c' : Console} {out : ConsoleOut}
    (h : (c.call n).resume = some (c', out)) : Blocked c.running n c' := by
  have hlocked : (c.call n).reader (c.call n).running = .locked n := Function.update_self ..
  simp only [Console.resume, hlocked, Option.some.injEq, Prod.mk.injEq] at h
  obtain ⟨rfl, -⟩ := h
  refine ⟨hown, Function.update_self .., ?_, ?_, hempty.same ⟨rfl, rfl, rfl, rfl, rfl⟩, hlen⟩
  · show Function.update c.kbd.readLock c.kbd.currentTerminal 1 c.running ≠ 0
    rw [hown, Function.update_self]
    exact one_ne_zero
  · show Function.update c.kbd.isEnter c.kbd.currentTerminal 0 c.running = 0
    rw [hown, Function.update_self]

theorem following_blocked (h : Blocked t n c) : Following t n [] c where
  shown := h.shown
  phase := Or.inl
    { reader := Or.inl h.reader
      lock := h.lock
      enter := fun hset => absurd h.enter hset
      buffers := rfl
      edited := ⟨h.empty, h.length⟩ }

/-- **Line discipline.** A process waits in a read of at least 128 bytes, on an empty
buffer, and its terminal stays displayed. In every run in which each step is orderly, when
the read has returned, the process has been given exactly the line as edited up to the
first Enter, and the buffer has what was typed after it, for the next read. -/
theorem line_discipline (hn : 128 ≤ n) (h : Hist (Blocked t n) consoleStep tr c) (hstays : ∀ e ∈ tr, StaysOn t e)
    (horderly : OrderlyRun tr) (hdone : c.reader t = .outside) :
    buffersTo t tr = [paddedLine (firstLine (keysTyped tr))] ∧
      lineOf c.kbd t = (edit (afterFirst (keysTyped tr))).text := by
  have hfollow : Following t n tr c := by
    clear hdone
    induction h with
    | start hi => exact following_blocked hi
    | next hp hst ih =>
      obtain ⟨hnow, hold⟩ := List.forall_mem_cons.mp hstays
      exact following_step (ih hold horderly.2) hn hst hnow horderly.1
  rcases hfollow.phase with hb | ha
  · rcases hb.reader with hw | ⟨hw, -⟩
    · exact absurd (hw.symm.trans hdone) (by simp)
    · exact absurd (hw.symm.trans hdone) (by simp)
  · exact ⟨ha.buffers, ha.edited.holds.lineOf_eq⟩

end Read

/-! ### Two runs -/

/-- A freshly booted machine whose process of terminal 0 waits for a line. -/
def blockedConsole : Console :=
  { kbd := (bootConsole.kbd.setLock 1).clearEnter
    reader := Function.update bootConsole.reader 0 (.waiting 128)
    running := 0 }

theorem blocked_blockedConsole : Blocked 0 128 blockedConsole := by
  have hcall : (bootConsole.call 128).resume = some (blockedConsole, .nothing) := by
    show some (_, ConsoleOut.nothing) = _
    simp only [Console.setReader, Console.call, Function.update_idem]
    rfl
  refine blocked_of_call (c := bootConsole) rfl ⟨rfl, fun j _ => ?_, le_refl _, Or.inl rfl⟩ rfl hcall
  rfl

/-- `a`, Enter, and while the process has not run a `b` and a backspace; the events are
listed newest first. -/
def takenBack : List ConsoleEvent :=
  [.resume, .resume, .resume, .resume, .key 0x0E, .key 0x30, .key 0x1C, .key 0x1E]

theorem stays_of_labels {t : Terminal} {tr : List ConsoleEntry} {evs : List ConsoleEvent}
    (hlabels : tr.map (fun e => e.label.1) = evs) (hcalls : ∀ n, ConsoleEvent.call n ∉ evs)
    (hshown : ∀ e ∈ tr, e.after.kbd.currentTerminal = t) : ∀ e ∈ tr, StaysOn t e := by
  intro e he
  refine ⟨hshown e he, fun n hn => absurd ?_ (hcalls n)⟩
  rw [← hlabels, ← hn]
  exact List.mem_map_of_mem he

theorem line_discipline_takenBack : ∃ tr c, run consoleNext blockedConsole takenBack = some (tr, c) ∧
    firstLine (keysTyped tr) = [0x61] ∧ buffersTo 0 tr = [paddedLine (firstLine (keysTyped tr))] ∧
    lineOf c.kbd 0 = (edit (afterFirst (keysTyped tr))).text := by
  have hfacts : (run consoleNext blockedConsole takenBack).map (fun r => (r.1.map fun e => e.label.1,
      firstLine (keysTyped r.1), r.2.reader 0, decide (∀ e ∈ r.1, e.after.kbd.currentTerminal = 0),
      decide (∀ part ∈ r.1.tails, ∀ e ∈ part.head?, e.before.running = 0 ∧ e.before.kbd.currentTerminal = 0 ∧
        (e.before.kbd.readLock 0 = 0 → (e.before.kbd.lineMarker 0).toNat = 0) ∧
        (e.before.kbd.lineMarker 0).toNat < 255 ∧
        (e.label.1 = .resume → (edit (afterFirst (keysTyped part.tail))).text = [])))) =
      some (takenBack, [0x61], .outside, true, true) := by decide +kernel
  obtain ⟨⟨tr, c⟩, hrun, heq⟩ := Option.map_eq_some_iff.mp hfacts
  simp only [Prod.mk.injEq, decide_eq_true_eq] at heq
  obtain ⟨hlabels, hfirst, hdone, hshown, hsteps⟩ := heq
  refine ⟨tr, c, hrun, hfirst, ?_⟩
  exact line_discipline (le_refl 128) (hist_of_run blocked_blockedConsole hrun)
    (stays_of_labels hlabels (by simp [takenBack]) hshown) (orderlyRun_of_shown hsteps) hdone

/-- Enter, and while the process has not run an `a`. -/
def typedAhead : List ConsoleEvent := [.resume, .resume, .resume, .resume, .key 0x1E, .key 0x1C]

theorem late_key : ∃ tr c, Hist (Blocked 0 128) consoleStep tr c ∧ tr.map (fun e => e.label.1) = typedAhead ∧
    (∀ e ∈ tr, StaysOn 0 e) ∧ c.reader 0 = .outside ∧ keysTyped tr = [.enter, .char 0x61] ∧
    buffersTo 0 tr = [paddedLine [0x61]] ∧ lineOf c.kbd 0 = [] ∧
    ¬ (buffersTo 0 tr = [paddedLine (firstLine (keysTyped tr))] ∧
      lineOf c.kbd 0 = (edit (afterFirst (keysTyped tr))).text) := by
  have hfacts : (run consoleNext blockedConsole typedAhead).map (fun r => (r.1.map fun e => e.label.1,
      decide ((∀ e ∈ r.1, e.after.kbd.currentTerminal = 0) ∧ r.2.reader 0 = .outside ∧
        keysTyped r.1 = [.enter, .char 0x61] ∧ buffersTo 0 r.1 = [paddedLine [0x61]] ∧ lineOf r.2.kbd 0 = []))) =
      some (typedAhead, true) := by decide +kernel
  obtain ⟨⟨tr, c⟩, hrun, heq⟩ := Option.map_eq_some_iff.mp hfacts
  simp only [Prod.mk.injEq, decide_eq_true_eq] at heq
  obtain ⟨hlabels, hshown, hdone, hkeys, hbufs, hline⟩ := heq
  refine ⟨tr, c, hist_of_run blocked_blockedConsole hrun, hlabels,
    stays_of_labels hlabels (by simp [typedAhead]) hshown, hdone, hkeys, hbufs, hline, fun hboth => ?_⟩
  rw [hline, hkeys] at hboth
  exact absurd hboth.2 (by decide)

end Mp3Kernel
