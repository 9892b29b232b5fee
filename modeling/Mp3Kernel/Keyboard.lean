/-
# The keyboard: interrupts, line buffers and terminal_read

keyboard.c keeps, for each of the three terminals, a line buffer with two counters, the
modifier flags, a read lock and an Enter flag, and one variable for the terminal shown.
`kbrdInt` is the interrupt handler; `terminalRead…` are the statements of a read, which
is not atomic: it sets its flags, spins until Enter, copies the line with interrupts
off, and clears its flags again.

The line buffers lie one behind the other in memory, and a store goes to the address
its index gives: `bufStores` keeps the index of each byte stored, and `wrapped` whether
a value given to a line marker did not fit its eight bits.

Key definitions: `Keyboard`, `kbrdInt`, `copyLine`, `Console`, `consoleNext`.
Key theorem: `kbrdInt_eq`.
-/
import Mp3Kernel.Screen
import Mp3Kernel.Strings
import Mp3Kernel.Basis.Past

namespace Mp3Kernel

open Loop Terminal

/-- KBRD_BUF_LENGTH -/
abbrev kbrdBufSize : ℕ := 128
/-- SCANCODE_LENGTH -/
abbrev scancodeLength : UInt8 := 0x80

/-! ### Scancodes -/

/-- `kbrdscancode`, up to its last entry that is not NUL -/
def kbrdscancode : List UInt8 :=
  ['\x00', '\x1b', '1', '2', '3', '4', '5', '6', '7', '8', '9', '0', '-', '=', '\x08', ' ',
   'q', 'w', 'e', 'r', 't', 'y', 'u', 'i', 'o', 'p', '[', ']', '\n', '\x00',
   'a', 's', 'd', 'f', 'g', 'h', 'j', 'k', 'l', ';', '\x27', '\x60', '\x00', '\x5c',
   'z', 'x', 'c', 'v', 'b', 'n', 'm', ',', '.', '/', '\x00', '*', '\x00', ' '].map Char.toUInt8

/-- `capskbrdscancode` -/
def capskbrdscancode : List UInt8 :=
  ['\x00', '\x1b', '1', '2', '3', '4', '5', '6', '7', '8', '9', '0', '-', '=', '\x08', ' ',
   'Q', 'W', 'E', 'R', 'T', 'Y', 'U', 'I', 'O', 'P', '[', ']', '\n', '\x00',
   'A', 'S', 'D', 'F', 'G', 'H', 'J', 'K', 'L', ';', '\x27', '\x60', '\x00', '\x5c',
   'Z', 'X', 'C', 'V', 'B', 'N', 'M', ',', '.', '/', '\x00', '*', '\x00', ' '].map Char.toUInt8

/-- `shiftkbrdscancode` -/
def shiftkbrdscancode : List UInt8 :=
  ['\x00', '\x1b', '!', '@', '#', '$', '%', '^', '&', '*', '(', ')', '_', '+', '\x08', ' ',
   'Q', 'W', 'E', 'R', 'T', 'Y', 'U', 'I', 'O', 'P', '\x7b', '\x7d', '\n', '\x00',
   'A', 'S', 'D', 'F', 'G', 'H', 'J', 'K', 'L', ':', '\x22', '~', '\x00', '|',
   'Z', 'X', 'C', 'V', 'B', 'N', 'M', '<', '>', '?', '\x00', '*', '\x00', ' '].map Char.toUInt8

/-- `capsshiftkbrdscancode` -/
def capsshiftkbrdscancode : List UInt8 :=
  ['\x00', '\x1b', '!', '@', '#', '$', '%', '^', '&', '*', '(', ')', '_', '+', '\x08', ' ',
   'q', 'w', 'e', 'r', 't', 'y', 'u', 'i', 'o', 'p', '\x7b', '\x7d', '\n', '\x00',
   'a', 's', 'd', 'f', 'g', 'h', 'j', 'k', 'l', ':', '\x22', '~', '\x00', '|',
   'z', 'x', 'c', 'v', 'b', 'n', 'm', '<', '>', '?', '\x00', '*', '\x00', ' '].map Char.toUInt8

/-- The entry of a table; those behind the written ones are NUL. -/
def keyOf (table : List UInt8) (scancode : UInt8) : UInt8 := table.getD scancode.toNat 0

/-! ### The state -/

/-- The state of keyboard.c, with the screen it prints on. -/
structure Keyboard where
  screen : Screen
  readLock : Terminal → ℤ
  kbrdBufLength : Terminal → ℤ
  isEnter : Terminal → ℤ
  isShift : Terminal → ℤ
  isCaps : Terminal → ℤ
  isCtrl : Terminal → ℤ
  isAlt : Terminal → ℤ
  currentTerminal : Terminal
  /-- the memory of `kbrd_buf` and around it; `kbrd_buf[t][i]` is at `128 t + i` -/
  kbrdBuf : ℤ → UInt8
  lineMarker : Terminal → UInt8
  /-- what a string that has not ended 512 bytes behind its row goes on with -/
  beyond : List UInt8
  /-- the bytes stored into `kbrd_buf`, newest first: the row and the index in it -/
  bufStores : List (Terminal × ℤ)
  /-- a value that a line marker cannot hold was given to one -/
  wrapped : Bool

/-- The address of `kbrd_buf[t]`. -/
def rowAt (t : Terminal) : ℤ := kbrdBufSize * t.val

namespace Keyboard

/-- `kbrd_buf[t][i] = c` -/
def storeBuf (k : Keyboard) (t : Terminal) (i : ℤ) (c : UInt8) : Keyboard :=
  { k with kbrdBuf := Function.update k.kbrdBuf (rowAt t + i) c, bufStores := (t, i) :: k.bufStores }

/-- `memset(kbrd_buf[t] + i, NULL_SCANCODE, n)` -/
def memsetBuf (k : Keyboard) (t : Terminal) (i : ℕ) (n : ℕ) : Keyboard :=
  { k with
    kbrdBuf := memset k.kbrdBuf (rowAt t + i) 0 n
    bufStores := ((List.range n).map fun j : ℕ => (t, ((i + j : ℕ) : ℤ))) ++ k.bufStores }

/-- `memmove(kbrd_buf[t], kbrd_buf[t] + from, n)` -/
def memmoveBuf (k : Keyboard) (t : Terminal) (src : ℕ) (n : ℕ) : Keyboard :=
  { k with
    kbrdBuf := memcpy k.kbrdBuf (rowAt t) (rowAt t + src) n
    bufStores := ((List.range n).map fun j : ℕ => (t, (j : ℤ))) ++ k.bufStores }

/-- `line_marker[t] = v` -/
def setLineMarker (k : Keyboard) (t : Terminal) (v : ℤ) : Keyboard :=
  { k with
    lineMarker := Function.update k.lineMarker t (UInt8.ofInt v)
    wrapped := k.wrapped || !decide (0 ≤ v ∧ v < 256) }

/-- `kbrd_buf[t]` as a string -/
def rowString (k : Keyboard) (t : Terminal) : List UInt8 :=
  ((List.range 512).map fun i : ℕ => k.kbrdBuf (rowAt t + (i : ℤ))) ++ k.beyond

/-! ### The interrupt handler -/

/-- An Alt+Fn that changes the terminal. -/
def switchTerminal (k : Keyboard) (t : Terminal) : Keyboard :=
  if k.currentTerminal ≠ t then
    { k with currentTerminal := t, screen := (k.screen.updateCurrTerm t).updateVidmem t }
  else k

/-- The branch of Enter. -/
def enterKey (k : Keyboard) (key : UInt8) : Keyboard :=
  let ct := k.currentTerminal
  let k := { k with screen := k.screen.putc key ct }
  let k := { k with isEnter := Function.update k.isEnter ct 1 }
  let k := { k with kbrdBufLength := Function.update k.kbrdBufLength ct 0 }
  if k.readLock ct = 0 then (k.memsetBuf ct 0 kbrdBufSize).setLineMarker ct 0 else k

/-- The branch of Backspace. -/
def backspaceKey (k : Keyboard) : Keyboard :=
  let ct := k.currentTerminal
  if k.kbrdBufLength ct > 0 then
    let k := { k with screen := k.screen.backspaceHelper ct }
    let k := k.storeBuf ct ((k.lineMarker ct).toNat - 1) 0
    let k := { k with kbrdBufLength := Function.update k.kbrdBufLength ct (k.kbrdBufLength ct - 1) }
    k.setLineMarker ct ((k.lineMarker ct).toNat - 1)
  else k

/-- Ctrl+L. -/
def redraw (k : Keyboard) : Keyboard :=
  { k with screen := Screen.puts k.currentTerminal (k.rowString k.currentTerminal) k.screen.reset }

/-- A key that is echoed and buffered. -/
def typeKey (k : Keyboard) (key : UInt8) : Keyboard :=
  let ct := k.currentTerminal
  let k := { k with screen := k.screen.putc key ct }
  let k := k.storeBuf ct (k.lineMarker ct).toNat key
  let k := k.setLineMarker ct ((k.lineMarker ct).toNat + 1)
  { k with kbrdBufLength := Function.update k.kbrdBufLength ct (k.kbrdBufLength ct + 1) }

/-- The table the shift and caps flags choose. -/
def shiftedKey (k : Keyboard) (scancode : UInt8) : UInt8 :=
  let ct := k.currentTerminal
  if k.isShift ct = 1 ∧ k.isCaps ct = 0 then keyOf shiftkbrdscancode scancode
  else if k.isShift ct = 1 ∧ k.isCaps ct = 1 then keyOf capsshiftkbrdscancode scancode
  else if k.isShift ct = 0 ∧ k.isCaps ct = 1 then keyOf capskbrdscancode scancode
  else keyOf kbrdscancode scancode

/-- The last branch: keys below SCANCODE_LENGTH, as long as the buffer takes more. -/
def plainKey (k : Keyboard) (scancode : UInt8) : Keyboard :=
  let ct := k.currentTerminal
  if k.kbrdBufLength ct < kbrdBufSize - 1 ∧ scancode < scancodeLength then
    if k.isCtrl ct = 1 ∧ keyOf kbrdscancode scancode = 0x6C then k.redraw
    else k.typeKey (k.shiftedKey scancode)
  else k

/-- `kbrd_int`, for a scancode that has arrived -/
def kbrdInt (k : Keyboard) (scancode : UInt8) : Keyboard :=
  let ct := k.currentTerminal
  let key := keyOf kbrdscancode scancode
  if scancode = 0x1D then { k with isCtrl := Function.update k.isCtrl ct 1 }
  else if scancode = 0x9D then { k with isCtrl := Function.update k.isCtrl ct 0 }
  else if scancode = 0x2A ∨ scancode = 0x36 then { k with isShift := Function.update k.isShift ct 1 }
  else if scancode = 0xAA ∨ scancode = 0xB6 then { k with isShift := Function.update k.isShift ct 0 }
  else if scancode = 0x38 then { k with isAlt := Function.update k.isAlt ct 1 }
  else if scancode = 0xB8 then { k with isAlt := Function.update k.isAlt ct 0 }
  else if scancode = 0x3A then
    if k.isCaps ct = 1 then { k with isCaps := Function.update k.isCaps ct 0 }
    else { k with isCaps := Function.update k.isCaps ct 1 }
  else if scancode = 0x3B ∧ k.isAlt ct = 1 then k.switchTerminal 0
  else if scancode = 0x3C ∧ k.isAlt ct = 1 then k.switchTerminal 1
  else if scancode = 0x3D ∧ k.isAlt ct = 1 then k.switchTerminal 2
  else if scancode = 0x1C then k.enterKey key
  else if scancode = 0x0E then k.backspaceKey
  else k.plainKey scancode

end Keyboard

/-! ### What a scancode asks for -/

/-- The kinds of scancodes. -/
inductive Scan where
  | ctrl (held : Bool)
  | shift (held : Bool)
  | alt (held : Bool)
  | caps
  | fn (t : Terminal)
  | enter
  | backspace
  | key
  | other
deriving DecidableEq, Repr

/-- The kind of a scancode: F1 to F3 are those of the terminals. -/
def scan (scancode : UInt8) : Scan :=
  if scancode = 0x1D then .ctrl true
  else if scancode = 0x9D then .ctrl false
  else if scancode = 0x2A ∨ scancode = 0x36 then .shift true
  else if scancode = 0xAA ∨ scancode = 0xB6 then .shift false
  else if scancode = 0x38 then .alt true
  else if scancode = 0xB8 then .alt false
  else if scancode = 0x3A then .caps
  else if scancode = 0x3B then .fn 0
  else if scancode = 0x3C then .fn 1
  else if scancode = 0x3D then .fn 2
  else if scancode = 0x1C then .enter
  else if scancode = 0x0E then .backspace
  else if scancode < scancodeLength then .key
  else .other

/-- What is asked for. -/
inductive Press where
  | ctrl (held : Bool)
  | shift (held : Bool)
  | alt (held : Bool)
  | caps
  | switch (t : Terminal)
  | enter
  | backspace
  | redraw
  | char (c : UInt8)
  | other
deriving DecidableEq, Repr

namespace Keyboard

/-- What a scancode asks for, in the modifier state it finds. A function key without Alt
is a key like the others. -/
def press (k : Keyboard) (scancode : UInt8) : Press :=
  let ct := k.currentTerminal
  let plain : Press :=
    if k.isCtrl ct = 1 ∧ keyOf kbrdscancode scancode = 0x6C then .redraw else .char (k.shiftedKey scancode)
  match scan scancode with
  | .ctrl held => .ctrl held
  | .shift held => .shift held
  | .alt held => .alt held
  | .caps => .caps
  | .fn t => if k.isAlt ct = 1 then .switch t else plain
  | .enter => .enter
  | .backspace => .backspace
  | .key => plain
  | .other => .other

/-- How the handler answers it. -/
def answer (k : Keyboard) : Press → Keyboard
  | .ctrl held => { k with isCtrl := Function.update k.isCtrl k.currentTerminal (if held then 1 else 0) }
  | .shift held => { k with isShift := Function.update k.isShift k.currentTerminal (if held then 1 else 0) }
  | .alt held => { k with isAlt := Function.update k.isAlt k.currentTerminal (if held then 1 else 0) }
  | .caps => { k with
      isCaps := Function.update k.isCaps k.currentTerminal (if k.isCaps k.currentTerminal = 1 then 0 else 1) }
  | .switch t => k.switchTerminal t
  | .enter => k.enterKey 0x0A
  | .backspace => k.backspaceKey
  | .redraw => if k.kbrdBufLength k.currentTerminal < 127 then k.redraw else k
  | .char c => if k.kbrdBufLength k.currentTerminal < 127 then k.typeKey c else k
  | .other => k

/-- It answers a plain key: the length is looked at before the kind of key. -/
theorem plainKey_eq (k : Keyboard) {scancode : UInt8} (hcode : scancode < scancodeLength) :
    k.plainKey scancode = k.answer
      (if k.isCtrl k.currentTerminal = 1 ∧ keyOf kbrdscancode scancode = 0x6C then .redraw
        else .char (k.shiftedKey scancode)) := by
  unfold plainKey
  dsimp only
  by_cases hlen : k.kbrdBufLength k.currentTerminal < 127
  · rw [if_pos ⟨hlen, hcode⟩]
    by_cases hctrl : k.isCtrl k.currentTerminal = 1 ∧ keyOf kbrdscancode scancode = 0x6C
    · rw [if_pos hctrl, if_pos hctrl, answer, if_pos hlen]
    · rw [if_neg hctrl, if_neg hctrl, answer, if_pos hlen]
  · rw [if_neg fun h => hlen h.1]
    by_cases hctrl : k.isCtrl k.currentTerminal = 1 ∧ keyOf kbrdscancode scancode = 0x6C
    · rw [if_pos hctrl, answer, if_neg hlen]
    · rw [if_neg hctrl, answer, if_neg hlen]

theorem fnKey_eq (k : Keyboard) {scancode : UInt8} (hcode : scancode < scancodeLength) (t : Terminal) {rest : Keyboard}
    (hrest : k.isAlt k.currentTerminal ≠ 1 → rest = k.plainKey scancode) :
    (if k.isAlt k.currentTerminal = 1 then k.switchTerminal t else rest) = k.answer
      (if k.isAlt k.currentTerminal = 1 then .switch t
        else if k.isCtrl k.currentTerminal = 1 ∧ keyOf kbrdscancode scancode = 0x6C then .redraw
        else .char (k.shiftedKey scancode)) := by
  by_cases halt : k.isAlt k.currentTerminal = 1
  · rw [if_pos halt, if_pos halt]
    rfl
  · rw [if_neg halt, if_neg halt, hrest halt]
    exact k.plainKey_eq hcode

/-- The handler reads off what is asked and answers it. -/
theorem kbrdInt_eq (k : Keyboard) (scancode : UInt8) : k.kbrdInt scancode = k.answer (k.press scancode) := by
  unfold kbrdInt press scan
  dsimp only
  by_cases h1 : scancode = 0x1D
  · rw [if_pos h1, if_pos h1]
    rfl
  rw [if_neg h1, if_neg h1]
  by_cases h2 : scancode = 0x9D
  · rw [if_pos h2, if_pos h2]
    rfl
  rw [if_neg h2, if_neg h2]
  by_cases h3 : scancode = 0x2A ∨ scancode = 0x36
  · rw [if_pos h3, if_pos h3]
    rfl
  rw [if_neg h3, if_neg h3]
  by_cases h4 : scancode = 0xAA ∨ scancode = 0xB6
  · rw [if_pos h4, if_pos h4]
    rfl
  rw [if_neg h4, if_neg h4]
  by_cases h5 : scancode = 0x38
  · rw [if_pos h5, if_pos h5]
    rfl
  rw [if_neg h5, if_neg h5]
  by_cases h6 : scancode = 0xB8
  · rw [if_pos h6, if_pos h6]
    rfl
  rw [if_neg h6, if_neg h6]
  by_cases h7 : scancode = 0x3A
  · rw [if_pos h7, if_pos h7]
    by_cases hcaps : k.isCaps k.currentTerminal = 1
    · rw [if_pos hcaps]
      show _ = { k with isCaps := _ }
      rw [if_pos hcaps]
    · rw [if_neg hcaps]
      show _ = { k with isCaps := _ }
      rw [if_neg hcaps]
  rw [if_neg h7, if_neg h7]
  by_cases h8 : scancode = 0x3B
  · subst h8
    rw [if_pos rfl]
    simp only [true_and]
    exact k.fnKey_eq (by decide) 0 fun halt => by simp [halt]
  rw [if_neg fun h => h8 h.1, if_neg h8]
  by_cases h9 : scancode = 0x3C
  · subst h9
    rw [if_pos rfl]
    simp only [true_and]
    exact k.fnKey_eq (by decide) 1 fun halt => by simp [halt]
  rw [if_neg fun h => h9 h.1, if_neg h9]
  by_cases h10 : scancode = 0x3D
  · subst h10
    rw [if_pos rfl]
    simp only [true_and]
    exact k.fnKey_eq (by decide) 2 fun _ => by simp
  rw [if_neg fun h => h10 h.1, if_neg h10]
  by_cases h11 : scancode = 0x1C
  · rw [if_pos h11, if_pos h11, h11]
    rfl
  rw [if_neg h11, if_neg h11]
  by_cases h12 : scancode = 0x0E
  · rw [if_pos h12, if_pos h12]
    rfl
  rw [if_neg h12, if_neg h12]
  by_cases hcode : scancode < scancodeLength
  · rw [if_pos hcode]
    exact k.plainKey_eq hcode
  · rw [if_neg hcode]
    exact if_neg fun h => hcode h.2

end Keyboard

/-! ### terminal_read -/

/-- Where a process stands in `terminal_read`, with the size it asked for. -/
inductive ReaderPc where
  | outside
  /-- behind `read_lock[current_terminal] = 1` -/
  | locked (nbytes : ℕ)
  /-- in `while(!is_enter[get_curr_pcb_term()])` -/
  | waiting (nbytes : ℕ)
  /-- behind the loop, before `cli()` -/
  | woken (nbytes : ℕ)
  /-- behind `sti()` -/
  | copied (nbytes : ℕ)
  /-- behind `read_lock[current_terminal] = 0` -/
  | unlocked (nbytes : ℕ)
deriving DecidableEq, Repr

namespace Keyboard

/-- `read_lock[current_terminal] = v` -/
def setLock (k : Keyboard) (v : ℤ) : Keyboard :=
  { k with readLock := Function.update k.readLock k.currentTerminal v }

/-- `is_enter[current_terminal] = 0` -/
def clearEnter (k : Keyboard) : Keyboard := { k with isEnter := Function.update k.isEnter k.currentTerminal 0 }

/-- The bytes of the buffer that stay: `writeBytes`. -/
def writeBytes (k : Keyboard) (nbytes : ℕ) : ℕ :=
  let marker : ℤ := (k.lineMarker k.currentTerminal).toNat
  if marker - nbytes < 0 then 0 else (marker - (nbytes - 1)).toNat

/-- The two branches of the copy, for the size `m` each of them uses. What goes to the
caller's buffer goes through `kbrd_read_buf`, with interrupts off. -/
def moveLine (k : Keyboard) (m stay : ℕ) : Keyboard × List UInt8 :=
  let ct := k.currentTerminal
  let buf := ((List.range (m - 1)).map fun i : ℕ => k.kbrdBuf (rowAt ct + (i : ℤ))) ++ [0x0A]
  (((k.memmoveBuf ct (m - 1) stay).memsetBuf ct stay m).setLineMarker ct stay, buf)

/-- `terminal_read` from `cli()` to `sti()`, and the bytes the caller gets. -/
def copyLine (k : Keyboard) (nbytes : ℕ) : Keyboard × List UInt8 :=
  if nbytes < kbrdBufSize then k.moveLine nbytes (k.writeBytes nbytes)
  else k.moveLine kbrdBufSize (k.writeBytes nbytes)

end Keyboard

/-- The keyboard and the readers. One process of each terminal runs, when the scheduler
has chosen its terminal. -/
structure Console where
  kbd : Keyboard
  reader : Terminal → ReaderPc
  running : Terminal

/-- What can happen: a scancode, a scheduler tick, the beginning and the next statement
of a read by the running process, and output to any terminal. -/
inductive ConsoleEvent where
  | key (scancode : UInt8)
  | tick (t : Terminal)
  | call (nbytes : ℕ)
  | resume
  | putc (c : UInt8) (t : Terminal)
  | puts (str : List UInt8) (t : Terminal)
  | terminalWrite (bytes : List UInt8) (t : Terminal)
  | refresh
deriving DecidableEq, Repr

/-- What a step gives back. -/
inductive ConsoleOut where
  | nothing
  /-- the caller's buffer is filled -/
  | delivered (buf : List UInt8)
  | returned (retval : ℕ)
deriving DecidableEq, Repr

namespace Console

/-- `get_curr_pcb_term` -/
def getCurrPcbTerm (c : Console) : Terminal := c.running

/-- The running process's place in `terminal_read`. -/
def setReader (c : Console) (pc : ReaderPc) : Console := { c with reader := Function.update c.reader c.running pc }

/-- The beginning of `terminal_read` with a buffer: the first statement that writes. -/
def call (c : Console) (nbytes : ℕ) : Console := { c with kbd := c.kbd.setLock 1 }.setReader (.locked nbytes)

/-- The next statement of `terminal_read`, in the process that runs. -/
def resume (c : Console) : Option (Console × ConsoleOut) :=
  match c.reader c.running with
  | .outside => none
  | .locked n => some ({ c with kbd := c.kbd.clearEnter }.setReader (.waiting n), .nothing)
  | .waiting n =>
    if c.kbd.isEnter c.getCurrPcbTerm = 0 then some (c, .nothing) else some (c.setReader (.woken n), .nothing)
  | .woken n =>
    some ({ c with kbd := (c.kbd.copyLine n).1 }.setReader (.copied n), .delivered (c.kbd.copyLine n).2)
  | .copied n => some ({ c with kbd := c.kbd.setLock 0 }.setReader (.unlocked n), .nothing)
  | .unlocked n =>
    some ({ c with kbd := c.kbd.clearEnter }.setReader .outside,
      .returned (if n < kbrdBufSize then n else kbrdBufSize))

/-- The statements of a read, one by one. -/
theorem resume_cases {c c' : Console} {out : ConsoleOut} (h : c.resume = some (c', out)) :
    (∃ n, c.reader c.running = .locked n ∧ out = .nothing ∧
      c' = { c with kbd := c.kbd.clearEnter }.setReader (.waiting n)) ∨
    (∃ n, c.reader c.running = .waiting n ∧ out = .nothing ∧ c' = c) ∨
    (∃ n, c.reader c.running = .waiting n ∧ c.kbd.isEnter c.running ≠ 0 ∧ out = .nothing ∧
      c' = c.setReader (.woken n)) ∨
    (∃ n, c.reader c.running = .woken n ∧ out = .delivered (c.kbd.copyLine n).2 ∧
      c' = { c with kbd := (c.kbd.copyLine n).1 }.setReader (.copied n)) ∨
    (∃ n, c.reader c.running = .copied n ∧ out = .nothing ∧
      c' = { c with kbd := c.kbd.setLock 0 }.setReader (.unlocked n)) ∨
    (∃ n, c.reader c.running = .unlocked n ∧ out = .returned (if n < kbrdBufSize then n else kbrdBufSize) ∧
      c' = { c with kbd := c.kbd.clearEnter }.setReader .outside) := by
  unfold resume at h
  split at h
  · exact absurd h (by simp)
  · rename_i n hn
    simp only [Option.some.injEq, Prod.mk.injEq] at h
    exact Or.inl ⟨n, hn, h.2.symm, h.1.symm⟩
  · rename_i n hn
    split_ifs at h with henter
    · simp only [Option.some.injEq, Prod.mk.injEq] at h
      exact Or.inr (Or.inl ⟨n, hn, h.2.symm, h.1.symm⟩)
    · simp only [Option.some.injEq, Prod.mk.injEq] at h
      exact Or.inr (Or.inr (Or.inl ⟨n, hn, henter, h.2.symm, h.1.symm⟩))
  · rename_i n hn
    simp only [Option.some.injEq, Prod.mk.injEq] at h
    exact Or.inr (Or.inr (Or.inr (Or.inl ⟨n, hn, h.2.symm, h.1.symm⟩)))
  · rename_i n hn
    simp only [Option.some.injEq, Prod.mk.injEq] at h
    exact Or.inr (Or.inr (Or.inr (Or.inr (Or.inl ⟨n, hn, h.2.symm, h.1.symm⟩))))
  · rename_i n hn
    simp only [Option.some.injEq, Prod.mk.injEq] at h
    exact Or.inr (Or.inr (Or.inr (Or.inr (Or.inr ⟨n, hn, h.2.symm, h.1.symm⟩))))

def setScreen (c : Console) (s : Screen) : Console := { c with kbd := { c.kbd with screen := s } }

end Console

/-- One step of the console. A read begins with a size of at least one byte. -/
def consoleNext (c : Console) : ConsoleEvent → Option (Console × ConsoleOut)
  | .key scancode => some ({ c with kbd := c.kbd.kbrdInt scancode }, .nothing)
  | .tick t => some ({ c with running := t }, .nothing)
  | .call nbytes => if c.reader c.running = .outside ∧ 1 ≤ nbytes then some (c.call nbytes, .nothing) else none
  | .resume => c.resume
  | .putc ch t => some (c.setScreen (c.kbd.screen.putc ch t), .nothing)
  | .puts str t => some (c.setScreen (Screen.puts t str c.kbd.screen), .nothing)
  | .terminalWrite bytes t => some (c.setScreen (Screen.terminalWrite t bytes c.kbd.screen), .nothing)
  | .refresh => some (c.setScreen c.kbd.screen.refreshVidmem, .nothing)

/-- The state after `kbrd_init`, with zeroed cursors, empty buffers, and no key held. -/
structure ConsoleInit (c : Console) : Prop where
  x : ∀ t, c.kbd.screen.screenX t = 0
  y : ∀ t, c.kbd.screen.screenY t = 0
  shown : c.kbd.screen.currTerminal = c.kbd.currentTerminal
  stores : c.kbd.screen.stores = []
  lock : ∀ t, c.kbd.readLock t = 0
  length : ∀ t, c.kbd.kbrdBufLength t = 0
  enter : ∀ t, c.kbd.isEnter t = 0
  alt : ∀ t, c.kbd.isAlt t = 0
  ctrl : ∀ t, c.kbd.isCtrl t = 0
  shift : ∀ t, c.kbd.isShift t = 0
  caps : ∀ t, c.kbd.isCaps t = 0
  current : c.kbd.currentTerminal = 0
  buf : ∀ i, 0 ≤ i → i < 384 → c.kbd.kbrdBuf i = 0
  marker : ∀ t, c.kbd.lineMarker t = 0
  bufStores : c.kbd.bufStores = []
  wrapped : c.kbd.wrapped = false
  reader : ∀ t, c.reader t = .outside

/-- A step of the console's runs. -/
def consoleStep (c : Console) (l : ConsoleEvent × ConsoleOut) (c' : Console) : Prop :=
  consoleNext c l.1 = some (c', l.2)

/-- A step of a run, with the states before and after it. -/
abbrev ConsoleEntry := Past.Entry Console (ConsoleEvent × ConsoleOut)

/-- The console a freshly booted machine has, with zeros in memory. -/
def bootConsole : Console :=
  { kbd :=
      { screen := ⟨fun _ => 0, fun _ => 0, 0, fun _ => 0, 0, 0, []⟩
        readLock := fun _ => 0, kbrdBufLength := fun _ => 0, isEnter := fun _ => 0, isShift := fun _ => 0
        isCaps := fun _ => 0, isCtrl := fun _ => 0, isAlt := fun _ => 0, currentTerminal := 0
        kbrdBuf := fun _ => 0, lineMarker := fun _ => 0, beyond := [], bufStores := [], wrapped := false }
    reader := fun _ => .outside
    running := 0 }

theorem consoleInit_boot : ConsoleInit bootConsole where
  x _ := rfl
  y _ := rfl
  shown := rfl
  stores := rfl
  lock _ := rfl
  length _ := rfl
  enter _ := rfl
  alt _ := rfl
  ctrl _ := rfl
  shift _ := rfl
  caps _ := rfl
  current := rfl
  buf _ _ _ := rfl
  marker _ := rfl
  bufStores := rfl
  wrapped := rfl
  reader _ := rfl

end Mp3Kernel
