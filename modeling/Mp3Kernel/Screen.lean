/-
# The screen: cursors, back pages, video memory

Each of the three terminals has a page of video memory behind the one that is shown,
and a cursor into it. `putc` writes to the page of the terminal it is given, whichever
terminal is shown; `update_vidmem` and `refresh_vidmem` copy a whole page to the screen.

Cursors are the signed integers of the source, with C's division, and a store goes to
the address its offset gives, in range or not: `stores` keeps the offsets of all bytes
stored through `vidmem_pages`, for what is said about them later.

Key definitions: `Screen`, `putc`, `vertScroll`, `backspaceHelper`, `reset`.
-/
import Mp3Kernel.Basis.Loop

namespace Mp3Kernel

open Loop

/-- VIDEO -/
abbrev video : ℤ := 0xB8000
/-- VID1 -/
abbrev vid1 : ℤ := 0xB9000
/-- VID2 -/
abbrev vid2 : ℤ := 0xBA000
/-- VID3 -/
abbrev vid3 : ℤ := 0xBB000
/-- NUM_COLS -/
abbrev numCols : ℤ := 80
/-- NUM_ROWS -/
abbrev numRows : ℤ := 25
/-- ATTRIB -/
abbrev attrib : UInt8 := 0x7
/-- FOUR_KB -/
abbrev fourKb : ℕ := 0x1000
/-- SECOND_TERMINAL -/
abbrev secondTerminal : ℕ := 2

/-- A terminal. -/
abbrev Terminal := Fin 3

namespace Terminal

/-- What the numerals `0`, `1` and `2` of terminals rest on. -/
scoped instance : NeZero 3 := ⟨by decide⟩

end Terminal

open Terminal

/-- `vidmem_pages` -/
def vidmemPages : Terminal → ℤ := ![vid1, vid2, vid3]

/-- The state of lib.c, with the video memory and the cursor registers. -/
structure Screen where
  screenX : Terminal → ℤ
  screenY : Terminal → ℤ
  /-- lib.c's `curr_terminal` -/
  currTerminal : Terminal
  mem : ℤ → UInt8
  cursorLow : UInt8
  cursorHigh : UInt8
  /-- the bytes stored through `vidmem_pages`, newest first: the page and the offset -/
  stores : List (Terminal × ℤ)

namespace Screen

/-- `*(uint8_t *)(vidmem_pages[t] + offset) = c` -/
def store (s : Screen) (t : Terminal) (offset : ℤ) (c : UInt8) : Screen :=
  { s with
    mem := Function.update s.mem (vidmemPages t + offset) c
    stores := (t, offset) :: s.stores }

def setX (s : Screen) (t : Terminal) (x : ℤ) : Screen := { s with screenX := Function.update s.screenX t x }

def setY (s : Screen) (t : Terminal) (y : ℤ) : Screen := { s with screenY := Function.update s.screenY t y }

/-- `update_cursor`: the position goes to the two cursor registers. -/
def updateCursor (s : Screen) : Screen :=
  let position := s.screenY s.currTerminal * numCols + s.screenX s.currTerminal
  { s with cursorLow := UInt8.ofInt position, cursorHigh := UInt8.ofInt (position / 256) }

/-- `vert_scroll` -/
def vertScroll (s : Screen) (t : Terminal) : Screen :=
  let up (i : ℕ) (s : Screen) : Screen :=
    (s.store t (i * 2) (s.mem (vidmemPages t + (i + numCols) * 2))).store t (i * 2 + 1) attrib
  let blank (i : ℕ) (s : Screen) : Screen := (s.store t (i * 2) 0x20).store t (i * 2 + 1) attrib
  loop blank 80 1920 (loop up 1920 0 s)

/-- `putc` -/
def putc (s : Screen) (c : UInt8) (t : Terminal) : Screen :=
  updateCursor <|
    if c = 0x0A ∨ c = 0x0D then
      let s := (s.setY t (s.screenY t + 1)).setX t 0
      if s.screenY t > numRows - 1 then (s.vertScroll t).setY t (numRows - 1) else s
    else if c = 0 then s
    else
      let offset := (numCols * s.screenY t + s.screenX t) * 2
      let s := (s.store t offset c).store t (offset + 1) attrib
      let s := s.setX t (s.screenX t + 1)
      let s :=
        if s.screenY t + (s.screenX t).tdiv numCols = numRows then (s.vertScroll t).setY t (numRows - 1)
        else s.setY t ((s.screenY t + (s.screenX t).tdiv numCols).tmod numRows)
      s.setX t ((s.screenX t).tmod numCols)

/-- `putcforcenoscroll` -/
def putcforcenoscroll (s : Screen) (c : UInt8) (t : Terminal) : Screen :=
  updateCursor <|
    if c = 0x0A ∨ c = 0x0D then (s.setY t (s.screenY t + 1)).setX t 0
    else
      let offset := (numCols * s.screenY t + s.screenX t) * 2
      let s := (s.store t offset c).store t (offset + 1) attrib
      let s := s.setX t (s.screenX t + 1)
      let s := s.setX t ((s.screenX t).tmod numCols)
      s.setY t ((s.screenY t + (s.screenX t).tdiv numCols).tmod numRows)

/-- `backspace_helper` -/
def backspaceHelper (s : Screen) (t : Terminal) : Screen :=
  updateCursor <|
    if s.screenX t = 0 then
      let s := s.setX t (numCols - 1)
      let s := s.setY t (s.screenY t - 1)
      let tempy := s.screenY t
      let s := s.putcforcenoscroll 0x20 t
      (s.setX t (numCols - 1)).setY t tempy
    else
      let s := s.setX t (s.screenX t - 1)
      let s := s.putc 0x20 t
      s.setX t (s.screenX t - 1)

/-- `puts`: up to the first NUL. -/
def puts (t : Terminal) : List UInt8 → Screen → Screen
  | [], s => s
  | c :: cs, s => if c ≠ 0 then puts t cs (s.putc c t) else s

/-- The loop of `terminal_write`: all bytes, NULs included. -/
def terminalWrite (t : Terminal) : List UInt8 → Screen → Screen
  | [], s => s
  | c :: cs, s => terminalWrite t cs (s.putc c t)

/-- `reset`: both the screen and the page of the terminal shown are blanked. -/
def reset (s : Screen) : Screen :=
  let ct := s.currTerminal
  let front (i : ℕ) (s : Screen) : Screen :=
    { s with mem := Function.update (Function.update s.mem (video + i * 2) 0x20) (video + i * 2 + 1) attrib }
  let back (i : ℕ) (s : Screen) : Screen := (s.store ct (i * 2) 0x20).store ct (i * 2 + 1) attrib
  let s := loop back 2000 0 (loop front 2000 0 s)
  updateCursor ((s.setX ct 0).setY ct 0)

/-- `update_curr_term` -/
def updateCurrTerm (s : Screen) (newTerm : ℕ) : Screen :=
  if h : newTerm ≤ secondTerminal then { s with currTerminal := ⟨newTerm, Nat.lt_succ_of_le h⟩ } else s

/-- `update_vidmem` -/
def updateVidmem (s : Screen) (nextTerm : Terminal) : Screen :=
  updateCursor { s with mem := memcpy s.mem video (vidmemPages nextTerm) fourKb }

/-- `refresh_vidmem` of rtc.c -/
def refreshVidmem (s : Screen) : Screen :=
  if s.currTerminal = 0 then { s with mem := memcpy s.mem video vid1 fourKb }
  else if s.currTerminal = 1 then { s with mem := memcpy s.mem video vid2 fourKb }
  else if s.currTerminal = 2 then { s with mem := memcpy s.mem video vid3 fourKb }
  else s

end Screen

end Mp3Kernel
