/-
# The devices a write reaches

The console is the list of the `putc` calls made, each with the terminal it was
directed to; what `putc` then does to that terminal's page is the screen's
business. The real-time clock is its register A, whose low four bits select the
rate, and the flag `rtc_int` raises and `rtc_read` lowers.

Key definitions: `Devices`, `terminalWrite`, `changeRate`, `rtcWrite`.
-/
import Mp3Kernel.Strings

namespace Mp3Kernel

/-- The device state system calls read and write. -/
structure Devices where
  /-- the `putc(c, pcb_term)` calls made, oldest first -/
  console : List (UInt8 × ℤ)
  /-- lib.c's `curr_terminal`, the terminal `printf` writes to -/
  shown : ℤ
  /-- the RTC's register A -/
  rtcRegA : UInt8
  /-- rtc.c's `readFlag` -/
  readFlag : Bool

/-- `putc`, as a request to the screen -/
def putc (dev : Devices) (c : UInt8) (pcbTerm : ℤ) : Devices :=
  { dev with console := dev.console ++ [(c, pcbTerm)] }

/-- `printf` of a text without conversions. -/
def printf (dev : Devices) (text : List UInt8) : Devices :=
  text.foldl (fun d c => putc d c d.shown) dev

/-- The loop of `terminal_write`, for `n` more bytes from `i` on. -/
def writeLoop (term : ℤ) (buf : Buf) : ℕ → ℕ → Devices → Devices
  | 0, _, dev => dev
  | n + 1, i, dev => writeLoop term buf n (i + 1) (putc dev (buf i) term)

/-- `terminal_write`, for a caller whose terminal is `term` -/
def terminalWrite (dev : Devices) (term : ℤ) (buf : Buf) (nbytes : Int32) : Int32 × Devices :=
  (nbytes, writeLoop term buf nbytes.toInt.toNat 0 dev)

/-- DEFAULT_FREQ -/
abbrev defaultFreq : UInt32 := 2
/-- FREQ_UPPER_BOUND -/
abbrev freqUpperBound : UInt32 := 1024

/-- The loop of `change_rate` that counts how often `rate` halves down to 1. -/
def rateLoop : ℕ → UInt32 → UInt32 → UInt32
  | 0, _, rateCounter => rateCounter
  | n + 1, rate, rateCounter => if rate ≠ 1 then rateLoop n (rate >>> 1) (rateCounter + 1) else rateCounter

/-- `change_rate` -/
def changeRate (dev : Devices) (rate : UInt32) : Devices :=
  if rate < defaultFreq ∨ rate > freqUpperBound then dev
  else
    let rate' := 16 - rateLoop 32 rate 0
    { dev with rtcRegA := (dev.rtcRegA &&& 0xF0) ||| rate'.toUInt8 }

/-- The values `rtc_write` accepts. -/
def rateOk (rate : UInt32) : Bool :=
  !(rate > freqUpperBound || rate < defaultFreq) && rate &&& (rate - 1) == 0

/-- `rtc_write`: the rate is the buffer's first byte. -/
def rtcWrite (dev : Devices) (buf : Buf) : Int32 × Devices :=
  let rate := (buf 0).toUInt32
  if rate > freqUpperBound ∨ rate < defaultFreq then (-1, dev)
  else if rate &&& (rate - 1) ≠ 0 then (-1, dev)
  else (0, changeRate dev rate)

/-- `terminal_write` fails silently for one size only: asked for -1 bytes it writes
none and returns -1. -/
theorem terminalWrite_dead (dev : Devices) (term : ℤ) (buf : Buf) (nbytes : Int32) :
    terminalWrite dev term buf nbytes = (-1, dev) ↔ nbytes = -1 := by
  constructor
  · intro h
    exact congrArg Prod.fst h
  · rintro rfl
    rfl

/-- `rtc_write` fails, without touching the clock, exactly on the values that are
no rate. -/
theorem rtcWrite_dead (dev : Devices) (buf : Buf) :
    rtcWrite dev buf = (-1, dev) ↔ rateOk (buf 0).toUInt32 = false := by
  unfold rtcWrite rateOk
  simp only
  split_ifs with h1 h2
  · simp only [true_iff]
    rcases h1 with h | h <;> simp [h]
  · simp only [true_iff]
    simp [h2]
  · constructor
    · intro h
      exact absurd (congrArg Prod.fst h) (by simp)
    · intro h
      obtain ⟨h3, h4⟩ := not_or.mp h1
      simp [h3, h4, not_not.mp h2] at h

end Mp3Kernel
