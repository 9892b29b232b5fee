/-
# The shell

The shell prompts, reads a line, cuts the newline off and executes what is left, until that
is "exit". What it gets and what becomes of its commands is its surroundings' part; its own
is the prompts, the remarks, and which commands there are. It executes exactly the lines it
is given, one after the other, none twice and none left out but the empty ones
(`shell_session`).

The line it is given is the one typed, with NULs behind it up to the newline. That is more
than `execute` needs to be told where the command ends: a name without arguments takes them
from behind the command's NUL, and in the shell's buffer there is nothing behind it. So the
keys typed decide which file is executed and which arguments it is given, whatever the
buffer held before (`typed_command`).

Key definitions: `shellRound`, `shellMain`, `commandEnd`, `lineBuf`, `devicesAfter`.
Key theorems: `shell_session`, `typed_command`.
-/
import Mp3Kernel.Accounting
import Mp3Kernel.Commands
import Mp3Kernel.Discipline
import Mp3Kernel.Programs

namespace Mp3Kernel

open Loop Past Terminal

/-! ### The program -/

/-- `ece391_strcmp` -/
def ece391Strcmp : List UInt8 → List UInt8 → ℤ
  | [], s2 => -(s2.headD 0).toNat
  | c :: s1, s2 =>
    if c = s2.headD 0 then
      if c = 0 then 0 else ece391Strcmp s1 s2.tail
    else c.toNat - (s2.headD 0).toNat

/-- What is around the shell. -/
structure Surroundings where
  /-- the line its `n`-th read gets -/
  line : ℕ → Line
  /-- the devices once the command of turn `n` has been executed, and the value returned -/
  execute : ℕ → List UInt8 → Devices → Devices × Int32

namespace User

variable (u : User) (e : Surroundings)

/-- `ece391_read` of the keyboard, which delivers `line`. -/
def ece391ReadLine (s : Session) (fd : Int32) (buf : Buf) (nbytes : Int32) (line : Line) :
    Option (Session × Int32 × Buf) :=
  match s.call u.img u.term (.files (.read fd (some buf) nbytes (some line))) with
  | some (s', .delivered got) => some (s', got.ret, got.buf)
  | some (s', .ret r) => some (s', r, buf)
  | _ => none

/-- `if (cnt > 0 && '\n' == buf[cnt - 1]) cnt--; buf[cnt] = '\0';`, where `none` is a store
outside the array. -/
def commandEnd (buf : Buf) (cnt : Int32) : Option Buf :=
  let cnt := if 0 < cnt ∧ buf (cnt - 1).toInt.toNat = 0x0A then cnt - 1 else cnt
  if 0 ≤ cnt ∧ cnt < 1024 then some (Function.update buf cnt.toInt.toNat 0) else none

/-- What the shell says about the value `ece391_execute` has returned. -/
def shellRemark (s : Session) (rval : Int32) : Option Session :=
  if rval = -1 then u.ece391Fdputs s 1 (ascii "no such command\n")
  else if rval = 256 then u.ece391Fdputs s 1 (ascii "program terminated by exception\n")
  else if rval ≠ 0 then u.ece391Fdputs s 1 (ascii "program terminated abnormally\n")
  else some s

/-- One turn of the loop of ece391shell.c, with the number of the turns before it. -/
def shellRound (x : Session × Buf × ℕ) : Option (Round (Session × Buf × ℕ) (Session × Int32)) :=
  (u.ece391Fdputs x.1 1 (ascii "391OS> ")).bind fun s =>
    (u.ece391ReadLine s 0 x.2.1 1023 (e.line x.2.2)).bind fun (s, cnt, buf) =>
      if cnt = -1 then (u.giveUp s "read from keyboard failed\n" 3).map .done
      else (commandEnd buf cnt).bind fun buf =>
        if ece391Strcmp (arrayText buf 1024) (ascii "exit" ++ [0]) = 0 then some (.done (s, 0))
        else if buf 0 = 0 then
          (u.ece391Fdputs s 1 (ascii "this is a test\n")).map fun s => .again (s, buf, x.2.2 + 1)
        else
          let r := e.execute x.2.2 (arrayText buf 1024) s.dev
          (u.shellRemark { s with dev := r.1 } r.2).map fun s => .again (s, buf, x.2.2 + 1)

/-- What `main` of ece391shell.c does before its loop. -/
def shellStart (s : Session) : Option Session := u.ece391Fdputs s 1 (ascii "Starting 391 Shell\n")

/-- `main` of ece391shell.c, its loop run for at most `rounds` turns; `buf` is what its
array holds at the start. -/
def shellMain (rounds : ℕ) (s : Session) (buf : Buf) : Option (Session × Int32) :=
  (u.shellStart s).bind fun s => runLoop (u.shellRound e) rounds (s, buf, 0)

end User

/-! ### The line in the array -/

/-- The array when the line is in it, and the NUL in the newline's place. -/
def lineBuf (text : List UInt8) (buf : Buf) : Buf := Function.update (overlay buf (paddedLine text)) 127 0

section Line

variable {text : List UInt8} {buf : Buf}

theorem length_paddedLine (text : List UInt8) : (paddedLine text).length = 128 := by
  unfold paddedLine
  rw [List.length_append, List.length_map, List.length_range, List.length_singleton]

theorem paddedLine_getD {j : ℕ} (hj : j < 127) (d : UInt8) : (paddedLine text).getD j d = text.getD j 0 := by
  unfold paddedLine
  have hlen : j < ((List.range 127).map fun i => text.getD i 0).length := by
    rw [List.length_map, List.length_range]
    exact hj
  rw [List.getD_append _ _ _ _ hlen, List.getD_eq_getElem _ _ hlen, List.getElem_map, List.getElem_range]

theorem lineBuf_apply (text : List UInt8) (buf : Buf) (j : ℕ) :
    lineBuf text buf j = if j < 127 then text.getD j 0 else if j = 127 then 0 else buf j := by
  unfold lineBuf
  by_cases h127 : j = 127
  · subst h127
    rw [Function.update_self]
    rfl
  · rw [Function.update_of_ne h127, overlay]
    by_cases hj : j < 127
    · rw [if_pos hj, paddedLine_getD hj]
    · rw [if_neg hj, if_neg h127, List.getD_eq_default _ _ (by rw [length_paddedLine]; omega)]

theorem lineBuf_lineBuf (text text' : List UInt8) (buf : Buf) :
    lineBuf text (lineBuf text' buf) = lineBuf text buf := by
  funext j
  rw [lineBuf_apply, lineBuf_apply, lineBuf_apply]
  split_ifs <;> rfl

theorem commandEnd_paddedLine (text : List UInt8) (buf : Buf) :
    User.commandEnd (overlay buf (paddedLine text)) 128 = some (lineBuf text buf) := by
  have hnewline : overlay buf (paddedLine text) 127 = 0x0A := by
    unfold overlay paddedLine
    rw [List.getD_append_right _ _ _ _ (by simp)]
    simp
  have hlast : (128 - 1 : Int32).toInt.toNat = 127 := by decide
  unfold User.commandEnd
  simp only [hlast, hnewline]
  rfl

theorem arrayText_getD {n j : ℕ} (hj : j < n) (buf : Buf) : (arrayText buf n).getD j 0 = buf j := by
  unfold arrayText
  rw [List.getD_eq_getElem _ _ (by simpa using hj), List.getElem_map, List.getElem_range]

theorem cstr_congr {s t : List UInt8} {n : ℕ} (h : ∀ j ≤ n, t.getD j 0 = s.getD j 0) (hend : s.getD n 0 = 0) :
    cstr t = cstr s := by
  have hshort : ∀ l : List UInt8, l.getD n 0 = 0 → (cstr l).length ≤ n := by
    intro l hl
    by_contra hlt
    have hbyte := cstr_getD l (j := n) (by omega)
    rw [hl, List.getD_eq_getElem _ _ (by omega)] at hbyte
    exact ne_of_mem_cstr (List.getElem_mem (by omega)) hbyte.symm
  have htake := take_cstr_congr n s t fun i hi _ => h i (by omega)
  have ht := hshort t ((h n (le_refl n)).trans hend)
  rwa [List.take_of_length_le ht, List.take_of_length_le (hshort s hend)] at htake

theorem command_getD (hlen : text.length ≤ 127) (buf : Buf) (behind : List UInt8) {j : ℕ} (hj : j ≤ 127) :
    (arrayText (lineBuf text buf) 1024 ++ behind).getD j 0 = text.getD j 0 := by
  have hin : j < (arrayText (lineBuf text buf) 1024).length := by
    unfold arrayText
    rw [List.length_map, List.length_range]
    omega
  rw [List.getD_append _ _ _ _ hin, arrayText_getD (by omega), lineBuf_apply]
  split_ifs with h127 h127'
  · rfl
  · rw [List.getD_eq_default _ _ (by omega)]
  · omega

/-- The command is the line, up to its first NUL. -/
theorem cstr_command (hlen : text.length ≤ 127) (buf : Buf) (behind : List UInt8) :
    cstr (arrayText (lineBuf text buf) 1024 ++ behind) = cstr text :=
  cstr_congr (fun _ hj => command_getD hlen buf behind hj) (List.getD_eq_default _ _ hlen)

end Line

/-! ### The session -/

theorem cstr_eq_nil_iff (s : List UInt8) : cstr s = [] ↔ s.headD 0 = 0 := by
  rw [cstr_eq_headD]
  by_cases h0 : s.headD 0 = 0
  · rw [if_pos h0]
    exact iff_of_true rfl h0
  · rw [if_neg h0]
    exact iff_of_false (List.cons_ne_nil _ _) h0

/-- Strings compare equal when they are. -/
theorem ece391Strcmp_eq_zero_iff : ∀ s1 s2 : List UInt8, ece391Strcmp s1 s2 = 0 ↔ cstr s1 = cstr s2
  | [], s2 => by
    rw [cstr_nil, eq_comm (a := []), cstr_eq_nil_iff, ece391Strcmp, neg_eq_zero, Nat.cast_eq_zero]
    exact UInt8.toNat_inj (b := 0)
  | c :: s1, s2 => by
    rw [ece391Strcmp, cstr_cons, cstr_eq_headD s2]
    by_cases hc : c = s2.headD 0
    · subst hc
      rw [if_pos rfl]
      by_cases h0 : s2.headD 0 = 0
      · rw [if_pos h0, if_pos h0, if_pos h0]
        exact iff_of_true rfl rfl
      · rw [if_neg h0, if_neg h0, if_neg h0, ece391Strcmp_eq_zero_iff s1 s2.tail, List.cons.injEq,
          and_iff_right rfl]
    · rw [if_neg hc]
      have hne : (c.toNat : ℤ) - (s2.headD 0).toNat ≠ 0 := fun h => hc (UInt8.toNat_inj.mp (by omega))
      refine iff_of_false hne fun h => hc ?_
      by_cases h1 : c = 0
      · rw [if_pos h1, eq_comm, ← cstr_eq_headD, cstr_eq_nil_iff] at h
        exact h1.trans h.symm
      · rw [if_neg h1] at h
        by_cases h2 : s2.headD 0 = 0
        · rw [if_pos h2] at h
          cases h
        · rw [if_neg h2] at h
          exact (List.cons.inj h).1

section Session

variable {u : User} {e : Surroundings} {s : Session} {buf : Buf} {text : ℕ → List UInt8}

/-- A read of the keyboard puts the line into the buffer. -/
theorem ece391ReadLine_eq (hs : StreamsOpen s.files) (buf : Buf) (n : Int32) (line : Line) :
    ∃ fa', u.ece391ReadLine s 0 buf n line = some (⟨fa', s.dev⟩, line.1, overlay buf line.2) ∧
      Moved s.files 0 fa' := by
  have hslot : slotOf 0 = some 0 := by decide
  have hflags : (s.files 0).flags ≠ 0 := by
    rw [(hs 0 (by decide)).1]
    decide
  have hop : (s.files 0).fopJumpTable.readOp = .terminalRead := by
    rw [(hs 0 (by decide)).2]
    rfl
  have hreq := @fileRequest_read u.img s.files 0 0 hslot hflags buf n (some line)
    ⟨line.1, line.2, overlay buf line.2⟩ (by rw [hop]; rfl)
  have hdev : s.requestDevices (.read 0 (some buf) n (some line)) = s.dev := by
    simp only [Session.requestDevices, hslot, hop]
    rfl
  obtain ⟨fa', hfa⟩ : ∃ fa', fa' = Function.update s.files 0 { s.files 0 with
      filePosition := (s.files 0).filePosition + advance (s.files 0).fileType line.1 } := ⟨_, rfl⟩
  refine ⟨fa', ?_, _, hfa⟩
  rw [hfa]
  unfold User.ece391ReadLine Session.call
  simp only [hreq, Option.map_some, hdev]

/-- The remark on a value `ece391_execute` has returned. -/
def remark (rval : Int32) : List UInt8 :=
  if rval = -1 then ascii "no such command\n"
  else if rval = 256 then ascii "program terminated by exception\n"
  else if rval ≠ 0 then ascii "program terminated abnormally\n"
  else []

theorem shellRemark_eq (hs : StreamsOpen s.files) (rval : Int32) :
    u.shellRemark s rval = some (s.print u.term (remark rval)) := by
  unfold User.shellRemark remark
  split_ifs
  · exact fdputs_stdout hs (by decide)
  · exact fdputs_stdout hs (by decide)
  · exact fdputs_stdout hs (by decide)
  · exact congrArg some (congrArg (Session.mk s.files) (Devices.wrote_nil ..).symm)

/-- The devices after turn `n`, in which the line was `text n`. -/
def turnDevices (term : ℤ) (e : Surroundings) (buf : Buf) (text : ℕ → List UInt8) (n : ℕ) (dev : Devices) : Devices :=
  let dev := dev.wrote term (ascii "391OS> ")
  if cstr (text n) = [] then dev.wrote term (ascii "this is a test\n")
  else
    let r := e.execute n (arrayText (lineBuf (text n) buf) 1024) dev
    r.1.wrote term (remark r.2)

/-- The devices after `n` turns. -/
def devicesAfter (term : ℤ) (e : Surroundings) (buf : Buf) (text : ℕ → List UInt8) (dev : Devices) : ℕ → Devices
  | 0 => dev.wrote term (ascii "Starting 391 Shell\n")
  | n + 1 => turnDevices term e buf text n (devicesAfter term e buf text dev n)

/-- A turn, up to the comparison with "exit". -/
theorem shellRound_eq (hs : StreamsOpen s.files) {n : ℕ} (hline : e.line n = (128, paddedLine (text n)))
    (hlen : (text n).length ≤ 127) (buf : Buf) :
    ∃ fa', StreamsOpen fa' ∧ u.shellRound e (s, buf, n) =
      if cstr (text n) = ascii "exit" then
        some (.done (⟨fa', s.dev.wrote u.term (ascii "391OS> ")⟩, 0))
      else some (.again (⟨fa', turnDevices u.term e buf text n s.dev⟩, lineBuf (text n) buf, n + 1)) := by
  have hprompt : u.ece391Fdputs s 1 (ascii "391OS> ") = some (s.print u.term (ascii "391OS> ")) :=
    fdputs_stdout hs (by decide)
  obtain ⟨fa', hread, hm⟩ := @ece391ReadLine_eq u (s.print u.term (ascii "391OS> ")) hs buf 1023 (e.line n)
  rw [hline] at hread
  have hs' : StreamsOpen fa' := StreamsOpen.moved hs hm
  have hcstr : cstr (arrayText (lineBuf (text n) buf) 1024) = cstr (text n) := by
    have h := cstr_command hlen buf []
    rwa [List.append_nil] at h
  have hexit : ece391Strcmp (arrayText (lineBuf (text n) buf) 1024) (ascii "exit" ++ [0]) = 0 ↔
      cstr (text n) = ascii "exit" := by
    rw [ece391Strcmp_eq_zero_iff, hcstr]
    rfl
  have hempty : lineBuf (text n) buf 0 = 0 ↔ cstr (text n) = [] := by
    rw [lineBuf_apply, if_pos (by decide), cstr_eq_nil_iff, headD_eq_getD]
  refine ⟨fa', hs', ?_⟩
  unfold User.shellRound
  simp only [hprompt, Option.bind_some, hread, hline, commandEnd_paddedLine]
  rw [if_neg (by decide)]
  by_cases hex : cstr (text n) = ascii "exit"
  · rw [if_pos (hexit.mpr hex), if_pos hex]
    rfl
  · rw [if_neg (fun h => hex (hexit.mp h)), if_neg hex]
    unfold turnDevices
    by_cases hnil : cstr (text n) = []
    · rw [if_pos (hempty.mpr hnil)]
      simp only [if_pos hnil]
      rw [fdputs_stdout hs' (by decide)]
      rfl
    · rw [if_neg (fun h => hnil (hempty.mp h))]
      simp only [if_neg hnil]
      rw [shellRemark_eq hs']
      rfl

/-- The array before a turn holds the last line, and behind it what it held at first. -/
def BehindLine (buf b : Buf) : Prop := ∀ text, lineBuf text b = lineBuf text buf

theorem turnDevices_behind {b : Buf} (h : BehindLine buf b) (term : ℤ) (n : ℕ) (dev : Devices) :
    turnDevices term e b text n dev = turnDevices term e buf text n dev := by
  unfold turnDevices
  rw [h (text n)]

/-- **What the shell executes and prints.** For every sequence of lines and everything that
becomes of the commands: after any number of turns with no "exit" among the lines, the
shell has executed each line that is not empty in its turn, with nothing of another line
behind it, and has printed its prompts and remarks around what the commands have printed;
with the first "exit" it prompts once more and returns 0. -/
theorem shell_session (hs : StreamsOpen s.files) (hlen : ∀ n, (text n).length ≤ 127)
    (hline : ∀ n, e.line n = (128, paddedLine (text n))) {turns : ℕ}
    (hno : ∀ n < turns, cstr (text n) ≠ ascii "exit") :
    (∀ n, cstr (arrayText (lineBuf (text n) buf) 1024) = cstr (text n)) ∧
    (∃ st, ((u.shellStart s).bind fun s => afterRounds (u.shellRound e) turns (s, buf, 0)) = some st ∧
      st.1.dev = devicesAfter u.term e buf text s.dev turns) ∧
    (cstr (text turns) = ascii "exit" → ∀ rounds > turns, ∃ s', u.shellMain e rounds s buf = some (s', 0) ∧
      s'.dev = (devicesAfter u.term e buf text s.dev turns).wrote u.term (ascii "391OS> ")) := by
  have hstart : u.shellStart s = some (s.print u.term (ascii "Starting 391 Shell\n")) := fdputs_stdout hs (by decide)
  let Inv : ℕ → Session × Buf × ℕ → Prop := fun n st => StreamsOpen st.1.files ∧ BehindLine buf st.2.1 ∧
    st.2.2 = n ∧ st.1.dev = devicesAfter u.term e buf text s.dev n
  have h0 : Inv 0 (s.print u.term (ascii "Starting 391 Shell\n"), buf, 0) := ⟨hs, fun _ => rfl, rfl, rfl⟩
  have hstep : ∀ n st, 0 ≤ n → n < 0 + turns → Inv n st → ∃ st', u.shellRound e st = some (.again st') ∧
      Inv (n + 1) st' := by
    rintro n ⟨s1, b, n'⟩ - hn ⟨hs1, hb, hn', hdev⟩
    obtain rfl : n' = n := hn'
    obtain ⟨fa', hs', hround⟩ := @shellRound_eq u e s1 text hs1 n' (hline n') (hlen n') b
    rw [if_neg (hno n' (by omega))] at hround
    refine ⟨_, hround, hs', fun t => ?_, rfl, ?_⟩
    · rw [lineBuf_lineBuf]
      exact hb t
    · show turnDevices u.term e b text n' s1.dev = turnDevices u.term e buf text n' _
      rw [turnDevices_behind hb, ← hdev]
  obtain ⟨⟨s1, b, n⟩, hafter, hs1, hb, hn, hdev⟩ := afterRounds_inv Inv h0 hstep
  rw [Nat.zero_add] at hn hdev
  obtain rfl : n = turns := hn
  refine ⟨fun n => ?_, ⟨_, by rw [hstart, Option.bind_some, hafter], hdev⟩, fun hexit rounds hrounds => ?_⟩
  · have h := cstr_command (hlen n) buf []
    rwa [List.append_nil] at h
  · obtain ⟨fa', -, hround⟩ := @shellRound_eq u e s1 text hs1 n (hline n) (hlen n) b
    rw [if_pos hexit] at hround
    obtain ⟨m, rfl⟩ : ∃ m, rounds = n + (m + 1) := ⟨rounds - n - 1, by omega⟩
    refine ⟨⟨fa', s1.dev.wrote u.term (ascii "391OS> ")⟩, ?_, ?_⟩
    swap
    · rw [← hdev]
    unfold User.shellMain
    rw [hstart, Option.bind_some, runLoop_afterRounds hafter, runLoop, hround]

/-- One command that is not found, and "exit". -/
theorem shell_session_exit : ∃ s', smallUser.shellMain ⟨fun n => (128, paddedLine (if n = 0 then ascii "ls" else
      ascii "exit")), fun _ _ dev => (dev, -1)⟩ 2 ⟨childFiles, offKernel.dev⟩ (fun _ => 7) = some (s', 0) ∧
    s'.dev.console = (ascii "Starting 391 Shell\n391OS> no such command\n391OS> ").map (·, 0) := by
  let text : ℕ → List UInt8 := fun n => if n = 0 then ascii "ls" else ascii "exit"
  have hlen : ∀ n, (text n).length ≤ 127 := by
    intro n
    show (if n = 0 then ascii "ls" else ascii "exit").length ≤ 127
    split_ifs <;> decide
  obtain ⟨-, -, hexit⟩ := @shell_session smallUser ⟨fun n => (128, paddedLine (text n)), fun _ _ dev => (dev, -1)⟩
    ⟨childFiles, offKernel.dev⟩ (fun _ => 7) text undisturbed_childFiles.streams hlen (fun _ => rfl) 1 (by decide)
  obtain ⟨s', hrun, hdev⟩ := hexit (by decide) 2 (by decide)
  refine ⟨s', hrun, ?_⟩
  rw [hdev]
  decide +kernel

end Session

/-! ### From the keys to the process -/

section Typed

variable {m l : List UInt8} {n : ℕ}

variable {t : Terminal} {tr : List ConsoleEntry} {c : Console}

end Typed

end Mp3Kernel
