/-
# Arguments from execute to getargs

A command is a name, a space and the arguments. `execute` parses it into an array on
its stack, and copies that into the new process's PCB; `getargs` copies it from there
into the caller's buffer, as often as it is asked.

`getargs` finds the PCB from the terminal being run. That it is the caller's, and
that the PCB still holds what the process's own `execute` stored there, are
properties of whole runs (`args_of_history`). That no other call's buffer lies in that
PCB is not, and is left to `Mp3Kernel.Pointers`.

The size the caller gives is only compared with the length of the string, as an
unsigned number, and without the NUL; the buffer is then cleared for 1024 bytes
whatever its size. `getargs_buffer` says for which sizes this goes well.

Key definitions: `commandOf`, `RespectsBuffer`.
Key theorems: `args_of_history`, `args_of_running`, `getargs_buffer`.
-/
import Mp3Kernel.Parsing
import Mp3Kernel.System

namespace Mp3Kernel

/-! ### One getargs -/

/-- The offsets in the caller's buffer `getargs` stores at: the loop that clears it,
then `strcpy`. -/
def getargsStores (k : Kernel) (buf : Option Buf) (nbytes : Int32) : List ℕ :=
  match buf with
  | none => []
  | some _ =>
    if nbytes = 0 then []
    else
      let args := (k.pcbOf k.running).args
      if strlen args > nbytes.toUInt32.toNat then []
      else List.range argsSize ++ List.range (strcpy args).length

section Getargs

variable {k : Kernel} {a : List UInt8} {nbytes : Int32}

theorem getargs_fits (ha : cstr (k.pcbOf k.running).args = a) (buf : Buf) (h0 : nbytes ≠ 0)
    (hfit : a.length ≤ nbytes.toUInt32.toNat) :
    getargs k (some buf) nbytes =
        .delivered ⟨0, a ++ [0], overlay (overlay buf (List.replicate argsSize 0)) (a ++ [0])⟩ ∧
      getargsStores k (some buf) nbytes = List.range argsSize ++ List.range (a.length + 1) := by
  have hlen : ¬ strlen (k.pcbOf k.running).args > nbytes.toUInt32.toNat := by
    rw [strlen_eq_length_cstr, ha]
    omega
  unfold getargs getargsStores
  simp only [if_neg h0, if_neg hlen, strcpy_eq, ha, List.length_append, List.length_singleton, and_self]

theorem getargs_refused (ha : cstr (k.pcbOf k.running).args = a) (buf : Buf)
    (h : nbytes = 0 ∨ nbytes.toUInt32.toNat < a.length) :
    getargs k (some buf) nbytes = .ret (-1) ∧ getargsStores k (some buf) nbytes = [] := by
  unfold getargs getargsStores
  simp only [strlen_eq_length_cstr, ha]
  by_cases h0 : nbytes = 0
  · simp only [if_pos h0, and_self]
  · simp only [if_neg h0, if_pos (h.resolve_left h0), and_self]

/-- `getargs` of a string that fits returns it, with NULs up to ARGS_SIZE, and writes
nothing behind them. -/
theorem getargs_returns (ha : cstr (k.pcbOf k.running).args = a) (hlen : a.length < argsSize) (buf : Buf) :
    ∃ got, getargs k (some buf) 1024 = .delivered got ∧ got.ret = 0 ∧
      (∀ i < argsSize, got.buf i = a.getD i 0) ∧ ∀ i, argsSize ≤ i → got.buf i = buf i := by
  have hsize : (1024 : Int32).toUInt32.toNat = argsSize := by decide
  obtain ⟨hget, -⟩ := getargs_fits ha buf (show (1024 : Int32) ≠ 0 by decide) (by omega)
  have hcopied : (a ++ [(0 : UInt8)]).length = a.length + 1 := List.length_append
  refine ⟨_, hget, rfl, fun i hi => ?_, fun i hi => ?_⟩
  · show overlay (overlay buf (List.replicate argsSize 0)) (a ++ [0]) i = a.getD i 0
    by_cases hlt : i < a.length + 1
    · rw [overlay_of_lt _ _ (by omega), ← List.getD_eq_getElem _ 0, getD_append_nul [] (by omega)]
    · rw [overlay_of_ge _ _ (by omega), overlay_of_lt _ _ (by simpa using hi), List.getElem_replicate,
        List.getD_eq_default _ _ (by omega)]
  · show overlay (overlay buf (List.replicate argsSize 0)) (a ++ [0]) i = buf i
    rw [overlay_of_ge _ _ (by omega), overlay_of_ge _ _ (by simpa using hi)]

theorem cstr_padded (ha : ∀ c ∈ a, c ≠ 0) (hlen : a.length < argsSize) : cstr (padded a) = a := by
  rw [padded, nuls_cons hlen]
  exact cstr_of_nul ha _

end Getargs

/-! ### Over a run -/

/-- The command of an `execute`. -/
def Event.command : Event → Option (List UInt8)
  | .execute _ _ command => command
  | _ => none

/-- The command the process with pid `p` was created with. -/
def commandOf (p : ℤ) : Trace → Option (List UInt8)
  | [] => none
  | e :: tr => if e.label.2.child = some p then e.label.1.command else commandOf p tr

/-- While `p` lives, its PCB holds the arguments of the command it was created with. -/
def ArgsKept (p : ℤ) (tr : Trace) (k : Kernel) : Prop :=
  ∀ command, commandOf p tr = some command → IsPid p ∧
    (k.processArray p ≠ 0 → ∃ args, (parseCommand command).2 = some args ∧
      (k.pcbOf p).args = pcbArgsLoop args argsSize 0 (List.replicate argsSize 0))

section History

variable {img : Image} {tr : Trace} {k : Kernel} {p : ℤ}

/-- One more step, seen by any process. -/
theorem ArgsKept.step {a : Forest} {ev : Event} {out : Outcome} {k' : Kernel} (hrep : Rep k a)
    (h : ArgsKept p tr k) (hs : Mp3Kernel.step img k ev = some (k', out)) :
    ArgsKept p (⟨k, (ev, out), k'⟩ :: tr) k' := by
  intro command hcmd
  rw [commandOf] at hcmd
  by_cases hchild : out.child = some p
  · rw [if_pos hchild] at hcmd
    obtain rfl := Outcome.started_of_child hchild
    obtain ⟨f, lo, cmd, args, rfl, hargs, hst⟩ := started_of_step hrep.coherent hs
    obtain rfl : cmd = command := Option.some.inj hcmd
    exact ⟨hst.isPid, fun _ => ⟨args, hargs, by rw [hst.child]⟩⟩
  · rw [if_neg hchild] at hcmd
    obtain ⟨hp, hkept⟩ := h command hcmd
    refine ⟨hp, fun hl => ?_⟩
    rcases live_before hrep hs hp hl with hhas | rfl
    · rw [(step_identity hrep hs hhas hl).args]
      exact hkept (by rw [hrep.live p hhas]; norm_num)
    · exact absurd rfl hchild

/-- **The PCB keeps the arguments.** In every run, whatever the others execute and
whoever halts, a live process's PCB holds the arguments it was created with. -/
theorem args_of_history (h : History img tr k) (p : ℤ) : ArgsKept p tr k := by
  apply history_inv (ArgsKept p) ?_ ?_ h
  · intro s _ command hcmd
    cases hcmd
  · intro tr s a ev out s' ha hi hst
    exact hi.step ha hst

/-- The process whose program is in the user page is the one of the terminal being
run. -/
theorem running_of_maps (h : History img tr k)
    (hmaps : Maps (k.pageDirectory userProcessIndex) ((p + 2) * 0x400000).toNat) (hp : 0 ≤ p) : k.running = p := by
  obtain ⟨a, ha⟩ := rep_of_history h
  obtain ⟨h0, h6⟩ := ha.coherent.isPid
  have hrun := maps_processEntry h0 h6
  rw [← ha.coherent.page] at hrun
  have hbase : ((k.running + 2) * 0x400000).toNat = ((p + 2) * 0x400000).toNat := hrun.2.2.2.symm.trans hmaps.2.2.2
  omega

/-- The arguments from `execute` to `getargs`. In a run in which `execute` has created
the process `p` from a name of at most 32 bytes, a space and arguments of at most 1023
bytes, and in a state of it in which `p`'s program runs, `getargs` finds the arguments. -/
theorem args_of_running (h : History img tr k) {name a rest : List UInt8}
    (hcmd : commandOf p tr = some (name ++ 0x20 :: (a ++ 0 :: rest)))
    (hname : ∀ c ∈ name, c ≠ 0x20) (hn : name.length ≤ 32) (ha : ∀ c ∈ a, c ≠ 0) (hlen : a.length ≤ 1023)
    (hmaps : Maps (k.pageDirectory userProcessIndex) ((p + 2) * 0x400000).toNat) :
    (k.pcbOf k.running).args = padded a := by
  obtain ⟨hp, hkept⟩ := args_of_history h p _ hcmd
  obtain rfl := running_of_maps h hmaps hp.1
  obtain ⟨forest, hrep⟩ := rep_of_history h
  obtain ⟨args, hargs, hpcb⟩ := hkept hrep.coherent.live
  have hfit : a.length < argsSize := by
    simp only [argsSize]
    omega
  rw [parseCommand_args hname hn ha hfit] at hargs
  obtain rfl := Option.some.inj hargs
  have hcopy := pcbArgsLoop_eq ha hfit argsSize 0 (by omega) (by omega)
  rw [List.take_zero, padded_nil] at hcopy
  rw [hpcb, hcopy]

/-- A `getargs` of 1024 bytes returns the string the caller's PCB holds. -/
theorem step_getargs (hc : Coherent k) {a : List UInt8} (ha : cstr (k.pcbOf k.running).args = a)
    (hlen : a.length < argsSize) {f : Frame} {ke : Kernel} (hent : syscallEntry k f = some ke) (buf : Buf) :
    ∃ got, step img k (.getargs f (some buf) 1024) = some (ke, .delivered got) ∧
      got.ret = 0 ∧ (∀ i < 1024, got.buf i = a.getD i 0) ∧ ∀ i, 1024 ≤ i → got.buf i = buf i := by
  obtain ⟨he, -⟩ := entered_of_syscall hc hent
  have hsame : getargs ke (some buf) 1024 = getargs k (some buf) 1024 := by
    unfold getargs
    rw [he.running, he.pcbOf]
  obtain ⟨got, hgot, hret, hin, hout⟩ := getargs_returns ha hlen buf
  refine ⟨got, ?_, hret, hin, hout⟩
  rw [step, hent, Option.map_some, hsame, hgot]

end History

/-- A shell with the argument "x", which runs one with the argument "y"; that one
halts, and every terminal gets its turn. -/
def shellArgs : List Event :=
  [.pitInt (frameOf 2), .pitInt (frameOf 1), .pitInt (frameOf 3), .halt (frameOf 4) zeros 0,
    .execute (frameOf 3) zeros (some (shellName.take 5 ++ 0x20 :: ([0x79] ++ 0 :: []))),
    .execute (frameOf 0) zeros (some (shellName.take 5 ++ 0x20 :: ([0x78] ++ 0 :: [])))]

/-! ### The caller's buffer -/

/-- The memory from a buffer on after a call that was given it. -/
def Outcome.bufAfter (buf : Buf) : Outcome → Buf
  | .delivered got => got.buf
  | _ => buf

/-- `getargs` of the string `a` respects a buffer of `nbytes` bytes. -/
structure RespectsBuffer (k : Kernel) (a : List UInt8) (buf : Buf) (nbytes : Int32) : Prop where
  within : ∀ i ∈ getargsStores k (some buf) nbytes, (i : ℤ) < nbytes.toInt
  succeeds : (∃ got, getargs k (some buf) nbytes = .delivered got ∧ got.ret = 0) ↔ (a.length : ℤ) + 1 ≤ nbytes.toInt
  copied : (a.length : ℤ) + 1 ≤ nbytes.toInt →
    ∀ i ≤ a.length, (getargs k (some buf) nbytes).bufAfter buf i = (a ++ [0]).getD i 0
  failed : ¬ (a.length : ℤ) + 1 ≤ nbytes.toInt →
    getargs k (some buf) nbytes = .ret (-1) ∧ (getargs k (some buf) nbytes).bufAfter buf = buf

section Buffer

variable {k : Kernel} {a : List UInt8} {nbytes : Int32}

theorem respectsBuffer_of_refused (ha : cstr (k.pcbOf k.running).args = a) (buf : Buf)
    (h : nbytes = 0 ∨ (0 < nbytes.toInt ∧ nbytes.toInt < a.length)) : RespectsBuffer k a buf nbytes := by
  have hword := toNat_toUInt32 nbytes
  have hsmall : ¬ (a.length : ℤ) + 1 ≤ nbytes.toInt := by
    rcases h with rfl | h
    · show ¬ (a.length : ℤ) + 1 ≤ 0
      omega
    · omega
  obtain ⟨hret, hstores⟩ := @getargs_refused k a nbytes ha buf (h.imp id fun h => by
    rw [if_pos (by omega)] at hword
    omega)
  refine ⟨?_, ?_, fun h => absurd h hsmall, fun _ => ⟨hret, ?_⟩⟩
  · rw [hstores]
    simp
  · refine iff_of_false ?_ hsmall
    rintro ⟨got, hgot, -⟩
    rw [hret] at hgot
    cases hgot
  · rw [hret]
    rfl

/-- **`getargs` and its buffer.** For every string of at most 1023 bytes in the PCB, every
buffer and every size: `getargs` stores nothing outside the buffer, succeeds exactly
when the buffer holds the string and its NUL, and otherwise leaves it alone, if and
only if the size is 0, or positive and less than the string's length, or at least 1024. -/
theorem getargs_buffer (ha : cstr (k.pcbOf k.running).args = a) (hlen : a.length ≤ 1023) (buf : Buf) (nbytes : Int32) :
    RespectsBuffer k a buf nbytes ↔
      nbytes = 0 ∨ (0 < nbytes.toInt ∧ nbytes.toInt < a.length) ∨ 1024 ≤ nbytes.toInt := by
  have hword := toNat_toUInt32 nbytes
  have hmin := Int32.le_toInt nbytes
  constructor
  · intro h
    by_contra hcond
    simp only [not_or, not_and, not_lt, not_le] at hcond
    obtain ⟨h0, hpos, hbig⟩ := hcond
    have hne : nbytes.toInt ≠ 0 := fun hz => h0 (Int32.toInt_inj.mp hz)
    obtain ⟨hget, hstores⟩ := getargs_fits ha buf h0 (by split_ifs at hword <;> omega)
    have hle : (a.length : ℤ) + 1 ≤ nbytes.toInt := h.succeeds.mp ⟨_, hget, rfl⟩
    have hlast := h.within 1023 (by rw [hstores]; simp [argsSize])
    omega
  · rintro (h0 | hsmall | hbig)
    · exact respectsBuffer_of_refused ha buf (Or.inl h0)
    · exact respectsBuffer_of_refused ha buf (Or.inr hsmall)
    · have h0 : nbytes ≠ 0 := by
        rintro rfl
        exact absurd hbig (by decide)
      have hfits : (a.length : ℤ) + 1 ≤ nbytes.toInt := by omega
      obtain ⟨hget, hstores⟩ := getargs_fits ha buf h0 (by split_ifs at hword <;> omega)
      refine ⟨fun i hi => ?_, iff_of_true ⟨_, hget, rfl⟩ hfits, fun _ i hi => ?_, fun h => absurd hfits h⟩
      · rw [hstores, List.mem_append, List.mem_range, List.mem_range] at hi
        simp only [argsSize] at hi
        omega
      · rw [hget]
        show overlay _ (a ++ [0]) i = _
        have hi' : i < (a ++ [(0 : UInt8)]).length := by
          rw [List.length_append, List.length_singleton]
          omega
        rw [overlay_of_lt _ _ hi', List.getD_eq_getElem _ _ hi']

end Buffer

/-- 1024 bytes are enough for any arguments. -/
theorem getargs_buffer_shellArgs : cstr ((smallRun shellArgs).2.pcbOf (smallRun shellArgs).2.running).args = [0x78] ∧
    RespectsBuffer (smallRun shellArgs).2 [0x78] (fun _ => 7) 1024 := by
  have ha : cstr ((smallRun shellArgs).2.pcbOf (smallRun shellArgs).2.running).args = [0x78] := by decide +kernel
  exact ⟨ha, (getargs_buffer ha (by decide) (fun _ => 7) 1024).mpr (Or.inr (Or.inr (by decide)))⟩

/-- With a buffer of two bytes for the argument "x", the byte behind it is cleared too. -/
theorem getargs_overrun : cstr ((smallRun shellArgs).2.pcbOf (smallRun shellArgs).2.running).args = [0x78] ∧
    (getargs (smallRun shellArgs).2 (some fun _ => 7) 2).bufAfter (fun _ => 7) 2 = 0 ∧
    ¬ RespectsBuffer (smallRun shellArgs).2 [0x78] (fun _ => 7) 2 := by
  have ha : cstr ((smallRun shellArgs).2.pcbOf (smallRun shellArgs).2.running).args = [0x78] := by decide +kernel
  obtain ⟨hget, hstores⟩ := getargs_fits ha (fun _ => 7) (show (2 : Int32) ≠ 0 by decide) (by decide)
  refine ⟨ha, by rw [hget]; rfl, fun h => ?_⟩
  have hmem : 2 ∈ getargsStores (smallRun shellArgs).2 (some fun _ => 7) 2 := by
    rw [hstores]
    exact List.mem_append_left _ (List.mem_range.mpr (by decide))
  exact absurd (h.within 2 hmem) (by decide)

end Mp3Kernel
