/-
# What execute makes of a command

What the two loops of `execute` make of any bytes at all is known (`parseCommand_snd`);
this is what follows for its callers.

A command that has no space among its first 32 bytes takes its arguments from behind
its own end, unless it is longer than 32 bytes; so what `execute` stores depends on the
command alone exactly as `command_parsing` says. Arguments of 1024 bytes or more are
stored outside the array on the stack, whenever the process table has room for one
more process (`execute_buffers`). A failing `execute`, on the other hand, changes
nothing (`failed_execute`): the load that comes after the user page has been remapped
cannot fail, as the magic number was just read through the same inode.

Key definitions: `DependsOnCommand`, `executeStores`.
Key theorems: `failed_execute`, `command_parsing`, `execute_buffers`.
-/
import Mp3Kernel.Arguments

namespace Mp3Kernel

/-! ### A failing execute -/

/-- What a failing `execute` must leave as it was. -/
structure Unchanged (k k' : Kernel) : Prop where
  processArray : k'.processArray = k.processArray
  terminalArray : k'.terminalArray = k.terminalArray
  currTerminal : k'.currTerminal = k.currTerminal
  pcb : k'.pcb = k.pcb
  page : k'.pageDirectory userProcessIndex = k.pageDirectory userProcessIndex
  esp0 : k'.esp0 = k.esp0

/-- Arguments that fit are enough for `execute` to do one of its two things. -/
theorem execute_isSome (img : Image) (k : Kernel) (lo : Leftover) {command : Option (List UInt8)}
    (hfit : ∀ c, command = some c → (argumentPart c).length < argsSize) :
    ∃ k' out, execute img k lo command = some (k', out) := by
  unfold execute
  cases command with
  | none => exact ⟨_, _, rfl⟩
  | some c =>
    have hargs := parseCommand_snd c
    rw [if_pos (hfit c rfl)] at hargs
    simp only [hargs]
    split_ifs with hpid
    · exact ⟨_, _, rfl⟩
    · cases readDentryByName img.boot ((parseCommand c).1 ++ lo.behind) with
      | none => exact ⟨_, _, rfl⟩
      | some d =>
        simp only
        split_ifs with hx hl
        · exact ⟨_, _, rfl⟩
        · exact ⟨_, _, rfl⟩
        · exact ⟨_, _, rfl⟩

/-- **A failing `execute` is atomic.** In every state of every run, for every image,
whatever its uninitialised locals hold and whatever command it gets, NULL included:
if the arguments fit, `execute` starts a process or returns -1, and if it returns -1
the tables, the PCBs, the user page and `tss.esp0` are what they were. -/
theorem failed_execute {img : Image} {tr : Trace} {k ke : Kernel} (h : History img tr k) {f : Frame}
    (hent : syscallEntry k f = some ke) (lo : Leftover) (command : Option (List UInt8))
    (hfit : ∀ c, command = some c → (argumentPart c).length < argsSize) :
    ∃ k' out, step img k (.execute f lo command) = some (k', out) ∧
      (out = .ret (-1) ∨ ∃ p, out = .started p) ∧ (out = .ret (-1) → Unchanged k k') := by
  obtain ⟨a, ha⟩ := rep_of_history h
  obtain ⟨he, -⟩ := entered_of_syscall ha.coherent hent
  obtain ⟨k', out, hex⟩ := execute_isSome img ke lo hfit
  refine ⟨k', out, ?_, ?_⟩
  · rw [step, hent, Option.bind_some, hex]
  · rcases execute_cases hex with ⟨rfl, rfl⟩ | ⟨cmd, args, -, -, -, -, rfl⟩
    · obtain ⟨h1, h2, h3, h4, h5, h6, -, -⟩ := he.fields
      exact ⟨Or.inl rfl, fun _ => ⟨h1, h2, h3, h4, congrFun h5 _, h6⟩⟩
    · exact ⟨Or.inr ⟨_, rfl⟩, fun hret => by cases hret⟩

/-- The second base shell executes a program that is not there. -/
theorem failed_execute_small : ∃ k' out,
    step smallImage (smallRun spawn).2 (.execute (frameOf 1) zeros (some [0x78, 0x20, 0x79])) = some (k', out) ∧
      out = .ret (-1) ∧ Unchanged (smallRun spawn).2 k' := by
  have hent : (syscallEntry (smallRun spawn).2 (frameOf 1)).isSome := by decide +kernel
  obtain ⟨ke, hke⟩ := Option.isSome_iff_exists.mp hent
  obtain ⟨k', out, hst, hout, hkeep⟩ := failed_execute (history_smallRun spawn) hke zeros (some [0x78, 0x20, 0x79])
    fun c hc => by
      rw [← Option.some.inj hc]
      decide
  have hret : ((step smallImage (smallRun spawn).2 (.execute (frameOf 1) zeros (some [0x78, 0x20, 0x79]))).map
      fun r => r.2.child) = some none := by decide +kernel
  rw [hst] at hret
  rcases hout with rfl | ⟨p, rfl⟩
  · exact ⟨k', _, hst, rfl, hkeep rfl⟩
  · cases hret

/-! ### Two memories with the same command -/

/-- `execute` finds the same program and the same arguments in both memories. -/
structure SameParse (m m' : List UInt8) : Prop where
  lookup : ∀ (b : BootBlock) (behind : List UInt8),
    readDentryByName b ((parseCommand m).1 ++ behind) = readDentryByName b ((parseCommand m').1 ++ behind)
  args : (parseCommand m).2 = (parseCommand m').2

/-- There are arguments to store, what is parsed depends on the command alone, and is no
argument if it has no space. A memory that holds the command is it, its NUL and anything
behind that. -/
structure DependsOnCommand (s : List UInt8) : Prop where
  parsed : ∀ rest : List UInt8, ∃ args, (parseCommand (s ++ 0 :: rest)).2 = some args
  same : ∀ rest rest' : List UInt8, SameParse (s ++ 0 :: rest) (s ++ 0 :: rest')
  noArgs : 0x20 ∉ s → ∀ rest : List UInt8, (parseCommand (s ++ 0 :: rest)).2 = some (padded [])

theorem execute_sameParse {m m' : List UInt8} (h : SameParse m m') (img : Image) (k : Kernel) (lo : Leftover) :
    execute img k lo (some m) = execute img k lo (some m') := by
  unfold execute
  simp only [h.args, h.lookup img.boot lo.behind]

section TwoRuns

variable {s : List UInt8}

theorem cstr_eq_of_getD (hs : 0 ∉ s) {l : List UInt8} (h : ∀ j ≤ s.length, l.getD j 0 = s.getD j 0) : cstr l = s := by
  have hself : cstr s = s := by
    unfold cstr
    rw [List.takeWhile_eq_self_iff]
    intro c hc
    simpa using fun h0 : c = 0 => hs (h0 ▸ hc)
  have hlen : strlen s = s.length := by rw [strlen_eq_length_cstr, hself]
  have htake := take_cstr_congr ((cstr l).length + s.length) s l fun i _ hle => h i (by omega)
  rw [List.take_of_length_le (by omega), hself, List.take_of_length_le (by omega)] at htake
  exact htake

theorem nameEnd_memory {rest : List UInt8} (h : nameEnd (s ++ 0 :: rest) < s.length) (rest' : List UInt8) :
    nameEnd (s ++ 0 :: rest') = nameEnd (s ++ 0 :: rest) := by
  obtain ⟨hle, hbefore, hat⟩ := nameEnd_spec (s ++ 0 :: rest)
  apply nameEnd_unique hle
  · intro j hj
    rw [getD_append_nul rest' (by omega), ← getD_append_nul rest (by omega)]
    exact hbefore j hj
  · intro hlt
    rw [getD_append_nul rest' (by omega), ← getD_append_nul rest (by omega)]
    exact hat hlt

theorem argumentPart_memory (hs : 0 ∉ s) {rest : List UInt8} (h : nameEnd (s ++ 0 :: rest) < s.length) :
    argumentPart (s ++ 0 :: rest) = s.drop (nameEnd (s ++ 0 :: rest) + 1) := by
  unfold argumentPart
  rw [List.drop_append_of_le_length (by omega)]
  exact cstr_of_nul (fun c hc h0 => hs (h0 ▸ List.mem_of_mem_drop hc)) rest

theorem argumentPart_command (hs : 0 ∉ s) {rest : List UInt8} (h : nameEnd (s ++ 0 :: rest) < s.length) :
    argumentPart (s ++ 0 :: rest) = argumentPart s := by
  obtain ⟨hle, hbefore, hat⟩ := nameEnd_spec (s ++ 0 :: rest)
  have hend : nameEnd s = nameEnd (s ++ 0 :: rest) := by
    apply nameEnd_unique hle
    · intro j hj
      rw [← getD_append_nul rest (by omega)]
      exact hbefore j hj
    · intro hlt
      rw [← getD_append_nul rest (by omega)]
      exact hat hlt
  have hnul : cstr (s.drop (nameEnd s + 1)) = s.drop (nameEnd s + 1) :=
    cstr_eq_of_getD (fun h0 => hs (List.mem_of_mem_drop h0)) fun _ _ => rfl
  rw [argumentPart_memory hs h, ← hend]
  exact hnul.symm

theorem parseCommand_fst_memory {rest rest' : List UInt8}
    (he : nameEnd (s ++ 0 :: rest') = nameEnd (s ++ 0 :: rest)) (hle : nameEnd (s ++ 0 :: rest) ≤ s.length) :
    (parseCommand (s ++ 0 :: rest)).1 = (parseCommand (s ++ 0 :: rest')).1 := by
  obtain ⟨hlen, hbytes⟩ := parseCommand_fst (s ++ 0 :: rest)
  obtain ⟨hlen', hbytes'⟩ := parseCommand_fst (s ++ 0 :: rest')
  apply List.ext_getElem (hlen.trans hlen'.symm)
  intro j h1 h2
  rw [← List.getD_eq_getElem _ 0 h1, ← List.getD_eq_getElem _ 0 h2, hbytes, hbytes', he]
  split_ifs with hj
  · rw [getD_append_nul rest (by omega), getD_append_nul rest' (by omega)]
  · rfl

theorem cstr_name_memory (hs : 0 ∉ s) (h32 : s.length < nameSize) {rest : List UInt8}
    (hge : s.length ≤ nameEnd (s ++ 0 :: rest)) (behind : List UInt8) :
    cstr ((parseCommand (s ++ 0 :: rest)).1 ++ behind) = s := by
  obtain ⟨hlen, hbytes⟩ := parseCommand_fst (s ++ 0 :: rest)
  refine cstr_eq_of_getD hs fun j hj => ?_
  rw [List.getD_append _ _ _ _ (by omega), hbytes]
  split_ifs with hlt
  · exact getD_append_nul rest hj
  · rw [List.getD_eq_default _ _ (by omega)]

/-- The lookup always depends on the command alone: it stops at the NUL, even if the
name array does not. -/
theorem lookup_memory (hs : 0 ∉ s) (rest rest' : List UInt8) (b : BootBlock) (behind : List UInt8) :
    readDentryByName b ((parseCommand (s ++ 0 :: rest)).1 ++ behind) =
      readDentryByName b ((parseCommand (s ++ 0 :: rest')).1 ++ behind) := by
  have hle := (nameEnd_spec (s ++ 0 :: rest)).1
  have hle' := (nameEnd_spec (s ++ 0 :: rest')).1
  by_cases hin : nameEnd (s ++ 0 :: rest) < s.length
  · rw [parseCommand_fst_memory (nameEnd_memory hin rest') (by omega)]
  · have hin' : ¬ nameEnd (s ++ 0 :: rest') < s.length := by
      intro hlt
      rw [nameEnd_memory hlt rest] at hin
      exact hin hlt
    by_cases h32 : s.length < nameSize
    · rw [← readDentryByName_cstr b ((parseCommand (s ++ 0 :: rest)).1 ++ behind),
        ← readDentryByName_cstr b ((parseCommand (s ++ 0 :: rest')).1 ++ behind),
        cstr_name_memory hs h32 (by omega), cstr_name_memory hs h32 (by omega)]
    · simp only [nameSize, maxNameLength] at h32 hle hle'
      have he : nameEnd (s ++ 0 :: rest') = nameEnd (s ++ 0 :: rest) := by omega
      rw [parseCommand_fst_memory he (by omega)]

/-- The commands whose name ends before they do. -/
theorem nameEnd_lt_iff (rest : List UInt8) :
    nameEnd (s ++ 0 :: rest) < s.length ↔ 0x20 ∈ s.take 32 ∨ 32 < s.length := by
  obtain ⟨hle, hbefore, hat⟩ := nameEnd_spec (s ++ 0 :: rest)
  simp only [maxNameLength] at hle hat
  constructor
  · intro hlt
    by_cases h32 : nameEnd (s ++ 0 :: rest) < 32
    · have hspace := hat h32
      rw [getD_append_nul rest (by omega), List.getD_eq_getElem _ _ hlt] at hspace
      exact Or.inl (List.mem_take_iff_getElem.mpr ⟨_, by omega, hspace⟩)
    · exact Or.inr (by omega)
  · rintro (hspace | h32)
    · obtain ⟨j, hj, hspace⟩ := List.mem_take_iff_getElem.mp hspace
      by_contra hge
      apply hbefore j (by omega)
      rw [getD_append_nul rest (by omega), List.getD_eq_getElem _ _ (by omega), hspace]
    · omega

theorem nameEnd_within (rest : List UInt8) (h : 0x20 ∈ s.take 32 ∨ s.length = 33 ∨ (33 < s.length ∧ 0x20 ∈ s)) :
    nameEnd (s ++ 0 :: rest) < s.length := by
  rw [nameEnd_lt_iff]
  rcases h with h | h | h
  · exact Or.inl h
  · exact Or.inr (by omega)
  · exact Or.inr (by omega)

theorem padded_eq_nil_iff (h0 : ∀ c ∈ s, c ≠ 0) : padded s = padded [] ↔ s = [] := by
  constructor
  · intro h
    have hhead : s.getD 0 0 = ([] : List UInt8).getD 0 0 := by rw [← padded_getD, h, padded_getD]
    cases s with
    | nil => rfl
    | cons c s => exact absurd hhead (h0 c (by simp))
  · rintro rfl
    rfl

theorem parseCommand_noArgs_iff (m : List UInt8) :
    (parseCommand m).2 = some (padded []) ↔ argumentPart m = [] := by
  rw [parseCommand_snd]
  split_ifs with hfit
  · rw [Option.some.injEq]
    exact padded_eq_nil_iff fun c hc => ne_of_mem_cstr hc
  · refine iff_of_false (by simp) fun hnil => hfit ?_
    rw [hnil]
    decide

theorem mem_of_getD {c : UInt8} (hc : c ≠ 0) {j : ℕ} (h : s.getD j 0 = c) : c ∈ s := by
  by_cases hj : j < s.length
  · rw [List.getD_eq_getElem _ _ hj] at h
    exact h ▸ List.getElem_mem hj
  · rw [List.getD_eq_default _ _ (by omega)] at h
    exact absurd h.symm hc

theorem nameEnd_noSpace {m : List UInt8} (h : 0x20 ∉ m) : nameEnd m = 32 :=
  nameEnd_unique (le_refl _) (fun _ _ hj => h (mem_of_getD (by decide) hj)) fun hlt => absurd hlt (lt_irrefl _)

/-- A command without a space that is not longer than a name gets arguments from
behind it. -/
theorem argumentPart_leak (hspace : 0x20 ∉ s) (hlen : s.length ≤ 32) :
    argumentPart (s ++ 0 :: List.replicate 40 0x61) ≠ [] := by
  have hjunk : ∀ i < 40, (List.replicate 40 (0x61 : UInt8)).getD i 0 = 0x61 := fun i hi => List.getD_replicate _ hi
  have hclean : (0x20 : UInt8) ∉ List.replicate 40 0x61 := by decide
  generalize List.replicate 40 (0x61 : UInt8) = junk at hjunk hclean ⊢
  have hend : nameEnd (s ++ 0 :: junk) = 32 := nameEnd_noSpace (by simp [hspace, hclean])
  have hat : (s ++ 0 :: junk).getD 33 0 = 0x61 := by
    rw [List.getD_append_right _ _ _ _ (by omega), show 33 - s.length = 32 - s.length + 1 by omega,
      List.getD_cons_succ, hjunk _ (by omega)]
  intro hnil
  have hstop : ((s ++ 0 :: junk).drop 33).getD (argumentPart (s ++ 0 :: junk)).length 0 = 0 := by
    unfold argumentPart
    rw [hend]
    exact cstr_end _
  rw [hnil, getD_drop, List.length_nil, Nat.add_zero, hat] at hstop
  exact absurd hstop (by decide)

end TwoRuns

/-- **What parsing depends on.** For every command, without its NUL: `execute` looks up
the same program and stores the same arguments in every memory that holds it, and no
arguments if it has no space, exactly when what it has behind its name is shorter than
1024 bytes, and it has a space among its first 32 bytes, or is 33 bytes long, or longer
and has a space. -/
theorem command_parsing {s : List UInt8} (hs : 0 ∉ s) :
    (DependsOnCommand s ↔ (argumentPart s).length < 1024 ∧
        (0x20 ∈ s.take 32 ∨ s.length = 33 ∨ (33 < s.length ∧ 0x20 ∈ s))) ∧
      (DependsOnCommand s → ∀ (img : Image) (k : Kernel) (lo : Leftover) (rest rest' : List UInt8),
        execute img k lo (some (s ++ 0 :: rest)) = execute img k lo (some (s ++ 0 :: rest'))) := by
  refine ⟨⟨fun h => ?_, fun ⟨hfit, h⟩ => ?_⟩,
    fun h img k lo rest rest' => execute_sameParse (h.same rest rest') img k lo⟩
  · have hplace : 0x20 ∈ s.take 32 ∨ s.length = 33 ∨ (33 < s.length ∧ 0x20 ∈ s) := by
      by_contra hcond
      simp only [not_or, not_and] at hcond
      obtain ⟨htake, h33, hlong⟩ := hcond
      by_cases hlen : s.length ≤ 32
      · rw [List.take_of_length_le hlen] at htake
        exact argumentPart_leak htake hlen ((parseCommand_noArgs_iff _).mp (h.noArgs htake _))
      · have hspace := hlong (by omega)
        have hin := (nameEnd_lt_iff (s := s) []).mpr (Or.inr (by omega))
        have hnil := (parseCommand_noArgs_iff _).mp (h.noArgs hspace [])
        rw [argumentPart_memory hs hin, List.drop_eq_nil_iff] at hnil
        have hle := (nameEnd_spec (s ++ 0 :: [])).1
        simp only [maxNameLength] at hle
        omega
    refine ⟨?_, hplace⟩
    obtain ⟨args, hargs⟩ := h.parsed []
    rw [parseCommand_snd, argumentPart_command hs (nameEnd_within [] hplace)] at hargs
    by_contra hlong
    rw [if_neg hlong] at hargs
    cases hargs
  · have hin := fun rest => nameEnd_within rest h
    refine ⟨fun rest => ?_, fun rest rest' => ⟨lookup_memory hs rest rest', ?_⟩, fun hspace rest => ?_⟩
    · rw [parseCommand_snd, argumentPart_command hs (hin rest), if_pos hfit]
      exact ⟨_, rfl⟩
    · rw [parseCommand_snd, parseCommand_snd, argumentPart_command hs (hin rest), argumentPart_command hs (hin rest')]
    · have h33 : s.length = 33 := by
        rcases h with h | h | h
        · exact absurd (List.mem_of_mem_take h) hspace
        · exact h
        · exact absurd h.2 hspace
      obtain ⟨-, -, hat⟩ := nameEnd_spec (s ++ 0 :: rest)
      have hge : 32 ≤ nameEnd (s ++ 0 :: rest) := by
        by_contra hlt
        have hc := hat (not_le.mp hlt)
        rw [getD_append_nul rest (by omega)] at hc
        exact hspace (mem_of_getD (by decide) hc)
      rw [parseCommand_noArgs_iff, argumentPart_memory hs (hin rest), List.drop_eq_nil_iff]
      omega

/-- "shell x" is parsed the same in every memory. -/
theorem command_parsing_args : DependsOnCommand (shellName.take 5 ++ [0x20, 0x78]) :=
  (command_parsing (by decide)).1.mpr ⟨by decide, Or.inl (by decide)⟩

/-- "shell" gets the argument "x" from behind its NUL, up to the new process's PCB. -/
theorem command_parsing_leak : 0 ∉ shellName.take 5 ∧ 0x20 ∉ shellName.take 5 ∧
    ((execute smallImage smallKernel zeros (some (shellName.take 5 ++ 0 :: []))).map
      fun r => (r.1.pcbOf 3).args.take 2) = some [0, 0] ∧
    ((execute smallImage smallKernel zeros (some (shellName.take 5 ++ 0 :: [0x20, 0x78]))).map
      fun r => (r.1.pcbOf 3).args.take 2) = some [0x78, 0] ∧
    ¬ DependsOnCommand (shellName.take 5) := by
  refine ⟨by decide, by decide, by decide +kernel, by decide +kernel, fun h => ?_⟩
  have hargs := (parseCommand_noArgs_iff _).mp (h.noArgs (by decide) [0x20, 0x78])
  exact absurd hargs (by decide)

/-! ### Where execute stores -/

/-- The arrays `execute` fills. -/
inductive ExecArray where
  | fname | args | pcbArgs
  deriving DecidableEq, Repr

/-- Their sizes. -/
def ExecArray.size : ExecArray → ℕ
  | .fname => nameSize
  | .args => argsSize
  | .pcbArgs => argsSize

/-- The indices the loop over the name stores at. -/
def nameStores (command : List UInt8) : ℕ → ℕ → List ℕ
  | 0, _ => []
  | n + 1, i => if command.getD i 0 ≠ 0x20 then i :: nameStores command n (i + 1) else []

/-- The indices a loop that copies up to a NUL stores at. -/
def copyStores : List UInt8 → ℕ → List ℕ
  | [], _ => []
  | c :: s, j => if c ≠ 0 then j :: copyStores s (j + 1) else []

/-- The stores that clear the two arrays on the stack. -/
def clearStores : List (ExecArray × ℕ) :=
  (List.range nameSize).map (ExecArray.fname, ·) ++ (List.range argsSize).map (ExecArray.args, ·)

/-- The stores of the two loops over the command, and the NUL behind the arguments. -/
def scanStores (command : List UInt8) : List (ExecArray × ℕ) :=
  let i := (nameLoop command maxNameLength 0 (List.replicate nameSize 0)).1 + 1
  let copied := copyStores (command.drop i) 0
  (nameStores command maxNameLength 0).map (ExecArray.fname, ·) ++ copied.map (ExecArray.args, ·) ++
    [(ExecArray.args, copied.length)]

/-- The stores that clear and fill the array in the new process's PCB. -/
def pcbStores (args : List UInt8) : List (ExecArray × ℕ) :=
  (List.range argsSize).map (ExecArray.pcbArgs, ·) ++ (copyStores args 0).map (ExecArray.pcbArgs, ·)

/-- The stores of `execute` into its arrays. -/
def executeStores (img : Image) (k : Kernel) (lo : Leftover) (command : Option (List UInt8)) : List (ExecArray × ℕ) :=
  match command with
  | none => clearStores
  | some c =>
    if getNextPid k ≥ maxOpenProcesses then clearStores
    else
      match execute img k lo (some c), (parseCommand c).2 with
      | some (_, .started _), some args => clearStores ++ scanStores c ++ pcbStores args
      | _, _ => clearStores ++ scanStores c

/-- `execute` stays within its arrays, and refuses arguments that do not fit. -/
structure StaysWithin (img : Image) (k : Kernel) (lo : Leftover) (command : List UInt8) : Prop where
  stores : ∀ x ∈ executeStores img k lo (some command), x.2 < x.1.size
  refused : argsSize ≤ (argumentPart command).length → execute img k lo (some command) = some (k, .ret (-1))

theorem nameStores_lt (command : List UInt8) : ∀ (n i x : ℕ), x ∈ nameStores command n i → x < i + n
  | 0, _, _, h => by cases h
  | n + 1, i, x, h => by
    rw [nameStores] at h
    split_ifs at h with hc
    · rcases List.mem_cons.mp h with rfl | h
      · omega
      · have := nameStores_lt command n (i + 1) x h
        omega
    · cases h

theorem copyStores_eq : ∀ (s : List UInt8) (j : ℕ), copyStores s j = List.range' j (strlen s)
  | [], _ => rfl
  | c :: s, j => by
    rw [copyStores, strlen]
    by_cases h : c = 0
    · rw [if_pos h, if_neg (not_not_intro h)]
      rfl
    · rw [if_neg h, if_pos h, copyStores_eq s (j + 1), List.range'_succ]

section Stores

variable {img : Image} {k : Kernel} {lo : Leftover} {command : List UInt8}

theorem stores_lt {a : ExecArray} {l : List ℕ} (h : ∀ i ∈ l, i < a.size) : ∀ x ∈ l.map (a, ·), x.2 < x.1.size := by
  intro x hx
  obtain ⟨i, hi, rfl⟩ := List.mem_map.mp hx
  exact h i hi

theorem clearStores_lt : ∀ x ∈ clearStores, x.2 < x.1.size := by
  intro x hx
  rcases List.mem_append.mp hx with hx | hx
  · exact stores_lt (fun i hi => List.mem_range.mp hi) x hx
  · exact stores_lt (fun i hi => List.mem_range.mp hi) x hx

theorem scanStores_eq (command : List UInt8) : scanStores command =
    (nameStores command maxNameLength 0).map (ExecArray.fname, ·) ++
      (List.range (argumentPart command).length).map (ExecArray.args, ·) ++
      [(ExecArray.args, (argumentPart command).length)] := by
  have hcopied : copyStores (command.drop (nameEnd command + 1)) 0 = List.range (argumentPart command).length := by
    rw [copyStores_eq, strlen_eq_length_cstr, ← List.range_eq_range']
    rfl
  unfold scanStores
  simp only [nameLoop_fst, hcopied, List.length_range]

/-- Scanning stays within the arrays exactly when the arguments fit, their NUL
included. -/
theorem scanStores_lt_iff (command : List UInt8) :
    (∀ x ∈ scanStores command, x.2 < x.1.size) ↔ (argumentPart command).length < argsSize := by
  rw [scanStores_eq]
  constructor
  · intro h
    exact h (ExecArray.args, (argumentPart command).length) (by simp)
  · intro hfit x hx
    rw [List.append_assoc] at hx
    rcases List.mem_append.mp hx with hx | hx
    · refine stores_lt (fun i hi => ?_) x hx
      have := nameStores_lt command maxNameLength 0 i hi
      rwa [Nat.zero_add] at this
    · rcases List.mem_append.mp hx with hx | hx
      · exact stores_lt (fun i hi => lt_trans (List.mem_range.mp hi) hfit) x hx
      · rw [List.mem_singleton.mp hx]
        exact hfit

/-- The array in the PCB takes what the array on the stack holds. -/
theorem pcbStores_lt {args : List UInt8} (hargs : (parseCommand command).2 = some args) :
    ∀ x ∈ pcbStores args, x.2 < x.1.size := by
  rw [parseCommand_snd] at hargs
  split_ifs at hargs with hfit
  obtain rfl := Option.some.inj hargs
  have hlen : strlen (padded (argumentPart command)) ≤ argsSize := by
    rw [strlen_eq_length_cstr]
    calc (cstr (padded (argumentPart command))).length ≤ (padded (argumentPart command)).length :=
          (List.takeWhile_prefix _).length_le
      _ = argsSize := by
        unfold padded
        rw [List.length_append, List.length_replicate]
        omega
  intro x hx
  rcases List.mem_append.mp hx with hx | hx
  · exact stores_lt (fun i hi => List.mem_range.mp hi) x hx
  · refine stores_lt (fun i hi => ?_) x hx
    rw [copyStores_eq] at hi
    obtain ⟨y, hy, rfl⟩ := List.mem_range'.mp hi
    show 0 + 1 * y < argsSize
    omega

theorem scanStores_sub (hpid : ¬ getNextPid k ≥ maxOpenProcesses) :
    ∀ x ∈ scanStores command, x ∈ executeStores img k lo (some command) := by
  intro x hx
  unfold executeStores
  simp only [if_neg hpid]
  split
  · exact List.mem_append_left _ (List.mem_append_right _ hx)
  · exact List.mem_append_right _ hx

theorem executeStores_lt (hfit : (argumentPart command).length < argsSize) :
    ∀ x ∈ executeStores img k lo (some command), x.2 < x.1.size := by
  intro x hx
  have hscan := (scanStores_lt_iff command).mpr hfit
  have hboth : x ∈ clearStores ++ scanStores command → x.2 < x.1.size := by
    intro hx
    rcases List.mem_append.mp hx with hx | hx
    · exact clearStores_lt x hx
    · exact hscan x hx
  unfold executeStores at hx
  simp only at hx
  split_ifs at hx with hpid
  · exact clearStores_lt x hx
  · split at hx
    · rename_i hargs
      rcases List.mem_append.mp hx with hx | hx
      · exact hboth hx
      · exact pcbStores_lt hargs x hx
    · exact hboth hx

theorem execute_full (hpid : getNextPid k ≥ maxOpenProcesses) :
    executeStores img k lo (some command) = clearStores ∧ execute img k lo (some command) = some (k, .ret (-1)) := by
  unfold executeStores execute
  simp only [if_pos hpid, and_self]

/-- **`execute` and its arrays.** For every command, `execute` stores only within its
arrays and refuses arguments that do not fit, exactly when the arguments do fit or the
process table is full. -/
theorem execute_buffers (img : Image) (k : Kernel) (lo : Leftover) (command : List UInt8) :
    StaysWithin img k lo command ↔ 6 ≤ getNextPid k ∨ (argumentPart command).length < 1024 := by
  constructor
  · intro h
    by_cases hpid : getNextPid k ≥ maxOpenProcesses
    · exact Or.inl hpid
    · exact Or.inr ((scanStores_lt_iff command).mp fun x hx => h.stores x (scanStores_sub hpid x hx))
  · rintro (hpid | hfit)
    · obtain ⟨hstores, hret⟩ := @execute_full img k lo command hpid
      refine ⟨?_, fun _ => hret⟩
      rw [hstores]
      exact clearStores_lt
    · exact ⟨executeStores_lt hfit, fun hge => absurd hfit (not_lt.mpr hge)⟩

end Stores

/-- "shell" with 1024 bytes of arguments. -/
def longCommand : List UInt8 := shellName.take 5 ++ 0x20 :: List.replicate 1024 0x61

/-- The NUL behind 1024 bytes of arguments is stored outside the array, and `execute`
does not refuse the command. -/
theorem execute_buffers_long : (ExecArray.args, 1024) ∈ executeStores smallImage smallKernel zeros (some longCommand) ∧
    ¬ StaysWithin smallImage smallKernel zeros longCommand := by
  have hlen : (argumentPart longCommand).length = 1024 := by decide +kernel
  have hpid : ¬ getNextPid smallKernel ≥ maxOpenProcesses := by decide +kernel
  have hmem : (ExecArray.args, 1024) ∈ executeStores smallImage smallKernel zeros (some longCommand) := by
    apply scanStores_sub hpid
    rw [scanStores_eq, hlen]
    exact List.mem_append_right _ (List.mem_singleton_self _)
  exact ⟨hmem, fun h => absurd (h.stores _ hmem) (by decide)⟩

end Mp3Kernel
