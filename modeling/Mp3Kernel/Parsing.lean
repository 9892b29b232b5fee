/-
# Parsing a command

`execute` scans a command with two loops that share an index: the first copies the
name up to a space or 32 bytes, the second skips one byte and copies what follows up
to a NUL. The first does not stop at a NUL and the second has no bound. What they
compute for any bytes at all is `parseCommand_snd`: the name ends at `nameEnd`, and the
arguments are `argumentPart`.

The second loop, and the one that copies the arguments into the new process's PCB,
each copy a string into an array of NULs (`padded`), and are given by what is copied
when they have come to index `j` (`padded_set`).

Key definitions: `padded`, `nameEnd`, `argumentPart`.
Key theorems: `nameLoop_eq`, `parseCommand_snd`, `parseCommand_args`, `pcbArgsLoop_eq`.
-/
import Mathlib.Data.List.GetD
import Mp3Kernel.Kernel

namespace Mp3Kernel

/-! ### A string in an array -/

/-- A string in an array of ARGS_SIZE bytes, with NULs behind it. -/
def padded (a : List UInt8) : List UInt8 := a ++ List.replicate (argsSize - a.length) 0

section Copies

variable {a : List UInt8}

theorem padded_nil : padded [] = List.replicate argsSize 0 := by simp [padded]

theorem padded_getD (a : List UInt8) (j : ℕ) : (padded a).getD j 0 = a.getD j 0 := by
  unfold padded
  by_cases hj : j < a.length
  · rw [List.getD_append _ _ _ _ hj]
  · rw [List.getD_append_right _ _ _ _ (by omega), List.getD_eq_default a _ (by omega)]
    exact List.getElem?_getD_replicate_default_eq _ _ _

theorem nuls_cons {j : ℕ} (hj : j < argsSize) :
    List.replicate (argsSize - j) (0 : UInt8) = 0 :: List.replicate (argsSize - (j + 1)) 0 := by
  rw [← List.replicate_succ]
  congr 1
  omega

/-- One turn of a copy: the next byte goes behind those copied so far. -/
theorem padded_set {j : ℕ} (hj : j < a.length) (ha : a.length < argsSize) :
    (padded (a.take j)).set j (a.getD j 0) = padded (a.take (j + 1)) := by
  have hlen : (a.take j).length = j := List.length_take_of_le (by omega)
  have hlen' : (a.take (j + 1)).length = j + 1 := List.length_take_of_le (by omega)
  have htake : a.take (j + 1) = a.take j ++ [a.getD j 0] := by
    rw [List.take_succ_eq_append_getElem hj, List.getD_eq_getElem _ _ hj]
  unfold padded
  rw [hlen, hlen']
  calc (a.take j ++ List.replicate (argsSize - j) 0).set j (a.getD j 0)
      = a.take j ++ (0 :: List.replicate (argsSize - (j + 1)) 0).set 0 (a.getD j 0) := by
        rw [nuls_cons (by omega), List.set_append_right _ _ (by omega), hlen, Nat.sub_self]
    _ = a.take j ++ a.getD j 0 :: List.replicate (argsSize - (j + 1)) 0 := by rw [List.set_cons_zero]
    _ = a.take (j + 1) ++ List.replicate (argsSize - (j + 1)) 0 := by
        rw [htake, List.append_assoc, List.singleton_append]

/-- The loop over the arguments copies them. -/
theorem argsLoop_eq {command : List UInt8} {i : ℕ} (ha : ∀ c ∈ a, c ≠ 0) (hlen : a.length < argsSize)
    (hcopy : ∀ j < a.length, command.getD (i + j) 0 = a.getD j 0) (hend : command.getD (i + a.length) 0 = 0) :
    ∀ n j : ℕ, j ≤ a.length → a.length < j + n →
      argsLoop command i n j (padded (a.take j)) = some (padded a)
  | 0, j, h1, h2 => by omega
  | n + 1, j, h1, h2 => by
    rw [argsLoop]
    by_cases hj : j < a.length
    · have hc : a.getD j 0 ≠ 0 := by
        rw [List.getD_eq_getElem _ _ hj]
        exact ha _ (List.getElem_mem hj)
      rw [hcopy j hj, if_pos hc, padded_set hj hlen]
      exact argsLoop_eq ha hlen hcopy hend n (j + 1) (by omega) (by omega)
    · have hj' : j = a.length := by omega
      subst hj'
      rw [if_neg (not_not_intro hend), List.take_length]
      congr 1
      unfold padded
      rw [List.set_append_right _ _ (le_refl _), Nat.sub_self, nuls_cons hlen, List.set_cons_zero]

/-- The loop into the PCB copies them once more. -/
theorem pcbArgsLoop_eq (ha : ∀ c ∈ a, c ≠ 0) (hlen : a.length < argsSize) : ∀ n i : ℕ,
    i ≤ a.length → a.length < i + n → pcbArgsLoop (padded a) n i (padded (a.take i)) = padded a
  | 0, i, h1, h2 => by omega
  | n + 1, i, h1, h2 => by
    rw [pcbArgsLoop, padded_getD]
    by_cases hi : i < a.length
    · have hc : a.getD i 0 ≠ 0 := by
        rw [List.getD_eq_getElem _ _ hi]
        exact ha _ (List.getElem_mem hi)
      rw [if_pos hc, padded_set hi hlen]
      exact pcbArgsLoop_eq ha hlen n (i + 1) (by omega) (by omega)
    · have hi' : i = a.length := by omega
      subst hi'
      rw [if_neg (not_not_intro (List.getD_eq_default _ _ (le_refl _))), List.take_length]

end Copies

/-! ### The name and the arguments -/

/-- Where the name of a command ends: at the first space, at the latest after 32 bytes. -/
def nameEnd (command : List UInt8) : ℕ :=
  ((List.range maxNameLength).find? fun i => command.getD i 0 = 0x20).getD maxNameLength

/-- What lies behind the byte that ends the name, up to a NUL. -/
def argumentPart (command : List UInt8) : List UInt8 := cstr (command.drop (nameEnd command + 1))

section Parse

variable {command : List UInt8}

theorem nameEnd_spec (command : List UInt8) : nameEnd command ≤ maxNameLength ∧
    (∀ j < nameEnd command, command.getD j 0 ≠ 0x20) ∧
    (nameEnd command < maxNameLength → command.getD (nameEnd command) 0 = 0x20) := by
  unfold nameEnd
  cases h : (List.range maxNameLength).find? fun i => command.getD i 0 = 0x20 with
  | none =>
    have hall := List.find?_eq_none.mp h
    refine ⟨le_refl _, fun j hj => ?_, fun hlt => absurd hlt (lt_irrefl _)⟩
    have := hall j (List.mem_range.mpr hj)
    simpa using this
  | some e =>
    obtain ⟨he, hmem, hbefore⟩ := List.find?_range_eq_some.mp h
    refine ⟨le_of_lt (List.mem_range.mp hmem), fun j hj => ?_, fun _ => of_decide_eq_true he⟩
    have := hbefore j hj
    simpa using this

theorem nameEnd_unique {e : ℕ} (hle : e ≤ maxNameLength) (hbefore : ∀ j < e, command.getD j 0 ≠ 0x20)
    (hat : e < maxNameLength → command.getD e 0 = 0x20) : nameEnd command = e := by
  obtain ⟨hle', hbefore', hat'⟩ := nameEnd_spec command
  rcases lt_trichotomy (nameEnd command) e with h | h | h
  · exact absurd (hat' (by omega)) (hbefore _ h)
  · exact h
  · exact absurd (hat (by omega)) (hbefore' _ h)

/-- The first loop, from index `i` on, stops at the end of the name and has copied what
lies before it. -/
theorem nameLoop_eq : ∀ (n i : ℕ) (fname : List UInt8), i + n = maxNameLength → fname.length = nameSize →
    (∀ j < i, command.getD j 0 ≠ 0x20) → (nameLoop command n i fname).1 = nameEnd command ∧
      (nameLoop command n i fname).2.length = nameSize ∧
      ∀ j, (nameLoop command n i fname).2.getD j 0 =
        if i ≤ j ∧ j < nameEnd command then command.getD j 0 else fname.getD j 0
  | 0, i, fname, hi, hlen, hbefore => by
    have he : nameEnd command = i := nameEnd_unique (by omega) hbefore (by omega)
    refine ⟨he.symm, hlen, fun j => ?_⟩
    rw [if_neg (by omega), nameLoop]
  | n + 1, i, fname, hi, hlen, hbefore => by
    rw [nameLoop]
    by_cases hc : command.getD i 0 = 0x20
    · have he : nameEnd command = i := nameEnd_unique (by omega) hbefore fun _ => hc
      rw [if_neg (not_not_intro hc)]
      refine ⟨he.symm, hlen, fun j => ?_⟩
      rw [if_neg (by omega)]
    · rw [if_pos hc]
      obtain ⟨h1, h2, h3⟩ := nameLoop_eq n (i + 1) (fname.set i (command.getD i 0)) (by omega) (by simpa using hlen)
        fun j hj => by
          rcases Nat.lt_succ_iff_lt_or_eq.mp hj with hj | rfl
          · exact hbefore j hj
          · exact hc
      have hend : i < nameEnd command := by
        obtain ⟨-, -, hat⟩ := nameEnd_spec command
        by_contra hge
        rcases lt_or_eq_of_le (not_lt.mp hge) with hlt | heq
        · exact hbefore _ hlt (hat (by omega))
        · exact hc (heq ▸ hat (by omega))
      refine ⟨h1, h2, fun j => ?_⟩
      rw [h3 j]
      by_cases hj : i + 1 ≤ j ∧ j < nameEnd command
      · rw [if_pos hj, if_pos (by omega)]
      · rw [if_neg hj]
        by_cases hij : j = i
        · subst hij
          have hlt : j < (fname.set j (command.getD j 0)).length := by
            rw [List.length_set, hlen]
            simp only [nameSize, maxNameLength] at hi ⊢
            omega
          rw [if_pos ⟨le_refl _, hend⟩, List.getD_eq_getElem _ _ hlt, List.getElem_set_self]
        · rw [if_neg (by omega), List.getD_eq_getElem?_getD, List.getElem?_set_ne (Ne.symm hij),
            ← List.getD_eq_getElem?_getD]

theorem nameLoop_fst (command : List UInt8) :
    (nameLoop command maxNameLength 0 (List.replicate nameSize 0)).1 = nameEnd command :=
  (@nameLoop_eq command maxNameLength 0 (List.replicate nameSize 0) (by omega) (by simp) (by omega)).1

theorem parseCommand_fst (command : List UInt8) : (parseCommand command).1.length = nameSize ∧
    ∀ j, (parseCommand command).1.getD j 0 = if j < nameEnd command then command.getD j 0 else 0 := by
  obtain ⟨-, hlen, hbytes⟩ := @nameLoop_eq command maxNameLength 0 (List.replicate nameSize 0) (by omega)
    (by simp) (by omega)
  have hnul : ∀ j, (List.replicate nameSize (0 : UInt8)).getD j 0 = 0 := fun j =>
    List.getElem?_getD_replicate_default_eq _ _ _
  refine ⟨hlen, fun j => (hbytes j).trans ?_⟩
  rw [hnul]
  simp

/-- The second loop does not come to an end within the array when more than it holds is
copied. -/
theorem argsLoop_overrun {i : ℕ} : ∀ (n j : ℕ) (args : List UInt8),
    (∀ x, j ≤ x → x < j + n → command.getD (i + x) 0 ≠ 0) → argsLoop command i n j args = none
  | 0, _, _, _ => rfl
  | n + 1, j, args, h => by
    rw [argsLoop, if_pos (h j (le_refl _) (by omega))]
    exact argsLoop_overrun n (j + 1) _ fun x h1 h2 => h x (by omega) (by omega)

/-- **What is parsed.** Any command's arguments are what lies behind the end of its
name, if the array holds them. -/
theorem parseCommand_snd (command : List UInt8) : (parseCommand command).2 =
    if (argumentPart command).length < argsSize then some (padded (argumentPart command)) else none := by
  unfold parseCommand
  simp only [nameLoop_fst]
  have hcopy : ∀ j < (argumentPart command).length,
      command.getD (nameEnd command + 1 + j) 0 = (argumentPart command).getD j 0 := by
    intro j hj
    rw [← getD_drop, cstr_getD _ hj]
    rfl
  have hstop : command.getD (nameEnd command + 1 + (argumentPart command).length) 0 = 0 := by
    rw [← getD_drop]
    exact cstr_end _
  split_ifs with hfit
  · have hne : ∀ c ∈ argumentPart command, c ≠ 0 := fun c hc => ne_of_mem_cstr hc
    rw [← padded_nil, ← List.take_zero (l := argumentPart command)]
    exact argsLoop_eq hne hfit hcopy hstop argsSize 0 (by omega) (by omega)
  · apply argsLoop_overrun
    intro x _ hx
    have hlt : x < (argumentPart command).length := by omega
    rw [hcopy x hlt, List.getD_eq_getElem _ _ hlt]
    exact ne_of_mem_cstr (List.getElem_mem hlt)

theorem nameEnd_of_space {name : List UInt8} (hname : ∀ c ∈ name, c ≠ 0x20) (hn : name.length ≤ maxNameLength)
    (tail : List UInt8) : nameEnd (name ++ 0x20 :: tail) = name.length := by
  apply nameEnd_unique hn
  · intro j hj
    rw [List.getD_append _ _ _ _ hj, List.getD_eq_getElem _ _ hj]
    exact hname _ (List.getElem_mem hj)
  · intro _
    rw [List.getD_append_right _ _ _ _ (le_refl _), Nat.sub_self]
    rfl

theorem parseCommand_args {name a rest : List UInt8} (hname : ∀ c ∈ name, c ≠ 0x20)
    (hn : name.length ≤ maxNameLength) (ha : ∀ c ∈ a, c ≠ 0) (hlen : a.length < argsSize) :
    (parseCommand (name ++ 0x20 :: (a ++ 0 :: rest))).2 = some (padded a) := by
  have hpart : argumentPart (name ++ 0x20 :: (a ++ 0 :: rest)) = a := by
    unfold argumentPart
    rw [nameEnd_of_space hname hn, ← List.drop_drop, List.drop_left]
    exact cstr_of_nul ha rest
  rw [parseCommand_snd, hpart, if_pos hlen]

end Parse

end Mp3Kernel
