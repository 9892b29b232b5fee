/-
# Counting loops and byte blocks

`loop body n i s` runs `body i`, `body (i + 1)`, … for `n` rounds: the `for` loop of C
with its counter. What holds at the counter `i` before the loop and is carried from one
counter to the next holds behind it (`loop_inv`). `whileDo cond body n s` is the `while`
loop, run for at most `n` rounds; an invariant and a bound on the rounds that are left
give both its end and what holds there (`whileDo_inv`). `runLoop body n s` is a loop that
is left from inside, with a value: each round says whether there is another one; its
rule bounds the rounds by a number that goes with the invariant (`runLoop_inv`). One that
need not be left is followed round by round (`afterRounds_inv`).

A byte memory is a function of the address. `memcpy` and `memset` of a block are given
by what they leave at each address; a copy reads the memory as it was before, so that it
is `memmove` as well.

Key definitions: `loop`, `whileDo`, `runLoop`, `afterRounds`, `memcpy`, `memset`. Key
theorems: `loop_inv`, `whileDo_inv`, `runLoop_inv`, `afterRounds_inv`.
-/
import Mathlib.Tactic

namespace Loop

variable {S : Type*}

/-- `for (j = i; j < i + n; j++) body(j)` -/
def loop (body : ℕ → S → S) : ℕ → ℕ → S → S
  | 0, _, s => s
  | n + 1, i, s => loop body n (i + 1) (body i s)

/-- The loop rule: an invariant of the counter and the state. -/
theorem loop_inv {body : ℕ → S → S} (I : ℕ → S → Prop) {n i : ℕ} {s : S} (h0 : I i s)
    (hstep : ∀ j s, i ≤ j → j < i + n → I j s → I (j + 1) (body j s)) : I (i + n) (loop body n i s) := by
  induction n generalizing i s with
  | zero => exact h0
  | succ n ih =>
    have hfirst : I (i + 1) (body i s) := hstep i s (le_refl i) (by omega) h0
    have hrest := ih hfirst fun j s' hj hlt => hstep j s' (by omega) (by omega)
    rw [show i + 1 + n = i + (n + 1) by omega] at hrest
    exact hrest

/-- `while (cond) body`; `none` if it has not ended after `n` rounds. -/
def whileDo (cond : S → Bool) (body : S → S) : ℕ → S → Option S
  | 0, s => if cond s then none else some s
  | n + 1, s => if cond s then whileDo cond body n (body s) else some s

/-- The while rule: an invariant, and a bound on the rounds left that every round
lowers. -/
theorem whileDo_inv {cond : S → Bool} {body : S → S} (I : S → Prop) (left : S → ℕ) {n : ℕ} {s : S}
    (h0 : I s) (hn : left s ≤ n)
    (hstep : ∀ s, I s → cond s = true → I (body s) ∧ left (body s) < left s) :
    ∃ s', whileDo cond body n s = some s' ∧ I s' ∧ cond s' = false := by
  induction n generalizing s with
  | zero =>
    have hend : cond s = false := by
      by_contra hc
      have := (hstep s h0 (by simpa using hc)).2
      omega
    exact ⟨s, by simp [whileDo, hend], h0, hend⟩
  | succ n ih =>
    cases hc : cond s with
    | false => exact ⟨s, by simp [whileDo, hc], h0, hc⟩
    | true =>
      obtain ⟨hI, hlt⟩ := hstep s h0 hc
      obtain ⟨s', hrun, hI', hend⟩ := ih hI (by omega)
      exact ⟨s', by simpa [whileDo, hc] using hrun, hI', hend⟩

/-- How a round of a loop ends: with another round, or with the value of the loop. -/
inductive Round (S R : Type*) where
  | again (s : S)
  | done (r : R)

/-- `while (1) body`, for a body that leaves the loop; `none` if it has not done so after
`n` rounds, or has no result. -/
def runLoop {R : Type*} (body : S → Option (Round S R)) : ℕ → S → Option R
  | 0, _ => none
  | n + 1, s =>
    match body s with
    | none => none
    | some (.again s') => runLoop body n s'
    | some (.done r) => some r

/-- The rule of such a loop: an invariant with a bound on the rounds left, which goes
down from round to round, and what holds of the value. -/
theorem runLoop_inv {R : Type*} {body : S → Option (Round S R)} (I : ℕ → S → Prop) (Q : R → Prop)
    (hstep : ∀ left s, I left s → (∃ left' s', body s = some (.again s') ∧ left' < left ∧ I left' s') ∨
      ∃ r, body s = some (.done r) ∧ Q r) {left : ℕ} {s : S} (h0 : I left s) {n : ℕ} (hn : left < n) :
    ∃ r, runLoop body n s = some r ∧ Q r := by
  induction n generalizing left s with
  | zero => omega
  | succ n ih =>
    rcases hstep left s h0 with ⟨left', s', hb, hlt, hI⟩ | ⟨r, hb, hr⟩
    · obtain ⟨r, hrun, hr⟩ := ih hI (by omega)
      exact ⟨r, by rw [runLoop, hb]; exact hrun, hr⟩
    · exact ⟨r, by rw [runLoop, hb], hr⟩

/-- The state after `n` rounds of such a loop; `none` if it has been left, or a round has no
result. -/
def afterRounds {R : Type*} (body : S → Option (Round S R)) : ℕ → S → Option S
  | 0, s => some s
  | n + 1, s =>
    match body s with
    | some (.again s') => afterRounds body n s'
    | _ => none

/-- An invariant of the number of rounds, up to a number of them. -/
theorem afterRounds_inv {R : Type*} {body : S → Option (Round S R)} (I : ℕ → S → Prop) {n i : ℕ} {s : S} (h0 : I i s)
    (hstep : ∀ j s, i ≤ j → j < i + n → I j s → ∃ s', body s = some (.again s') ∧ I (j + 1) s') :
    ∃ s', afterRounds body n s = some s' ∧ I (i + n) s' := by
  induction n generalizing i s with
  | zero => exact ⟨s, rfl, h0⟩
  | succ n ih =>
    obtain ⟨s', hb, hI⟩ := hstep i s (le_refl i) (by omega) h0
    obtain ⟨s'', hrest, hI'⟩ := ih hI fun j s hj hlt => hstep j s (by omega) (by omega)
    refine ⟨s'', ?_, ?_⟩
    · rw [afterRounds, hb]
      exact hrest
    · rw [show i + (n + 1) = i + 1 + n by omega]
      exact hI'

/-- The loop goes on from there. -/
theorem runLoop_afterRounds {R : Type*} {body : S → Option (Round S R)} : ∀ {n : ℕ} {s s' : S},
    afterRounds body n s = some s' → ∀ m, runLoop body (n + m) s = runLoop body m s'
  | 0, s, s', h, m => by
    obtain rfl : s = s' := Option.some.inj h
    rw [Nat.zero_add]
  | n + 1, s, s', h, m => by
    rw [show n + 1 + m = n + m + 1 by omega, runLoop]
    rw [afterRounds] at h
    split at h
    · rename_i s1 hb
      rw [hb]
      exact runLoop_afterRounds h m
    · cases h

/-- `memcpy(dest, src, n)`, and `memmove` -/
def memcpy (m : ℤ → UInt8) (dest src : ℤ) (n : ℕ) : ℤ → UInt8 :=
  fun a => if dest ≤ a ∧ a < dest + n then m (src + (a - dest)) else m a

/-- `memset(dest, c, n)` -/
def memset (m : ℤ → UInt8) (dest : ℤ) (c : UInt8) (n : ℕ) : ℤ → UInt8 :=
  fun a => if dest ≤ a ∧ a < dest + n then c else m a

theorem memcpy_in {m : ℤ → UInt8} {dest src a : ℤ} {n : ℕ} (h : dest ≤ a ∧ a < dest + n) :
    memcpy m dest src n a = m (src + (a - dest)) := if_pos h

theorem memcpy_out {m : ℤ → UInt8} {dest src a : ℤ} {n : ℕ} (h : a < dest ∨ dest + n ≤ a) :
    memcpy m dest src n a = m a := if_neg (by omega)

theorem memset_in {m : ℤ → UInt8} {dest a : ℤ} {c : UInt8} {n : ℕ} (h : dest ≤ a ∧ a < dest + n) :
    memset m dest c n a = c := if_pos h

theorem memset_out {m : ℤ → UInt8} {dest a : ℤ} {c : UInt8} {n : ℕ} (h : a < dest ∨ dest + n ≤ a) :
    memset m dest c n a = m a := if_neg (by omega)

end Loop
