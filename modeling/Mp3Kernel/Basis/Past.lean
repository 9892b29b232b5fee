/-
# Histories and what was once true

A system is a set of initial states and a relation `step s l s'`: from `s`, under
the label `l`, to `s'`. The history of a run is the list of its steps, the
newest first, so that a run is extended by `::` and an invariant that relates
the present state to the past is proved by one induction (`Hist.inv`).

Over histories, `Since Q P` is the past-time operator: some step satisfied `Q`
and every step after it satisfied `P`. A flag that one kind of step raises and another
takes down is read off the history with it (`Hist.pending`), and is taken down no more
often than raised (`Hist.takes_le_asks`).

Key definitions: `Entry`, `Hist`, `run`, `Since`, `origin`.
Key theorems: `Hist.inv`, `Hist.reached`, `Hist.kept`, `Hist.extend`, `hist_of_run`, `Since.later`,
`Hist.pending`, `Hist.takes_le_asks`.
-/
import Mathlib.Tactic

namespace Past

variable {S L : Type*}

/-- One step of a run: the state before it, its label, the state after it. -/
structure Entry (S L : Type*) where
  before : S
  label : L
  after : S

/-- The histories of a system, newest step first, each with the state it ends in. -/
inductive Hist (init : S → Prop) (step : S → L → S → Prop) : List (Entry S L) → S → Prop
  | start {s : S} : init s → Hist init step [] s
  | next {tr : List (Entry S L)} {s : S} {l : L} {s' : S} :
      Hist init step tr s → step s l s' → Hist init step (⟨s, l, s'⟩ :: tr) s'

variable {init : S → Prop} {step : S → L → S → Prop}

/-- The invariant rule: what holds of every initial state and is kept by every
step from a state of the run holds along the run. -/
theorem Hist.inv (I : List (Entry S L) → S → Prop) (h0 : ∀ s, init s → I [] s)
    (hs : ∀ tr s l s', Hist init step tr s → I tr s → step s l s' → I (⟨s, l, s'⟩ :: tr) s')
    {tr : List (Entry S L)} {s : S} (h : Hist init step tr s) : I tr s := by
  induction h with
  | start hi => exact h0 _ hi
  | next hp hst ih => exact hs _ _ _ _ hp ih hst

/-- Every step of a history started in a state that its own past reaches, and
was a step of the system. -/
theorem Hist.reached {new : List (Entry S L)} {e : Entry S L} {old : List (Entry S L)} {s : S}
    (h : Hist init step (new ++ e :: old) s) :
    Hist init step old e.before ∧ step e.before e.label e.after := by
  induction new generalizing s with
  | nil =>
    cases h with
    | next hp hst => exact ⟨hp, hst⟩
  | cons x new ih =>
    cases h with
    | next hp _ => exact ih hp

/-- The rule for what only some steps change: a view that every step with `P` keeps is,
at the end of a run, what it was after the last step without. -/
theorem Hist.kept {V : Type*} (view : S → V) {P : Entry S L → Prop}
    (hk : ∀ tr s l s', Hist init step tr s → step s l s' → P ⟨s, l, s'⟩ → view s' = view s)
    {new : List (Entry S L)} {e : Entry S L} {old : List (Entry S L)} {s : S}
    (h : Hist init step (new ++ e :: old) s) (hp : ∀ x ∈ new, P x) : view s = view e.after := by
  induction new generalizing s with
  | nil =>
    cases h with
    | next hp hst => rfl
  | cons x new ih =>
    cases h with
    | next hprev hst =>
      obtain ⟨hx, hnew⟩ := List.forall_mem_cons.mp hp
      exact (hk _ _ _ _ hprev hst hx).trans (ih hprev hnew)

/-- The run a function `next` makes from `s` on a list of events, newest first: the
history, and the state at its end. -/
def run {S E O : Type*} (next : S → E → Option (S × O)) (s : S) : List E → Option (List (Entry S (E × O)) × S)
  | [] => some ([], s)
  | e :: es =>
    match run next s es with
    | none => none
    | some (tr, t) =>
      match next t e with
      | none => none
      | some (t', o) => some (⟨t, (e, o), t'⟩ :: tr, t')

/-- A history, and a run from where it ends, are a history. -/
theorem Hist.extend {S E O : Type*} {init : S → Prop} {next : S → E → Option (S × O)}
    {old : List (Entry S (E × O))} {s : S} (hs : Hist init (fun s l s' => next s l.1 = some (s', l.2)) old s) :
    ∀ {es : List E} {tr : List (Entry S (E × O))} {t : S}, run next s es = some (tr, t) →
      Hist init (fun s l s' => next s l.1 = some (s', l.2)) (tr ++ old) t
  | [], tr, t, h => by
    obtain ⟨rfl, rfl⟩ : [] = tr ∧ s = t := by simpa [run] using h
    exact hs
  | e :: es, tr, t, h => by
    rw [run] at h
    cases hr : run next s es with
    | none => simp [hr] at h
    | some r =>
      simp only [hr] at h
      cases hn : next r.2 e with
      | none => simp [hn] at h
      | some n =>
        simp only [hn, Option.some.injEq, Prod.mk.injEq] at h
        obtain ⟨rfl, rfl⟩ := h
        exact Hist.next (hs.extend hr) hn

/-- A run from an initial state is a history. -/
theorem hist_of_run {S E O : Type*} {init : S → Prop} {next : S → E → Option (S × O)} {s : S} (hs : init s)
    {es : List E} {tr : List (Entry S (E × O))} {t : S} (h : run next s es = some (tr, t)) :
    Hist init (fun s l s' => next s l.1 = some (s', l.2)) tr t := by
  rw [← List.append_nil tr]
  exact (Hist.start hs).extend h

/-- Some step satisfied `Q`, and every step after it `P`. -/
def Since {E : Type*} (Q P : E → Prop) (tr : List E) : Prop :=
  ∃ new e old, tr = new ++ e :: old ∧ Q e ∧ ∀ x ∈ new, P x

variable {E : Type*} {Q P : E → Prop}

theorem Since.now {e : E} (tr : List E) (h : Q e) : Since Q P (e :: tr) :=
  ⟨[], e, tr, rfl, h, by simp⟩

theorem Since.later {e : E} {tr : List E} (h : Since Q P tr) (he : P e) : Since Q P (e :: tr) := by
  obtain ⟨new, q, old, rfl, hq, hp⟩ := h
  exact ⟨e :: new, q, old, rfl, hq, List.forall_mem_cons.mpr ⟨he, hp⟩⟩

/-- Read from the newest step: it was the one, or it kept what an older one began. -/
theorem since_cons {e : E} {tr : List E} : Since Q P (e :: tr) ↔ Q e ∨ P e ∧ Since Q P tr := by
  constructor
  · rintro ⟨new, q, old, hsplit, hq, hp⟩
    rcases List.cons_eq_append_iff.mp hsplit with ⟨rfl, hcons⟩ | ⟨new', rfl, rfl⟩
    · rw [List.cons.injEq] at hcons
      exact Or.inl (hcons.1 ▸ hq)
    · obtain ⟨he, hnew⟩ := List.forall_mem_cons.mp hp
      exact Or.inr ⟨he, new', q, old, rfl, hq, hnew⟩
  · rintro (hq | ⟨he, htr⟩)
    · exact Since.now tr hq
    · exact htr.later he

/-! ### Flags -/

/-- The state a history starts in. -/
def origin (tr : List (Entry S L)) (s : S) : S := (tr.getLast?.map Entry.before).getD s

theorem origin_cons (tr : List (Entry S L)) (s : S) (l : L) (s' : S) :
    origin (⟨s, l, s'⟩ :: tr) s' = origin tr s := by
  unfold origin
  cases tr with
  | nil => rfl
  | cons e tr =>
    rw [List.getLast?_cons_cons, List.getLast?_eq_some_getLast (List.cons_ne_nil e tr)]
    rfl

section Flags

variable {flag : S → Prop} {asks takes : L → Bool}

/-- The flag is up: a step raised it and none has taken it down since, or it was up at the
start. -/
theorem Hist.pending (hf : ∀ tr s l s', Hist init step tr s → step s l s' →
      (flag s' ↔ asks l = true ∨ flag s ∧ takes l = false))
    {tr : List (Entry S L)} {s : S} (h : Hist init step tr s) :
    flag s ↔ Since (fun e => asks e.label = true) (fun e => takes e.label = false) tr ∨
      flag (origin tr s) ∧ ∀ e ∈ tr, takes e.label = false := by
  induction h with
  | start _ =>
    constructor
    · exact fun hs => Or.inr ⟨hs, by simp⟩
    · rintro (⟨new, e, old, hnil, -⟩ | ⟨hs, -⟩)
      · cases new <;> cases hnil
      · exact hs
  | @next tr s l s' hp hst ih =>
    rw [hf _ _ _ _ hp hst, ih, since_cons, origin_cons, List.forall_mem_cons]
    tauto

/-- A flag that is only taken down while it is up is taken down no more often than it is
raised, the start counted as once. -/
theorem Hist.takes_le_asks [DecidablePred flag] (hf : ∀ tr s l s', Hist init step tr s → step s l s' →
      (flag s' ↔ asks l = true ∨ flag s ∧ takes l = false))
    (hup : ∀ tr s l s', Hist init step tr s → step s l s' → takes l = true → flag s ∧ asks l = false)
    {tr : List (Entry S L)} {s : S} (h : Hist init step tr s) :
    tr.countP (fun e => takes e.label) + (if flag s then 1 else 0) ≤
      tr.countP (fun e => asks e.label) + if flag (origin tr s) then 1 else 0 := by
  induction h with
  | start _ => exact le_refl _
  | @next tr s l s' hp hst ih =>
    rw [List.countP_cons, List.countP_cons, origin_cons]
    by_cases htake : takes l = true
    · obtain ⟨hs, hask⟩ := hup _ _ _ _ hp hst htake
      have hdown : ¬ flag s' := by
        rw [hf _ _ _ _ hp hst]
        simp [hask, htake]
      rw [if_pos hs] at ih
      rw [if_pos htake, if_neg hdown, if_neg (by simp [hask])]
      omega
    · rw [if_neg htake]
      by_cases hask : asks l = true
      · rw [if_pos hask]
        split_ifs at ih ⊢ <;> omega
      · have hsame : flag s' ↔ flag s := by
          rw [hf _ _ _ _ hp hst]
          simp [hask, htake]
        rw [if_neg hask, if_congr hsame rfl rfl]
        omega

end Flags

end Past
