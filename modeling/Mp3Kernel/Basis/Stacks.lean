/-
# Families of disjoint stacks

A family of stacks, one for each index, in which no element stands twice: not in
one stack and not in two. Pushing a fresh element and popping a top keep that
(`push`, `pop`), and say exactly how the set of elements changes (`has_push`,
`has_pop`).

A stack is also the path of a parent function: `Linked par l` says that `par`
takes each element of `l` to the next one, so the parent of any element but the
last is below the top (`Linked.parent_mem_tail`), and no two elements have the same
one (`Linked.inj`).

Key definitions: `Stacks`, `Stacks.push`, `Stacks.pop`, `Linked`.
-/
import Mathlib.Tactic
import Mathlib.Data.List.Chain

variable {ι α : Type*} [DecidableEq ι]

/-- Stacks indexed by `ι` in which no element stands twice. -/
structure Stacks (ι α : Type*) where
  stk : ι → List α
  nodup : ∀ i, (stk i).Nodup
  disj : ∀ i j a, a ∈ stk i → a ∈ stk j → i = j

namespace Stacks

/-- The element is on one of the stacks. -/
def Has (s : Stacks ι α) (a : α) : Prop := ∃ i, a ∈ s.stk i

/-- A fresh element on top of stack `i`. -/
def push (s : Stacks ι α) (i : ι) (a : α) (h : ¬ s.Has a) : Stacks ι α where
  stk := Function.update s.stk i (a :: s.stk i)
  nodup j := by
    by_cases hj : j = i
    · subst hj
      simpa using ⟨fun hm => h ⟨j, hm⟩, s.nodup j⟩
    · simpa [hj] using s.nodup j
  disj j k b hb hc := by
    have key : ∀ l, b ∈ Function.update s.stk i (a :: s.stk i) l → (b = a ∧ l = i) ∨ b ∈ s.stk l := by
      intro l hl
      by_cases hli : l = i
      · subst hli
        simpa using hl
      · exact Or.inr (by simpa [hli] using hl)
    rcases key j hb with ⟨rfl, rfl⟩ | hb' <;> rcases key k hc with ⟨hk, rfl⟩ | hc'
    · rfl
    · exact absurd ⟨k, hc'⟩ h
    · exact absurd ⟨j, hk ▸ hb'⟩ h
    · exact s.disj _ _ _ hb' hc'

/-- Stack `i` without its top. -/
def pop (s : Stacks ι α) (i : ι) : Stacks ι α where
  stk := Function.update s.stk i (s.stk i).tail
  nodup j := by
    by_cases hj : j = i
    · subst hj
      simpa using (s.nodup j).tail
    · simpa [hj] using s.nodup j
  disj j k b hb hc := by
    have key : ∀ l, b ∈ Function.update s.stk i (s.stk i).tail l → b ∈ s.stk l := by
      intro l hl
      by_cases hli : l = i
      · subst hli
        exact List.mem_of_mem_tail (by simpa using hl)
      · simpa [hli] using hl
    exact s.disj _ _ _ (key j hb) (key k hc)

@[simp] theorem push_stk_same (s : Stacks ι α) (i : ι) (a : α) (h : ¬ s.Has a) :
    (s.push i a h).stk i = a :: s.stk i := by simp [push]

theorem push_stk_ne (s : Stacks ι α) {i j : ι} (a : α) (h : ¬ s.Has a) (hj : j ≠ i) :
    (s.push i a h).stk j = s.stk j := by simp [push, hj]

@[simp] theorem pop_stk_same (s : Stacks ι α) (i : ι) : (s.pop i).stk i = (s.stk i).tail := by
  simp [pop]

theorem pop_stk_ne (s : Stacks ι α) {i j : ι} (hj : j ≠ i) : (s.pop i).stk j = s.stk j := by
  simp [pop, hj]

/-- Pushing adds one element. -/
theorem has_push (s : Stacks ι α) (i : ι) (a b : α) (h : ¬ s.Has a) :
    (s.push i a h).Has b ↔ b = a ∨ s.Has b := by
  constructor
  · rintro ⟨j, hj⟩
    by_cases hji : j = i
    · subst hji
      rcases List.mem_cons.mp (by simpa using hj) with hb | hb
      · exact Or.inl hb
      · exact Or.inr ⟨j, hb⟩
    · exact Or.inr ⟨j, by simpa [push_stk_ne s a h hji] using hj⟩
  · rintro (rfl | ⟨j, hj⟩)
    · exact ⟨i, by simp⟩
    · by_cases hji : j = i
      · subst hji
        exact ⟨j, by simp [hj]⟩
      · exact ⟨j, by simpa [push_stk_ne s a h hji] using hj⟩

/-- Popping removes the top, which stands nowhere else. -/
theorem has_pop (s : Stacks ι α) {i : ι} {a : α} {l : List α} (hi : s.stk i = a :: l) (b : α) :
    (s.pop i).Has b ↔ b ≠ a ∧ s.Has b := by
  have ha : a ∈ s.stk i := by simp [hi]
  have hal : a ∉ l := (List.nodup_cons.mp (hi ▸ s.nodup i)).1
  constructor
  · rintro ⟨j, hj⟩
    by_cases hji : j = i
    · subst hji
      have hb : b ∈ l := by simpa [hi] using hj
      exact ⟨fun he => hal (he ▸ hb), j, by simp [hi, hb]⟩
    · rw [pop_stk_ne s hji] at hj
      exact ⟨fun he => hji (s.disj _ _ _ (he ▸ hj) ha), j, hj⟩
  · rintro ⟨hne, j, hj⟩
    by_cases hji : j = i
    · subst hji
      rw [hi] at hj
      exact ⟨j, by simpa [hi] using (List.mem_cons.mp hj).resolve_left hne⟩
    · exact ⟨j, by rwa [pop_stk_ne s hji]⟩

section Elements

variable [Fintype ι] [DecidableEq α]

end Elements

end Stacks

/-- The parent function takes each element of the list to the next one. -/
def Linked (par : α → α) (l : List α) : Prop := l.IsChain fun c p => par c = p

namespace Linked

variable {par par' : α → α}

theorem congr {l : List α} (h : Linked par l) (hp : ∀ a ∈ l, par' a = par a) : Linked par' l := by
  induction l with
  | nil => exact List.IsChain.nil
  | cons a l ih =>
    cases l with
    | nil => exact List.IsChain.singleton a
    | cons b l =>
      obtain ⟨h1, h2⟩ := List.isChain_cons_cons.mp h
      refine List.isChain_cons_cons.mpr ⟨(hp a (by simp)).trans h1, ih h2 fun x hx => hp x ?_⟩
      exact List.mem_cons_of_mem _ hx

theorem cons {a b : α} {l : List α} (h : Linked par (b :: l)) (hab : par a = b) :
    Linked par (a :: b :: l) := List.isChain_cons_cons.mpr ⟨hab, h⟩

theorem head {a b : α} {l : List α} (h : Linked par (a :: b :: l)) : par a = b :=
  (List.isChain_cons_cons.mp h).1

theorem tail {l : List α} (h : Linked par l) : Linked par l.tail := List.IsChain.tail h

theorem parent_mem_tail {l : List α} (h : Linked par l) {a : α} (ha : a ∈ l) (hlast : l.getLast? ≠ some a) :
    par a ∈ l.tail := by
  induction l with
  | nil => simp at ha
  | cons x l ih =>
    cases l with
    | nil =>
      have hax : a = x := by simpa using ha
      simp [hax] at hlast
    | cons y l =>
      rcases List.mem_cons.mp ha with rfl | hmem
      · rw [h.head]
        simp
      · have hrest := ih h.tail hmem (by simpa [List.getLast?_cons_cons] using hlast)
        exact List.mem_of_mem_tail hrest

theorem inj {l : List α} (h : Linked par l) (hn : l.Nodup) {a b : α} (ha : a ∈ l) (hb : b ∈ l)
    (hla : l.getLast? ≠ some a) (hlb : l.getLast? ≠ some b) (he : par a = par b) : a = b := by
  induction l with
  | nil => simp at ha
  | cons x l ih =>
    cases l with
    | nil =>
      rw [List.mem_singleton.mp ha, List.mem_singleton.mp hb]
    | cons y l =>
      rw [List.getLast?_cons_cons] at hla hlb
      have hy : y ∉ l := (List.nodup_cons.mp (List.nodup_cons.mp hn).2).1
      have htop : ∀ z ∈ y :: l, (y :: l).getLast? ≠ some z → par x ≠ par z := by
        intro z hz hlz hxz
        have hpz : par z ∈ l := Linked.parent_mem_tail h.tail hz hlz
        rw [← hxz, h.head] at hpz
        exact hy hpz
      rcases List.mem_cons.mp ha with rfl | ha'
      · rcases List.mem_cons.mp hb with rfl | hb'
        · rfl
        · exact absurd he (htop b hb' hlb)
      · rcases List.mem_cons.mp hb with rfl | hb'
        · exact absurd he.symm (htop a ha' hla)
        · exact ih h.tail (List.nodup_cons.mp hn).2 ha' hb' hla hlb

end Linked
