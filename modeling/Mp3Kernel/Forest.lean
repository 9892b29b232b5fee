/-
# The process forest

What the process tables are for: three stacks of processes, one for each terminal,
with the terminal's base shell at the bottom and the process that runs there on
top. A process starts on top of the terminal being run, the top one stops, or
another terminal is run (`Forest.start`, `Forest.stop`, `Forest.switch`); no
process stands twice, and every one is a pid of the process table. A `Forest`
carries these facts, so an ill-formed one cannot be built.

The kernel keeps the forest in four tables and in the PCBs. `Rep k a` says that `k`
holds the forest `a`: which pid is live, which is a leaf, which terminal it belongs
to and who its parent is, and that the page, `tss.esp0` and the saved registers
are those of the forest's processes. Every step of the kernel is a step of the
forest (`step_refines`).

Key definitions: `Forest`, `Forest.Step`, `Rep`.
Key theorems: `Rep.coherent`, `step_refines`.
-/
import Mp3Kernel.Basis.Stacks
import Mp3Kernel.Steps

namespace Mp3Kernel

/-- The number of a terminal, which is also the pid of its base shell. -/
def num (t : Fin 3) : ℤ := t.val

theorem num_inj {t u : Fin 3} (h : num t = num u) : t = u := by
  unfold num at h
  exact Fin.ext (by omega)

theorem isPid_num (t : Fin 3) : IsPid (num t) := by
  have := t.isLt
  unfold num
  exact ⟨by omega, by omega⟩

/-- Three stacks of processes over their base shells, and the terminal being run. -/
structure Forest where
  procs : Stacks (Fin 3) ℤ
  cur : Fin 3
  root : ∀ t, (procs.stk t).getLast? = some (num t)
  isPid : ∀ p, procs.Has p → IsPid p

namespace Forest

/-- A new process on the terminal being run. -/
def start (a : Forest) (c : ℤ) (hc : IsPid c) (h : ¬ a.procs.Has c) : Forest where
  procs := a.procs.push a.cur c h
  cur := a.cur
  root t := by
    by_cases ht : t = a.cur
    · subst ht
      rw [Stacks.push_stk_same, List.getLast?_cons, a.root]
      rfl
    · rw [Stacks.push_stk_ne _ _ _ ht]
      exact a.root t
  isPid p hp := by
    rcases (a.procs.has_push _ _ _ h).mp hp with rfl | hp
    · exact hc
    · exact a.isPid p hp

/-- The top process of the terminal being run stops; it is not the base shell. -/
def stop (a : Forest) (c p : ℤ) (l : List ℤ) (h : a.procs.stk a.cur = c :: p :: l) : Forest where
  procs := a.procs.pop a.cur
  cur := a.cur
  root t := by
    by_cases ht : t = a.cur
    · subst ht
      have hr := a.root a.cur
      rw [h, List.getLast?_cons_cons] at hr
      rw [Stacks.pop_stk_same, h]
      exact hr
    · rw [Stacks.pop_stk_ne _ ht]
      exact a.root t
  isPid q hq := a.isPid q ((a.procs.has_pop h q).mp hq).2

section Shapes

variable {a : Forest}

theorem start_stk {c : ℤ} (hc : IsPid c) (hn : ¬ a.procs.Has c) (t : Fin 3) :
    (a.start c hc hn).procs.stk t = if t = a.cur then c :: a.procs.stk a.cur else a.procs.stk t := by
  split_ifs with ht
  · rw [ht]
    exact a.procs.push_stk_same _ _ hn
  · exact a.procs.push_stk_ne _ hn ht

theorem start_has {c : ℤ} (hc : IsPid c) (hn : ¬ a.procs.Has c) (p : ℤ) :
    (a.start c hc hn).procs.Has p ↔ p = c ∨ a.procs.Has p := a.procs.has_push _ _ _ hn

variable {c p : ℤ} {l : List ℤ}

theorem stop_stk (hl : a.procs.stk a.cur = c :: p :: l) (t : Fin 3) :
    (a.stop c p l hl).procs.stk t = if t = a.cur then p :: l else a.procs.stk t := by
  split_ifs with ht
  · rw [ht]
    refine (a.procs.pop_stk_same a.cur).trans ?_
    rw [hl]
    rfl
  · exact a.procs.pop_stk_ne ht

theorem stop_has (hl : a.procs.stk a.cur = c :: p :: l) (q : ℤ) :
    (a.stop c p l hl).procs.Has q ↔ q ≠ c ∧ a.procs.Has q := a.procs.has_pop hl q

theorem stop_sub (hl : a.procs.stk a.cur = c :: p :: l) {t : Fin 3} {q : ℤ}
    (hq : q ∈ (a.stop c p l hl).procs.stk t) : q ∈ a.procs.stk t := by
  rw [stop_stk] at hq
  split_ifs at hq with ht
  · rw [ht, hl]
    exact List.mem_cons_of_mem _ hq
  · exact hq

end Shapes

/-- Another terminal is run. -/
def switch (a : Forest) (t : Fin 3) : Forest := { a with cur := t }

/-- The steps of the forest. -/
inductive Step : Forest → Forest → Prop
  | start (a : Forest) (c : ℤ) (hc : IsPid c) (h : ¬ a.procs.Has c) : Step a (a.start c hc h)
  | stop (a : Forest) (c p : ℤ) (l : List ℤ) (h : a.procs.stk a.cur = c :: p :: l) : Step a (a.stop c p l h)
  | switch (a : Forest) (t : Fin 3) : Step a (a.switch t)
  | skip (a : Forest) : Step a a

end Forest

/-! ### How the kernel holds a forest -/

/-- The kernel `k` holds the forest `a`. -/
structure Rep (k : Kernel) (a : Forest) : Prop where
  cur : k.currTerminal = num a.cur
  head : ∀ t, (a.procs.stk t).head? = some (k.terminalArray (num t))
  live : ∀ p, a.procs.Has p → k.processArray p = 1
  dead : ∀ p, IsPid p → ¬ a.procs.Has p → k.processArray p = 0
  pid : ∀ p, a.procs.Has p → (k.pcbOf p).pid = p
  terminal : ∀ t, ∀ p ∈ a.procs.stk t, (k.pcbOf p).terminal = num t
  leaf : ∀ t, (k.pcbOf (k.terminalArray (num t))).leaf = 1
  inner : ∀ t, ∀ p ∈ (a.procs.stk t).tail, (k.pcbOf p).leaf = 0
  linked : ∀ t, Linked (fun p => (k.pcbOf p).parentPid) (a.procs.stk t)
  root : ∀ t, (k.pcbOf (num t)).parentPid = -1
  frames : ∀ p, a.procs.Has p → 0 ≤ (k.pcbOf p).parentPid →
    OnStack (k.pcbOf p).parentPid (k.pcbOf p).parentEsp (k.pcbOf p).parentEbp
  saved : ∀ t, t ≠ a.cur →
    OnStack (k.terminalArray (num t)) (k.pcbOf (k.terminalArray (num t))).savedEsp
      (k.pcbOf (k.terminalArray (num t))).savedEbp
  page : k.pageDirectory userProcessIndex = processEntry k.running
  esp0 : k.esp0 = stackTop k.running
  waiting : k.reading (pcbAddr k.running) ≠ none → maskPcb k.cpu.esp = pcbAddr k.running
  inUse : k.reading (maskPcb k.cpu.esp) ≠ none → maskPcb k.cpu.esp = pcbAddr k.running
  calls : ∀ x c, k.reading x = some c → ∃ t, ReadsOn (k.terminalArray (num t)) x c

/-- The parts of a PCB that are set when the process is created. -/
structure SameIdentity (b b' : Pcb) : Prop where
  args : b'.args = b.args
  pid : b'.pid = b.pid
  parentEsp : b'.parentEsp = b.parentEsp
  parentEbp : b'.parentEbp = b.parentEbp
  parentPid : b'.parentPid = b.parentPid
  terminal : b'.terminal = b.terminal

theorem sameIdentity_leaf {b b' : Pcb} {l : ℤ} (h : b' = { b with leaf := l }) : SameIdentity b b' := by
  rw [h]
  exact ⟨rfl, rfl, rfl, rfl, rfl, rfl⟩

/-- Of the PCBs of the processes that were there, starting one changes the caller's leaf
flag only. -/
theorem Started.old_pcb {k k' : Kernel} {f : Frame} {c p : ℤ} {args : List UInt8} (hs : Started k f c args k')
    (hp : IsPid p) (hpc : p ≠ c) :
    ∃ l, k'.pcbOf p = { k.pcbOf p with leaf := l } ∧ (p ≠ k.running → l = (k.pcbOf p).leaf) := by
  by_cases hpr : p = k.running
  · exact ⟨0, hpr ▸ hs.caller, fun hne => absurd hpr hne⟩
  · exact ⟨(k.pcbOf p).leaf, hs.others p hp hpc hpr, fun _ => rfl⟩

theorem Resumed.old_pcb {k k' : Kernel} {par p : ℤ} (hr : Resumed k par k') (hp : IsPid p) (hpr : p ≠ k.running) :
    ∃ l, k'.pcbOf p = { k.pcbOf p with leaf := l } ∧ (p ≠ par → l = (k.pcbOf p).leaf) := by
  by_cases hpp : p = par
  · exact ⟨1, hpp ▸ hr.parent, fun hne => absurd hpp hne⟩
  · exact ⟨(k.pcbOf p).leaf, hr.others p hp hpr hpp, fun _ => rfl⟩

namespace Rep

variable {k : Kernel} {a : Forest}

theorem running_eq (h : Rep k a) : k.running = k.terminalArray (num a.cur) := by
  unfold Kernel.running
  rw [h.cur]

theorem stk_eq (h : Rep k a) (t : Fin 3) :
    a.procs.stk t = k.terminalArray (num t) :: (a.procs.stk t).tail :=
  List.eq_cons_of_mem_head? (h.head t)

theorem head_mem (h : Rep k a) (t : Fin 3) : k.terminalArray (num t) ∈ a.procs.stk t := by
  rw [h.stk_eq t]
  simp

theorem head_has (h : Rep k a) (t : Fin 3) : a.procs.Has (k.terminalArray (num t)) := ⟨t, h.head_mem t⟩

theorem head_inj (h : Rep k a) {t u : Fin 3} (he : k.terminalArray (num t) = k.terminalArray (num u)) : t = u :=
  a.procs.disj t u _ (h.head_mem t) (he ▸ h.head_mem u)

theorem running_has (h : Rep k a) : a.procs.Has k.running := h.running_eq ▸ h.head_has a.cur

theorem root_mem (t : Fin 3) : num t ∈ a.procs.stk t := List.mem_of_getLast? (a.root t)

theorem has_of_live (h : Rep k a) {p : ℤ} (hp : IsPid p) (hl : k.processArray p ≠ 0) : a.procs.Has p := by
  by_contra hn
  exact hl (h.dead p hp hn)

theorem head_of_leaf (h : Rep k a) {t : Fin 3} {p : ℤ} (hm : p ∈ a.procs.stk t) (hl : (k.pcbOf p).leaf ≠ 0) :
    p = k.terminalArray (num t) := by
  rw [h.stk_eq t] at hm
  rcases List.mem_cons.mp hm with rfl | hm
  · rfl
  · exact absurd (h.inner t p hm) hl

theorem parent_mem (h : Rep k a) {t : Fin 3} {p : ℤ} (hm : p ∈ a.procs.stk t)
    (hpar : 0 ≤ (k.pcbOf p).parentPid) : (k.pcbOf p).parentPid ∈ (a.procs.stk t).tail := by
  refine (h.linked t).parent_mem_tail hm fun hlast => ?_
  rw [a.root t] at hlast
  obtain rfl := Option.some.inj hlast
  have := h.root t
  omega

theorem parent_ne_head (h : Rep k a) {t u : Fin 3} {p : ℤ} (hm : p ∈ a.procs.stk t)
    (hpar : 0 ≤ (k.pcbOf p).parentPid) : (k.pcbOf p).parentPid ≠ k.terminalArray (num u) := by
  intro he
  have h0 := h.inner t _ (h.parent_mem hm hpar)
  rw [he, h.leaf u] at h0
  omega

/-- No two processes have the same parent. -/
theorem parent_inj (h : Rep k a) {t : Fin 3} {p : ℤ} (hm : p ∈ a.procs.stk t)
    (he : (k.pcbOf p).parentPid = (k.pcbOf k.running).parentPid) (hpar : 0 ≤ (k.pcbOf p).parentPid) :
    p = k.running := by
  have hrun : k.running ∈ a.procs.stk a.cur := h.running_eq ▸ h.head_mem a.cur
  have h1 := h.parent_mem hm hpar
  have h2 := h.parent_mem hrun (he ▸ hpar)
  rw [he] at h1
  obtain rfl : t = a.cur := a.procs.disj _ _ _ (List.mem_of_mem_tail h1) (List.mem_of_mem_tail h2)
  have hlast : ∀ q, 0 ≤ (k.pcbOf q).parentPid → (a.procs.stk a.cur).getLast? ≠ some q := by
    intro q hq hl
    rw [a.root] at hl
    obtain rfl := Option.some.inj hl
    have := h.root a.cur
    omega
  exact (h.linked a.cur).inj (a.procs.nodup a.cur) hm hrun (hlast p hpar) (hlast _ (he ▸ hpar)) he

theorem parent_has (h : Rep k a) {p : ℤ} (hp : a.procs.Has p) (hpar : 0 ≤ (k.pcbOf p).parentPid) :
    a.procs.Has (k.pcbOf p).parentPid := by
  obtain ⟨t, hm⟩ := hp
  exact ⟨t, List.mem_of_mem_tail (h.parent_mem hm hpar)⟩

theorem not_reading (h : Rep k a) {p : ℤ} (hp : IsPid p) (hn : ¬ a.procs.Has p) : k.reading (pcbAddr p) = none := by
  by_contra hr
  obtain ⟨d, hd⟩ := Option.ne_none_iff_exists'.mp hr
  obtain ⟨t, hx, -⟩ := h.calls _ d hd
  exact hn (pcbAddr_inj hp (a.isPid _ (h.head_has t)) hx ▸ h.head_has t)

/-- All of the kernel's notions of the current process agree. -/
theorem coherent (h : Rep k a) : Coherent k := by
  have hrun := h.running_eq
  have hmem : k.running ∈ a.procs.stk a.cur := hrun ▸ h.head_mem a.cur
  refine
    { isPid := a.isPid _ h.running_has
      live := by rw [h.live _ h.running_has]; norm_num
      pid := h.pid _ h.running_has
      terminal := (h.terminal a.cur _ hmem).trans h.cur.symm
      page := h.page
      esp0 := h.esp0
      parent := fun hpar => ⟨a.isPid _ (h.parent_has h.running_has hpar), ?_⟩
      waiting := h.waiting
      inUse := h.inUse
      calls := fun x c hx => ?_ }
  · have hne := h.parent_ne_head (u := a.cur) hmem hpar
    rwa [← hrun] at hne
  · obtain ⟨t, ht⟩ := h.calls x c hx
    exact ⟨_, a.isPid _ (h.head_has t), ht⟩

theorem update_num (f : ℤ → ℤ) (u t : Fin 3) (p : ℤ) :
    Function.update f (num u) p (num t) = if t = u then p else f (num t) := by
  split_ifs with ht
  · rw [ht, Function.update_self]
  · exact Function.update_of_ne (fun he => ht (num_inj he)) ..

theorem terminals_update (h : Rep k a) {k' : Kernel} {p : ℤ}
    (hk' : k'.terminalArray = Function.update k.terminalArray k.currTerminal p) (t : Fin 3) :
    k'.terminalArray (num t) = if t = a.cur then p else k.terminalArray (num t) := by
  rw [hk', h.cur]
  exact update_num ..

theorem frames_kept (h : Rep k a) {k' : Kernel} {p : ℤ} (hp : a.procs.Has p)
    (hid : SameIdentity (k.pcbOf p) (k'.pcbOf p)) (hpar : 0 ≤ (k'.pcbOf p).parentPid) :
    OnStack (k'.pcbOf p).parentPid (k'.pcbOf p).parentEsp (k'.pcbOf p).parentEbp := by
  rw [hid.parentPid] at hpar
  rw [hid.parentPid, hid.parentEsp, hid.parentEbp]
  exact h.frames p hp hpar

theorem calls_elsewhere (h : Rep k a) (huser : k.reading (pcbAddr k.running) = none) {x : ℕ}
    {d : ReadCall} (hx : k.reading x = some d) : ∃ t, t ≠ a.cur ∧ ReadsOn (k.terminalArray (num t)) x d := by
  obtain ⟨t, ht⟩ := h.calls x d hx
  refine ⟨t, ?_, ht⟩
  rintro rfl
  rw [← h.running_eq] at ht
  rw [ht.1, huser] at hx
  cases hx

/-- A quiet step keeps the forest. -/
theorem quiet (h : Rep k a) {k' : Kernel} (hq : Quiet k k') : Rep k' a := by
  obtain ⟨fa, hself⟩ := hq.self
  have hrun := hq.run
  have hpcb : ∀ p, a.procs.Has p → ∃ fb, k'.pcbOf p = { k.pcbOf p with fileArray := fb } := by
    intro p hp
    by_cases hpr : p = k.running
    · exact ⟨fa, hpr ▸ hself⟩
    · exact ⟨(k.pcbOf p).fileArray, hq.others p (a.isPid p hp) hpr⟩
  have hid : ∀ p, a.procs.Has p → SameIdentity (k.pcbOf p) (k'.pcbOf p) := by
    intro p hp
    obtain ⟨fb, hfb⟩ := hpcb p hp
    rw [hfb]
    exact ⟨rfl, rfl, rfl, rfl, rfl, rfl⟩
  refine
    { cur := hq.currTerminal.trans h.cur
      head := fun t => by rw [hq.terminalArray]; exact h.head t
      live := fun p hp => by rw [hq.processArray]; exact h.live p hp
      dead := fun p hp hn => by rw [hq.processArray]; exact h.dead p hp hn
      pid := fun p hp => (hid p hp).pid.trans (h.pid p hp)
      terminal := fun t p hp => (hid p ⟨t, hp⟩).terminal.trans (h.terminal t p hp)
      leaf := fun t => ?_
      inner := fun t p hp => ?_
      linked := fun t => (h.linked t).congr fun p hp => (hid p ⟨t, hp⟩).parentPid
      root := fun t => (hid _ ⟨t, root_mem t⟩).parentPid.trans (h.root t)
      frames := fun p hp hpar => h.frames_kept hp (hid p hp) hpar
      saved := fun t ht => ?_
      page := by rw [hq.page, hrun]; exact h.page
      esp0 := by rw [hq.esp0, hrun]; exact h.esp0
      waiting := by rw [hrun]; exact hq.waiting
      inUse := by rw [hrun]; exact hq.inUse
      calls := fun x c hx => ?_ }
  · obtain ⟨fb, hfb⟩ := hpcb _ (h.head_has t)
    rw [hq.terminalArray, hfb]
    exact h.leaf t
  · obtain ⟨fb, hfb⟩ := hpcb p ⟨t, List.mem_of_mem_tail hp⟩
    rw [hfb]
    exact h.inner t p hp
  · obtain ⟨fb, hfb⟩ := hpcb _ (h.head_has t)
    rw [hq.terminalArray, hfb]
    exact h.saved t ht
  · by_cases hxr : x = pcbAddr k.running
    · subst hxr
      refine ⟨a.cur, ?_⟩
      rw [hq.terminalArray, ← h.running_eq]
      exact hq.calls c hx
    · rw [hq.reading x hxr] at hx
      rw [hq.terminalArray]
      exact h.calls x c hx

/-- A process started is one on top of the terminal being run. -/
theorem started (h : Rep k a) {f : Frame} {c : ℤ} {args : List UInt8} {k' : Kernel}
    (hs : Started k f c args k') :
    ∃ hn : ¬ a.procs.Has c, Rep k' (a.start c hs.isPid hn) := by
  have hn : ¬ a.procs.Has c := fun hh => by
    have h1 := h.live c hh
    rw [hs.free] at h1
    omega
  refine ⟨hn, ?_⟩
  have hcur := h.running_eq
  have hrun := hs.run
  have hterm := h.terminals_update hs.terminalArray
  have hstk := Forest.start_stk hs.isPid hn
  have hhas := Forest.start_has hs.isPid hn
  have hold := fun p (hp : a.procs.Has p) => hs.old_pcb (a.isPid p hp) fun he => hn (he ▸ hp)
  have hid : ∀ p, a.procs.Has p → SameIdentity (k.pcbOf p) (k'.pcbOf p) := by
    intro p hp
    obtain ⟨l, hl, -⟩ := hold p hp
    exact sameIdentity_leaf hl
  have hrunMem : k.running ∈ a.procs.stk a.cur := hcur ▸ h.head_mem a.cur
  refine
    { cur := hs.currTerminal.trans h.cur
      head := fun t => ?_
      live := fun p hp => ?_
      dead := fun p hp hnp => ?_
      pid := fun p hp => ?_
      terminal := fun t p hp => ?_
      leaf := fun t => ?_
      inner := fun t p hp => ?_
      linked := fun t => ?_
      root := fun t => (hid _ ⟨t, root_mem t⟩).parentPid.trans (h.root t)
      frames := fun p hp hpar => ?_
      saved := fun t ht => ?_
      page := hrun ▸ hs.page
      esp0 := hrun ▸ hs.esp0
      waiting := fun hw => ?_
      inUse := fun hw => ?_
      calls := fun x d hx => ?_ }
  · rw [hstk, hterm]
    split_ifs with ht
    · rfl
    · exact h.head t
  · rw [hs.processArray]
    rcases (hhas p).mp hp with rfl | hp
    · exact Function.update_self ..
    · have hpc : p ≠ c := fun he => hn (he ▸ hp)
      rw [Function.update_of_ne hpc]
      exact h.live p hp
  · have hnp' : p ≠ c ∧ ¬ a.procs.Has p := not_or.mp fun ho => hnp ((hhas p).mpr ho)
    rw [hs.processArray, Function.update_of_ne hnp'.1]
    exact h.dead p hp hnp'.2
  · rcases (hhas p).mp hp with rfl | hp
    · rw [hs.child]
    · exact (hid p hp).pid.trans (h.pid p hp)
  · have key : ∀ u, p ∈ a.procs.stk u → (k'.pcbOf p).terminal = num u := fun u hu =>
      (hid p ⟨u, hu⟩).terminal.trans (h.terminal u p hu)
    rw [hstk] at hp
    split_ifs at hp with ht
    · rcases List.mem_cons.mp hp with rfl | hp
      · rw [hs.child, ht]
        exact h.cur
      · exact ht ▸ key a.cur hp
    · exact key t hp
  · rw [hterm]
    split_ifs with ht
    · rw [hs.child]
    · obtain ⟨l, hl, hlf⟩ := hold _ (h.head_has t)
      rw [hl, hlf fun he => ht (h.head_inj (he.trans hcur))]
      exact h.leaf t
  · rw [hstk] at hp
    split_ifs at hp with ht
    · by_cases hpr : p = k.running
      · rw [hpr, hs.caller]
      · have hp' : p ∈ a.procs.stk a.cur := hp
        obtain ⟨l, hl, hlf⟩ := hold p ⟨a.cur, hp'⟩
        rw [h.stk_eq a.cur, ← hcur] at hp'
        rw [hl, hlf hpr]
        exact h.inner a.cur p ((List.mem_cons.mp hp').resolve_left hpr)
    · have hmem := List.mem_of_mem_tail hp
      obtain ⟨l, hl, hlf⟩ := hold p ⟨t, hmem⟩
      rw [hl, hlf fun he => ht (a.procs.disj _ _ _ hmem (he ▸ hrunMem))]
      exact h.inner t p hp
  · have key : ∀ u, Linked (fun p => (k'.pcbOf p).parentPid) (a.procs.stk u) := fun u =>
      (h.linked u).congr fun p hp => (hid p ⟨u, hp⟩).parentPid
    rw [hstk]
    split_ifs with ht
    · have hlink := key a.cur
      rw [h.stk_eq a.cur, ← hcur] at hlink ⊢
      exact hlink.cons (by rw [hs.child])
    · exact key t
  · rcases (hhas p).mp hp with rfl | hp
    · rw [hs.child]
      exact hs.frame
    · exact h.frames_kept hp (hid p hp) hpar
  · have ht' : t ≠ a.cur := ht
    obtain ⟨l, hl, -⟩ := hold _ (h.head_has t)
    rw [hterm, if_neg ht', hl]
    exact h.saved t ht'
  · rw [hrun, hs.reading] at hw
    exact absurd (h.not_reading hs.isPid hn) hw
  · rw [hs.esp, hs.reading] at hw
    exact absurd h.coherent.not_reading_user hw
  · rw [hs.reading] at hx
    obtain ⟨t, htc, ht⟩ := h.calls_elsewhere hs.user hx
    exact ⟨t, by rwa [hterm, if_neg htc]⟩

/-- The parent of the process being run stands right below it. -/
theorem stk_cur (h : Rep k a) {par : ℤ} (hpar : (k.pcbOf k.running).parentPid = par) (h0 : 0 ≤ par) :
    ∃ l, a.procs.stk a.cur = k.running :: par :: l := by
  have hcur := h.running_eq
  have hs := h.stk_eq a.cur
  have hmem : k.running ∈ a.procs.stk a.cur := hcur ▸ h.head_mem a.cur
  have hpm := h.parent_mem hmem (by rw [hpar]; exact h0)
  rw [← hcur] at hs
  cases hl : (a.procs.stk a.cur).tail with
  | nil =>
    rw [hl] at hpm
    simp at hpm
  | cons p l =>
    rw [hl] at hs
    have hlink := h.linked a.cur
    rw [hs] at hlink
    refine ⟨l, ?_⟩
    rw [hs, ← hpar]
    exact congrArg (fun x => k.running :: x :: l) hlink.head.symm

/-- A process that halts leaves the top of its terminal to its parent. -/
theorem resumed (h : Rep k a) {par : ℤ} {k' : Kernel} (hr : Resumed k par k') :
    ∃ l, ∃ hl : a.procs.stk a.cur = k.running :: par :: l, Rep k' (a.stop k.running par l hl) := by
  obtain ⟨l, hl⟩ := h.stk_cur hr.parentPid hr.nonneg
  refine ⟨l, hl, ?_⟩
  have hcur := h.running_eq
  have hrunMem : k.running ∈ a.procs.stk a.cur := hcur ▸ h.head_mem a.cur
  have hparMem : par ∈ a.procs.stk a.cur := by simp [hl]
  have hpar0 : 0 ≤ (k.pcbOf k.running).parentPid := by rw [hr.parentPid]; exact hr.nonneg
  have hpid : IsPid par := a.isPid par ⟨a.cur, hparMem⟩
  have hframe := h.frames _ h.running_has hpar0
  rw [hr.parentPid] at hframe
  have hhead : ∀ t, par ≠ k.terminalArray (num t) := by
    intro t
    rw [← hr.parentPid]
    exact h.parent_ne_head hrunMem hpar0
  have hnd := a.procs.nodup a.cur
  rw [hl] at hnd
  have hparl : par ∉ l := (List.nodup_cons.mp (List.nodup_cons.mp hnd).2).1
  have hcpu : maskPcb k'.cpu.esp = pcbAddr par := by
    rw [hr.cpu]
    have hlow := hframe.low
    have hle := hframe.le
    exact InStack.mask hpid ⟨show _ ≤ (k.pcbOf k.running).parentEbp + 8 by omega, hframe.high⟩
  have hrun := hr.run
  have hterm := h.terminals_update hr.terminalArray
  have hstk := Forest.stop_stk hl
  have hhas := Forest.stop_has hl
  have hold := fun p (hp : (a.stop k.running par l hl).procs.Has p) =>
    hr.old_pcb (a.isPid p ((hhas p).mp hp).2) ((hhas p).mp hp).1
  have hid : ∀ p, (a.stop k.running par l hl).procs.Has p → SameIdentity (k.pcbOf p) (k'.pcbOf p) := by
    intro p hp
    obtain ⟨lf, hlf, -⟩ := hold p hp
    exact sameIdentity_leaf hlf
  have hheadHas : ∀ t, t ≠ a.cur → (a.stop k.running par l hl).procs.Has (k.terminalArray (num t)) := by
    intro t ht
    exact (hhas _).mpr ⟨fun he => ht (h.head_inj (he.trans hcur)), h.head_has t⟩
  refine
    { cur := hr.currTerminal.trans h.cur
      head := fun t => ?_
      live := fun p hp => ?_
      dead := fun p hp hnp => ?_
      pid := fun p hp => (hid p hp).pid.trans (h.pid p ((hhas p).mp hp).2)
      terminal := fun t p hp => (hid p ⟨t, hp⟩).terminal.trans (h.terminal t p (Forest.stop_sub hl hp))
      leaf := fun t => ?_
      inner := fun t p hp => ?_
      linked := fun t => ?_
      root := fun t => (hid _ ⟨t, root_mem t⟩).parentPid.trans (h.root t)
      frames := fun p hp hpp => h.frames_kept ((hhas p).mp hp).2 (hid p hp) hpp
      saved := fun t ht => ?_
      page := hrun ▸ hr.page
      esp0 := hrun ▸ hr.esp0
      waiting := fun _ => hrun ▸ hcpu
      inUse := fun _ => hrun ▸ hcpu
      calls := fun x d hx => ?_ }
  · rw [hstk, hterm]
    split_ifs with ht
    · rfl
    · exact h.head t
  · obtain ⟨hpr, hp⟩ := (hhas p).mp hp
    rw [hr.processArray, Function.update_of_ne hpr]
    exact h.live p hp
  · rw [hr.processArray]
    by_cases hpr : p = k.running
    · rw [hpr, Function.update_self]
    · rw [Function.update_of_ne hpr]
      exact h.dead p hp fun hh => hnp ((hhas p).mpr ⟨hpr, hh⟩)
  · rw [hterm]
    split_ifs with ht
    · rw [hr.parent]
    · obtain ⟨lf, hlf, hkeep⟩ := hold _ (hheadHas t ht)
      rw [hlf, hkeep (hhead t).symm]
      exact h.leaf t
  · obtain ⟨lf, hlf, hkeep⟩ := hold p ⟨t, List.mem_of_mem_tail hp⟩
    rw [hstk] at hp
    split_ifs at hp with ht
    · have hne : p ≠ par := fun he => hparl (he ▸ hp)
      rw [hlf, hkeep hne]
      refine h.inner a.cur p ?_
      rw [hl]
      exact List.mem_cons_of_mem _ hp
    · have hne : p ≠ par := fun he => ht (a.procs.disj _ _ _ (List.mem_of_mem_tail hp) (he ▸ hparMem))
      rw [hlf, hkeep hne]
      exact h.inner t p hp
  · have hlink : Linked (fun p => (k.pcbOf p).parentPid) ((a.stop k.running par l hl).procs.stk t) := by
      rw [hstk]
      split_ifs with ht
      · have hlk := (h.linked a.cur).tail
        rwa [hl] at hlk
      · exact h.linked t
    exact hlink.congr fun p hp => (hid p ⟨t, hp⟩).parentPid
  · have ht' : t ≠ a.cur := ht
    obtain ⟨lf, hlf, -⟩ := hold _ (hheadHas t ht')
    rw [hterm, if_neg ht', hlf]
    exact h.saved t ht'
  · rw [hr.reading] at hx
    obtain ⟨t, htc, ht⟩ := h.calls_elsewhere hr.user hx
    exact ⟨t, by rwa [hterm, if_neg htc]⟩

theorem switched_run (h : Rep k a) {f : Frame} {q : ℤ} {k' : Kernel} (hs : Switched k f q k') : k'.running = q := by
  obtain ⟨t, hm⟩ := h.has_of_live hs.isPid hs.live
  unfold Kernel.running
  rw [hs.terminalArray, hs.currTerminal, h.terminal t q hm]
  exact (h.head_of_leaf hm hs.leaf).symm

/-- The scheduler switches to the top process of another terminal. -/
theorem switched (h : Rep k a) {f : Frame} {q : ℤ} {k' : Kernel} (hs : Switched k f q k') :
    ∃ t, t ≠ a.cur ∧ q = k.terminalArray (num t) ∧ Rep k' (a.switch t) := by
  obtain ⟨t, hm⟩ := h.has_of_live hs.isPid hs.live
  have hq : q = k.terminalArray (num t) := h.head_of_leaf hm hs.leaf
  have hcur := h.running_eq
  have htc : t ≠ a.cur := by
    rintro rfl
    exact hs.ne (hq.trans hcur.symm)
  have hct : k'.currTerminal = num t := hs.currTerminal.trans (h.terminal t q hm)
  have hrun := h.switched_run hs
  have hold : ∀ p, a.procs.Has p → ∃ e b, k'.pcbOf p = { k.pcbOf p with savedEsp := e, savedEbp := b } ∧
      (p = k.running → OnStack p e b) ∧ (p ≠ k.running → e = (k.pcbOf p).savedEsp ∧ b = (k.pcbOf p).savedEbp) := by
    intro p hp
    by_cases hpr : p = k.running
    · refine ⟨f.esp, f.ebp, hpr ▸ hs.self, fun _ => hpr ▸ hs.frame, fun hne => absurd hpr hne⟩
    · exact ⟨(k.pcbOf p).savedEsp, (k.pcbOf p).savedEbp, hs.others p (a.isPid p hp) hpr,
        fun he => absurd he hpr, fun _ => ⟨rfl, rfl⟩⟩
  have hid : ∀ p, a.procs.Has p → SameIdentity (k.pcbOf p) (k'.pcbOf p) := by
    intro p hp
    obtain ⟨e, b, he, -⟩ := hold p hp
    rw [he]
    exact ⟨rfl, rfl, rfl, rfl, rfl, rfl⟩
  have hcpu : maskPcb k'.cpu.esp = pcbAddr q := by
    have hsv := h.saved t htc
    rw [← hq] at hsv
    have hlow := hsv.low
    have hle := hsv.le
    rw [hs.cpu]
    exact InStack.mask hs.isPid ⟨show _ ≤ (k.pcbOf q).savedEbp + 8 by omega, hsv.high⟩
  refine ⟨t, htc, hq, ?_⟩
  refine
    { cur := hct
      head := fun u => by rw [hs.terminalArray]; exact h.head u
      live := fun p hp => by rw [hs.processArray]; exact h.live p hp
      dead := fun p hp hn => by rw [hs.processArray]; exact h.dead p hp hn
      pid := fun p hp => (hid p hp).pid.trans (h.pid p hp)
      terminal := fun u p hp => (hid p ⟨u, hp⟩).terminal.trans (h.terminal u p hp)
      leaf := fun u => ?_
      inner := fun u p hp => ?_
      linked := fun u => (h.linked u).congr fun p hp => (hid p ⟨u, hp⟩).parentPid
      root := fun u => (hid _ ⟨u, root_mem u⟩).parentPid.trans (h.root u)
      frames := fun p hp hpar => h.frames_kept hp (hid p hp) hpar
      saved := fun u hu => ?_
      page := hrun ▸ hs.page
      esp0 := hrun ▸ hs.esp0
      waiting := fun _ => hrun ▸ hcpu
      inUse := fun _ => hrun ▸ hcpu
      calls := fun x d hx => by rw [hs.terminalArray]; exact h.calls x d (hs.reading ▸ hx) }
  · obtain ⟨e, b, he, -⟩ := hold _ (h.head_has u)
    rw [hs.terminalArray, he]
    exact h.leaf u
  · obtain ⟨e, b, he, -⟩ := hold p ⟨u, List.mem_of_mem_tail hp⟩
    rw [he]
    exact h.inner u p hp
  · obtain ⟨e, b, he, hleft, hkept⟩ := hold _ (h.head_has u)
    rw [hs.terminalArray, he]
    by_cases huc : u = a.cur
    · exact hleft (by rw [huc, hcur])
    · obtain ⟨rfl, rfl⟩ := hkept fun hh => huc (h.head_inj (hh.trans hcur))
      exact h.saved u huc

end Rep

/-- **Refinement.** Every step of the kernel is a step of the forest it holds. -/
theorem step_refines {img : Image} {k k' : Kernel} {ev : Event} {out : Outcome} {a : Forest} (h : Rep k a)
    (hs : step img k ev = some (k', out)) : ∃ b, a.Step b ∧ Rep k' b := by
  rcases step_cases h.coherent hs with ⟨_, _, _, _, c, -, -, -, hst⟩ | ⟨_, _, _, par, -, -, hr⟩ |
    ⟨_, q, -, -, hsw⟩ | ⟨-, hq⟩
  · obtain ⟨hn, hrep⟩ := h.started hst
    exact ⟨_, .start a c hst.isPid hn, hrep⟩
  · obtain ⟨l, hl, hrep⟩ := h.resumed hr
    exact ⟨_, .stop a _ _ l hl, hrep⟩
  · obtain ⟨t, -, -, hrep⟩ := h.switched hsw
    exact ⟨_, .switch a t, hrep⟩
  · exact ⟨a, .skip a, h.quiet hq⟩

/-! ### What a step leaves alone -/

/-- A step of another process, with outcome `out`, seen by process `q`. -/
structure Untouched (q : ℤ) (k : Kernel) (out : Outcome) (k' : Kernel) : Prop where
  pcb : ∃ l, k'.pcbOf q = { k.pcbOf q with leaf := l }
  processArray : k'.processArray q = k.processArray q
  reading : k'.reading (pcbAddr q) = k.reading (pcbAddr q)
  mem : out ≠ .resumed q → ∀ x, OwnWord q x → k'.cpu.mem x = k.cpu.mem x
  fresh : out ≠ .started q
  wakes : k'.running = q → out = .switched q ∨ out = .resumed q

section Frame

variable {img : Image} {k k' : Kernel} {ev : Event} {out : Outcome} {a : Forest}

theorem not_ownWord_of_ne {p q : ℤ} (hp : IsPid p) (hq : IsPid q) (hne : q ≠ p) {x : ℕ} (hx : OwnWord q x) :
    ¬ OwnWord p x := by
  intro hy
  obtain ⟨h1, h2⟩ := hx
  obtain ⟨h3, h4⟩ := hy
  exact stack_disjoint hq hp hne (by omega) h2 (by omega) h4

theorem started_fresh (h : Rep k a) {c : ℤ} (hs : step img k ev = some (k', .started c)) : ¬ a.procs.Has c := by
  obtain ⟨_, _, _, _, -, -, hst⟩ := started_of_step h.coherent hs
  intro hh
  exact absurd ((h.live c hh).symm.trans hst.free) (by norm_num)

/-- A step touches the PCB, the kernel stack and the waiting read of the running
process only; it may make another one's process a leaf again. -/
theorem step_untouched (h : Rep k a) (hs : step img k ev = some (k', out)) {q : ℤ} (hq : a.procs.Has q)
    (hne : q ≠ k.running) : Untouched q k out k' := by
  have hpid := a.isPid q hq
  have hrunPid := h.coherent.isPid
  have hmem := fun x (hx : OwnWord q x) => not_ownWord_of_ne hrunPid hpid hne hx
  have hfresh : out ≠ .started q := by
    rintro rfl
    exact started_fresh h hs hq
  rcases step_cases h.coherent hs with ⟨_, _, _, _, c, -, -, rfl, hst⟩ | ⟨_, _, _, par, -, rfl, hr⟩ |
    ⟨_, r, -, rfl, hsw⟩ | ⟨-, hq'⟩
  · have hqc : q ≠ c := fun he => hfresh (by rw [he])
    refine ⟨⟨_, hst.others q hpid hqc hne⟩, ?_, by rw [hst.reading], fun _ x hx => hst.mem x (hmem x hx), hfresh, ?_⟩
    · rw [hst.processArray, Function.update_of_ne hqc]
    · intro hrun
      rw [hst.run] at hrun
      exact absurd hrun.symm hqc
  · have hframe := h.frames _ h.running_has (by rw [hr.parentPid]; exact hr.nonneg)
    rw [hr.parentPid] at hframe
    have hparPid : IsPid par := (hr.parentPid ▸ h.coherent.parent (by rw [hr.parentPid]; exact hr.nonneg)).1
    refine ⟨?_, ?_, by rw [hr.reading], fun hnr x hx => ?_, hfresh, fun hrun => Or.inr (by rw [← hrun, hr.run])⟩
    · by_cases hqp : q = par
      · exact ⟨1, hqp ▸ hr.parent⟩
      · exact ⟨_, hr.others q hpid hne hqp⟩
    · rw [hr.processArray, Function.update_of_ne hne]
    · refine hr.mem x (hmem x hx) fun hxe => ?_
      have hqp : q ≠ par := fun he => hnr (by rw [he])
      obtain ⟨h1, h2⟩ := hx
      obtain ⟨h3, h4, h5⟩ := hframe
      simp only [pcbSize] at h1 h3
      exact stack_disjoint hpid hparPid hqp (by omega) h2 (by omega) (by omega)
  · refine ⟨⟨_, hsw.others q hpid hne⟩, by rw [hsw.processArray], by rw [hsw.reading],
      fun _ x hx => hsw.mem x (hmem x hx), hfresh, fun hrun => Or.inl ?_⟩
    rw [← hrun, h.switched_run hsw]
  · refine ⟨⟨_, hq'.others q hpid hne⟩, by rw [hq'.processArray], ?_, fun _ x hx => hq'.mem x (hmem x hx), hfresh, ?_⟩
    · exact hq'.reading _ (pcbAddr_ne hpid hrunPid hne)
    · intro hrun
      exact absurd (hrun.symm.trans hq'.run) hne

/-- A process that is live after a step was live before it, or the step started it. -/
theorem live_before (h : Rep k a) (hs : step img k ev = some (k', out)) {q : ℤ} (hq : IsPid q)
    (hl : k'.processArray q ≠ 0) : a.procs.Has q ∨ out = .started q := by
  by_cases hh : a.procs.Has q
  · exact Or.inl hh
  have h0 := h.dead q hq hh
  rcases step_cases h.coherent hs with ⟨_, _, _, _, c, -, -, rfl, hst⟩ | ⟨_, _, _, par, -, rfl, hr⟩ |
    ⟨_, r, -, rfl, hsw⟩ | ⟨-, hq'⟩
  · rw [hst.processArray] at hl
    by_cases hqc : q = c
    · exact Or.inr (by rw [hqc])
    · rw [Function.update_of_ne hqc] at hl
      exact absurd h0 hl
  · rw [hr.processArray] at hl
    by_cases hqr : q = k.running
    · rw [hqr, Function.update_self] at hl
      exact absurd rfl hl
    · rw [Function.update_of_ne hqr] at hl
      exact absurd h0 hl
  · rw [hsw.processArray] at hl
    exact absurd h0 hl
  · rw [hq'.processArray] at hl
    exact absurd h0 hl

/-- As long as a process lives, what was set at its creation stays. -/
theorem step_identity (h : Rep k a) (hs : step img k ev = some (k', out)) {q : ℤ} (hq : a.procs.Has q)
    (hl : k'.processArray q ≠ 0) : SameIdentity (k.pcbOf q) (k'.pcbOf q) := by
  by_cases hne : q = k.running
  · subst hne
    rcases step_cases h.coherent hs with ⟨_, _, _, _, c, -, -, rfl, hst⟩ | ⟨_, _, _, par, -, rfl, hr⟩ |
      ⟨_, r, -, rfl, hsw⟩ | ⟨-, hq'⟩
    · rw [hst.caller]
      exact ⟨rfl, rfl, rfl, rfl, rfl, rfl⟩
    · rw [hr.processArray, Function.update_self] at hl
      exact absurd rfl hl
    · rw [hsw.self]
      exact ⟨rfl, rfl, rfl, rfl, rfl, rfl⟩
    · obtain ⟨fa, hfa⟩ := hq'.self
      rw [hfa]
      exact ⟨rfl, rfl, rfl, rfl, rfl, rfl⟩
  · obtain ⟨l, hpcb⟩ := (step_untouched h hs hq hne).pcb
    rw [hpcb]
    exact ⟨rfl, rfl, rfl, rfl, rfl, rfl⟩

/-- A parent does not run again before its child has halted. -/
theorem parent_stays_idle (h : Rep k a) (hs : step img k ev = some (k', out)) {c : ℤ} (hc : a.procs.Has c)
    (hl : k'.processArray c ≠ 0) (hpar : 0 ≤ (k.pcbOf c).parentPid) :
    (k.pcbOf c).parentPid ≠ k.running ∧ (k.pcbOf c).parentPid ≠ k'.running ∧
      out ≠ .resumed (k.pcbOf c).parentPid := by
  obtain ⟨t, hm⟩ := hc
  have hne : (k.pcbOf c).parentPid ≠ k.running := by
    rw [h.running_eq]
    exact h.parent_ne_head hm hpar
  have hnr : out ≠ .resumed (k.pcbOf c).parentPid := by
    intro ho
    obtain ⟨_, _, _, -, hr⟩ := resumed_of_step h.coherent (ho ▸ hs)
    -- the process that halts has the same parent, so it is `c` itself
    have hcr : c = k.running := h.parent_inj hm hr.parentPid.symm hpar
    rw [hcr, hr.processArray, Function.update_self] at hl
    exact hl rfl
  refine ⟨hne, fun hrun => ?_, hnr⟩
  have hp := h.parent_has ⟨t, hm⟩ hpar
  rcases (step_untouched h hs hp hne).wakes hrun.symm with ho | ho
  · obtain ⟨_, -, hsw⟩ := switched_of_step h.coherent (ho ▸ hs)
    obtain ⟨u, -, hu, -⟩ := h.switched hsw
    exact h.parent_ne_head hm hpar hu
  · exact hnr ho

end Frame

end Mp3Kernel
