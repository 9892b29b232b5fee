/-
# A pair of interrupt controllers

An 8259 keeps, for each of its eight lines, whether it is requested, in service and
masked. It is programmed through two ports: a word that starts the initialisation and
the three that follow it, then masks at one port and ends of interrupts at the other.
Two of them make a pair, the second one's output being line 2 of the first.

The pair hands the processor the request of highest priority, and no other while one
of the same or a higher priority is in service (`Pair.acknowledge_eq_some`). With nothing
in service it has something to hand over as soon as a line that is not masked is
requested (`Pair.acknowledge_isSome`).

The requests are those of edges, which stay until they are taken; of the commands only
the end of one given interrupt is modelled, and of the modes only the one that ends
interrupts by itself.

Key definitions: `Chip`, `Chip.command`, `Chip.data`, `Pair`, `Pair.acknowledge`.
Key theorems: `Chip.initialised`, `Pair.acknowledge_eq_some`, `Pair.acknowledge_isSome`,
`Pair.waits_raise`, `Pair.waits_taken`.
-/
import Mathlib.Tactic

namespace I8259

/-- The initialisation word the data port waits for. -/
inductive Icw where
  | nothing | icw2 | icw3 | icw4
  deriving DecidableEq

/-- One controller. -/
structure Chip where
  imr : UInt8
  irr : Finset (Fin 8)
  isr : Finset (Fin 8)
  /-- ICW2: the vector of line 0 -/
  offset : UInt8
  /-- ICW3 -/
  cascade : UInt8
  /-- ICW4 -/
  mode : UInt8
  next : Icw
  /-- ICW1 has asked for an ICW4, and has told that the chip stands alone -/
  wants4 : Bool
  single : Bool
  deriving DecidableEq

namespace Chip

/-- A byte to the command port: ICW1, or the end of one interrupt. -/
def command (c : Chip) (b : UInt8) : Chip :=
  if b &&& 0x10 ≠ 0 then
    { c with imr := 0, irr := ∅, next := .icw2, wants4 := b &&& 0x01 ≠ 0, single := b &&& 0x02 ≠ 0 }
  else if b &&& 0xF8 = 0x60 then { c with isr := c.isr.erase (Fin.ofNat 8 b.toNat) }
  else c

/-- A byte to the data port. -/
def data (c : Chip) (b : UInt8) : Chip :=
  match c.next with
  | .nothing => { c with imr := b }
  | .icw2 =>
    { c with offset := b &&& 0xF8, next := if c.single then (if c.wants4 then .icw4 else .nothing) else .icw3 }
  | .icw3 => { c with cascade := b, next := if c.wants4 then .icw4 else .nothing }
  | .icw4 => { c with mode := b, next := .nothing }

/-- The line is masked. -/
def masked (c : Chip) (i : Fin 8) : Bool := c.imr.toNat.testBit i

/-- A request on line `i` would be handed over, were it the first. -/
def Open (c : Chip) (i : Fin 8) : Prop := c.masked i = false ∧ ∀ j ∈ c.isr, i < j

instance (c : Chip) (i : Fin 8) : Decidable (c.Open i) := by unfold Open; infer_instance

/-- The request the chip hands over, of those given. -/
def select (c : Chip) (requests : Finset (Fin 8)) : Option (Fin 8) :=
  (List.finRange 8).find? fun i => decide (i ∈ requests ∧ c.Open i)

/-- The chip has handed over line `i`; in the mode of bit 1 of ICW4 that also ends it. -/
def take (c : Chip) (i : Fin 8) : Chip :=
  { c with irr := c.irr.erase i, isr := if c.mode &&& 0x02 = 0 then insert i c.isr else c.isr }

/-- A line rises. -/
def request (c : Chip) (i : Fin 8) : Chip := { c with irr := insert i c.irr }

/-- The initialisation words leave a chip that works with them, with no line masked and
none requested, whatever it was doing. -/
theorem initialised (c : Chip) {icw1 icw2 icw3 icw4 : UInt8} (h1 : icw1 &&& 0x10 ≠ 0) (h4 : icw1 &&& 0x01 ≠ 0)
    (hc : icw1 &&& 0x02 = 0) :
    ((((c.command icw1).data icw2).data icw3).data icw4) =
      { c with imr := 0, irr := ∅, offset := icw2 &&& 0xF8, cascade := icw3, mode := icw4, next := .nothing,
               wants4 := true, single := false } := by
  unfold command
  rw [if_pos h1]
  simp [data, h4, hc]

theorem data_ready {c : Chip} (h : c.next = .nothing) (b : UInt8) : c.data b = { c with imr := b } := by
  unfold data
  rw [h]

theorem command_eoi (c : Chip) {b : UInt8} {i : Fin 8} (h0 : b &&& 0x10 = 0) (h : b &&& 0xF8 = 0x60)
    (hi : Fin.ofNat 8 b.toNat = i) : c.command b = { c with isr := c.isr.erase i } := by
  unfold command
  rw [if_neg (not_not.mpr h0), if_pos h, hi]

/-- The chip hands over the first open line requested. -/
theorem select_eq_some {c : Chip} {requests : Finset (Fin 8)} {i : Fin 8} (h : c.select requests = some i) :
    (i ∈ requests ∧ c.Open i) ∧ ∀ j ∈ requests, c.Open j → i ≤ j := by
  unfold select at h
  obtain ⟨hi, as, bs, hsplit, has⟩ := List.find?_eq_some_iff_append.mp h
  refine ⟨of_decide_eq_true hi, fun j hj hopen => ?_⟩
  by_contra hlt
  have hsorted : (as ++ i :: bs).Pairwise (· < ·) := by
    rw [← hsplit]
    exact List.pairwise_lt_finRange 8
  have hmem : j ∈ as ++ i :: bs := by
    rw [← hsplit]
    exact List.mem_finRange j
  rcases List.mem_append.mp hmem with hja | hjb
  · have hnot := has j hja
    simp [hj, hopen] at hnot
  · rcases List.mem_cons.mp hjb with rfl | hjb
    · exact hlt (le_refl j)
    · have htail := (List.pairwise_cons.mp (List.pairwise_append.mp hsorted).2.1).1 j hjb
      exact hlt (le_of_lt htail)

theorem select_isSome {c : Chip} {requests : Finset (Fin 8)} :
    (c.select requests).isSome = true ↔ ∃ i ∈ requests, c.Open i := by
  unfold select
  rw [List.find?_isSome]
  constructor
  · rintro ⟨i, -, hi⟩
    exact ⟨i, of_decide_eq_true hi⟩
  · rintro ⟨i, hi, hopen⟩
    exact ⟨i, List.mem_finRange i, decide_eq_true ⟨hi, hopen⟩⟩

theorem open_of_idle {c : Chip} (h : c.isr = ∅) (i : Fin 8) : c.Open i ↔ c.masked i = false := by
  unfold Open
  rw [h]
  simp

end Chip

/-! ### Two chips -/

/-- The two controllers; the slave's output is the master's line 2. -/
structure Pair where
  master : Chip
  slave : Chip
  deriving DecidableEq

/-- The master's line the slave comes in at. -/
abbrev cascadeLine : Fin 8 := 2

/-- The line of its chip an interrupt line is. -/
def onChip (n : Fin 16) : Fin 8 := Fin.ofNat 8 n.val

/-- The interrupt lines of the master and of the slave. -/
def masterLine (i : Fin 8) : Fin 16 := ⟨i.val, by omega⟩
def slaveLine (i : Fin 8) : Fin 16 := ⟨8 + i.val, by omega⟩

/-- The priority of a line, highest first: the slave's lines come in at line 2. -/
def priority (n : Fin 16) : ℕ := if n.val < 8 then 8 * n.val else n.val + 8

namespace Pair

/-- The chip an interrupt line belongs to. -/
def chip (p : Pair) (n : Fin 16) : Chip := if n.val < 8 then p.master else p.slave

/-- The line is requested. -/
def Waits (p : Pair) (n : Fin 16) : Prop := onChip n ∈ (p.chip n).irr

instance (p : Pair) (n : Fin 16) : Decidable (p.Waits n) := by unfold Waits; infer_instance

/-- The line is not masked, nor the one it comes in at. -/
def Enabled (p : Pair) (n : Fin 16) : Prop :=
  (p.chip n).masked (onChip n) = false ∧ (8 ≤ n.val → p.master.masked 2 = false)

instance (p : Pair) (n : Fin 16) : Decidable (p.Enabled n) := by unfold Enabled; infer_instance

/-- What the master sees on its lines. -/
def requests (p : Pair) : Finset (Fin 8) :=
  if (p.slave.select p.slave.irr).isSome then insert 2 p.master.irr else p.master.irr

/-- The processor's acknowledgement: the line taken, its vector, and the pair behind it.
`none` is a pair with nothing to hand over. -/
def acknowledge (p : Pair) : Option (Fin 16 × UInt8 × Pair) :=
  (p.master.select p.requests).bind fun i =>
    if i = 2 then
      (p.slave.select p.slave.irr).map fun j =>
        (slaveLine j, p.slave.offset + UInt8.ofNat j.val, ⟨p.master.take 2, p.slave.take j⟩)
    else some (masterLine i, p.master.offset + UInt8.ofNat i.val, { p with master := p.master.take i })

/-- A device raises its line. -/
def raise (p : Pair) (n : Fin 16) : Pair :=
  if n.val < 8 then { p with master := p.master.request (onChip n) }
  else { p with slave := p.slave.request (onChip n) }

/-- The pair once the line is taken. -/
def taken (p : Pair) (n : Fin 16) : Pair :=
  if n.val < 8 then { p with master := p.master.take (onChip n) }
  else ⟨p.master.take 2, p.slave.take (onChip n)⟩

/-- The vector of a line. -/
def vector (p : Pair) (n : Fin 16) : UInt8 := (p.chip n).offset + UInt8.ofNat (onChip n).val

/-- Nothing is in service, and the master's line 2 is the slave's alone. -/
structure Idle (p : Pair) : Prop where
  master : p.master.isr = ∅
  slave : p.slave.isr = ∅
  line2 : 2 ∉ p.master.irr

variable {p : Pair}

theorem requests_of_ne {i : Fin 8} (hi : i ≠ 2) : i ∈ p.requests ↔ i ∈ p.master.irr := by
  unfold requests
  split_ifs
  · simp [hi]
  · rfl

theorem line2_mem_requests (h : p.Idle) : 2 ∈ p.requests ↔ (p.slave.select p.slave.irr).isSome = true := by
  unfold requests
  split_ifs with hs
  · simp [hs]
  · simp [hs, h.line2]

/-- A line that waits and is enabled is one of the master's requests, or puts one on line 2. -/
theorem request_of_waits (h : p.Idle) {n : Fin 16} (hw : p.Waits n) (he : p.Enabled n) :
    (n.val < 8 ∧ n.val ≠ 2 ∧ onChip n ∈ p.requests ∧ p.master.Open (onChip n)) ∨
      (8 ≤ n.val ∧ onChip n ∈ p.slave.irr ∧ p.slave.Open (onChip n) ∧ 2 ∈ p.requests ∧ p.master.Open 2) := by
  unfold Waits at hw
  obtain ⟨hopen, h2⟩ := he
  unfold chip at hw hopen
  by_cases hn : n.val < 8
  · rw [if_pos hn] at hw hopen
    have hne : onChip n ≠ 2 := fun heq => h.line2 (heq ▸ hw)
    have hval : n.val ≠ 2 := by
      intro hv
      apply hne
      unfold onChip
      rw [hv]
      rfl
    exact Or.inl ⟨hn, hval, (requests_of_ne hne).mpr hw, (Chip.open_of_idle h.master _).mpr hopen⟩
  · rw [if_neg hn] at hw hopen
    have hs : p.slave.Open (onChip n) := (Chip.open_of_idle h.slave _).mpr hopen
    refine Or.inr ⟨not_lt.mp hn, hw, hs, ?_, (Chip.open_of_idle h.master _).mpr (h2 (not_lt.mp hn))⟩
    exact (line2_mem_requests h).mpr (Chip.select_isSome.mpr ⟨_, hw, hs⟩)

theorem onChip_val (n : Fin 16) : (onChip n).val = n.val % 8 := rfl

theorem onChip_slaveLine (j : Fin 8) : onChip (slaveLine j) = j := by
  apply Fin.ext
  have := j.isLt
  show (8 + j.val) % 8 = j.val
  omega

theorem onChip_masterLine (i : Fin 8) : onChip (masterLine i) = i := by
  apply Fin.ext
  have := i.isLt
  show i.val % 8 = i.val
  omega

/-- **What an idle pair hands over**: a request that is not masked, of the highest priority
among these, with its own vector. -/
theorem acknowledge_eq_some (h : p.Idle) {n : Fin 16} {v : UInt8} {p' : Pair} (ha : p.acknowledge = some (n, v, p')) :
    (p.Waits n ∧ p.Enabled n ∧ n.val ≠ 2) ∧ (∀ m, p.Waits m → p.Enabled m → priority n ≤ priority m) ∧
      v = p.vector n ∧ p' = p.taken n := by
  obtain ⟨i, hsel, ha⟩ := Option.bind_eq_some_iff.mp ha
  obtain ⟨⟨hreq, hopen⟩, hmin⟩ := Chip.select_eq_some hsel
  by_cases hi : i = 2
  · rw [if_pos hi] at ha
    obtain ⟨j, hj, ha⟩ := Option.map_eq_some_iff.mp ha
    simp only [Prod.mk.injEq] at ha
    obtain ⟨rfl, rfl, rfl⟩ := ha
    obtain ⟨⟨hjreq, hjopen⟩, hjmin⟩ := Chip.select_eq_some hj
    have hlt := j.isLt
    have hge : ¬ (slaveLine j).val < 8 := by
      show ¬ 8 + j.val < 8
      omega
    have hchip : p.chip (slaveLine j) = p.slave := if_neg hge
    refine ⟨⟨?_, ⟨?_, fun _ => ?_⟩, ?_⟩, fun m hw he => ?_, ?_, ?_⟩
    · unfold Waits
      rw [hchip, onChip_slaveLine]
      exact hjreq
    · rw [hchip, onChip_slaveLine]
      exact hjopen.1
    · exact hi ▸ hopen.1
    · show 8 + j.val ≠ 2
      omega
    · have hprio : priority (slaveLine j) = 16 + j.val := by
        unfold priority
        rw [if_neg hge]
        show 8 + j.val + 8 = _
        omega
      rw [hprio]
      unfold priority
      rcases request_of_waits h hw he with ⟨hm, hm2, hmreq, hmopen⟩ | ⟨hm, hmirr, hmopen, -, -⟩
      · have hle : i.val ≤ (onChip m).val := hmin _ hmreq hmopen
        rw [onChip_val, hi] at hle
        rw [if_pos hm]
        have : (2 : Fin 8).val = 2 := rfl
        omega
      · have hle : j.val ≤ (onChip m).val := hjmin _ hmirr hmopen
        rw [onChip_val] at hle
        rw [if_neg (by omega)]
        omega
    · unfold vector
      rw [hchip, onChip_slaveLine]
    · unfold taken
      rw [if_neg hge, onChip_slaveLine]
  · rw [if_neg hi] at ha
    simp only [Option.some.injEq, Prod.mk.injEq] at ha
    obtain ⟨rfl, rfl, rfl⟩ := ha
    have hlt := i.isLt
    have hchip : p.chip (masterLine i) = p.master := if_pos hlt
    have hival : i.val ≠ 2 := fun hv => hi (Fin.ext hv)
    refine ⟨⟨?_, ⟨?_, fun hge => ?_⟩, hival⟩, fun m hw he => ?_, ?_, ?_⟩
    · unfold Waits
      rw [hchip, onChip_masterLine]
      exact (requests_of_ne hi).mp hreq
    · rw [hchip, onChip_masterLine]
      exact hopen.1
    · have : 8 ≤ i.val := hge
      omega
    · have hprio : priority (masterLine i) = 8 * i.val := if_pos hlt
      rw [hprio]
      unfold priority
      rcases request_of_waits h hw he with ⟨hm, -, hmreq, hmopen⟩ | ⟨hm, -, -, h2req, h2open⟩
      · have hle : i.val ≤ (onChip m).val := hmin _ hmreq hmopen
        rw [onChip_val] at hle
        rw [if_pos hm]
        omega
      · have hle : i.val ≤ (2 : Fin 8).val := hmin _ h2req h2open
        have : (2 : Fin 8).val = 2 := rfl
        rw [if_neg (by omega)]
        omega
    · unfold vector
      rw [hchip, onChip_masterLine]
    · unfold taken
      rw [if_pos (show (masterLine i).val < 8 from hlt), onChip_masterLine]

/-- An idle pair has something to hand over exactly when an enabled line waits. -/
theorem acknowledge_isSome (h : p.Idle) : p.acknowledge.isSome = true ↔ ∃ n, p.Waits n ∧ p.Enabled n := by
  constructor
  · intro ha
    obtain ⟨⟨n, v, p'⟩, hn⟩ := Option.isSome_iff_exists.mp ha
    obtain ⟨⟨hw, he, -⟩, -⟩ := acknowledge_eq_some h hn
    exact ⟨n, hw, he⟩
  · rintro ⟨n, hw, he⟩
    have hsome : (p.master.select p.requests).isSome = true := by
      rcases request_of_waits h hw he with ⟨-, -, hreq, hopen⟩ | ⟨-, -, -, hreq, hopen⟩
      · exact Chip.select_isSome.mpr ⟨_, hreq, hopen⟩
      · exact Chip.select_isSome.mpr ⟨_, hreq, hopen⟩
    obtain ⟨i, hi⟩ := Option.isSome_iff_exists.mp hsome
    unfold acknowledge
    rw [hi, Option.bind_some]
    by_cases h2 : i = 2
    · subst h2
      have hreq := (Chip.select_eq_some hi).1.1
      obtain ⟨j, hj⟩ := Option.isSome_iff_exists.mp ((line2_mem_requests h).mp hreq)
      rw [if_pos rfl, hj]
      rfl
    · rw [if_neg h2]
      rfl

theorem onChip_inj {m n : Fin 16} (h : m.val < 8 ↔ n.val < 8) : onChip m = onChip n ↔ m = n := by
  rw [Fin.ext_iff, Fin.ext_iff, onChip_val, onChip_val]
  omega

theorem waits_raise (p : Pair) (m n : Fin 16) : (p.raise m).Waits n ↔ n = m ∨ p.Waits n := by
  unfold Waits chip raise Chip.request
  by_cases hm : m.val < 8
  · rw [if_pos hm]
    by_cases hn : n.val < 8
    · rw [if_pos hn, if_pos hn, Finset.mem_insert, onChip_inj (iff_of_true hn hm)]
    · have hne : n ≠ m := fun heq => hn (heq ▸ hm)
      rw [if_neg hn, if_neg hn]
      exact (or_iff_right hne).symm
  · rw [if_neg hm]
    by_cases hn : n.val < 8
    · have hne : n ≠ m := fun heq => hm (heq ▸ hn)
      rw [if_pos hn, if_pos hn]
      exact (or_iff_right hne).symm
    · rw [if_neg hn, if_neg hn, Finset.mem_insert, onChip_inj (iff_of_false hn hm)]

/-- Only the line taken stops waiting. -/
theorem waits_taken (h2 : 2 ∉ p.master.irr) (m n : Fin 16) : (p.taken m).Waits n ↔ p.Waits n ∧ n ≠ m := by
  unfold Waits chip taken Chip.take
  by_cases hm : m.val < 8
  · rw [if_pos hm]
    by_cases hn : n.val < 8
    · rw [if_pos hn, if_pos hn, Finset.mem_erase, Ne, onChip_inj (iff_of_true hn hm), and_comm]
    · have hne : n ≠ m := fun heq => hn (heq ▸ hm)
      rw [if_neg hn, if_neg hn]
      exact (and_iff_left hne).symm
  · rw [if_neg hm]
    by_cases hn : n.val < 8
    · have hne : n ≠ m := fun heq => hm (heq ▸ hn)
      rw [if_pos hn, if_pos hn, Finset.erase_eq_of_notMem h2]
      exact (and_iff_left hne).symm
    · rw [if_neg hn, if_neg hn, Finset.mem_erase, Ne, onChip_inj (iff_of_false hn hm), and_comm]

end Pair

end I8259
