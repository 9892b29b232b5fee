/-
# The interrupt controllers and their handlers

i8259.c programs the two controllers and tells them when an interrupt is over; the
handlers of the timer, the keyboard and the clock call it. `Board` is the pair with the
masks the kernel keeps, the processor's interrupt flag, and the handler that has not yet
sent its end of interrupt; its steps are the devices' requests, the processor's
acknowledgements, the handlers' ends of interrupts, and between handlers the calls of
`enable_irq` and `disable_irq` and the changes of the flag, in any order.

`i8259_init` masks all lines first, but the initialisation words unmask them again: of
the slave's lines none is masked until the first call about one of them
(`controllers_initialised`). From there on, in every run, nothing is in service while
interrupts are on, so that no request waits behind one that was never ended; what the
processor is handed is the request of highest priority, and its vector leads to the
handler that ends this very line (`interrupts_served`). No request is lost and none is
served twice (`interrupt_once`).

Key definitions: `i8259Init`, `sendEoi`, `Board`, `Board.step`, `BoardHistory`.
Key theorems: `controllers_initialised`, `interrupts_served`, `interrupt_once`.
-/
import Mp3Kernel.Basis.Controller
import Mp3Kernel.Basis.Past
import Mp3Kernel.Gates
import Mp3Kernel.Rates

namespace Mp3Kernel

open I8259 Past

/-! ### i8259.c -/

/-- MASTER_8259_PORT -/
abbrev master8259Port : UInt16 := 0x20
/-- SLAVE_8259_PORT -/
abbrev slave8259Port : UInt16 := 0xA0
/-- ICW1 -/
abbrev icw1 : UInt8 := 0x11
/-- ICW2_MASTER -/
abbrev icw2Master : UInt8 := 0x20
/-- ICW2_SLAVE -/
abbrev icw2Slave : UInt8 := 0x28
/-- ICW3_MASTER -/
abbrev icw3Master : UInt8 := 0x04
/-- ICW3_SLAVE -/
abbrev icw3Slave : UInt8 := 0x02
/-- ICW4 -/
abbrev icw4 : UInt8 := 0x01
/-- INIT_MASK -/
abbrev initMask : UInt8 := 0xFF
/-- EOI -/
abbrev eoi : UInt32 := 0x60
/-- PIT_IRQ -/
abbrev pitIrq : UInt32 := 0
/-- KBRD_IRQ -/
abbrev kbrdIrq : UInt32 := 1

namespace Pic

/-- `i8259_init` -/
def i8259Init (s : Pic) : Pic :=
  let s := s.outb initMask masterData
  let s := s.outb initMask slaveData
  let s := s.outb icw1 master8259Port
  let s := s.outb icw1 slave8259Port
  let s := s.outb icw2Master masterData
  let s := s.outb icw2Slave slaveData
  let s := s.outb icw3Master masterData
  let s := s.outb icw3Slave slaveData
  let s := s.outb icw4 masterData
  let s := s.outb icw4 slaveData
  s.enableIrq icw3Slave.toUInt32

/-- `send_eoi` -/
def sendEoi (s : Pic) (irqNum : UInt32) : Pic :=
  if irqNum > maxIrqNum ∨ irqNum < 0 then s
  else if irqNum > masterIrq then
    let s := s.outb ((irqNum - (masterIrq + 1)) ||| eoi).toUInt8 slave8259Port
    s.outb (icw3Slave.toUInt32 ||| eoi).toUInt8 master8259Port
  else s.outb (irqNum ||| eoi).toUInt8 master8259Port

end Pic

/-- A byte written to a port, as it reaches the controllers. -/
def portWrite (p : Pair) (o : UInt16 × UInt8) : Pair :=
  if o.1 = master8259Port then { p with master := p.master.command o.2 }
  else if o.1 = masterData then { p with master := p.master.data o.2 }
  else if o.1 = slave8259Port then { p with slave := p.slave.command o.2 }
  else if o.1 = slaveData then { p with slave := p.slave.data o.2 }
  else p

/-- The bytes written to ports, the first one first. -/
def portWrites (p : Pair) (outs : List (UInt16 × UInt8)) : Pair := outs.foldl portWrite p

/-! ### The initialisation -/

/-- The controllers as `i8259_init` programs them. -/
structure Programmed (p : Pair) : Prop where
  masterOffset : p.master.offset = icw2Master
  slaveOffset : p.slave.offset = icw2Slave
  masterCascade : p.master.cascade = icw3Master
  slaveCascade : p.slave.cascade = icw3Slave
  masterMode : p.master.mode = icw4
  slaveMode : p.slave.mode = icw4
  masterNext : p.master.next = .nothing
  slaveNext : p.slave.next = .nothing

theorem Programmed.keeps {p : Pair} (h : Programmed p) (m₁ m₂ : UInt8) (r₁ r₂ s₁ s₂ : Finset (Fin 8)) :
    Programmed ⟨{ p.master with imr := m₁, irr := r₁, isr := s₁ },
      { p.slave with imr := m₂, irr := r₂, isr := s₂ }⟩ :=
  ⟨h.masterOffset, h.slaveOffset, h.masterCascade, h.slaveCascade, h.masterMode, h.slaveMode, h.masterNext,
    h.slaveNext⟩

theorem portWrites_append (p : Pair) (outs outs' : List (UInt16 × UInt8)) :
    portWrites p (outs ++ outs') = portWrites (portWrites p outs) outs' := List.foldl_append ..

theorem portWrites_singleton (p : Pair) (o : UInt16 × UInt8) : portWrites p [o] = portWrite p o := rfl

theorem portWrite_masterData (p : Pair) (b : UInt8) :
    portWrite p (masterData, b) = { p with master := p.master.data b } := rfl

theorem portWrite_slaveData (p : Pair) (b : UInt8) :
    portWrite p (slaveData, b) = { p with slave := p.slave.data b } := rfl

/-- The bytes of `i8259_init` before the mask of the cascade's line. -/
def initWrites : List (UInt16 × UInt8) :=
  [(masterData, initMask), (slaveData, initMask), (master8259Port, icw1), (slave8259Port, icw1),
    (masterData, icw2Master), (slaveData, icw2Slave), (masterData, icw3Master), (slaveData, icw3Slave),
    (masterData, icw4), (slaveData, icw4)]

theorem i8259Init_outs (s : Pic) : (Pic.i8259Init { s with outs := [] }).outs =
    initWrites ++ [(masterData, (Pic.i8259Init { s with outs := [] }).masterMask)] := by
  unfold Pic.i8259Init Pic.enableIrq
  rw [Pic.updateMask_outs _ _ (by decide)]
  rfl

/-- A chip that the initialisation words have gone through. -/
def fresh (c : Chip) (offset cascade : UInt8) : Chip :=
  { imr := 0, irr := ∅, isr := c.isr, offset := offset, cascade := cascade, mode := icw4, next := .nothing,
    wants4 := true, single := false }

theorem initialised_data (c : Chip) (b icw2 icw3 : UInt8) :
    (((((c.data b).command icw1).data icw2).data icw3).data icw4) = fresh c (icw2 &&& 0xF8) icw3 := by
  have hisr : (c.data b).isr = c.isr := by
    unfold Chip.data
    cases c.next <;> rfl
  rw [Chip.initialised _ (by decide) (by decide) (by decide), fresh, hisr]

theorem portWrites_i8259Init (p : Pair) (s : Pic) : portWrites p (Pic.i8259Init { s with outs := [] }).outs =
    ⟨{ fresh p.master icw2Master icw3Master with imr := (Pic.i8259Init { s with outs := [] }).masterMask },
      fresh p.slave icw2Slave icw3Slave⟩ := by
  have hinit : portWrites p initWrites =
      ⟨fresh p.master icw2Master icw3Master, fresh p.slave icw2Slave icw3Slave⟩ := by
    calc portWrites p initWrites
        = ⟨((((p.master.data initMask).command icw1).data icw2Master).data icw3Master).data icw4,
            ((((p.slave.data initMask).command icw1).data icw2Slave).data icw3Slave).data icw4⟩ := rfl
      _ = _ := by
        rw [initialised_data, initialised_data]
        rfl
  rw [i8259Init_outs, portWrites_append, hinit, portWrites_singleton, portWrite_masterData, Chip.data_ready rfl]

/-! ### The masks in force -/

/-- The call is about a line of the slave. -/
def IrqCall.OnSlave (c : IrqCall) : Prop := c.irqNum > masterIrq ∧ ¬ c.irqNum > maxIrqNum

instance (c : IrqCall) : Decidable c.OnSlave := by unfold IrqCall.OnSlave; infer_instance

/-- One call of `enable_irq` or `disable_irq`, as it reaches initialised controllers: it
puts the kernel's mask of the chip in force. -/
theorem portWrites_apply {p : Pair} {s : Pic} (hp : (portWrites p s.outs).master.next = .nothing)
    (hs : (portWrites p s.outs).slave.next = .nothing) (c : IrqCall) (h15 : ¬ c.irqNum > maxIrqNum) :
    portWrites p (s.apply c).outs =
      if c.OnSlave then
        { portWrites p s.outs with slave := { (portWrites p s.outs).slave with imr := (s.apply c).slaveMask } }
      else
        { portWrites p s.outs with
          master := { (portWrites p s.outs).master with imr := (s.apply c).masterMask } } := by
  rw [Pic.apply_outs s h15, portWrites_append, portWrites_singleton]
  unfold IrqCall.dataPort Pic.cachedMask
  by_cases hslave : c.irqNum > masterIrq
  · rw [if_pos hslave, if_pos hslave, if_pos ⟨hslave, h15⟩, portWrite_slaveData, Chip.data_ready hs]
  · rw [if_neg hslave, if_neg hslave, if_neg (fun h => hslave h.1), portWrite_masterData, Chip.data_ready hp]

theorem apply_slaveMask (s : Pic) {c : IrqCall} (h : ¬ c.OnSlave) : (s.apply c).slaveMask = s.slaveMask := by
  by_cases h15 : c.irqNum > maxIrqNum
  · rw [Pic.apply_out_of_range s h15]
  · have hslave : ¬ c.irqNum > masterIrq := fun hs => h ⟨hs, h15⟩
    refine Pic.cachedMask_apply_of_ne s (c := c) (j := 8) ?_
    unfold IrqCall.dataPort
    rw [if_neg hslave]
    decide

theorem apply_masterMask (s : Pic) {c : IrqCall} (h : c.OnSlave) : (s.apply c).masterMask = s.masterMask := by
  refine Pic.cachedMask_apply_of_ne s (c := c) (j := 0) ?_
  unfold IrqCall.dataPort
  rw [if_pos h.1]
  decide

/-- **The controllers after `i8259_init`.** Whatever the two chips were doing, the function
and any calls of `enable_irq` and `disable_irq` behind it leave them programmed, with no
line requested and with what was in service before; the master's mask in force is the
kernel's; the slave's is the kernel's from the first call about one of its lines on, and
until then none of its lines is masked. -/
theorem controllers_initialised (p : Pair) (s : Pic) (calls : List IrqCall) :
    portWrites p ((Pic.i8259Init { s with outs := [] }).run calls).outs =
      ⟨{ fresh p.master icw2Master icw3Master with
          imr := ((Pic.i8259Init { s with outs := [] }).run calls).masterMask },
        { fresh p.slave icw2Slave icw3Slave with
          imr := if ∃ c ∈ calls, c.OnSlave then ((Pic.i8259Init { s with outs := [] }).run calls).slaveMask
            else 0 }⟩ := by
  induction calls using List.reverseRecOn with
  | nil =>
    have hnone : ¬ ∃ c ∈ ([] : List IrqCall), c.OnSlave := by simp
    rw [if_neg hnone]
    exact portWrites_i8259Init p s
  | append_singleton calls c ih =>
    rw [Pic.run_append]
    generalize (Pic.i8259Init { s with outs := [] }).run calls = r at ih
    have hany : (∃ c' ∈ calls ++ [c], c'.OnSlave) ↔ (∃ c' ∈ calls, c'.OnSlave) ∨ c.OnSlave := by
      simp [or_and_right, exists_or]
    by_cases h15 : c.irqNum > maxIrqNum
    · have hnot : ¬ c.OnSlave := fun h => h.2 h15
      rw [Pic.apply_out_of_range r h15, ih, if_congr (hany.trans (or_iff_left hnot)) rfl rfl]
    · rw [portWrites_apply (by rw [ih]; rfl) (by rw [ih]; rfl) c h15, ih]
      by_cases hslave : c.OnSlave
      · rw [if_pos hslave, if_pos (hany.mpr (Or.inr hslave)), apply_masterMask r hslave]
      · rw [if_neg hslave, if_congr (hany.trans (or_iff_left hslave)) rfl rfl, apply_slaveMask r hslave]

/-! ### The board -/

/-- The argument a handler gives `send_eoi`. -/
def DeviceWrapper.irq : DeviceWrapper → UInt32
  | .pit => pitIrq
  | .kbrd => kbrdIrq
  | .rtc => rtcIrq

/-- The interrupt line of a device. -/
def DeviceWrapper.line : DeviceWrapper → Fin 16
  | .pit => 0
  | .kbrd => 1
  | .rtc => 8

/-- What the processor does with an interrupt it has acknowledged. -/
inductive Serving where
  /-- the wrapper's handler has not yet called `send_eoi` -/
  | device (d : DeviceWrapper)
  /-- the vector is none of a device's wrapper -/
  | fault (v : UInt8)
  deriving DecidableEq

/-- Where `initialize_idt` leads a vector. -/
def servingOf (v : UInt8) : Serving :=
  match wrappers.lookup v.toNat with
  | some (.int d) => .device d
  | _ => .fault v

/-- The calls of `enable_irq` and `disable_irq` that run outside `i8259_init`. -/
def sourceCalls : List IrqCall :=
  [.disable rtcIrq, .enable rtcIrq, .disable pitIrq, .enable pitIrq, .enable kbrdIrq]

/-- The controllers, the masks the kernel keeps, and the processor. -/
structure Board where
  chips : Pair
  pic : Pic
  interruptsOn : Bool
  serving : Option Serving

/-- What happens next. -/
inductive BoardMove where
  /-- a device raises its line -/
  | request (n : Fin 16)
  | acknowledge
  /-- the handler calls `send_eoi` -/
  | sendEoi
  | irqCall (c : IrqCall)
  /-- `cli`, `sti`, or a return that restores the flag -/
  | flag (on : Bool)

/-- What is recorded of it. -/
inductive BoardDeed where
  | requested (n : Fin 16)
  | acknowledged (n : Fin 16) (v : UInt8)
  | ended
  | called (c : IrqCall)
  | flagged (on : Bool)

namespace BoardDeed

/-- It raises line `n`. -/
def asks (n : Fin 16) : BoardDeed → Bool
  | .requested m => m = n
  | _ => false

/-- It hands line `n` to the processor. -/
def takes (n : Fin 16) : BoardDeed → Bool
  | .acknowledged m _ => m = n
  | _ => false

end BoardDeed

namespace Board

/-- A function of i8259.c, with its bytes on their way to the controllers. -/
def run (b : Board) (f : Pic → Pic) : Board :=
  let s := f { b.pic with outs := [] }
  { b with chips := portWrites b.chips s.outs, pic := { s with outs := [] } }

/-- One step. The handlers turn interrupts on, and call `enable_irq`, after `send_eoi` at
the earliest; line 2 is the slave's. -/
def step (b : Board) : BoardMove → Option (Board × BoardDeed)
  | .request n => if n = 2 then none else some ({ b with chips := b.chips.raise n }, .requested n)
  | .acknowledge =>
    if b.interruptsOn then
      b.chips.acknowledge.map fun r =>
        ({ b with chips := r.2.2, interruptsOn := false, serving := some (servingOf r.2.1) },
          .acknowledged r.1 r.2.1)
    else none
  | .sendEoi =>
    match b.serving with
    | some (.device d) => some ({ b.run fun s => s.sendEoi d.irq with serving := none }, .ended)
    | _ => none
  | .irqCall c =>
    if b.serving = none ∧ c ∈ sourceCalls then some (b.run fun s => s.apply c, .called c) else none
  | .flag on => if b.serving = none then some ({ b with interruptsOn := on }, .flagged on) else none

end Board

/-- The board at the first call of `initialize_rtc`: `i8259_init` has run, with interrupts
off, on any two chips with nothing in service, and lines may have been requested since. -/
def BoardStarted (b : Board) : Prop :=
  ∃ (p : Pair) (r₁ r₂ : Finset (Fin 8)), p.master.isr = ∅ ∧ p.slave.isr = ∅ ∧ cascadeLine ∉ r₁ ∧
    b = { chips :=
            let q := portWrites p ((Pic.i8259Init Pic.initial).run [.disable rtcIrq]).outs
            ⟨{ q.master with irr := r₁ }, { q.slave with irr := r₂ }⟩
          pic := { (Pic.i8259Init Pic.initial).run [.disable rtcIrq] with outs := [] }
          interruptsOn := false
          serving := none }

/-- A run of the board. -/
abbrev BoardHistory (tr : List (Entry Board BoardDeed)) (b : Board) : Prop :=
  Hist BoardStarted (fun s l s' => ∃ mv, s.step mv = some (s', l)) tr b

/-! ### Its invariant -/

/-- The masks the kernel's calls lead to. -/
def masterMasks : List UInt8 := [0xF8, 0xF9, 0xFA, 0xFB]
def slaveMasks : List UInt8 := [0xFE, 0xFF]

/-- What is in service while the handler of a device has not ended it. -/
def InService (p : Pair) (d : DeviceWrapper) : Prop :=
  p.master.isr = (if d = .rtc then {cascadeLine} else {onChip d.line}) ∧
    p.slave.isr = if d = .rtc then {onChip d.line} else ∅

/-- The invariant of the board. -/
structure BoardSound (b : Board) : Prop where
  programmed : Programmed b.chips
  line2 : cascadeLine ∉ b.chips.master.irr
  masterMask : b.chips.master.imr = b.pic.masterMask
  slaveMask : b.chips.slave.imr = b.pic.slaveMask
  masters : b.pic.masterMask ∈ masterMasks
  slaves : b.pic.slaveMask ∈ slaveMasks
  outs : b.pic.outs = []
  idle : b.serving = none → b.chips.master.isr = ∅ ∧ b.chips.slave.isr = ∅
  served : ∀ s, b.serving = some s → b.interruptsOn = false ∧ ∃ d, s = .device d ∧ InService b.chips d

section Steps

variable {b b' : Board} {mv : BoardMove} {l : BoardDeed}

theorem boardSound_started (h : BoardStarted b) : BoardSound b := by
  obtain ⟨p, r₁, r₂, hm, hs, h2, rfl⟩ := h
  have hinit := portWrites_i8259Init p Pic.initial
  have hchips : portWrites p ((Pic.i8259Init Pic.initial).apply (.disable rtcIrq)).outs =
      ⟨{ fresh p.master icw2Master icw3Master with imr := (Pic.i8259Init Pic.initial).masterMask },
        { fresh p.slave icw2Slave icw3Slave with
          imr := ((Pic.i8259Init Pic.initial).apply (.disable rtcIrq)).slaveMask }⟩ := by
    rw [portWrites_apply (by exact congrArg (fun q => q.master.next) hinit)
      (by exact congrArg (fun q => q.slave.next) hinit) (.disable rtcIrq) (by decide), if_pos (by decide)]
    exact congrArg (fun q : Pair => (⟨q.master, { q.slave with
      imr := ((Pic.i8259Init Pic.initial).apply (.disable rtcIrq)).slaveMask }⟩ : Pair)) hinit
  have hrun : (Pic.i8259Init Pic.initial).run [.disable rtcIrq] =
      (Pic.i8259Init Pic.initial).apply (.disable rtcIrq) := rfl
  simp only [hrun, hchips]
  constructor
  · exact ⟨rfl, rfl, rfl, rfl, rfl, rfl, rfl, rfl⟩
  · exact h2
  · rfl
  · rfl
  · show ((Pic.i8259Init Pic.initial).apply (.disable rtcIrq)).masterMask ∈ masterMasks
    decide
  · show ((Pic.i8259Init Pic.initial).apply (.disable rtcIrq)).slaveMask ∈ slaveMasks
    decide
  · rfl
  · exact fun _ => ⟨hm, hs⟩
  · intro s hs
    cases hs

/-- The lines a sound board has enabled are those of the three devices. -/
theorem enabled_line (h : BoardSound b) {n : Fin 16} (he : b.chips.Enabled n) (h2 : n.val ≠ 2) :
    ∃ d : DeviceWrapper, d.line = n := by
  obtain ⟨hmask, -⟩ := he
  unfold Pair.chip Chip.masked at hmask
  have hmaster : ∀ m ∈ masterMasks, ∀ n : Fin 16, n.val < 8 → n.val ≠ 2 →
      m.toNat.testBit (onChip n).val = false → n = 0 ∨ n = 1 := by decide +kernel
  have hslave : ∀ m ∈ slaveMasks, ∀ n : Fin 16, 8 ≤ n.val → m.toNat.testBit (onChip n).val = false → n = 8 := by
    decide +kernel
  by_cases hn : n.val < 8
  · rw [if_pos hn, h.masterMask] at hmask
    rcases hmaster _ h.masters n hn h2 hmask with rfl | rfl
    · exact ⟨.pit, rfl⟩
    · exact ⟨.kbrd, rfl⟩
  · rw [if_neg hn, h.slaveMask] at hmask
    exact ⟨.rtc, (hslave _ h.slaves n (not_lt.mp hn) hmask).symm⟩

/-- Each device's vector is its wrapper's. -/
theorem vector_line (h : BoardSound b) (d : DeviceWrapper) :
    (b.chips.vector d.line).toNat = (Wrapper.int d).vector ∧ servingOf (b.chips.vector d.line) = .device d := by
  have hm := h.programmed.masterOffset
  have hs := h.programmed.slaveOffset
  cases d with
  | pit =>
    have hv : b.chips.vector DeviceWrapper.pit.line = icw2Master + UInt8.ofNat 0 := congrArg (· + _) hm
    rw [hv]
    decide
  | kbrd =>
    have hv : b.chips.vector DeviceWrapper.kbrd.line = icw2Master + UInt8.ofNat 1 := congrArg (· + _) hm
    rw [hv]
    decide
  | rtc =>
    have hv : b.chips.vector DeviceWrapper.rtc.line = icw2Slave + UInt8.ofNat 0 := congrArg (· + _) hs
    rw [hv]
    decide

theorem BoardSound.isIdle (h : BoardSound b) (hs : b.serving = none) : b.chips.Idle :=
  ⟨(h.idle hs).1, (h.idle hs).2, h.line2⟩

theorem BoardSound.none_of_on (h : BoardSound b) (hon : b.interruptsOn = true) : b.serving = none := by
  cases hs : b.serving with
  | none => rfl
  | some s =>
    rw [(h.served s hs).1] at hon
    cases hon

/-- The processor's acknowledgement: a device's line, its handler, and interrupts off. -/
theorem acknowledge_cases (h : BoardSound b) (hs : b.step .acknowledge = some (b', l)) :
    b.interruptsOn = true ∧ ∃ d : DeviceWrapper, b.chips.Waits d.line ∧ b.chips.Enabled d.line ∧
      (∀ m, b.chips.Waits m → b.chips.Enabled m → priority d.line ≤ priority m) ∧
      l = .acknowledged d.line (b.chips.vector d.line) ∧
      b' = { b with chips := b.chips.taken d.line, interruptsOn := false, serving := some (.device d) } := by
  unfold Board.step at hs
  simp only at hs
  split_ifs at hs with hon
  obtain ⟨⟨n, v, p'⟩, hack, hs⟩ := Option.map_eq_some_iff.mp hs
  simp only [Prod.mk.injEq] at hs
  obtain ⟨rfl, rfl⟩ := hs
  obtain ⟨⟨hw, he, h2⟩, hprio, rfl, rfl⟩ := Pair.acknowledge_eq_some (h.isIdle (h.none_of_on hon)) hack
  obtain ⟨d, rfl⟩ := enabled_line h he h2
  refine ⟨hon, d, hw, he, hprio, rfl, ?_⟩
  rw [(vector_line h d).2]

/-- A taken line is the one in service. -/
theorem inService_taken {p : Pair} (hi : p.Idle) (hp : Programmed p) (d : DeviceWrapper) :
    InService (p.taken d.line) d := by
  have hm : ∀ i, (p.master.take i).isr = {i} := by
    intro i
    unfold Chip.take
    rw [if_pos (by rw [hp.masterMode]; decide), hi.master]
    rfl
  have hs : (p.slave.take 0).isr = {0} := by
    unfold Chip.take
    rw [if_pos (by rw [hp.slaveMode]; decide), hi.slave]
    rfl
  cases d with
  | pit => exact ⟨hm 0, hi.slave⟩
  | kbrd => exact ⟨hm 1, hi.slave⟩
  | rtc => exact ⟨hm 2, hs⟩

/-- What `send_eoi` does to the controllers: the line in service is no longer. -/
theorem sendEoi_ends {p : Pair} {d : DeviceWrapper} (h : InService p d) (s : Pic) :
    portWrites p (Pic.sendEoi { s with outs := [] } d.irq).outs =
      ⟨{ p.master with isr := ∅ }, { p.slave with isr := ∅ }⟩ := by
  obtain ⟨hm, hs⟩ := h
  have hslave : d ≠ .rtc → ({ p.slave with isr := ∅ } : Chip) = p.slave := by
    intro hd
    rw [if_neg hd] at hs
    rw [← hs]
  cases d with
  | pit =>
    have hone : portWrites p (Pic.sendEoi { s with outs := [] } pitIrq).outs =
        { p with master := p.master.command 0x60 } := rfl
    rw [show DeviceWrapper.pit.irq = pitIrq from rfl, hone,
      Chip.command_eoi p.master (i := 0) (by decide) (by decide) (by decide), hm, if_neg (by decide),
      hslave (by decide)]
    rfl
  | kbrd =>
    have hone : portWrites p (Pic.sendEoi { s with outs := [] } kbrdIrq).outs =
        { p with master := p.master.command 0x61 } := rfl
    rw [show DeviceWrapper.kbrd.irq = kbrdIrq from rfl, hone,
      Chip.command_eoi p.master (i := 1) (by decide) (by decide) (by decide), hm, if_neg (by decide),
      hslave (by decide)]
    rfl
  | rtc =>
    -- the slave's end first, and then that of the master's line 2
    have htwo : portWrites p (Pic.sendEoi { s with outs := [] } rtcIrq).outs =
        ⟨p.master.command 0x62, p.slave.command 0x60⟩ := rfl
    rw [show DeviceWrapper.rtc.irq = rtcIrq from rfl, htwo,
      Chip.command_eoi p.master (i := 2) (by decide) (by decide) (by decide),
      Chip.command_eoi p.slave (i := 0) (by decide) (by decide) (by decide), hm, hs, if_pos rfl, if_pos rfl]
    rfl

/-- The kernel's calls keep to its masks. -/
theorem sourceCalls_masks {c : IrqCall} (hc : c ∈ sourceCalls) {s : Pic} (hm : s.masterMask ∈ masterMasks)
    (hs : s.slaveMask ∈ slaveMasks) : (Pic.apply { s with outs := [] } c).masterMask ∈ masterMasks ∧
      (Pic.apply { s with outs := [] } c).slaveMask ∈ slaveMasks := by
  have hall : ∀ c ∈ sourceCalls, ∀ m ∈ masterMasks, ∀ sl ∈ slaveMasks,
      ((⟨m, sl, []⟩ : Pic).apply c).masterMask ∈ masterMasks ∧
        ((⟨m, sl, []⟩ : Pic).apply c).slaveMask ∈ slaveMasks := by decide +kernel
  exact hall c hc _ hm _ hs

/-- The five kinds of step. -/
theorem board_step_cases (hs : b.step mv = some (b', l)) :
    (∃ n, n ≠ 2 ∧ l = .requested n ∧ b' = { b with chips := b.chips.raise n }) ∨
    (mv = .acknowledge) ∨
    (∃ d, b.serving = some (.device d) ∧ l = .ended ∧
      b' = { b.run fun s => s.sendEoi d.irq with serving := none }) ∨
    (∃ c ∈ sourceCalls, b.serving = none ∧ l = .called c ∧ b' = b.run fun s => s.apply c) ∨
    (∃ on, b.serving = none ∧ l = .flagged on ∧ b' = { b with interruptsOn := on }) := by
  cases mv with
  | request n =>
    unfold Board.step at hs
    simp only at hs
    split_ifs at hs with h2
    obtain ⟨rfl, rfl⟩ := Prod.mk.inj (Option.some.inj hs)
    exact Or.inl ⟨n, h2, rfl, rfl⟩
  | acknowledge => exact Or.inr (Or.inl rfl)
  | sendEoi =>
    unfold Board.step at hs
    simp only at hs
    split at hs
    · obtain ⟨rfl, rfl⟩ := Prod.mk.inj (Option.some.inj hs)
      exact Or.inr (Or.inr (Or.inl ⟨_, by assumption, rfl, rfl⟩))
    · cases hs
  | irqCall c =>
    unfold Board.step at hs
    simp only at hs
    split_ifs at hs with hc
    obtain ⟨rfl, rfl⟩ := Prod.mk.inj (Option.some.inj hs)
    exact Or.inr (Or.inr (Or.inr (Or.inl ⟨c, hc.2, hc.1, rfl, rfl⟩)))
  | flag on =>
    unfold Board.step at hs
    simp only at hs
    split_ifs at hs with hn
    obtain ⟨rfl, rfl⟩ := Prod.mk.inj (Option.some.inj hs)
    exact Or.inr (Or.inr (Or.inr (Or.inr ⟨on, hn, rfl, rfl⟩)))

theorem raise_eq (p : Pair) (n : Fin 16) : p.raise n =
    ⟨{ p.master with irr := if n.val < 8 then insert (onChip n) p.master.irr else p.master.irr },
      { p.slave with irr := if n.val < 8 then p.slave.irr else insert (onChip n) p.slave.irr }⟩ := by
  unfold Pair.raise Chip.request
  by_cases hn : n.val < 8
  · rw [if_pos hn, if_pos hn, if_pos hn]
  · rw [if_neg hn, if_neg hn, if_neg hn]

theorem onChip_ne_two {n : Fin 16} (h2 : n ≠ 2) (hn : n.val < 8) : onChip n ≠ 2 := by
  intro heq
  apply h2
  have hval : n.val % 8 = 2 := congrArg Fin.val heq
  apply Fin.ext
  show n.val = 2
  omega

theorem boardSound_raise (h : BoardSound b) {n : Fin 16} (h2 : n ≠ 2) :
    BoardSound { b with chips := b.chips.raise n } := by
  rw [raise_eq]
  refine { h with programmed := h.programmed.keeps .., line2 := ?_ }
  · show 2 ∉ if n.val < 8 then insert (onChip n) b.chips.master.irr else b.chips.master.irr
    by_cases hn : n.val < 8
    · rw [if_pos hn, Finset.mem_insert, not_or]
      exact ⟨(onChip_ne_two h2 hn).symm, h.line2⟩
    · rw [if_neg hn]
      exact h.line2

theorem taken_eq (p : Pair) (n : Fin 16) : ∃ r₁ r₂ s₁ s₂, p.taken n =
    ⟨{ p.master with irr := r₁, isr := s₁ }, { p.slave with irr := r₂, isr := s₂ }⟩ ∧ r₁ ⊆ p.master.irr := by
  unfold Pair.taken Chip.take
  by_cases hn : n.val < 8
  · rw [if_pos hn]
    exact ⟨_, p.slave.irr, _, p.slave.isr, rfl, Finset.erase_subset _ _⟩
  · rw [if_neg hn]
    exact ⟨_, _, _, _, rfl, Finset.erase_subset _ _⟩

theorem boardSound_taken (h : BoardSound b) (hn : b.serving = none) (d : DeviceWrapper) :
    BoardSound { b with chips := b.chips.taken d.line, interruptsOn := false, serving := some (.device d) } := by
  have hservice := inService_taken (h.isIdle hn) h.programmed d
  obtain ⟨r₁, r₂, s₁, s₂, htaken, hsub⟩ := taken_eq b.chips d.line
  rw [htaken] at hservice ⊢
  refine
    { programmed := h.programmed.keeps ..
      line2 := fun hmem => h.line2 (hsub hmem)
      masterMask := h.masterMask
      slaveMask := h.slaveMask
      masters := h.masters
      slaves := h.slaves
      outs := h.outs
      idle := fun hs => nomatch hs
      served := fun s hs => ?_ }
  · exact ⟨rfl, d, (Option.some.inj hs).symm, hservice⟩

theorem boardSound_ended (h : BoardSound b) {d : DeviceWrapper} (hs : b.serving = some (.device d)) :
    BoardSound { b.run fun s => s.sendEoi d.irq with serving := none } := by
  obtain ⟨-, d', hd, hin⟩ := h.served _ hs
  obtain rfl : d = d' := Serving.device.inj hd
  have hends := sendEoi_ends hin b.pic
  have hmasks : (Pic.sendEoi { b.pic with outs := [] } d.irq).masterMask = b.pic.masterMask ∧
      (Pic.sendEoi { b.pic with outs := [] } d.irq).slaveMask = b.pic.slaveMask := by
    cases d <;> exact ⟨rfl, rfl⟩
  unfold Board.run
  simp only [hends]
  refine
    { programmed := h.programmed.keeps ..
      line2 := h.line2
      masterMask := h.masterMask.trans hmasks.1.symm
      slaveMask := h.slaveMask.trans hmasks.2.symm
      masters := ?_
      slaves := ?_
      outs := rfl
      idle := fun _ => ⟨rfl, rfl⟩
      served := fun s hs => nomatch hs }
  · show (Pic.sendEoi { b.pic with outs := [] } d.irq).masterMask ∈ masterMasks
    rw [hmasks.1]
    exact h.masters
  · show (Pic.sendEoi { b.pic with outs := [] } d.irq).slaveMask ∈ slaveMasks
    rw [hmasks.2]
    exact h.slaves

/-- A call's byte puts its mask in force, and changes nothing else. -/
theorem portWrites_call {p : Pair} {s : Pic} (hp : Programmed p) (hm : p.master.imr = s.masterMask)
    (hs : p.slave.imr = s.slaveMask) {c : IrqCall} (hc : c ∈ sourceCalls) :
    portWrites p (Pic.apply { s with outs := [] } c).outs =
      ⟨{ p.master with imr := (Pic.apply { s with outs := [] } c).masterMask },
        { p.slave with imr := (Pic.apply { s with outs := [] } c).slaveMask }⟩ := by
  have hrange : ∀ c ∈ sourceCalls, ¬ c.irqNum > maxIrqNum := by decide
  have hnil : portWrites p ({ s with outs := [] } : Pic).outs = p := rfl
  rw [portWrites_apply (by rw [hnil]; exact hp.masterNext) (by rw [hnil]; exact hp.slaveNext) c (hrange c hc), hnil]
  by_cases hslave : c.OnSlave
  · have hkept : (Pic.apply { s with outs := [] } c).masterMask = p.master.imr :=
      (apply_masterMask _ hslave).trans hm.symm
    rw [if_pos hslave, hkept]
  · have hkept : (Pic.apply { s with outs := [] } c).slaveMask = p.slave.imr :=
      (apply_slaveMask _ hslave).trans hs.symm
    rw [if_neg hslave, hkept]

theorem boardSound_called (h : BoardSound b) (hn : b.serving = none) {c : IrqCall} (hc : c ∈ sourceCalls) :
    BoardSound (b.run fun s => s.apply c) := by
  obtain ⟨hm, hs⟩ := sourceCalls_masks hc h.masters h.slaves
  have hcall := portWrites_call h.programmed h.masterMask h.slaveMask hc
  unfold Board.run
  simp only [hcall]
  refine
    { programmed := h.programmed.keeps ..
      line2 := h.line2
      masterMask := rfl
      slaveMask := rfl
      masters := hm
      slaves := hs
      outs := rfl
      idle := fun _ => h.idle hn
      served := fun s hs => ?_ }
  · rw [show b.serving = some s from hs] at hn
    cases hn

/-- Every step keeps the invariant. -/
theorem boardSound_step (h : BoardSound b) (hs : b.step mv = some (b', l)) : BoardSound b' := by
  rcases board_step_cases hs with ⟨n, h2, -, rfl⟩ | rfl | ⟨d, hd, -, rfl⟩ | ⟨c, hc, hn, -, rfl⟩ | ⟨on, hn, -, rfl⟩
  · exact boardSound_raise h h2
  · obtain ⟨hon, d, -, -, -, -, rfl⟩ := acknowledge_cases h hs
    exact boardSound_taken h (h.none_of_on hon) d
  · exact boardSound_ended h hd
  · exact boardSound_called h hn hc
  · refine { h with served := fun s hs => ?_ }
    rw [show b.serving = some s from hs] at hn
    cases hn

theorem boardSound_of_history {tr : List (Entry Board BoardDeed)} (h : BoardHistory tr b) : BoardSound b := by
  refine Hist.inv (fun _ b => BoardSound b) ?_ ?_ h
  · exact fun _ hb => boardSound_started hb
  · rintro tr s l s' - hs ⟨mv, hstep⟩
    exact boardSound_step hs hstep

/-! ### What waits, and what is served -/

theorem waits_of_irr {p q : Pair} (hm : q.master.irr = p.master.irr) (hs : q.slave.irr = p.slave.irr) (n : Fin 16) :
    q.Waits n ↔ p.Waits n := by
  unfold Pair.Waits Pair.chip
  by_cases hn : n.val < 8
  · rw [if_pos hn, if_pos hn, hm]
  · rw [if_neg hn, if_neg hn, hs]

/-- A line waits behind a step that raised it, and until one takes it. -/
theorem waits_step (h : BoardSound b) (hs : b.step mv = some (b', l)) (n : Fin 16) :
    b'.chips.Waits n ↔ l.asks n = true ∨ b.chips.Waits n ∧ l.takes n = false := by
  rcases board_step_cases hs with ⟨m, -, rfl, rfl⟩ | rfl | ⟨d, hd, rfl, rfl⟩ | ⟨c, hc, hn, rfl, rfl⟩ |
    ⟨on, hn, rfl, rfl⟩
  · rw [Pair.waits_raise]
    simp [BoardDeed.asks, BoardDeed.takes, eq_comm]
  · obtain ⟨hon, d, -, -, -, rfl, rfl⟩ := acknowledge_cases h hs
    rw [Pair.waits_taken h.line2]
    simp [BoardDeed.asks, BoardDeed.takes, eq_comm]
  · obtain ⟨-, d', hd', hin⟩ := h.served _ hd
    obtain rfl : d = d' := Serving.device.inj hd'
    unfold Board.run
    simp only [sendEoi_ends hin]
    simp only [BoardDeed.asks, BoardDeed.takes, Bool.false_eq_true, false_or, and_true]
    apply waits_of_irr <;> rfl
  · unfold Board.run
    simp only [portWrites_call h.programmed h.masterMask h.slaveMask hc]
    simp only [BoardDeed.asks, BoardDeed.takes, Bool.false_eq_true, false_or, and_true]
    apply waits_of_irr <;> rfl
  · simp [BoardDeed.asks, BoardDeed.takes]

theorem takes_waits (h : BoardSound b) (hs : b.step mv = some (b', l)) {n : Fin 16} (ht : l.takes n = true) :
    b.chips.Waits n ∧ l.asks n = false := by
  rcases board_step_cases hs with ⟨m, -, rfl, -⟩ | rfl | ⟨d, -, rfl, -⟩ | ⟨c, -, -, rfl, -⟩ | ⟨on, -, rfl, -⟩
  · cases ht
  · obtain ⟨-, d, hw, -, -, rfl, -⟩ := acknowledge_cases h hs
    obtain rfl : d.line = n := of_decide_eq_true ht
    exact ⟨hw, rfl⟩
  · cases ht
  · cases ht
  · cases ht

/-- While a handler is before its `send_eoi`, its line has been taken and only requests have
come since. -/
theorem served_since {tr : List (Entry Board BoardDeed)} (h : BoardHistory tr b) : ∀ d, b.serving = some (.device d) →
    Since (fun e => e.label.takes d.line = true) (fun e => ∃ n, e.label = .requested n) tr := by
  refine Hist.inv (fun tr b => ∀ d, b.serving = some (.device d) →
    Since (fun e => e.label.takes d.line = true) (fun e => ∃ n, e.label = .requested n) tr) ?_ ?_ h
  · rintro b ⟨p, r₁, r₂, -, -, -, rfl⟩ d hd
    cases hd
  · rintro tr s l s' hp hprev ⟨mv, hs⟩ d hd
    have hsound := boardSound_of_history hp
    rcases board_step_cases hs with ⟨m, -, rfl, rfl⟩ | rfl | ⟨d', -, rfl, rfl⟩ | ⟨c, -, hn, rfl, rfl⟩ |
      ⟨on, hn, rfl, rfl⟩
    · exact (hprev d hd).later ⟨m, rfl⟩
    · obtain ⟨-, d', -, -, -, rfl, rfl⟩ := acknowledge_cases hsound hs
      obtain rfl : d' = d := Serving.device.inj (Option.some.inj hd)
      exact Since.now tr (by simp [BoardDeed.takes])
    · cases hd
    · rw [show s.serving = some (.device d) from hd] at hn
      cases hn
    · rw [show s.serving = some (.device d) from hd] at hn
      cases hn

/-- **What the controllers hand over, and who ends it.** In every run of the board: while
interrupts are on nothing is in service, and the processor is handed something exactly
when an enabled line waits; it is the line of a device, of the highest priority among
these, and its vector enters this device's wrapper. Until the handler behind the wrapper
ends it, nothing happens on the board but requests, and its `send_eoi` leaves nothing in
service and every request waiting. -/
theorem interrupts_served {tr : List (Entry Board BoardDeed)} (h : BoardHistory tr b)
    (addr : Wrapper → BitVec 32) (idt : ℕ → IdtDesc) :
    (b.interruptsOn = true → b.chips.master.isr = ∅ ∧ b.chips.slave.isr = ∅ ∧
      ((b.step .acknowledge).isSome = true ↔ ∃ n, b.chips.Waits n ∧ b.chips.Enabled n)) ∧
    (∀ b' l, b.step .acknowledge = some (b', l) → ∃ (d : DeviceWrapper) (v : UInt8),
      l = .acknowledged d.line v ∧ b'.serving = some (.device d) ∧ b.chips.Waits d.line ∧ b.chips.Enabled d.line ∧
      (∀ m, b.chips.Waits m → b.chips.Enabled m → priority d.line ≤ priority m) ∧
      vectoring (initializeIdt addr (setupIdt idt) v.toNat) none =
        .enters (BitVec.ofNat 16 kernelCS) (addr (.int d)) true) ∧
    ∀ s, b.serving = some s → ∃ d : DeviceWrapper, s = .device d ∧
      Since (fun e => e.label.takes d.line = true) (fun e => ∃ n, e.label = .requested n) tr ∧
      ∃ b', b.step .sendEoi = some (b', .ended) ∧ b'.chips.master.isr = ∅ ∧ b'.chips.slave.isr = ∅ ∧
        ∀ n, b'.chips.Waits n ↔ b.chips.Waits n := by
  have hsound := boardSound_of_history h
  refine ⟨fun hon => ?_, fun b' l hs => ?_, fun s hs => ?_⟩
  · have hidle := hsound.isIdle (hsound.none_of_on hon)
    refine ⟨hidle.master, hidle.slave, ?_⟩
    rw [← Pair.acknowledge_isSome hidle]
    unfold Board.step
    simp only [if_pos hon, Option.isSome_map]
  · obtain ⟨-, d, hw, he, hprio, rfl, rfl⟩ := acknowledge_cases hsound hs
    refine ⟨d, _, rfl, rfl, hw, he, hprio, ?_⟩
    rw [(vector_line hsound d).1]
    exact vectoring_wrapper addr idt (.int d)
  · obtain ⟨-, d, rfl, hin⟩ := hsound.served s hs
    have hstep : b.step .sendEoi = some ({ b.run fun s => s.sendEoi d.irq with serving := none }, .ended) := by
      unfold Board.step
      simp only [hs]
    have hends : (b.run fun s => s.sendEoi d.irq).chips =
        ⟨{ b.chips.master with isr := ∅ }, { b.chips.slave with isr := ∅ }⟩ := sendEoi_ends hin b.pic
    refine ⟨d, rfl, served_since h d hs, _, hstep, congrArg (fun q => q.master.isr) hends,
      congrArg (fun q => q.slave.isr) hends, fun n => ?_⟩
    rw [waits_step hsound hstep n]
    simp [BoardDeed.asks, BoardDeed.takes]

def powerOn : Chip :=
  { imr := 0, irr := ∅, isr := ∅, offset := 0, cascade := 0, mode := 0, next := .nothing, wants4 := false,
    single := false }
def boardStart : Board :=
  { chips := portWrites ⟨powerOn, powerOn⟩ ((Pic.i8259Init Pic.initial).run [.disable rtcIrq]).outs
    pic := { (Pic.i8259Init Pic.initial).run [.disable rtcIrq] with outs := [] }
    interruptsOn := false
    serving := none }
def boardKbrdInit : Board := boardStart.run fun s => s.apply (.enable kbrdIrq)
def boardSti : Board := { boardKbrdInit with interruptsOn := true }
/-- A key is pressed: `kbrd_init` has run, interrupts are on, and line 1 rises. -/
def boardKey : Board := { boardSti with chips := boardSti.chips.raise 1 }

theorem boardKey_history : BoardHistory
    [⟨boardSti, .requested 1, boardKey⟩, ⟨boardKbrdInit, .flagged true, boardSti⟩,
      ⟨boardStart, .called (.enable kbrdIrq), boardKbrdInit⟩] boardKey := by
  have hstart : BoardStarted boardStart := ⟨⟨powerOn, powerOn⟩, ∅, ∅, rfl, rfl, by simp, rfl⟩
  exact ((Hist.start hstart).next ⟨.irqCall (.enable kbrdIrq), rfl⟩ |>.next ⟨.flag true, rfl⟩).next ⟨.request 1, rfl⟩

theorem interrupts_served_key : boardKey.chips.master.isr = ∅ ∧ (boardKey.step .acknowledge).isSome = true := by
  have h := (interrupts_served boardKey_history (fun _ => 0) fun _ => 0).1 rfl
  exact ⟨h.1, h.2.2.mpr ⟨1, by decide, by decide⟩⟩

/-- **No request is lost and none is served twice.** In every run of the board, a line
waits exactly when it was raised and has not been taken since, or waited from the start;
so it stands when the line is taken, and over the whole run a line is taken no more often
than it was raised. -/
theorem interrupt_once {tr : List (Entry Board BoardDeed)} (h : BoardHistory tr b) (n : Fin 16) :
    (b.chips.Waits n ↔
      Since (fun e => e.label.asks n = true) (fun e => e.label.takes n = false) tr ∨
        (origin tr b).chips.Waits n ∧ ∀ e ∈ tr, e.label.takes n = false) ∧
    (∀ new e old, tr = new ++ e :: old → e.label.takes n = true →
      Since (fun e => e.label.asks n = true) (fun e => e.label.takes n = false) old ∨
        (origin old e.before).chips.Waits n ∧ ∀ x ∈ old, x.label.takes n = false) ∧
    tr.countP (fun e => e.label.takes n) + (if b.chips.Waits n then 1 else 0) ≤
      tr.countP (fun e => e.label.asks n) + if (origin tr b).chips.Waits n then 1 else 0 := by
  have hflag : ∀ tr s l s', BoardHistory tr s → (∃ mv, s.step mv = some (s', l)) →
      (s'.chips.Waits n ↔ l.asks n = true ∨ s.chips.Waits n ∧ l.takes n = false) := by
    rintro tr s l s' hp ⟨mv, hs⟩
    exact waits_step (boardSound_of_history hp) hs n
  have hup : ∀ tr s l s', BoardHistory tr s → (∃ mv, s.step mv = some (s', l)) → l.takes n = true →
      s.chips.Waits n ∧ l.asks n = false := by
    rintro tr s l s' hp ⟨mv, hs⟩ htake
    exact takes_waits (boardSound_of_history hp) hs htake
  refine ⟨Hist.pending hflag h, ?_, Hist.takes_le_asks hflag hup h⟩
  rintro new e old rfl htake
  obtain ⟨hold, hstep⟩ := Hist.reached h
  exact (Hist.pending hflag hold).mp (hup _ _ _ _ hold hstep htake).1

theorem interrupt_once_key : boardKey.chips.Waits 1 :=
  (interrupt_once boardKey_history 1).1.mpr (Or.inl (Since.now _ rfl))

end Steps

end Mp3Kernel
