/-
# The descriptor tables

idt.c fills the 256 entries of the interrupt descriptor table field by field and then
puts the addresses of the wrappers in; entry() builds the descriptors of the LDT and the
TSS in locals it does not initialise. Here the packed bit-fields are fields of a 64-bit
word, and beside them stands what the processor reads out of such a word.

Wherever the linker has put the wrappers and whatever the table held, an interrupt or an
exception with a wrapper enters that wrapper through an interrupt gate, so with interrupts
off; vector 15 is marked present without one; user code can enter through vector 0x80
only; and the segments are those asked for, at any address and of any size
(`gates_decode`, `segments_decode`).

Key definitions: `setupIdt`, `initializeIdt`, `vectoring`, `ldtDescriptor`,
`tssDescriptor`.
Key theorems: `gates_decode`, `segments_decode`.
-/
import Mp3Kernel.Basis.Fields
import Mp3Kernel.Linkage

namespace Mp3Kernel

open Bits

/-! ### idt_desc_t -/

namespace IdtDesc

abbrev offset1500 : BitField := ⟨0, 16⟩
abbrev segSelector : BitField := ⟨16, 16⟩
abbrev reserved4 : BitField := ⟨32, 8⟩
abbrev reserved3 : BitField := ⟨40, 1⟩
abbrev reserved2 : BitField := ⟨41, 1⟩
abbrev reserved1 : BitField := ⟨42, 1⟩
abbrev size : BitField := ⟨43, 1⟩
abbrev reserved0 : BitField := ⟨44, 1⟩
abbrev dpl : BitField := ⟨45, 2⟩
abbrev present : BitField := ⟨47, 1⟩
abbrev offset3116 : BitField := ⟨48, 16⟩

end IdtDesc

/-- idt_desc_t: `val[1]` in the upper half -/
abbrev IdtDesc := BitVec 64

/-- NUM_VEC -/
abbrev numVec : ℕ := 256
/-- INT_PIT -/
abbrev intPit : ℕ := 0x20
/-- INT_KBRD -/
abbrev intKbrd : ℕ := 0x21
/-- INT_RTC -/
abbrev intRtc : ℕ := 0x28
/-- INT_SYSCALL -/
abbrev intSyscall : ℕ := 0x80
/-- CP1_IDTSIZE -/
abbrev cp1IdtSize : ℕ := 20

/-- The vectors `setup_idt` marks present. -/
def Wired (i : ℕ) : Prop := i < cp1IdtSize ∨ i = intPit ∨ i = intKbrd ∨ i = intRtc ∨ i = intSyscall

instance (i : ℕ) : Decidable (Wired i) := by unfold Wired; infer_instance

open IdtDesc in
/-- One turn of the loop of `setup_idt`. -/
def setupEntry (i : ℕ) (d : IdtDesc) : IdtDesc :=
  if Wired i then
    let d := segSelector.set d (BitVec.ofNat 16 kernelCS)
    let d := reserved4.set d 0x00
    let d := reserved3.set d 0
    let d := reserved2.set d 1
    let d := reserved1.set d 1
    let d := size.set d 1
    let d := reserved0.set d 0
    let d := dpl.set d (if i = intSyscall then 3 else 0)
    present.set d 1
  else
    let d := present.set d 0
    let d := size.set d 1
    let d := dpl.set d 0
    let d := reserved0.set d 0
    let d := reserved1.set d 1
    let d := reserved2.set d 1
    let d := reserved3.set d 1
    let d := reserved4.set d 0
    segSelector.set d (BitVec.ofNat 16 kernelCS)

/-- `setup_idt` -/
def setupIdt (idt : ℕ → IdtDesc) : ℕ → IdtDesc :=
  (List.range numVec).foldl (fun t i => Function.update t i (setupEntry i (t i))) idt

open IdtDesc in
/-- SET_IDT_ENTRY -/
def setIdtEntry (d : IdtDesc) (handler : BitVec 32) : IdtDesc :=
  let d := offset3116.set d (((handler &&& 0xFFFF0000) >>> 16).setWidth 16)
  offset1500.set d ((handler &&& 0xFFFF).setWidth 16)

/-- The wrappers of ex_wrapper.S and int_wrapper.S. -/
inductive Wrapper where
  | ex (e : Exception)
  | int (d : DeviceWrapper)
  | sys
  deriving DecidableEq

/-- The vector of a wrapper. -/
def Wrapper.vector : Wrapper → ℕ
  | .ex e => e.vector
  | .int .pit => intPit
  | .int .kbrd => intKbrd
  | .int .rtc => intRtc
  | .sys => intSyscall

/-- The lines of `initialize_idt`. -/
def wrappers : List (ℕ × Wrapper) :=
  [(0x00, .ex .divideError), (0x01, .ex .debug), (0x02, .ex .nmiInt), (0x03, .ex .breakpoint), (0x04, .ex .overflow),
    (0x05, .ex .boundRangeExceeded), (0x06, .ex .opcodeInvalid), (0x07, .ex .noDevice), (0x08, .ex .doubleFault),
    (0x09, .ex .coprocessorSegmentOverrun), (0x0A, .ex .tssInvalid), (0x0B, .ex .noSegment), (0x0C, .ex .stackFault),
    (0x0D, .ex .gpFault), (0x0E, .ex .pageFault), (0x10, .ex .fpu), (0x11, .ex .alignmentCheck),
    (0x12, .ex .machineCheck), (0x13, .ex .simd), (intPit, .int .pit), (intKbrd, .int .kbrd), (intRtc, .int .rtc),
    (intSyscall, .sys)]

/-- `initialize_idt`; `addr` is where the linker has put the wrappers. -/
def initializeIdt (addr : Wrapper → BitVec 32) (idt : ℕ → IdtDesc) : ℕ → IdtDesc :=
  wrappers.foldl (fun t e => Function.update t e.1 (setIdtEntry (t e.1) (addr e.2))) idt

/-! ### The processor's reading of a gate -/

/-- What the processor makes of a vector. -/
inductive Vectored where
  /-- the code at `offset` of the segment is entered -/
  | enters (selector : BitVec 16) (offset : BitVec 32) (interruptsOff : Bool)
  | generalProtection
  | segmentNotPresent
  deriving DecidableEq

/-- A gate's offset, from its two halves. -/
def gateOffset (d : IdtDesc) : BitVec 32 := IdtDesc.offset3116.get d ++ IdtDesc.offset1500.get d

/-- The entry as the processor takes it: `int` by code of the privilege level `software`,
or an event of its own. 14 is the type of a 32-bit interrupt gate and 15 that of a 32-bit
trap gate; the other kinds of gate do not occur here. -/
def vectoring (d : IdtDesc) (software : Option ℕ) : Vectored :=
  let gateType := (BitField.mk 40 5).get d
  if gateType ≠ 14 ∧ gateType ≠ 15 then .generalProtection
  else if ∃ cpl ∈ software, (IdtDesc.dpl.get d).toNat < cpl then .generalProtection
  else if IdtDesc.present.get d = 0 then .segmentNotPresent
  else .enters (IdtDesc.segSelector.get d) (gateOffset d) (gateType = 14)

/-! ### The loops -/

section Loops

variable {α β : Type*}

theorem foldl_range_update (f : ℕ → α → α) (t : ℕ → α) (n v : ℕ) :
    (List.range n).foldl (fun t i => Function.update t i (f i (t i))) t v = if v < n then f v (t v) else t v := by
  induction n with
  | zero => rfl
  | succ n ih =>
    rw [List.range_succ, List.foldl_append, List.foldl_cons, List.foldl_nil, Function.update_apply]
    by_cases hvn : v = n
    · subst hvn
      rw [if_pos rfl, ih, if_neg (lt_irrefl v), if_pos (Nat.lt_succ_self v)]
    · rw [if_neg hvn, ih]
      by_cases hlt : v < n
      · rw [if_pos hlt, if_pos (Nat.lt_succ_of_lt hlt)]
      · rw [if_neg hlt, if_neg (by omega)]

theorem foldl_update_of_notMem (f : α → β → α) (l : List (ℕ × β)) (t : ℕ → α) {v : ℕ} (hv : v ∉ l.map Prod.fst) :
    l.foldl (fun t e => Function.update t e.1 (f (t e.1) e.2)) t v = t v := by
  induction l generalizing t with
  | nil => rfl
  | cons e l ih =>
    rw [List.map_cons, List.mem_cons, not_or] at hv
    rw [List.foldl_cons, ih _ hv.2, Function.update_of_ne hv.1]

theorem foldl_update_of_mem (f : α → β → α) (l : List (ℕ × β)) (t : ℕ → α) (hl : (l.map Prod.fst).Nodup) {v : ℕ}
    {b : β} (hv : (v, b) ∈ l) : l.foldl (fun t e => Function.update t e.1 (f (t e.1) e.2)) t v = f (t v) b := by
  induction l generalizing t with
  | nil => cases hv
  | cons e l ih =>
    rw [List.map_cons, List.nodup_cons] at hl
    rw [List.foldl_cons]
    rcases List.mem_cons.mp hv with rfl | hv
    · rw [foldl_update_of_notMem f l _ hl.1, Function.update_self]
    · have hmem : v ∈ l.map Prod.fst := List.mem_map_of_mem hv
      have hne : v ≠ e.1 := fun he => hl.1 (he ▸ hmem)
      rw [ih _ hl.2 hv, Function.update_of_ne hne]

end Loops

theorem setupIdt_apply (idt : ℕ → IdtDesc) {v : ℕ} (hv : v < 256) : setupIdt idt v = setupEntry v (idt v) := by
  unfold setupIdt
  rw [foldl_range_update, if_pos hv]

/-! ### The fields of an entry -/

section Entries

open IdtDesc

theorem gateType_get (d : IdtDesc) : (BitField.mk 40 5).get d =
    reserved0.get d ++ size.get d ++ reserved1.get d ++ reserved2.get d ++ reserved3.get d := by
  have h40 := BitField.get_split d 40 1 4
  have h41 := BitField.get_split d 41 1 3
  have h42 := BitField.get_split d 42 1 2
  have h43 := BitField.get_split d 43 1 1
  calc (BitField.mk 40 5).get d = (BitField.mk 41 4).get d ++ reserved3.get d := h40
    _ = ((BitField.mk 42 3).get d ++ reserved2.get d) ++ reserved3.get d := by rw [← h41]
    _ = (((BitField.mk 43 2).get d ++ reserved1.get d) ++ reserved2.get d) ++ reserved3.get d := by rw [← h42]
    _ = _ := by rw [← h43]

/-- What `setup_idt` leaves in an entry. -/
structure EntrySetUp (i : ℕ) (d d' : IdtDesc) : Prop where
  segSelector : segSelector.get d' = BitVec.ofNat 16 kernelCS
  gateType : (BitField.mk 40 5).get d' = if Wired i then 14 else 15
  dpl : (dpl.get d').toNat = if i = intSyscall then 3 else 0
  present : present.get d' = if Wired i then 1 else 0
  offset : gateOffset d' = gateOffset d

theorem entrySetUp_setupEntry (i : ℕ) (d : IdtDesc) : EntrySetUp i d (setupEntry i d) := by
  have hsys : i = intSyscall → Wired i := fun h => Or.inr (Or.inr (Or.inr (Or.inr h)))
  by_cases hw : Wired i
  · unfold setupEntry
    rw [if_pos hw]
    refine ⟨?_, ?_, ?_, ?_, ?_⟩
    · simp (disch := decide) only [BitField.get_set_same, BitField.get_set_apart]
    · rw [gateType_get, if_pos hw]
      simp (disch := decide) only [BitField.get_set_same, BitField.get_set_apart]
      rfl
    · simp (disch := decide) only [BitField.get_set_same, BitField.get_set_apart]
      split_ifs <;> rfl
    · rw [if_pos hw]
      simp (disch := decide) only [BitField.get_set_same]
    · unfold gateOffset
      simp (disch := decide) only [BitField.get_set_apart]
  · unfold setupEntry
    rw [if_neg hw]
    refine ⟨?_, ?_, ?_, ?_, ?_⟩
    · simp (disch := decide) only [BitField.get_set_same]
    · rw [gateType_get, if_neg hw]
      simp (disch := decide) only [BitField.get_set_same, BitField.get_set_apart]
      rfl
    · rw [if_neg (mt hsys hw)]
      simp (disch := decide) only [BitField.get_set_same, BitField.get_set_apart]
      rfl
    · rw [if_neg hw]
      simp (disch := decide) only [BitField.get_set_same, BitField.get_set_apart]
    · unfold gateOffset
      simp (disch := decide) only [BitField.get_set_apart]

theorem gateOffset_setIdtEntry (d : IdtDesc) (handler : BitVec 32) :
    gateOffset (setIdtEntry d handler) = handler := by
  have hhigh : ((handler &&& 0xFFFF0000) >>> 16).setWidth 16 = (BitField.mk 16 16).get handler :=
    BitField.get_of_mask handler 16 16 (by decide)
  have hlow : (handler &&& 0xFFFF).setWidth 16 = (BitField.mk 0 16).get handler := by
    rw [← BitField.get_of_mask handler 0 16 (m := 0xFFFF) (by decide), BitVec.ushiftRight_zero]
  unfold gateOffset setIdtEntry
  simp (disch := decide) only [BitField.get_set_same, BitField.get_set_apart]
  rw [hhigh, hlow]
  calc (BitField.mk 16 16).get handler ++ (BitField.mk 0 16).get handler = (BitField.mk 0 32).get handler :=
      (BitField.get_split handler 0 16 16).symm
    _ = handler := BitField.get_whole handler

theorem get_setIdtEntry (d : IdtDesc) (handler : BitVec 32) {f : BitField} (hlow : f.Apart offset1500)
    (hhigh : f.Apart offset3116) : f.get (setIdtEntry d handler) = f.get d := by
  unfold setIdtEntry
  rw [BitField.get_set_apart _ _ _ _ hlow, BitField.get_set_apart _ _ _ _ hhigh]

theorem initialize_wrapper (addr : Wrapper → BitVec 32) (t : ℕ → IdtDesc) {v : ℕ} {w : Wrapper}
    (hw : (v, w) ∈ wrappers) : initializeIdt addr t v = setIdtEntry (t v) (addr w) :=
  foldl_update_of_mem (fun d w => setIdtEntry d (addr w)) wrappers t (by decide) hw

theorem initialize_other (addr : Wrapper → BitVec 32) (t : ℕ → IdtDesc) {v : ℕ} (hv : v ∉ wrappers.map Prod.fst) :
    initializeIdt addr t v = t v :=
  foldl_update_of_notMem (fun d w => setIdtEntry d (addr w)) wrappers t hv

theorem vector_mem (w : Wrapper) : (w.vector, w) ∈ wrappers := by
  cases w with
  | ex e => cases e <;> decide
  | int d => cases d <;> decide
  | sys => decide

theorem vector_of_mem {v : ℕ} {w : Wrapper} (hw : (v, w) ∈ wrappers) : w.vector = v := by
  have hall : ∀ e ∈ wrappers, e.2.vector = e.1 := by decide
  exact hall _ hw

/-- The vectors of the wrappers, and vector 15, are those marked present. -/
theorem wired_iff (v : ℕ) : Wired v ↔ v = 15 ∨ ∃ w : Wrapper, w.vector = v := by
  constructor
  · intro hw
    by_cases h15 : v = 15
    · exact Or.inl h15
    have hmem : v ∈ wrappers.map Prod.fst := by
      rcases hw with hlt | rfl | rfl | rfl | rfl
      · simp only [cp1IdtSize] at hlt
        interval_cases v <;> first | decide | exact absurd rfl h15
      all_goals decide
    obtain ⟨⟨v', w⟩, hw', rfl⟩ := List.mem_map.mp hmem
    exact Or.inr ⟨w, vector_of_mem hw'⟩
  · rintro (rfl | ⟨w, rfl⟩)
    · decide
    · have hall : ∀ e ∈ wrappers, Wired e.1 := by decide
      exact hall _ (vector_mem w)

/-- What the two functions leave in an entry. -/
theorem entry_fields (addr : Wrapper → BitVec 32) (idt : ℕ → IdtDesc) {v : ℕ} (hv : v < 256) :
    let d := initializeIdt addr (setupIdt idt) v
    segSelector.get d = BitVec.ofNat 16 kernelCS ∧ (BitField.mk 40 5).get d = (if Wired v then 14 else 15) ∧
      (dpl.get d).toNat = (if v = intSyscall then 3 else 0) ∧ present.get d = if Wired v then 1 else 0 := by
  have hset := entrySetUp_setupEntry v (idt v)
  have hkept : ∀ f : BitField, f.Apart offset1500 → f.Apart offset3116 →
      f.get (initializeIdt addr (setupIdt idt) v) = f.get (setupEntry v (idt v)) := by
    intro f hlow hhigh
    by_cases hmem : v ∈ wrappers.map Prod.fst
    · obtain ⟨⟨v', w⟩, hw, rfl⟩ := List.mem_map.mp hmem
      rw [initialize_wrapper addr _ hw, get_setIdtEntry _ _ hlow hhigh, setupIdt_apply idt hv]
    · rw [initialize_other addr _ hmem, setupIdt_apply idt hv]
  refine ⟨?_, ?_, ?_, ?_⟩
  · rw [hkept segSelector (by decide) (by decide), hset.segSelector]
  · rw [hkept (BitField.mk 40 5) (by decide) (by decide), hset.gateType]
  · rw [hkept dpl (by decide) (by decide), hset.dpl]
  · rw [hkept present (by decide) (by decide), hset.present]

theorem vector_lt (w : Wrapper) : w.vector < 256 := by
  have hall : ∀ e ∈ wrappers, e.1 < 256 := by decide
  exact hall _ (vector_mem w)

theorem vectoring_wired (addr : Wrapper → BitVec 32) (idt : ℕ → IdtDesc) {v : ℕ} (hv : v < 256) (hw : Wired v) :
    vectoring (initializeIdt addr (setupIdt idt) v) none =
      .enters (BitVec.ofNat 16 kernelCS) (gateOffset (initializeIdt addr (setupIdt idt) v)) true := by
  obtain ⟨hsel, htype, -, hpresent⟩ := entry_fields addr idt hv
  rw [if_pos hw] at htype hpresent
  unfold vectoring
  simp only [htype, hpresent, hsel]
  rfl

theorem gateOffset_wrapper (addr : Wrapper → BitVec 32) (idt : ℕ → IdtDesc) (w : Wrapper) :
    gateOffset (initializeIdt addr (setupIdt idt) w.vector) = addr w := by
  rw [initialize_wrapper addr _ (vector_mem w), gateOffset_setIdtEntry]

theorem vectoring_wrapper (addr : Wrapper → BitVec 32) (idt : ℕ → IdtDesc) (w : Wrapper) :
    vectoring (initializeIdt addr (setupIdt idt) w.vector) none =
      .enters (BitVec.ofNat 16 kernelCS) (addr w) true := by
  rw [vectoring_wired addr idt (vector_lt w) ((wired_iff _).mpr (Or.inr ⟨w, rfl⟩)), gateOffset_wrapper]

/-- **Where the vectors lead.** Wherever the wrappers lie and whatever the table held, every
wrapper's vector enters that wrapper, in the kernel's code segment and with interrupts
off; vector 15 enters at whatever address its entry held; no other vector is present. Code
in user mode enters the kernel through vector 0x80, and through no other. -/
theorem gates_decode (addr : Wrapper → BitVec 32) (idt : ℕ → IdtDesc) :
    (∀ w : Wrapper, vectoring (initializeIdt addr (setupIdt idt) w.vector) none =
      .enters (BitVec.ofNat 16 kernelCS) (addr w) true) ∧
    vectoring (initializeIdt addr (setupIdt idt) 15) none =
      .enters (BitVec.ofNat 16 kernelCS) (gateOffset (idt 15)) true ∧
    (∀ v < 256, v ≠ 15 → (∀ w : Wrapper, w.vector ≠ v) →
      vectoring (initializeIdt addr (setupIdt idt) v) none = .segmentNotPresent) ∧
    ∀ v < 256, vectoring (initializeIdt addr (setupIdt idt) v) (some 3) =
      if v = intSyscall then .enters (BitVec.ofNat 16 kernelCS) (addr .sys) true else .generalProtection := by
  refine ⟨vectoring_wrapper addr idt, ?_, fun v hv h15 hno => ?_, fun v hv => ?_⟩
  · rw [vectoring_wired addr idt (by decide) (by decide), initialize_other addr _ (by decide),
      setupIdt_apply idt (by decide), (entrySetUp_setupEntry 15 (idt 15)).offset]
  · have hnot : ¬ Wired v := by
      rw [wired_iff]
      rintro (h | ⟨w, hw⟩)
      · exact h15 h
      · exact hno w hw
    obtain ⟨-, htype, -, hpresent⟩ := entry_fields addr idt hv
    rw [if_neg hnot] at htype hpresent
    unfold vectoring
    simp only [htype, hpresent]
    rfl
  · obtain ⟨hsel, htype, hdpl, hpresent⟩ := entry_fields addr idt hv
    by_cases hsys : v = intSyscall
    · subst hsys
      have hoff : gateOffset (initializeIdt addr (setupIdt idt) intSyscall) = addr .sys :=
        gateOffset_wrapper addr idt .sys
      rw [if_pos rfl] at hdpl ⊢
      rw [if_pos (by decide)] at htype hpresent
      unfold vectoring
      simp only [htype, hpresent, hsel, hdpl, hoff]
      rfl
    · rw [if_neg hsys] at hdpl ⊢
      unfold vectoring
      simp only [hdpl]
      by_cases hw : Wired v
      · rw [if_pos hw] at htype
        simp [htype]
      · rw [if_neg hw] at htype
        simp [htype]

/-- With the wrappers at their vectors times 64, a tick enters at 0x800. -/
theorem gates_decode_tick :
    vectoring (initializeIdt (fun w => BitVec.ofNat 32 (64 * w.vector)) (setupIdt fun _ => 0) intPit) none =
      .enters 0x10 0x800 true :=
  (gates_decode (fun w => BitVec.ofNat 32 (64 * w.vector)) fun _ => 0).1 (.int .pit)

end Entries

/-! ### seg_desc_t -/

namespace SegDesc

abbrev segLim1500 : BitField := ⟨0, 16⟩
abbrev base1500 : BitField := ⟨16, 16⟩
abbrev base2316 : BitField := ⟨32, 8⟩
abbrev type : BitField := ⟨40, 4⟩
abbrev sys : BitField := ⟨44, 1⟩
abbrev dpl : BitField := ⟨45, 2⟩
abbrev present : BitField := ⟨47, 1⟩
abbrev segLim1916 : BitField := ⟨48, 4⟩
abbrev avail : BitField := ⟨52, 1⟩
abbrev reserved : BitField := ⟨53, 1⟩
abbrev opsize : BitField := ⟨54, 1⟩
abbrev granularity : BitField := ⟨55, 1⟩
abbrev base3124 : BitField := ⟨56, 8⟩

end SegDesc

/-- seg_desc_t -/
abbrev SegDesc := BitVec 64

/-- TSS_SIZE -/
abbrev tssSize : BitVec 32 := 104

open SegDesc in
/-- SET_LDT_PARAMS, and SET_TSS_PARAMS -/
def setParams (d : SegDesc) (addr lim : BitVec 32) : SegDesc :=
  let d := base3124.set d (((addr &&& 0xFF000000) >>> 24).setWidth 8)
  let d := base2316.set d (((addr &&& 0x00FF0000) >>> 16).setWidth 8)
  let d := base1500.set d ((addr &&& 0x0000FFFF).setWidth 16)
  let d := segLim1916.set d (((lim &&& 0x000F0000) >>> 16).setWidth 4)
  segLim1500.set d ((lim &&& 0x0000FFFF).setWidth 16)

open SegDesc in
/-- `the_ldt_desc` of entry(), on the stack word `d`. -/
def ldtDescriptor (d : SegDesc) (ldt ldtSize : BitVec 32) : SegDesc :=
  let d := granularity.set d 0x0
  let d := opsize.set d 0x1
  let d := reserved.set d 0x0
  let d := avail.set d 0x0
  let d := present.set d 0x1
  let d := dpl.set d 0x0
  let d := sys.set d 0x0
  let d := type.set d 0x2
  setParams d ldt ldtSize

open SegDesc in
/-- `the_tss_desc` of entry(), on the stack word `d`. -/
def tssDescriptor (d : SegDesc) (tss size : BitVec 32) : SegDesc :=
  let d := granularity.set d 0x0
  let d := opsize.set d 0x0
  let d := reserved.set d 0x0
  let d := avail.set d 0x0
  let d := segLim1916.set d ((tssSize &&& 0x000F0000).setWidth 4)
  let d := present.set d 0x1
  let d := dpl.set d 0x0
  let d := sys.set d 0x0
  let d := type.set d 0x9
  let d := segLim1500.set d ((tssSize &&& 0x0000FFFF).setWidth 16)
  setParams d tss size

/-- The GDT of x86_desc.S with the two descriptors entry() stores. -/
def gdt (tssDesc ldtDesc : SegDesc) : List SegDesc :=
  [0, 0, 0x00CF9A000000FFFF, 0x00CF92000000FFFF, 0x00CFFA000000FFFF, 0x00CFF2000000FFFF, tssDesc, ldtDesc]

/-- A segment as the processor reads it out of its descriptor. -/
structure Segment where
  base : BitVec 32
  /-- the last offset, in units of 4 KB if `pages` is set -/
  limit : BitVec 20
  pages : BitVec 1
  present : BitVec 1
  dpl : BitVec 2
  /-- code or data, and not a system segment -/
  ordinary : BitVec 1
  type : BitVec 4
  deriving DecidableEq

open SegDesc in
/-- The reading of a descriptor. -/
def segment (d : SegDesc) : Segment where
  base := base3124.get d ++ base2316.get d ++ base1500.get d
  limit := segLim1916.get d ++ segLim1500.get d
  pages := granularity.get d
  present := SegDesc.present.get d
  dpl := SegDesc.dpl.get d
  ordinary := SegDesc.sys.get d
  type := SegDesc.type.get d

/-- The descriptor a selector names. -/
def selected (table : List SegDesc) (selector : ℕ) : Segment := segment (table.getD (selector / 8) 0)

/-- KERNEL_TSS -/
abbrev kernelTss : ℕ := 0x30
/-- KERNEL_LDT -/
abbrev kernelLdt : ℕ := 0x38

/-- The two macros put the base and the low 20 bits of the limit in, and leave the rest. -/
theorem segment_setParams (d : SegDesc) (addr lim : BitVec 32) : segment (setParams d addr lim) =
    { segment d with base := addr, limit := lim.setWidth 20 } := by
  have hb31 : ((addr &&& 0xFF000000) >>> 24).setWidth 8 = (BitField.mk 24 8).get addr :=
    BitField.get_of_mask addr 24 8 (by decide)
  have hb23 : ((addr &&& 0x00FF0000) >>> 16).setWidth 8 = (BitField.mk 16 8).get addr :=
    BitField.get_of_mask addr 16 8 (by decide)
  have hb15 : (addr &&& 0x0000FFFF).setWidth 16 = (BitField.mk 0 16).get addr := by
    rw [← BitField.get_of_mask addr 0 16 (m := 0x0000FFFF) (by decide), BitVec.ushiftRight_zero]
  have hl19 : ((lim &&& 0x000F0000) >>> 16).setWidth 4 = (BitField.mk 16 4).get lim :=
    BitField.get_of_mask lim 16 4 (by decide)
  have hl15 : (lim &&& 0x0000FFFF).setWidth 16 = (BitField.mk 0 16).get lim := by
    rw [← BitField.get_of_mask lim 0 16 (m := 0x0000FFFF) (by decide), BitVec.ushiftRight_zero]
  have hbase : (BitField.mk 24 8).get addr ++ (BitField.mk 16 8).get addr ++ (BitField.mk 0 16).get addr = addr := by
    have h24 := BitField.get_split addr 16 8 8
    have h16 := BitField.get_split addr 0 16 16
    calc (BitField.mk 24 8).get addr ++ (BitField.mk 16 8).get addr ++ (BitField.mk 0 16).get addr
        = (BitField.mk 16 16).get addr ++ (BitField.mk 0 16).get addr := by rw [← h24]
      _ = (BitField.mk 0 32).get addr := h16.symm
      _ = addr := BitField.get_whole addr
  have hlim : (BitField.mk 16 4).get lim ++ (BitField.mk 0 16).get lim = lim.setWidth 20 := by
    rw [← BitField.get_split lim 0 16 4]
    exact (BitVec.setWidth_eq_extractLsb' (by decide)).symm
  unfold segment setParams
  simp (disch := decide) only [BitField.get_set_same, BitField.get_set_apart]
  rw [hb31, hb23, hb15, hl19, hl15, hbase, hlim]

/-- **The segments.** Whatever the stack held and wherever the two tables lie, the selectors
the kernel uses name the segments meant: the whole memory for kernel and user code and
data, user segments for level 3, a present LDT and a present TSS at the addresses and
with the limits given. -/
theorem segments_decode (stack₁ stack₂ : SegDesc) (ldt ldtSize tss size : BitVec 32) :
    let table := gdt (tssDescriptor stack₂ tss size) (ldtDescriptor stack₁ ldt ldtSize)
    selected table kernelLdt = ⟨ldt, ldtSize.setWidth 20, 0, 1, 0, 0, 2⟩ ∧
    selected table kernelTss = ⟨tss, size.setWidth 20, 0, 1, 0, 0, 9⟩ ∧
    selected table kernelCS = ⟨0, 0xFFFFF, 1, 1, 0, 1, 0xA⟩ ∧ selected table kernelDS = ⟨0, 0xFFFFF, 1, 1, 0, 1, 2⟩ ∧
    selected table userCS = ⟨0, 0xFFFFF, 1, 1, 3, 1, 0xA⟩ ∧ selected table userDS = ⟨0, 0xFFFFF, 1, 1, 3, 1, 2⟩ := by
  refine ⟨?_, ?_, ?_, ?_, ?_, ?_⟩
  · show segment (setParams _ ldt ldtSize) = _
    rw [segment_setParams]
    unfold segment
    simp (disch := decide) only [BitField.get_set_same, BitField.get_set_apart]
  · show segment (setParams _ tss size) = _
    rw [segment_setParams]
    unfold segment
    simp (disch := decide) only [BitField.get_set_same, BitField.get_set_apart]
  · show segment 0x00CF9A000000FFFF = _
    decide
  · show segment 0x00CF92000000FFFF = _
    decide
  · show segment 0x00CFFA000000FFFF = _
    decide
  · show segment 0x00CFF2000000FFFF = _
    decide

end Mp3Kernel
