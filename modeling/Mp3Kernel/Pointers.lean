/-
# Pointers

`read` and `getargs` store at any buffer that is not NULL, in ring 0, and the page
tables of every process let the kernel write all PCBs (`kernelWalk_pcb`). `vidmap` checks
that its pointer lies in the program's page; these two do not.

So the kernel gets addresses here: a call brings the address of its buffer, and a store of
the kernel changes the PCB of another process if that is where it goes. The bytes of a PCB
are those of `pcb_t`, its words little-endian; the function pointers of the jump tables and
the padding are not followed, nor is a store to other memory of the kernel.

A store the program could have made itself (`Writable`) changes nothing of the kernel. Where
a step will store is known before it is taken (`readStores`, `getargsStores`), and a run in
which `read` and `getargs` make no other stores (`OwnBuffer`) is a run of the kernel
(`history_plain`), in which descriptors are isolated and arguments come back. With one other store neither holds
(`stray_read_shows`, `stray_getargs_shows`).

Key definitions: `Pcb.poke`, `Writable`, `Kernel.store`, `readStores`, `stepAt`, `OwnBuffer`.
Key theorems: `length_of_readBody`, `history_plain`, `getargs_into_pcb`, `isolation`,
`argument_round_trip`.
-/
import Mp3Kernel.Basis.Fields
import Mp3Kernel.Arguments
import Mp3Kernel.Containment
import Mp3Kernel.Frames
import Mp3Kernel.Isolation

namespace Mp3Kernel

open Past Bits

/-! ### The bytes of a PCB -/

/-- Byte `i` of a word. -/
abbrev byteField (i : ℕ) : BitField := ⟨8 * i, 8⟩

/-- Byte `i` of a word in memory. -/
def byteAt (w : BitVec 32) (i : ℕ) : UInt8 := ⟨(byteField i).get w⟩

/-- The word with its byte `i` overwritten. -/
def setByteAt (w : BitVec 32) (i : ℕ) (c : UInt8) : BitVec 32 := (byteField i).set w c.toBitVec

/-- The byte of a slot at an offset; those of the jump table are addresses of functions. -/
def Fd.peek (fd : Fd) (o : ℕ) : Option UInt8 :=
  match o / 4 with
  | 4 => some (byteAt fd.inode.toBitVec (o % 4))
  | 5 => some (byteAt fd.fileType.toBitVec (o % 4))
  | 6 => some (byteAt fd.filePosition.toBitVec (o % 4))
  | 7 => some (byteAt fd.flags.toBitVec (o % 4))
  | _ => none

/-- A store of one byte into a slot. -/
def Fd.poke (fd : Fd) (o : ℕ) (c : UInt8) : Option Fd :=
  match o / 4 with
  | 4 => some { fd with inode := .ofBitVec (setByteAt fd.inode.toBitVec (o % 4) c) }
  | 5 => some { fd with fileType := .ofBitVec (setByteAt fd.fileType.toBitVec (o % 4) c) }
  | 6 => some { fd with filePosition := .ofBitVec (setByteAt fd.filePosition.toBitVec (o % 4) c) }
  | 7 => some { fd with flags := .ofBitVec (setByteAt fd.flags.toBitVec (o % 4) c) }
  | _ => none

/-- The offset of `file_array` -/
abbrev fileArrayAt : ℕ := argsSize
/-- sizeof(fd_t) -/
abbrev fdSize : ℕ := 32
/-- The offset of `pid`, behind `file_array`: the four `int8_t` are padded to words. -/
abbrev pidAt : ℕ := fileArrayAt + maxOpenFiles * fdSize

/-- The byte of a `pcb_t` at an offset. -/
def Pcb.peek (b : Pcb) (o : ℕ) : Option UInt8 :=
  if o < fileArrayAt then b.args[o]?
  else if h : (o - fileArrayAt) / fdSize < maxOpenFiles then
    (b.fileArray ⟨(o - fileArrayAt) / fdSize, h⟩).peek ((o - fileArrayAt) % fdSize)
  else
    match o - pidAt with
    | 0 => some (Int8.ofInt b.pid).toUInt8
    | 1 => some (Int8.ofInt b.leaf).toUInt8
    | 20 => some (Int8.ofInt b.parentPid).toUInt8
    | 21 => some (Int8.ofInt b.terminal).toUInt8
    | _ =>
      match (o - pidAt) / 4 with
      | 1 => some (byteAt (BitVec.ofNat 32 b.parentEsp) (o % 4))
      | 2 => some (byteAt (BitVec.ofNat 32 b.parentEbp) (o % 4))
      | 3 => some (byteAt (BitVec.ofNat 32 b.savedEsp) (o % 4))
      | 4 => some (byteAt (BitVec.ofNat 32 b.savedEbp) (o % 4))
      | _ => none

/-- A store of one byte into a `pcb_t`. -/
def Pcb.poke (b : Pcb) (o : ℕ) (c : UInt8) : Option Pcb :=
  if o < fileArrayAt then
    if o < b.args.length then some { b with args := b.args.set o c } else none
  else if h : (o - fileArrayAt) / fdSize < maxOpenFiles then
    let i : Fin maxOpenFiles := ⟨(o - fileArrayAt) / fdSize, h⟩
    ((b.fileArray i).poke ((o - fileArrayAt) % fdSize) c).map fun fd =>
      { b with fileArray := Function.update b.fileArray i fd }
  else
    match o - pidAt with
    | 0 => some { b with pid := c.toInt8.toInt }
    | 1 => some { b with leaf := c.toInt8.toInt }
    | 20 => some { b with parentPid := c.toInt8.toInt }
    | 21 => some { b with terminal := c.toInt8.toInt }
    | _ =>
      match (o - pidAt) / 4 with
      | 1 => some { b with parentEsp := (setByteAt (BitVec.ofNat 32 b.parentEsp) (o % 4) c).toNat }
      | 2 => some { b with parentEbp := (setByteAt (BitVec.ofNat 32 b.parentEbp) (o % 4) c).toNat }
      | 3 => some { b with savedEsp := (setByteAt (BitVec.ofNat 32 b.savedEsp) (o % 4) c).toNat }
      | 4 => some { b with savedEbp := (setByteAt (BitVec.ofNat 32 b.savedEbp) (o % 4) c).toNat }
      | _ => none

theorem byteAt_setByteAt {w : BitVec 32} {i : ℕ} (hi : i < 4) (c : UInt8) : byteAt (setByteAt w i c) i = c := by
  have hfit : (byteField i).Fits 32 := by
    unfold byteField BitField.Fits
    simp only
    omega
  exact congrArg UInt8.ofBitVec (BitField.get_set_same _ _ _ hfit)

theorem Fd.peek_poke {fd fd' : Fd} {o : ℕ} {c : UInt8} (h : fd.poke o c = some fd') : fd'.peek o = some c := by
  have hbyte : ∀ w, byteAt (setByteAt w (o % 4) c) (o % 4) = c :=
    fun w => byteAt_setByteAt (Nat.mod_lt _ (by decide)) c
  unfold Fd.poke at h
  unfold Fd.peek
  split at h
  · obtain rfl := Option.some.inj h
    simp only [Int32.toBitVec_ofBitVec, hbyte]
  · obtain rfl := Option.some.inj h
    simp only [Int32.toBitVec_ofBitVec, hbyte]
  · obtain rfl := Option.some.inj h
    simp only [Int32.toBitVec_ofBitVec, hbyte]
  · obtain rfl := Option.some.inj h
    simp only [hbyte]
  · cases h

/-- A byte stored into a PCB is read back. -/
theorem Pcb.peek_poke {b b' : Pcb} {o : ℕ} {c : UInt8} (h : b.poke o c = some b') : b'.peek o = some c := by
  have hbyte : ∀ w, byteAt (setByteAt w (o % 4) c) (o % 4) = c :=
    fun w => byteAt_setByteAt (Nat.mod_lt _ (by decide)) c
  have hword : ∀ w, byteAt (BitVec.ofNat 32 (setByteAt w (o % 4) c).toNat) (o % 4) = c := fun w => by
    rw [BitVec.ofNat_toNat, BitVec.setWidth_eq, hbyte]
  unfold Pcb.poke at h
  unfold Pcb.peek
  split_ifs at h with hargs hlen hfd
  · obtain rfl := Option.some.inj h
    rw [if_pos hargs, List.getElem?_set_self hlen]
  · obtain ⟨fd, hpoke, rfl⟩ := Option.map_eq_some_iff.mp h
    rw [if_neg hargs, dif_pos hfd]
    simp only [Function.update_self]
    exact Fd.peek_poke hpoke
  · rw [if_neg hargs, dif_neg hfd]
    split at h
    · obtain rfl := Option.some.inj h
      simp
    · obtain rfl := Option.some.inj h
      simp
    · obtain rfl := Option.some.inj h
      simp
    · obtain rfl := Option.some.inj h
      simp
    · split at h
      · obtain rfl := Option.some.inj h
        simp only [hword]
      · obtain rfl := Option.some.inj h
        simp only [hword]
      · obtain rfl := Option.some.inj h
        simp only [hword]
      · obtain rfl := Option.some.inj h
        simp only [hword]
      · cases h

/-! ### Addresses -/

/-- The addresses a program can write itself: its page, and the video page. -/
def Writable (v : UInt32) : Prop := 0x08000000 ≤ v.toNat ∧ v.toNat < 0x08401000

instance (v : UInt32) : Decidable (Writable v) := by unfold Writable; infer_instance

/-- The addresses of the PCBs. -/
def InPcb (a : ℕ) : Prop := pcbAddr 5 ≤ a ∧ a < 0x800000 ∧ a < maskPcb a + pcbSize

instance (a : ℕ) : Decidable (InPcb a) := by unfold InPcb; infer_instance

section Walks

variable {pl : Placement} {t : Tables} {p : ℤ}

/-- The addresses a program can write itself are those the page tables let it write. -/
theorem writable_iff_walk (ht : t.userVidPageTable = fun _ => 0) (hp : IsPid p) (v : UInt32) :
    Writable v ↔ (walk pl (tablesFor pl t p) true v).isSome := by
  rw [walk_tablesFor ht hp]
  unfold Writable userMap
  split_ifs with h1 h2
  · simp only [Option.map_some, Option.isSome_some, iff_true]
    omega
  · simp only [Option.isSome_some, iff_true]
    omega
  · simp only [Option.isSome_none, Bool.false_eq_true, iff_false]
    omega

/-- The kernel reaches every PCB at its address, whichever process runs. -/
theorem kernelWalk_pcb {v : UInt32} (h : InPcb v.toNat) : kernelWalk pl (tablesFor pl t p) v = some v.toNat := by
  obtain ⟨hlow, hhigh, -⟩ := h
  have h5 := pcbAddr_cast (show IsPid 5 by decide)
  have hindex : v.toNat / 0x400000 = 1 := by omega
  have hpde := @tablesFor_pageDirectory pl t p 1 (by decide)
  simp only [show (1 : ℕ) ≠ 32 by decide, show (1 : ℕ) ≠ 33 by decide, show ¬ 2 ≤ 1 by decide, if_false,
    if_true] at hpde
  have hbase : ((kernelLoc ||| pdePS ||| defaultPte) &&& 0xFFC00000).toNat = 0x400000 := by decide
  unfold kernelWalk
  simp only [hindex, hpde]
  rw [if_pos (by decide), if_pos (by decide), hbase]
  exact congrArg some (by omega)

end Walks

/-! ### Stores of the kernel -/

/-- The byte at an address that lies in a PCB. -/
def Kernel.peek (k : Kernel) (v : UInt32) : Option UInt8 :=
  if InPcb v.toNat then (k.pcb (maskPcb v.toNat)).peek (v.toNat - maskPcb v.toNat) else none

/-- A store of one byte by the kernel, for the process that runs. Into the process's own
memory it changes nothing here, into the PCB of another it does; any other is a page
fault, or goes to memory of the kernel that is not followed. -/
def Kernel.store (k : Kernel) (v : UInt32) (c : UInt8) : Option Kernel :=
  if Writable v then some k
  else if InPcb v.toNat ∧ maskPcb v.toNat ≠ pcbAddr k.running then
    ((k.pcb (maskPcb v.toNat)).poke (v.toNat - maskPcb v.toNat) c).map fun b => k.setPcb (maskPcb v.toNat) fun _ => b
  else none

/-- Stores one after the other. -/
def Kernel.storeAll (k : Kernel) (l : List (UInt32 × UInt8)) : Option Kernel :=
  l.foldlM (fun k x => k.store x.1 x.2) k

/-! ### The system with addresses -/

/-- The kernel, and the address of the buffer of the `read` waiting on each kernel stack. -/
structure Addressed where
  kernel : Kernel
  bufAt : ℕ → UInt32

/-- An event, and the address of the buffer it gives, 0 where it gives none. -/
abbrev AddressedEvent := Event × UInt32

/-- The buffer a call is given. -/
def Event.buffer : Event → Option Buf
  | .read _ _ buf _ => buf
  | .getargs _ buf _ => buf
  | _ => none

/-- The buffer a step stores in: where it lies, what it holds, and the offsets stored at. -/
structure Target where
  addr : UInt32
  holds : Buf
  offsets : List ℕ

/-- The addresses stored at. -/
def Target.addresses (tg : Target) : List UInt32 := tg.offsets.map fun i => tg.addr + UInt32.ofNat i

/-- As far as the buffer lies in PCBs, it holds their bytes. -/
def Target.Agrees (k : Kernel) (tg : Target) : Prop :=
  ∀ i < nameSize, (k.peek (tg.addr + UInt32.ofNat i)).getD (tg.holds i) = tg.holds i

instance (k : Kernel) (tg : Target) : Decidable (tg.Agrees k) := by unfold Target.Agrees; infer_instance

/-- How many bytes a read copies to its buffer: what is left of the file, or the bytes of
the next name, as far as asked for, or the line of the keyboard. -/
def copyCount (img : Image) (fd : Fd) (nbytes : Int32) (line : Option Line) : ℕ :=
  let offset := fd.filePosition.toUInt32
  match fd.fopJumpTable.readOp with
  | .terminalRead => (line.map fun l => l.2.length).getD 0
  | .dirRead => ((readDentryByIndex img.boot offset).map fun d => min nbytes.toUInt32.toNat (strlen d.bytes)).getD 0
  | .fileRead =>
    let len := (img.inodes fd.inode.toUInt32.toNat).length
    if fd.inode.toUInt32 ≥ img.boot.numInodes ∨ offset > len then 0
    else (offset + numBytes len offset nbytes.toUInt32).toNat - offset.toNat
  | _ => 0

/-- The offsets `read` stores at: the loop that clears the buffer of a file's or a
directory's read, then the bytes copied. -/
def readStores (img : Image) (fd : Fd) (buf : Buf) (nbytes : Int32) (line : Option Line) : List ℕ :=
  (if fd.fopJumpTable.readOp = .dirRead ∨ fd.fopJumpTable.readOp = .fileRead then clearedAt nameSize 0 buf else []) ++
    List.range (copyCount img fd nbytes line)

theorem length_data_fileRead (img : Image) (fd : Int32) (buf : Buf) (nbytes : Int32) (offset : UInt32) :
    (fileRead img fd buf nbytes offset).data.length =
      if fd.toUInt32 ≥ img.boot.numInodes ∨ offset > (img.inodes fd.toUInt32.toNat).length then 0
      else (offset + numBytes (img.inodes fd.toUInt32.toNat).length offset nbytes.toUInt32).toNat - offset.toNat := by
  unfold fileRead readData numBytes
  by_cases hinode : fd.toUInt32 ≥ img.boot.numInodes
  · simp [hinode]
  · by_cases hoffset : offset > (img.inodes fd.toUInt32.toNat).length
    · simp [hinode, hoffset]
    · simp only [hinode, hoffset, or_self, if_false]
      exact length_readLoop ..

theorem length_data_dirRead (img : Image) (buf : Buf) (nbytes : Int32) (offset : UInt32) :
    (dirRead img buf nbytes offset).data.length =
      ((readDentryByIndex img.boot offset).map fun d => min nbytes.toUInt32.toNat (strlen d.bytes)).getD 0 := by
  unfold dirRead
  cases readDentryByIndex img.boot offset with
  | none => rfl
  | some d =>
    have hlen := strlen_le_length d.bytes
    rw [length_bytes] at hlen
    simp only [Option.map_some, Option.getD_some]
    rw [length_strncpy]
    split_ifs with hbig
    · rw [min_eq_right (by omega), Int32.toUInt32_ofNat', UInt32.toNat_ofNat']
      omega
    · rw [min_eq_left (by omega)]

/-- A read copies as many bytes as it is counted for. -/
theorem length_of_readBody {img : Image} {fa fa' : FileArray} {i : Fin maxOpenFiles} {buf : Buf} {nbytes : Int32}
    {line : Option Line} {got : Delivery} (h : readBody img fa i buf nbytes line = some (got, fa')) :
    got.data.length = copyCount img (fa i) nbytes line := by
  unfold readBody at h
  split at h
  · cases h
  · rename_i got' hgot
    obtain ⟨rfl, -⟩ := Prod.mk.inj (Option.some.inj h)
    unfold copyCount
    cases line <;> cases hop : (fa i).fopJumpTable.readOp <;> rw [hop] at hgot <;>
      simp only [callRead, Option.some.injEq, reduceCtorEq] at hgot <;> subst hgot
    · rfl
    · rfl
    · exact length_data_dirRead ..
    · exact length_data_fileRead img (fa i).inode buf nbytes (fa i).filePosition.toUInt32
    · rfl

/-- The buffer an event makes the kernel store in. -/
def Addressed.target (img : Image) (s : Addressed) : AddressedEvent → Option Target
  | (.readDone line, _) => (s.kernel.reading (maskPcb s.kernel.cpu.esp)).map fun call =>
      { addr := s.bufAt (maskPcb s.kernel.cpu.esp)
        holds := call.buf
        offsets := readStores img ((s.kernel.pcb call.pcb).fileArray call.slot) call.buf call.nbytes line }
  | (.getargs _ (some buf) nbytes, v) => some ⟨v, buf, getargsStores s.kernel (some buf) nbytes⟩
  | _ => none

/-- The addresses an event makes the kernel store at, in a buffer. -/
def Addressed.addresses (img : Image) (s : Addressed) (e : AddressedEvent) : List UInt32 :=
  ((s.target img e).map Target.addresses).getD []

/-- The stores themselves, the step having ended in `out`. -/
def Addressed.stores (img : Image) (s : Addressed) (e : AddressedEvent) (out : Outcome) : List (UInt32 × UInt8) :=
  ((s.target img e).map fun tg => tg.offsets.map fun i => (tg.addr + UInt32.ofNat i, out.bufAfter tg.holds i)).getD []

/-- One event; NULL is the address 0. -/
def stepAt (img : Image) (s : Addressed) (e : AddressedEvent) : Option (Addressed × Outcome) :=
  if e.1.buffer.isNone = decide (e.2 = 0) ∧ ∀ tg ∈ s.target img e, tg.Agrees s.kernel then
    (step img s.kernel e.1).bind fun r =>
      (r.1.storeAll (s.stores img e r.2)).map fun k =>
        (⟨k, match r.2 with
          | .waiting => Function.update s.bufAt (maskPcb r.1.cpu.esp) e.2
          | _ => s.bufAt⟩, r.2)
  else none

/-- The steps of a run, newest first. -/
abbrev AddressedTrace := List (Past.Entry Addressed (AddressedEvent × Outcome))

/-- The run `tr` of the system with addresses ends in `s`. -/
abbrev AddressedHistory (img : Image) (tr : AddressedTrace) (s : Addressed) : Prop :=
  Past.Hist (fun s => Booted img s.kernel) (fun s l s' => stepAt img s l.1 = some (s', l.2)) tr s

/-- All that the step stores in a buffer, it stores in memory the caller can write itself. -/
def OwnBuffer (img : Image) (e : Past.Entry Addressed (AddressedEvent × Outcome)) : Prop :=
  ∀ v ∈ e.before.addresses img e.label.1, Writable v

instance (img : Image) (e : Past.Entry Addressed (AddressedEvent × Outcome)) : Decidable (OwnBuffer img e) :=
  List.decidableBAll Writable (e.before.addresses img e.label.1)

/-- The run without the addresses. -/
def plain (tr : AddressedTrace) : Trace :=
  tr.map fun e => ⟨e.before.kernel, (e.label.1.1, e.label.2), e.after.kernel⟩

theorem storeAll_own (k : Kernel) : ∀ l : List (UInt32 × UInt8), (∀ x ∈ l, Writable x.1) → k.storeAll l = some k
  | [], _ => rfl
  | x :: l, h => by
    obtain ⟨hx, hl⟩ := List.forall_mem_cons.mp h
    have hstore : k.store x.1 x.2 = some k := if_pos hx
    unfold Kernel.storeAll
    rw [List.foldlM_cons, hstore]
    exact storeAll_own k l hl

theorem stores_own {img : Image} {s : Addressed} {e : AddressedEvent} (hown : ∀ v ∈ s.addresses img e, Writable v)
    (out : Outcome) : ∀ x ∈ s.stores img e out, Writable x.1 := by
  unfold Addressed.stores Addressed.addresses at *
  cases htg : s.target img e with
  | none => simp
  | some tg =>
    rw [htg] at hown
    intro x hx
    obtain ⟨i, hi, rfl⟩ := List.mem_map.mp hx
    exact hown _ (List.mem_map_of_mem hi)

theorem step_of_stepAt {img : Image} {s s' : Addressed} {e : AddressedEvent} {out : Outcome}
    (h : stepAt img s e = some (s', out)) (hown : ∀ v ∈ s.addresses img e, Writable v) :
    step img s.kernel e.1 = some (s'.kernel, out) := by
  unfold stepAt at h
  split_ifs at h with hbuf
  obtain ⟨r, hr, hmap⟩ := Option.bind_eq_some_iff.mp h
  rw [storeAll_own r.1 _ (stores_own hown _), Option.map_some] at hmap
  obtain ⟨rfl, rfl⟩ := Prod.mk.inj (Option.some.inj hmap)
  exact hr

/-- **The kernel's run.** A run whose stores all go into the callers' own memory is, the
addresses forgotten, a run of the kernel. -/
theorem history_plain {img : Image} {tr : AddressedTrace} {s : Addressed} (h : AddressedHistory img tr s)
    (hown : ∀ e ∈ tr, OwnBuffer img e) : History img (plain tr) s.kernel := by
  induction h with
  | start hb => exact Past.Hist.start hb
  | next _ hst ih =>
    obtain ⟨he, htr⟩ := List.forall_mem_cons.mp hown
    exact Past.Hist.next (ih htr) (step_of_stepAt hst he)

/-! ### getargs into a PCB -/

/-- A list after the stores of `f` at some offsets, one after the other. -/
def setAll (l : List UInt8) (offsets : List ℕ) (f : ℕ → UInt8) : List UInt8 :=
  offsets.foldl (fun l i => l.set i (f i)) l

theorem length_setAll (f : ℕ → UInt8) : ∀ (offsets : List ℕ) (l : List UInt8), (setAll l offsets f).length = l.length
  | [], _ => rfl
  | i :: offsets, l => by
    unfold setAll
    rw [List.foldl_cons]
    exact (length_setAll f offsets _).trans List.length_set

theorem getElem?_setAll (f : ℕ → UInt8) {x : ℕ} : ∀ (offsets : List ℕ) (l : List UInt8), x < l.length →
    (setAll l offsets f)[x]? = if x ∈ offsets then some (f x) else l[x]?
  | [], _, _ => by simp [setAll]
  | i :: offsets, l, hx => by
    unfold setAll
    rw [List.foldl_cons]
    refine (getElem?_setAll f offsets (l.set i (f i)) (by rwa [List.length_set])).trans ?_
    by_cases hmem : x ∈ offsets
    · rw [if_pos hmem, if_pos (List.mem_cons_of_mem _ hmem)]
    · rw [if_neg hmem]
      by_cases hi : i = x
      · subst hi
        rw [List.getElem?_set_self hx, if_pos (List.mem_cons_self ..)]
      · rw [List.getElem?_set_ne hi, if_neg (by simp [hmem, Ne.symm hi])]

theorem setAll_covered {f : ℕ → UInt8} {offsets : List ℕ} {l : List UInt8} (h : ∀ x < l.length, x ∈ offsets) :
    setAll l offsets f = (List.range l.length).map f := by
  apply List.ext_getElem?
  intro x
  by_cases hx : x < l.length
  · rw [getElem?_setAll f offsets l hx, if_pos (h x hx)]
    simp [hx]
  · rw [List.getElem?_eq_none (by rw [length_setAll]; omega), List.getElem?_eq_none (by simpa using hx)]

section Stray

variable {k : Kernel} {p : ℤ}

theorem toNat_pcbAddr_add (hp : IsPid p) {o : ℕ} (ho : o < pcbSize) :
    (UInt32.ofNat (pcbAddr p) + UInt32.ofNat o).toNat = pcbAddr p + o := by
  have hc := pcbAddr_cast hp
  obtain ⟨h0, h6⟩ := hp
  simp only [pcbSize] at ho
  rw [UInt32.toNat_add, UInt32.toNat_ofNat', UInt32.toNat_ofNat']
  omega

/-- A store into the arguments of a process that does not run. -/
theorem store_args (hp : IsPid p) (hr : IsPid k.running) (hne : p ≠ k.running)
    (hlen : (k.pcbOf p).args.length = argsSize) {o : ℕ} (ho : o < argsSize) (c : UInt8) :
    k.store (UInt32.ofNat (pcbAddr p) + UInt32.ofNat o) c =
      some (k.setPcb (pcbAddr p) fun b => { b with args := b.args.set o c }) := by
  have hc := pcbAddr_cast hp
  have h5 := pcbAddr_cast (show IsPid 5 by decide)
  obtain ⟨h0, h6⟩ := id hp
  simp only [argsSize] at ho
  have hnat := toNat_pcbAddr_add hp (show o < pcbSize by simp only [pcbSize]; omega)
  have hmask : maskPcb (pcbAddr p + o) = pcbAddr p := maskPcb_eq hp (by omega) (by omega)
  have hpcb : InPcb (pcbAddr p + o) := by
    unfold InPcb
    rw [hmask]
    simp only [pcbSize]
    omega
  have hout : ¬ Writable (UInt32.ofNat (pcbAddr p) + UInt32.ofNat o) := by
    unfold Writable
    omega
  unfold Kernel.store
  rw [if_neg hout, hnat, hmask, if_pos ⟨hpcb, pcbAddr_ne hp hr hne⟩, Nat.add_sub_cancel_left]
  unfold Pcb.poke
  rw [if_pos ho, if_pos (by rw [show (k.pcb (pcbAddr p)).args.length = argsSize from hlen]; exact ho), Option.map_some]
  rfl

/-- Stores into the arguments of a process that does not run. -/
theorem storeAll_args (hp : IsPid p) (f : ℕ → UInt8) : ∀ (offsets : List ℕ) (k : Kernel), IsPid k.running →
    p ≠ k.running → (k.pcbOf p).args.length = argsSize → (∀ i ∈ offsets, i < argsSize) →
    k.storeAll (offsets.map fun i => (UInt32.ofNat (pcbAddr p) + UInt32.ofNat i, f i)) =
      some (k.setPcb (pcbAddr p) fun b => { b with args := setAll b.args offsets f })
  | [], k, _, _, _, _ => by simp [Kernel.storeAll, setAll, Kernel.setPcb]
  | i :: offsets, k, hr, hne, hlen, hall => by
    obtain ⟨hi, hrest⟩ := List.forall_mem_cons.mp hall
    have hstore := store_args hp hr hne hlen hi (f i)
    unfold Kernel.storeAll
    rw [List.map_cons, List.foldlM_cons]
    simp only [hstore, Option.bind_eq_bind, Option.bind_some]
    refine (storeAll_args hp f offsets (k.setPcb (pcbAddr p) fun b => { b with args := b.args.set i (f i) }) hr hne ?_
      hrest).trans ?_
    · rw [setPcb_pcbOf_same]
      exact List.length_set.trans hlen
    · simp [Kernel.setPcb, setAll]

theorem mem_getargsStores {a : List UInt8} (ha : cstr (k.pcbOf k.running).args = a) (hlen : a.length < argsSize)
    (buf : Buf) {i : ℕ} : i ∈ getargsStores k (some buf) 1024 ↔ i < argsSize := by
  obtain ⟨-, hstores⟩ := getargs_fits ha buf (show (1024 : Int32) ≠ 0 by decide)
    (hlen.le.trans_eq (show argsSize = (1024 : Int32).toUInt32.toNat by decide))
  rw [hstores, List.mem_append, List.mem_range, List.mem_range]
  omega

/-- **A getargs into a PCB.** Given the PCB of a process that does not run as its buffer,
`getargs` replaces that process's arguments by those of its caller. -/
theorem getargs_into_pcb {img : Image} {s : Addressed} (hc : Coherent s.kernel) (hp : IsPid p)
    (hne : p ≠ s.kernel.running) (hlen : (s.kernel.pcbOf p).args.length = argsSize) {a : List UInt8}
    (ha : cstr (s.kernel.pcbOf s.kernel.running).args = a) (hal : a.length < argsSize)
    {f : Frame} {ke : Kernel} (hent : syscallEntry s.kernel f = some ke) {buf : Buf}
    (hbuf : ∀ i < nameSize, (s.kernel.peek (UInt32.ofNat (pcbAddr p) + UInt32.ofNat i)).getD (buf i) = buf i) :
    ∃ got, stepAt img s (.getargs f (some buf) 1024, UInt32.ofNat (pcbAddr p)) =
      some (⟨ke.setPcb (pcbAddr p) fun b => { b with args := padded a }, s.bufAt⟩, .delivered got) := by
  obtain ⟨got, hstep, -, hin, -⟩ := @step_getargs img s.kernel hc a ha hal f ke hent buf
  obtain ⟨he, -⟩ := entered_of_syscall hc hent
  have hargs : (ke.pcb (pcbAddr p)).args.length = argsSize := by
    rw [← hlen]
    exact congrArg (fun b : Pcb => b.args.length) (he.pcbOf p)
  have hset : setAll (ke.pcb (pcbAddr p)).args (getargsStores s.kernel (some buf) 1024) got.buf = padded a := by
    rw [setAll_covered fun x hx => (mem_getargsStores ha hal buf).mpr (hargs ▸ hx), hargs]
    refine List.ext_getElem ?_ fun i hi _ => ?_
    · rw [padded, List.length_append, List.length_replicate, List.length_map, List.length_range]
      omega
    · rw [List.length_map, List.length_range] at hi
      rw [List.getElem_map, List.getElem_range, hin i hi, ← padded_getD a i, List.getD_eq_getElem]
  have hstores := storeAll_args hp got.buf (getargsStores s.kernel (some buf) 1024) ke (he.running ▸ hc.isPid)
    (he.running ▸ hne) hargs fun i hi => (mem_getargsStores ha hal buf).mp hi
  have hvalue : UInt32.ofNat (pcbAddr p) ≠ 0 := by
    intro h0
    have h := toNat_pcbAddr_add hp (show 0 < pcbSize by decide)
    have hcast := pcbAddr_cast hp
    obtain ⟨-, h6⟩ := hp
    rw [h0] at h
    simp at h
    omega
  refine ⟨got, ?_⟩
  unfold stepAt
  rw [if_pos, hstep, Option.bind_some]
  · simp only [Addressed.stores, Addressed.target, Option.map_some, Option.getD_some, Outcome.bufAfter, hstores]
    rw [Kernel.setPcb, hset]
    rfl
  · refine ⟨by simp [Event.buffer, hvalue], fun tg htg => ?_⟩
    obtain rfl := Option.some.inj htg
    exact hbuf

end Stray

/-! ### Isolation -/

/-- As far as both processes have asked for the same, in the same order, they have got the
same return values and the same bytes. -/
def Isolated (p₁ : ℤ) (tr₁ : Trace) (p₂ : ℤ) (tr₂ : Trace) : Prop :=
  asks (logOf p₁ tr₁).served <:+ asks (logOf p₂ tr₂).served →
    answers (logOf p₁ tr₁).served <:+ answers (logOf p₂ tr₂).served

/-- **Descriptor isolation.** Take two runs over one image, whose reads and `getargs` store
in memory their callers can write themselves, and in each a process that `execute`
started, under whatever pid. What the other processes and the timer did in between, and
who had the pids before, does not show in what the two have got. -/
theorem isolation {img : Image} {tr₁ tr₂ : AddressedTrace} {s₁ s₂ : Addressed} {p₁ p₂ : ℤ}
    (h₁ : AddressedHistory img tr₁ s₁) (h₂ : AddressedHistory img tr₂ s₂)
    (hown₁ : ∀ e ∈ tr₁, OwnBuffer img e) (hown₂ : ∀ e ∈ tr₂, OwnBuffer img e)
    (hp₁ : StartedIn p₁ (plain tr₁)) (hp₂ : StartedIn p₂ (plain tr₂)) : Isolated p₁ (plain tr₁) p₂ (plain tr₂) :=
  fun hask => answers_of_asks (history_plain h₁ hown₁) (history_plain h₂ hown₂) hp₁ hp₂ hask

/-- The history and the last state of a run of the small system; events newest first. -/
def smallRunAt (events : List AddressedEvent) : AddressedTrace × Addressed :=
  (Past.run (stepAt smallImage) ⟨smallKernel, fun _ => 0⟩ events).getD ([], ⟨smallKernel, fun _ => 0⟩)

theorem history_smallRunAt (events : List AddressedEvent) :
    AddressedHistory smallImage (smallRunAt events).1 (smallRunAt events).2 := by
  unfold smallRunAt
  cases h : Past.run (stepAt smallImage) ⟨smallKernel, fun _ => 0⟩ events with
  | none => exact Past.Hist.start booted_smallKernel
  | some r =>
    refine Past.hist_of_run ?_ h
    exact booted_smallKernel

/-- A shell starts another one, which opens the file "shell" and reads four bytes. -/
def openRead : List AddressedEvent :=
  [(.readDone none, 0), (.read (frameOf 3) 2 (some fun _ => 0) 4, 0x8048000),
    (.openFile (frameOf 3) (some shellName), 0), (.execute (frameOf 0) zeros (some shellName), 0)]

/-- The same, but an earlier process of pid 3 left the file open, and while the read
waits every terminal gets its turn. -/
def openReadLater : List AddressedEvent :=
  [(.readDone none, 0), (.pitInt (frameOf 2), 0), (.pitInt (frameOf 1), 0),
    (.pitInt ⟨stackTop 3 - 400, stackTop 3 - 300, fun _ => 7⟩, 0),
    (.read (frameOf 3) 2 (some fun _ => 7) 4, 0x8048100), (.openFile (frameOf 3) (some shellName), 0),
    (.execute (frameOf 0) zeros (some shellName), 0), (.halt (frameOf 3) zeros 0, 0),
    (.openFile (frameOf 3) (some shellName), 0), (.execute (frameOf 0) zeros (some shellName), 0)]

theorem isolation_openRead :
    answers (logOf 3 (plain (smallRunAt openRead).1)).served = [some (4, elfMagic), some (2, [])] ∧
      Isolated 3 (plain (smallRunAt openRead).1) 3 (plain (smallRunAt openReadLater).1) := by
  refine ⟨by decide +kernel, isolation (history_smallRunAt openRead) (history_smallRunAt openReadLater) ?_ ?_ ?_ ?_⟩
  · decide +kernel
  · decide +kernel
  · decide +kernel
  · decide +kernel

/-- Where the PCB of process 3 holds the file position of its descriptor 2. -/
abbrev positionOf3 : UInt32 := 0x7F8000 + 1024 + 2 * 32 + 24

/-- The new shell opens the file "shell"; then the third terminal's shell does so too and
reads four bytes to `positionOf3`, and the new one reads. -/
def strayRead : List AddressedEvent :=
  [(.readDone none, 0), (.read (frameOf 3) 2 (some fun _ => 0) 4, 0x8048000), (.pitInt (frameOf 2), 0),
    (.readDone none, 0),
    (.read (frameOf 2) 0 (some fun i => if i = 4 then 1 else if 28 ≤ i then 0xFF else 0) 4, positionOf3),
    (.openFile (frameOf 2) (some shellName), 0), (.pitInt (frameOf 1), 0), (.pitInt (frameOf 3), 0),
    (.openFile (frameOf 3) (some shellName), 0), (.execute (frameOf 0) zeros (some shellName), 0)]

/-- `read` takes any buffer but NULL, and the kernel may write every PCB: after the other
shell's read the new one's read returns -1, without it four bytes. -/
theorem stray_read_shows :
    (AddressedHistory smallImage (smallRunAt openRead).1 (smallRunAt openRead).2 ∧
      AddressedHistory smallImage (smallRunAt strayRead).1 (smallRunAt strayRead).2) ∧
      (StartedIn 3 (plain (smallRunAt openRead).1) ∧ StartedIn 3 (plain (smallRunAt strayRead).1)) ∧
      answers (logOf 3 (plain (smallRunAt openRead).1)).served = [some (4, elfMagic), some (2, [])] ∧
      answers (logOf 3 (plain (smallRunAt strayRead).1)).served = [some (-1, []), some (2, [])] ∧
      ¬ Isolated 3 (plain (smallRunAt openRead).1) 3 (plain (smallRunAt strayRead).1) := by
  refine ⟨⟨history_smallRunAt openRead, history_smallRunAt strayRead⟩, ⟨?_, ?_⟩, ?_, ?_, fun h => absurd (h ?_) ?_⟩
  all_goals decide +kernel

/-! ### The round trip of the arguments -/

/-- A `getargs` of 1024 bytes in the state `s` returns 0, leaves exactly the arguments
`a` in the buffer, followed by NULs, and writes nothing behind them. -/
def GetsArgs (img : Image) (s : Addressed) (f : Frame) (buf : Buf) (v : UInt32) (a : List UInt8) : Prop :=
  ∃ s' got, stepAt img s (.getargs f (some buf) 1024, v) = some (s', .delivered got) ∧ got.ret = 0 ∧
    (∀ i < 1024, got.buf i = a.getD i 0) ∧ ∀ i, 1024 ≤ i → got.buf i = buf i

/-- **Argument round trip.** Take a run whose reads and `getargs` store in memory their
callers can write themselves, in which `execute` has created the process `p` from a name
of at most 32 bytes, a space and arguments of at most 1023 bytes, and a state of it in
which `p`'s program runs. A `getargs` with such a buffer of 1024 bytes returns 0 there,
leaves exactly the arguments in the buffer, followed by NULs, and writes nothing behind
them. -/
theorem argument_round_trip {img : Image} {tr : AddressedTrace} {s : Addressed} {p : ℤ}
    (h : AddressedHistory img tr s) (hown : ∀ e ∈ tr, OwnBuffer img e) {name a rest : List UInt8}
    (hcmd : commandOf p (plain tr) = some (name ++ 0x20 :: (a ++ 0 :: rest)))
    (hname : ∀ c ∈ name, c ≠ 0x20) (hn : name.length ≤ 32) (ha : ∀ c ∈ a, c ≠ 0) (hlen : a.length ≤ 1023)
    (hmaps : Maps (s.kernel.pageDirectory userProcessIndex) ((p + 2) * 0x400000).toNat)
    {f : Frame} (hent : (syscallEntry s.kernel f).isSome) (buf : Buf) {v : UInt32}
    (hv : ∀ i < 1024, Writable (v + UInt32.ofNat i)) : GetsArgs img s f buf v a := by
  have hplain := history_plain h hown
  obtain ⟨forest, hrep⟩ := rep_of_history hplain
  obtain ⟨ke, hke⟩ := Option.isSome_iff_exists.mp hent
  have hargs := args_of_running hplain hcmd hname hn ha hlen hmaps
  have hfit : a.length < argsSize := by
    simp only [argsSize]
    omega
  have hcstr : cstr (s.kernel.pcbOf s.kernel.running).args = a := by rw [hargs, cstr_padded ha hfit]
  obtain ⟨got, hstep, hret, hin, hout⟩ := @step_getargs img s.kernel hrep.coherent a hcstr hfit f ke hke buf
  have hown : ∀ x ∈ s.addresses img (.getargs f (some buf) 1024, v), Writable x := by
    intro x hx
    obtain ⟨i, hi, rfl⟩ := List.mem_map.mp hx
    exact hv i ((mem_getargsStores hcstr hfit buf).mp hi)
  have hv0 : v ≠ 0 := by
    rintro rfl
    exact absurd (hv 0 (by decide)) (by decide)
  refine ⟨⟨ke, s.bufAt⟩, got, ?_, hret, hin, hout⟩
  unfold stepAt
  rw [if_pos, hstep, Option.bind_some]
  · rw [storeAll_own ke _ (stores_own hown _)]
    rfl
  · refine ⟨by simp [Event.buffer, hv0], fun tg htg i hi => ?_⟩
    obtain rfl := Option.some.inj htg
    have hpcb : ¬ InPcb (v + UInt32.ofNat i).toNat := by
      have hw := hv i (hi.trans (by decide))
      unfold Writable at hw
      unfold InPcb
      omega
    unfold Kernel.peek
    rw [if_neg hpcb]
    rfl

/-- A shell with the argument "x", which runs one with the argument "y"; that one
asks for it and halts, and every terminal gets its turn. -/
def shellArgsAt : List AddressedEvent :=
  [(.pitInt (frameOf 2), 0), (.pitInt (frameOf 1), 0), (.pitInt (frameOf 3), 0), (.halt (frameOf 4) zeros 0, 0),
    (.getargs (frameOf 4) (some fun _ => 7) 1024, 0x8048000),
    (.execute (frameOf 3) zeros (some (shellName.take 5 ++ 0x20 :: ([0x79] ++ 0 :: []))), 0),
    (.execute (frameOf 0) zeros (some (shellName.take 5 ++ 0x20 :: ([0x78] ++ 0 :: []))), 0)]

theorem argument_round_trip_shellArgs :
    (smallRunAt shellArgsAt).2.kernel.running = 3 ∧
      GetsArgs smallImage (smallRunAt shellArgsAt).2 (frameOf 3) (fun _ => 7) 0x8048000 [0x78] := by
  have hcmd : commandOf 3 (plain (smallRunAt shellArgsAt).1) =
      some (shellName.take 5 ++ 0x20 :: ([0x78] ++ 0 :: [])) := by
    decide +kernel
  refine ⟨by decide +kernel, argument_round_trip (history_smallRunAt shellArgsAt) (by decide +kernel) hcmd
    (by simp [shellName]) (by decide) (by simp) (by decide) (by decide +kernel) (by decide +kernel) _ fun i hi => ?_⟩
  have hnat : ((0x8048000 : UInt32) + UInt32.ofNat i).toNat = 0x8048000 + i := by
    rw [UInt32.toNat_add, UInt32.toNat_ofNat']
    show (0x8048000 + i % 2 ^ 32) % 2 ^ 32 = 0x8048000 + i
    omega
  unfold Writable
  omega

theorem getargs_of_stepAt {img : Image} {s s' : Addressed} {f : Frame} {buf : Option Buf} {nbytes : Int32}
    {v : UInt32} {out : Outcome} (h : stepAt img s (.getargs f buf nbytes, v) = some (s', out)) :
    ∃ ke, syscallEntry s.kernel f = some ke ∧ getargs ke buf nbytes = out := by
  unfold stepAt at h
  split_ifs at h
  obtain ⟨r, hr, hmap⟩ := Option.bind_eq_some_iff.mp h
  obtain ⟨k, -, hk⟩ := Option.map_eq_some_iff.mp hmap
  obtain ⟨ke, hke, rfl⟩ := Option.map_eq_some_iff.mp hr
  exact ⟨ke, hke, congrArg Prod.snd hk⟩

/-- One more event of a run of the small system. -/
theorem smallRunAt_cons {events : List AddressedEvent} {e : AddressedEvent} {s' : Addressed} {out : Outcome}
    (hrun : (Past.run (stepAt smallImage) ⟨smallKernel, fun _ => 0⟩ events).isSome)
    (hstep : stepAt smallImage (smallRunAt events).2 e = some (s', out)) :
    (Past.run (stepAt smallImage) ⟨smallKernel, fun _ => 0⟩ (e :: events)).isSome ∧
      smallRunAt (e :: events) = (⟨(smallRunAt events).2, (e, out), s'⟩ :: (smallRunAt events).1, s') := by
  obtain ⟨r, hr⟩ := Option.isSome_iff_exists.mp hrun
  have hsmall : smallRunAt events = r := by
    unfold smallRunAt
    rw [hr, Option.getD_some]
  rw [hsmall] at hstep ⊢
  have hcons : Past.run (stepAt smallImage) ⟨smallKernel, fun _ => 0⟩ (e :: events) =
      some (⟨r.2, (e, out), s'⟩ :: r.1, s') := by
    rw [Past.run, hr]
    simp only [hstep]
  unfold smallRunAt
  rw [hcons]
  exact ⟨rfl, rfl⟩

/-- While the third terminal's shell runs, the new shell has the argument "x". -/
def beforeStray : List AddressedEvent :=
  [(.pitInt (frameOf 1), 0), (.pitInt (frameOf 3), 0),
    (.execute (frameOf 0) zeros (some (shellName.take 5 ++ 0x20 :: ([0x78] ++ 0 :: []))), 0)]

/-- That shell, which has no arguments, asks for them with the PCB of process 3 as its
buffer. -/
def strayGetargs : AddressedEvent :=
  (.getargs (frameOf 2) (some fun i => if i = 0 then 0x78 else 0) 1024, UInt32.ofNat (pcbAddr 3))

/-- Then process 3 runs. -/
def strayArgs : List AddressedEvent := (.pitInt (frameOf 2), 0) :: strayGetargs :: beforeStray

/-- The state after the stray `getargs`. -/
def afterStray : Addressed :=
  ⟨((syscallEntry (smallRunAt beforeStray).2.kernel (frameOf 2)).getD offKernel).setPcb (pcbAddr 3) fun b =>
    { b with args := padded [] }, (smallRunAt beforeStray).2.bufAt⟩

theorem step_strayGetargs :
    ∃ got, stepAt smallImage (smallRunAt beforeStray).2 strayGetargs = some (afterStray, .delivered got) := by
  obtain ⟨ke, hke⟩ : ∃ ke, syscallEntry (smallRunAt beforeStray).2.kernel (frameOf 2) = some ke :=
    Option.isSome_iff_exists.mp (by decide +kernel)
  obtain ⟨forest, hrep⟩ := rep_of_history (history_plain (history_smallRunAt beforeStray) (by decide +kernel))
  obtain ⟨got, hgot⟩ := @getargs_into_pcb 3 smallImage (smallRunAt beforeStray).2 hrep.coherent (by decide)
    (by decide +kernel) (by decide +kernel) [] (by decide +kernel) (by decide) (frameOf 2) ke hke
    (fun i => if i = 0 then 0x78 else 0) (by decide +kernel)
  refine ⟨got, hgot.trans ?_⟩
  unfold afterStray
  rw [hke, Option.getD_some]

theorem smallRunAt_strayArgs : ∃ got s out, stepAt smallImage afterStray (.pitInt (frameOf 2), 0) = some (s, out) ∧
    smallRunAt strayArgs = (⟨afterStray, ((.pitInt (frameOf 2), 0), out), s⟩ ::
      ⟨(smallRunAt beforeStray).2, (strayGetargs, .delivered got), afterStray⟩ :: (smallRunAt beforeStray).1, s) := by
  obtain ⟨got, hgot⟩ := step_strayGetargs
  obtain ⟨hrun, hstray⟩ := smallRunAt_cons (by decide +kernel) hgot
  obtain ⟨⟨s, out⟩, hturn⟩ : ∃ r, stepAt smallImage afterStray (.pitInt (frameOf 2), 0) = some r :=
    Option.isSome_iff_exists.mp (by decide +kernel)
  have hthere : (smallRunAt (strayGetargs :: beforeStray)).2 = afterStray := congrArg Prod.snd hstray
  refine ⟨got, s, out, hturn, ?_⟩
  rw [← hthere] at hturn
  rw [strayArgs, (smallRunAt_cons hrun hturn).2, hstray]

/-- `getargs` takes any buffer but NULL: after the other shell's call the new one's
`getargs` no longer returns "x". -/
theorem stray_getargs_shows :
    AddressedHistory smallImage (smallRunAt strayArgs).1 (smallRunAt strayArgs).2 ∧
      commandOf 3 (plain (smallRunAt strayArgs).1) = some (shellName.take 5 ++ 0x20 :: ([0x78] ++ 0 :: [])) ∧
      (smallRunAt strayArgs).2.kernel.running = 3 ∧
      (syscallEntry (smallRunAt strayArgs).2.kernel (frameOf 3)).isSome ∧
      ¬ GetsArgs smallImage (smallRunAt strayArgs).2 (frameOf 3) (fun _ => 7) 0x8048000 [0x78] := by
  obtain ⟨got, s, out, hturn, hrun⟩ := smallRunAt_strayArgs
  have hseen : ∀ {V : Type} (view : Addressed × Outcome → V),
      (stepAt smallImage afterStray (.pitInt (frameOf 2), 0)).map view = some (view (s, out)) := fun view => by
    rw [hturn, Option.map_some]
  have hchild : out.child = none := Option.some.inj ((hseen fun r => r.2.child).symm.trans (by decide +kernel))
  have hcmd : commandOf 3 (plain (smallRunAt beforeStray).1) =
      some (shellName.take 5 ++ 0x20 :: ([0x78] ++ 0 :: [])) := by
    decide +kernel
  have hargs : (syscallEntry s.kernel (frameOf 3)).map (fun k => cstr (k.pcbOf k.running).args) = some [] :=
    Option.some.inj ((hseen fun r => (syscallEntry r.1.kernel (frameOf 3)).map
      fun k => cstr (k.pcbOf k.running).args).symm.trans (by decide +kernel))
  refine ⟨history_smallRunAt strayArgs, ?_, ?_, ?_, ?_⟩
  · rw [hrun]
    simp only [plain, List.map_cons, commandOf, hchild, reduceCtorEq, if_false]
    rw [if_neg (by simp [Outcome.child])]
    exact hcmd
  · rw [hrun]
    exact Option.some.inj ((hseen fun r => r.1.kernel.running).symm.trans (by decide +kernel))
  · rw [hrun, ← Option.isSome_map, hargs, Option.isSome_some]
  · rw [hrun]
    rintro ⟨s', got', hst, -, hin, -⟩
    obtain ⟨ke, hke, hgot'⟩ := getargs_of_stepAt hst
    rw [hke, Option.map_some, Option.some.injEq] at hargs
    obtain ⟨got'', hgot'', -, hnul, -⟩ := getargs_returns hargs (by decide) fun _ => 7
    obtain rfl : got'' = got' := by simpa using hgot''.symm.trans hgot'
    exact absurd ((hin 0 (by decide)).symm.trans (hnul 0 (by decide))) (by decide)

end Mp3Kernel
