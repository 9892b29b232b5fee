/-
# Reads of no bytes, and of fewer

Nothing between the system call and the buffers looks at the sign of the size a read asks
for. The first statement behind `cli()` says that it makes the size 0 if it is not
positive, but it compares it with the line's length, and what it sets to 0 is the number
of bytes that stay. So a size of 0 goes on as one: it stores the newline before the
transfer buffer and moves the line up by a byte, with the marker one too far; and a
negative size is the size of three block operations, which take it without its sign.
No such read is harmless (`degenerate_read_harms`).

`copyOut` has the statements with the integers of the source, for any size; for sizes of
at least one byte they are `copyLine` (`copyOut_eq_copyLine`).

Key definitions: `copyOut`, `Unharmed`.
Key theorems: `copyOut_eq_copyLine`, `copyOut_zero`, `copyOut_negative`, `degenerate_read_harms`.
-/
import Mp3Kernel.Content
import Mp3Kernel.FileSystem

namespace Mp3Kernel

open Loop Terminal

/-- The arrays that `terminal_read` stores into. -/
inductive BlockStore.Target where
  | kbrdReadBuf
  /-- the caller's buffer -/
  | buf
  | kbrdBuf (t : Terminal)
deriving DecidableEq, Repr

/-- Bytes stored one after the other, from an index of an array on. -/
structure BlockStore where
  target : BlockStore.Target
  first : ℤ
  count : ℕ
deriving DecidableEq, Repr

/-- What the statements leave: the memory around the two buffers, each as if it had no
neighbour, the line markers, and the stores in order. -/
structure CopyOut where
  kbrdReadBuf : ℤ → UInt8
  kbrdBuf : ℤ → UInt8
  lineMarker : Terminal → UInt8
  stores : List BlockStore

/-- `writeBytes` -/
def writeBytesOf (marker : UInt8) (nbytes : Int32) : Int32 :=
  let marker := Int32.ofNat marker.toNat
  if marker - nbytes < 0 then 0 else marker - (nbytes - 1)

namespace Keyboard

/-- The two branches of the copy, for the size `m` each of them uses: as the block
operations take their sizes, `uint32_t`. -/
def moveOut (k : Keyboard) (readBuf : ℤ → UInt8) (m stay : Int32) : CopyOut :=
  let ct := k.currentTerminal
  -- the loop runs while `i < m - 1`: not at all below a size of 2
  let last := (m - 1).toInt
  let n := m.toUInt32.toNat
  let kept := stay.toUInt32.toNat
  let line := memcpy k.kbrdBuf (rowAt ct) (rowAt ct + (m.toInt - 1)) kept
  { kbrdReadBuf := Function.update
      (fun i => if 0 ≤ i ∧ i < last then k.kbrdBuf (rowAt ct + i) else readBuf i) last 0x0A
    kbrdBuf := memset line (rowAt ct + stay.toInt) 0 n
    lineMarker := Function.update k.lineMarker ct (UInt8.ofInt stay.toInt)
    stores := [⟨.kbrdReadBuf, 0, last.toNat⟩, ⟨.kbrdReadBuf, last, 1⟩, ⟨.buf, 0, n⟩, ⟨.kbrdBuf ct, 0, kept⟩,
      ⟨.kbrdBuf ct, stay.toInt, n⟩] }

/-- `terminal_read` from `cli()` to `sti()`. -/
def copyOut (k : Keyboard) (readBuf : ℤ → UInt8) (nbytes : Int32) : CopyOut :=
  let stay := writeBytesOf (k.lineMarker k.currentTerminal) nbytes
  if nbytes < Int32.ofNat kbrdBufSize then k.moveOut readBuf nbytes stay
  else k.moveOut readBuf (Int32.ofNat kbrdBufSize) stay

end Keyboard

/-- An index of the array that is meant: `kbrd_buf[t]` continues into the other rows. -/
def BlockStore.Inside (target : BlockStore.Target) (i : ℤ) : Prop :=
  match target with
  | .kbrdReadBuf => 0 ≤ i ∧ i < 128
  | .buf => False
  | .kbrdBuf t => 0 ≤ rowAt t + i ∧ rowAt t + i < 384

/-- The line buffers and their markers are as they were, the caller's buffer gets no byte,
and no byte is stored outside the keyboard's two buffers. -/
structure Unharmed (k : Keyboard) (out : CopyOut) : Prop where
  buf : ∀ t, ∀ i : ℕ, i < 128 → out.kbrdBuf (rowAt t + i) = k.kbrdBuf (rowAt t + i)
  marker : out.lineMarker = k.lineMarker
  caller : ∀ s ∈ out.stores, s.target = .buf → s.count = 0
  inside : ∀ s ∈ out.stores, ∀ j : ℕ, j < s.count → BlockStore.Inside s.target (s.first + j)

/-! ### Sizes of at least one byte -/

section Sizes

variable {k : Keyboard} {readBuf : ℤ → UInt8} {nbytes : Int32}

theorem toInt_sub_of_fits {a b : Int32} (h₁ : -2147483648 ≤ a.toInt - b.toInt) (h₂ : a.toInt - b.toInt < 2147483648) :
    (a - b).toInt = a.toInt - b.toInt := by
  rw [Int32.toInt_sub]
  exact Int.bmod_eq_of_le (by omega) (by omega)

theorem toInt_marker (marker : UInt8) : (Int32.ofNat marker.toNat).toInt = marker.toNat :=
  Int32.toInt_ofNat_of_lt (by have := marker.toNat_lt; omega)

theorem toNat_of_nonneg {n : Int32} (h : 0 ≤ n.toInt) : n.toUInt32.toNat = n.toInt.toNat :=
  Int32.toNat_toUInt32_of_le (Int32.le_iff_toInt_le.mpr (by rwa [Int32.toInt_zero]))

theorem toInt_sub_one {m : Int32} (hm : 1 ≤ m.toInt) : (m - 1).toInt = m.toInt - 1 := by
  have hmax := m.toInt_lt
  exact toInt_sub_of_fits (by rw [Int32.toInt_one]; omega) (by rw [Int32.toInt_one]; omega)

/-- How many bytes stay, for sizes that are positive. -/
theorem writeBytesOf_eq (hn : 1 ≤ nbytes.toInt) :
    (writeBytesOf (k.lineMarker k.currentTerminal) nbytes).toInt = k.writeBytes nbytes.toInt.toNat := by
  have hmarker := toInt_marker (k.lineMarker k.currentTerminal)
  have hlt := (k.lineMarker k.currentTerminal).toNat_lt
  have hmax := nbytes.toInt_lt
  have hfirst : (Int32.ofNat (k.lineMarker k.currentTerminal).toNat - nbytes).toInt =
      (k.lineMarker k.currentTerminal).toNat - nbytes.toInt := by
    rw [toInt_sub_of_fits (by omega) (by omega), hmarker]
  have hless := toInt_sub_one hn
  rw [writeBytes_eq k (by omega)]
  unfold writeBytesOf
  dsimp only
  by_cases hle : (k.lineMarker k.currentTerminal).toNat < nbytes.toInt.toNat
  · rw [if_pos hle, if_pos]
    · rfl
    · rw [Int32.lt_iff_toInt_lt, hfirst, Int32.toInt_zero]
      omega
  · rw [if_neg hle, if_neg]
    · rw [toInt_sub_of_fits (by omega) (by omega), hmarker, hless]
      omega
    · rw [Int32.lt_iff_toInt_lt, hfirst, Int32.toInt_zero]
      omega

/-- `kbrd_read_buf` after the copy: all but the last of the line's first `m` bytes, and a
newline. -/
theorem moveOut_readBuf (k : Keyboard) (readBuf : ℤ → UInt8) {m : Int32} (stay : Int32) (hm : 1 ≤ m.toInt) :
    (List.range m.toInt.toNat).map (fun i : ℕ => (k.moveOut readBuf m stay).kbrdReadBuf i) =
      ((List.range (m.toInt.toNat - 1)).map fun i : ℕ => k.kbrdBuf (rowAt k.currentTerminal + (i : ℤ))) ++ [0x0A] := by
  obtain ⟨n, hn⟩ : ∃ n : ℕ, m.toInt = n + 1 := ⟨(m.toInt - 1).toNat, by omega⟩
  have hcell : ∀ i : ℤ, (k.moveOut readBuf m stay).kbrdReadBuf i = if i = n then 0x0A else
      if 0 ≤ i ∧ i < n then k.kbrdBuf (rowAt k.currentTerminal + i) else readBuf i := by
    intro i
    show Function.update (fun i => if 0 ≤ i ∧ i < (m - 1).toInt then _ else readBuf i) (m - 1).toInt 0x0A i = _
    rw [toInt_sub_one hm, hn, Function.update_apply]
    simp only [add_sub_cancel_right]
  rw [show m.toInt.toNat = n + 1 by omega, Nat.add_sub_cancel, List.range_succ, List.map_append, List.map_singleton,
    hcell n, if_pos rfl]
  congr 1
  refine List.map_congr_left fun i hi => ?_
  rw [List.mem_range] at hi
  rw [hcell, if_neg (by omega), if_pos (by omega)]

/-- A branch of the copy, for a size of at least one byte. -/
theorem moveOut_eq (k : Keyboard) (readBuf : ℤ → UInt8) {m : Int32} (stay : Int32) (hm : 1 ≤ m.toInt)
    (hstay : 0 ≤ stay.toInt) :
    let out := k.moveOut readBuf m stay
    let moved := k.moveLine m.toInt.toNat stay.toInt.toNat
    out.kbrdBuf = moved.1.kbrdBuf ∧ out.lineMarker = moved.1.lineMarker ∧
      (List.range m.toInt.toNat).map (fun i : ℕ => out.kbrdReadBuf i) = moved.2 := by
  have hsize := toNat_of_nonneg (show 0 ≤ m.toInt by omega)
  have hback : m.toInt - 1 = ((m.toInt.toNat - 1 : ℕ) : ℤ) := by omega
  have hkept : stay.toInt = (stay.toInt.toNat : ℤ) := by omega
  intro out moved
  refine ⟨?_, ?_, moveOut_readBuf k readBuf stay hm⟩
  · calc out.kbrdBuf
        = memset (memcpy k.kbrdBuf (rowAt k.currentTerminal) (rowAt k.currentTerminal + (m.toInt - 1))
            stay.toUInt32.toNat) (rowAt k.currentTerminal + stay.toInt) 0 m.toUInt32.toNat := rfl
      _ = memset (memcpy k.kbrdBuf (rowAt k.currentTerminal)
            (rowAt k.currentTerminal + ((m.toInt.toNat - 1 : ℕ) : ℤ)) stay.toInt.toNat)
            (rowAt k.currentTerminal + (stay.toInt.toNat : ℤ)) 0 m.toInt.toNat := by
        rw [hsize, toNat_of_nonneg hstay, hback, ← hkept]
      _ = moved.1.kbrdBuf := rfl
  · show Function.update k.lineMarker k.currentTerminal (UInt8.ofInt stay.toInt) =
      Function.update k.lineMarker k.currentTerminal (UInt8.ofInt (stay.toInt.toNat : ℤ))
    rw [← hkept]

/-- For a size of at least one byte, the statements are those of `copyLine`. -/
theorem copyOut_eq_copyLine (k : Keyboard) (readBuf : ℤ → UInt8) (hn : 1 ≤ nbytes.toInt) :
    let out := k.copyOut readBuf nbytes
    let copied := k.copyLine nbytes.toInt.toNat
    out.kbrdBuf = copied.1.kbrdBuf ∧ out.lineMarker = copied.1.lineMarker ∧
      (List.range (min nbytes.toInt.toNat 128)).map (fun i : ℕ => out.kbrdReadBuf i) = copied.2 := by
  have hstay := writeBytesOf_eq (k := k) hn
  have h128 : (Int32.ofNat kbrdBufSize).toInt = 128 := by decide
  intro out copied
  have hcopied : copied = k.moveLine (min nbytes.toInt.toNat 128) (k.writeBytes nbytes.toInt.toNat) :=
    copyLine_eq k nbytes.toInt.toNat
  rw [hcopied]
  by_cases hlt : nbytes < Int32.ofNat kbrdBufSize
  · have hout : out = k.moveOut readBuf nbytes (writeBytesOf (k.lineMarker k.currentTerminal) nbytes) := if_pos hlt
    have hsize := Int32.lt_iff_toInt_lt.mp hlt
    have hmoved := moveOut_eq k readBuf (writeBytesOf (k.lineMarker k.currentTerminal) nbytes) hn
      (by rw [hstay]; omega)
    rw [hstay, Int.toNat_natCast] at hmoved
    rw [hout, min_eq_left (by omega)]
    exact hmoved
  · have hout : out = k.moveOut readBuf (Int32.ofNat kbrdBufSize)
        (writeBytesOf (k.lineMarker k.currentTerminal) nbytes) := if_neg hlt
    have hsize := mt Int32.lt_iff_toInt_lt.mpr hlt
    have hmoved := moveOut_eq k readBuf (m := Int32.ofNat kbrdBufSize)
      (writeBytesOf (k.lineMarker k.currentTerminal) nbytes) (by rw [h128]; omega) (by rw [hstay]; omega)
    rw [hstay, h128, Int.toNat_natCast] at hmoved
    rw [hout, min_eq_right (by omega)]
    exact hmoved

end Sizes

/-! ### No bytes, and fewer -/

section Degenerate

variable {k : Keyboard} {t : Terminal} {text : List UInt8}

/-- At size 0 it is not the line that stays, but one byte more. -/
theorem writeBytesOf_zero (marker : UInt8) : (writeBytesOf marker 0).toInt = marker.toNat + 1 := by
  have hmarker := toInt_marker marker
  have hlt := marker.toNat_lt
  have hless : ((0 : Int32) - 1).toInt = -1 := by decide
  have hsame : (Int32.ofNat marker.toNat - 0).toInt = marker.toNat := by
    rw [toInt_sub_of_fits (by rw [Int32.toInt_zero]; omega) (by rw [Int32.toInt_zero]; omega), hmarker,
      Int32.toInt_zero, sub_zero]
  unfold writeBytesOf
  dsimp only
  rw [if_neg, toInt_sub_of_fits (by omega) (by omega), hmarker, hless]
  · ring
  · rw [Int32.lt_iff_toInt_lt, hsame, Int32.toInt_zero]
    omega

theorem copyOut_of_nonpos (k : Keyboard) (readBuf : ℤ → UInt8) {nbytes : Int32} (hn : nbytes ≤ 0) :
    k.copyOut readBuf nbytes = k.moveOut readBuf nbytes (writeBytesOf (k.lineMarker k.currentTerminal) nbytes) := by
  have h128 : (Int32.ofNat kbrdBufSize).toInt = 128 := by decide
  have hle := Int32.le_iff_toInt_le.mp hn
  rw [Int32.toInt_zero] at hle
  exact if_pos (Int32.lt_iff_toInt_lt.mpr (by omega))

/-- A read of no bytes: the newline goes before the transfer buffer, the row moves up by a
byte, the one before it comes in, and the marker counts it. -/
theorem copyOut_zero (readBuf : ℤ → UInt8) (hrow : RowText k k.currentTerminal text) (hlen : text.length ≤ 127) :
    let out := k.copyOut readBuf 0
    (⟨.kbrdReadBuf, -1, 1⟩ ∈ out.stores) ∧ (out.lineMarker k.currentTerminal).toNat = text.length + 1 ∧
      ∀ j : ℕ, j ≤ text.length → out.kbrdBuf (rowAt k.currentTerminal + j) =
        (k.kbrdBuf (rowAt k.currentTerminal - 1) :: text).getD j 0 := by
  have hmark := hrow.marker
  have hstay := writeBytesOf_zero (k.lineMarker k.currentTerminal)
  obtain ⟨stay, hs⟩ : ∃ stay, stay = writeBytesOf (k.lineMarker k.currentTerminal) 0 := ⟨_, rfl⟩
  rw [← hs, hmark] at hstay
  have hkept := toNat_toUInt32 stay
  rw [if_pos (by omega), hstay] at hkept
  intro out
  have hout : out = k.moveOut readBuf 0 stay := by
    rw [hs]
    exact copyOut_of_nonpos k readBuf (Int32.le_refl 0)
  rw [hout]
  refine ⟨List.mem_cons_of_mem _ List.mem_cons_self, ?_, fun j hj => ?_⟩
  · have hval := toNat_ofInt (v := stay.toInt) (by omega) (by omega)
    show (Function.update k.lineMarker k.currentTerminal (UInt8.ofInt stay.toInt) k.currentTerminal).toNat = _
    rw [Function.update_self]
    omega
  · show memset (memcpy k.kbrdBuf (rowAt k.currentTerminal) (rowAt k.currentTerminal + ((0 : Int32).toInt - 1))
      stay.toUInt32.toNat) (rowAt k.currentTerminal + stay.toInt) 0 (0 : Int32).toUInt32.toNat _ = _
    rw [memset_out (by omega), memcpy_in (by omega), Int32.toInt_zero]
    cases j with
    | zero =>
      rw [List.getD_cons_zero]
      congr 1
      omega
    | succ j =>
      rw [List.getD_cons_succ, ← hrow.cells j (by omega)]
      congr 1
      omega

theorem copyOut_negative (k : Keyboard) (readBuf : ℤ → UInt8) {nbytes : Int32} (hn : nbytes.toInt < 0) :
    ∃ n : ℕ, ⟨.buf, 0, n⟩ ∈ (k.copyOut readBuf nbytes).stores ∧ 2147483648 ≤ n := by
  have hle : nbytes ≤ 0 := by
    rw [Int32.le_iff_toInt_le, Int32.toInt_zero]
    omega
  have hmin := nbytes.le_toInt
  have hsize := toNat_toUInt32 nbytes
  rw [if_neg (by omega)] at hsize
  rw [copyOut_of_nonpos k readBuf hle]
  exact ⟨nbytes.toUInt32.toNat, List.mem_cons_of_mem _ (List.mem_cons_of_mem _ List.mem_cons_self), by omega⟩

/-- A read of no bytes changes the marker, also one that has no room for one more. -/
theorem copyOut_zero_marker (k : Keyboard) (readBuf : ℤ → UInt8) :
    (k.copyOut readBuf 0).lineMarker k.currentTerminal ≠ k.lineMarker k.currentTerminal := by
  have hlt := (k.lineMarker k.currentTerminal).toNat_lt
  rw [copyOut_of_nonpos k readBuf (Int32.le_refl 0)]
  show Function.update k.lineMarker k.currentTerminal
    (UInt8.ofInt (writeBytesOf (k.lineMarker k.currentTerminal) 0).toInt) k.currentTerminal ≠ _
  rw [Function.update_self, writeBytesOf_zero]
  intro hsame
  by_cases hbig : (k.lineMarker k.currentTerminal).toNat = 255
  · rw [hbig] at hsame
    have hwrap : (UInt8.ofInt ((255 : ℕ) + 1)).toNat = 255 := (congrArg UInt8.toNat hsame).trans hbig
    exact absurd hwrap (by decide)
  · have hval := toNat_ofInt (v := (k.lineMarker k.currentTerminal).toNat + 1) (by omega) (by omega)
    rw [hsame] at hval
    omega

/-- **Degenerate reads are not harmless.** Whatever the buffers hold: at size 0 the marker
is another one afterwards, and at any smaller size the caller's buffer is written. -/
theorem degenerate_read_harms (k : Keyboard) (readBuf : ℤ → UInt8) {nbytes : Int32} (hn : nbytes ≤ 0) :
    ¬ Unharmed k (k.copyOut readBuf nbytes) := by
  intro h
  by_cases h0 : nbytes = 0
  · rw [h0] at h
    exact copyOut_zero_marker k readBuf (congrFun h.marker k.currentTerminal)
  · have hneg : nbytes.toInt < 0 := by
      have hle := Int32.le_iff_toInt_le.mp hn
      have hne := mt Int32.toInt_inj.mp h0
      rw [Int32.toInt_zero] at hle hne
      omega
    obtain ⟨n, hmem, hbig⟩ := copyOut_negative k readBuf hneg
    have hnone : n = 0 := h.caller _ hmem rfl
    omega

end Degenerate

/-- Three keys typed after boot. -/
def abcTyped : Keyboard := ((bootConsole.kbd.typeKey 0x61).typeKey 0x62).typeKey 0x63

theorem degenerate_read_harms_negative : ¬ Unharmed abcTyped (abcTyped.copyOut (fun _ => 0) (-1)) :=
  degenerate_read_harms abcTyped (fun _ => 0) (by decide)

/-- The text of each row then. -/
def abcText (t : Terminal) : List UInt8 := if t = 0 then [0x61, 0x62, 0x63] else []

/-- A read of no bytes behind these keys: four are counted, the row begins with a byte that
is not its own, and a byte is stored before the transfer buffer. -/
theorem zero_read_counts : (∀ t, RowText abcTyped t (abcText t) ∧ (abcText t).length ≤ 127) ∧
    ((abcTyped.copyOut (fun _ => 0) 0).lineMarker 0).toNat = 4 ∧
    ⟨.kbrdReadBuf, -1, 1⟩ ∈ (abcTyped.copyOut (fun _ => 0) 0).stores ∧
    ¬ Unharmed abcTyped (abcTyped.copyOut (fun _ => 0) 0) := by
  have hmarks : ∀ t, (abcTyped.lineMarker t).toNat = (abcText t).length ∧ (abcText t).length ≤ 127 := by
    decide +kernel
  have hcells : ∀ t, ∀ j < 128, abcTyped.kbrdBuf (rowAt t + (j : ℕ)) = (abcText t).getD j 0 := by decide +kernel
  have hrows : ∀ t, RowText abcTyped t (abcText t) := fun t => ⟨(hmarks t).1, hcells t⟩
  obtain ⟨hstore, hmarker, -⟩ := copyOut_zero (fun _ => 0) (hrows 0) (hmarks 0).2
  refine ⟨fun t => ⟨hrows t, (hmarks t).2⟩, hmarker, hstore, fun h => ?_⟩
  have hsame : (abcTyped.copyOut (fun _ => 0) 0).lineMarker 0 = abcTyped.lineMarker 0 := congrFun h.marker 0
  have hkept : (4 : ℕ) = 3 := calc
    4 = ((abcTyped.copyOut (fun _ => 0) 0).lineMarker 0).toNat := hmarker.symm
    _ = (abcTyped.lineMarker 0).toNat := congrArg UInt8.toNat hsame
    _ = 3 := (hmarks 0).1
  exact absurd hkept (by decide)

end Mp3Kernel
