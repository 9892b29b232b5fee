/-
# Looking up a name, and open

`read_dentry_by_name` compares a name with the 63 entries of the boot block one after
the other. The length it compares over is carried from one entry to the next and only
grows: it starts as that of the name, cut at 32, and each entry may raise it to what
`strlen` takes its own name for, 33 included; only 32 stays 32. Over all of this the
comparison is exact (`names_agree`): the entry's name, its bytes up to a NUL or all
32, is the name looked for, its bytes up to a NUL or its first 32. So a lookup is the
first entry of that name (`readDentryByName_eq`), and what lies behind the NUL or the
32nd byte of the name does not matter (`key_congr`).

`open` marks a slot as used before it calls the operation of the file's type, and does
not release it when that fails. It cannot fail: the operation makes the same lookup
once more (`openFile_eq`). So a failed `open` leaves the table alone.

Key definitions: `lookupKey`, `FirstNamed`, `readDentryByNameTo`.
Key theorems: `readDentryByName_eq`, `exact_lookup`, `open_lowest_free`.
-/
import Mp3Kernel.Directory

namespace Mp3Kernel

/-- The name a lookup looks for: the bytes before the NUL, 32 at most. -/
def lookupKey (fname : List UInt8) : List UInt8 := (cstr fname).take nameSize

theorem key_congr {fname fname' : List UInt8}
    (h : ∀ i < 32, i ≤ strlen fname → fname'.getD i 0 = fname.getD i 0) : lookupKey fname' = lookupKey fname :=
  take_cstr_congr nameSize fname fname' h

/-! ### One entry -/

section Entry

variable {d : Dentry}

theorem cstr_bytes_append (ht : d.fileType.toNat ≤ 2) (rest : List UInt8) : cstr (d.bytes ++ rest) = cstr d.bytes := by
  have hlen : (cstr d.bytes).length ≠ d.bytes.length := by
    have h64 : 64 ≤ d.bytes.length := by simp [Dentry.bytes, le32]
    have h32 := length_entryName_le d
    have hstr := strlen_bytes ht
    rw [strlen_eq_length_cstr] at hstr
    split_ifs at hstr <;> omega
  rw [cstr_append, if_neg hlen]

theorem take_cstr_bytes (d : Dentry) : (cstr d.bytes).take 32 = entryName d := by
  have hfull : (List.ofFn d.fileName).length = 32 := List.length_ofFn
  unfold Dentry.bytes entryName
  rw [List.append_assoc, List.append_assoc, cstr_append, hfull]
  by_cases h32 : (cstr (List.ofFn d.fileName)).length = 32
  · have hall : cstr (List.ofFn d.fileName) = List.ofFn d.fileName :=
      (List.takeWhile_prefix _).eq_of_length (h32.trans hfull.symm)
    rw [if_pos h32, List.take_append_of_le_length (by omega), List.take_of_length_le (by omega), hall]
  · rw [if_neg h32]
    exact List.take_of_length_le (length_entryName_le d)

/-- The length the search compares over: it has counted the whole key, stops at 32
for a longer name, and else covers the entry or is 32. -/
structure Covers (fname : List UInt8) (d : Dentry) (numBits : ℕ) : Prop where
  key : min nameSize (strlen fname) ≤ numBits
  long : nameSize ≤ strlen fname → numBits = nameSize
  entry : numBits = nameSize ∨ strlen d.bytes ≤ numBits

/-- **The comparison is exact.** Whatever length it has grown to. -/
theorem names_agree {fname : List UInt8} (ht : d.fileType.toNat ≤ 2) {numBits : ℕ} (h : Covers fname d numBits)
    (rest : List UInt8) : strncmp fname (d.bytes ++ rest) numBits = 0 ↔ entryName d = lookupKey fname := by
  have hkey := h.key
  have hlong := h.long
  have hentry := h.entry
  rw [strlen_eq_length_cstr] at hkey hlong hentry
  simp only [nameSize] at hkey hlong hentry
  rw [strncmp_eq_zero_iff, cstr_bytes_append ht, lookupKey, eq_comm]
  by_cases h32 : numBits = 32
  · rw [h32, take_cstr_bytes]
  · have hstr := strlen_bytes ht
    rw [strlen_eq_length_cstr] at hstr
    have hshort : (cstr fname).length < 32 := by
      by_contra hge
      exact h32 (hlong (by omega))
    rw [List.take_of_length_le (show (cstr d.bytes).length ≤ numBits by omega),
      List.take_of_length_le (show (cstr fname).length ≤ numBits by omega),
      List.take_of_length_le (show (cstr fname).length ≤ nameSize by simp only [nameSize]; omega)]
    by_cases hbad : (entryName d).length = 32 ∧ d.fileType ≠ 0
    · rw [if_pos hbad] at hstr
      refine iff_of_false (fun he => ?_) fun he => ?_
      · rw [he] at hstr
        omega
      · rw [← hbad.1, he] at hshort
        omega
    · rw [if_neg hbad] at hstr
      have hle := length_entryName_le d
      rw [← take_cstr_bytes d, List.take_of_length_le (show (cstr d.bytes).length ≤ 32 by omega)]

end Entry

/-! ### The search -/

/-- The search finds the first entry of the name, whatever length it starts with. -/
theorem dentryLoop_eq {fname : List UInt8} : ∀ (ds : List Dentry) (numBits : ℕ), (∀ d ∈ ds, d.fileType.toNat ≤ 2) →
    min nameSize (strlen fname) ≤ numBits → (nameSize ≤ strlen fname → numBits = nameSize) →
    dentryLoop fname numBits ds = ds.find? fun d => entryName d = lookupKey fname
  | [], _, _, _, _ => rfl
  | d :: ds, numBits, ht, hkey, hlong => by
    have htd := ht d (List.mem_cons_self ..)
    have hname : strlen ((d :: ds).flatMap Dentry.bytes) = strlen d.bytes := by
      rw [List.flatMap_cons, strlen_eq_length_cstr, cstr_bytes_append htd, ← strlen_eq_length_cstr]
    rw [dentryLoop]
    simp only [hname]
    generalize hn : (if numBits ≠ nameSize then if strlen d.bytes > numBits then strlen d.bytes else numBits
      else numBits) = numBits'
    have hcover : Covers fname d numBits' := by
      constructor
      · split_ifs at hn <;> omega
      · intro hge
        have := hlong hge
        rw [if_neg (not_not_intro this)] at hn
        omega
      · split_ifs at hn <;> omega
    have hagree := names_agree htd hcover (ds.flatMap Dentry.bytes)
    rw [List.flatMap_cons, List.find?_cons]
    by_cases h : entryName d = lookupKey fname
    · rw [if_pos (hagree.mpr h), decide_eq_true h]
    · rw [if_neg fun h0 => h (hagree.mp h0), decide_eq_false h]
      exact dentryLoop_eq ds numBits' (fun e he => ht e (List.mem_cons_of_mem _ he)) hcover.key hcover.long

/-- The types of all entries have rows in `file_table`. -/
def TypesKnown (b : BootBlock) : Prop := ∀ i, (b.dentries i).fileType.toNat ≤ 2

/-- The name is not empty and some entry has it. -/
def HasEntry (b : BootBlock) (name : List UInt8) : Prop :=
  lookupKey name ≠ [] ∧ ∃ i, entryName (b.dentries i) = lookupKey name

/-- Entry `i` is the first one of the name `key`. -/
def FirstNamed (b : BootBlock) (key : List UInt8) (i : Fin maxDentries) : Prop :=
  entryName (b.dentries i) = key ∧ ∀ j < i, entryName (b.dentries j) ≠ key

section Search

variable {b : BootBlock}

theorem readDentryByName_eq (ht : TypesKnown b) (fname : List UInt8) : readDentryByName b fname =
    if lookupKey fname = [] then none else (List.ofFn b.dentries).find? fun d => entryName d = lookupKey fname := by
  have hall : ∀ d ∈ List.ofFn b.dentries, d.fileType.toNat ≤ 2 := by
    intro d hd
    obtain ⟨i, rfl⟩ := List.mem_ofFn.mp hd
    exact ht i
  have hnil : lookupKey fname = [] ↔ strlen fname = 0 := by
    rw [lookupKey, strlen_eq_length_cstr, List.take_eq_nil_iff, List.length_eq_zero_iff]
    simp
  unfold readDentryByName
  simp only
  by_cases h0 : strlen fname = 0
  · rw [if_pos (hnil.mpr h0), if_pos (by rw [h0]; rfl)]
  · have hbits : ¬ (if strlen fname > nameSize then nameSize else strlen fname) = 0 := by
      by_cases hgt : strlen fname > nameSize
      · rw [if_pos hgt]
        decide
      · rwa [if_neg hgt]
    rw [if_neg (mt hnil.mp h0), if_neg hbits]
    apply dentryLoop_eq _ _ hall
    · split_ifs <;> omega
    · intro hge
      split_ifs <;> omega

theorem readDentryByName_eq_some_iff (ht : TypesKnown b) {fname : List UInt8} {d : Dentry} :
    readDentryByName b fname = some d ↔
      lookupKey fname ≠ [] ∧ ∃ i, FirstNamed b (lookupKey fname) i ∧ b.dentries i = d := by
  rw [readDentryByName_eq ht]
  split_ifs with hnil
  · simp [hnil]
  · rw [List.find?_ofFn_eq_some]
    constructor
    · rintro ⟨hd, i, rfl, hbefore⟩
      exact ⟨hnil, i, ⟨of_decide_eq_true hd, fun j hj => by simpa using hbefore j hj⟩, rfl⟩
    · rintro ⟨-, i, ⟨hi, hbefore⟩, rfl⟩
      exact ⟨decide_eq_true hi, i, rfl, fun j hj => by simpa using hbefore j hj⟩

theorem readDentryByName_eq_none_iff (ht : TypesKnown b) {fname : List UInt8} :
    readDentryByName b fname = none ↔ ¬ HasEntry b fname := by
  rw [readDentryByName_eq ht, HasEntry]
  split_ifs with hnil
  · simp [hnil]
  · rw [List.find?_eq_none, List.forall_mem_ofFn_iff]
    simp [hnil]

end Search

/-- The search loop of `read_dentry_by_name` with the entry it stores: the value
returned and `*dentry` after it. -/
def dentryLoopTo (fname : List UInt8) : ℕ → List Dentry → Dentry → Int32 × Dentry
  | _, [], dentry => (-1, dentry)
  | numBits, d :: ds, dentry =>
    let name := (d :: ds).flatMap Dentry.bytes
    let numBits' := if numBits ≠ nameSize then (if strlen name > numBits then strlen name else numBits) else numBits
    if strncmp fname name numBits' = 0 then (0, d) else dentryLoopTo fname numBits' ds dentry

/-- `read_dentry_by_name` with its second argument, which is not NULL: the value
returned and `*dentry` after it. -/
def readDentryByNameTo (b : BootBlock) (fname : List UInt8) (dentry : Dentry) : Int32 × Dentry :=
  let numBits := if strlen fname > nameSize then nameSize else strlen fname
  if numBits = 0 then (-1, dentry) else dentryLoopTo fname numBits (List.ofFn b.dentries) dentry

theorem dentryLoopTo_eq (fname : List UInt8) (dentry : Dentry) : ∀ (ds : List Dentry) (numBits : ℕ),
    dentryLoopTo fname numBits ds dentry = ((dentryLoop fname numBits ds).elim (-1, dentry) fun d => (0, d))
  | [], _ => rfl
  | d :: ds, numBits => by
    rw [dentryLoopTo, dentryLoop]
    generalize (if numBits ≠ nameSize then _ else numBits) = numBits'
    split_ifs
    · rfl
    · exact dentryLoopTo_eq fname dentry ds numBits'

theorem readDentryByNameTo_eq (b : BootBlock) (fname : List UInt8) (dentry : Dentry) :
    readDentryByNameTo b fname dentry = ((readDentryByName b fname).elim (-1, dentry) fun d => (0, d)) := by
  unfold readDentryByNameTo readDentryByName
  simp only
  generalize (if strlen fname > nameSize then nameSize else strlen fname) = numBits
  split_ifs
  · rfl
  · exact dentryLoopTo_eq fname dentry _ _

/-- **Exact lookup.** For every boot block whose entries have known types and every
name, terminated or not: the lookup returns 0 exactly when the key is not empty and
some entry has it for its name, and then stores the first such entry; otherwise it
returns -1 and stores nothing. Only the first 32 bytes of the name matter, and of
these only the ones up to the NUL. -/
theorem exact_lookup {b : BootBlock} (ht : TypesKnown b) (fname : List UInt8) (dentry : Dentry) :
    ((readDentryByNameTo b fname dentry).1 = 0 ↔ HasEntry b fname) ∧
    (HasEntry b fname →
      ∃ i, FirstNamed b (lookupKey fname) i ∧ readDentryByNameTo b fname dentry = (0, b.dentries i)) ∧
    (¬ HasEntry b fname → readDentryByNameTo b fname dentry = (-1, dentry)) ∧
    ∀ fname' : List UInt8, (∀ i < 32, i ≤ strlen fname → fname'.getD i 0 = fname.getD i 0) →
      readDentryByNameTo b fname' dentry = readDentryByNameTo b fname dentry := by
  have hnone : readDentryByName b fname = none ↔ _ := readDentryByName_eq_none_iff ht
  have hfound : HasEntry b fname →
      ∃ i, FirstNamed b (lookupKey fname) i ∧ readDentryByNameTo b fname dentry = (0, b.dentries i) := by
    intro h
    cases hd : readDentryByName b fname with
    | none => exact absurd h (hnone.mp hd)
    | some d =>
      obtain ⟨-, i, hi, rfl⟩ := (readDentryByName_eq_some_iff ht).mp hd
      exact ⟨i, hi, by rw [readDentryByNameTo_eq, hd]; rfl⟩
  have hlost : ¬ HasEntry b fname → readDentryByNameTo b fname dentry = (-1, dentry) := by
    intro h
    rw [readDentryByNameTo_eq, hnone.mpr h]
    rfl
  refine ⟨⟨fun h0 => ?_, fun h => ?_⟩, hfound, hlost, fun fname' hsame => ?_⟩
  · by_contra h
    rw [hlost h] at h0
    cases h0
  · obtain ⟨i, -, hi⟩ := hfound h
    rw [hi]
  · rw [readDentryByNameTo_eq, readDentryByNameTo_eq, readDentryByName_eq ht, readDentryByName_eq ht, key_congr hsame]

theorem typesKnown_longImage : TypesKnown longImage.boot := by
  unfold TypesKnown
  decide +kernel

/-- The name of 32 bytes is found from a name of 40, of which the rest does not matter. -/
theorem exact_lookup_long : ∃ i, FirstNamed longImage.boot (List.replicate 32 0x61) i ∧
    readDentryByNameTo longImage.boot (List.replicate 40 0x61) (smallDentry [] 0 0) = (0, longImage.boot.dentries i) :=
  (exact_lookup typesKnown_longImage (List.replicate 40 0x61) (smallDentry [] 0 0)).2.1
    ⟨by decide, 1, by decide +kernel⟩

/-! ### open -/

/-- `open` took slot `i` for the name: the lowest free one, filled in from the first
entry of the name. -/
structure Opened (img : Image) (name : List UInt8) (fa : FileArray) (i : Fin maxOpenFiles) (fa' : FileArray) : Prop where
  free : (fa i).flags = 0
  lowest : ∀ j < i, (fa j).flags ≠ 0
  slot : ∃ e ops, FirstNamed img.boot (lookupKey name) e ∧ fileTable (img.boot.dentries e).fileType = some ops ∧
    fa' i = { fopJumpTable := ops, inode := (img.boot.dentries e).inodeNum.toInt32
              fileType := (img.boot.dentries e).fileType.toInt32, filePosition := 0, flags := 1 }
  others : ∀ j, j ≠ i → fa' j = fa j

theorem fileTable_known {t : UInt32} (h : t.toNat ≤ 2) : ∃ ops, fileTable t = some ops := by
  unfold fileTable
  rcases (show t.toNat = 0 ∨ t.toNat = 1 ∨ t.toNat = 2 by omega) with h | h | h
  · rw [h]
    exact ⟨_, rfl⟩
  · rw [h]
    exact ⟨_, rfl⟩
  · rw [h]
    exact ⟨_, rfl⟩

/-- What `open` does: it fails and leaves the table alone, or it takes a slot. -/
theorem openFile_cases {img : Image} (ht : TypesKnown img.boot) (fa : FileArray) (filename : Option (List UInt8)) :
    (openFile img fa filename = some (-1, fa) ∧
      (filename = none ∨ (∃ name, filename = some name ∧ ¬ HasEntry img.boot name) ∨ ∀ i, (fa i).flags ≠ 0)) ∨
    ∃ (name : List UInt8) (i : Fin maxOpenFiles) (fa' : FileArray), filename = some name ∧
      openFile img fa filename = some (Int32.ofNat i, fa') ∧ HasEntry img.boot name ∧ Opened img name fa i fa' := by
  cases filename with
  | none => exact Or.inl ⟨rfl, Or.inl rfl⟩
  | some name =>
    cases hd : readDentryByName img.boot name with
    | none =>
      have hlost := (readDentryByName_eq_none_iff ht).mp hd
      exact Or.inl ⟨openFile_absent hd fa, Or.inr (Or.inl ⟨name, rfl, hlost⟩)⟩
    | some d =>
      obtain ⟨hkey, e, he, rfl⟩ := (readDentryByName_eq_some_iff ht).mp hd
      rw [openFile_eq hd]
      cases hi : firstFree fa with
      | none => exact Or.inl ⟨rfl, Or.inr (Or.inr (firstFree_none_iff.mp hi))⟩
      | some i =>
        obtain ⟨ops, hops⟩ := fileTable_known (ht e)
        obtain ⟨hfree, hlowest⟩ := firstFree_iff.mp hi
        refine Or.inr ⟨name, i, Function.update fa i (openedFd (img.boot.dentries e) ops), rfl, ?_, ⟨hkey, e, he.1⟩,
          hfree, hlowest, ⟨e, ops, he, hops, ?_⟩, fun j hj => ?_⟩
        · simp only [hops, Option.map_some]
        · rw [Function.update_self]
          rfl
        · rw [Function.update_of_ne hj]

/-- **`open` takes the lowest free descriptor.** For every table and every image whose
entries have known types, `open` returns -1 exactly when the name is NULL or has no
entry or all eight slots are in use, and then leaves the whole table as it was;
otherwise it returns the lowest free slot, filled in from the first entry of the
name, and leaves the others. Flags are 0 or 1, so a slot in use is one with flag 1. -/
theorem open_lowest_free {img : Image} (ht : TypesKnown img.boot) (fa : FileArray) (filename : Option (List UInt8)) :
    ∃ r fa', openFile img fa filename = some (r, fa') ∧
      (r = -1 ↔ filename = none ∨ (∃ name, filename = some name ∧ ¬ HasEntry img.boot name) ∨
        ∀ i, (fa i).flags ≠ 0) ∧
      ((∀ i, (fa i).flags = 0 ∨ (fa i).flags = 1) →
        (r = -1 ↔ filename = none ∨ (∃ name, filename = some name ∧ ¬ HasEntry img.boot name) ∨
          ∀ i, (fa i).flags = 1)) ∧
      (r = -1 → fa' = fa) ∧
      (r ≠ -1 → ∃ (name : List UInt8) (i : Fin maxOpenFiles), filename = some name ∧ r = Int32.ofNat i ∧
        Opened img name fa i fa') := by
  have hbits : (∀ i, (fa i).flags = 0 ∨ (fa i).flags = 1) → ((∀ i, (fa i).flags = 1) ↔ ∀ i, (fa i).flags ≠ 0) := by
    intro h
    refine forall_congr' fun i => ?_
    rcases h i with hi | hi <;> simp [hi]
  rcases openFile_cases ht fa filename with ⟨ho, hwhy⟩ | ⟨name, i, fa', rfl, ho, hentry, hopened⟩
  · refine ⟨-1, fa, ho, iff_of_true rfl hwhy, fun h => ?_, fun _ => rfl, fun h => absurd rfl h⟩
    rw [hbits h]
    exact iff_of_true rfl hwhy
  · have hne := ofNat_slot_ne i
    have hwhy : ¬ (some name = none ∨ (∃ n, some name = some n ∧ ¬ HasEntry img.boot n) ∨ ∀ i, (fa i).flags ≠ 0) := by
      rintro (h | ⟨n, hn, h⟩ | h)
      · cases h
      · rw [← Option.some.inj hn] at h
        exact h hentry
      · exact h i hopened.free
    refine ⟨Int32.ofNat i, fa', ho, iff_of_false hne hwhy, fun h => ?_, fun h => absurd h hne,
      fun _ => ⟨name, i, rfl, rfl, hopened⟩⟩
    rw [hbits h]
    exact iff_of_false hne hwhy

/-- A child opens the clock: slot 2, and the other slots stay. -/
theorem open_lowest_free_rtc : ∃ r fa', openFile longImage childFiles (some [0x72, 0x74, 0x63, 0]) = some (r, fa') ∧
    ∃ i : Fin maxOpenFiles, r = Int32.ofNat i ∧ Opened longImage [0x72, 0x74, 0x63, 0] childFiles i fa' := by
  obtain ⟨r, fa', ho, hfail, -, -, hok⟩ :=
    open_lowest_free typesKnown_longImage childFiles (some [0x72, 0x74, 0x63, 0])
  have hentry : HasEntry longImage.boot [0x72, 0x74, 0x63, 0] := ⟨by decide, 2, by decide +kernel⟩
  have hne : r ≠ -1 := by
    rw [Ne, hfail]
    rintro (h | ⟨n, hn, h⟩ | h)
    · cases h
    · rw [← Option.some.inj hn] at h
      exact h hentry
    · exact h 2 rfl
  obtain ⟨name, i, hname, hr, hopened⟩ := hok hne
  obtain rfl := Option.some.inj hname
  exact ⟨r, fa', ho, i, hr, hopened⟩

end Mp3Kernel
