/-
# What a user program can reach

`init_paging` fills the page directory and the two page tables; from then on only
`change_process` writes to them, one directory entry at a time. `walk` is the x86's
two-level lookup of an address by user code. For all addresses and all sequences of
process changes it finds the program page of the last process and the video page, and
nothing else (`walk_paging`).

Key definitions: `initPaging`, `paging`, `walk`, `userMap`.
Key theorems: `walk_paging`, `user_address_space`.
-/
import Mp3Kernel.Paging

namespace Mp3Kernel

/-- VIDEO_LOC -/
abbrev videoLoc : UInt32 := 0xB8000
/-- KERNEL_LOC -/
abbrev kernelLoc : UInt32 := 0x400000
/-- PTE_P -/
abbrev pteP : UInt32 := 0x1
/-- PTE_RW -/
abbrev pteRW : UInt32 := 0x2
/-- PTE_US -/
abbrev pteUS : UInt32 := 0x4
/-- DEFAULT_PTE -/
abbrev defaultPte : UInt32 := pteRW ||| pteP
/-- PTE_PBA_OFFSET -/
abbrev ptePbaOffset : UInt32 := 12
/-- PDE_4MP_PBA_OFFSET -/
abbrev pde4mpPbaOffset : UInt32 := 22
/-- USER_VID_PT_INDEX -/
abbrev userVidPtIndex : ℕ := 33

/-- `page_directory`, `vid_page_table` and `user_vid_page_table` -/
structure Tables where
  pageDirectory : PageDirectory
  vidPageTable : ℕ → UInt32
  userVidPageTable : ℕ → UInt32

/-- Where the linker has put the two page tables: two places, each on a 4 KB boundary. -/
structure Placement where
  vidPageTable : UInt32
  userVidPageTable : UInt32
  vid_aligned : vidPageTable &&& 0xFFF = 0
  userVid_aligned : userVidPageTable &&& 0xFFF = 0
  apart : vidPageTable ≠ userVidPageTable

/-- `for (i = from; i < TABLE_SIZE; i++) table[i] = f(i)` -/
def fillTable (start : ℕ) (f : ℕ → UInt32) (table : ℕ → UInt32) : ℕ → UInt32 :=
  (List.range' start (1024 - start)).foldl (fun t i => Function.update t i (f i)) table

/-- `init_paging`, up to the registers it loads. -/
def initPaging (pl : Placement) (t : Tables) : Tables :=
  let vid := fillTable 0 (fun i =>
    if i ≠ 0 then (UInt32.ofNat i <<< ptePbaOffset) ||| defaultPte else defaultPte ^^^ pteP) t.vidPageTable
  let userVid := Function.update t.userVidPageTable 0 (videoLoc ||| pteUS ||| defaultPte)
  let pd := Function.update t.pageDirectory 0 (pl.vidPageTable ||| pdeRW ||| pdeP)
  let pd := Function.update pd 1 (kernelLoc ||| pdePS ||| defaultPte)
  let pd := fillTable 2 (fun i => (UInt32.ofNat i <<< pde4mpPbaOffset) ||| pdePS ||| pdeRW) pd
  let pd := Function.update pd userVidPtIndex (pl.userVidPageTable ||| pdeUS ||| pdeRW ||| pdeP)
  ⟨pd, vid, userVid⟩

/-- The tables after `init_paging` and the process changes, the first one first. -/
def paging (pl : Placement) (t : Tables) (pids : List ℤ) : Tables :=
  pids.foldl (fun t pid => { t with pageDirectory := changeProcess t.pageDirectory pid }) (initPaging pl t)

/-- The page table at a physical address. -/
def tableAt (pl : Placement) (t : Tables) (a : UInt32) : Option (ℕ → UInt32) :=
  if a = pl.vidPageTable then some t.vidPageTable
  else if a = pl.userVidPageTable then some t.userVidPageTable
  else none

/-- An entry lets user code in: it is present and for users, and writable if this is a
write. -/
def letsIn (write : Bool) (entry : UInt32) : Prop :=
  entry &&& pdeP ≠ 0 ∧ entry &&& pdeUS ≠ 0 ∧ (write = true → entry &&& pdeRW ≠ 0)

instance (write : Bool) (entry : UInt32) : Decidable (letsIn write entry) := by unfold letsIn; infer_instance

/-- The x86's lookup of the address `v` for user code, with 4 MB pages switched on: the
physical address, or none for a page fault. -/
def walk (pl : Placement) (t : Tables) (write : Bool) (v : UInt32) : Option ℕ :=
  let pde := t.pageDirectory (v.toNat / 0x400000)
  if letsIn write pde then
    if pde &&& pdePS ≠ 0 then some ((pde &&& 0xFFC00000).toNat + v.toNat % 0x400000)
    else (tableAt pl t (pde &&& 0xFFFFF000)).bind fun table =>
      let pte := table (v.toNat / 0x1000 % 1024)
      if letsIn write pte then some ((pte &&& 0xFFFFF000).toNat + v.toNat % 0x1000) else none
  else none

/-- What user code is meant to reach: the program page, in the frame of process `p`,
and the video page behind it. -/
def userMap (last : Option ℤ) (v : UInt32) : Option ℕ :=
  if 0x08000000 ≤ v.toNat ∧ v.toNat < 0x08400000 then
    last.map fun p => ((p + 2) * 0x400000).toNat + (v.toNat - 0x08000000)
  else if 0x08400000 ≤ v.toNat ∧ v.toNat < 0x08401000 then some (0xB8000 + (v.toNat - 0x08400000))
  else none

/-! ### The tables -/

theorem fillTable_apply (f table : ℕ → UInt32) (start i : ℕ) :
    fillTable start f table i = if start ≤ i ∧ i < 1024 then f i else table i := by
  have hloop : ∀ (n s : ℕ) (t : ℕ → UInt32),
      (List.range' s n).foldl (fun t i => Function.update t i (f i)) t i =
        if s ≤ i ∧ i < s + n then f i else t i := by
    intro n
    induction n with
    | zero =>
      intro s t
      rw [if_neg (by omega)]
      rfl
    | succ n ih =>
      intro s t
      rw [List.range'_succ, List.foldl_cons, ih, Function.update_apply]
      by_cases his : i = s
      · rw [if_neg (by omega), if_pos his, if_pos (by omega), his]
      · rw [if_neg his]
        by_cases hin : s + 1 ≤ i ∧ i < s + 1 + n
        · rw [if_pos hin, if_pos (by omega)]
        · rw [if_neg hin, if_neg (by omega)]
  unfold fillTable
  rw [hloop]
  by_cases hin : start ≤ i ∧ i < 1024
  · rw [if_pos hin, if_pos (by omega)]
  · rw [if_neg hin, if_neg (by omega)]

section Walk

variable {pl : Placement} {t : Tables}

/-- The process changes write no entry but the user program's. -/
theorem paging_pageDirectory (pids : List ℤ) (i : ℕ) :
    (paging pl t pids).pageDirectory i =
      if i = userProcessIndex then (pids.getLast?.map processEntry).getD ((initPaging pl t).pageDirectory i)
      else (initPaging pl t).pageDirectory i := by
  induction pids using List.reverseRecOn with
  | nil =>
    by_cases hi : i = userProcessIndex
    · rw [if_pos hi]
      rfl
    · rw [if_neg hi]
      rfl
  | append_singleton pids pid ih =>
    have hstep : (paging pl t (pids ++ [pid])).pageDirectory =
        changeProcess (paging pl t pids).pageDirectory pid := by
      unfold paging
      rw [List.foldl_append]
      rfl
    rw [hstep, List.getLast?_concat]
    by_cases hi : i = userProcessIndex
    · rw [if_pos hi, hi, changeProcess_user]
      rfl
    · rw [if_neg hi] at ih ⊢
      rw [← ih]
      exact Function.update_of_ne hi _ _

theorem paging_tables (pids : List ℤ) :
    (paging pl t pids).vidPageTable = (initPaging pl t).vidPageTable ∧
      (paging pl t pids).userVidPageTable = (initPaging pl t).userVidPageTable := by
  unfold paging
  generalize initPaging pl t = t₀
  induction pids generalizing t₀ with
  | nil => exact ⟨rfl, rfl⟩
  | cons pid pids ih => exact ih _

/-- The directory `init_paging` leaves. -/
theorem initPaging_pageDirectory {i : ℕ} (hi : i < 1024) :
    (initPaging pl t).pageDirectory i =
      if i = 33 then pl.userVidPageTable ||| pdeUS ||| pdeRW ||| pdeP
      else if 2 ≤ i then (UInt32.ofNat i <<< pde4mpPbaOffset) ||| pdePS ||| pdeRW
      else if i = 1 then kernelLoc ||| pdePS ||| defaultPte
      else pl.vidPageTable ||| pdeRW ||| pdeP := by
  show Function.update _ _ _ i = _
  rw [Function.update_apply]
  by_cases h33 : i = 33
  · rw [if_pos h33, if_pos h33]
  · rw [if_neg h33, if_neg h33, fillTable_apply]
    by_cases h2 : 2 ≤ i
    · rw [if_pos ⟨h2, hi⟩, if_pos h2]
    · rw [if_neg (by omega), if_neg h2, Function.update_apply]
      by_cases h1 : i = 1
      · rw [if_pos h1, if_pos h1]
      · rw [if_neg h1, if_neg h1, show i = 0 by omega, Function.update_self]

/-! ### Flags and addresses in one word -/

theorem or_and_distrib (a b c : UInt32) : (a ||| b) &&& c = (a &&& c) ||| (b &&& c) := by
  apply UInt32.toBitVec_inj.mp
  simp only [UInt32.toBitVec_and, UInt32.toBitVec_or]
  exact BitVec.and_or_distrib_right

/-- The low twelve bits of a word are those of its flags when the rest is a page's
address. -/
theorem flag_of_aligned {a : UInt32} (ha : a &&& 0xFFF = 0) {flags m : UInt32} (hm : m = 0xFFF &&& m) :
    (a ||| flags) &&& m = flags &&& m := by
  rw [or_and_distrib]
  have hzero : a &&& m = 0 := by
    rw [hm, ← UInt32.and_assoc, ha, UInt32.zero_and]
  rw [hzero, UInt32.zero_or]

theorem base_of_aligned {a : UInt32} (ha : a &&& 0xFFF = 0) {flags : UInt32} (hf : flags &&& 0xFFFFF000 = 0) :
    (a ||| flags) &&& 0xFFFFF000 = a := by
  rw [or_and_distrib, hf, UInt32.or_zero]
  calc a &&& 0xFFFFF000 = (a &&& 0xFFFFF000) ||| (a &&& 0xFFF) := by rw [ha, UInt32.or_zero]
    _ = (0xFFFFF000 ||| 0xFFF) &&& a := by rw [or_and_distrib, UInt32.and_comm a, UInt32.and_comm a]
    _ = -1 &&& a := rfl
    _ = a := UInt32.neg_one_and

theorem absent_entry : ∀ i : Fin 1024, ((UInt32.ofNat i <<< pde4mpPbaOffset) ||| pdePS ||| pdeRW) &&& pdeP = 0 := by
  decide +kernel

/-! ### The walk -/

theorem walk_eq_none {write : Bool} {v : UInt32} (h : ¬ letsIn write (t.pageDirectory (v.toNat / 0x400000))) :
    walk pl t write v = none := if_neg h

/-- The program page: present for users once a process runs. -/
theorem walk_program {pids : List ℤ} (hp : ∀ p ∈ pids, 0 ≤ p ∧ p < 6) (write : Bool) {v : UInt32}
    (hv : v.toNat / 0x400000 = 32) :
    walk pl (paging pl t pids) write v =
      pids.getLast?.map fun p => ((p + 2) * 0x400000).toNat + v.toNat % 0x400000 := by
  have hpde : (paging pl t pids).pageDirectory 32 =
      (pids.getLast?.map processEntry).getD ((initPaging pl t).pageDirectory 32) := by
    rw [paging_pageDirectory, if_pos rfl]
  cases hlast : pids.getLast? with
  | none =>
    rw [hlast, initPaging_pageDirectory (by decide), if_neg (by decide), if_pos (by decide)] at hpde
    refine walk_eq_none ?_
    rw [hv, hpde]
    rintro ⟨hpresent, -⟩
    exact hpresent (absent_entry 32)
  | some p =>
    rw [hlast] at hpde
    replace hpde : (paging pl t pids).pageDirectory 32 = processEntry p := hpde
    obtain ⟨h0, h6⟩ := hp p (List.mem_of_getLast? hlast)
    obtain ⟨hpresent, huser, hbig, hbase⟩ := maps_processEntry h0 h6
    have hrw : processEntry p &&& pdeRW ≠ 0 := by interval_cases p <;> decide
    unfold walk
    simp only [hv, hpde]
    rw [if_pos ⟨hpresent, huser, fun _ => hrw⟩, if_pos hbig, hbase]
    rfl

/-- The 4 MB behind it: the video page, and nothing more of them. -/
theorem walk_video (ht : t.userVidPageTable = fun _ => 0) (pids : List ℤ) (write : Bool) {v : UInt32}
    (hv : v.toNat / 0x400000 = 33) :
    walk pl (paging pl t pids) write v =
      if v.toNat < 0x08401000 then some (0xB8000 + v.toNat % 0x1000) else none := by
  have hpde : (paging pl t pids).pageDirectory 33 = pl.userVidPageTable ||| 7 := by
    rw [paging_pageDirectory, if_neg (by decide), initPaging_pageDirectory (by decide), if_pos rfl,
      UInt32.or_assoc, UInt32.or_assoc]
    rfl
  have hflag : ∀ m : UInt32, m = 0xFFF &&& m → (pl.userVidPageTable ||| 7) &&& m = 7 &&& m :=
    fun m hm => flag_of_aligned pl.userVid_aligned hm
  have hin : letsIn write (pl.userVidPageTable ||| 7) := by
    unfold letsIn
    rw [hflag pdeP rfl, hflag pdeUS rfl, hflag pdeRW rfl]
    exact ⟨by decide, by decide, fun _ => by decide⟩
  have htable : tableAt pl (paging pl t pids) pl.userVidPageTable =
      some (Function.update (fun _ => 0) 0 (videoLoc ||| pteUS ||| defaultPte)) := by
    unfold tableAt
    rw [if_neg (Ne.symm pl.apart), if_pos rfl, (paging_tables pids).2, ← ht]
    rfl
  unfold walk
  simp only [hv, hpde]
  rw [if_pos hin, hflag pdePS rfl, if_neg (by decide), base_of_aligned pl.userVid_aligned (by decide), htable,
    Option.bind_some]
  by_cases h0 : v.toNat < 0x08401000
  · rw [show v.toNat / 0x1000 % 1024 = 0 by omega, Function.update_self, if_pos h0]
    rw [if_pos ⟨by decide, by decide, fun _ => by decide⟩]
    rfl
  · rw [Function.update_of_ne (by omega), if_neg h0, if_neg]
    rintro ⟨hpresent, -⟩
    exact hpresent (by decide)

/-- Everywhere else user code is kept out. -/
theorem walk_elsewhere (pids : List ℤ) (write : Bool) {v : UInt32} (h32 : v.toNat / 0x400000 ≠ 32)
    (h33 : v.toNat / 0x400000 ≠ 33) : walk pl (paging pl t pids) write v = none := by
  have hlt : v.toNat / 0x400000 < 1024 := by
    have := v.toNat_lt
    omega
  refine walk_eq_none ?_
  rw [paging_pageDirectory, if_neg h32, initPaging_pageDirectory hlt, if_neg h33]
  rintro ⟨hpresent, huser, -⟩
  split_ifs at hpresent huser with h2 h1
  · exact hpresent (absent_entry ⟨_, hlt⟩)
  · exact huser (by decide)
  · rw [UInt32.or_assoc, flag_of_aligned pl.vid_aligned (by decide)] at huser
    exact huser (by decide)

/-- The walk is the intended map, for every address. -/
theorem walk_paging (ht : t.userVidPageTable = fun _ => 0) {pids : List ℤ} (hp : ∀ p ∈ pids, 0 ≤ p ∧ p < 6)
    (write : Bool) (v : UInt32) : walk pl (paging pl t pids) write v = userMap pids.getLast? v := by
  unfold userMap
  by_cases h32 : v.toNat / 0x400000 = 32
  · rw [walk_program hp write h32, if_pos (by omega), show v.toNat % 0x400000 = v.toNat - 0x08000000 by omega]
  · rw [if_neg (by omega)]
    by_cases h33 : v.toNat / 0x400000 = 33
    · rw [walk_video ht pids write h33]
      by_cases hpage : v.toNat < 0x08401000
      · rw [if_pos hpage, if_pos (by omega), show v.toNat % 0x1000 = v.toNat - 0x08400000 by omega]
      · rw [if_neg hpage, if_neg (by omega)]
    · rw [walk_elsewhere pids write h32 h33, if_neg (by omega)]

end Walk

/-! ### Isolation -/

theorem userMap_frame {p : ℤ} (h0 : 0 ≤ p) {v : UInt32} {a : ℕ}
    (hv : 0x08000000 ≤ v.toNat ∧ v.toNat < 0x08400000) (ha : userMap (some p) v = some a) :
    (p + 2) * 0x400000 ≤ (a : ℤ) ∧ (a : ℤ) < (p + 3) * 0x400000 := by
  unfold userMap at ha
  rw [if_pos hv, Option.map_some, Option.some.injEq] at ha
  omega

/-- Below the frames of the processes, the map reaches the video page only. -/
theorem userMap_low {last : Option ℤ} (h0 : ∀ p, last = some p → 0 ≤ p) {v : UInt32} {a : ℕ}
    (ha : userMap last v = some a) (hlow : a < 0x800000) : 0xB8000 ≤ a ∧ a < 0xB9000 := by
  by_cases hv : 0x08000000 ≤ v.toNat ∧ v.toNat < 0x08400000
  · cases last with
    | none =>
      unfold userMap at ha
      rw [if_pos hv] at ha
      exact absurd ha (by simp)
    | some p =>
      have := userMap_frame (h0 p rfl) hv ha
      have := h0 p rfl
      omega
  · unfold userMap at ha
    rw [if_neg hv] at ha
    split_ifs at ha with hvid
    rw [Option.some.injEq] at ha
    omega

/-- **The user's address space.** After `init_paging` and any process changes, an access
of user code to any address reaches the program frame of the last process, the video
page, or nothing; frames of different processes have no address in common, and below
8 MB only the video page is reached. -/
theorem user_address_space (pl : Placement) {t : Tables} (ht : t.userVidPageTable = fun _ => 0) {pids : List ℤ}
    (hp : ∀ p ∈ pids, 0 ≤ p ∧ p < 6) :
    (∀ write v, walk pl (paging pl t pids) write v = userMap pids.getLast? v) ∧
    (∀ write v a, walk pl (paging pl t pids) write v = some a → a < 0x800000 → 0xB8000 ≤ a ∧ a < 0xB9000) ∧
    ∀ pids' : List ℤ, (∀ p ∈ pids', 0 ≤ p ∧ p < 6) → pids.getLast? ≠ pids'.getLast? → ∀ write write' v v' a,
      0x08000000 ≤ v.toNat ∧ v.toNat < 0x08400000 → 0x08000000 ≤ v'.toNat ∧ v'.toNat < 0x08400000 →
      walk pl (paging pl t pids) write v = some a → walk pl (paging pl t pids') write' v' ≠ some a := by
  refine ⟨walk_paging ht hp, fun write v a ha hlow => ?_, ?_⟩
  · rw [walk_paging ht hp] at ha
    exact userMap_low (fun p hlast => (hp p (List.mem_of_getLast? hlast)).1) ha hlow
  · intro pids' hp' hne write write' v v' a hv hv' ha ha'
    rw [walk_paging ht hp] at ha
    rw [walk_paging ht hp'] at ha'
    cases hlast : pids.getLast? with
    | none =>
      rw [hlast, userMap, if_pos hv] at ha
      exact absurd ha (by simp)
    | some p =>
      cases hlast' : pids'.getLast? with
      | none =>
        rw [hlast', userMap, if_pos hv'] at ha'
        exact absurd ha' (by simp)
      | some p' =>
        rw [hlast] at ha
        rw [hlast'] at ha'
        have hframe := userMap_frame (hp p (List.mem_of_getLast? hlast)).1 hv ha
        have hframe' := userMap_frame (hp' p' (List.mem_of_getLast? hlast')).1 hv' ha'
        have hpp : p ≠ p' := by
          rintro rfl
          exact hne (hlast.trans hlast'.symm)
        omega

/-- The page tables on the first two pages of the kernel. -/
def smallPlacement : Placement :=
  ⟨0x400000, 0x401000, by decide, by decide, by decide⟩

/-- Tables of zeros. -/
def zeroTables : Tables := ⟨fun _ => 0, fun _ => 0, fun _ => 0⟩

theorem user_address_space_zero :
    walk smallPlacement (paging smallPlacement zeroTables [0, 5, 3]) true 0x08048000 = some 0x1448000 ∧
    walk smallPlacement (paging smallPlacement zeroTables [0, 5, 3]) false 0x00400000 = none := by
  have hpids : ∀ p ∈ ([0, 5, 3] : List ℤ), 0 ≤ p ∧ p < 6 := by decide
  have h := (user_address_space smallPlacement (t := zeroTables) rfl hpids).1
  exact ⟨(h true 0x08048000).trans (by decide), (h false 0x00400000).trans (by decide)⟩

end Mp3Kernel
