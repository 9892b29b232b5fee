/-
# The program grep

`grep` looks for a string in every file of the directory. `do_one_file` reads a file into
one array of 1025 bytes, prints the lines with the string in them, and moves what is left
of an unfinished line to the front before it reads on. The byte behind what has been read
is looked at as well: it is whatever an earlier turn left there.

What it prints does not show any of this. For a file without NULs and without lines longer
than the buffer it is the lines that contain the string, each behind the file's name
(`grepText`): `grep_file` for one file, `grep_prints` for the program. A string that starts
with a byte of 0x80 or more is found nowhere: its first character is compared as a signed
`char` with an unsigned byte of the file. The invariant is
that what has been printed, followed by what the unfinished line and the rest of the file
are to give, is what the whole file is to give (`Owing`), so that it does not matter
where the reads cut the file.

Key definitions: `doOneFile`, `grepMain`, `grepText`, `ShortLines`, `Owing`.
Key theorems: `lines_of_buffer`, `grep_file`, `grep_prints`.
-/
import Mp3Kernel.Programs
import Mp3Kernel.Reads

namespace Mp3Kernel

open Loop

/-! ### The support library -/

/-- `ece391_strncmp` -/
def ece391Strncmp : List UInt8 → List UInt8 → ℕ → ℤ
  | _, _, 0 => 0
  | s1, s2, n + 1 =>
    if s1.headD 0 = s2.headD 0 then
      if s1.headD 0 = 0 ∨ n = 0 then 0 else ece391Strncmp s1.tail s2.tail n
    else (s1.headD 0).toNat - (s2.headD 0).toNat

/-- `ece391_strcpy (m, m + src)`, from byte `i` on: the array is read as it is by then;
`none` if there is no NUL among the next `n` bytes. -/
def ece391Strcpy (src : ℕ) : ℕ → ℕ → Buf → Option Buf
  | 0, _, _ => none
  | n + 1, i, m =>
    let m' := Function.update m i (m (src + i))
    if m (src + i) ≠ 0 then ece391Strcpy src n (i + 1) m' else some m'

/-! ### grep -/

/-- The string at `data + p`, in the array of BUFSIZE+1 bytes. -/
def stringAt (data : Buf) (p : ℕ) : List UInt8 := arrayText (fun j => data (p + j)) (1025 - p)

/-- The variables of `do_one_file`. -/
structure Grep where
  sess : Session
  data : Buf
  last : ℕ
  lineStart : ℕ

/-- `while (line_end < last && '\n' != data[line_end]) line_end++;`, `n` turns at most -/
def scanLine (data : Buf) (last : ℕ) : ℕ → ℕ → ℕ
  | 0, lineEnd => lineEnd
  | n + 1, lineEnd => if lineEnd < last ∧ data lineEnd ≠ 0x0A then scanLine data last n (lineEnd + 1) else lineEnd

namespace User

variable (u : User) (s fname : List UInt8)

/-- The four `ece391_fdputs` that print a line. -/
def printLine (sess : Session) (line : List UInt8) : Option Session := do
  let sess ← u.ece391Fdputs sess 1 fname
  let sess ← u.ece391Fdputs sess 1 (ascii ":")
  let sess ← u.ece391Fdputs sess 1 line
  u.ece391Fdputs sess 1 (ascii "\n")

/-- The loop over the places `check` of a line, `n` of which are left. `s[0]` is a signed
character, and `data[check]` an unsigned one. -/
def checkLoop (data : Buf) (lineStart : ℕ) : ℕ → ℕ → Session → Option Session
  | 0, _, sess => some sess
  | n + 1, check, sess =>
    if (s.headD 0).toInt8.toInt = (data check).toNat ∧ ece391Strncmp (stringAt data check) s (strlen s) = 0 then
      u.printLine fname sess (stringAt data lineStart)
    else checkLoop data lineStart n (check + 1) sess

/-- One turn of the inner loop, behind a read that returned `cnt`. -/
def lineRound (cnt : Int32) (g : Grep) : Option (Round Grep Grep) :=
  let lineEnd := scanLine g.data g.last g.last g.lineStart
  let data := Function.update g.data lineEnd 0
  if g.data lineEnd ≠ 0x0A ∧ cnt ≠ 0 ∧ g.lineStart ≠ 0 then
    -- the unfinished line goes to the front
    (ece391Strcpy g.lineStart 1026 0 data).map fun data => .done { g with data := data, last := g.last - g.lineStart }
  else
    (u.checkLoop s fname data g.lineStart (lineEnd - g.lineStart) g.lineStart g.sess).map fun sess =>
      if lineEnd + 1 ≥ g.last then .done { g with sess := sess, data := data, last := 0 }
      else .again { g with sess := sess, data := data, lineStart := lineEnd + 1 }

/-- What `do_one_file` does behind its loop. -/
def finish (fd : Int32) (sess : Session) : Option (Session × Int32) :=
  (u.ece391Close sess fd).bind fun (sess, r) =>
    if r = -1 then u.giveUp sess "file close failed\n" (-1) else some (sess, 0)

/-- One turn of the outer loop. The value is the session and the array at the end, and
what `do_one_file` returns. -/
def fileRound (fd : Int32) (g : Grep) : Option (Round Grep (Session × Buf × Int32)) :=
  (u.ece391Read g.sess fd (fun j => g.data (g.last + j)) (Int32.ofNat (1024 - g.last))).bind fun (sess, cnt, buf) =>
    let data : Buf := fun j => if j < g.last then g.data j else buf (j - g.last)
    if cnt = -1 then (u.giveUp sess "file read failed\n" (-1)).map fun r => .done (r.1, data, r.2)
    -- an index in front of the array
    else if cnt < 0 then none
    else
      (runLoop (u.lineRound s fname cnt) 1026 ⟨sess, data, g.last + cnt.toInt.toNat, 0⟩).bind fun g' =>
        if cnt = 0 then (u.finish fd g'.sess).map fun r => .done (r.1, g'.data, r.2)
        else some (.again g')

/-- `do_one_file`, its outer loop run for at most `rounds` turns; `data` is what its array
and the memory behind it hold at the start. -/
def doOneFile (rounds : ℕ) (sess : Session) (data : Buf) : Option (Session × Buf × Int32) :=
  (u.ece391Open sess fname).bind fun (sess, fd) =>
    if fd = -1 then (u.giveUp sess "file open failed\n" (-1)).map fun r => (r.1, data, r.2)
    else runLoop (u.fileRound s fname fd) rounds ⟨sess, data, 0, 0⟩

/-- One turn of the loop of `main`; the array of the `n`-th `do_one_file` starts with what
is in `junk n`. -/
def grepRound (junk : ℕ → Buf) (rounds : ℕ) (fd : Int32) (x : Session × Buf × ℕ) :
    Option (Round (Session × Buf × ℕ) (Session × Int32)) :=
  (u.ece391Read x.1 fd x.2.1 32).bind fun (sess, cnt, buf) =>
    if cnt = 0 then some (.done (sess, 0))
    else if cnt = -1 then (u.giveUp sess "directory entry read failed\n" 3).map .done
    else if buf 0 = 0x2E then some (.again (sess, buf, x.2.2))
    -- a store in front of the buffer
    else if cnt < 0 then none
    else
      let buf' := Function.update buf cnt.toInt.toNat 0
      (u.doOneFile s (arrayText buf' 33) rounds sess (junk x.2.2)).map fun r =>
        if r.2.2 ≠ 0 then .done (r.1, 3) else .again (r.1, buf', x.2.2 + 1)

/-- `main` of ece391grep.c; `search` and `buf` are what its arrays hold at the start. -/
def grepMain (k : Kernel) (junk : ℕ → Buf) (rounds : ℕ) (sess : Session) (search buf : Buf) :
    Option (Session × Int32) :=
  let args := ece391Getargs k search 1024
  if args.1 ≠ 0 then u.giveUp sess "could not read argument\n" 3
  else
    (u.ece391Open sess (ascii "." ++ [0])).bind fun (sess, fd) =>
      if fd = -1 then u.giveUp sess "directory open failed\n" 2
      else runLoop (u.grepRound (arrayText args.2 1024) junk rounds fd) rounds (sess, buf, 0)

end User

/-! ### What grep prints -/

/-- The lines `grep` takes for lines with the string `s`: those that contain it, if it starts
with a character that is the same number signed and unsigned; otherwise none. -/
def Found (s line : List UInt8) : Prop := s ≠ [] ∧ s.headD 0 < 0x80 ∧ s <:+: line

instance (s line : List UInt8) : Decidable (Found s line) := by unfold Found; infer_instance

/-- What is printed for a line. -/
def lineText (s fname line : List UInt8) : List UInt8 :=
  if Found s line then fname ++ 0x3A :: (line ++ [0x0A]) else []

/-- What is printed for a text. -/
def grepText (s fname text : List UInt8) : List UInt8 := (text.splitOn 0x0A).flatMap (lineText s fname)

/-- No line is longer than the buffer. -/
def ShortLines (text : List UInt8) : Prop := ∀ l, l <:+: text → 0x0A ∉ l → l.length ≤ 1024

section Text

variable {s fname : List UInt8}

@[simp] theorem lineText_nil : lineText s fname [] = [] := by
  unfold lineText
  rw [if_neg]
  rintro ⟨hne, -, hin⟩
  exact hne (List.infix_nil.mp hin)

theorem grepText_line {l : List UInt8} (h : 0x0A ∉ l) : grepText s fname l = lineText s fname l := by
  rw [grepText, List.splitOn_eq_singleton h, List.flatMap_singleton]

@[simp] theorem grepText_nil : grepText s fname [] = [] := by
  rw [grepText_line (by simp), lineText_nil]

theorem grepText_cons {l : List UInt8} (h : 0x0A ∉ l) (rest : List UInt8) :
    grepText s fname (l ++ 0x0A :: rest) = lineText s fname l ++ grepText s fname rest := by
  rw [grepText, List.splitOn_append_cons_self_of_not_mem h, List.flatMap_cons]
  rfl

/-- A line that the buffer has taken for finished: nothing follows it, or the newline
does. -/
theorem grepText_cut {l rest : List UInt8} (h : 0x0A ∉ l) (hrest : rest = [] ∨ ∃ r, rest = 0x0A :: r) :
    grepText s fname (l ++ rest) = lineText s fname l ++ grepText s fname rest := by
  rcases hrest with rfl | ⟨r, rfl⟩
  · rw [List.append_nil, grepText_nil, List.append_nil, grepText_line h]
  · rw [grepText_cons h, show (0x0A :: r) = [] ++ 0x0A :: r from rfl, grepText_cons (by simp), lineText_nil,
      List.nil_append]

end Text

/-! ### The functions of the support library -/

/-- Compared as unsigned characters or as signed ones, strings are the same. -/
theorem ece391Strncmp_eq_zero_iff : ∀ (n : ℕ) (s1 s2 : List UInt8),
    ece391Strncmp s1 s2 n = 0 ↔ (cstr s1).take n = (cstr s2).take n
  | 0, s1, s2 => by simp [ece391Strncmp]
  | n + 1, s1, s2 => by
    rw [← strncmp_eq_zero_iff, ece391Strncmp, strncmp]
    by_cases hne : s1.headD 0 = s2.headD 0
    · rw [if_pos hne]
      by_cases h0 : s1.headD 0 = 0
      · rw [if_pos (Or.inl h0), if_pos (Or.inr h0), ← hne]
        exact iff_of_true rfl (sub_self _)
      · rw [if_neg (not_or.mpr ⟨not_not_intro hne, h0⟩), strncmp_eq_zero_iff, ← ece391Strncmp_eq_zero_iff]
        by_cases hn : n = 0
        · rw [if_pos (Or.inr hn), hn]
          rfl
        · rw [if_neg (not_or.mpr ⟨h0, hn⟩)]
    · rw [if_neg hne, if_pos (Or.inl hne), toInt8_sub_eq_zero]
      refine iff_of_false (fun h => hne ?_) hne
      exact UInt8.toNat_inj.mp (by omega)

/-- A string moved to the front of its array. -/
theorem ece391Strcpy_eq {src : ℕ} (hsrc : 0 < src) {l : List UInt8} (hl : ∀ c ∈ l, c ≠ 0) : ∀ (n i : ℕ) (m : Buf),
    l.length < i + n → i ≤ l.length → (∀ j (hj : j < l.length), j < i → m j = l[j]) →
    (∀ j (hj : j < l.length), i ≤ j → m (src + j) = l[j]) → m (src + l.length) = 0 →
    ∃ m', ece391Strcpy src n i m = some m' ∧ (∀ j (hj : j < l.length), m' j = l[j]) ∧ m' l.length = 0 ∧
      ∀ j, l.length < j → m' j = m j
  | 0, i, m, hn, hi, _, _, _ => by omega
  | n + 1, i, m, hn, hi, hfront, hback, hnul => by
    have hread : ∀ j, i ≤ j → Function.update m i (m (src + i)) (src + j) = m (src + j) := fun j hj =>
      Function.update_of_ne (by omega) _ _
    rw [ece391Strcpy]
    by_cases hend : i = l.length
    · subst hend
      rw [if_neg (not_not_intro hnul)]
      refine ⟨_, rfl, fun j hj => ?_, ?_, fun j hj => ?_⟩
      · rw [Function.update_of_ne (by omega)]
        exact hfront j hj hj
      · rw [Function.update_self, hnul]
      · rw [Function.update_of_ne (by omega)]
    · have hlt : i < l.length := by omega
      have hbyte := hback i hlt (le_refl i)
      rw [if_pos (by rw [hbyte]; exact hl _ (List.getElem_mem hlt))]
      have hfront' : ∀ j (hj : j < l.length), j < i + 1 → Function.update m i (m (src + i)) j = l[j] := by
        intro j hj hji
        by_cases he : j = i
        · subst he
          rw [Function.update_self, hbyte]
        · rw [Function.update_of_ne he]
          exact hfront j hj (by omega)
      obtain ⟨m', hcpy, h1, h2, h3⟩ := ece391Strcpy_eq hsrc hl n (i + 1) (Function.update m i (m (src + i)))
        (by omega) (by omega) hfront' (fun j hj hij => by rw [hread j (by omega)]; exact hback j hj (by omega))
        (by rw [hread _ hi]; exact hnul)
      refine ⟨m', hcpy, h1, h2, fun j hj => ?_⟩
      rw [h3 j hj, Function.update_of_ne (by omega)]

/-- The end of a line is the first newline, or where the data ends. -/
theorem scanLine_spec (data : Buf) (last : ℕ) : ∀ n e, e ≤ last → last ≤ e + n →
    e ≤ scanLine data last n e ∧ scanLine data last n e ≤ last ∧
      (∀ j, e ≤ j → j < scanLine data last n e → data j ≠ 0x0A) ∧
      (scanLine data last n e = last ∨ data (scanLine data last n e) = 0x0A)
  | 0, e, he, hn => by
    rw [scanLine]
    exact ⟨le_refl e, he, fun j h1 h2 => by omega, Or.inl (by omega)⟩
  | n + 1, e, he, hn => by
    rw [scanLine]
    split_ifs with hc
    · obtain ⟨h1, h2, h3, h4⟩ := scanLine_spec data last n (e + 1) (by omega) (by omega)
      refine ⟨by omega, h2, fun j hj hlt => ?_, h4⟩
      by_cases hje : j = e
      · rw [hje]
        exact hc.2
      · exact h3 j (by omega) hlt
    · refine ⟨le_refl e, he, fun j h1 h2 => by omega, ?_⟩
      by_cases hlt : e < last
      · exact Or.inr (by_contra fun hne => hc ⟨hlt, hne⟩)
      · exact Or.inl (by omega)

/-! ### One line -/

section Line

variable {u : User} {s fname : List UInt8} {sess : Session}

@[simp] theorem Session.print_files (term : ℤ) (text : List UInt8) : (sess.print term text).files = sess.files := rfl

@[simp] theorem Session.print_nil (term : ℤ) : sess.print term [] = sess := by
  simp [Session.print]

@[simp] theorem Session.print_print (term : ℤ) (a b : List UInt8) :
    (sess.print term a).print term b = sess.print term (a ++ b) := by
  simp [Session.print]

theorem printLine_eq (hs : StreamsOpen sess.files) (hname : strlen fname < 2 ^ 31) {line : List UInt8}
    (hline : strlen line < 2 ^ 31) : u.printLine fname sess line =
      some (sess.print u.term (cstr fname ++ 0x3A :: (cstr line ++ [0x0A]))) := by
  have hcolon : cstr (ascii ":") = [0x3A] := by decide
  have hnewline : cstr (ascii "\n") = [0x0A] := by decide
  unfold User.printLine
  rw [fdputs_stdout hs hname, Option.bind_eq_bind, Option.bind_some, fdputs_stdout (by exact hs) (by decide),
    Option.bind_some, fdputs_stdout (by exact hs) hline, Option.bind_some, fdputs_stdout (by exact hs) (by decide),
    hcolon, hnewline]
  simp

theorem cstr_stringAt {data : Buf} {p : ℕ} {l : List UInt8} (hl : ∀ c ∈ l, c ≠ 0) (hlen : p + l.length ≤ 1024)
    (hbuf : ∀ j (hj : j < l.length), data (p + j) = l[j]) (hend : data (p + l.length) = 0) :
    cstr (stringAt data p) = l :=
  cstr_arrayText (by omega) hbuf hend hl

/-- A signed character and an unsigned one are the same number if they are the same byte,
below 0x80. -/
theorem toInt8_eq_toNat_iff (c d : UInt8) : c.toInt8.toInt = d.toNat ↔ c = d ∧ c < 0x80 := by
  have hc : c.toInt8.toInt = if 2 * c.toNat < 2 ^ 8 then (c.toNat : ℤ) else c.toNat - 2 ^ 8 :=
    BitVec.toInt_eq_toNat_cond c.toBitVec
  have hlt : c < 0x80 ↔ c.toNat < 128 := UInt8.lt_iff_toNat_lt
  have hc' := c.toNat_lt
  have hd' := d.toNat_lt
  rw [hc, hlt, ← UInt8.toNat_inj]
  split_ifs <;> omega

/-- What `do_one_file` checks at a place of the line. -/
theorem match_iff {data : Buf} {p : ℕ} {l : List UInt8} (hl : ∀ c ∈ l, c ≠ 0) (hne : l ≠ [])
    (hlen : p + l.length ≤ 1024) (hbuf : ∀ j (hj : j < l.length), data (p + j) = l[j])
    (hend : data (p + l.length) = 0) :
    (s.headD 0).toInt8.toInt = (data p).toNat ∧ ece391Strncmp (stringAt data p) s (strlen s) = 0 ↔
      cstr s ≠ [] ∧ (cstr s).headD 0 < 0x80 ∧ cstr s <+: l := by
  have hpos : 0 < l.length := List.length_pos_iff.mpr hne
  have hfirst : data p = l[0] := hbuf 0 hpos
  rw [toInt8_eq_toNat_iff, ece391Strncmp_eq_zero_iff, cstr_stringAt hl hlen hbuf hend, strlen_eq_length_cstr,
    List.take_length, hfirst, List.prefix_iff_eq_take]
  constructor
  · rintro ⟨⟨h0, hsmall⟩, htake⟩
    have hz : s.headD 0 ≠ 0 := by
      rw [h0]
      exact hl _ (List.getElem_mem hpos)
    refine ⟨?_, ?_, htake.symm⟩
    · rw [cstr_eq_headD s, if_neg hz]
      exact List.cons_ne_nil _ _
    · rw [cstr_eq_headD s, if_neg hz]
      exact hsmall
  · rintro ⟨hnil, hsmall, htake⟩
    refine ⟨?_, htake.symm⟩
    rw [cstr_eq_headD s] at hnil hsmall htake
    split_ifs at hnil hsmall htake with hz
    · exact absurd rfl hnil
    · obtain ⟨c, l', rfl⟩ := List.exists_cons_of_ne_nil hne
      rw [List.length_cons, List.take_succ_cons, List.cons.injEq] at htake
      exact ⟨htake.1, hsmall⟩

/-- A line of the array: its bytes, and the NUL `do_one_file` has put behind them. -/
structure HasLine (data : Buf) (p : ℕ) (l : List UInt8) : Prop where
  noNul : ∀ c ∈ l, c ≠ 0
  fits : p + l.length ≤ 1024
  bytes : ∀ j (hj : j < l.length), data (p + j) = l[j]
  nul : data (p + l.length) = 0

theorem HasLine.drop {data : Buf} {p : ℕ} {l : List UInt8} (h : HasLine data p l) {k : ℕ} (hk : k ≤ l.length) :
    HasLine data (p + k) (l.drop k) := by
  have hfits := h.fits
  refine ⟨fun c hc => h.noNul c (List.mem_of_mem_drop hc), ?_, fun j hj => ?_, ?_⟩
  · rw [List.length_drop]
    omega
  · rw [List.length_drop] at hj
    rw [Nat.add_assoc, h.bytes (k + j) (by omega), List.getElem_drop]
  · rw [List.length_drop, Nat.add_assoc, Nat.add_sub_cancel' hk]
    exact h.nul

/-- The check from a place of the line on. -/
theorem checkLoop_drop (hs : StreamsOpen sess.files) (hname : strlen fname < 2 ^ 31) {data : Buf} {p : ℕ}
    {l : List UInt8} (h : HasLine data p l) : ∀ n k, k + n = l.length → u.checkLoop s fname data p n (p + k) sess =
      some (if Found (cstr s) (l.drop k) then
        sess.print u.term (cstr fname ++ 0x3A :: (l ++ [0x0A])) else sess)
  | 0, k, hk => by
    rw [User.checkLoop, List.drop_of_length_le (by omega), if_neg fun hc => hc.1 (List.infix_nil.mp hc.2.2)]
  | n + 1, k, hk => by
    have hne : l.drop k ≠ [] := by
      rw [Ne, List.drop_eq_nil_iff]
      omega
    have hd := h.drop (show k ≤ l.length by omega)
    have hcons : l.drop k = l[k] :: l.drop (k + 1) := List.drop_eq_getElem_cons (by omega)
    have hmatch := @match_iff s data (p + k) (l.drop k) hd.noNul hne hd.fits hd.bytes hd.nul
    rw [User.checkLoop]
    by_cases hc : cstr s ≠ [] ∧ (cstr s).headD 0 < 0x80 ∧ cstr s <+: l.drop k
    · have hline := cstr_stringAt h.noNul h.fits h.bytes h.nul
      have hshort : strlen (stringAt data p) < 2 ^ 31 := by
        have hfits := h.fits
        rw [strlen_eq_length_cstr, hline]
        omega
      rw [if_pos (hmatch.mpr hc), if_pos ⟨hc.1, hc.2.1, hc.2.2.isInfix⟩, printLine_eq hs hname hshort, hline]
    · rw [if_neg (mt hmatch.mp hc), Nat.add_assoc, checkLoop_drop hs hname h n (k + 1) (by omega)]
      congr 1
      refine if_congr (and_congr_right fun hp => and_congr_right fun hsmall => ?_) rfl rfl
      rw [hcons, List.infix_cons_iff, ← hcons]
      exact ⟨Or.inr, fun ho => ho.resolve_left fun hpre => hc ⟨hp, hsmall, hpre⟩⟩

/-- A line is printed if the string is in it. -/
theorem checkLoop_eq (hs : StreamsOpen sess.files) (hname : strlen fname < 2 ^ 31) {data : Buf} {p : ℕ}
    {l : List UInt8} (h : HasLine data p l) : u.checkLoop s fname data p l.length p sess =
      some (sess.print u.term (lineText (cstr s) (cstr fname) l)) := by
  have hrun := @checkLoop_drop u s fname sess hs hname data p l h l.length 0 (Nat.zero_add _)
  rw [Nat.add_zero, List.drop_zero] at hrun
  rw [hrun, lineText]
  split_ifs
  · rfl
  · rw [Session.print_nil]

end Line

/-! ### The lines of one buffer -/

section Buffer

/-- What one call of `do_one_file` is about: the string, the file's name and its text, the
devices and the array at the start. -/
structure Search where
  u : User
  s : List UInt8
  fname : List UInt8
  text : List UInt8
  dev : Devices
  data : Buf

/-- What is to be printed for a text. -/
def Search.gives (q : Search) (text : List UInt8) : List UInt8 := grepText (cstr q.s) (cstr q.fname) text

/-- `left` is the end of the text that has not been searched: what has been printed and
what it gives is what the text gives. -/
structure Owing (q : Search) (dev : Devices) (left : List UInt8) : Prop where
  suffix : left <:+ q.text
  printed : ∃ out, dev = q.dev.wrote q.u.term out ∧ out ++ q.gives left = q.gives q.text

/-- The texts `grep` is right about, and what the array must not start with. -/
structure Searchable (q : Search) : Prop where
  noNul : ∀ c ∈ q.text, c ≠ 0
  short : ShortLines q.text
  name : strlen q.fname < 2 ^ 31

/-- Between two reads: the front of the array holds the unfinished line `carry`, and a
NUL behind it; the array's last byte is no newline, and nothing behind it has changed. -/
structure Between (q : Search) (rest carry : List UInt8) (g : Grep) : Prop where
  pending : Owing q g.sess.dev (carry ++ rest)
  last : g.last = carry.length
  short : carry.length ≤ 1023
  unfinished : 0x0A ∉ carry
  bytes : ∀ j (hj : j < carry.length), g.data j = carry[j]
  nul : carry ≠ [] → g.data carry.length = 0
  final : g.data 1024 ≠ 0x0A
  behind : ∀ j, 1024 < j → g.data j = q.data j

/-- Inside a buffer: `l` is what of it has not been searched. A buffer that is not full
ends with the file. -/
structure Inside (q : Search) (rest : List UInt8) (cnt : Int32) (g : Grep) (l : List UInt8) : Prop where
  pending : Owing q g.sess.dev (l ++ rest)
  last : g.lineStart + l.length = g.last
  full : g.last ≤ 1024
  eof : g.last < 1024 → rest = []
  bytes : ∀ j (hj : j < l.length), g.data (g.lineStart + j) = l[j]
  final : g.data 1024 ≠ 0x0A
  behind : ∀ j, 1024 < j → g.data j = q.data j
  atEnd : cnt = 0 → 0x0A ∉ l ∧ g.lineStart = 0 ∧ rest = []

variable {q : Search} {rest carry l : List UInt8} {cnt : Int32} {g : Grep} {dev : Devices}

theorem Owing.line {l' : List UInt8} (h : Owing q dev (l ++ 0x0A :: l')) (hl : 0x0A ∉ l) :
    Owing q (dev.wrote q.u.term (lineText (cstr q.s) (cstr q.fname) l)) l' := by
  obtain ⟨out, hdev, hout⟩ := h.printed
  have hsuffix : l' <:+ l ++ 0x0A :: l' := ⟨l ++ [0x0A], by simp⟩
  refine ⟨hsuffix.trans h.suffix, out ++ lineText (cstr q.s) (cstr q.fname) l, ?_, ?_⟩
  · rw [hdev, Devices.wrote_wrote]
  · rw [← hout, List.append_assoc, Search.gives, Search.gives, grepText_cons hl]

theorem Owing.cut (h : Owing q dev (l ++ rest)) (hl : 0x0A ∉ l) (hrest : rest = [] ∨ ∃ r, rest = 0x0A :: r) :
    Owing q (dev.wrote q.u.term (lineText (cstr q.s) (cstr q.fname) l)) rest := by
  obtain ⟨out, hdev, hout⟩ := h.printed
  refine ⟨(List.suffix_append l rest).trans h.suffix, out ++ lineText (cstr q.s) (cstr q.fname) l, ?_, ?_⟩
  · rw [hdev, Devices.wrote_wrote]
  · rw [← hout, List.append_assoc, Search.gives, Search.gives, grepText_cut hl hrest]

/-- A full buffer without a newline ends where the line does. -/
theorem ShortLines.ends {text : List UInt8} (h : ShortLines text) (hl : l ++ rest <:+ text) (hlen : 1024 ≤ l.length)
    (hno : 0x0A ∉ l) : rest = [] ∨ ∃ r, rest = 0x0A :: r := by
  cases rest with
  | nil => exact Or.inl rfl
  | cons x r =>
    refine Or.inr ⟨r, ?_⟩
    by_contra hx
    have hinfix : l ++ [x] <:+: text := by
      refine List.IsInfix.trans ?_ hl.isInfix
      exact ⟨[], r, by simp⟩
    have hlong := h (l ++ [x]) hinfix fun hin => by
      rcases List.mem_append.mp hin with hin | hin
      · exact hno hin
      · rw [List.mem_singleton.mp hin] at hx
        exact hx rfl
    rw [List.length_append, List.length_singleton] at hlong
    omega

/-- Where the scan for the end of the line stops. -/
theorem Inside.scan (h : Inside q rest cnt g l) :
    (∃ l₁ l₂, l = l₁ ++ 0x0A :: l₂ ∧ 0x0A ∉ l₁ ∧
      scanLine g.data g.last g.last g.lineStart = g.lineStart + l₁.length) ∨
      (0x0A ∉ l ∧ scanLine g.data g.last g.last g.lineStart = g.last) := by
  have hlast := h.last
  obtain ⟨h1, h2, h3, h4⟩ := scanLine_spec g.data g.last g.last g.lineStart (by omega) (by omega)
  generalize scanLine g.data g.last g.last g.lineStart = e at h1 h2 h3 h4 ⊢
  obtain ⟨k, rfl⟩ : ∃ k, e = g.lineStart + k := ⟨e - g.lineStart, by omega⟩
  have hfront : 0x0A ∉ l.take k := by
    intro hin
    obtain ⟨j, hj, hje⟩ := List.mem_iff_getElem.mp hin
    rw [List.length_take] at hj
    rw [List.getElem_take, ← h.bytes j (by omega)] at hje
    exact h3 (g.lineStart + j) (by omega) (by omega) hje
  by_cases hk : k < l.length
  · have hnew : l[k] = 0x0A := by
      rw [← h.bytes k hk]
      exact h4.resolve_left (by omega)
    refine Or.inl ⟨l.take k, l.drop (k + 1), ?_, hfront, ?_⟩
    · rw [← hnew, ← List.drop_eq_getElem_cons hk, List.take_append_drop]
    · rw [List.length_take, min_eq_left hk.le]
  · rw [List.take_of_length_le (by omega)] at hfront
    exact Or.inr ⟨hfront, by omega⟩

theorem Inside.hasLine (h : Inside q rest cnt g l) (ok : Searchable q) {l₁ l₂ : List UInt8} (hl : l = l₁ ++ l₂) :
    HasLine (Function.update g.data (g.lineStart + l₁.length) 0) g.lineStart l₁ := by
  subst hl
  have hlast := h.last
  have hfull := h.full
  rw [List.length_append] at hlast
  refine ⟨fun c hc => ?_, by omega, fun j hj => ?_, Function.update_self ..⟩
  · apply ok.noNul c
    exact h.pending.suffix.subset (List.mem_append_left _ (List.mem_append_left _ hc))
  · rw [Function.update_of_ne (by omega), h.bytes j (by rw [List.length_append]; omega), List.getElem_append_left]

theorem Inside.store (h : Inside q rest cnt g l) {p : ℕ} (hp : p ≤ 1024) :
    Function.update g.data p 0 1024 ≠ 0x0A ∧ ∀ j, 1024 < j → Function.update g.data p 0 j = q.data j := by
  refine ⟨?_, fun j hj => ?_⟩
  · by_cases he : 1024 = p
    · rw [he, Function.update_self]
      decide
    · rw [Function.update_of_ne he]
      exact h.final
  · rw [Function.update_of_ne (by omega)]
    exact h.behind j hj

/-- How the inner loop ends: between two reads, and with an empty line at the end of the
file. -/
structure Done (q : Search) (rest : List UInt8) (cnt : Int32) (files : FileArray) (g : Grep) : Prop where
  between : ∃ carry, Between q rest carry g
  atEnd : cnt = 0 → g.last = 0
  files : g.sess.files = files

/-- The rest of the buffer goes to the front. -/
theorem Inside.moved (h : Inside q rest cnt g l) (ok : Searchable q) (hl : 0x0A ∉ l) (hstart : g.lineStart ≠ 0) :
    ∃ data, ece391Strcpy g.lineStart 1026 0 (Function.update g.data g.last 0) = some data ∧
      Between q rest l { g with data := data, last := g.last - g.lineStart } := by
  have hlast := h.last
  have hfull := h.full
  obtain ⟨hfinal, hbehind⟩ := h.store hfull
  have hline := h.hasLine ok (List.append_nil l).symm
  rw [hlast] at hline
  obtain ⟨data, hcpy, h1, h2, h3⟩ := ece391Strcpy_eq (Nat.pos_of_ne_zero hstart) hline.noNul 1026 0
    (Function.update g.data g.last 0) (by omega) (Nat.zero_le _) (fun j _ hj => absurd hj (Nat.not_lt_zero j))
    (fun j hj _ => hline.bytes j hj) hline.nul
  refine ⟨data, hcpy, h.pending, ?_, by omega, hl, h1, fun _ => h2, ?_, fun j hj => ?_⟩
  · show g.last - g.lineStart = l.length
    omega
  · show data 1024 ≠ 0x0A
    rw [h3 1024 (by omega)]
    exact hfinal
  · show data j = q.data j
    rw [h3 j (by omega)]
    exact hbehind j hj

/-- One turn of the inner loop: the next line of the buffer, or the end of it. -/
theorem Inside.round (h : Inside q rest cnt g l) (ok : Searchable q) (hs : StreamsOpen g.sess.files) :
    (∃ g' l', q.u.lineRound q.s q.fname cnt g = some (.again g') ∧ l'.length < l.length ∧ Inside q rest cnt g' l' ∧
      g'.sess.files = g.sess.files) ∨
    ∃ g', q.u.lineRound q.s q.fname cnt g = some (.done g') ∧ Done q rest cnt g.sess.files g' := by
  have hlast := h.last
  have hfull := h.full
  unfold User.lineRound
  rcases h.scan with ⟨l₁, l₂, rfl, hl₁, he⟩ | ⟨hl, he⟩
  · rw [List.length_append, List.length_cons] at hlast
    have hnewline : g.data (g.lineStart + l₁.length) = 0x0A := by
      rw [h.bytes l₁.length (by simp), List.getElem_append_right (le_refl _)]
      simp
    have hline := h.hasLine ok rfl
    obtain ⟨hfinal, hbehind⟩ := h.store (show g.lineStart + l₁.length ≤ 1024 by omega)
    have hcheck := @checkLoop_eq q.u q.s q.fname g.sess hs ok.name _ _ _ hline
    have hpend : Owing q (g.sess.dev.wrote q.u.term (lineText (cstr q.s) (cstr q.fname) l₁)) (l₂ ++ rest) := by
      have := h.pending
      rw [List.append_assoc, List.cons_append] at this
      exact this.line hl₁
    simp only [he, hnewline]
    rw [if_neg (fun hc => hc.1 rfl), Nat.add_sub_cancel_left, hcheck, Option.map_some]
    by_cases hl₂ : l₂ = []
    · subst hl₂
      rw [if_pos (by rw [List.length_nil] at hlast; omega)]
      refine Or.inr ⟨_, rfl, ⟨[], hpend, rfl, Nat.zero_le _, by simp, by simp, fun hne => absurd rfl hne, hfinal,
        hbehind⟩, fun _ => rfl, rfl⟩
    · have hpos : 0 < l₂.length := List.length_pos_iff.mpr hl₂
      rw [if_neg (by omega)]
      refine Or.inl ⟨_, l₂, rfl, by rw [List.length_append, List.length_cons]; omega, ?_, rfl⟩
      refine ⟨hpend, ?_, hfull, h.eof, fun j hj => ?_, hfinal, hbehind, fun h0 => ?_⟩
      · show g.lineStart + l₁.length + 1 + l₂.length = g.last
        omega
      · show Function.update g.data _ 0 (g.lineStart + l₁.length + 1 + j) = _
        rw [Function.update_of_ne (by omega),
          show g.lineStart + l₁.length + 1 + j = g.lineStart + (l₁.length + (j + 1)) by omega,
          h.bytes _ (by rw [List.length_append, List.length_cons]; omega), List.getElem_append_right (by omega)]
        simp
      · exact absurd (h.atEnd h0).1 (by simp)
  · simp only [he]
    by_cases hmove : g.data g.last ≠ 0x0A ∧ cnt ≠ 0 ∧ g.lineStart ≠ 0
    · obtain ⟨data, hcpy, hbetween⟩ := h.moved ok hl hmove.2.2
      rw [if_pos hmove, hcpy, Option.map_some]
      exact Or.inr ⟨_, rfl, ⟨l, hbetween⟩, fun h0 => absurd h0 hmove.2.1, rfl⟩
    · -- the buffer is one line, the file ends, or a byte that was left there looks like a newline
      have hline := h.hasLine ok (List.append_nil l).symm
      rw [hlast] at hline
      obtain ⟨hfinal, hbehind⟩ := h.store hfull
      have hcheck := @checkLoop_eq q.u q.s q.fname g.sess hs ok.name _ _ _ hline
      have hrest : rest = [] ∨ ∃ r, rest = 0x0A :: r := by
        by_cases hlt : g.last < 1024
        · exact Or.inl (h.eof hlt)
        · have hlast1024 : g.last = 1024 := by omega
          by_cases h0 : cnt = 0
          · exact Or.inl (h.atEnd h0).2.2
          · have hstart : g.lineStart = 0 := by
              by_contra hne
              exact hmove ⟨hlast1024 ▸ h.final, h0, hne⟩
            exact ok.short.ends h.pending.suffix (by omega) hl
      rw [if_neg hmove, show g.last - g.lineStart = l.length by omega, hcheck, Option.map_some, if_pos (by omega)]
      refine Or.inr ⟨_, rfl, ⟨[], h.pending.cut hl hrest, rfl, Nat.zero_le _, by simp, by simp,
        fun hne => absurd rfl hne, hfinal, hbehind⟩, fun _ => rfl, rfl⟩

/-- **The lines of a buffer.** Whatever it holds behind its data, the inner loop prints what
the finished lines are to give, and keeps the unfinished one. -/
theorem lines_of_buffer (h : Inside q rest cnt g l) (ok : Searchable q) (hs : StreamsOpen g.sess.files) :
    ∃ g', runLoop (q.u.lineRound q.s q.fname cnt) 1026 g = some g' ∧ Done q rest cnt g.sess.files g' := by
  let Inv : ℕ → Grep → Prop := fun left g' => ∃ l', l'.length = left ∧ Inside q rest cnt g' l' ∧
    g'.sess.files = g.sess.files
  have hstep : ∀ left g', Inv left g' →
      (∃ left' g'', q.u.lineRound q.s q.fname cnt g' = some (.again g'') ∧ left' < left ∧ Inv left' g'') ∨
      ∃ r, q.u.lineRound q.s q.fname cnt g' = some (.done r) ∧ Done q rest cnt g.sess.files r := by
    rintro left g' ⟨l', rfl, hin, hfiles⟩
    rcases hin.round ok (hfiles ▸ hs) with ⟨g'', l'', hround, hlt, hin', hf⟩ | ⟨r, hround, hdone⟩
    · exact Or.inl ⟨l''.length, g'', hround, hlt, l'', rfl, hin', hf.trans hfiles⟩
    · exact Or.inr ⟨r, hround, hfiles ▸ hdone⟩
  have hlast := h.last
  have hfull := h.full
  exact runLoop_inv Inv _ hstep ⟨l, rfl, h, rfl⟩ (by omega)

end Buffer

/-! ### One file -/

section File

variable {q : Search} {rest carry l : List UInt8} {g : Grep} {fd : Int32} {i : Fin maxOpenFiles}

/-- A read clears nothing behind the array: the buffer is the whole array, or starts with
a NUL. -/
theorem Between.cleared (h : Between q rest carry g) {j : ℕ} (hj : 1024 ≤ j) :
    clearBuf nameSize 0 (fun x => g.data (g.last + x)) (j - g.last) = g.data j := by
  have hshort := h.short
  have hlast := h.last
  have hlead : leading (fun x => g.data (g.last + x)) ≤ j - g.last := by
    by_cases hc : carry = []
    · have hle := strlen_le_length ((List.range nameSize).map fun x => g.data (g.last + x))
      rw [List.length_map, List.length_range, nameSize] at hle
      rw [hc, List.length_nil] at hlast
      unfold leading nameSize
      omega
    · have hzero : leading (fun x => g.data (g.last + x)) = 0 := by
        have hnul : g.data (g.last + 0) = 0 := by
          rw [Nat.add_zero, hlast]
          exact h.nul hc
        unfold leading
        rw [show List.range nameSize = 0 :: List.range' 1 31 from rfl, List.map_cons, strlen, if_pos hnul]
      omega
  rw [(clearBuf_iff _ _).mpr hlead]
  show g.data (g.last + (j - g.last)) = g.data j
  congr 1
  omega

/-- The array when a piece of the file has been read behind the unfinished line. -/
theorem Between.read {pos : ℕ} (h : Between q (q.text.drop pos) carry g) {piece : List UInt8}
    (hpiece : piece = (q.text.drop pos).take (1024 - g.last)) {files : FileArray} {buf : Buf}
    (hbuf : buf = overlay (clearBuf nameSize 0 fun x => g.data (g.last + x)) piece) :
    Inside q (q.text.drop (pos + piece.length)) (Int32.ofNat piece.length)
      ⟨⟨files, g.sess.dev⟩, fun j => if j < g.last then g.data j else buf (j - g.last), g.last + piece.length, 0⟩
      (carry ++ piece) := by
  have hshort := h.short
  have hlast := h.last
  have hplen : piece.length = min (1024 - g.last) (q.text.length - pos) := by
    rw [hpiece, List.length_take, List.length_drop]
  have hrest : piece ++ q.text.drop (pos + piece.length) = q.text.drop pos := by
    have htake : piece = (q.text.drop pos).take piece.length := by
      rw [hplen, ← List.length_drop, ← List.take_eq_take_min]
      exact hpiece
    rw [← List.drop_drop]
    conv_lhs => rw [htake, List.length_take, List.length_drop]
    rw [show min piece.length (q.text.length - pos) = piece.length by omega, List.take_append_drop]
  have hkeep : ∀ j, 1024 ≤ j → (if j < g.last then g.data j else buf (j - g.last)) = g.data j := by
    intro j hj
    rw [if_neg (by omega), hbuf, overlay_of_ge _ _ (by omega), h.cleared hj]
  refine ⟨?_, ?_, ?_, fun hlt => ?_, fun j hj => ?_, ?_, fun j hj => ?_, fun h0 => ?_⟩
  · have hp := h.pending
    rw [List.append_assoc, hrest]
    exact hp
  · rw [List.length_append]
    show 0 + _ = g.last + piece.length
    omega
  · show g.last + piece.length ≤ 1024
    omega
  · have hlt' : g.last + piece.length < 1024 := hlt
    exact List.drop_eq_nil_of_le (by omega)
  · show (if 0 + j < g.last then g.data (0 + j) else buf (0 + j - g.last)) = _
    rw [List.length_append] at hj
    rw [Nat.zero_add]
    by_cases hjc : j < g.last
    · rw [if_pos hjc, h.bytes j (by omega), List.getElem_append_left]
    · rw [if_neg hjc, hbuf, overlay_of_lt _ _ (by omega), List.getElem_append_right (by omega)]
      simp only [hlast]
  · show (if 1024 < g.last then g.data 1024 else buf (1024 - g.last)) ≠ 0x0A
    rw [hkeep 1024 (le_refl _)]
    exact h.final
  · show (if j < g.last then g.data j else buf (j - g.last)) = _
    rw [hkeep j hj.le]
    exact h.behind j hj
  · have hnil : piece.length = 0 := by
      by_contra hne
      exact count_ne_zero (Nat.pos_of_ne_zero hne) (by omega) h0
    have hdrop : q.text.drop (pos + piece.length) = [] := List.drop_eq_nil_of_le (by omega)
    refine ⟨?_, rfl, hdrop⟩
    rw [List.length_eq_zero_iff.mp hnil, List.append_nil]
    exact h.unfinished

/-- What a turn of the outer loop does behind its read: it goes on between two reads, or
ends the search. -/
theorem fileRound_read {sess : Session} {buf : Buf} {m : ℕ} (hm : m ≤ 1024) (ok : Searchable q)
    (hs : StreamsOpen sess.files)
    (hread : q.u.ece391Read g.sess fd (fun j => g.data (g.last + j)) (Int32.ofNat (1024 - g.last)) =
      some (sess, Int32.ofNat m, buf))
    (hin : Inside q rest (Int32.ofNat m)
      ⟨sess, fun j => if j < g.last then g.data j else buf (j - g.last), g.last + m, 0⟩ l) :
    ∃ g', (∃ carry, Between q rest carry g') ∧ g'.sess.files = sess.files ∧ (m = 0 → g'.last = 0) ∧
      q.u.fileRound q.s q.fname fd g = if m = 0 then
        (q.u.finish fd g'.sess).map fun r => .done (r.1, g'.data, r.2) else some (.again g') := by
  obtain ⟨g', hrun, hdone⟩ := lines_of_buffer hin ok hs
  have hint : (Int32.ofNat m).toInt = m := toInt_count (by omega)
  have hzero : Int32.ofNat m = 0 ↔ m = 0 :=
    ⟨fun h0 => by_contra fun hne => count_ne_zero (Nat.pos_of_ne_zero hne) (by omega) h0, fun h0 => by rw [h0]; rfl⟩
  have hneg : ¬ Int32.ofNat m < 0 := by
    rw [Int32.lt_iff_toInt_lt, hint, Int32.toInt_zero]
    omega
  refine ⟨g', hdone.between, hdone.files, fun h0 => hdone.atEnd (hzero.mpr h0), ?_⟩
  unfold User.fileRound
  simp only [hread, Option.bind_some, if_neg (count_ne_fail (show m < 2 ^ 31 by omega)), if_neg hneg, hint,
    Int.toNat_natCast, hrun, hzero]

/-- The table when slot `i` has been closed. -/
def Closed (fa : FileArray) (i : Fin maxOpenFiles) (fa' : FileArray) : Prop :=
  ∃ slot : Fd, slot.flags = 0 ∧ fa' = Function.update fa i slot

theorem finish_eq {u : User} {sess : Session} (hfd : slotOf fd = some i) (hflags : (sess.files i).flags ≠ 0)
    (hop : callClose (sess.files i).fopJumpTable.closeOp (sess.files i).inode = 0) :
    ∃ files, u.finish fd sess = some (⟨files, sess.dev⟩, 0) ∧ Closed sess.files i files := by
  have hclose : closeFile sess.files fd = (0, Function.update sess.files i (closedFd (sess.files i))) := by
    unfold closeFile
    simp only [hfd, if_neg hflags, hop]
  refine ⟨_, ?_, closedFd (sess.files i), rfl, rfl⟩
  unfold User.finish User.ece391Close Session.call fileRequest
  simp only [hclose, Option.map_some, Option.bind_some]
  rfl

theorem Between.all (h : Between q [] carry g) (hlast : g.last = 0) :
    g.sess.dev = q.dev.wrote q.u.term (q.gives q.text) := by
  obtain ⟨out, hdev, hout⟩ := h.pending.printed
  have hc : carry = [] := List.length_eq_zero_iff.mp (h.last.symm.trans hlast)
  have hnone : q.gives [] = [] := grepText_nil
  rw [hc, List.append_nil, hnone, List.append_nil] at hout
  rw [hdev, hout]

/-- How `do_one_file` ends: everything printed, the file closed, and nothing stored behind
the array. -/
def Searched (q : Search) (i : Fin maxOpenFiles) (files : FileArray) (r : Session × Buf × Int32) : Prop :=
  r.2.2 = 0 ∧ r.1.dev = q.dev.wrote q.u.term (q.gives q.text) ∧ Closed files i r.1.files ∧
    ∀ j, 1024 < j → r.2.1 j = q.data j

theorem fileRound_done (h : Between q [] carry g) (hlast : g.last = 0) {files : FileArray}
    (hm : Moved files i g.sess.files) (hfd : slotOf fd = some i) (hflags : (files i).flags ≠ 0)
    (hop : callClose (files i).fopJumpTable.closeOp (files i).inode = 0) :
    ∃ r, (q.u.finish fd g.sess).map (fun r => (r.1, g.data, r.2)) = some r ∧ Searched q i files r := by
  obtain ⟨pos, hpos⟩ := hm
  have hself : g.sess.files i = { files i with filePosition := pos } := by rw [hpos, Function.update_self]
  obtain ⟨fa, hfin, slot, hslot, rfl⟩ := @finish_eq fd i q.u g.sess hfd (by rw [hself]; exact hflags)
    (by rw [hself]; exact hop)
  refine ⟨_, by rw [hfin]; rfl, rfl, h.all hlast, ⟨slot, hslot, ?_⟩, h.behind⟩
  show Function.update g.sess.files i slot = _
  rw [hpos, Function.update_idem]

/-- The outer loop on a regular file. -/
theorem search_file {inodeNum : UInt32} (ok : Searchable q) (htext : q.text = contents q.u.img inodeNum)
    (hin : inodeNum < q.u.img.boot.numInodes) (hlen : q.text.length ≤ 1023 * 4096) (hfd : slotOf fd = some i)
    (hs : StreamsOpen g.sess.files) (hst : Streaming g.sess.files i inodeNum 0)
    (hop : callClose (g.sess.files i).fopJumpTable.closeOp (g.sess.files i).inode = 0) (h : Between q q.text [] g)
    {rounds : ℕ} (hrounds : q.text.length < rounds) :
    ∃ r, runLoop (q.u.fileRound q.s q.fname fd) rounds g = some r ∧ Searched q i g.sess.files r := by
  let Inv : ℕ → Grep → Prop := fun left g' => ∃ pos carry, left = q.text.length - pos ∧ pos ≤ q.text.length ∧
    Streaming g'.sess.files i inodeNum pos ∧ Moved g.sess.files i g'.sess.files ∧
    Between q (q.text.drop pos) carry g'
  have h0 : Inv q.text.length g := ⟨0, [], rfl, Nat.zero_le _, hst, Moved.refl _ _, h⟩
  have hstep : ∀ left g', Inv left g' →
      (∃ left' g'', q.u.fileRound q.s q.fname fd g' = some (.again g'') ∧ left' < left ∧ Inv left' g'') ∨
      ∃ r, q.u.fileRound q.s q.fname fd g' = some (.done r) ∧ Searched q i g.sess.files r := by
    rintro left g' ⟨pos, carry, rfl, hpos, hst', hm, hb⟩
    have hlast := hb.last
    have hshort := hb.short
    have hsize : (Int32.ofNat (1024 - g'.last)).toInt = (1024 - g'.last : ℕ) := toInt_count (by omega)
    obtain ⟨piece, hpiece⟩ : ∃ piece, piece = (q.text.drop pos).take (1024 - g'.last) := ⟨_, rfl⟩
    have hplen : piece.length = min (1024 - g'.last) (q.text.length - pos) := by
      rw [hpiece, List.length_take, List.length_drop]
    have hn : 0 < Int32.ofNat (1024 - g'.last) := by
      rw [Int32.lt_iff_toInt_lt, hsize, Int32.toInt_zero]
      omega
    obtain ⟨fa', hread, hst'', hm'⟩ := @read_file q.u g'.sess fd _ i (fun j => g'.data (g'.last + j)) inodeNum pos
      hst' hfd hin (htext ▸ hlen) (htext ▸ hpos) hn piece (by rw [hsize, Int.toNat_natCast, ← htext]; exact hpiece)
    have hinside := @Between.read q carry g' pos hb piece hpiece fa' _ rfl
    have hs' : StreamsOpen fa' := (hs.moved hm).moved hm'
    obtain ⟨g'', ⟨carry', hb'⟩, hfiles, hend, hround⟩ := fileRound_read (by omega) ok hs' hread hinside
    have hm'' : Moved g.sess.files i g''.sess.files := by
      rw [hfiles]
      exact hm.trans hm'
    by_cases hnil : piece.length = 0
    · rw [if_pos hnil] at hround
      rw [List.drop_eq_nil_of_le (by omega)] at hb'
      obtain ⟨r, hr, hdone⟩ := fileRound_done hb' (hend hnil) hm'' hfd (by rw [hst.flags]; decide) hop
      refine Or.inr ⟨r, ?_, hdone⟩
      obtain ⟨x, hx, rfl⟩ := Option.map_eq_some_iff.mp hr
      rw [hround, hx, Option.map_some]
    · rw [if_neg hnil] at hround
      refine Or.inl ⟨q.text.length - (pos + piece.length), g'', hround, by omega, pos + piece.length, carry', rfl,
        by omega, ?_, hm'', hb'⟩
      rw [hfiles]
      exact hst''
  exact runLoop_inv Inv _ hstep h0 hrounds

theorem between_start {sess : Session} (hdev : sess.dev = q.dev) (hfinal : q.data 1024 ≠ 0x0A) :
    Between q q.text [] ⟨sess, q.data, 0, 0⟩ :=
  ⟨⟨List.suffix_refl _, [], by rw [Devices.wrote_nil]; exact hdev, rfl⟩, rfl, Nat.zero_le _, by simp, by simp,
    fun hne => absurd rfl hne, hfinal, fun _ _ => rfl⟩

/-- The outer loop on the clock, which has no text: a read that waits for a tick. -/
theorem search_clock {sess : Session} (ok : Searchable q) (htext : q.text = []) (hfinal : q.data 1024 ≠ 0x0A)
    (hdev : q.dev = readDevices sess.dev .rtcRead) (hfd : slotOf fd = some i) (hs : StreamsOpen sess.files)
    (hclock : (sess.files i).fopJumpTable = ⟨.rtcRead, .rtcWrite, .rtcOpen, .rtcClose⟩)
    (hflags : (sess.files i).flags = 1) (rounds : ℕ) :
    ∃ r, runLoop (q.u.fileRound q.s q.fname fd) (rounds + 1) ⟨sess, q.data, 0, 0⟩ = some r ∧
      Searched q i sess.files r := by
  have hne : (sess.files i).flags ≠ 0 := by
    rw [hflags]
    decide
  obtain ⟨fa', hread, hm⟩ := @read_clock q.u sess fd (Int32.ofNat (1024 - 0)) i (fun j => q.data (0 + j)) hfd
    (by rw [hclock]) hne
  have hinside : Inside q [] (Int32.ofNat 0) ⟨⟨fa', readDevices sess.dev .rtcRead⟩,
      fun j => if j < 0 then q.data j else q.data (0 + (j - 0)), 0 + 0, 0⟩ [] := by
    have hkeep : ∀ j, (if j < 0 then q.data j else q.data (0 + (j - 0))) = q.data j := by
      intro j
      rw [if_neg (Nat.not_lt_zero j), Nat.zero_add, Nat.sub_zero]
    refine ⟨⟨List.nil_suffix, [], ?_, by rw [htext]; rfl⟩, rfl, Nat.zero_le _, fun _ => rfl, by simp, ?_,
      fun j _ => hkeep j, fun _ => ⟨by simp, rfl, rfl⟩⟩
    · rw [Devices.wrote_nil, hdev]
    · show (if 1024 < 0 then q.data 1024 else q.data (0 + (1024 - 0))) ≠ 0x0A
      rw [hkeep 1024]
      exact hfinal
  obtain ⟨g', ⟨carry, hb⟩, hfiles, hend, hround⟩ :=
    @fileRound_read q [] [] ⟨sess, q.data, 0, 0⟩ fd _ _ 0 (Nat.zero_le _) ok (hs.moved hm) hread hinside
  obtain ⟨r, hr, hdone⟩ := fileRound_done hb (hend rfl) (hfiles.symm ▸ hm) hfd hne (by rw [hclock]; rfl)
  obtain ⟨x, hx, rfl⟩ := Option.map_eq_some_iff.mp hr
  refine ⟨_, ?_, hdone⟩
  rw [runLoop, hround, if_pos rfl, hx, Option.map_some]

end File

/-! ### The files of the directory -/

/-- The text of an entry: the bytes of a file, nothing of the clock. -/
def fileText (img : Image) (d : Dentry) : List UInt8 := if d.fileType = 2 then contents img d.inodeNum else []

/-- The devices when an entry has been read to its end. -/
def readDevicesOf (dev : Devices) (d : Dentry) : Devices := if d.fileType = 0 then readDevices dev .rtcRead else dev

/-- A call of `do_one_file` for an entry. -/
def searchOf (u : User) (s fname : List UInt8) (d : Dentry) (dev : Devices) (data : Buf) : Search :=
  ⟨u, s, fname, fileText u.img d, readDevicesOf dev d, data⟩

section Entry

variable {u : User} {s fname : List UInt8} {sess : Session} {data : Buf} {d : Dentry} {i : Fin maxOpenFiles}

theorem Closed.of_update {fa fa' : FileArray} {slot : Fd} (h : Closed (Function.update fa i slot) i fa') :
    Closed fa i fa' := by
  obtain ⟨c, hc, rfl⟩ := h
  exact ⟨c, hc, Function.update_idem ..⟩

/-- **One file.** For every regular file without NULs and without lines longer than the
buffer, and for the clock, whatever the array holds except a newline in its last byte:
`do_one_file` ends and returns 0, has printed exactly the lines with the string in them,
each behind the file's name and a colon, has closed the file, and has stored nothing behind
its array. -/
theorem grep_file (hwf : WellFormed u.img) (hd : readDentryByName u.img.boot fname = some d)
    (htype : d.fileType = 0 ∨ d.fileType = 2) (ok : Searchable (searchOf u s fname d sess.dev data))
    (hfinal : data 1024 ≠ 0x0A) (hs : StreamsOpen sess.files) (hfree : firstFree sess.files = some i) {rounds : ℕ}
    (hrounds : 1023 * 4096 < rounds) :
    ∃ r, u.doOneFile s fname rounds sess data = some r ∧
      Searched (searchOf u s fname d sess.dev data) i sess.files r := by
  obtain ⟨ops, hops⟩ : ∃ ops, fileTable d.fileType = some ops := by
    rcases htype with h | h <;> (rw [h]; exact ⟨_, rfl⟩)
  have hopen := ece391Open_eq hd hfree hops
  have hs' := hs.update hfree (openedFd d ops)
  have hself : Function.update sess.files i (openedFd d ops) i = openedFd d ops := Function.update_self ..
  obtain ⟨q, hq⟩ : ∃ q, q = searchOf u s fname d sess.dev data := ⟨_, rfl⟩
  have hu : q.u = u ∧ q.s = s ∧ q.fname = fname ∧ q.data = data := by
    rw [hq]
    exact ⟨rfl, rfl, rfl, rfl⟩
  obtain ⟨rfl, rfl, rfl, rfl⟩ := hu
  rw [← hq] at ok ⊢
  unfold User.doOneFile
  simp only [hopen, Option.bind_some, if_neg (slot_ne_fail (slotOf_ofNat i))]
  suffices hloop : ∃ r, runLoop (q.u.fileRound q.s q.fname (Int32.ofNat i)) rounds
      ⟨⟨Function.update sess.files i (openedFd d ops), sess.dev⟩, q.data, 0, 0⟩ = some r ∧
      Searched q i (Function.update sess.files i (openedFd d ops)) r by
    obtain ⟨r, hrun, h0, hdev, hclosed, hbehind⟩ := hloop
    exact ⟨r, hrun, h0, hdev, hclosed.of_update, hbehind⟩
  rcases htype with hclock | hreg
  · obtain rfl : ⟨.rtcRead, .rtcWrite, .rtcOpen, .rtcClose⟩ = ops := by
      rw [hclock] at hops
      exact Option.some.inj hops
    obtain ⟨rounds, rfl⟩ : ∃ m, rounds = m + 1 := ⟨rounds - 1, by omega⟩
    have htext : q.text = [] := by
      rw [show q.text = fileText q.u.img d from congrArg Search.text hq, fileText, hclock]
      rfl
    have hdev : q.dev = readDevices sess.dev .rtcRead := by
      rw [show q.dev = readDevicesOf sess.dev d from congrArg Search.dev hq, readDevicesOf, if_pos hclock]
    exact @search_clock q _ i ⟨Function.update sess.files i _, sess.dev⟩ ok htext hfinal hdev (slotOf_ofNat i) hs'
      (congrArg Fd.fopJumpTable hself) (congrArg Fd.flags hself) rounds
  · obtain rfl : ⟨.fileRead, .fileWrite, .fileOpen, .fileClose⟩ = ops := by
      rw [hreg] at hops
      exact Option.some.inj hops
    have htext : q.text = contents q.u.img d.inodeNum := by
      rw [show q.text = fileText q.u.img d from congrArg Search.text hq, fileText, if_pos hreg]
    have hdev : sess.dev = q.dev := by
      rw [show q.dev = readDevicesOf sess.dev d from congrArg Search.dev hq, readDevicesOf,
        if_neg (by rw [hreg]; decide)]
    obtain ⟨e, he⟩ := readDentryByName_mem hd
    have hin := hwf.regular e
    rw [he] at hin
    have hlen : q.text.length ≤ 1023 * 4096 := by
      rw [htext, length_contents]
      exact hwf.length _ (UInt32.lt_iff_toNat_lt.mp (hin hreg))
    have hst : Streaming (Function.update sess.files i (openedFd d ⟨.fileRead, .fileWrite, .fileOpen, .fileClose⟩)) i
        d.inodeNum 0 :=
      { readOp := by rw [hself]; rfl
        inode := by rw [hself]; rfl
        fileType := by rw [hself, openedFd, hreg]; rfl
        position := by rw [hself]; rfl
        flags := by rw [hself]; rfl }
    obtain ⟨files, hfiles⟩ : ∃ files, files =
        Function.update sess.files i (openedFd d ⟨.fileRead, .fileWrite, .fileOpen, .fileClose⟩) := ⟨_, rfl⟩
    rw [← hfiles] at hself hst hs' ⊢
    have hclose : callClose (files i).fopJumpTable.closeOp (files i).inode = 0 := by
      rw [hself]
      rfl
    exact search_file ok htext (hin hreg) hlen (slotOf_ofNat i) hs' hst hclose
      (@between_start q ⟨files, sess.dev⟩ hdev hfinal) (hlen.trans_lt hrounds)

end Entry

/-! ### The program -/

/-- The lines `grep` prints for the entry `x`: none for a name that starts with a dot. -/
def entryMatches (img : Image) (s : List UInt8) (x : ℕ) : List UInt8 :=
  if (nameOf img x).headD 0 = 0x2E then []
  else
    match readDentryByName img.boot (nameOf img x) with
    | some d => grepText s (nameOf img x) (fileText img d)
    | none => []

/-- A directory `grep` is right about: the names without a dot are those of the clock and
of files without NULs and without long lines. -/
def Greppable (img : Image) : Prop :=
  ∀ x < img.boot.numDentries.toNat, (nameOf img x).headD 0 ≠ 0x2E →
    ∀ d, readDentryByName img.boot (nameOf img x) = some d →
      (d.fileType = 0 ∨ d.fileType = 2) ∧ (∀ c ∈ fileText img d, c ≠ 0) ∧ ShortLines (fileText img d)

section Main

variable {u : User} {s : List UInt8} {sess : Session} {buf : Buf} {fd : Int32} {i j : Fin maxOpenFiles} {pos : ℕ}

theorem nameOf_noNul {img : Image} {x : ℕ} : ∀ c ∈ nameOf img x, c ≠ 0 := by
  intro c hc
  unfold nameOf at hc
  split_ifs at hc with hx
  · exact ne_of_mem_cstr hc
  · cases hc

theorem length_nameOf (img : Image) (x : ℕ) : (nameOf img x).length ≤ 32 := by
  unfold nameOf
  split_ifs with hx
  · exact length_entryName_le _
  · exact Nat.zero_le _

/-- A name of the directory is found. -/
theorem lookup_nameOf {img : Image} (h : DirImage img) {x : ℕ} (hx : x < img.boot.numDentries.toNat) :
    ∃ d, readDentryByName img.boot (nameOf img x) = some d := by
  have hmax := numDentries_le h
  have hx63 : x < maxDentries := by
    simp only [maxDentries]
    omega
  by_contra hno
  have hnone := Option.eq_none_iff_forall_ne_some.mpr fun d hd => hno ⟨d, hd⟩
  have hname : nameOf img x = entryName (img.boot.dentries ⟨x, hx63⟩) := dif_pos hx63
  have hkey : lookupKey (nameOf img x) = nameOf img x := by
    unfold lookupKey
    rw [show cstr (nameOf img x) = nameOf img x from by rw [hname, entryName, cstr_cstr],
      List.take_of_length_le (length_nameOf img x)]
  refine (readDentryByName_eq_none_iff h.typesKnown).mp hnone ⟨?_, ⟨x, hx63⟩, ?_⟩
  · rw [hkey, hname]
    exact List.length_pos_iff.mp (entryName_ne_nil (h.named ⟨x, hx63⟩ hx))
  · rw [hkey, hname]

theorem firstFree_congr {fa fa' : FileArray} (h : ∀ x, (fa' x).flags = (fa x).flags) :
    firstFree fa' = firstFree fa := by
  unfold firstFree
  simp only [h]

theorem Moved.firstFree {fa fa' : FileArray} (h : Moved fa i fa') : firstFree fa' = firstFree fa := by
  obtain ⟨p, rfl⟩ := h
  refine firstFree_congr fun x => ?_
  by_cases hx : x = i
  · rw [hx, Function.update_self]
  · rw [Function.update_of_ne hx]

theorem Closed.firstFree {fa fa' : FileArray} (h : Closed fa j fa') (hfree : Mp3Kernel.firstFree fa = some j) :
    Mp3Kernel.firstFree fa' = some j := by
  obtain ⟨slot, hslot, rfl⟩ := h
  refine (firstFree_congr fun x => ?_).trans hfree
  by_cases hx : x = j
  · rw [hx, Function.update_self, hslot, flags_of_firstFree hfree]
  · rw [Function.update_of_ne hx]

/-- What the loop of `main` keeps: the directory is listed from slot `i`, and `j` is the
slot files are opened in. -/
structure Searching (i j : Fin maxOpenFiles) (pos : ℕ) (files : FileArray) : Prop where
  streams : StreamsOpen files
  listing : Listing files i pos
  free : firstFree files = some j

theorem Searching.closed {files files' : FileArray} (h : Searching i j pos files) (hc : Closed files j files') :
    Searching i j pos files' := by
  have hfree := hc.firstFree h.free
  obtain ⟨slot, hslot, rfl⟩ := hc
  have hne : i ≠ j := by
    rintro rfl
    have hflags := h.listing.flags
    rw [flags_of_firstFree h.free] at hflags
    cases hflags
  refine ⟨h.streams.update h.free slot, ?_, hfree⟩
  have hself : Function.update files j slot i = files i := Function.update_of_ne hne ..
  exact
    { readOp := by rw [hself]; exact h.listing.readOp
      fileType := by rw [hself]; exact h.listing.fileType
      position := by rw [hself]; exact h.listing.position
      flags := by rw [hself]; exact h.listing.flags }

/-- The devices but for the flag of the clock, which a read of it lowers. -/
def exceptTick (dev : Devices) : Devices := { dev with readFlag := false }

theorem exceptTick_readDevicesOf (dev : Devices) (d : Dentry) :
    exceptTick (readDevicesOf dev d) = exceptTick dev := by
  unfold readDevicesOf readDevices
  split_ifs <;> rfl

theorem exists_firstFree {fa : FileArray} (h : ∃ i j, i ≠ j ∧ (fa i).flags = 0 ∧ (fa j).flags = 0) :
    ∃ i, firstFree fa = some i := by
  obtain ⟨i, -, -, hi, -⟩ := h
  by_contra hno
  exact firstFree_none_iff.mp (Option.eq_none_iff_forall_ne_some.mpr fun x hx => hno ⟨x, hx⟩) i hi

theorem another_firstFree {fa : FileArray} (h : ∃ i j, i ≠ j ∧ (fa i).flags = 0 ∧ (fa j).flags = 0)
    (i : Fin maxOpenFiles) (slot : Fd) : ∃ j, firstFree (Function.update fa i slot) = some j := by
  obtain ⟨a, b, hab, ha, hb⟩ := h
  have hfree : ∃ x, x ≠ i ∧ (fa x).flags = 0 := by
    by_cases hai : a = i
    · exact ⟨b, fun hbi => hab (hai.trans hbi.symm), hb⟩
    · exact ⟨a, hai, ha⟩
  obtain ⟨x, hx, hflags⟩ := hfree
  by_contra hno
  refine firstFree_none_iff.mp (Option.eq_none_iff_forall_ne_some.mpr fun y hy => hno ⟨y, hy⟩) x ?_
  rw [Function.update_of_ne hx, hflags]

theorem cstr_entry {name : List UInt8} (hnul : ∀ c ∈ name, c ≠ 0) (hlen : name.length ≤ 32) (buf : Buf) :
    cstr (arrayText (Function.update (overlay buf name) name.length 0) 33) = name := by
  refine cstr_arrayText (by omega) (fun j hj => ?_) (Function.update_self ..) hnul
  rw [Function.update_of_ne (by omega), overlay_of_lt _ _ hj]

/-- One turn of the loop of `main`: what the entry is to give has been printed. -/
theorem grepRound_entry (hwf : WellFormed u.img) (himg : DirImage u.img) (hok : Greppable u.img) {junk : ℕ → Buf}
    (hjunk : ∀ n, junk n 1024 ≠ 0x0A) {rounds : ℕ} (hrounds : 1023 * 4096 < rounds) (hfd : slotOf fd = some i)
    (hpos : pos < u.img.boot.numDentries.toNat) {x : Session × Buf × ℕ} (h : Searching i j pos x.1.files) :
    ∃ x', u.grepRound s junk rounds fd x = some (.again x') ∧ Searching i j (pos + 1) x'.1.files ∧
      exceptTick x'.1.dev = (exceptTick x.1.dev).wrote u.term (entryMatches u.img (cstr s) pos) := by
  obtain ⟨sess, buf, n⟩ := x
  obtain ⟨fa', hread, hl, hm⟩ := @read_directory u sess fd 32 i buf pos 32 himg h.listing hfd hpos rfl (by decide)
  rw [entryText_name himg hpos] at hread
  obtain ⟨name, hname⟩ : ∃ name, name = nameOf u.img pos := ⟨_, rfl⟩
  have hlen : name.length ≤ 32 := hname ▸ length_nameOf u.img pos
  have hnul : ∀ c ∈ name, c ≠ 0 := hname ▸ nameOf_noNul
  have hlong : 0 < name.length := by
    rw [hname, ← entryText_name himg hpos]
    exact entryText_pos himg hpos (by decide)
  rw [← hname] at hread
  have hnow : Searching i j (pos + 1) fa' := ⟨h.streams.moved hm, hl, by rw [hm.firstFree]; exact h.free⟩
  have hint : (Int32.ofNat name.length).toInt = name.length := toInt_count (by omega)
  have hneg : ¬ Int32.ofNat name.length < 0 := by
    rw [Int32.lt_iff_toInt_lt, hint, Int32.toInt_zero]
    omega
  have hfirst : overlay (clearBuf nameSize 0 buf) name 0 = name.headD 0 := by
    rw [overlay_of_lt _ _ hlong, headD_eq_getD, List.getD_eq_getElem _ _ hlong]
  unfold User.grepRound
  simp only [hread, Option.bind_some, if_neg (count_ne_zero hlong (by omega)),
    if_neg (count_ne_fail (show name.length < 2 ^ 31 by omega)), hfirst, if_neg hneg, hint, Int.toNat_natCast]
  unfold entryMatches
  rw [← hname]
  by_cases hdot : name.headD 0 = 0x2E
  · rw [if_pos hdot, if_pos hdot]
    exact ⟨_, rfl, hnow, (Devices.wrote_nil ..).symm⟩
  · rw [if_neg hdot, if_neg hdot]
    obtain ⟨d, hd⟩ := lookup_nameOf himg hpos
    obtain ⟨htype, htext, hshort⟩ := hok pos hpos (hname ▸ hdot) d hd
    rw [← hname] at hd
    have hcstr := cstr_entry hnul hlen (clearBuf nameSize 0 buf)
    obtain ⟨fname, hfname⟩ : ∃ fname, fname =
      arrayText (Function.update (overlay (clearBuf nameSize 0 buf) name) name.length 0) 33 := ⟨_, rfl⟩
    rw [← hfname] at hcstr ⊢
    have hd' : readDentryByName u.img.boot fname = some d := by rw [← readDentryByName_cstr, hcstr, hd]
    have ok : Searchable (searchOf u s fname d sess.dev (junk n)) :=
      ⟨htext, hshort, by show strlen fname < 2 ^ 31; rw [strlen_eq_length_cstr, hcstr]; omega⟩
    obtain ⟨r, hrun, h0, hdev, hclosed, -⟩ := @grep_file u s fname ⟨fa', sess.dev⟩ (junk n) d j hwf hd' htype ok
      (hjunk n) hnow.streams hnow.free rounds hrounds
    refine ⟨_, by rw [hrun, Option.map_some, if_neg (not_not_intro h0)], hnow.closed hclosed, ?_⟩
    have hgives : (searchOf u s fname d sess.dev (junk n)).gives (fileText u.img d) =
        grepText (cstr s) name (fileText u.img d) := by
      rw [← hcstr]
      rfl
    show exceptTick r.1.dev = _
    simp only [hd]
    rw [hdev, ← hgives, ← exceptTick_readDevicesOf sess.dev d]
    rfl

/-- **What `grep` prints.** For every well-formed image whose directory lists, apart from
names with a dot, the clock and files without NULs and without lines of more than 1024
bytes, every string given as the argument, whatever the arrays hold except a newline in the
last byte of one, and every table with open streams and two free slots: `grep` ends, has
printed for every entry in turn exactly the lines of the file in which the string is found,
each behind the name and a colon, and returns 0; behind a full directory it complains and
returns 3. A string that starts with a byte of 0x80 or more is found in no line. -/
theorem grep_prints (hwf : WellFormed u.img) (himg : DirImage u.img) (hok : Greppable u.img) {k : Kernel}
    (hargs : cstr (k.pcbOf k.running).args = s) (hlen : s.length < argsSize) {dot : Dentry}
    (hdot : readDentryByName u.img.boot (ascii "." ++ [0]) = some dot) (hdir : dot.fileType = 1) {junk : ℕ → Buf}
    (hjunk : ∀ n, junk n 1024 ≠ 0x0A) (hs : StreamsOpen sess.files)
    (hfree : ∃ i j, i ≠ j ∧ (sess.files i).flags = 0 ∧ (sess.files j).flags = 0) (search buf : Buf) {rounds : ℕ}
    (hrounds : 1023 * 4096 < rounds) :
    ∃ s', u.grepMain k junk rounds sess search buf =
        some (s', if u.img.boot.numDentries.toNat = 63 then 3 else 0) ∧
      exceptTick s'.dev = (exceptTick sess.dev).wrote u.term
        ((List.range u.img.boot.numDentries.toNat).flatMap (entryMatches u.img s) ++
          if u.img.boot.numDentries.toNat = 63 then ascii "directory entry read failed\n" else []) := by
  obtain ⟨hret, htext⟩ := getargs_text hargs hlen search
  obtain ⟨i, hi⟩ := exists_firstFree hfree
  obtain ⟨slot, fd, hopen, hfd, hl, hs'⟩ := open_directory hdot hdir hs hi
  obtain ⟨j, hj⟩ := another_firstFree hfree i slot
  have hmax := numDentries_le himg
  unfold User.grepMain
  simp only [hret, hopen, Option.bind_some, if_neg (slot_ne_fail hfd)]
  rw [if_neg (not_not_intro rfl), ← htext]
  refine listing_loop (x := (⟨Function.update sess.files i slot, sess.dev⟩, buf, 0)) exceptTick
    (fun x : Session × Buf × ℕ => exceptTick x.1.dev) (fun pos x => Searching i j pos x.1.files) ?_ ?_ ⟨hs', hl, hj⟩
    (by omega)
  · intro pos x hpos hx
    exact grepRound_entry hwf himg hok hjunk hrounds hfd hpos hx
  · rintro ⟨sess', buf', n⟩ hx
    obtain ⟨fa', buf'', hread, hm⟩ := @read_directory_end u sess' fd 32 i buf' himg hx.listing hfd (by decide)
    unfold User.grepRound
    simp only [hread, Option.bind_some]
    by_cases h63 : u.img.boot.numDentries.toNat = 63
    · simp only [if_pos h63]
      rw [if_neg (by decide), if_pos trivial, giveUp_eq (hx.streams.moved hm) (by decide) (by decide)]
      exact ⟨_, rfl, rfl⟩
    · simp only [if_neg h63]
      rw [if_pos trivial]
      exact ⟨_, rfl, (Devices.wrote_nil ..).symm⟩

end Main

/-- A child of the base shell that was given the argument "ELF". -/
def grepElf : List Event :=
  [.execute (frameOf 0) zeros (some (shellName.take 5 ++ 0x20 :: (ascii "ELF" ++ 0 :: [])))]

theorem greppable_smallImage : Greppable smallImage := by
  intro x hx hdot d hd
  have hcase : x = 0 ∨ x = 1 ∨ x = 2 := by
    have h3 : x < 3 := hx
    omega
  rcases hcase with rfl | rfl | rfl
  · exact absurd (by decide +kernel) hdot
  · have hfile : readDentryByName smallImage.boot (nameOf smallImage 1) = some (smallImage.boot.dentries 1) := rfl
    obtain rfl := Option.some.inj (hfile.symm.trans hd)
    exact ⟨Or.inr rfl, by decide +kernel, fun l hl _ => hl.length_le.trans (by decide +kernel)⟩
  · have hclock : readDentryByName smallImage.boot (nameOf smallImage 2) = some (smallImage.boot.dentries 2) := rfl
    obtain rfl := Option.some.inj (hclock.symm.trans hd)
    exact ⟨Or.inl rfl, by decide +kernel, fun l hl _ => hl.length_le.trans (by decide +kernel)⟩

/-- `grep ELF` prints the first line of the file "shell". -/
theorem grep_prints_elf : ∃ s', smallUser.grepMain (smallRun grepElf).2 (fun _ _ => 7) 5000000
      ⟨childFiles, offKernel.dev⟩ (fun _ => 0) (fun _ => 0) = some (s', 0) ∧
    s'.dev.console = (ascii "shell:\x7FELF" ++ [4, 5, 6, 7, 8, 9, 10]).map (·, 0) := by
  have hargs : cstr ((smallRun grepElf).2.pcbOf (smallRun grepElf).2.running).args = ascii "ELF" := by
    decide +kernel
  have hdot : readDentryByName smallImage.boot (ascii "." ++ [0]) = some (smallImage.boot.dentries 0) := rfl
  obtain ⟨s', hrun, hdev⟩ := @grep_prints smallUser (ascii "ELF") ⟨childFiles, offKernel.dev⟩ wellFormed_smallImage
    dirImage_smallImage greppable_smallImage _ hargs (by decide) _ hdot rfl (fun _ _ => 7) (fun _ => by decide)
    undisturbed_childFiles.streams ⟨2, 3, by decide, by decide, by decide⟩ (fun _ => 0) (fun _ => 0) 5000000
    (by decide)
  refine ⟨s', hrun, ?_⟩
  have hconsole : (exceptTick s'.dev).console = s'.dev.console := rfl
  rw [← hconsole, hdev]
  decide +kernel

end Mp3Kernel
