import NgxPlus.Socks5.Passwd

/-!
# Files that `parse_properties` reads as they are written (`ngx_stream_socks5_module.c`)

`parse_properties_iff`: which password files give exactly the pairs that they were written from.
Three places decide it:

* the length of a password counts on the newline (`length-equal-1`, `:1588`): of a last line without
  one the last byte is lost;
* `del_tail` (`:1595`) puts NULs for the trailing blanks and leaves `passwd.len` as it is;
* `line` moves on in the buffer of 2048 bytes with every pair (`:1587`), and `fgets` may still write
  2048 bytes there.
-/

namespace NgxPlus.Socks5

open ByteMem

/-! ## The file as it is written -/

/-- A user and a password that a line can hold. -/
structure Pair where
  user : Bytes
  pass : Bytes
  user_ne_nil : user ≠ []
  no_equal : equalSign ∉ user
  no_hash : user.head? ≠ some 0x23
  user_clean : newline ∉ user ∧ 0 ∉ user
  pass_clean : newline ∉ pass ∧ 0 ∉ pass
  pass_ends : ∃ q c, pass = q ++ [c] ∧ isBlank c = false

def Pair.auth (p : Pair) : Auth := ⟨p.user, p.pass⟩

/-- Without its newline. -/
inductive Line
  | comment (text : Bytes) (text_clean : newline ∉ text)
  | entry (pair : Pair) (blanks : Bytes) (blank : ∀ c ∈ blanks, c = 0x20 ∨ c = 0x09)

namespace Line

def bytes : Line → Bytes
  | comment text _ => 0x23 :: text
  | entry p blanks _ => p.user ++ equalSign :: (p.pass ++ blanks)

def auth : Line → Option Auth
  | comment .. => none
  | entry p .. => some p.auth

/-- How far `line` moves. -/
def moves : Line → Nat
  | comment .. => 0
  | entry p .. => p.user.length + 1

/-- A pair has no blanks before its newline, and one where no newline follows. -/
def EndsRight : Line → Bool → Prop
  | comment .., _ => True
  | entry _ blanks _, ended => blanks.length = if ended then 0 else 1

end Line

/-- `lines` end in newlines, `tail` does not. -/
structure PasswordFile where
  lines : List Line
  tail : Option Line
  short : ∀ l ∈ lines ++ tail.toList, l.bytes.length < buffSize

namespace PasswordFile

def bytes (f : PasswordFile) : Bytes :=
  f.lines.flatMap (fun l => l.bytes ++ [newline]) ++ f.tail.toList.flatMap Line.bytes

def pairs (f : PasswordFile) : List Auth := (f.lines ++ f.tail.toList).filterMap Line.auth

end PasswordFile

/-- A list without pairs stays unset. -/
def listOf (pairs : List Auth) : Option (List Auth) := if pairs = [] then none else some pairs

/-- Every line ends right, and fits into what is left of the buffer behind the users of the lines before it. -/
def ReadRight (tail : Option Line) : Nat → List Line → Prop
  | off, [] => ∀ l ∈ tail, l.EndsRight false ∧ off + l.bytes.length + 1 ≤ buffSize
  | off, l :: lines =>
    l.EndsRight true ∧ off + (l.bytes.length + 1) + 1 ≤ buffSize ∧ ReadRight tail (off + l.moves) lines

/-! ## One line -/

/-- A string without NULs and trailing blanks comes out of `del_tail` only as it was. -/
theorem delTail_eq_some_iff {d p : Bytes} (h0 : 0 ∉ p) (hp : ∃ q c, p = q ++ [c] ∧ isBlank c = false) :
    delTail d = some p ↔ d = p := by
  constructor
  · intro h
    obtain ⟨r, hr, rfl⟩ := Option.map_eq_some_iff.1 h
    cases hd : d.reverse with
    | nil =>
      rw [hd] at hr
      cases hr
    | cons c cs =>
      rw [hd, blankTail] at hr
      split at hr
      · obtain ⟨cs', -, rfl⟩ := Option.map_eq_some_iff.1 hr
        exact absurd (List.mem_reverse.2 List.mem_cons_self) h0
      · rw [← Option.some.inj hr, ← hd, List.reverse_reverse]
  · rintro rfl
    obtain ⟨q, c, rfl, hc⟩ := hp
    exact delTail_of_not_blank q hc

/-- What stands behind the first `=`, less one byte, is the password. -/
theorem parseLine_entry {u rest : Bytes} (hu : equalSign ∉ u) (h0 : 0 ∉ u ++ equalSign :: rest) (hrest : rest ≠ []) :
    parseLine (u ++ equalSign :: rest) =
      (delTail rest.dropLast).elim (.error .undefined) fun passwd => .ok (⟨u, passwd⟩, u.length + 1) := by
  have hpos := List.length_pos_iff.2 hrest
  have hlen : ((u ++ equalSign :: rest).length : Int) - (1 + u.length : Nat) - 1 = (rest.length - 1 : Nat) := by
    rw [List.length_append, List.length_cons]
    omega
  have hdrop : (u ++ equalSign :: rest).drop (1 + u.length) = rest := by
    rw [Nat.add_comm, List.drop_length_add_append, List.drop_one, List.tail_cons]
  rw [parseLine]
  simp only [cstr_of_not_mem h0, equalLoop_append hu, hlen, hdrop, Int.toNat_natCast, List.take_left,
    Nat.add_sub_cancel_left, ← List.dropLast_eq_take]
  rw [if_neg (by omega), Nat.add_comm 1 u.length]
  cases delTail rest.dropLast <;> rfl

namespace Pair

variable (p : Pair)

theorem isComment_append (rest : Bytes) : isComment (p.user ++ rest) = false := by
  obtain ⟨c, u, hu⟩ := List.exists_cons_of_ne_nil p.user_ne_nil
  have h := p.no_hash
  rw [hu] at h ⊢
  simpa [isComment] using h

/-- A line gives its pair exactly where its last byte is the only one behind the password. -/
theorem parseLine_iff {rest : Bytes} (h0 : 0 ∉ rest) (k : Nat) :
    parseLine (p.user ++ equalSign :: (p.pass ++ rest)) = .ok (p.auth, k) ↔
      rest.length = 1 ∧ k = p.user.length + 1 := by
  have hrest : p.pass ++ rest ≠ [] := by
    obtain ⟨q, c, hq, -⟩ := p.pass_ends
    simp [hq]
  have hclean : 0 ∉ p.user ++ equalSign :: (p.pass ++ rest) := by
    simp only [List.mem_append, List.mem_cons, not_or]
    exact ⟨p.user_clean.2, by decide, p.pass_clean.2, h0⟩
  have hdrop : (p.pass ++ rest).dropLast = p.pass ↔ rest.length = 1 := by
    constructor
    · intro h
      have hlen := congrArg List.length h
      have hpos := List.length_pos_iff.2 hrest
      rw [List.length_append] at hpos
      rw [List.length_dropLast, List.length_append] at hlen
      omega
    · intro h
      obtain ⟨c, rfl⟩ := List.length_eq_one_iff.1 h
      rw [List.dropLast_concat]
  rw [parseLine_entry p.no_equal hclean hrest, ← hdrop, ← delTail_eq_some_iff p.pass_clean.2 p.pass_ends]
  cases delTail (p.pass ++ rest).dropLast with
  | none => simp
  | some passwd => simp [auth, eq_comm]

end Pair

/-! ## The lines as `fgets` gives them -/

theorem length_fgets_le (n : Nat) (file : Bytes) : (fgets n file).1.length ≤ n := by
  induction n generalizing file with
  | zero => exact Nat.zero_le _
  | succ n ih =>
    cases file with
    | nil => exact Nat.zero_le _
    | cons c file =>
      rw [fgets]
      split
      · exact Nat.succ_le_succ (Nat.zero_le n)
      · exact Nat.succ_le_succ (ih file)

theorem length_le_of_mem_fileLines {n : Nat} {file c : Bytes} (h : c ∈ fileLines n file) : c.length ≤ buffSize - 1 := by
  induction n generalizing file with
  | zero => exact absurd h List.not_mem_nil
  | succ n ih =>
    cases file with
    | nil => exact absurd h List.not_mem_nil
    | cons b file =>
      simp only [fileLines, List.mem_cons] at h
      rcases h with rfl | h
      · exact length_fgets_le _ _
      · exact ih h

/-- A call that fills the buffer leaves the newline. -/
theorem fgets_full {l : Bytes} (hl : newline ∉ l) (rest : Bytes) : fgets l.length (l ++ rest) = (l, rest) := by
  induction l with
  | nil => cases rest <;> rfl
  | cons c l ih =>
    rw [List.mem_cons, not_or] at hl
    rw [List.cons_append, List.length_cons, fgets, if_neg (Ne.symm hl.1), ih hl.2]

/-- One call, whose string `c` is taken off the file. -/
theorem fileLines_append {c rest : Bytes} (hc : c ≠ []) (h : fgets (buffSize - 1) (c ++ rest) = (c, rest)) (n : Nat) :
    fileLines (n + 1) (c ++ rest) = c :: fileLines n rest := by
  obtain ⟨b, bs, hb⟩ := List.exists_cons_of_ne_nil (List.append_ne_nil_of_left_ne_nil hc rest)
  rw [hb] at h ⊢
  simp only [fileLines, h]

namespace Line

theorem bytes_ne_nil (l : Line) : l.bytes ≠ [] := by
  cases l with
  | comment text _ => exact List.cons_ne_nil _ _
  | entry p _ _ => exact List.append_ne_nil_of_left_ne_nil p.user_ne_nil _

theorem newline_not_mem (l : Line) : newline ∉ l.bytes := by
  cases l with
  | comment text h =>
    rw [bytes, List.mem_cons, not_or]
    exact ⟨by decide, h⟩
  | entry p blanks h =>
    simp only [bytes, List.mem_append, List.mem_cons, not_or]
    refine ⟨p.user_clean.1, by decide, p.pass_clean.1, fun hmem => ?_⟩
    rcases h _ hmem with h | h <;> exact absurd h (by decide)

/-- What `fgets` gives for a line and its newline: of 2047 bytes, the newline comes by itself. -/
def chunks (l : Line) : List Bytes :=
  if l.bytes.length + 1 < buffSize then [l.bytes ++ [newline]] else [l.bytes, [newline]]

end Line

theorem fileLines_line {l : Line} (hl : l.bytes.length < buffSize) (rest : Bytes) {n : Nat}
    (hn : (l.bytes ++ newline :: rest).length ≤ n) :
    ∃ m, rest.length ≤ m ∧ fileLines n (l.bytes ++ newline :: rest) = l.chunks ++ fileLines m rest := by
  have hpos := List.length_pos_iff.2 l.bytes_ne_nil
  rw [List.length_append, List.length_cons] at hn
  obtain ⟨m, rfl⟩ : ∃ m, n = m + 1 + 1 := ⟨n - 2, by omega⟩
  rw [Line.chunks]
  split
  · rename_i hlt
    have hread := fgets_newline l.newline_not_mem (n := buffSize - 1) (by omega) rest
    rw [List.append_cons] at hread ⊢
    exact ⟨m + 1, by omega, fileLines_append (by simp) hread (m + 1)⟩
  · rename_i hge
    have hlen : l.bytes.length = buffSize - 1 := by omega
    have hread := fgets_full l.newline_not_mem (newline :: rest)
    rw [hlen] at hread
    have hnewline := fgets_newline (l := []) List.not_mem_nil (n := buffSize - 1) (by decide) rest
    refine ⟨m, by omega, ?_⟩
    rw [fileLines_append l.bytes_ne_nil hread]
    exact congrArg (l.bytes :: ·) (fileLines_append (c := [newline]) (List.cons_ne_nil _ _) hnewline m)

/-- The strings that the calls read from the file. -/
theorem fileLines_bytes {lines : List Line} {tail : Option Line}
    (hshort : ∀ l ∈ lines ++ tail.toList, l.bytes.length < buffSize) {n : Nat}
    (hn : (lines.flatMap (fun l => l.bytes ++ [newline]) ++ tail.toList.flatMap Line.bytes).length ≤ n) :
    fileLines n (lines.flatMap (fun l => l.bytes ++ [newline]) ++ tail.toList.flatMap Line.bytes) =
      lines.flatMap Line.chunks ++ tail.toList.map Line.bytes := by
  induction lines generalizing n with
  | nil =>
    cases tail with
    | none => cases n <;> rfl
    | some l =>
      have hl := hshort l (by simp)
      have hpos := List.length_pos_iff.2 l.bytes_ne_nil
      simp only [List.flatMap_nil, List.nil_append, Option.toList_some, List.flatMap_singleton, List.map_cons,
        List.map_nil] at hn ⊢
      obtain ⟨m, rfl⟩ : ∃ m, n = m + 1 := ⟨n - 1, by omega⟩
      have hread : fgets (buffSize - 1) (l.bytes ++ []) = (l.bytes, []) := by
        rw [List.append_nil]
        exact fgets_tail l.newline_not_mem (by omega)
      have hall := fileLines_append l.bytes_ne_nil hread m
      rw [List.append_nil] at hall
      rw [hall]
      cases m <;> rfl
  | cons l lines ih =>
    rw [List.cons_append, List.forall_mem_cons] at hshort
    simp only [List.flatMap_cons, List.append_assoc, List.cons_append, List.nil_append] at hn ⊢
    obtain ⟨m, hm, hstep⟩ := fileLines_line hshort.1 _ hn
    rw [hstep, ih hshort.2 hm]

/-! ## The list -/

theorem parseLoop_cons_iff {off : Nat} {c : Bytes} {cs : List Bytes} {list : List Auth} :
    parseLoop off (c :: cs) = .ok list ↔ off + c.length + 1 ≤ buffSize ∧
      if isComment c then parseLoop off cs = .ok list
      else ∃ a k rest, parseLine c = .ok (a, k) ∧ parseLoop (off + k) cs = .ok rest ∧ list = a :: rest := by
  rw [parseLoop]
  split
  · rename_i hover
    simp only [reduceCtorEq, false_iff, not_and]
    omega
  rename_i hfit
  rw [and_iff_right (Nat.not_lt.1 hfit)]
  split
  · exact Iff.rfl
  cases hp : parseLine c with
  | error e => simp [bind, Except.bind]
  | ok r =>
    cases hrest : parseLoop (off + r.2) cs with
    | error e =>
      simp only [bind, Except.bind, hrest, reduceCtorEq, false_iff, not_exists, not_and]
      rintro a k rest ⟨⟩
      simp [hrest]
    | ok list =>
      simp only [bind, Except.bind, hrest, pure, Except.pure, Except.ok.injEq]
      constructor
      · rintro rfl
        exact ⟨r.1, r.2, list, rfl, hrest, rfl⟩
      · rintro ⟨a, k, rest, rfl, hok, rfl⟩
        rw [hrest] at hok
        rw [Except.ok.inj hok]

/-- Every entry of the list comes from a line that is not a comment. -/
theorem parseLoop_eq_nil {off : Nat} {cs : List Bytes} (h : parseLoop off cs = .ok []) : cs.all isComment = true := by
  induction cs generalizing off with
  | nil => rfl
  | cons c cs ih =>
    obtain ⟨-, h⟩ := parseLoop_cons_iff.1 h
    split at h
    · rename_i hc
      rw [List.all_cons, hc, ih h]
      rfl
    · obtain ⟨a, k, rest, -, -, hlist⟩ := h
      cases hlist

theorem parseLoop_comments {cs : List Bytes} (hc : cs.all isComment = true) {off : Nat}
    (hfit : ∀ c ∈ cs, off + c.length + 1 ≤ buffSize) : parseLoop off cs = .ok [] := by
  induction cs with
  | nil => rfl
  | cons c cs ih =>
    rw [List.all_cons, Bool.and_eq_true] at hc
    rw [List.forall_mem_cons] at hfit
    rw [parseLoop, if_neg (by omega), if_pos hc.1, ih hc.2 hfit.2]

/-- The first loop finds nothing exactly where the second would. -/
theorem parseProperties_eq_iff (file : Bytes) (pairs : List Auth) :
    parseProperties file = .ok (listOf pairs) ↔ parseLoop 0 (fileLines file.length file) = .ok pairs := by
  simp only [parseProperties]
  split
  · rename_i hc
    have hnone : parseLoop 0 (fileLines file.length file) = .ok [] := by
      refine parseLoop_comments hc fun c hmem => ?_
      have hlen := length_le_of_mem_fileLines hmem
      rw [buffSize] at hlen ⊢
      omega
    rw [hnone]
    cases pairs <;> simp [listOf]
  · rename_i hc
    cases hloop : parseLoop 0 (fileLines file.length file) with
    | error e => simp [Except.map]
    | ok list =>
      have hne : list ≠ [] := by
        rintro rfl
        exact hc (parseLoop_eq_nil hloop)
      cases pairs with
      | nil => simp [Except.map, listOf, hne]
      | cons a pairs => simp [Except.map, listOf]

/-- A line that is nothing but its newline is refused. -/
theorem parseLoop_newline {off : Nat} {cs : List Bytes} (h : [newline] ∈ cs) (list : List Auth) :
    parseLoop off cs ≠ .ok list := by
  induction cs generalizing off list with
  | nil => exact absurd h List.not_mem_nil
  | cons c cs ih =>
    intro hok
    obtain ⟨-, hok⟩ := parseLoop_cons_iff.1 hok
    rcases List.mem_cons.1 h with rfl | hmem
    · have hline : parseLine [newline] = .error .confError := by decide
      obtain ⟨a, k, rest, hp, -⟩ := hok
      rw [hline] at hp
      cases hp
    · split at hok
      · exact ih hmem list hok
      · obtain ⟨a, k, rest, -, hrest, -⟩ := hok
        exact ih hmem rest hrest

/-- A line of the file, where `ended` says whether its newline is there. -/
theorem parseLoop_line_iff (l : Line) (ended : Bool) {off : Nat} {cs : List Bytes} {list : List Auth} :
    parseLoop off ((l.bytes ++ if ended then [newline] else []) :: cs) = .ok (l.auth.toList ++ list) ↔
      l.EndsRight ended ∧ off + (l.bytes.length + ended.toNat) + 1 ≤ buffSize ∧
        parseLoop (off + l.moves) cs = .ok list := by
  have hlen : (if ended then [newline] else []).length = ended.toNat := by cases ended <;> rfl
  rw [parseLoop_cons_iff, List.length_append, hlen]
  cases l with
  | comment text _ =>
    have hc : isComment ((Line.comment text ‹_›).bytes ++ if ended then [newline] else []) = true := rfl
    simp [hc, Line.EndsRight, Line.auth, Line.moves]
  | entry p blanks hblank =>
    have hbytes : (Line.entry p blanks hblank).bytes ++ (if ended then [newline] else []) =
        p.user ++ equalSign :: (p.pass ++ (blanks ++ if ended then [newline] else [])) := by
      simp only [Line.bytes, List.append_assoc, List.cons_append]
    have h0 : 0 ∉ blanks ++ if ended then [newline] else [] := by
      rw [List.mem_append, not_or]
      refine ⟨fun hmem => ?_, by cases ended <;> decide⟩
      rcases hblank _ hmem with h | h <;> exact absurd h (by decide)
    have hends : (blanks ++ if ended then [newline] else []).length = 1 ↔
        (Line.entry p blanks hblank).EndsRight ended := by
      rw [List.length_append, hlen]
      cases ended <;> simp [Line.EndsRight]
    rw [hbytes, p.isComment_append, ← hends, and_left_comm]
    refine and_congr_right fun _ => ?_
    simp only [Bool.false_eq_true, if_false, Line.auth, Option.toList_some, List.singleton_append, List.cons.injEq,
      Line.moves]
    constructor
    · rintro ⟨a, k, rest, hp, hrest, rfl, rfl⟩
      obtain ⟨h1, rfl⟩ := (p.parseLine_iff h0 k).1 hp
      exact ⟨h1, hrest⟩
    · rintro ⟨h1, hrest⟩
      exact ⟨p.auth, _, list, (p.parseLine_iff h0 _).2 ⟨h1, rfl⟩, hrest, rfl, rfl⟩

theorem filterMap_auth_cons (l : Line) (lines : List Line) :
    (l :: lines).filterMap Line.auth = l.auth.toList ++ lines.filterMap Line.auth := by
  cases l <;> rfl

/-- The second loop gives the pairs exactly of lines that read right. -/
theorem parseLoop_iff {lines : List Line} {tail : Option Line} {off : Nat} :
    parseLoop off (lines.flatMap Line.chunks ++ tail.toList.map Line.bytes) =
        .ok ((lines ++ tail.toList).filterMap Line.auth) ↔ ReadRight tail off lines := by
  induction lines generalizing off with
  | nil =>
    cases tail with
    | none => simp [ReadRight, parseLoop]
    | some l =>
      have hend : parseLoop (off + l.moves) [] = .ok [] := rfl
      have hline := @parseLoop_line_iff l false off [] []
      rw [and_iff_left hend] at hline
      simpa [ReadRight, filterMap_auth_cons] using hline
  | cons l lines ih =>
    rw [List.flatMap_cons, List.cons_append, filterMap_auth_cons, ReadRight, ← ih, Line.chunks]
    split
    · exact parseLoop_line_iff l true
    · rename_i hge
      constructor
      · intro hok
        exact absurd hok (parseLoop_newline (by simp) _)
      · rintro ⟨-, hfit, -⟩
        omega

/-- **The pairs come back exactly** from a file whose pairs end in their newline, or in one blank where the last line
has none, and whose lines fit into what is left of the buffer. -/
theorem parse_properties_iff (f : PasswordFile) :
    parseProperties f.bytes = .ok (listOf f.pairs) ↔ ReadRight f.tail 0 f.lines := by
  rw [parseProperties_eq_iff, PasswordFile.bytes, fileLines_bytes f.short le_rfl]
  exact parseLoop_iff

/-- `a=12`, and no newline. -/
def unendedFile : PasswordFile where
  lines := []
  tail := some (.entry ⟨[0x61], [0x31, 0x32], by decide, by decide, by decide, by decide, by decide,
    [0x31], 0x32, rfl, rfl⟩ [] (fun _ hc => absurd hc List.not_mem_nil))
  short := by decide

/-- The password is 1. -/
theorem unended_cut : ¬ ∀ f : PasswordFile, parseProperties f.bytes = .ok (listOf f.pairs) := by
  intro h
  have hfile : parseProperties unendedFile.bytes = .ok (some [⟨[0x61], [0x31]⟩]) := by decide +kernel
  exact absurd (hfile.symm.trans (h unendedFile)) (by decide)

end NgxPlus.Socks5
