import Mathlib.Data.List.DropRight
import NgxPlus.Lib.Trace
import NgxPlus.Socks5.Auth

/-!
# The password file (`ngx_stream_socks5_module.c`)

| here | there |
| --- | --- |
| `fgets`, `fileLines`   | what the calls `fgets(line, buffSize, file)` read, one after the other |
| `cstr`                 | the string up to its NUL |
| `blankTail`, `delTail` | `del_tail` (`:1540-1543`) |
| `equalLoop`            | the loop for the place of `=` (`:1577-1579`) |
| `parseLine`            | one line of the second loop (`:1575-1596`) |
| `parseLoop`            | the second loop (`:1571-1597`); `off` is `line - _line` |
| `parseProperties`      | `parse_properties` (`:1545-1600`) for a file that can be read |

The buffer has 2048 bytes, and `line` moves on in it with every entry (`line+=equal`) while each
`fgets` may still write 2048. `Fail.undefined` is a write behind the buffer, or `del_tail` running
over the start of its string. A negative `passwd.len` is a huge `size_t`, and `ngx_pcalloc` fails
(`Fail.confError`); no other allocation does.

`filePairs` is what the file says: one pair for each line `user=password`.
-/

namespace NgxPlus.Socks5

open ByteMem

/-! ## The file -/

def newline : UInt8 := 0x0a

def equalSign : UInt8 := 0x3d

def buffSize : Nat := 1024 * 2

/-- At most `n` bytes, up to a newline; and what is left of the file. -/
def fgets : Nat → Bytes → Bytes × Bytes
  | 0, file => ([], file)
  | _, [] => ([], [])
  | n + 1, c :: file =>
    if c = newline then ([c], file)
    else
      let r := fgets n file
      (c :: r.1, r.2)

/-- At most `n` calls; each but the one at the end of the file reads a byte. -/
def fileLines : Nat → Bytes → List Bytes
  | 0, _ => []
  | _, [] => []
  | n + 1, file =>
    let r := fgets (buffSize - 1) file
    r.1 :: fileLines n r.2

/-! ## The parser -/

inductive Fail
  | confError
  | undefined
deriving DecidableEq

def cstr (line : Bytes) : Bytes := line.takeWhile (· ≠ 0)

/-- `!strncmp("#", line, 1)`. -/
def isComment (line : Bytes) : Bool := line.head? == some 0x23

def isBlank (c : UInt8) : Bool := c == 0x20 || c == 0x09 || c == newline

/-- From the last byte on. -/
def blankTail : Bytes → Option Bytes
  | [] => none
  | c :: cs => if isBlank c then (blankTail cs).map (0 :: ·) else some (c :: cs)

def delTail (str : Bytes) : Option Bytes := (blankTail str.reverse).map List.reverse

/-- `equal <= length` fails at the NUL only. -/
def equalLoop : Bytes → Nat → Nat
  | [], equal => equal
  | c :: cs, equal => if c = equalSign then equal else equalLoop cs (equal + 1)

/-- The entry, and how far `line` moves. -/
def parseLine (line : Bytes) : Except Fail (Auth × Nat) :=
  let line := cstr line
  let equal := equalLoop line 1
  let len : Int := (line.length : Int) - equal - 1
  if len < 0 then .error .confError
  else
    match delTail ((line.drop equal).take len.toNat) with
    | none => .error .undefined
    | some passwd => .ok (⟨line.take (equal - 1), passwd⟩, equal)

def parseLoop : Nat → List Bytes → Except Fail (List Auth)
  | _, [] => .ok []
  | off, line :: lines =>
    if buffSize < off + line.length + 1 then .error .undefined
    else if isComment line then parseLoop off lines
    else do
      let (auth, equal) ← parseLine line
      let list ← parseLoop (off + equal) lines
      return auth :: list

/-- `none`: the list stays unset. -/
def parseProperties (file : Bytes) : Except Fail (Option (List Auth)) :=
  let lines := fileLines file.length file
  if lines.all isComment then .ok none
  else (parseLoop 0 lines).map some

/-! ## What the file says -/

/-- What stands behind the first `=`. -/
def afterEqual (line : Bytes) : Bytes := (line.dropWhile (· ≠ equalSign)).tail

/-- The pair of a line `user=password`, without trailing blanks. -/
def pairOf (line : Bytes) : Option Auth :=
  if isComment line then none
  else if equalSign ∈ line then
    some ⟨line.takeWhile (· ≠ equalSign), (afterEqual line).rdropWhile isBlank⟩
  else none

def filePairs (file : Bytes) : List Auth := (file.splitOn newline).filterMap pairOf

/-! ## Files that are read as they are meant -/

/-- A comment, or a line without NUL bytes whose password, if it has one, is not empty and does not end in a blank. -/
def LineOk (line : Bytes) : Prop :=
  isComment line = true ∨ 0 ∉ line ∧ (equalSign ∈ line → ∃ p c, afterEqual line = p ++ [c] ∧ isBlank c = false)

/-- The lines of a file; the last one has no newline behind it, and is empty or a comment. -/
def LinesOk : Nat → List Bytes → Prop
  | _, [] => True
  | off, [tail] => tail = [] ∨ isComment tail = true ∧ off + tail.length + 1 ≤ buffSize
  | off, line :: lines =>
    off + line.length + 2 ≤ buffSize ∧ LineOk line ∧
      LinesOk (if isComment line then off else off + equalLoop line 1) lines

structure FileOk (file : Bytes) : Prop where
  lines : LinesOk 0 (file.splitOn newline)
  usable : ∃ line ∈ (file.splitOn newline).dropLast, isComment line = false

theorem linesOk_cons (off : Nat) (line : Bytes) {lines : List Bytes} (h : lines ≠ []) :
    LinesOk off (line :: lines) ↔
      off + line.length + 2 ≤ buffSize ∧ LineOk line ∧
        LinesOk (if isComment line then off else off + equalLoop line 1) lines := by
  cases lines with
  | nil => exact absurd rfl h
  | cons l ls => exact Iff.rfl

/-! ## Reading the lines -/

theorem fgets_newline {l : Bytes} (hl : newline ∉ l) {n : Nat} (hn : l.length < n) (rest : Bytes) :
    fgets n (l ++ newline :: rest) = (l ++ [newline], rest) := by
  induction l generalizing n with
  | nil =>
    obtain ⟨n, rfl⟩ := Nat.exists_eq_succ_of_ne_zero (by omega : n ≠ 0)
    rfl
  | cons c l ih =>
    rw [List.mem_cons, not_or] at hl
    rw [List.length_cons] at hn
    obtain ⟨n, rfl⟩ := Nat.exists_eq_succ_of_ne_zero (by omega : n ≠ 0)
    rw [List.cons_append, fgets, if_neg (Ne.symm hl.1), ih hl.2 (by omega)]
    rfl

theorem fgets_tail {l : Bytes} (hl : newline ∉ l) {n : Nat} (hn : l.length ≤ n) : fgets n l = (l, []) := by
  induction l generalizing n with
  | nil => cases n <;> rfl
  | cons c l ih =>
    rw [List.mem_cons, not_or] at hl
    rw [List.length_cons] at hn
    obtain ⟨n, rfl⟩ := Nat.exists_eq_succ_of_ne_zero (by omega : n ≠ 0)
    rw [fgets, if_neg (Ne.symm hl.1), ih hl.2 (by omega)]

/-- What `fgets` should give for these lines. -/
def chunks : List Bytes → List Bytes
  | [] => []
  | [tail] => if tail = [] then [] else [tail]
  | line :: lines => (line ++ [newline]) :: chunks lines

theorem chunks_cons (line : Bytes) {lines : List Bytes} (h : lines ≠ []) :
    chunks (line :: lines) = (line ++ [newline]) :: chunks lines := by
  cases lines with
  | nil => exact absurd rfl h
  | cons l ls => rfl

theorem fileLines_eq {n : Nat} {file : Bytes} (hn : file.length ≤ n)
    (hshort : ∀ c ∈ chunks (file.splitOn newline), c.length ≤ buffSize - 1) :
    fileLines n file = chunks (file.splitOn newline) := by
  induction n generalizing file with
  | zero =>
    obtain rfl := List.length_eq_zero_iff.1 (Nat.le_zero.1 hn)
    rfl
  | succ n ih =>
    rcases Classical.em (newline ∈ file) with hmem | hmem
    · -- A line and its newline go, and the rest of the file is shorter.
      obtain ⟨l, rest, rfl, hl⟩ := List.eq_append_cons_of_mem hmem
      have hsplit := List.splitOn_append_cons_self_of_not_mem hl rest
      rw [hsplit, chunks_cons _ (List.splitOn_ne_nil _ _)] at hshort ⊢
      have hlen := hshort _ List.mem_cons_self
      rw [List.length_append, List.length_singleton] at hlen
      have hfgets := fgets_newline hl (n := buffSize - 1) (by omega) rest
      rw [List.length_append, List.length_cons] at hn
      rw [← ih (by omega) fun c hc => hshort c (List.mem_cons_of_mem _ hc)]
      cases l with
      | nil =>
        simp only [List.nil_append] at hfgets ⊢
        simp only [fileLines, hfgets]
      | cons c l =>
        simp only [List.cons_append] at hfgets ⊢
        simp only [fileLines, hfgets]
    · rw [List.splitOn_eq_singleton hmem] at hshort ⊢
      cases file with
      | nil => rfl
      | cons c file =>
        have hlen := hshort (c :: file) List.mem_cons_self
        have hnil : fileLines n [] = [] := by cases n <;> rfl
        simp only [fileLines, fgets_tail hmem hlen, hnil]
        rfl

/-! ## Parsing the lines -/

theorem isComment_newline (line : Bytes) : isComment (line ++ [newline]) = isComment line := by
  cases line <;> rfl

theorem blankTail_of_not_blank {c : UInt8} (hc : isBlank c = false) (cs : Bytes) :
    blankTail (c :: cs) = some (c :: cs) := by
  rw [blankTail, hc]
  rfl

theorem delTail_of_not_blank (p : Bytes) {c : UInt8} (hc : isBlank c = false) :
    delTail (p ++ [c]) = some (p ++ [c]) := by
  rw [delTail, List.reverse_append, List.reverse_singleton, List.singleton_append, blankTail_of_not_blank hc]
  simp

theorem cstr_of_not_mem {line : Bytes} (h : 0 ∉ line) : cstr line = line := by
  rw [cstr, List.takeWhile_eq_self_iff]
  intro c hc
  simpa using fun e : c = 0 => h (e ▸ hc)

theorem equalLoop_append {u : Bytes} (hu : equalSign ∉ u) (p : Bytes) (equal : Nat) :
    equalLoop (u ++ equalSign :: p) equal = equal + u.length := by
  induction u generalizing equal with
  | nil => rfl
  | cons c u ih =>
    rw [List.mem_cons, not_or] at hu
    rw [List.cons_append, equalLoop, if_neg (Ne.symm hu.1), ih hu.2, List.length_cons]
    omega

theorem equalLoop_of_not_mem {line : Bytes} (h : equalSign ∉ line) (equal : Nat) :
    equalLoop line equal = equal + line.length := by
  induction line generalizing equal with
  | nil => rfl
  | cons c line ih =>
    rw [List.mem_cons, not_or] at h
    rw [equalLoop, if_neg (Ne.symm h.1), ih h.2, List.length_cons]
    omega

theorem takeWhile_equal {u : Bytes} (hu : equalSign ∉ u) (p : Bytes) :
    (u ++ equalSign :: p).takeWhile (· ≠ equalSign) = u ∧ afterEqual (u ++ equalSign :: p) = p := by
  have hall : ∀ c ∈ u, decide (c ≠ equalSign) = true := fun c hc => decide_eq_true fun e => hu (e ▸ hc)
  constructor
  · rw [List.takeWhile_append_of_pos hall, List.takeWhile_cons_of_neg (by simp), List.append_nil]
  · rw [afterEqual, List.dropWhile_append_of_pos hall, List.dropWhile_cons_of_neg (by simp), List.tail_cons]

/-- A line `user=password` gives its pair. -/
theorem parseLine_pair {u p : Bytes} (hu : equalSign ∉ u) (h0 : 0 ∉ u ++ equalSign :: p)
    (hp : ∃ q c, p = q ++ [c] ∧ isBlank c = false) :
    parseLine (u ++ equalSign :: p ++ [newline]) = .ok (⟨u, p⟩, u.length + 1) := by
  have hcstr : cstr (u ++ equalSign :: p ++ [newline]) = u ++ equalSign :: (p ++ [newline]) := by
    rw [cstr_of_not_mem, List.append_assoc, List.cons_append]
    rw [List.mem_append, not_or]
    exact ⟨h0, by decide⟩
  have hlen : ((u ++ equalSign :: (p ++ [newline])).length : Int) - (1 + u.length : Nat) - 1 = p.length := by
    simp only [List.length_append, List.length_cons, List.length_nil]
    omega
  have hdrop : (u ++ equalSign :: (p ++ [newline])).drop (1 + u.length) = p ++ [newline] := by
    rw [Nat.add_comm, List.drop_length_add_append, List.drop_one, List.tail_cons]
  have hdel : delTail p = some p := by
    obtain ⟨q, c, rfl, hc⟩ := hp
    exact delTail_of_not_blank q hc
  rw [parseLine]
  simp only [hcstr, equalLoop_append hu, hlen, hdrop, Int.toNat_natCast, List.take_left, hdel, Nat.add_sub_cancel_left]
  rw [if_neg (by omega), Nat.add_comm 1 u.length]

/-- A line without `=` is refused. -/
theorem parseLine_no_equal {line : Bytes} (h : equalSign ∉ line) (h0 : 0 ∉ line) :
    parseLine (line ++ [newline]) = .error .confError := by
  have hcstr : cstr (line ++ [newline]) = line ++ [newline] := by
    refine cstr_of_not_mem ?_
    rw [List.mem_append, not_or]
    exact ⟨h0, by decide⟩
  have heq : equalSign ∉ line ++ [newline] := by
    rw [List.mem_append, not_or]
    exact ⟨h, by decide⟩
  rw [parseLine]
  simp only [hcstr, equalLoop_of_not_mem heq]
  rw [if_pos (by omega)]

/-- What a line that is not a comment does. -/
theorem parseLine_lineOk {line : Bytes} (h : LineOk line) (hc : isComment line = false) :
    (pairOf line = none ∧ parseLine (line ++ [newline]) = .error .confError) ∨
      ∃ a, pairOf line = some a ∧ parseLine (line ++ [newline]) = .ok (a, equalLoop line 1) ∧
        0 ∉ a.uname ∧ 0 ∉ a.passwd := by
  rcases h with h | ⟨h0, hpass⟩
  · rw [hc] at h
    cases h
  by_cases hmem : equalSign ∈ line
  · right
    obtain ⟨u, p, rfl, hu⟩ := List.eq_append_cons_of_mem hmem
    obtain ⟨htake, hafter⟩ := takeWhile_equal hu p
    have hp := hpass hmem
    rw [hafter] at hp
    refine ⟨⟨u, p⟩, ?_, ?_, ?_, ?_⟩
    · have hr : p.rdropWhile isBlank = p := by
        obtain ⟨q, c, rfl, hblank⟩ := hp
        exact List.rdropWhile_concat_neg _ _ _ (by rw [hblank]; decide)
      rw [pairOf, hc, if_pos hmem, htake, hafter, hr]
      rfl
    · rw [parseLine_pair hu h0 hp, equalLoop_append hu, Nat.add_comm]
    · exact fun hz => h0 (List.mem_append_left _ hz)
    · exact fun hz => h0 (List.mem_append_right _ (List.mem_cons_of_mem _ hz))
  · left
    refine ⟨?_, parseLine_no_equal hmem h0⟩
    rw [pairOf, hc, if_neg hmem]
    rfl

theorem pairOf_isComment {line : Bytes} (h : isComment line = true) : pairOf line = none := by
  rw [pairOf, if_pos h]

/-- The lines of a good file are refused, or give their pairs. -/
theorem parseLoop_chunks {off : Nat} {lines : List Bytes} (h : LinesOk off lines) :
    parseLoop off (chunks lines) = .error .confError ∨
      parseLoop off (chunks lines) = .ok (lines.filterMap pairOf) ∧
        ∀ a ∈ lines.filterMap pairOf, 0 ∉ a.uname ∧ 0 ∉ a.passwd := by
  induction off, lines using LinesOk.induct with
  | case1 off => exact Or.inr ⟨rfl, fun a ha => absurd ha List.not_mem_nil⟩
  | case2 off tail =>
    right
    rcases h with rfl | ⟨hc, hfit⟩
    · exact ⟨rfl, fun a ha => absurd ha List.not_mem_nil⟩
    · have hne : tail ≠ [] := by
        rintro rfl
        cases hc
      have hpairs : [tail].filterMap pairOf = [] := List.filterMap_cons_none (pairOf_isComment hc)
      rw [hpairs, chunks, if_neg hne, parseLoop, if_neg (by omega), if_pos hc]
      exact ⟨rfl, fun a ha => absurd ha List.not_mem_nil⟩
  | case3 off line lines hne ih =>
    rw [linesOk_cons _ _ hne] at h
    obtain ⟨hfit, hline, hlines⟩ := h
    have hfit' : ¬ buffSize < off + (line ++ [newline]).length + 1 := by
      rw [List.length_append, List.length_singleton]
      omega
    rw [chunks_cons _ hne, parseLoop, if_neg hfit', isComment_newline]
    cases hc : isComment line with
    | true =>
      rw [List.filterMap_cons_none (pairOf_isComment hc)]
      rw [hc] at ih hlines
      exact ih hlines
    | false =>
      rw [hc] at ih hlines
      rcases parseLine_lineOk hline hc with ⟨-, hp⟩ | ⟨a, ha, hp, hclean⟩
      · left
        rw [hp]
        rfl
      · rw [List.filterMap_cons_some ha, hp]
        rcases ih hlines with hrest | ⟨hrest, hcleans⟩
        · left
          exact congrArg (· >>= fun list => pure (a :: list)) hrest
        · right
          refine ⟨congrArg (· >>= fun list => pure (a :: list)) hrest, ?_⟩
          exact List.forall_mem_cons.2 ⟨hclean, hcleans⟩

/-! ## The list -/

theorem length_le_of_mem_chunks {off : Nat} {lines : List Bytes} (h : LinesOk off lines) :
    ∀ c ∈ chunks lines, c.length ≤ buffSize - 1 := by
  induction off, lines using LinesOk.induct with
  | case1 off => exact fun c hc => absurd hc List.not_mem_nil
  | case2 off tail =>
    intro c hc
    rcases h with rfl | ⟨hcomment, hfit⟩
    · exact absurd hc List.not_mem_nil
    · rw [chunks] at hc
      split at hc
      · exact absurd hc List.not_mem_nil
      · rw [List.mem_singleton.1 hc]
        omega
  | case3 off line lines hne ih =>
    obtain ⟨hfit, -, hlines⟩ := (linesOk_cons off line hne).1 h
    rw [chunks_cons _ hne, List.forall_mem_cons, List.length_append, List.length_singleton]
    exact ⟨by omega, ih hlines⟩

theorem mem_chunks_of_mem_dropLast {line : Bytes} {lines : List Bytes} (h : line ∈ lines.dropLast) :
    line ++ [newline] ∈ chunks lines := by
  induction lines with
  | nil => exact absurd h List.not_mem_nil
  | cons l lines ih =>
    cases lines with
    | nil => exact absurd h List.not_mem_nil
    | cons l' lines =>
      rw [chunks_cons _ (List.cons_ne_nil _ _)]
      rw [List.dropLast_cons_cons, List.mem_cons] at h
      rcases h with rfl | h
      · exact List.mem_cons_self
      · exact List.mem_cons_of_mem _ (ih h)

/-- A good file is refused, or gives the pairs that it says. -/
theorem parseProperties_fileOk {file : Bytes} (h : FileOk file) :
    parseProperties file = .error .confError ∨
      parseProperties file = .ok (some (filePairs file)) ∧ ∀ a ∈ filePairs file, 0 ∉ a.uname ∧ 0 ∉ a.passwd := by
  have hlines : fileLines file.length file = chunks (file.splitOn newline) :=
    fileLines_eq le_rfl (length_le_of_mem_chunks h.lines)
  have hall : (chunks (file.splitOn newline)).all isComment = false := by
    obtain ⟨line, hmem, hc⟩ := h.usable
    rw [List.all_eq_false]
    refine ⟨_, mem_chunks_of_mem_dropLast hmem, ?_⟩
    rw [isComment_newline, hc]
    exact Bool.false_ne_true
  simp only [parseProperties, hlines, hall]
  rcases parseLoop_chunks h.lines with he | ⟨hok, hclean⟩
  · left
    rw [he]
    rfl
  · right
    rw [hok]
    exact ⟨rfl, hclean⟩

/-! ## The run -/

/-- What is pending when `bs` arrive, as far as there is room. -/
def Session.input (s : Session) (bs : Bytes) : Bytes := s.pending ++ bs.take (ngxSocksAuthBufferLen - s.pending.length)

/-- The open session had the message at the start of its buffer, at some point of the run. -/
def Receives (passwdList : Option PasswdList) (s : Session) (evs : List Event) (m : Message) : Prop :=
  ∃ evs₁ bs evs₂ rest, evs = evs₁ ++ .data bs :: evs₂ ∧ (Trace.run (handler passwdList) s evs₁).closed = false ∧
    (Trace.run (handler passwdList) s evs₁).input bs = m.bytes ++ rest

/-- With this file configured, the session is authenticated only by a pair of the file. -/
def NotBypassed (file : Bytes) (behind : Nat → Auth) (mem : Mem) (evs : List Event) : Prop :=
  match parseProperties file with
  | .error .confError => True
  | .error .undefined => False
  | .ok conf =>
    let passwdList := conf.map (PasswdList.mk · behind)
    (Trace.run (handler passwdList) (.init mem) evs).authed = true →
      ∃ m : Message, ⟨m.user, m.pass⟩ ∈ filePairs file ∧ Receives passwdList (.init mem) evs m

/-- Where the buffer is checked it starts with a complete message, whose pair is in the list or which equals nothing
that the loop finds behind the list. -/
def SafeStep (l : PasswdList) (s : Session) : Event → Prop
  | .data bs =>
    s.closed = false → s.authed = false → 2 ≤ (s.input bs).length → (s.input bs).head? = some 1 →
      ∃ (m : Message) (rest : Bytes), s.input bs = m.bytes ++ rest ∧
        (⟨m.user, m.pass⟩ ∈ l.pairs ∨
          ∀ j < l.pairs.length, l.pairs.length ≤ tri j →
            (Req.mk m.user m.pass s.behind).matches (l.behind (tri j)) = false)
  | _ => True

/-- What is checked and not a message of version 1 does not authenticate. -/
theorem received_authed {l : PasswdList} {s : Session} (hs : s.authed = false) {bs : Bytes}
    (h : (received (some l) s bs).authed = true) :
    2 ≤ (s.pending ++ bs).length ∧ (s.pending ++ bs).head? = some 1 := by
  rw [received] at h
  split at h
  · exact absurd (hs.symm.trans h) Bool.false_ne_true
  · rename_i hlen
    rw [hs, Bool.false_or, decide_eq_true_eq, not_lt] at hlen
    split at h
    · rename_i hhead
      exact ⟨hlen, hhead⟩
    · exact absurd (hs.symm.trans h) Bool.false_ne_true

/-- The loop finds a pair of the list, where nothing behind it equals the message. -/
theorem mem_pairs_of_authLoop {l : PasswdList} (hl : l.Clean) {r : Req} {m : Message} (hu : r.uname = m.user)
    (hp : r.passwd = m.pass) {mem : Mem}
    (hsafe : ⟨m.user, m.pass⟩ ∈ l.pairs ∨
      ∀ j < l.pairs.length, l.pairs.length ≤ tri j → (Req.mk m.user m.pass mem).matches (l.behind (tri j)) = false)
    (h : (authLoop l.elts r l.pairs.length 0 0).1 = true) : ⟨m.user, m.pass⟩ ∈ l.pairs := by
  rcases hsafe with hmem | hbehind
  · exact hmem
  obtain ⟨j, -, hj, hm⟩ := (authLoop_fst l.elts r _ rfl).1 h
  rw [Nat.zero_add] at hj
  rcases lt_or_ge (tri j) l.pairs.length with hlt | hge
  · have hget := (matches_elts_iff hl hlt).1 hm
    rw [hu, hp] at hget
    exact List.mem_of_getElem? hget
  · have hno := hbehind j hj hge
    rw [PasswdList.elts, List.getElem?_eq_none hge, Option.getD_none, Req.matches, hu, hp] at hm
    rw [Req.matches, hm] at hno
    cases hno

theorem handler_authed {l : PasswdList} (hl : l.Clean) {s : Session} (hs : s.authed = false) {ev : Event}
    (hsafe : SafeStep l s ev) (h : (handler (some l) s ev).authed = true) :
    ∃ (bs : Bytes) (m : Message) (rest : Bytes), ev = .data bs ∧ s.closed = false ∧ s.input bs = m.bytes ++ rest ∧
      ⟨m.user, m.pass⟩ ∈ l.pairs := by
  unfold handler at h
  split at h
  · exact absurd (hs.symm.trans h) Bool.false_ne_true
  rename_i hc
  have hc := Bool.eq_false_of_not_eq_true hc
  cases ev with
  | timedout => exact absurd (hs.symm.trans h) Bool.false_ne_true
  | again => exact absurd (hs.symm.trans h) Bool.false_ne_true
  | fail => exact absurd (hs.symm.trans h) Bool.false_ne_true
  | data bs =>
    simp only at h
    split at h
    · exact absurd (hs.symm.trans h) Bool.false_ne_true
    · rename_i hbs
      obtain ⟨hlen, hhead⟩ := received_authed hs h
      obtain ⟨m, rest, hmsg, hpair⟩ := hsafe hc hs hlen hhead
      have hfit : (s.input bs).length ≤ ngxSocksAuthBufferLen := by
        have hroom : ngxSocksAuthBufferLen - s.pending.length ≠ 0 := by
          intro e
          rw [e] at hbs
          exact hbs rfl
        rw [Session.input, List.length_append, List.length_take]
        omega
      obtain ⟨r, hu, hp, hr⟩ := received_message l hs hmsg hfit
      rw [hr] at h
      exact ⟨bs, m, rest, rfl, hc, hmsg, mem_pairs_of_authLoop hl hu hp hpair h⟩

theorem Receives.append {passwdList : Option PasswdList} {s : Session} {evs : List Event} {m : Message}
    (h : Receives passwdList s evs m) (evs' : List Event) : Receives passwdList s (evs ++ evs') m := by
  obtain ⟨evs₁, bs, evs₂, rest, rfl, hc, hin⟩ := h
  exact ⟨evs₁, bs, evs₂ ++ evs', rest, by rw [List.append_assoc, List.cons_append], hc, hin⟩

/-- By induction over the events, from the end. -/
theorem run_authed {l : PasswdList} (hl : l.Clean) {s : Session} (hs : s.authed = false) {evs : List Event}
    (hsafe : Trace.Always (handler (some l)) (SafeStep l) s evs)
    (h : (Trace.run (handler (some l)) s evs).authed = true) :
    ∃ m : Message, ⟨m.user, m.pass⟩ ∈ l.pairs ∧ Receives (some l) s evs m := by
  induction evs using List.reverseRecOn with
  | nil => exact absurd (hs.symm.trans h) Bool.false_ne_true
  | append_singleton evs ev ih =>
    rw [Trace.always_concat] at hsafe
    rw [Trace.run_concat] at h
    cases hauthed : (Trace.run (handler (some l)) s evs).authed with
    | true =>
      obtain ⟨m, hm, hr⟩ := ih hsafe.1 hauthed
      exact ⟨m, hm, hr.append [ev]⟩
    | false =>
      obtain ⟨bs, m, rest, rfl, hc, hin, hm⟩ := handler_authed hl hauthed hsafe.2 h
      exact ⟨m, hm, evs, bs, [], rest, rfl, hc, hin⟩

theorem not_bypassed_of_fileOk {file : Bytes} (hfile : FileOk file) (behind : Nat → Auth) (mem : Mem) (evs : List Event)
    (hsafe : Trace.Always (handler (some ⟨filePairs file, behind⟩)) (SafeStep ⟨filePairs file, behind⟩) (.init mem) evs) :
    NotBypassed file behind mem evs := by
  rw [NotBypassed]
  rcases parseProperties_fileOk hfile with he | ⟨hok, hclean⟩
  · rw [he]
    trivial
  · rw [hok]
    exact run_authed (l := ⟨filePairs file, behind⟩) hclean rfl hsafe

/-- `a=1` and its newline. -/
def oneUser : Bytes := [0x61, 0x3d, 0x31, 0x0a]

theorem fileOk_oneUser : FileOk oneUser where
  lines := by
    have hsplit : oneUser.splitOn newline = [[0x61, 0x3d, 0x31], []] := by decide
    rw [hsplit, linesOk_cons _ _ (List.cons_ne_nil _ _)]
    exact ⟨by decide, Or.inr ⟨by decide, fun _ => ⟨[], 0x31, rfl, rfl⟩⟩, Or.inl rfl⟩
  usable := ⟨[0x61, 0x3d, 0x31], by decide, rfl⟩

theorem not_bypassed_oneUser : NotBypassed oneUser (fun _ => ⟨[], []⟩) (Stream'.const 0) [.data firstUser.bytes] := by
  have hpairs : filePairs oneUser = [⟨[0x61], [0x31]⟩] := by decide
  refine not_bypassed_of_fileOk fileOk_oneUser _ _ _ ⟨fun _ _ _ _ => ⟨firstUser, [], rfl, Or.inl ?_⟩, trivial⟩
  rw [hpairs]
  exact List.mem_cons_self

/-- A file with nothing but a comment: any user gets in. -/
theorem not_bypassed_commentOnly :
    filePairs [0x23, 0x0a] = [] ∧
      ¬ NotBypassed [0x23, 0x0a] (fun _ => ⟨[], []⟩) (Stream'.const 0) [.data firstUser.bytes] := by
  have hpairs : filePairs [0x23, 0x0a] = [] := by decide
  have hparse : parseProperties [0x23, 0x0a] = .ok none := by decide +kernel
  have hrun : (Trace.run (handler none) (.init (Stream'.const 0)) [.data firstUser.bytes]).authed = true := by
    decide +kernel
  refine ⟨hpairs, fun h => ?_⟩
  rw [NotBypassed, hparse] at h
  obtain ⟨m, hm, -⟩ := h hrun
  rw [hpairs] at hm
  exact absurd hm List.not_mem_nil

end NgxPlus.Socks5
