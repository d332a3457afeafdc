import Mathlib.Data.List.DropRight
import Mathlib.Tactic.SplitIfs
import Xv6.Prog.Wp

/-!
# The parser of the shell

`gettoken`, `peek` and the recursive-descent parser of `sh.c`.  The parser moves a cursor along the
line; a pointer into the line is the list of the bytes from there to the terminating NUL, so that
`es` is the empty list.  A loop or a recursive call takes one unit of fuel; `parsecmd` starts with
enough of it for every line.

`lex` lists the tokens that `gettoken` finds from a pointer on, and the rules at the end of this
file say what `peek` and `gettoken` do in terms of that list.
-/

namespace Xv6

namespace Shell

/-- `MAXARGS` -/
abbrev maxArgs : ℕ := 10

/-- A pointer into the line. -/
abbrev Ptr := List UInt8

/-- The results of `gettoken`. -/
inductive Kind
  | eof
  | bar
  | lparen
  | rparen
  | semi
  | amp
  | lt
  | gt
  /-- `'+'`, for `>>`. -/
  | append
  /-- `'a'` -/
  | word
  deriving DecidableEq

/-- A word of the line: where it starts and where it ends. -/
structure Word where
  q : Ptr
  eq : Ptr
  deriving DecidableEq

/-- A token: what it is and where it stands. -/
structure Token extends Word where
  kind : Kind
  deriving DecidableEq

/-- The fields of a `redircmd`. -/
structure Redir where
  file : Word
  mode : ℕ
  fd : ℕ
  deriving DecidableEq

/-- Commands. -/
inductive Cmd
  | exec (argv : List Word)
  | redir (cmd : Cmd) (r : Redir)
  | pipe (left right : Cmd)
  | list (left right : Cmd)
  | back (cmd : Cmd)
  deriving DecidableEq

/-- The errors that end the parser. -/
inductive Err
  /-- `leftovers` -/
  | leftovers
  /-- `syntax` -/
  | stray
  /-- `syntax - missing )` -/
  | missingParen
  /-- `parseblock` -/
  | parseblock
  /-- `missing file for redirection` -/
  | missingFile
  /-- `too many args` -/
  | tooManyArgs
  /-- The model has run out of fuel. -/
  | fuel
  deriving DecidableEq

/-- `O_RDONLY` -/
abbrev oRdonly : ℕ := 0

/-- `O_WRONLY|O_CREATE` -/
abbrev oWronlyCreate : ℕ := 0x201

/-! ### Tokens -/

/-- Space, `\t`, `\r`, `\n` and `\v`. -/
def whitespace : List UInt8 := [32, 9, 13, 10, 11]

/-- `<|>&;()` -/
def symbols : List UInt8 := [60, 124, 62, 38, 59, 40, 41]

/-- Bytes of whitespace. -/
def isSpace (c : UInt8) : Bool := whitespace.contains c

/-- Bytes of a word. -/
def isWord (c : UInt8) : Bool := !isSpace c && !symbols.contains c

/-- Skip whitespace. -/
def skip (s : Ptr) : Ptr := s.dropWhile isSpace

/-- The `switch` of `gettoken` on the byte at `s`: what the token is, and where it ends. -/
def scan : Ptr → Kind × Ptr
  | [] => (.eof, [])
  | c :: s =>
    if c = 124 then (.bar, s)
    else if c = 40 then (.lparen, s)
    else if c = 41 then (.rparen, s)
    else if c = 59 then (.semi, s)
    else if c = 38 then (.amp, s)
    else if c = 60 then (.lt, s)
    else if c = 62 then if s.head? = some 62 then (.append, s.tail) else (.gt, s)
    else (.word, (c :: s).dropWhile isWord)

/-- The token at `s`, and the pointer behind it. -/
def token (s : Ptr) : Token × Ptr :=
  (⟨⟨skip s, (scan (skip s)).2⟩, (scan (skip s)).1⟩, skip (scan (skip s)).2)

/-- The parser: the cursor `*ps` is its state. -/
abbrev ParseM := EStateM Err Ptr

/-- Take the next token. -/
def gettoken : ParseM Token := do
  let s ← get
  set (token s).2
  return (token s).1

/-- Does the next token start with one of the bytes `toks`? -/
def peek (toks : List UInt8) : ParseM Bool := do
  modify skip
  match ← get with
  | [] => return false
  | c :: _ => return toks.contains c

/-! ### The parser -/

/-- `redircmd`, for the token `tok` and the file name `w`. -/
def redircmd (cmd : Cmd) (tok : Kind) (w : Word) : Cmd :=
  match tok with
  | .lt => .redir cmd ⟨w, oRdonly, 0⟩
  | .gt => .redir cmd ⟨w, oWronlyCreate, 1⟩
  | .append => .redir cmd ⟨w, oWronlyCreate, 1⟩
  | _ => cmd

/-- Parse redirections of `cmd`. -/
def parseredirs : ℕ → Cmd → ParseM Cmd
  | 0, _ => throw .fuel
  | n + 1, cmd => do
    -- "<>"
    if ← peek [60, 62] then
      let tok ← gettoken
      let w ← gettoken
      if w.kind ≠ .word then throw .missingFile
      else parseredirs n (redircmd cmd tok.kind w.toWord)
    else return cmd

/-- Store an argument in the `execcmd` inside the redirections. -/
def Cmd.addArg (w : Word) : Cmd → Cmd
  | .exec argv => .exec (argv ++ [w])
  | .redir cmd r => .redir (cmd.addArg w) r
  | cmd => cmd

/-- The loop of `parseexec`. -/
def parseargs : ℕ → ℕ → Cmd → ParseM Cmd
  | 0, _, _ => throw .fuel
  | n + 1, argc, ret => do
    -- "|)&;"
    if ← peek [124, 41, 38, 59] then return ret
    else
      let tok ← gettoken
      if tok.kind = .eof then return ret
      else if tok.kind ≠ .word then throw .stray
      else if maxArgs ≤ argc + 1 then throw .tooManyArgs
      else
        let ret ← parseredirs n (ret.addArg tok.toWord)
        parseargs n (argc + 1) ret

/-- The loop of `parseline`. -/
def parseback : ℕ → Cmd → ParseM Cmd
  | 0, _ => throw .fuel
  | n + 1, cmd => do
    -- "&"
    if ← peek [38] then
      let _ ← gettoken
      parseback n (.back cmd)
    else return cmd

mutual

/-- Parse a line. -/
def parseline : ℕ → ParseM Cmd
  | 0 => throw .fuel
  | n + 1 => do
    let cmd ← parsepipe n
    let cmd ← parseback n cmd
    -- ";"
    if ← peek [59] then
      let _ ← gettoken
      let right ← parseline n
      return .list cmd right
    else return cmd

/-- Parse a pipeline. -/
def parsepipe : ℕ → ParseM Cmd
  | 0 => throw .fuel
  | n + 1 => do
    let cmd ← parseexec n
    -- "|"
    if ← peek [124] then
      let _ ← gettoken
      let right ← parsepipe n
      return .pipe cmd right
    else return cmd

/-- Parse a command. -/
def parseexec : ℕ → ParseM Cmd
  | 0 => throw .fuel
  | n + 1 => do
    -- "("
    if ← peek [40] then parseblock n
    else
      let ret ← parseredirs n (.exec [])
      parseargs n 0 ret

/-- Parse a line in parentheses. -/
def parseblock : ℕ → ParseM Cmd
  | 0 => throw .fuel
  | n + 1 => do
    -- "("
    if ← peek [40] then
      let _ ← gettoken
      let cmd ← parseline n
      -- ")"
      if ← peek [41] then
        let _ ← gettoken
        parseredirs n cmd
      else throw .missingParen
    else throw .parseblock

end

/-- Overwrite the byte behind each word of a command by a NUL, in the buffer `buf` that holds the
line. -/
def nulterminate (es : ℕ) : Cmd → List UInt8 → List UInt8
  | .exec argv, buf => argv.foldl (fun buf w => buf.set (es - w.eq.length) 0) buf
  | .redir cmd r, buf => (nulterminate es cmd buf).set (es - r.file.eq.length) 0
  | .pipe left right, buf => nulterminate es right (nulterminate es left buf)
  | .list left right, buf => nulterminate es right (nulterminate es left buf)
  | .back cmd, buf => nulterminate es cmd buf

/-- The string at the start of a buffer. -/
def cstring (buf : List UInt8) : Ptr := buf.takeWhile (· ≠ 0)

/-- The parser on a whole line, before `nulterminate`. -/
def parseall (fuel : ℕ) : ParseM Cmd := do
  let cmd ← parseline fuel
  let _ ← peek []
  let s ← get
  if s ≠ [] then throw .leftovers
  else return cmd

/-- Parse the string in a buffer: the command, and the buffer afterwards. -/
def parsecmd (buf : List UInt8) : Except Err (Cmd × List UInt8) :=
  match parseall (4 * (cstring buf).length + 4) (cstring buf) with
  | .ok cmd _ => .ok (cmd, nulterminate (cstring buf).length cmd buf)
  | .error e _ => .error e

/-! ### The list of tokens -/

theorem length_skip_le (s : Ptr) : (skip s).length ≤ s.length :=
  (List.dropWhile_sublist _).length_le

theorem skip_skip (s : Ptr) : skip (skip s) = skip s := List.dropWhile_idempotent _ s

theorem isSpace_of_skip {s t : Ptr} {c : UInt8} (h : skip s = c :: t) : isSpace c = false := by
  have hne : skip s ≠ [] := by simp [h]
  have := List.head_dropWhile_not isSpace hne
  simpa [show s.dropWhile isSpace = c :: t from h] using this

/-- The symbol that a token starts with. -/
def Kind.char? : Kind → Option UInt8
  | .bar => some 124
  | .lparen => some 40
  | .rparen => some 41
  | .semi => some 59
  | .amp => some 38
  | .lt => some 60
  | .gt => some 62
  | .append => some 62
  | .eof => none
  | .word => none

theorem scan_ne_eof (c : UInt8) (s : Ptr) : (scan (c :: s)).1 ≠ .eof := by
  simp only [scan]
  split_ifs <;> simp

theorem char_scan (c : UInt8) (s : Ptr) :
    (scan (c :: s)).1.char? = if symbols.contains c then some c else none := by
  simp only [scan]
  split_ifs <;> simp_all [symbols, Kind.char?]

theorem isWord_iff {c : UInt8} (hs : isSpace c = false) : isWord c = true ↔ c ∉ symbols := by
  simp [isWord, hs]

theorem length_scan_lt {c : UInt8} (s : Ptr) (hs : isSpace c = false) :
    (scan (c :: s)).2.length < (c :: s).length := by
  simp only [scan]
  have htail : s.tail.length ≤ s.length := by simp
  have hword : ¬ c ∈ symbols → ((c :: s).dropWhile isWord).length ≤ s.length := by
    intro hc
    rw [List.dropWhile_cons_of_pos ((isWord_iff hs).2 hc)]
    exact (List.dropWhile_sublist _).length_le
  split_ifs <;> simp only [List.length_cons] <;> try omega
  have := hword (by simp_all [symbols])
  omega

theorem length_token_lt {s : Ptr} (h : (token s).1.kind ≠ .eof) :
    (token s).2.length < s.length := by
  have hle := length_skip_le s
  cases hs : skip s with
  | nil => exact absurd (by simp [token, hs, scan]) h
  | cons c t =>
    have hlt := length_scan_lt t (isSpace_of_skip hs)
    have hle' := length_skip_le (scan (c :: t)).2
    rw [hs] at hle
    simp only [token, hs]
    omega

/-- The tokens from `s` on. -/
def lex (s : Ptr) : List Token :=
  if (token s).1.kind = .eof then [] else (token s).1 :: lex (token s).2
termination_by s.length
decreasing_by exact length_token_lt ‹_›

theorem token_skip (s : Ptr) : token (skip s) = token s := by
  unfold token
  rw [skip_skip]

theorem lex_skip (s : Ptr) : lex (skip s) = lex s := by
  rw [lex, token_skip, ← lex]

theorem lex_of_nil {s : Ptr} (h : skip s = []) : lex s = [] := by
  rw [lex, if_pos (by simp [token, h, scan])]

theorem lex_of_cons {s t : Ptr} {c : UInt8} (h : skip s = c :: t) :
    lex s = ⟨⟨c :: t, (scan (c :: t)).2⟩, (scan (c :: t)).1⟩ :: lex (scan (c :: t)).2 := by
  rw [lex, if_neg (by simpa [token, h] using scan_ne_eof c t)]
  simp only [token, h, lex_skip]

theorem skip_of_lex {s : Ptr} (h : lex s = []) : skip s = [] := by
  cases hs : skip s with
  | nil => rfl
  | cons c t => simp [lex_of_cons hs] at h

theorem length_lex_le (s : Ptr) : (lex s).length ≤ s.length := by
  induction hn : s.length using Nat.strongRecOn generalizing s with
  | ind n ih =>
    rw [lex]
    split_ifs with h
    · exact Nat.zero_le n
    have hlt := length_token_lt h
    have := ih _ (hn ▸ hlt) _ rfl
    simp only [List.length_cons]
    omega

/-- Does the list of tokens start with one of the symbols `toks`? -/
def look (toks : List UInt8) : List Token → Bool
  | [] => false
  | t :: _ => (t.kind.char?).any toks.contains

section Rules

variable {s : Ptr} {toks : List UInt8} {E : Err → Ptr → Prop} {t : Token} {ts : List Token}

/-- `peek` moves over whitespace and looks at the next token. -/
theorem peek_wp_skip {Q : Bool → Ptr → Prop} (htoks : ∀ c ∈ toks, c ∈ symbols)
    (h : Q (look toks (lex s)) (skip s)) :
    wp (peek toks) Q E s := by
  simp only [peek, wp_bind, wp_modify, wp_get]
  cases hs : skip s with
  | nil =>
    rw [lex_of_nil hs, hs] at h
    exact h
  | cons c t =>
  have hlook : look toks (lex s) = toks.contains c := by
    rw [lex_of_cons hs, look, char_scan]
    split_ifs with hc
    · rfl
    · have hn : c ∉ toks := fun hm => hc (by simpa using htoks c hm)
      simp [hn]
  rw [hlook, hs] at h
  exact h

theorem peek_wp {Q : Bool → Ptr → Prop} (htoks : toks.all symbols.contains = true)
    (h : ∀ s', lex s' = lex s → Q (look toks (lex s)) s') : wp (peek toks) Q E s :=
  peek_wp_skip (fun c hc => List.contains_iff_mem.1 (List.all_eq_true.1 htoks c hc))
    (h _ (lex_skip s))

theorem gettoken_wp {Q : Token → Ptr → Prop} (hs : lex s = t :: ts)
    (h : ∀ s', lex s' = ts → Q t s') :
    wp gettoken Q E s := by
  rw [lex] at hs
  split_ifs at hs
  cases hs
  exact h _ rfl

theorem gettoken_wp_nil {Q : Token → Ptr → Prop} (hs : lex s = [])
    (h : ∀ t s', t.kind = .eof → lex s' = [] → Q t s') : wp gettoken Q E s := by
  refine h (token s).1 (token s).2 ?_ (lex_of_nil ?_)
  · simp [token, skip_of_lex hs, scan]
  · rw [token, skip_of_lex hs]
    rfl

end Rules

end Shell

end Xv6
