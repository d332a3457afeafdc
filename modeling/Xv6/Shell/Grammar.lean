import Mathlib.Logic.Function.Iterate
import Xv6.Shell.Parse

/-!
# The grammar of the shell

The language of the shell as a grammar over tokens, with the command that each derivation stands
for:

    line  := pipe '&'* (';' line)?
    pipe  := exec ('|' pipe)?
    exec  := '(' line ')' redir* | redir* (word redir*)*
    redir := ('<' | '>' | '>>') word

and the tokens of a string by maximal munch (`Lexes`), which are those that `gettoken` finds
(`lexes_iff`).
-/

namespace Xv6

open List

namespace Shell

/-! ### Tokens -/

/-- The tokens of a string: whitespace separates, and each token is as long as possible. -/
inductive Lexes : Ptr → List Token → Prop
  | nil : Lexes [] []
  | space {c : UInt8} {s : Ptr} {ts : List Token} : isSpace c = true → Lexes s ts → Lexes (c ::
      s) ts
  | symbol {c : UInt8} {k : Kind} {s : Ptr} {ts : List Token} : k.char? = some c → k ≠ .append →
      (k = .gt → s.head? ≠ some 62) → Lexes s ts → Lexes (c :: s) (⟨⟨c :: s, s⟩, k⟩ :: ts)
  | append {s : Ptr} {ts : List Token} : Lexes s ts → Lexes (62 :: 62 ::
      s) (⟨⟨62 :: 62 :: s, s⟩, .append⟩ :: ts)
  | word {w s : Ptr} {ts : List Token} : w ≠ [] → (∀ c ∈ w, isWord c = true) → (∀ c ∈ s.head?,
      isWord c = false) → Lexes s ts → Lexes (w ++ s) (⟨⟨w ++ s, s⟩, .word⟩ :: ts)

/-! ### The grammar -/

/-- The mode and the descriptor of a redirection. -/
def Kind.redir? : Kind → Option (ℕ × ℕ)
  | .lt => some (oRdonly, 0)
  | .gt => some (oWronlyCreate, 1)
  | .append => some (oWronlyCreate, 1)
  | _ => none

/-- `redir*`, with the redirections. -/
inductive Redirs : List Token → List Redir → Prop
  | nil : Redirs [] []
  | cons {t w : Token} {mode fd : ℕ} {ts : List Token} {ds : List Redir} :
      t.kind.redir? = some (mode, fd) → w.kind = .word → Redirs ts ds →
      Redirs (t :: w :: ts) (⟨w.toWord, mode, fd⟩ :: ds)

/-- `(word redir*)*`, with the words and the redirections. -/
inductive Args : List Token → List Word → List Redir → Prop
  | nil : Args [] [] []
  | cons {w : Token} {ts us : List Token} {ws : List Word} {ds ds' : List Redir} :
      w.kind = .word → Redirs ts ds → Args us ws ds' →
      Args (w :: (ts ++ us)) (w.toWord :: ws) (ds ++ ds')

/-- The nonterminals. -/
inductive Nonterminal
  | line
  | pipe
  | exec
  deriving DecidableEq

/-- A sequence of tokens is derived, and stands for a command. -/
inductive Derives : Nonterminal → List Token → Cmd → Prop
  | last {ts as : List Token} {c : Cmd} : Derives .pipe ts c → (∀ t ∈ as, t.kind = .amp) →
      Derives .line (ts ++ as) (Cmd.back^[as.length] c)
  | list {ts as us : List Token} {t : Token} {c d : Cmd} :
      Derives .pipe ts c → (∀ t ∈ as, t.kind = .amp) → t.kind = .semi → Derives .line us d →
      Derives .line (ts ++ (as ++ t :: us)) (.list (Cmd.back^[as.length] c) d)
  | exec {ts : List Token} {c : Cmd} : Derives .exec ts c → Derives .pipe ts c
  | pipe {ts us : List Token} {t : Token} {c d : Cmd} :
      Derives .exec ts c → t.kind = .bar → Derives .pipe us d →
      Derives .pipe (ts ++ t :: us) (.pipe c d)
  | block {ts us : List Token} {t t' : Token} {c : Cmd} {ds : List Redir} :
      t.kind = .lparen → Derives .line ts c → t'.kind = .rparen → Redirs us ds →
      Derives .exec (t :: (ts ++ t' :: us)) (ds.foldl .redir c)
  | simple {ts us : List Token} {ws : List Word} {ds ds' : List Redir} :
      Redirs ts ds → Args us ws ds' → ws.length ≤ maxArgs - 1 →
      Derives .exec (ts ++ us) ((ds ++ ds').foldl .redir (.exec ws))

/-! ### Maximal munch -/

theorem scan_cases {c : UInt8} (s : Ptr) (hs : isSpace c = false) :
    (∃ k : Kind, scan (c :: s) = (k, s) ∧ k.char? = some c ∧ k ≠ .append ∧
      (k = .gt → s.head? ≠ some 62)) ∨
    (c = 62 ∧ s.head? = some 62 ∧ scan (c :: s) = (.append, s.tail)) ∨
    (isWord c = true ∧ scan (c :: s) = (.word, s.dropWhile isWord)) := by
  by_cases hw : isWord c = true
  · refine .inr (.inr ⟨hw, ?_⟩)
    have hc := (isWord_iff hs).1 hw
    simp only [symbols, mem_cons, not_mem_nil, or_false, not_or] at hc
    simp [scan, hc, dropWhile_cons_of_pos hw]
  have hc : c ∈ symbols := by
    by_contra hc
    exact hw ((isWord_iff hs).2 hc)
  simp only [symbols, mem_cons, not_mem_nil, or_false] at hc
  by_cases hgt : c = 62 ∧ s.head? = some 62
  · exact .inr (.inl ⟨hgt.1, hgt.2, by simp [scan, hgt.1, hgt.2]⟩)
  · refine .inl ⟨(scan (c :: s)).1, ?_⟩
    rcases hc with rfl | rfl | rfl | rfl | rfl | rfl | rfl <;> simp_all [scan, Kind.char?]

theorem skip_of_not {c : UInt8} {s : Ptr} (h : isSpace c = false) : skip (c :: s) = c :: s :=
  dropWhile_cons_of_neg (by simp [h])

theorem lex_of_space {c : UInt8} {s : Ptr} (h : isSpace c = true) : lex (c :: s) = lex s := by
  rw [← lex_skip (c :: s), ← lex_skip s]
  exact congrArg lex (dropWhile_cons_of_pos h)

theorem isSpace_of_char {k : Kind} {c : UInt8} (h : k.char? = some c) : isSpace c = false := by
  cases k <;> simp [Kind.char?] at h <;> subst h <;> decide

theorem isSpace_of_word {c : UInt8} (h : isWord c = true) : isSpace c = false := by
  simp only [isWord, Bool.and_eq_true, Bool.not_eq_true'] at h
  exact h.1

theorem scan_symbol {k : Kind} {c : UInt8} {s : Ptr} (h : k.char? = some c) (hk : k ≠ .append)
    (hgt : k = .gt → s.head? ≠ some 62) : scan (c :: s) = (k, s) := by
  cases k <;> simp [Kind.char?] at h hk hgt <;> subst h <;> simp [scan, hgt]

theorem lexes_lex (s : Ptr) : Lexes s (lex s) := by
  induction hn : s.length using Nat.strongRecOn generalizing s with
  | ind n ih =>
    subst hn
    cases s with
    | nil =>
      rw [lex_of_nil rfl]
      exact .nil
    | cons c s =>
    cases hs : isSpace c with
    | true =>
      rw [lex_of_space hs]
      exact .space hs (ih s.length (by simp) s rfl)
    | false =>
    have hlt := length_scan_lt s hs
    rw [lex_of_cons (skip_of_not hs)]
    rcases scan_cases s hs with ⟨k, hk, hc, ha, hgt⟩ | ⟨rfl, hh, hk⟩ | ⟨hw, hk⟩
    · rw [hk] at hlt ⊢
      exact .symbol hc ha hgt (ih _ hlt _ rfl)
    · obtain ⟨s', rfl⟩ : ∃ s', s = 62 :: s' := ⟨s.tail, (cons_head?_tail hh).symm⟩
      rw [hk] at hlt ⊢
      exact .append (ih _ hlt _ rfl)
    rw [hk] at hlt ⊢
    have hsplit : c :: s = (c :: s.takeWhile isWord) ++ s.dropWhile isWord := by simp
    have hrest := ih _ hlt _ rfl
    dsimp only at hrest ⊢
    rw [hsplit]
    refine .word (by simp) (fun d hd => ?_) (fun d hd => ?_) hrest
    · rcases mem_cons.1 hd with rfl | hd
      · exact hw
      · exact mem_takeWhile_imp hd
    · have := List.head?_dropWhile_not isWord s
      rw [hd] at this
      simpa using this

/-- The tokens of a string are those that `gettoken` finds. -/
theorem lexes_iff {s : Ptr} {ts : List Token} : Lexes s ts ↔ lex s = ts := by
  refine ⟨fun h => ?_, fun h => h ▸ lexes_lex s⟩
  induction h with
  | nil => exact lex_of_nil rfl
  | space hs _ ih => rw [lex_of_space hs, ih]
  | symbol hc hk hgt _ ih =>
    rw [lex_of_cons (skip_of_not (isSpace_of_char hc)), scan_symbol hc hk hgt, ih]
  | append _ ih =>
    rw [lex_of_cons (skip_of_not (by decide)), ← ih]
    rfl
  | @word w s ts hne hw hs _ ih =>
    obtain ⟨c, w, rfl⟩ := exists_cons_of_ne_nil hne
    have hc := hw c (by simp)
    have hdrop : (w ++ s).dropWhile isWord = s := by
      rw [dropWhile_append_of_pos fun d hd => hw d (by simp [hd])]
      cases s with
      | nil => rfl
      | cons d s => exact dropWhile_cons_of_neg (by simp [hs d rfl])
    have hscan : scan (c :: (w ++ s)) = (.word, s) := by
      have hsym := (isWord_iff (isSpace_of_word hc)).1 hc
      simp only [symbols, mem_cons, not_mem_nil, or_false, not_or] at hsym
      simp [scan, hsym, dropWhile_cons_of_pos hc, hdrop]
    rw [cons_append, lex_of_cons (skip_of_not (isSpace_of_word hc)), hscan, ih]

end Shell

end Xv6
