import Xv6.Shell.Correct

/-!
# Termination of the words in place

The words of a command are parts of the line, which `nulterminate` changes under them: it writes a
NUL behind each word.

* `nulterminate_getElem?` : the bytes behind the words become NUL, no others change.
* `Lexes.placed` : the byte behind a word of the line is none of a word.
* `nulterminate_words` : **every word of a command is still there after `nulterminate`**, as a
  string.
-/

namespace Xv6

open List

namespace Shell

variable {s : Ptr} {ts : List Token} {t : Token} {w : Word} {ws : List Word} {ds : List Redir}
  {c : Cmd} {nt : Nonterminal} {es i : ℕ} {buf : List UInt8}

/-- The words of a command: the arguments and the files, in the order of `nulterminate`. -/
def Cmd.words : Cmd → List Word
  | .exec argv => argv
  | .redir cmd r => cmd.words ++ [r.file]
  | .pipe left right => left.words ++ right.words
  | .list left right => left.words ++ right.words
  | .back cmd => cmd.words

/-- The arguments of each `execcmd` of a command. -/
def Cmd.argvs : Cmd → List (List Word)
  | .exec argv => [argv]
  | .redir cmd _ => cmd.argvs
  | .pipe left right => left.argvs ++ right.argvs
  | .list left right => left.argvs ++ right.argvs
  | .back cmd => cmd.argvs

/-- The bytes of a word, from `q` to `eq`. -/
def Word.text (w : Word) : List UInt8 := w.q.take (w.q.length - w.eq.length)

/-! ### The bytes that change -/

theorem nulterminate_eq_foldl :
    nulterminate es c buf = c.words.foldl (fun buf w => buf.set (es - w.eq.length) 0) buf := by
  induction c generalizing buf with
  | exec argv => rfl
  | redir cmd r ih | back cmd ih => simp [nulterminate, Cmd.words, ih]
  | pipe left right ih ih' | list left right ih ih' => simp [nulterminate, Cmd.words, ih, ih']

theorem foldl_set_getElem? : (ws.foldl (fun buf w => buf.set (es - w.eq.length) 0) buf)[i]? =
    if ∃ w ∈ ws, es - w.eq.length = i then buf[i]?.map fun _ => 0 else buf[i]? := by
  induction ws generalizing buf with
  | nil => simp
  | cons w ws ih =>
    rw [foldl_cons, ih]
    simp only [mem_cons, exists_eq_or_imp]
    by_cases hw : es - w.eq.length = i
    · subst hw
      have hself : (buf.set (es - w.eq.length) 0)[es - w.eq.length]? = buf[es - w.eq.length]?.map
          fun _ => 0 := by
        rw [List.getElem?_set_self']
        rfl
      cases h : buf[es - w.eq.length]? <;> simp [hself, h]
    · simp [hw]

/-- The bytes behind the words become NUL, the others stay. -/
theorem nulterminate_getElem? : (nulterminate es c buf)[i]? =
    if ∃ w ∈ c.words, es - w.eq.length = i then buf[i]?.map fun _ => 0 else buf[i]? := by
  rw [nulterminate_eq_foldl, foldl_set_getElem?]

/-! ### The words of the line -/

/-- A word of the line `s`: it ends where a byte follows that is none of a word. -/
structure Placed (s : Ptr) (w : Word) : Prop where
  suffix : w.q <:+ s
  split : w.q = w.text ++ w.eq
  text_ne : w.text ≠ []
  text_word : ∀ b ∈ w.text, isWord b = true
  eq_head : ∀ b ∈ w.eq.head?, isWord b = false

theorem Placed.append {s' : Ptr} (l : Ptr) (h : Placed s w) (hs : s' = l ++ s) : Placed s' w :=
  ⟨h.suffix.trans (hs ▸ suffix_append l s), h.split, h.text_ne, h.text_word, h.eq_head⟩

theorem Lexes.placed (h : Lexes s ts) (ht : t ∈ ts) (hk : t.kind = .word) : Placed s t.toWord := by
  induction h with
  | nil => cases ht
  | @space b s ts _ _ ih => exact (ih ht).append [b] rfl
  | @symbol b k s ts hc _ _ _ ih =>
    rcases mem_cons.1 ht with rfl | ht
    · simp only at hk
      subst hk
      cases hc
    · exact (ih ht).append [b] rfl
  | append _ ih =>
    rcases mem_cons.1 ht with rfl | ht
    · cases hk
    · exact (ih ht).append [62, 62] rfl
  | @word l s ts hne hl hs _ ih =>
    rcases mem_cons.1 ht with rfl | ht
    · have htext : Word.text ⟨l ++ s, s⟩ = l := by simp [Word.text]
      exact ⟨suffix_refl _, by rw [htext], by rwa [htext], by rwa [htext], hs⟩
    · exact (ih ht).append l rfl

/-! ### The words of a command -/

theorem words_foldl_redir : (ds.foldl .redir c).words = c.words ++ ds.map Redir.file := by
  induction ds generalizing c with
  | nil => simp
  | cons d ds ih => simp [ih, Cmd.words]

theorem argvs_foldl_redir : (ds.foldl .redir c).argvs = c.argvs := by
  induction ds generalizing c with
  | nil => rfl
  | cons d ds ih => rw [foldl_cons, ih, Cmd.argvs]

theorem words_iterate_back (n : ℕ) : (Cmd.back^[n] c).words = c.words := by
  induction n generalizing c with
  | zero => rfl
  | succ n ih => rw [Function.iterate_succ_apply, ih, Cmd.words]

theorem argvs_iterate_back (n : ℕ) : (Cmd.back^[n] c).argvs = c.argvs := by
  induction n generalizing c with
  | zero => rfl
  | succ n ih => rw [Function.iterate_succ_apply, ih, Cmd.argvs]

/-- The word is one of the tokens. -/
def IsToken (ts : List Token) (w : Word) : Prop := ∃ t ∈ ts, t.kind = .word ∧ t.toWord = w

theorem IsToken.mono {us : List Token} (h : IsToken ts w) (hsub : ∀ t ∈ ts, t ∈ us) :
    IsToken us w := by
  obtain ⟨t, ht, hw⟩ := h
  exact ⟨t, hsub t ht, hw⟩

theorem Redirs.isToken (h : Redirs ts ds) : ∀ w ∈ ds.map Redir.file, IsToken ts w := by
  induction h with
  | nil => simp
  | @cons t u mode fd ts ds _ hu _ ih =>
    intro w hw
    rcases mem_cons.1 hw with rfl | hw
    · exact ⟨u, by simp, hu, rfl⟩
    · exact (ih w hw).mono (by simp +contextual)

theorem Args.isToken (h : Args ts ws ds) : ∀ w ∈ ws ++ ds.map Redir.file, IsToken ts w := by
  induction h with
  | nil => simp
  | @cons u ts us ws ds ds' hu hd _ ih =>
    intro w hw
    simp only [map_append, cons_append, mem_cons, mem_append] at hw ih
    rcases hw with rfl | hw | hw | hw
    · exact ⟨u, by simp, hu, rfl⟩
    · exact (ih w (.inl hw)).mono (by simp +contextual)
    · exact (hd.isToken w hw).mono (by simp +contextual)
    · exact (ih w (.inr hw)).mono (by simp +contextual)

theorem Derives.isToken (h : Derives nt ts c) : ∀ w ∈ c.words, IsToken ts w := by
  induction h with
  | last _ _ ih =>
    intro w hw
    rw [words_iterate_back] at hw
    exact (ih w hw).mono (by simp +contextual)
  | list _ _ _ _ ih ih' =>
    intro w hw
    rw [Cmd.words, words_iterate_back] at hw
    rcases mem_append.1 hw with hw | hw
    · exact (ih w hw).mono (by simp +contextual)
    · exact (ih' w hw).mono (by simp +contextual)
  | exec _ ih => exact ih
  | pipe _ _ _ ih ih' =>
    intro w hw
    rcases mem_append.1 hw with hw | hw
    · exact (ih w hw).mono (by simp +contextual)
    · exact (ih' w hw).mono (by simp +contextual)
  | block _ _ _ hd ih =>
    intro w hw
    rw [words_foldl_redir] at hw
    rcases mem_append.1 hw with hw | hw
    · exact (ih w hw).mono (by simp +contextual)
    · exact (hd.isToken w hw).mono (by simp +contextual)
  | simple hd ha _ =>
    intro w hw
    have hargs := ha.isToken w
    simp only [words_foldl_redir, Cmd.words, map_append, mem_append] at hw hargs
    rcases hw with hw | hw | hw
    · exact (hargs (.inl hw)).mono (by simp +contextual)
    · exact (hd.isToken w hw).mono (by simp +contextual)
    · exact (hargs (.inr hw)).mono (by simp +contextual)

/-- The arguments of each `execcmd` and the null pointer behind them fit into its arrays. -/
theorem Derives.argvs_lt (h : Derives nt ts c) : ∀ argv ∈ c.argvs, argv.length < maxArgs := by
  induction h with
  | last _ _ ih => rwa [argvs_iterate_back]
  | list _ _ _ _ ih ih' =>
    intro argv hm
    rw [Cmd.argvs, argvs_iterate_back] at hm
    exact (mem_append.1 hm).elim (ih argv) (ih' argv)
  | exec _ ih => exact ih
  | pipe _ _ _ ih ih' => exact fun argv hm => (mem_append.1 hm).elim (ih argv) (ih' argv)
  | block _ _ _ _ ih => rwa [argvs_foldl_redir]
  | simple _ _ hws =>
    intro argv hm
    rw [argvs_foldl_redir, Cmd.argvs, mem_singleton] at hm
    rw [hm]
    exact Nat.lt_succ_of_le hws

/-! ### Reading the words -/

theorem cstring_getElem? (hi : i < (cstring buf).length) : buf[i]? = (cstring buf)[i]? := by
  have h : (cstring buf ++ buf.dropWhile (· ≠ 0))[i]? = (cstring buf)[i]? :=
    List.getElem?_append_left hi
  rwa [cstring, takeWhile_append_dropWhile] at h

theorem cstring_eq {text : List UInt8} (h0 : ∀ b ∈ text, b ≠ 0)
    (htext : ∀ k < text.length, buf[k]? = text[k]?) (hend : ∀ b ∈ buf[text.length]?, b = 0) :
    cstring buf = text := by
  have htake : buf.take text.length = text := by
    refine ext_getElem? fun k => ?_
    by_cases hk : k < text.length
    · rw [List.getElem?_take_of_lt hk, htext k hk]
    · rw [List.getElem?_eq_none (by simp; omega), List.getElem?_eq_none (by omega)]
  have hdrop : cstring (buf.drop text.length) = [] := by
    rw [cstring, takeWhile_eq_nil_iff]
    intro hlt
    simpa using hend _ (by simp)
  rw [← take_append_drop text.length buf, htake, cstring, takeWhile_append_of_pos
    (by simpa using h0), ← cstring, hdrop, append_nil]

theorem Placed.getElem?_eq (h : Placed s w) : s[s.length - w.eq.length]? = w.eq.head? := by
  obtain ⟨pre, hpre⟩ := h.suffix
  have hs : s = (pre ++ w.text) ++ w.eq := by rw [append_assoc, ← h.split, hpre]
  have hlen : s.length - w.eq.length = (pre ++ w.text).length := by
    rw [hs, length_append, Nat.add_sub_cancel]
  rw [hlen, List.head?_eq_getElem?]
  conv_lhs => rw [hs, List.getElem?_append_right le_rfl, Nat.sub_self]

theorem Placed.getElem?_text {k : ℕ} (h : Placed s w) (hk : k < w.text.length) :
    s[s.length - w.q.length + k]? = w.text[k]? := by
  obtain ⟨pre, hpre⟩ := h.suffix
  have hlen : s.length - w.q.length = pre.length := by
    rw [← hpre, length_append, Nat.add_sub_cancel]
  rw [hlen]
  conv_lhs => rw [← hpre, List.getElem?_append_right (Nat.le_add_right _ _),
    Nat.add_sub_cancel_left, h.split, List.getElem?_append_left hk]

theorem Placed.ne_of_lt {w' : Word} {k : ℕ} (h : Placed s w) (h' : Placed s w')
    (hk : k < w.text.length) :
    s.length - w'.eq.length ≠ s.length - w.q.length + k := by
  intro heq
  have htext := h.getElem?_text hk
  rw [← heq, h'.getElem?_eq, List.getElem?_eq_getElem hk] at htext
  have := h'.eq_head _ htext
  rw [h.text_word _ (getElem_mem hk)] at this
  cases this

/-- **Every word survives `nulterminate`.**  For a line that the parser accepts, every argument and
every file of the command is a word of the line, and is the string that is read from its place in
the buffer afterwards; the arguments of each `execcmd` and the null pointer behind them are within
its arrays. -/
theorem nulterminate_words {buf buf' : List UInt8} {cmd : Cmd}
    (h : parsecmd buf = .ok (cmd, buf')) :
    (∀ w ∈ cmd.words, IsToken (lex (cstring buf)) w ∧ Placed (cstring buf) w ∧
      cstring (buf'.drop ((cstring buf).length - w.q.length)) = w.text) ∧
    ∀ argv ∈ cmd.argvs, argv.length < maxArgs := by
  obtain ⟨hder, rfl⟩ := parsecmd_ok h
  have hplaced : ∀ w ∈ cmd.words, Placed (cstring buf) w := by
    intro w hw
    obtain ⟨t, ht, hk, rfl⟩ := hder.isToken w hw
    exact (lexes_lex _).placed ht hk
  refine ⟨fun w hw => ⟨hder.isToken w hw, hplaced w hw, ?_⟩, hder.argvs_lt⟩
  have hp := hplaced w hw
  have hend : (cstring buf).length - w.q.length + w.text.length =
      (cstring buf).length - w.eq.length := by
    have hle := hp.suffix.length_le
    have hlen := congrArg List.length hp.split
    rw [length_append] at hlen
    omega
  refine cstring_eq (fun b hb => ?_) (fun k hk => ?_) fun b hb => ?_
  · have hmem : b ∈ cstring buf := hp.suffix.subset (hp.split ▸ mem_append_left _ hb)
    simpa using mem_takeWhile_imp hmem
  · have hk' := hp.getElem?_text hk
    rw [List.getElem?_drop, nulterminate_getElem?, if_neg, cstring_getElem?, hk']
    · by_contra hn
      rw [List.getElem?_eq_none (by omega), List.getElem?_eq_getElem hk] at hk'
      cases hk'
    · rintro ⟨w', hw', heq⟩
      exact hp.ne_of_lt (hplaced w' hw') hk heq
  · rw [List.getElem?_drop, hend, nulterminate_getElem?, if_pos ⟨w, hw, rfl⟩] at hb
    obtain ⟨_, -, rfl⟩ := Option.map_eq_some_iff.1 hb
    rfl

/-- `a<b|c>d;e&`: the words stand next to symbols. -/
theorem nulterminate_words_adjacent :
    ∃ cmd buf', parsecmd [97, 60, 98, 124, 99, 62, 100, 59, 101, 38, 0] = .ok (cmd, buf') ∧
    cmd.words.map Word.text = [[97], [98], [99], [100], [101]] ∧
    ∀ w ∈ cmd.words, cstring (buf'.drop (10 - w.q.length)) = w.text := by
  obtain ⟨cmd, buf', h, hw⟩ : ∃ cmd buf', parsecmd [97, 60, 98, 124, 99, 62, 100, 59, 101, 38, 0] =
    .ok (cmd, buf') ∧
      cmd.words.map Word.text = [[97], [98], [99], [100], [101]] := ⟨_, _, by rfl, by rfl⟩
  exact ⟨cmd, buf', h, hw, fun w hm => ((nulterminate_words h).1 w hm).2.2⟩

end Shell

end Xv6
