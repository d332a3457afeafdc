import Xv6.Shell.Grammar

/-!
# The parser accepts the grammar

The parser accepts exactly the strings of the grammar, and returns the command of the derivation
(`parsecmd_iff_derives`).  What it returns is derived (`parse_sound`), by induction on the fuel; the
same induction shows that the fuel suffices and that the panic in `parseblock` is not reached.  What
is derived is returned (`Derives.complete`), by induction on the derivation: the parser looks one
token ahead, and the tokens that can follow a nonterminal (`Nonterminal.follow`) do not continue it.
-/

namespace Xv6

open List

namespace Shell

variable {s : Ptr} {n argc : ℕ} {cmd ret : Cmd} {t : Token} {ts us : List Token} {ws : List Word}
  {ds : List Redir}
variable {nt : Nonterminal} {toks : List UInt8}

/-- The errors of a line that is not in the grammar. -/
def Err.Rejects : Err → Prop
  | .parseblock => False
  | .fuel => False
  | _ => True

theorem exists_of_look (h : look toks ts = true) :
    ∃ t us, ts = t :: us ∧ ∃ c ∈ toks, t.kind.char? = some c := by
  cases ts with
  | nil => cases h
  | cons t us =>
    obtain ⟨c, hc, hm⟩ := (Option.any_eq_true _ _).1 h
    exact ⟨t, us, rfl, c, by simpa using hm, hc⟩

theorem exists_of_look_single {c : UInt8} (h : look [c] ts = true) :
    ∃ t us, ts = t :: us ∧ t.kind.char? = some c := by
  obtain ⟨t, us, rfl, d, hd, ht⟩ := exists_of_look h
  exact ⟨t, us, rfl, mem_singleton.1 hd ▸ ht⟩

theorem kind_of_char {k k' : Kind} (h : k.char? = k'.char?) (hk' : k'.char? ≠ none)
    (hgt : k'.char? ≠ some 62) : k = k' := by
  revert h hk' hgt
  cases k <;> cases k' <;> decide

theorem kind_ne_eof (h : lex s = t :: ts) : t.kind ≠ .eof := by
  rw [lex] at h
  split_ifs at h with hk
  obtain ⟨rfl, -⟩ := List.cons.inj h
  exact hk

theorem redircmd_eq {k : Kind} {w : Word} {mode fd : ℕ} (h : k.redir? = some (mode, fd)) :
    redircmd cmd k w = .redir cmd ⟨w, mode, fd⟩ := by
  cases k <;> simp [Kind.redir?] at h <;> obtain ⟨rfl, rfl⟩ := h <;> rfl

theorem redir_of_char {k : Kind} {c : UInt8} (hc : c ∈ [60, 62]) (h : k.char? = some c) :
    ∃ x : ℕ × ℕ, k.redir? = some x := by
  cases k <;> simp [Kind.char?] at h <;> subst h <;> revert hc <;> simp [Kind.redir?]

@[simp] theorem addArg_foldl (w : Word) :
    (ds.foldl .redir cmd).addArg w = ds.foldl .redir (cmd.addArg w) := by
  induction ds generalizing cmd with
  | nil => rfl
  | cons d ds ih => exact ih

/-- Several arguments. -/
def Cmd.addArgs (ws : List Word) (cmd : Cmd) : Cmd := ws.foldl (fun c w => c.addArg w) cmd

theorem addArgs_foldl : (ds.foldl .redir cmd).addArgs ws = ds.foldl .redir (cmd.addArgs ws) := by
  unfold Cmd.addArgs
  induction ws generalizing cmd with
  | nil => rfl
  | cons w ws ih => simp only [foldl_cons, addArg_foldl, ih]

theorem addArgs_exec {argv : List Word} : (Cmd.exec argv).addArgs ws = .exec (argv ++ ws) := by
  unfold Cmd.addArgs
  induction ws generalizing argv with
  | nil => simp
  | cons w ws ih => simp [Cmd.addArg, ih]

/-! ### What the parser returns is derived -/

theorem parseredirs_sound (hn : (lex s).length < n) :
    wp (parseredirs n cmd)
    (fun c s' => ∃ ts ds, lex s = ts ++ lex s' ∧ Redirs ts ds ∧ c = ds.foldl .redir cmd)
      (fun e _ => e.Rejects) s := by
  induction n generalizing cmd s with
  | zero => omega
  | succ n ih =>
    rw [parseredirs, wp_bind]
    refine peek_wp rfl fun s₁ hs1 => ?_
    cases hl : look [60, 62] (lex s) with
    | false => exact ⟨[], [], hs1.symm, .nil, rfl⟩
    | true =>
    obtain ⟨t, us, hts, c, hc, hk⟩ := exists_of_look hl
    obtain ⟨⟨mode, fd⟩, hredir⟩ := redir_of_char hc hk
    rw [if_pos rfl, wp_bind]
    refine gettoken_wp (hs1.trans hts) fun s₂ hs2 => ?_
    rw [wp_bind]
    cases us with
    | nil =>
      refine gettoken_wp_nil hs2 fun w s₃ hw _ => ?_
      rw [if_pos (by simp [hw]), wp_throw]
      trivial
    | cons w us =>
    refine gettoken_wp hs2 fun s₃ hs3 => ?_
    by_cases hw : w.kind = .word
    · rw [if_neg (by simp [hw]), redircmd_eq hredir]
      have hlen : (lex s₃).length < n := by simp only [hts, hs3, length_cons] at *; omega
      refine wp_post (ih hlen) fun c s' hr => ?_
      obtain ⟨ts, ds, hlex, hd, rfl⟩ := hr
      refine ⟨t :: w :: ts, _, ?_, .cons hredir hw hd, rfl⟩
      rw [hts, ← hs3, hlex]
      rfl
    · rw [if_pos hw, wp_throw]
      trivial

theorem parseargs_sound (hn : (lex s).length < n) (hargc : argc < maxArgs) :
    wp (parseargs n argc ret) (fun c s' => ∃ ts ws ds, lex s = ts ++ lex s' ∧ Args ts ws ds ∧
      argc + ws.length < maxArgs ∧ c = ds.foldl .redir (ret.addArgs ws))
      (fun e _ => e.Rejects) s := by
  induction n generalizing argc ret s with
  | zero => omega
  | succ n ih =>
    rw [parseargs, wp_bind]
    refine peek_wp rfl fun s₁ hs1 => ?_
    cases look [124, 41, 38, 59] (lex s) with
    | true => exact ⟨[], [], [], hs1.symm, .nil, hargc, rfl⟩
    | false =>
    rw [if_neg Bool.false_ne_true, wp_bind]
    cases hts : lex s with
    | nil =>
      refine gettoken_wp_nil (hs1.trans hts) fun w s₂ hw hs2 => ?_
      rw [if_pos hw]
      exact ⟨[], [], [], hs2.symm, .nil, hargc, rfl⟩
    | cons w us =>
    refine gettoken_wp (hs1.trans hts) fun s₂ hs2 => ?_
    have hlen : (lex s₂).length < n := by simp only [hts, hs2, length_cons] at *; omega
    simp only [wp_ite, wp_throw, wp_bind]
    refine ⟨fun hw => absurd hw (kind_ne_eof hts), fun _ =>
      ⟨fun _ => trivial, fun hw => ⟨fun _ => trivial, fun ha => ?_⟩⟩⟩
    have hw : w.kind = .word := not_not.1 hw
    refine wp_post (parseredirs_sound hlen) fun c s₃ hr => ?_
    obtain ⟨ts, ds, hlex, hd, rfl⟩ := hr
    have hlen3 : (lex s₃).length < n := by
      have := congrArg List.length hlex
      simp only [length_append] at this
      omega
    refine wp_post (ih hlen3 (by omega)) fun c s₄ hr => ?_
    obtain ⟨us', ws, ds', hlex', ha', hlt, rfl⟩ := hr
    refine ⟨w :: (ts ++ us'), _, _, ?_, .cons hw hd ha', by simp only [length_cons]; omega, ?_⟩
    · rw [← hs2, hlex, hlex']
      simp
    · rw [addArgs_foldl, foldl_append]
      rfl

theorem parseback_sound (hn : (lex s).length < n) :
    wp (parseback n cmd)
    (fun c s' => ∃ as : List Token, lex s = as ++ lex s' ∧ (∀ t ∈ as, t.kind = .amp) ∧
      c = Cmd.back^[as.length] cmd) (fun e _ => e.Rejects) s := by
  induction n generalizing cmd s with
  | zero => omega
  | succ n ih =>
    rw [parseback, wp_bind]
    refine peek_wp rfl fun s₁ hs1 => ?_
    cases hl : look [38] (lex s) with
    | false => exact ⟨[], hs1.symm, by simp, rfl⟩
    | true =>
    obtain ⟨t, us, hts, ht⟩ := exists_of_look_single hl
    rw [if_pos rfl, wp_bind]
    refine gettoken_wp (hs1.trans hts) fun s₂ hs2 => ?_
    have hlen : (lex s₂).length < n := by simp only [hts, hs2, length_cons] at *; omega
    refine wp_post (ih hlen) fun c s₃ hr => ?_
    obtain ⟨as, hlex, ha, rfl⟩ := hr
    refine ⟨t :: as, by rw [hts, ← hs2, hlex]; rfl, fun x hx => ?_, rfl⟩
    rcases mem_cons.1 hx with rfl | hx
    · exact kind_of_char ht (by decide) (by decide)
    · exact ha x hx

/-- What the parser owes for a nonterminal: the tokens that it takes are derived. -/
def Derived (nt : Nonterminal) (s : Ptr) (c : Cmd) (s' : Ptr) : Prop :=
  ∃ ts, lex s = ts ++ lex s' ∧ Derives nt ts c

theorem parse_sound (n : ℕ) (s : Ptr) :
    (4 * (lex s).length + 4 ≤ n → wp (parseline n) (Derived .line s) (fun e _ => e.Rejects) s) ∧
    (4 * (lex s).length + 3 ≤ n → wp (parsepipe n) (Derived .pipe s) (fun e _ => e.Rejects) s) ∧
    (4 * (lex s).length + 2 ≤ n → wp (parseexec n) (Derived .exec s) (fun e _ => e.Rejects) s) ∧
    (look [40] (lex s) = true → 4 * (lex s).length + 1 ≤ n →
      wp (parseblock n) (Derived .exec s) (fun e _ => e.Rejects) s) := by
  induction n generalizing s with
  | zero => exact ⟨by omega, by omega, by omega, by omega⟩
  | succ n ih =>
    refine ⟨fun hn => ?_, fun hn => ?_, fun hn => ?_, fun hl hn => ?_⟩
    · rw [parseline]
      refine wp_seq ((ih s).2.1 (by omega)) fun c s₁ hr => ?_
      obtain ⟨ts, hlex, hc⟩ := hr
      have hlen := congrArg List.length hlex
      rw [length_append] at hlen
      refine wp_seq (parseback_sound (by omega)) fun c' s₂ hr => ?_
      obtain ⟨as, hlex2, ha, rfl⟩ := hr
      rw [wp_bind]
      refine peek_wp rfl fun s₃ hs3 => ?_
      cases hl : look [59] (lex s₂) with
      | false => exact ⟨ts ++ as, by rw [hlex, hlex2, hs3, append_assoc], .last hc ha⟩
      | true =>
      obtain ⟨t, us, hts, ht⟩ := exists_of_look_single hl
      have hlen2 := congrArg List.length hlex2
      rw [if_pos rfl, wp_bind]
      refine gettoken_wp (hs3.trans hts) fun s₄ hs4 => ?_
      rw [hts, length_append, length_cons] at hlen2
      refine wp_seq ((ih s₄).1 (by rw [hs4]; omega)) fun d s₅ hr => ?_
      obtain ⟨us', hlex5, hd⟩ := hr
      refine ⟨ts ++ (as ++ t :: us'), ?_, .list hc ha (kind_of_char ht (by decide) (by decide)) hd⟩
      rw [hlex, hlex2, hts, ← hs4, hlex5]
      simp
    · rw [parsepipe]
      refine wp_seq ((ih s).2.2.1 (by omega)) fun c s₁ hr => ?_
      obtain ⟨ts, hlex, hc⟩ := hr
      have hlen := congrArg List.length hlex
      rw [wp_bind]
      refine peek_wp rfl fun s₂ hs2 => ?_
      cases hl : look [124] (lex s₁) with
      | false => exact ⟨ts, by rw [hlex, hs2], .exec hc⟩
      | true =>
      obtain ⟨t, us, hts, ht⟩ := exists_of_look_single hl
      rw [if_pos rfl, wp_bind]
      refine gettoken_wp (hs2.trans hts) fun s₃ hs3 => ?_
      rw [hts, length_append, length_cons] at hlen
      refine wp_seq ((ih s₃).2.1 (by rw [hs3]; omega)) fun d s₄ hr => ?_
      obtain ⟨us', hlex4, hd⟩ := hr
      refine ⟨ts ++ t :: us', ?_, .pipe hc (kind_of_char ht (by decide) (by decide)) hd⟩
      rw [hlex, hts, ← hs3, hlex4]
      simp
    · rw [parseexec, wp_bind]
      refine peek_wp rfl fun s₁ hs1 => ?_
      cases hl : look [40] (lex s) with
      | true =>
        have hblock := (ih s₁).2.2.2 (by rw [hs1, hl]) (by rw [hs1]; omega)
        unfold Derived at hblock ⊢
        rwa [hs1] at hblock
      | false =>
      rw [if_neg Bool.false_ne_true]
      refine wp_seq (parseredirs_sound (by rw [hs1]; omega)) fun c s₂ hr => ?_
      obtain ⟨ts, ds, hlex, hd, rfl⟩ := hr
      have hlen := congrArg List.length hlex
      rw [hs1, length_append] at hlen
      refine wp_post (parseargs_sound (by omega) (by decide)) fun c s₃ hr => ?_
      obtain ⟨us, ws, ds', hlex3, ha, hws, rfl⟩ := hr
      refine ⟨ts ++ us, by rw [← hs1, hlex, hlex3, append_assoc], ?_⟩
      rw [addArgs_foldl, addArgs_exec, nil_append, ← foldl_append]
      exact .simple hd ha (by simp only [maxArgs] at *; omega)
    · rw [parseblock, wp_bind]
      refine peek_wp rfl fun s₁ hs1 => ?_
      obtain ⟨t, us, hts, ht⟩ := exists_of_look_single hl
      rw [hl, if_pos rfl, wp_bind]
      refine gettoken_wp (hs1.trans hts) fun s₂ hs2 => ?_
      rw [hts, length_cons] at hn
      refine wp_seq ((ih s₂).1 (by rw [hs2]; omega)) fun c s₃ hr => ?_
      obtain ⟨ts, hlex, hc⟩ := hr
      have hlen := congrArg List.length hlex
      rw [wp_bind]
      refine peek_wp rfl fun s₄ hs4 => ?_
      cases hl' : look [41] (lex s₃) with
      | false => trivial
      | true =>
      obtain ⟨t', us', hts', ht'⟩ := exists_of_look_single hl'
      rw [if_pos rfl, wp_bind]
      refine gettoken_wp (hs4.trans hts') fun s₅ hs5 => ?_
      rw [hs2, hts', length_append, length_cons] at hlen
      refine wp_post (parseredirs_sound (by rw [hs5]; omega)) fun c' s₆ hr => ?_
      obtain ⟨vs, ds, hlex6, hd, rfl⟩ := hr
      refine ⟨t :: (ts ++ t' :: vs), ?_, .block (kind_of_char ht (by decide) (by decide)) hc
        (kind_of_char ht' (by decide) (by decide)) hd⟩
      rw [hts, ← hs2, hlex, hts', ← hs5, hlex6]
      simp

/-! ### What is derived is returned -/

/-- The tokens that can follow. -/
def Nonterminal.follow : Nonterminal → List Kind
  | .line => [.rparen]
  | .pipe => [.rparen, .amp, .semi]
  | .exec => [.rparen, .amp, .semi, .bar]

/-- The list of tokens can follow. -/
def Follows (nt : Nonterminal) (us : List Token) : Prop := ∀ t ∈ us.head?, t.kind ∈ nt.follow

theorem Follows.look {us : List Token} (h : Follows nt us)
    (hk : ∀ k ∈ nt.follow, (k.char?).any toks.contains = false) :
    look toks us = false := by
  cases us with
  | nil => rfl
  | cons t us => exact hk t.kind (h t rfl)

theorem Follows.mono {nt' : Nonterminal} (h : Follows nt us)
    (hk : ∀ k ∈ nt.follow, k ∈ nt'.follow) : Follows nt' us :=
  fun t ht => hk _ (h t ht)

theorem follows_cons (h : t.kind ∈ nt.follow) : Follows nt (t :: us) := by
  rintro t' ht
  cases ht
  exact h

theorem follows_amps {as : List Token} (h : ∀ t ∈ as, t.kind = .amp) (hus : Follows .pipe us) :
    Follows .pipe (as ++ us) := by
  cases as with
  | nil => exact hus
  | cons t as => exact follows_cons (by simp [h t, Nonterminal.follow])

theorem Redirs.complete (h : Redirs ts ds) (hs : lex s = ts ++ us) (hus : look [60, 62] us = false)
    (hn : ts.length < n) :
    wp (parseredirs n cmd) (fun c s' => c = ds.foldl .redir cmd ∧ lex s' = us)
    (fun _ _ => False) s := by
  induction h generalizing n s cmd with
  | nil =>
    obtain ⟨n, rfl⟩ := Nat.exists_eq_succ_of_ne_zero (by omega : n ≠ 0)
    rw [parseredirs, wp_bind]
    refine peek_wp rfl fun s₁ hs1 => ?_
    rw [hs, nil_append, hus]
    exact ⟨rfl, hs1.trans hs⟩
  | @cons t w mode fd ts ds ht hw _ ih =>
    obtain ⟨n, rfl⟩ := Nat.exists_eq_succ_of_ne_zero (by omega : n ≠ 0)
    have hlook : look [60, 62] (lex s) = true := by
      rw [hs]
      revert ht
      simp only [cons_append, look]
      cases t.kind <;> simp [Kind.redir?, Kind.char?]
    rw [parseredirs, wp_bind]
    refine peek_wp rfl fun s₁ hs1 => ?_
    rw [hlook, if_pos rfl, wp_bind]
    refine gettoken_wp (hs1.trans hs) fun s₂ hs2 => ?_
    rw [wp_bind]
    refine gettoken_wp hs2 fun s₃ hs3 => ?_
    rw [if_neg (by simp [hw]), redircmd_eq ht]
    exact ih hs3 (by simp only [length_cons] at hn; omega)

theorem Redirs.look_append (h : Redirs ts ds) (hus : look [40] us = false) :
    look [40] (ts ++ us) = false := by
  cases h with
  | nil => exact hus
  | @cons t w mode fd ts ds ht _ _ =>
    revert ht
    simp only [cons_append, look]
    cases t.kind <;> simp [Kind.redir?, Kind.char?]

theorem Args.look_append (h : Args ts ws ds) (hus : look toks us = false) :
    look toks (ts ++ us) = false := by
  cases h with
  | nil => exact hus
  | cons hw _ _ => simp [look, hw, Kind.char?]

theorem Args.complete (h : Args ts ws ds) (hs : lex s = ts ++ us) (hus : Follows .exec us)
    (hn : ts.length < n) (hargc : argc + ws.length < maxArgs) :
    wp (parseargs n argc ret) (fun c s' => c = ds.foldl .redir (ret.addArgs ws) ∧ lex s' = us)
    (fun _ _ => False) s := by
  induction h generalizing n s argc ret with
  | nil =>
    obtain ⟨n, rfl⟩ := Nat.exists_eq_succ_of_ne_zero (by omega : n ≠ 0)
    rw [parseargs, wp_bind]
    refine peek_wp rfl fun s₁ hs1 => ?_
    rw [hs, nil_append] at hs1 ⊢
    cases us with
    | nil =>
      rw [look, if_neg Bool.false_ne_true, wp_bind]
      refine gettoken_wp_nil hs1 fun t s₂ ht hs2 => ?_
      rw [if_pos ht]
      exact ⟨rfl, hs2⟩
    | cons t us =>
    have hlook : look [124, 41, 38, 59] (t :: us) = true := by
      have ht : t.kind ∈ Nonterminal.follow .exec := hus t rfl
      revert ht
      simp only [look]
      cases t.kind <;> decide
    rw [hlook]
    exact ⟨rfl, hs1⟩
  | @cons w ts us' ws ds ds' hw hd ha ih =>
    obtain ⟨n, rfl⟩ := Nat.exists_eq_succ_of_ne_zero (by omega : n ≠ 0)
    simp only [length_cons, length_append] at hn hargc
    rw [cons_append, append_assoc] at hs
    have hlook : look [124, 41, 38, 59] (lex s) = false := by simp [hs, look, hw, Kind.char?]
    rw [parseargs, wp_bind]
    refine peek_wp rfl fun s₁ hs1 => ?_
    rw [hlook, if_neg Bool.false_ne_true, wp_bind]
    refine gettoken_wp (hs1.trans hs) fun s₂ hs2 => ?_
    rw [if_neg (by simp [hw]), if_neg (by simp [hw]), if_neg (by omega), wp_bind]
    refine wp_post (hd.complete hs2 (ha.look_append (hus.look (by decide))) (by omega))
      fun c s₃ hr => ?_
    obtain ⟨rfl, hs3⟩ := hr
    refine wp_post (ih hs3 (by omega) (by omega)) fun c s₄ hr => ?_
    obtain ⟨rfl, hs4⟩ := hr
    refine ⟨?_, hs4⟩
    rw [addArgs_foldl, foldl_append]
    rfl

theorem parseback_complete {as : List Token} (h : ∀ t ∈ as, t.kind = .amp) (hs : lex s = as ++ us)
    (hus : look [38] us = false) (hn : as.length < n) :
    wp (parseback n cmd) (fun c s' => c = Cmd.back^[as.length] cmd ∧ lex s' = us)
    (fun _ _ => False) s := by
  induction as generalizing n s cmd with
  | nil =>
    obtain ⟨n, rfl⟩ := Nat.exists_eq_succ_of_ne_zero (by omega : n ≠ 0)
    rw [parseback, wp_bind]
    refine peek_wp rfl fun s₁ hs1 => ?_
    rw [hs, nil_append, hus]
    exact ⟨rfl, hs1.trans hs⟩
  | cons t as ih =>
    obtain ⟨n, rfl⟩ := Nat.exists_eq_succ_of_ne_zero (by omega : n ≠ 0)
    have hlook : look [38] (lex s) = true := by simp [hs, look, h t, Kind.char?]
    rw [parseback, wp_bind]
    refine peek_wp rfl fun s₁ hs1 => ?_
    rw [hlook, if_pos rfl, wp_bind]
    refine gettoken_wp (hs1.trans hs) fun s₂ hs2 => ?_
    exact ih (fun x hx => h x (by simp [hx])) hs2 (by simpa using hn)

/-- The parser of a nonterminal. -/
def parse : Nonterminal → ℕ → ParseM Cmd
  | .line => parseline
  | .pipe => parsepipe
  | .exec => parseexec

/-- The fuel that a nonterminal needs, beside that for its tokens. -/
def Nonterminal.fuel : Nonterminal → ℕ
  | .line => 4
  | .pipe => 3
  | .exec => 2

theorem Derives.complete (h : Derives nt ts cmd) (hs : lex s = ts ++ us) (hus : Follows nt us)
    (hn : 4 * ts.length + nt.fuel ≤ n) :
    wp (parse nt n) (fun c s' => c = cmd ∧ lex s' = us) (fun _ _ => False) s := by
  induction h generalizing n s us with
  | @last ts as c _ ha ih =>
    simp only [Nonterminal.fuel, length_append] at hn
    obtain ⟨n, rfl⟩ := Nat.exists_eq_succ_of_ne_zero (by omega : n ≠ 0)
    rw [append_assoc] at hs
    rw [parse, parseline]
    refine wp_seq
      (ih hs (follows_amps ha (hus.mono (by decide))) (by simp only [Nonterminal.fuel]; omega))
      fun c' s₁ hr => ?_
    obtain ⟨rfl, hs1⟩ := hr
    refine wp_seq (parseback_complete ha hs1 (hus.look (by decide)) (by omega)) fun c' s₂ hr => ?_
    obtain ⟨rfl, hs2⟩ := hr
    rw [wp_bind]
    refine peek_wp rfl fun s₃ hs3 => ?_
    rw [hs2, hus.look (by decide)]
    exact ⟨rfl, hs3.trans hs2⟩
  | @list ts as us' t c d _ ha ht _ ih ih' =>
    simp only [Nonterminal.fuel, length_append, length_cons] at hn
    obtain ⟨n, rfl⟩ := Nat.exists_eq_succ_of_ne_zero (by omega : n ≠ 0)
    simp only [append_assoc, cons_append] at hs
    rw [parse, parseline]
    refine wp_seq (ih hs (follows_amps ha (follows_cons (by simp [ht, Nonterminal.follow])))
      (by simp only [Nonterminal.fuel]; omega)) fun c' s₁ hr => ?_
    obtain ⟨rfl, hs1⟩ := hr
    refine wp_seq (parseback_complete ha hs1 (by simp [look, ht, Kind.char?]) (by omega))
      fun c' s₂ hr => ?_
    obtain ⟨rfl, hs2⟩ := hr
    have hlook : look [59] (lex s₂) = true := by simp [hs2, look, ht, Kind.char?]
    rw [wp_bind]
    refine peek_wp rfl fun s₃ hs3 => ?_
    rw [hlook, if_pos rfl, wp_bind]
    refine gettoken_wp (hs3.trans hs2) fun s₄ hs4 => ?_
    refine wp_seq (ih' hs4 hus (by simp only [Nonterminal.fuel]; omega)) fun d' s₅ hr => ?_
    obtain ⟨rfl, hs5⟩ := hr
    exact ⟨rfl, hs5⟩
  | @exec ts c _ ih =>
    simp only [Nonterminal.fuel] at hn
    obtain ⟨n, rfl⟩ := Nat.exists_eq_succ_of_ne_zero (by omega : n ≠ 0)
    rw [parse, parsepipe]
    refine wp_seq (ih hs (hus.mono (by decide)) (by simp only [Nonterminal.fuel]; omega))
      fun c' s₁ hr => ?_
    obtain ⟨rfl, hs1⟩ := hr
    rw [wp_bind]
    refine peek_wp rfl fun s₂ hs2 => ?_
    rw [hs1, hus.look (by decide)]
    exact ⟨rfl, hs2.trans hs1⟩
  | @pipe ts us' t c d _ ht _ ih ih' =>
    simp only [Nonterminal.fuel, length_append, length_cons] at hn
    obtain ⟨n, rfl⟩ := Nat.exists_eq_succ_of_ne_zero (by omega : n ≠ 0)
    simp only [append_assoc, cons_append] at hs
    rw [parse, parsepipe]
    refine wp_seq (ih hs (follows_cons (by simp [ht, Nonterminal.follow]))
      (by simp only [Nonterminal.fuel]; omega)) fun c' s₁ hr => ?_
    obtain ⟨rfl, hs1⟩ := hr
    have hlook : look [124] (lex s₁) = true := by simp [hs1, look, ht, Kind.char?]
    rw [wp_bind]
    refine peek_wp rfl fun s₂ hs2 => ?_
    rw [hlook, if_pos rfl, wp_bind]
    refine gettoken_wp (hs2.trans hs1) fun s₃ hs3 => ?_
    refine wp_seq (ih' hs3 hus (by simp only [Nonterminal.fuel]; omega)) fun d' s₄ hr => ?_
    obtain ⟨rfl, hs4⟩ := hr
    exact ⟨rfl, hs4⟩
  | @block ts us' t t' c ds ht _ ht' hd ih =>
    simp only [Nonterminal.fuel, length_append, length_cons] at hn
    obtain ⟨n, rfl⟩ := Nat.exists_eq_add_of_le' (by omega : 2 ≤ n)
    simp only [append_assoc, cons_append] at hs
    have hlook : look [40] (lex s) = true := by simp [hs, look, ht, Kind.char?]
    rw [parse, parseexec, wp_bind]
    refine peek_wp rfl fun s₁ hs1 => ?_
    rw [hlook, if_pos rfl, parseblock, wp_bind]
    refine peek_wp rfl fun s₂ hs2 => ?_
    rw [hs1, hlook, if_pos rfl, wp_bind]
    refine gettoken_wp ((hs2.trans hs1).trans hs) fun s₃ hs3 => ?_
    refine wp_seq (ih hs3 (follows_cons (by simp [ht', Nonterminal.follow]))
      (by simp only [Nonterminal.fuel]; omega)) fun c' s₄ hr => ?_
    obtain ⟨rfl, hs4⟩ := hr
    have hlook' : look [41] (lex s₄) = true := by simp [hs4, look, ht', Kind.char?]
    rw [wp_bind]
    refine peek_wp rfl fun s₅ hs5 => ?_
    rw [hlook', if_pos rfl, wp_bind]
    refine gettoken_wp (hs5.trans hs4) fun s₆ hs6 => ?_
    exact hd.complete hs6 (hus.look (by decide)) (by omega)
  | @simple ts us' ws ds ds' hd ha hws =>
    simp only [Nonterminal.fuel, length_append] at hn
    obtain ⟨n, rfl⟩ := Nat.exists_eq_succ_of_ne_zero (by omega : n ≠ 0)
    rw [append_assoc] at hs
    have hlook : look [40] (lex s) = false := by
      rw [hs]
      exact hd.look_append (ha.look_append (hus.look (by decide)))
    rw [parse, parseexec, wp_bind]
    refine peek_wp rfl fun s₁ hs1 => ?_
    rw [hlook, if_neg Bool.false_ne_true]
    refine wp_seq (hd.complete (hs1.trans hs) (ha.look_append (hus.look (by decide))) (by omega))
      fun c s₂ hr => ?_
    obtain ⟨rfl, hs2⟩ := hr
    refine wp_post (ha.complete hs2 hus (by omega) (by simp only [maxArgs] at *; omega))
      fun c s₃ hr => ?_
    obtain ⟨rfl, hs3⟩ := hr
    refine ⟨?_, hs3⟩
    rw [addArgs_foldl, addArgs_exec, nil_append, foldl_append]

/-! ### The whole line -/

theorem parseall_sound (h : 4 * (lex s).length + 4 ≤ n) :
    wp (parseall n) (fun c _ => Derives .line (lex s) c) (fun e _ => e.Rejects) s := by
  rw [parseall]
  refine wp_seq ((parse_sound n s).1 h) fun c s₁ hr => ?_
  obtain ⟨ts, hlex, hc⟩ := hr
  rw [wp_bind]
  refine peek_wp (by simp) fun s₂ hs2 => ?_
  simp only [wp_bind, wp_get, wp_ite, wp_throw, wp_pure]
  refine ⟨fun _ => trivial, fun he => ?_⟩
  rw [← hs2, not_not.1 he, lex_of_nil (s := []) rfl, append_nil] at hlex
  rwa [hlex]

theorem parseall_complete (hc : Derives .line (lex s) cmd) (h : 4 * (lex s).length + 4 ≤ n) :
    wp (parseall n) (fun c _ => c = cmd) (fun _ _ => False) s := by
  rw [parseall]
  refine wp_seq (hc.complete (append_nil _).symm (by simp [Follows]) h) fun c s₁ hr => ?_
  obtain ⟨rfl, hs1⟩ := hr
  rw [wp_bind]
  refine peek_wp_skip (by simp) ?_
  rw [skip_of_lex hs1]
  exact rfl

theorem lex_fuel (buf : List UInt8) :
    4 * (lex (cstring buf)).length + 4 ≤ 4 * (cstring buf).length + 4 := by
  have := length_lex_le (cstring buf)
  omega

theorem parsecmd_ok {buf buf' : List UInt8} (h : parsecmd buf = .ok (cmd, buf')) :
    Derives .line (lex (cstring buf)) cmd ∧ buf' = nulterminate (cstring buf).length cmd buf := by
  unfold parsecmd at h
  cases hall : parseall (4 * (cstring buf).length + 4) (cstring buf) with
  | ok c s' =>
    rw [hall] at h
    cases h
    exact ⟨(parseall_sound (lex_fuel buf)).ok hall, rfl⟩
  | error e s' =>
    rw [hall] at h
    cases h

/-- **The parser accepts exactly the grammar**: it returns a command if and only if the tokens of
the line derive it, and ends with one of the errors for a wrong line otherwise. -/
theorem parsecmd_iff_derives (buf : List UInt8) :
    (∀ cmd, (∃ buf', parsecmd buf = .ok (cmd, buf')) ↔ ∃ ts, Lexes (cstring buf) ts ∧
      Derives .line ts cmd) ∧
    ((¬∃ cmd ts, Lexes (cstring buf) ts ∧ Derives .line ts cmd) → ∃ e, parsecmd buf = .error e ∧
      e.Rejects) := by
  have hsound := parseall_sound (lex_fuel buf)
  refine ⟨fun cmd => ⟨?_, ?_⟩, fun hno => ?_⟩
  · rintro ⟨buf', hp⟩
    exact ⟨lex (cstring buf), lexes_lex _, (parsecmd_ok hp).1⟩
  · rintro ⟨ts, hts, hc⟩
    obtain rfl := lexes_iff.1 hts
    obtain ⟨c, s', hall, rfl⟩ := (parseall_complete hc (lex_fuel buf)).exists_ok
    exact ⟨_, by rw [parsecmd, hall]⟩
  · cases hall : parseall (4 * (cstring buf).length + 4) (cstring buf) with
    | ok c s' => exact absurd ⟨c, _, lexes_lex _, hsound.ok hall⟩ hno
    | error e s' => exact ⟨e, by rw [parsecmd, hall], hsound.error hall⟩

-- `a|b`: the byte behind `a` becomes a NUL.
example : parsecmd [97, 124, 98, 0] =
    .ok (.pipe (.exec [⟨[97, 124, 98], [124, 98]⟩]) (.exec [⟨[98], []⟩]), [97, 0, 98, 0]) := by
    decide

end Shell

end Xv6
