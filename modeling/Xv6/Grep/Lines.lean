import Xv6.Grep.Match

/-!
# `grep` and the pieces of its input

The function `grep` of `grep.c`, which assembles lines in a buffer of 1024 bytes.  What `read`
returns is given by a list of pieces; the end of the list is the end of the input.

After a piece without a newline the source sets `m` to 0, which is meant for lines that do not fit
into the buffer but also loses the beginning of a line that has just not come in completely.

* `grep_iff` : **the output is that of the whole input iff every piece has a newline**.
* `grep_loses` : two pieces for which it is not.
-/

namespace Xv6

open List

namespace Grep

/-- `'\n'` -/
abbrev newline : UInt8 := 10

/-- `sizeof(buf)` -/
abbrev bufSize : ℕ := 1024

/-- `strchr`: how far away the first `c` of a string is. -/
def strchr (c : UInt8) : List UInt8 → Option ℕ
  | [] => none
  | b :: s => if b = 0 then none else if b = c then some 0 else (strchr c s).map (· + 1)

/-- The string at the beginning of some memory. -/
def cString (s : List UInt8) : List UInt8 := s.takeWhile (· ≠ 0)

/-- The buffer, where the rest starts, and what has been written. -/
structure Scan where
  buf : List UInt8
  p : ℕ
  out : List UInt8

/-- The inner loop: the lines from `p` on.  It takes one unit of fuel for a line. -/
def scan (pattern : List UInt8) : ℕ → List UInt8 → ℕ → Scan
  | 0, buf, p => ⟨buf, p, []⟩
  | fuel + 1, buf, p =>
    match strchr newline (buf.drop p) with
    | none => ⟨buf, p, []⟩
    | some i =>
      let q := p + i
      let buf := buf.set q 0
      if matchre pattern (cString (buf.drop p)) then
        let buf := buf.set q newline
        let r := scan pattern fuel buf (q + 1)
        { r with out := (buf.drop p).take (q + 1 - p) ++ r.out }
      else scan pattern fuel buf (q + 1)

/-- The body of the outer loop, after `read` has put `piece` into the buffer: the buffer, `m` and
what has been written. -/
def turn (pattern piece buf : List UInt8) (m : ℕ) : List UInt8 × ℕ × List UInt8 :=
  let buf := buf.take m ++ piece ++ buf.drop (m + piece.length)
  let m := m + piece.length
  let buf := buf.set m 0
  let r := scan pattern bufSize buf 0
  let m := if r.p = 0 then 0 else m
  if 0 < m then
    -- memmove(buf, p, m)
    let m := m - r.p
    ((r.buf.drop r.p).take m ++ r.buf.drop m, m, r.out)
  else (r.buf, m, r.out)

/-- The outer loop.  It is `none` if `read` does not return these pieces: an empty one would be the
end, and none is longer than what is asked for. -/
def grepLoop (pattern : List UInt8) : List (List UInt8) → List UInt8 → ℕ → Option (List UInt8)
  | [], _, _ => some []
  | piece :: pieces, buf, m =>
    if piece = [] ∨ bufSize - m - 1 < piece.length then none
    else
      let r := turn pattern piece buf m
      (grepLoop pattern pieces r.1 r.2.1).map (r.2.2 ++ ·)

/-- `grep`; `buf` is what an earlier call has left in the buffer. -/
def grep (pattern : List UInt8) (buf : List UInt8) (pieces : List (List UInt8)) :
    Option (List UInt8) :=
  grepLoop pattern pieces buf 0

/-! ### Lines -/

/-- The lines, each with a newline. -/
def unlines (ls : List (List UInt8)) : List UInt8 := ls.flatMap (· ++ [newline])

/-- What `grep` is meant to write. -/
def output (pattern : List UInt8) (ls : List (List UInt8)) : List UInt8 :=
  unlines (ls.filter (matchre pattern))

/-- No newline and no NUL. -/
def Plain (l : List UInt8) : Prop := newline ∉ l ∧ 0 ∉ l

variable {pattern t x l r s post : List UInt8} {ls ls' pieces : List (List UInt8)}

@[simp] theorem unlines_nil : unlines [] = [] := rfl

@[simp] theorem unlines_cons : unlines (l :: ls) = l ++ newline :: unlines ls := by simp [unlines]

theorem output_cons : output pattern (l :: ls) =
    (if matchre pattern l then l ++ [newline] else []) ++ output pattern ls := by
  unfold output
  rw [filter_cons]
  split_ifs <;> simp

theorem matchre_nil : matchre [] l = true := by
  cases l <;> simp [matchre, matchany, matchhere]

theorem output_nil : output [] ls = unlines ls := by
  unfold output
  rw [filter_eq_self.2 fun l _ => matchre_nil]

theorem exists_unlines (s : List UInt8) : ∃ ls r, s = unlines ls ++ r ∧ newline ∉ r ∧
    ∀ l ∈ ls, newline ∉ l := by
  induction s with
  | nil => exact ⟨[], [], rfl, by simp, by simp⟩
  | cons b s ih =>
    obtain ⟨ls, r, rfl, hr, hls⟩ := ih
    by_cases hb : b = newline
    · exact ⟨[] :: ls, r, by simp [hb], hr, by simpa using hls⟩
    cases ls with
    | nil => exact ⟨[], b :: r, rfl, by simpa [Ne.symm hb] using hr, by simp⟩
    | cons l ls =>
      refine ⟨(b :: l) :: ls, r, by simp, hr, ?_⟩
      simpa [Ne.symm hb] using hls

theorem append_newline_inj {l' s' : List UInt8} (hl : newline ∉ l) (hl' : newline ∉ l')
    (he : l ++ newline :: s = l' ++ newline :: s') : l = l' ∧ s = s' := by
  induction l generalizing l' with
  | nil =>
    cases l' with
    | nil => exact ⟨rfl, (List.cons.inj he).2⟩
    | cons b l' => exact absurd (List.cons.inj he).1 fun hb => hl' (by simp [hb])
  | cons b l ih =>
    cases l' with
    | nil => exact absurd (List.cons.inj he).1 fun hb => hl (by simp [hb])
    | cons b' l' =>
      obtain ⟨rfl, he'⟩ := List.cons.inj he
      obtain ⟨rfl, rfl⟩ := ih (fun h => hl (by simp [h])) (fun h => hl' (by simp [h])) he'
      exact ⟨rfl, rfl⟩

theorem unlines_append_eq (hls : ∀ l ∈ ls, newline ∉ l) (hls' : ∀ l ∈ ls', newline ∉ l)
    (he : unlines ls ++ s = unlines ls') : ∃ ls'', ls' = ls ++ ls'' ∧ s = unlines ls'' := by
  induction ls generalizing ls' with
  | nil => exact ⟨ls', rfl, he⟩
  | cons l ls ih =>
    cases ls' with
    | nil => simp at he
    | cons l' ls' =>
    simp only [unlines_cons, append_assoc, cons_append] at he
    obtain ⟨rfl, he'⟩ := append_newline_inj (hls l (by simp)) (hls' l' (by simp)) he
    obtain ⟨ls'', rfl, hs⟩ :=
      ih (fun l hl => hls l (by simp [hl])) (fun l hl => hls' l (by simp [hl])) he'
    exact ⟨ls'', rfl, hs⟩

theorem mem_unlines (hr : newline ∉ r) : newline ∈ unlines ls ++ r ↔ ls ≠ [] := by
  cases ls with
  | nil => simpa using hr
  | cons l ls => simp

/-! ### One turn -/

theorem strchr_newline (hl : Plain l) : strchr newline (l ++ newline :: s) = some l.length := by
  induction l with
  | nil => rfl
  | cons b l ih =>
    obtain ⟨h1, h2⟩ := hl
    simp only [mem_cons, not_or] at h1 h2
    simp [strchr, Ne.symm h1.1, Ne.symm h2.1, ih ⟨h1.2, h2.2⟩]

theorem strchr_none (hl : Plain l) : strchr newline (l ++ 0 :: s) = none := by
  induction l with
  | nil => simp [strchr]
  | cons b l ih =>
    obtain ⟨h1, h2⟩ := hl
    simp only [mem_cons, not_or] at h1 h2
    simp [strchr, Ne.symm h1.1, Ne.symm h2.1, ih ⟨h1.2, h2.2⟩]

theorem cString_eq (hl : Plain l) : cString (l ++ 0 :: s) = l := by
  unfold cString
  rw [takeWhile_append_of_pos fun b hb => decide_eq_true (p := b ≠ 0) fun h0 => hl.2 (h0 ▸ hb)]
  simp

/-- The inner loop, with the lines `ls` and the rest `r` to come. -/
theorem scan_spec (pattern post : List UInt8) {fuel : ℕ} (hls : ∀ l ∈ ls, Plain l) (hr : Plain r)
    (hf : ls.length ≤ fuel) (pre : List UInt8) :
    ∃ pre', pre'.length = pre.length + (unlines ls).length ∧
      scan pattern fuel (pre ++ (unlines ls ++ (r ++ 0 :: post))) pre.length =
        ⟨pre' ++ (r ++ 0 :: post), pre'.length, output pattern ls⟩ := by
  induction ls generalizing fuel pre with
  | nil =>
    refine ⟨pre, rfl, ?_⟩
    cases fuel with
    | zero => rfl
    | succ fuel => simp [scan, strchr_none hr, output]
  | cons l ls ih =>
    obtain ⟨n, rfl⟩ : ∃ n, fuel = n + 1 := ⟨fuel - 1, by simp only [length_cons] at hf; omega⟩
    have hl := hls l (by simp)
    have hn : ls.length ≤ n := by simpa using hf
    have ih := ih (fun l hl => hls l (by simp [hl])) hn
    -- What is in the place of the newline afterwards does not matter.
    have hnext : ∀ b : UInt8, ∃ pre', pre'.length = pre.length + (unlines (l :: ls)).length ∧
        scan pattern n (pre ++ (l ++ b :: (unlines ls ++ (r ++ 0 :: post))))
        (pre.length + l.length + 1) =
          ⟨pre' ++ (r ++ 0 :: post), pre'.length, output pattern ls⟩ := fun b => by
      obtain ⟨pre', hlen, hscan⟩ := ih (pre ++ l ++ [b])
      refine ⟨pre', by simp [hlen]; omega, ?_⟩
      rw [← hscan]
      simp [add_assoc]
    have hset : ∀ b c : UInt8, (pre ++ (l ++ b :: (unlines ls ++ (r ++ 0 :: post)))).set
      (pre.length + l.length) c =
        pre ++ (l ++ c :: (unlines ls ++ (r ++ 0 :: post))) := fun b c => by simp
    rw [unlines_cons, output_cons]
    simp only [append_assoc, cons_append, scan, drop_left, strchr_newline hl, hset, cString_eq hl]
    split_ifs
    · obtain ⟨pre', hlen, hscan⟩ := hnext newline
      refine ⟨pre', by simpa using hlen, ?_⟩
      have htake : ∀ s, (l ++ newline :: s).take (pre.length + l.length + 1 - pre.length) =
          l ++ [newline] := fun s => by
        rw [show pre.length + l.length + 1 - pre.length = (l ++ [newline]).length by simp; omega,
          append_cons l newline s, take_left]
      rw [hscan, htake]
    · obtain ⟨pre', hlen, hscan⟩ := hnext 0
      exact ⟨pre', by simpa using hlen, hscan⟩

/-- One turn of the outer loop, on a buffer that begins with the rest `t` of the text before. -/
theorem turn_spec (pattern : List UInt8) (hls : ∀ l ∈ ls, Plain l) (hr : Plain r)
    (he : t ++ x = unlines ls ++ r) (hx : t.length + x.length < bufSize)
    (hbuf : (t ++ post).length = bufSize) :
    ∃ post', ((if ls = [] then [] else r) ++ post').length = bufSize ∧
    turn pattern x (t ++ post) t.length =
      ((if ls = [] then [] else r) ++ post', (if ls = [] then [] else r).length,
        output pattern ls) := by
  rw [length_append] at hbuf
  have hdrop : ∃ b post'', (t ++ post).drop (t.length + x.length) = b :: post'' := by
    refine exists_cons_of_ne_nil fun hnil => ?_
    have := congrArg List.length hnil
    simp only [length_drop, length_append, length_nil] at this
    omega
  obtain ⟨b, post', hpost⟩ := hdrop
  have hlen : t.length + x.length + post'.length + 1 = bufSize := by
    have := congrArg List.length hpost
    simp only [length_drop, length_append, length_cons] at this
    omega
  have hset : ((t ++ post).take t.length ++ x ++ (t ++ post).drop (t.length + x.length)).set
    (t.length + x.length) 0 = [] ++ (unlines ls ++ (r ++ 0 :: post')) := by
    rw [hpost, take_left, he, ← length_append, he]
    simp
  have hfuel : ls.length ≤ bufSize := by
    have hle : ls.length ≤ (unlines ls).length := by
      clear * -
      induction ls with
      | nil => simp
      | cons l ls ih => simp; omega
    have := congrArg List.length he
    simp only [length_append] at this
    omega
  obtain ⟨pre, hpre, hscan⟩ := scan_spec pattern post' hls hr hfuel []
  rw [length_nil, zero_add] at hpre
  have htotal := congrArg List.length he
  simp only [length_append] at htotal
  unfold turn
  simp only [hset]
  rw [show ([] : List UInt8).length = 0 from rfl] at hscan
  rw [hscan]
  dsimp only
  cases ls with
  | nil =>
    obtain rfl : pre = [] := length_eq_zero_iff.1 hpre
    refine ⟨r ++ 0 :: post', ?_, by simp⟩
    simp only [unlines_nil, length_nil] at htotal
    simp
    omega
  | cons l ls =>
  have hpos : pre.length ≠ 0 := by simp [hpre]
  have hm : 0 < t.length + x.length := by
    rw [htotal, ← hpre]
    omega
  have hsub : t.length + x.length - pre.length = r.length := by omega
  simp only [hpos, if_false, hm, if_true, hsub, drop_left, take_left, reduceCtorEq]
  refine ⟨_, ?_, rfl⟩
  simp
  omega

theorem exists_plain (h0 : 0 ∉ s) : ∃ ls r, s = unlines ls ++ r ∧ Plain r ∧ ∀ l ∈ ls, Plain l := by
  obtain ⟨ls, r, rfl, hr, hls⟩ := exists_unlines s
  refine ⟨ls, r, rfl, ⟨hr, fun h => h0 (by simp [h])⟩, fun l hl => ⟨hls l hl, fun h => h0 ?_⟩⟩
  exact mem_append_left _ (mem_flatMap.2 ⟨l, hl, by simp [h]⟩)

theorem zero_notMem_unlines (hls : ∀ l ∈ ls, Plain l) : 0 ∉ unlines ls := by
  intro h
  obtain ⟨l, hl, hb⟩ := mem_flatMap.1 h
  rcases mem_append.1 hb with hb | hb
  · exact (hls l hl).2 hb
  · exact absurd (mem_singleton.1 hb) (by decide)

/-! ### The whole input -/

theorem grepLoop_isSome {buf : List UInt8} {m : ℕ}
    (h : (grepLoop pattern (x :: pieces) buf m).isSome) :
    x ≠ [] ∧ m + x.length < bufSize ∧
      (grepLoop pattern pieces (turn pattern x buf m).1 (turn pattern x buf m).2.1).isSome := by
  rw [grepLoop] at h
  split_ifs at h with hx
  · cases h
  · have hpos := length_pos_iff.2 fun h0 => hx (.inl h0)
    exact ⟨fun h0 => hx (.inl h0), by omega, by simpa using h⟩

theorem grepLoop_cons {buf : List UInt8} {m : ℕ} (hx : x ≠ []) (hm : m + x.length < bufSize) :
    grepLoop pattern (x :: pieces) buf m =
      (grepLoop pattern pieces (turn pattern x buf m).1 (turn pattern x buf m).2.1).map
        ((turn pattern x buf m).2.2 ++ ·) := by
  rw [grepLoop, if_neg (by simp only [hx, false_or]; omega)]

/-- **If every piece has a newline**, the lines come out right; `read` does not know the pattern. -/
theorem grepLoop_spec (ht : Plain t) (hls : ∀ l ∈ ls, Plain l)
    (he : t ++ pieces.flatten = unlines ls) (hline : ∀ x ∈ pieces, newline ∈ x)
    (hbuf : (t ++ post).length = bufSize)
    (hreads : (grepLoop [] pieces (t ++ post) t.length).isSome) {post' : List UInt8}
    (hbuf' : (t ++ post').length = bufSize) :
    grepLoop pattern pieces (t ++ post') t.length = some (output pattern ls) := by
  induction pieces generalizing t ls post post' with
  | nil =>
    obtain rfl : ls = [] := by
      by_contra hne
      rw [flatten_nil, append_nil] at he
      refine ht.1 (he ▸ ?_)
      simpa using (mem_unlines (r := []) (by simp)).2 hne
    rfl
  | cons x pieces ih =>
    obtain ⟨hx, hm, hreads⟩ := grepLoop_isSome hreads
    rw [flatten_cons, ← append_assoc] at he
    have h0 : 0 ∉ t ++ x := fun h => zero_notMem_unlines hls (he ▸ mem_append_left _ h)
    obtain ⟨ls₁, r, htx, hr, hls1⟩ := exists_plain h0
    rw [htx, append_assoc] at he
    obtain ⟨ls₂, rfl, hrest⟩ := unlines_append_eq (fun l hl => (hls1 l hl).1)
      (fun l hl => (hls l hl).1) he
    -- The piece has a newline, so there is a line.
    have hne : ls₁ ≠ [] := (mem_unlines hr.1).1 (htx ▸ mem_append_right _ (hline x (by simp)))
    obtain ⟨p₁, hp1, hturn1⟩ := turn_spec [] hls1 hr htx hm hbuf
    obtain ⟨p₂, hp2, hturn2⟩ := turn_spec pattern hls1 hr htx hm hbuf'
    rw [if_neg hne] at hp1 hturn1 hp2 hturn2
    rw [hturn1] at hreads
    rw [grepLoop_cons hx hm, hturn2]
    dsimp only
    rw [ih hr (fun l hl => hls l (by simp [hl])) hrest (fun y hy => hline y (by simp [hy])) hp1
      hreads hp2]
    simp [output, unlines]

/-- **A piece without a newline is lost**, also if the pattern matches every line. -/
theorem grepLoop_length {out : List UInt8} (h0 : 0 ∉ t ++ pieces.flatten) (ht : newline ∉ t)
    (hbuf : (t ++ post).length = bufSize)
    (hout : grepLoop [] pieces (t ++ post) t.length = some out) :
    out.length ≤ t.length + pieces.flatten.length ∧
      ((∃ x ∈ pieces, newline ∉ x) → out.length < t.length + pieces.flatten.length) := by
  induction pieces generalizing t post out with
  | nil =>
    obtain rfl : [] = out := Option.some.inj hout
    simp
  | cons x pieces ih =>
    have hsome : (grepLoop [] (x :: pieces) (t ++ post) t.length).isSome :=
      Option.isSome_of_mem hout
    obtain ⟨hx, hm, -⟩ := grepLoop_isSome hsome
    rw [flatten_cons, ← append_assoc] at h0
    have htx0 : 0 ∉ t ++ x := fun h => h0 (mem_append_left _ h)
    have hp0 : 0 ∉ pieces.flatten := fun h => h0 (mem_append_right _ h)
    obtain ⟨ls, r, htx, hr, hls⟩ := exists_plain htx0
    obtain ⟨p, hp, hturn⟩ := turn_spec [] hls hr htx hm hbuf
    rw [grepLoop_cons hx hm, hturn, output_nil, Option.map_eq_some_iff] at hout
    obtain ⟨out', hout', rfl⟩ := hout
    dsimp only at hout'
    have hpos := length_pos_iff.2 hx
    have hlen := congrArg List.length htx
    simp only [length_append] at hlen
    simp only [length_append, flatten_cons]
    by_cases hnil : ls = []
    · subst hnil
      rw [if_pos rfl] at hp hout'
      have := (ih (by simpa using hp0) (by simp) hp hout').1
      simp only [length_nil, unlines_nil] at this ⊢
      omega
    rw [if_neg hnil] at hp hout'
    have hr0 : 0 ∉ r ++ pieces.flatten := by
      rw [mem_append]
      exact not_or_intro hr.2 hp0
    obtain ⟨hle, hlt⟩ := ih hr0 hr.1 hp hout'
    refine ⟨by omega, ?_⟩
    rintro ⟨y, hy, hyn⟩
    rcases mem_cons.1 hy with rfl | hy
    · have : newline ∈ unlines ls ++ r := (mem_unlines hr.1).2 hnil
      rw [← htx, mem_append] at this
      exact absurd this (not_or_intro ht hyn)
    · have := hlt ⟨y, hy, hyn⟩
      omega

/-- **`grep` and the pieces of its input**: for pieces that `read` returns of an input of lines,
every pattern gets the lines that it matches iff every piece has a newline. -/
theorem grep_iff {buf : List UInt8} (hbuf : buf.length = bufSize)
    (hls : ∀ l ∈ ls, newline ∉ l ∧ 0 ∉ l) (hin : pieces.flatten = unlines ls)
    (hreads : (grep [] buf pieces).isSome) :
    (∀ pattern, grep pattern buf pieces = some (output pattern ls)) ↔
    ∀ x ∈ pieces, newline ∈ x := by
  constructor
  · intro h
    by_contra hno
    push Not at hno
    have hbuf' : (([] : List UInt8) ++ buf).length = bufSize := hbuf
    have hlen :=
      (grepLoop_length (by simpa [hin] using zero_notMem_unlines hls) (by simp) hbuf' (h [])).2 hno
    rw [output_nil, ← hin] at hlen
    simp at hlen
  · intro hline pattern
    have hbuf' : (([] : List UInt8) ++ buf).length = bufSize := hbuf
    exact grepLoop_spec ⟨by simp, by simp⟩ hls hin hline hbuf' hreads hbuf'

theorem grep_iff_two :
    grep [98] (List.replicate bufSize 0) [[97, newline, 98], [98, newline]] =
    some [98, 98, newline] :=
  have hls : ∀ l ∈ ([[97], [98, 98]] : List (List UInt8)), newline ∉ l ∧ 0 ∉ l := by decide
  ((grep_iff length_replicate hls (by decide) (by decide +kernel)).2 (by decide) [98]).trans
    (by decide)

/-- **Half a line is lost**: `ab` comes in as `a` and `b`. -/
theorem grep_loses : grep [] (List.replicate bufSize 0) [[97], [98, newline]] = some [98, newline] ∧
    output [] [[97, 98]] = [97, 98, newline] := by decide +kernel

end Grep

end Xv6
