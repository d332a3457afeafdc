import Mathlib.Data.UInt
import Mathlib.Tactic.SplitIfs

/-!
# The regular expressions of `grep`

`match`, `matchhere` and `matchstar` of `grep.c`.  A string is the list of its bytes before the NUL,
so a byte that is read at the end of the list is the NUL; `true` stands for the result 1.
`matchhere` and `matchstar` call each other in the source; here `matchstar` is given `matchhere` for
the rest of the expression.

The meaning of an expression is independent of the matcher: it is read from left to right into items
(`items`), and `Matches` says which texts a list of items matches, and in front of what.

* `match_iff` : **the matcher finds what the expression means**.
-/

namespace Xv6

namespace Grep

/-- `'*'` -/
abbrev star : UInt8 := 42

/-- `'.'` -/
abbrev dot : UInt8 := 46

/-- `'$'` -/
abbrev dollar : UInt8 := 36

/-- `'^'` -/
abbrev caret : UInt8 := 94

/-- `matchstar`, where `here` is `matchhere` for the rest of the expression. -/
def matchstar (here : List UInt8 → Bool) (c : UInt8) : List UInt8 → Bool
  | [] => here []
  | t :: text => here (t :: text) || ((t == c || c == dot) && matchstar here c text)

/-- The last test of `matchhere`: one byte of the text, and then the rest of the expression. -/
def matchone (here : List UInt8 → Bool) (c : UInt8) : List UInt8 → Bool
  | [] => false
  | t :: text => (c == dot || c == t) && here text

/-- Search for an expression at the beginning of the text. -/
def matchhere : List UInt8 → List UInt8 → Bool
  | [] => fun _ => true
  | [c] => fun text => if c = dollar then text.isEmpty else matchone (fun _ => true) c text
  | c :: d :: re => fun text =>
    if d = star then matchstar (matchhere re) c text else matchone (matchhere (d :: re)) c text

/-- The loop of `match`: also look at the empty string at the end. -/
def matchany (re : List UInt8) : List UInt8 → Bool
  | [] => matchhere re []
  | t :: text => matchhere re (t :: text) || matchany re text

/-- `match` -/
def matchre (re text : List UInt8) : Bool :=
  match re with
  | [] => matchany re text
  | c :: re' => if c = caret then matchhere re' text else matchany re text

/-! ### What an expression means -/

/-- The parts of an expression. -/
inductive Item
  /-- Any number of bytes that are `c`, or of any bytes if `c` is `.` -/
  | star (c : UInt8)
  /-- The end of the text. -/
  | eol
  /-- Any byte. -/
  | any
  /-- This byte. -/
  | lit (c : UInt8)

/-- The item of a byte that is not followed by `*`. -/
def item (c : UInt8) : Item := if c = dot then .any else .lit c

/-- An expression, read from left to right. -/
def items : List UInt8 → List Item
  | [] => []
  | [c] => [if c = dollar then .eol else item c]
  | c :: d :: re => if d = star then .star c :: items re else item c :: items (d :: re)

/-- The items match `s`, when `rest` follows it in the text. -/
inductive Matches : List Item → (s rest : List UInt8) → Prop
  | nil {rest} : Matches [] [] rest
  | star {c is s s' rest} (h : ∀ b ∈ s, b = c ∨ c = dot) (h' : Matches is s' rest) :
    Matches (.star c :: is) (s ++ s') rest
  | eol {is} (h : Matches is [] []) : Matches (.eol :: is) [] []
  | any {is b s rest} (h : Matches is s rest) : Matches (.any :: is) (b :: s) rest
  | lit {is c s rest} (h : Matches is s rest) : Matches (.lit c :: is) (c :: s) rest

/-- The text begins with something that the items match. -/
def Begins (is : List Item) (text : List UInt8) : Prop :=
  ∃ s rest, text = s ++ rest ∧ Matches is s rest

/-- The text has a part that the expression matches; after `^` this part has to be at the
beginning. -/
def Found (re text : List UInt8) : Prop :=
  match re with
  | [] => ∃ pre text', text = pre ++ text' ∧ Begins (items re) text'
  | c :: re' =>
    if c = caret then Begins (items re') text else ∃ pre text', text = pre ++ text' ∧
      Begins (items re) text'

variable {c t : UInt8} {re text : List UInt8} {is : List Item} {here : List UInt8 → Bool}

theorem begins_nil : Begins [] text := ⟨[], text, rfl, .nil⟩

theorem begins_eol : Begins [.eol] text ↔ text = [] := by
  constructor
  · rintro ⟨s, rest, rfl, h⟩
    cases h
    rfl
  · rintro rfl
    exact ⟨[], [], rfl, .eol .nil⟩

theorem not_begins_item_nil : ¬ Begins (item c :: is) [] := by
  rintro ⟨s, rest, he, h⟩
  obtain ⟨rfl, rfl⟩ := List.append_eq_nil_iff.1 he.symm
  unfold item at h
  split_ifs at h <;> cases h

theorem begins_item_cons : Begins (item c :: is) (t :: text) ↔ (c = dot ∨ c = t) ∧
    Begins is text := by
  unfold item
  constructor
  · rintro ⟨s, rest, he, h⟩
    split_ifs at h with hc
    · cases h with
      | any h =>
        obtain ⟨-, rfl⟩ := List.cons.inj he
        exact ⟨.inl hc, _, rest, rfl, h⟩
    cases h with
    | lit h =>
      cases he
      exact ⟨.inr rfl, _, rest, rfl, h⟩
  · rintro ⟨hc, s, rest, rfl, h⟩
    refine ⟨t :: s, rest, rfl, ?_⟩
    split_ifs with hd
    · exact .any h
    · obtain rfl := hc.resolve_left hd
      exact .lit h

/-- A star matches nothing, or one byte and then the same again. -/
theorem begins_star_nil : Begins (.star c :: is) [] ↔ Begins is [] := by
  constructor
  · rintro ⟨s, rest, he, h⟩
    obtain ⟨rfl, rfl⟩ := List.append_eq_nil_iff.1 he.symm
    generalize hs : ([] : List UInt8) = s at h
    cases h with
    | star _ h' =>
      obtain ⟨rfl, rfl⟩ := List.append_eq_nil_iff.1 hs.symm
      exact ⟨[], [], rfl, h'⟩
  · rintro ⟨s, rest, he, h⟩
    exact ⟨[] ++ s, rest, he, .star (by simp) h⟩

theorem begins_star_cons :
    Begins (.star c :: is) (t :: text) ↔ Begins is (t :: text) ∨ (t = c ∨ c = dot) ∧
    Begins (.star c :: is) text := by
  constructor
  · rintro ⟨s, rest, he, h⟩
    cases h with
    | @star _ _ s s' _ hb h' =>
      cases s with
      | nil => exact .inl ⟨s', rest, he, h'⟩
      | cons b s =>
        cases he
        exact .inr ⟨hb t (by simp), s ++ s', rest, rfl, .star (fun b hx => hb b (by simp [hx])) h'⟩
  rintro (⟨s, rest, he, h⟩ | ⟨ht, s, rest, rfl, h⟩)
  · exact ⟨[] ++ s, rest, he, .star (by simp) h⟩
  cases h with
  | @star _ _ s s' _ hb h' =>
    refine ⟨(t :: s) ++ s', rest, rfl, .star (fun b hx => ?_) h'⟩
    rcases List.mem_cons.1 hx with rfl | hx
    · exact ht
    · exact hb b hx

/-! ### The matcher -/

theorem matchstar_iff (hhere : ∀ text, here text = true ↔ Begins is text) :
    matchstar here c text = true ↔ Begins (.star c :: is) text := by
  induction text with
  | nil => rw [matchstar, hhere, begins_star_nil]
  | cons t text ih =>
    rw [matchstar, begins_star_cons, ← ih, Bool.or_eq_true, hhere, Bool.and_eq_true,
      Bool.or_eq_true, beq_iff_eq, beq_iff_eq]

theorem matchone_iff (hhere : ∀ text, here text = true ↔ Begins is text) :
    matchone here c text = true ↔ Begins (item c :: is) text := by
  cases text with
  | nil => simp [matchone, not_begins_item_nil]
  | cons t text =>
    rw [matchone, begins_item_cons, Bool.and_eq_true, Bool.or_eq_true, beq_iff_eq,
      beq_iff_eq, hhere]

/-- Proved along the recursion of `matchhere`, which is that of `items`. -/
theorem matchhere_iff : matchhere re text = true ↔ Begins (items re) text := by
  induction re using items.induct generalizing text with
  | case1 => simp [matchhere, items, begins_nil]
  | case2 c =>
    simp only [matchhere, items]
    split_ifs with hc
    · rw [List.isEmpty_iff, begins_eol]
    · exact matchone_iff fun text => by simp [begins_nil]
  | case3 c re ih =>
    simp only [matchhere, items, if_true]
    exact matchstar_iff fun text => ih
  | case4 c d re hd ih =>
    simp only [matchhere, items, if_neg hd]
    exact matchone_iff fun text => ih

theorem matchany_iff : matchany re text = true ↔ ∃ pre text', text = pre ++ text' ∧
    Begins (items re) text' := by
  induction text with
  | nil =>
    rw [matchany, matchhere_iff]
    constructor
    · exact fun h => ⟨[], [], rfl, h⟩
    · rintro ⟨pre, text', he, h⟩
      obtain ⟨-, rfl⟩ := List.append_eq_nil_iff.1 he.symm
      exact h
  | cons t text ih =>
    rw [matchany, Bool.or_eq_true, matchhere_iff, ih]
    constructor
    · rintro (h | ⟨pre, text', rfl, h⟩)
      · exact ⟨[], t :: text, rfl, h⟩
      · exact ⟨t :: pre, text', rfl, h⟩
    rintro ⟨pre, text', he, h⟩
    cases pre with
    | nil =>
      obtain rfl : t :: text = text' := he
      exact .inl h
    | cons b pre =>
      obtain ⟨-, rfl⟩ := List.cons.inj he
      exact .inr ⟨pre, text', rfl, h⟩

/-- **The matcher is correct.** -/
theorem match_iff (re text : List UInt8) : matchre re text = true ↔ Found re text := by
  unfold matchre Found
  cases re with
  | nil => exact matchany_iff
  | cons c re =>
    dsimp only
    split_ifs
    · exact matchhere_iff
    · exact matchany_iff

-- `a**` is `a*` and a literal `*`; `^*` is a literal `*` at the beginning; `$*` is any number of
-- `$`.
example : matchre [97, star, star] [98] = false ∧ matchre [caret, star] [star] = true ∧
    matchre [caret, dollar, star, dollar] [dollar, dollar] = true := by decide

end Grep

end Xv6
