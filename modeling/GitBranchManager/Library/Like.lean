import Mathlib.Data.List.Infix

/-! # Matching with `LIKE`

A pattern's percent sign stands for any row of characters and its underscore for any one character;
a character after the escape character stands for itself. ASCII letters match in either case.
-/

namespace Library.Like

inductive Item
  | anyRow
  | anyOne
  | letter (c : Char)
  deriving DecidableEq, Repr

/-- The pattern read into items; one that ends in the escape character matches nothing. -/
def parse (escape : Char) : List Char → Option (List Item)
  | [] => some []
  | c :: rest =>
    if c = escape then
      match rest with
      | [] => none
      | literal :: rest => (parse escape rest).map (Item.letter literal :: ·)
    else
      (parse escape rest).map
        ((if c = '%' then Item.anyRow else if c = '_' then Item.anyOne else Item.letter c) :: ·)

def sameLetter (c d : Char) : Bool := c.toLower = d.toLower

def matchItems : List Item → List Char → Bool
  | [], text => text.isEmpty
  | .anyRow :: items, text => text.tails.any (matchItems items)
  | .anyOne :: _, [] => false
  | .anyOne :: items, _ :: text => matchItems items text
  | .letter _ :: _, [] => false
  | .letter c :: items, d :: text => sameLetter c d && matchItems items text

def like (escape : Char) (pattern text : List Char) : Bool :=
  ((parse escape pattern).map fun items => matchItems items text).getD false

/-- The characters put so that the pattern matches them alone. -/
def quote (escape : Char) (text : List Char) : List Char :=
  text.flatMap fun c => if c = '%' ∨ c = '_' ∨ c = escape then [escape, c] else [c]

/-- `pre` begins the text when the case of ASCII letters is left out. -/
def BeginsWith (pre text : List Char) : Prop := pre.map Char.toLower <+: text.map Char.toLower

instance (pre text : List Char) : Decidable (BeginsWith pre text) :=
  inferInstanceAs (Decidable (_ <+: _))

theorem parse_escaped (escape literal : Char) (rest : List Char) :
    parse escape (escape :: literal :: rest) = (parse escape rest).map (Item.letter literal :: ·) := by
  simp [parse]

theorem parse_plain {escape c : Char} (hPlain : c ≠ escape) (rest : List Char) :
    parse escape (c :: rest) = (parse escape rest).map
      ((if c = '%' then Item.anyRow else if c = '_' then Item.anyOne else Item.letter c) :: ·) := by
  cases rest with
  | nil => simp [parse, hPlain]
  | cons d rest => simp [parse, hPlain]

theorem parse_quote (escape : Char) (text rest : List Char) :
    parse escape (quote escape text ++ rest) = (parse escape rest).map (text.map Item.letter ++ ·) := by
  induction text with
  | nil => simp [quote]
  | cons c text ih =>
    have hQuote : quote escape (c :: text) ++ rest =
        (if c = '%' ∨ c = '_' ∨ c = escape then [escape, c] else [c]) ++ (quote escape text ++ rest) := by
      rw [quote, List.flatMap_cons, List.append_assoc]
      rfl
    rw [hQuote]
    by_cases hSpecial : c = '%' ∨ c = '_' ∨ c = escape
    · rw [if_pos hSpecial, List.cons_append, List.cons_append, List.nil_append, parse_escaped, ih, Option.map_map]
      rfl
    · obtain ⟨hPercent, hOther⟩ := not_or.mp hSpecial
      obtain ⟨hUnderscore, hPlain⟩ := not_or.mp hOther
      rw [if_neg hSpecial, List.cons_append, List.nil_append, parse_plain hPlain, if_neg hPercent,
        if_neg hUnderscore, ih, Option.map_map]
      rfl

theorem matchItems_anyRow (text : List Char) : matchItems [.anyRow] text = true := by
  rw [matchItems, List.any_eq_true]
  exact ⟨[], (List.mem_tails [] text).mpr List.nil_suffix, rfl⟩

theorem matchItems_letters (pre text : List Char) :
    matchItems (pre.map Item.letter ++ [.anyRow]) text = true ↔ BeginsWith pre text := by
  induction pre generalizing text with
  | nil => exact iff_of_true (matchItems_anyRow text) List.nil_prefix
  | cons c pre ih =>
    cases text with
    | nil =>
      refine iff_of_false (by simp [matchItems]) fun hBegins => ?_
      exact absurd (List.prefix_nil.mp hBegins) (by simp)
    | cons d text =>
      rw [List.map_cons, List.cons_append, matchItems, Bool.and_eq_true, ih, sameLetter, decide_eq_true_eq]
      exact List.cons_prefix_cons.symm

/-- A quoted text with a percent sign after it matches what it begins. -/
theorem like_quote {escape : Char} (hEscape : escape ≠ '%') (pre text : List Char) :
    like escape (quote escape pre ++ ['%']) text = true ↔ BeginsWith pre text := by
  have hRest : parse escape ['%'] = some [.anyRow] := by
    rw [parse_plain hEscape.symm]
    rfl
  rw [like, parse_quote escape, hRest]
  exact matchItems_letters pre text

end Library.Like
