import Mathlib.Data.List.Basic

/-! # Texts cut at a separator

A text over any alphabet is its terminated lines followed by one open remainder.
Cutting and joining are inverse to each other on lines free of the separator, so
equal texts have equal lines.
-/

namespace Library.Lines

variable {α : Type*} [DecidableEq α]

/-- The lines that end in `sep`, and what follows the last of them. -/
def cut (sep : α) : List α → List (List α) × List α
  | [] => ([], [])
  | a :: text =>
    let (lines, rest) := cut sep text
    if a = sep then ([] :: lines, rest)
    else match lines with
      | [] => ([], a :: rest)
      | line :: lines => ((a :: line) :: lines, rest)

def join (sep : α) (lines : List (List α)) : List α :=
  lines.flatMap (· ++ [sep])

omit [DecidableEq α] in
@[simp] theorem join_nil (sep : α) : join sep [] = [] := rfl

omit [DecidableEq α] in
@[simp] theorem join_cons (sep : α) (line : List α) (lines : List (List α)) :
    join sep (line :: lines) = line ++ sep :: join sep lines := by
  simp [join]

omit [DecidableEq α] in
@[simp] theorem join_append (sep : α) (lines more : List (List α)) :
    join sep (lines ++ more) = join sep lines ++ join sep more := by
  simp [join]

theorem cut_sep (sep : α) (text : List α) :
    cut sep (sep :: text) = ([] :: (cut sep text).1, (cut sep text).2) := by
  simp [cut]

theorem cut_open (sep : α) {text : List α} (h : sep ∉ text) : cut sep text = ([], text) := by
  induction text with
  | nil => rfl
  | cons a text ih =>
    have ha : a ≠ sep := fun he => h (he ▸ List.mem_cons_self)
    rw [cut, ih (fun hm => h (List.mem_cons_of_mem _ hm))]
    simp only [ha, if_false]

theorem cut_line (sep : α) {line : List α} (h : sep ∉ line) (text : List α) :
    cut sep (line ++ sep :: text) = (line :: (cut sep text).1, (cut sep text).2) := by
  induction line with
  | nil => exact cut_sep sep text
  | cons a line ih =>
    have ha : a ≠ sep := fun he => h (he ▸ List.mem_cons_self)
    rw [List.cons_append, cut, ih (fun hm => h (List.mem_cons_of_mem _ hm))]
    simp only [ha, if_false]

theorem cut_join_append (sep : α) {lines : List (List α)} (h : ∀ line ∈ lines, sep ∉ line)
    (text : List α) :
    cut sep (join sep lines ++ text) = (lines ++ (cut sep text).1, (cut sep text).2) := by
  induction lines with
  | nil => rfl
  | cons line lines ih =>
    rw [join_cons, List.append_assoc, List.cons_append, cut_line sep (h line List.mem_cons_self),
      ih (fun l hl => h l (List.mem_cons_of_mem _ hl))]
    rfl

theorem cut_join (sep : α) {lines : List (List α)} {rest : List α}
    (h : ∀ line ∈ lines, sep ∉ line) (hRest : sep ∉ rest) :
    cut sep (join sep lines ++ rest) = (lines, rest) := by
  rw [cut_join_append sep h, cut_open sep hRest, List.append_nil]

theorem sep_not_mem_cut (sep : α) (text : List α) :
    (∀ line ∈ (cut sep text).1, sep ∉ line) ∧ sep ∉ (cut sep text).2 := by
  induction text with
  | nil => simp [cut]
  | cons a text ih =>
    rcases hCut : cut sep text with ⟨lines, rest⟩
    rw [hCut] at ih
    rw [cut, hCut]
    by_cases ha : a = sep
    · simpa [ha] using ih
    · have ha' : sep ≠ a := fun he => ha he.symm
      cases lines with
      | nil => simpa [ha, ha'] using ih
      | cons line lines => simpa [ha, ha'] using ih

theorem join_cut (sep : α) (text : List α) :
    join sep (cut sep text).1 ++ (cut sep text).2 = text := by
  induction text with
  | nil => rfl
  | cons a text ih =>
    rcases hCut : cut sep text with ⟨lines, rest⟩
    rw [hCut] at ih
    rw [cut, hCut]
    by_cases ha : a = sep
    · simpa [ha] using ih
    · cases lines with
      | nil => simpa [ha] using ih
      | cons line lines => simpa [ha] using ih

/-- A text that comes in two pieces is cut piece by piece. -/
theorem cut_append (sep : α) (text more : List α) :
    cut sep (text ++ more) =
      ((cut sep text).1 ++ (cut sep ((cut sep text).2 ++ more)).1, (cut sep ((cut sep text).2 ++ more)).2) := by
  conv => lhs; rw [← join_cut sep text, List.append_assoc]
  exact cut_join_append sep (sep_not_mem_cut sep text).1 _

theorem join_inj (sep : α) {lines more : List (List α)}
    (h : ∀ line ∈ lines, sep ∉ line) (h' : ∀ line ∈ more, sep ∉ line)
    (hJoin : join sep lines = join sep more) : lines = more := by
  have hl := cut_join sep h (List.not_mem_nil : sep ∉ ([] : List α))
  have hm := cut_join sep h' (List.not_mem_nil : sep ∉ ([] : List α))
  rw [hJoin, hm] at hl
  exact (Prod.mk.inj hl).1.symm

end Library.Lines
