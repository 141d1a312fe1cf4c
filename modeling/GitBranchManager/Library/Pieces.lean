import GitBranchManager.Library.Lines
import Mathlib.Data.List.Infix

/-! # Texts in pieces

A separator splits a text into one piece more than it occurs. What the first and the last piece
begin and end with, and which of the pieces are empty, is seen on the text as a whole.
-/

namespace Library.Pieces

variable {α : Type*} [DecidableEq α]

theorem exists_splitOn (sep : α) (text : List α) : ∃ first more, text.splitOn sep = first :: more :=
  List.exists_cons_of_ne_nil (List.splitOn_ne_nil sep text)

theorem splitOn_sep (sep : α) (text : List α) : (sep :: text).splitOn sep = [] :: text.splitOn sep := by
  rw [List.splitOn_cons_eq_if_modifyHead, if_pos (beq_self_eq_true sep)]

theorem splitOn_cons {sep a : α} (h : a ≠ sep) (text : List α) :
    (a :: text).splitOn sep = (text.splitOn sep).modifyHead (a :: ·) := by
  rw [List.splitOn_cons_eq_if_modifyHead, if_neg]
  rwa [beq_iff_eq]

theorem first_eq {sep : α} {text first : List α} {more : List (List α)}
    (hPieces : text.splitOn sep = first :: more) : first = text.takeWhile (· != sep) := by
  induction text generalizing first more with
  | nil => exact (List.cons.inj hPieces).1.symm
  | cons b text ih =>
    by_cases hb : b = sep
    · rw [hb, splitOn_sep] at hPieces
      rw [List.takeWhile_cons_of_neg (by simp [hb])]
      exact (List.cons.inj hPieces).1.symm
    · obtain ⟨front, later, hText⟩ := exists_splitOn sep text
      rw [splitOn_cons hb, hText, List.modifyHead_cons] at hPieces
      rw [List.takeWhile_cons_of_pos (by simp [hb]), ← ih hText]
      exact (List.cons.inj hPieces).1.symm

theorem prefix_first_iff {sep a : α} (h : a ≠ sep) {text first : List α} {more : List (List α)}
    (hPieces : text.splitOn sep = first :: more) : [a] <+: first ↔ [a] <+: text := by
  rw [first_eq hPieces]
  cases text with
  | nil => rfl
  | cons b text =>
    by_cases hb : b = sep
    · simp [hb, h, List.cons_prefix_cons]
    · simp [hb, List.cons_prefix_cons]

/-- A separator between two pieces is not part of what a text ends with. -/
theorem suffix_last_iff {sep : α} {tail : List α} (h : sep ∉ tail) {text last : List α}
    (hLast : (text.splitOn sep).getLast? = some last) : tail <:+ last ↔ tail <:+ text := by
  induction text with
  | nil =>
    obtain rfl : [] = last := Option.some.inj hLast
    rfl
  | cons b text ih =>
    rw [List.suffix_cons_iff]
    obtain ⟨first, more, hText⟩ := exists_splitOn sep text
    by_cases hb : b = sep
    · rw [hb, splitOn_sep, hText, List.getLast?_cons_cons, ← hText] at hLast
      have hWhole : tail ≠ b :: text := by
        rintro rfl
        exact h (hb ▸ List.mem_cons_self)
      rw [ih hLast, or_iff_right hWhole]
    · rw [splitOn_cons hb, hText, List.modifyHead_cons] at hLast
      cases more with
      | nil =>
        obtain rfl : b :: first = last := Option.some.inj hLast
        have hOne : first = text := by
          have hJoin : [sep].intercalate (text.splitOn sep) = text := List.intercalate_splitOn sep
          rwa [hText, List.intercalate_singleton] at hJoin
        rw [hOne, List.suffix_cons_iff]
      | cons second more =>
        rw [List.getLast?_cons_cons, ← List.getLast?_cons_cons (a := first), ← hText] at hLast
        have hWhole : tail ≠ b :: text := by
          rintro rfl
          have hSingle := List.splitOn_eq_singleton (a := sep) fun hm => h (List.mem_cons_of_mem b hm)
          rw [hText] at hSingle
          cases hSingle
        rw [ih hLast, or_iff_right hWhole]

theorem first_eq_nil_iff {sep : α} {text first : List α} {more : List (List α)}
    (hPieces : text.splitOn sep = first :: more) : first = [] ↔ text = [] ∨ [sep] <+: text := by
  rw [first_eq hPieces]
  cases text with
  | nil => simp
  | cons b text =>
    by_cases hb : b = sep
    · simp [hb, List.cons_prefix_cons]
    · simp [hb, Ne.symm hb, List.cons_prefix_cons]

theorem later_ne_nil_iff {sep : α} {text : List α} :
    (∀ piece ∈ (text.splitOn sep).tail, piece ≠ []) ↔ ¬ [sep] <:+ text ∧ ¬ [sep, sep] <:+: text := by
  induction text with
  | nil => simp
  | cons b text ih =>
    obtain ⟨first, more, hText⟩ := exists_splitOn sep text
    have hFirst := first_eq_nil_iff hText
    rw [hText, List.tail_cons] at ih
    rw [List.suffix_cons_iff, List.infix_cons_iff]
    by_cases hb : b = sep
    · rw [hb, splitOn_sep, List.tail_cons, hText, List.forall_mem_cons, Ne, hFirst, ih]
      simp only [List.cons.injEq, true_and, List.cons_prefix_cons]
      tauto
    · rw [splitOn_cons hb, hText, List.modifyHead_cons, List.tail_cons, ih]
      simp [List.cons_prefix_cons, Ne.symm hb]

theorem pieces_ne_nil_iff {sep : α} {text : List α} :
    (∀ piece ∈ text.splitOn sep, piece ≠ []) ↔
      text ≠ [] ∧ ¬ [sep] <+: text ∧ ¬ [sep] <:+ text ∧ ¬ [sep, sep] <:+: text := by
  obtain ⟨first, more, hText⟩ := exists_splitOn sep text
  have hLater := @later_ne_nil_iff α _ sep text
  rw [hText, List.tail_cons] at hLater
  rw [hText, List.forall_mem_cons, Ne, first_eq_nil_iff hText, hLater]
  tauto

theorem mem_of_mem_piece {sep b : α} {text piece : List α} (hPiece : piece ∈ text.splitOn sep)
    (hMem : b ∈ piece) : b ∈ text ∧ b ≠ sep := by
  induction text generalizing piece with
  | nil =>
    obtain rfl := List.mem_singleton.mp hPiece
    cases hMem
  | cons a text ih =>
    by_cases ha : a = sep
    · rw [ha, splitOn_sep] at hPiece
      rcases List.mem_cons.mp hPiece with rfl | hLater
      · cases hMem
      · exact (ih hLater hMem).imp_left (List.mem_cons_of_mem a)
    · obtain ⟨first, more, hText⟩ := exists_splitOn sep text
      rw [splitOn_cons ha, hText, List.modifyHead_cons] at hPiece
      rcases List.mem_cons.mp hPiece with rfl | hLater
      · rcases List.mem_cons.mp hMem with rfl | hFirst
        · exact ⟨List.mem_cons_self, ha⟩
        · exact (ih (hText ▸ List.mem_cons_self) hFirst).imp_left (List.mem_cons_of_mem a)
      · exact (ih (hText ▸ List.mem_cons_of_mem first hLater) hMem).imp_left (List.mem_cons_of_mem a)

theorem pieces_eq_nil_iff {sep : α} {text : List α} :
    (∀ piece ∈ text.splitOn sep, piece = []) ↔ ∀ b ∈ text, b = sep := by
  induction text with
  | nil => simp
  | cons a text ih =>
    by_cases ha : a = sep
    · rw [ha, splitOn_sep, List.forall_mem_cons, List.forall_mem_cons, ih]
      simp
    · obtain ⟨first, more, hText⟩ := exists_splitOn sep text
      rw [splitOn_cons ha, hText, List.modifyHead_cons, List.forall_mem_cons, List.forall_mem_cons]
      simp [ha]

/-- What the terminated lines of a text leave open is its last piece. -/
theorem splitOn_eq_cut (sep : α) (text : List α) :
    text.splitOn sep = (Lines.cut sep text).1 ++ [(Lines.cut sep text).2] := by
  induction text with
  | nil => rfl
  | cons a text ih =>
    by_cases ha : a = sep
    · rw [ha, splitOn_sep, Lines.cut_sep, ih]
      rfl
    · rw [splitOn_cons ha, ih, Lines.cut]
      obtain ⟨lines, rest⟩ := Lines.cut sep text
      dsimp only
      rw [if_neg ha]
      cases lines <;> rfl

theorem splitOn_join {sep : α} {lines : List (List α)} {last : List α} (h : ∀ line ∈ lines, sep ∉ line)
    (hLast : sep ∉ last) : (Lines.join sep lines ++ last).splitOn sep = lines ++ [last] := by
  rw [splitOn_eq_cut, Lines.cut_join sep h hLast]

end Library.Pieces
