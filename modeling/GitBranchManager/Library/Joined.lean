import Mathlib.Data.List.Basic
import Mathlib.Data.List.Induction
import Mathlib.Data.List.Infix

/-! # Fields joined by a separator

A joined text determines its fields when at most one of them, in a known position, holds
the separator. A text without the separator occurs in it exactly when it occurs in a field.
-/

namespace Library.Joined

variable {α : Type*} {sep : α}

theorem join_cons (a : List α) {rest : List (List α)} (h : rest ≠ []) :
    [sep].intercalate (a :: rest) = a ++ sep :: [sep].intercalate rest := by
  cases rest with
  | nil => exact absurd rfl h
  | cons b rest => simp [List.intercalate]

theorem join_concat {rest : List (List α)} (h : rest ≠ []) (a : List α) :
    [sep].intercalate (rest ++ [a]) = [sep].intercalate rest ++ sep :: a := by
  induction rest with
  | nil => exact absurd rfl h
  | cons b rest ih =>
    cases rest with
    | nil => simp [List.intercalate]
    | cons c rest =>
      rw [List.cons_append, join_cons b (by simp), ih (by simp), join_cons b (by simp)]
      simp

/-- A joined text has no characters but those of its fields and the separator. -/
theorem mem_join {c : α} {fields : List (List α)} (h : c ∈ [sep].intercalate fields) :
    c = sep ∨ ∃ field ∈ fields, c ∈ field := by
  induction fields with
  | nil => cases h
  | cons a rest ih =>
    by_cases hRest : rest = []
    · rw [hRest, List.intercalate_singleton] at h
      exact Or.inr ⟨a, List.mem_cons_self, h⟩
    · rw [join_cons a hRest] at h
      obtain hFirst | hLater := List.mem_append.mp h
      · exact Or.inr ⟨a, List.mem_cons_self, hFirst⟩
      · obtain rfl | hTail := List.mem_cons.mp hLater
        · exact Or.inl rfl
        · obtain hSep | ⟨field, hField, hIn⟩ := ih hTail
          · exact Or.inl hSep
          · exact Or.inr ⟨field, List.mem_cons_of_mem a hField, hIn⟩

/-- Each field is part of the joined text. -/
theorem length_le_of_mem {fields : List (List α)} {field : List α} (h : field ∈ fields) :
    field.length ≤ ([sep].intercalate fields).length := by
  induction fields with
  | nil => cases h
  | cons a rest ih =>
    by_cases hRest : rest = []
    · subst hRest
      have hSame : field = [sep].intercalate [a] := by rw [List.mem_singleton.mp h, List.intercalate_singleton]
      exact Nat.le_of_eq (congrArg List.length hSame)
    · rw [join_cons a hRest, List.length_append, List.length_cons]
      obtain rfl | hLater := List.mem_cons.mp h
      · omega
      · have hLength := ih hLater
        omega

theorem count_le_length {fields : List (List α)} (h : ∀ field ∈ fields, field ≠ []) :
    fields.length ≤ ([sep].intercalate fields).length := by
  induction fields with
  | nil => exact Nat.le_refl 0
  | cons a rest ih =>
    obtain ⟨hField, hFields⟩ := List.forall_mem_cons.mp h
    have hPositive := List.length_pos_iff.mpr hField
    by_cases hRest : rest = []
    · subst hRest
      rw [List.intercalate_singleton, List.length_singleton]
      exact hPositive
    · rw [join_cons a hRest, List.length_append, List.length_cons, List.length_cons]
      have hLength := ih hFields
      omega

theorem infix_of_mem {name piece : List α} {pieces : List (List α)} (h : piece ∈ pieces) :
    piece <:+: name.intercalate pieces := by
  induction pieces with
  | nil => cases h
  | cons a rest ih =>
    by_cases hRest : rest = []
    · subst hRest
      rw [List.mem_singleton.mp h]
      exact ⟨[], [], by rw [List.intercalate_singleton, List.nil_append, List.append_nil]⟩
    · rw [List.intercalate_cons_of_ne_nil hRest]
      obtain rfl | hLater := List.mem_cons.mp h
      · exact List.infix_append_of_infix_left List.infix_append_left
      · exact List.infix_append_of_infix_right (ih hLater)

theorem map_join {β : Type*} (f : α → β) (name : List α) (pieces : List (List α)) :
    (name.intercalate pieces).map f = (name.map f).intercalate (pieces.map (List.map f)) := by
  induction pieces with
  | nil => rfl
  | cons a rest ih =>
    cases rest with
    | nil => simp
    | cons b rest =>
      rw [List.intercalate_cons_cons, List.map_append, List.map_append, ih, List.map_cons, List.map_cons,
        List.map_cons, List.intercalate_cons_cons]

/-- A text without the separator does not reach over one. -/
theorem infix_append_sep {needle : List α} (h : sep ∉ needle) (front back : List α) :
    needle <:+: front ++ sep :: back ↔ needle <:+: front ∨ needle <:+: back := by
  have hPrefix : ∀ {part : List α}, sep ∉ part → part <+: sep :: back → part = [] := by
    intro part hPart hStart
    obtain rfl | ⟨tail, rfl, -⟩ := List.prefix_cons_iff.mp hStart
    · rfl
    · exact absurd List.mem_cons_self hPart
  constructor
  · intro hInfix
    rcases List.infix_append_iff.mp hInfix with hFront | hBack | ⟨left, right, rfl, hLeft, hRight⟩
    · exact .inl hFront
    · rcases List.infix_cons_iff.mp hBack with hStart | hBack
      · obtain rfl := hPrefix h hStart
        exact .inl List.nil_infix
      · exact .inr hBack
    · have hNone := hPrefix (fun hMem => h (List.mem_append_right _ hMem)) hRight
      rw [hNone, List.append_nil]
      exact .inl hLeft.isInfix
  · rintro (hFront | hBack)
    · exact List.infix_append_of_infix_left hFront
    · exact List.infix_append_of_infix_right (List.infix_cons hBack)

theorem infix_join {needle : List α} (h : sep ∉ needle) {pieces : List (List α)} (hSome : pieces ≠ []) :
    needle <:+: [sep].intercalate pieces ↔ ∃ piece ∈ pieces, needle <:+: piece := by
  constructor
  · intro hInfix
    induction pieces with
    | nil => exact absurd rfl hSome
    | cons a rest ih =>
      by_cases hRest : rest = []
      · subst hRest
        rw [List.intercalate_singleton] at hInfix
        exact ⟨a, List.mem_singleton_self a, hInfix⟩
      · rw [join_cons a hRest, infix_append_sep h] at hInfix
        rcases hInfix with hHere | hLater
        · exact ⟨a, List.mem_cons_self, hHere⟩
        · obtain ⟨piece, hMem, hPiece⟩ := ih hRest hLater
          exact ⟨piece, List.mem_cons_of_mem _ hMem, hPiece⟩
  · rintro ⟨piece, hMem, hPiece⟩
    exact hPiece.trans (infix_of_mem hMem)

theorem split_first {a a' rest rest' : List α} (ha : sep ∉ a) (ha' : sep ∉ a')
    (h : a ++ sep :: rest = a' ++ sep :: rest') : a = a' ∧ rest = rest' := by
  induction a generalizing a' with
  | nil =>
    cases a' with
    | nil => exact ⟨rfl, (List.cons.inj h).2⟩
    | cons b a' => exact absurd ((List.cons.inj h).1 ▸ List.mem_cons_self) ha'
  | cons b a ih =>
    cases a' with
    | nil => exact absurd ((List.cons.inj h).1 ▸ List.mem_cons_self) ha
    | cons b' a' =>
      obtain ⟨hb, hRest⟩ := List.cons.inj h
      obtain ⟨hEq, hTail⟩ := ih (fun hm => ha (List.mem_cons_of_mem _ hm))
        (fun hm => ha' (List.mem_cons_of_mem _ hm)) hRest
      exact ⟨by rw [hb, hEq], hTail⟩

theorem split_last {a a' front front' : List α} (ha : sep ∉ a) (ha' : sep ∉ a')
    (h : front ++ sep :: a = front' ++ sep :: a') : front = front' ∧ a = a' := by
  have hReverse : a.reverse ++ sep :: front.reverse = a'.reverse ++ sep :: front'.reverse := by
    simpa using congrArg List.reverse h
  obtain ⟨hEq, hFront⟩ := split_first (by simpa using ha) (by simpa using ha') hReverse
  exact ⟨List.reverse_injective hFront, List.reverse_injective hEq⟩

/-- A part that may be absent, behind its separator, is recovered when the text before it is free of the separator. -/
theorem split_optional {a a' : List α} {part part' : Option (List α)} (ha : sep ∉ a) (ha' : sep ∉ a')
    (h : a ++ (part.map (sep :: ·)).getD [] = a' ++ (part'.map (sep :: ·)).getD []) : a = a' ∧ part = part' := by
  cases part with
  | none =>
    cases part' with
    | none => exact ⟨by simpa using h, rfl⟩
    | some text => exact absurd (by simp [show a = a' ++ sep :: text by simpa using h]) ha
  | some text =>
    cases part' with
    | none => exact absurd (by simp [show a' = a ++ sep :: text by simpa using h.symm]) ha'
    | some text' =>
      obtain ⟨hEq, hText⟩ := split_first ha ha' h
      exact ⟨hEq, congrArg some hText⟩

/-- Fields behind a free field are recovered from the joined text, -/
theorem fields_eq_after {post post' : List (List α)} {field field' : List α}
    (hPost : ∀ a ∈ post, sep ∉ a) (hPost' : ∀ a ∈ post', sep ∉ a) (hLen : post.length = post'.length)
    (h : [sep].intercalate (field :: post) = [sep].intercalate (field' :: post')) :
    field = field' ∧ post = post' := by
  induction post using List.reverseRecOn generalizing post' with
  | nil =>
    obtain rfl := List.length_eq_zero_iff.mp hLen.symm
    exact ⟨by simpa [List.intercalate] using h, rfl⟩
  | append_singleton post last ih =>
    rcases List.eq_nil_or_concat post' with rfl | ⟨post', last', rfl⟩
    · simp at hLen
    · rw [List.concat_eq_append] at hPost' hLen h ⊢
      rw [← List.cons_append, ← List.cons_append, join_concat (by simp), join_concat (by simp)] at h
      obtain ⟨hFront, rfl⟩ := split_last (hPost last (by simp)) (hPost' last' (by simp)) h
      obtain ⟨rfl, rfl⟩ := ih (fun a ha => hPost a (List.mem_append_left _ ha))
        (fun a ha => hPost' a (List.mem_append_left _ ha)) (by simpa using hLen) hFront
      exact ⟨rfl, rfl⟩

/-- and so are those in front of it. -/
theorem fields_eq {pre pre' post post' : List (List α)} {field field' : List α}
    (hPre : ∀ a ∈ pre, sep ∉ a) (hPre' : ∀ a ∈ pre', sep ∉ a) (hPost : ∀ a ∈ post, sep ∉ a)
    (hPost' : ∀ a ∈ post', sep ∉ a) (hPreLen : pre.length = pre'.length)
    (hPostLen : post.length = post'.length)
    (h : [sep].intercalate (pre ++ field :: post) = [sep].intercalate (pre' ++ field' :: post')) :
    pre = pre' ∧ field = field' ∧ post = post' := by
  induction pre generalizing pre' with
  | nil =>
    obtain rfl := List.length_eq_zero_iff.mp hPreLen.symm
    exact ⟨rfl, fields_eq_after hPost hPost' hPostLen h⟩
  | cons a pre ih =>
    cases pre' with
    | nil => cases hPreLen
    | cons a' pre' =>
      rw [List.cons_append, List.cons_append, join_cons a (by simp), join_cons a' (by simp)] at h
      obtain ⟨rfl, hRest⟩ := split_first (hPre a (by simp)) (hPre' a' (by simp)) h
      obtain ⟨rfl, hFields⟩ := ih (fun b hb => hPre b (List.mem_cons_of_mem _ hb))
        (fun b hb => hPre' b (List.mem_cons_of_mem _ hb)) (Nat.succ.inj hPreLen) hRest
      exact ⟨rfl, hFields⟩

/-! ## Texts without an element -/

/-- A text that begins without the separator ends before it. -/
theorem prefix_of_not_mem {a b rest back : List α} (h : sep ∉ a) (hSame : a ++ rest = b ++ sep :: back) :
    a <+: b := by
  obtain ⟨more, rfl, -⟩ | ⟨more, rfl, hMore⟩ := List.append_eq_append_iff.mp hSame
  · exact List.prefix_append a more
  · cases more with
    | nil =>
      rw [List.append_nil]
    | cons c more =>
      obtain ⟨rfl, -⟩ := List.cons.inj hMore
      exact absurd (List.mem_append_right _ List.mem_cons_self) h

/-- A text that ends in an element is not reached into what has no such element, -/
theorem infix_concat_of_not_mem {needle front back : List α} (h : sep ∉ back) :
    needle ++ [sep] <:+: front ++ back ↔ needle ++ [sep] <:+: front := by
  refine ⟨fun hInfix => ?_, List.infix_append_of_infix_left⟩
  obtain hFront | hBack | ⟨left, right, hSplit, hLeft, hRight⟩ := List.infix_append_iff.mp hInfix
  · exact hFront
  · exact absurd (hBack.subset (List.mem_append_right _ (List.mem_singleton_self sep))) h
  · obtain rfl | ⟨right, last, rfl⟩ := List.eq_nil_or_concat' right
    · rw [hSplit, List.append_nil]
      exact hLeft.isInfix
    · rw [← List.append_assoc] at hSplit
      obtain ⟨-, hLast⟩ := List.append_inj' hSplit rfl
      obtain rfl := (List.cons.inj hLast).1
      exact absurd (hRight.subset (List.mem_append_right _ (List.mem_singleton_self _))) h

/-- and one that begins with an element not out of it. -/
theorem infix_cons_of_not_mem {needle front back : List α} (h : sep ∉ front) :
    sep :: needle <:+: front ++ back ↔ sep :: needle <:+: back := by
  have hReverse : needle.reverse ++ [sep] <:+: back.reverse ++ front.reverse ↔
      needle.reverse ++ [sep] <:+: back.reverse := infix_concat_of_not_mem (by simpa using h)
  rwa [← List.reverse_cons, ← List.reverse_append, List.reverse_infix, List.reverse_infix] at hReverse

end Library.Joined
