import Mathlib.Data.List.Perm.Basic
import Mathlib.Data.List.InsertIdx

/-! # Positions in a list that changes

An element is put in front of all the others, or one is taken out. Where an element has gone
follows from the changes alone.
-/

namespace Library

inductive ListChange
  | pushed
  | removed (i : Nat)
  deriving DecidableEq, Repr

namespace ListChange

variable {α : Type} {l l' : List α} {change : ListChange} {p p' : Nat}

def move : ListChange → Nat → Option Nat
  | .pushed, p => some (p + 1)
  | .removed i, p => if p = i then none else some (if i < p then p - 1 else p)

/-- Where the element that was at `p` is after the changes, if it is still there. -/
def track (changes : List ListChange) (p : Nat) : Option Nat := changes.foldlM (fun p change => change.move p) p

/-- The change that leads from one list to the other. -/
inductive Leads : ListChange → List α → List α → Prop
  | pushed (a : α) (l : List α) : Leads .pushed l (a :: l)
  | removed (i : Nat) (l : List α) : Leads (.removed i) l (l.eraseIdx i)

theorem track_nil (p : Nat) : track [] p = some p := rfl

theorem track_concat (changes : List ListChange) (change : ListChange) (p : Nat) :
    track (changes ++ [change]) p = (track changes p).bind change.move := by
  simp only [track, List.foldlM_append, List.foldlM_cons, List.foldlM_nil, bind_pure]
  rfl

theorem getElem?_of_move (h : change.Leads l l') (hMove : change.move p = some p') : l'[p']? = l[p]? := by
  cases h with
  | pushed a =>
    obtain rfl := Option.some.inj hMove
    exact List.getElem?_cons_succ
  | removed i =>
    rw [move] at hMove
    split at hMove
    · cases hMove
    · rename_i hOther
      obtain rfl := Option.some.inj hMove
      rw [List.getElem?_eraseIdx]
      split
      · rename_i hBehind
        have hNot : ¬ p - 1 < i := by omega
        have hBack : p - 1 + 1 = p := by omega
        rw [if_neg hNot, hBack]
      · rename_i hBefore
        have hLess : p < i := by omega
        rw [if_pos hLess]

end ListChange

/-- What is taken out of a list is counted no more. -/
theorem countP_eraseIdx {α : Type} {l : List α} {i : Nat} {a : α} (h : l[i]? = some a) (p : α → Bool) :
    l.countP p = (l.eraseIdx i).countP p + if p a then 1 else 0 := by
  obtain ⟨hLess, rfl⟩ := List.getElem?_eq_some_iff.mp h
  rw [← (List.getElem_cons_eraseIdx_perm hLess).countP_eq p, List.countP_cons]

end Library

/-! ## Undoing removals from a list

Each removal is kept with the position it was made at, the last one last. Undoing them puts every element back
in turn.
-/

namespace Removals

variable {α : Type*}

/-- Undoing all the removals of a stack is possible, and gives this list. -/
inductive Restores : List α → List (α × Nat) → List α → Prop
  | done (xs : List α) : Restores xs [] xs
  | undo {xs all : List α} {stack : List (α × Nat)} {a : α} {position : Nat} (hPosition : position ≤ xs.length)
      (hRest : Restores (xs.insertIdx position a) stack all) : Restores xs (stack ++ [(a, position)]) all

theorem take_append_cons_drop {xs : List α} {position : Nat} (h : position ≤ xs.length) (a : α) :
    xs.take position ++ a :: xs.drop position = xs.insertIdx position a := by
  induction xs generalizing position with
  | nil =>
    obtain rfl := Nat.le_zero.mp h
    rfl
  | cons x xs ih =>
    cases position with
    | zero => rfl
    | succ position => exact congrArg (x :: ·) (ih (Nat.le_of_succ_le_succ h))

theorem insertIdx_append_singleton {xs : List α} {position : Nat} (h : position ≤ xs.length) (a b : α) :
    (xs ++ [b]).insertIdx position a = xs.insertIdx position a ++ [b] := by
  induction xs generalizing position with
  | nil =>
    obtain rfl := Nat.le_zero.mp h
    rfl
  | cons x xs ih =>
    cases position with
    | zero => rfl
    | succ position => exact congrArg (x :: ·) (ih (Nat.le_of_succ_le_succ h))

namespace Restores

variable {xs all : List α} {stack : List (α × Nat)} {a : α} {position : Nat}

/-- What is appended meanwhile stays at the end. -/
theorem append (h : Restores xs stack all) (b : α) : Restores (xs ++ [b]) stack (all ++ [b]) := by
  induction h with
  | done xs => exact .done _
  | undo hPosition hRest ih =>
    refine .undo ?_ ?_
    · rw [List.length_append]
      exact Nat.le_add_right_of_le hPosition
    · rw [insertIdx_append_singleton hPosition]
      exact ih

theorem remove (h : Restores xs stack all) (hAt : xs[position]? = some a) :
    Restores (xs.eraseIdx position) (stack ++ [(a, position)]) all := by
  obtain ⟨hLess, rfl⟩ := List.getElem?_eq_some_iff.mp hAt
  refine .undo ?_ ?_
  · rw [List.length_eraseIdx_of_lt hLess]
    omega
  · rw [List.insertIdx_eraseIdx_getElem hLess]
    exact h

/-- The last removal can be undone, and then the others. -/
theorem last (h : Restores xs (stack ++ [(a, position)]) all) :
    position ≤ xs.length ∧ Restores (xs.insertIdx position a) stack all := by
  generalize hStack : stack ++ [(a, position)] = whole at h
  cases h with
  | done => exact nomatch List.append_ne_nil_of_right_ne_nil _ (List.cons_ne_nil _ _) hStack
  | undo hPosition hRest =>
    obtain ⟨rfl, hLast⟩ := List.append_inj' hStack rfl
    obtain ⟨rfl, rfl⟩ := Prod.mk.inj (List.cons.inj hLast).1
    exact ⟨hPosition, hRest⟩

theorem eq_of_nil (h : Restores xs [] all) : xs = all := by
  generalize hStack : [] = whole at h
  cases h with
  | done => rfl
  | undo => exact nomatch List.append_ne_nil_of_right_ne_nil _ (List.cons_ne_nil _ _) hStack.symm

end Restores

end Removals
