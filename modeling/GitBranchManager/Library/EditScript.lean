import Mathlib.Data.List.Basic

/-! # Edit scripts and their partial application

A script lists the lines of two texts at once: kept, inserted or deleted. Marking
some of its changes cuts a script that does just these, read against the old text
(`pick`) or, for an undo, against the new one (`unpick`). The two are dual.
-/

namespace Library.EditScript

universe u
variable {α : Type u}

inductive Edit (α : Type u)
  | keep (a : α)
  | insert (a : α)
  | delete (a : α)
  deriving DecidableEq

namespace Edit

def flip : Edit α → Edit α
  | keep a => keep a
  | insert a => delete a
  | delete a => insert a

def before : Edit α → Option α
  | keep a | delete a => some a
  | insert _ => none

def after : Edit α → Option α
  | keep a | insert a => some a
  | delete _ => none

def isChange : Edit α → Bool
  | keep _ => false
  | insert _ | delete _ => true

@[simp] theorem before_flip (e : Edit α) : e.flip.before = e.after := by cases e <;> rfl

@[simp] theorem after_flip (e : Edit α) : e.flip.after = e.before := by cases e <;> rfl

@[simp] theorem isChange_flip (e : Edit α) : e.flip.isChange = e.isChange := by cases e <;> rfl

end Edit

def before (script : List (Edit α)) : List α := script.filterMap Edit.before

def after (script : List (Edit α)) : List α := script.filterMap Edit.after

/-- One marked edit read against the old text: an unmarked insertion is not there,
an unmarked deletion has not happened. -/
def pickEdit : Edit α × Bool → Option (Edit α)
  | (.insert _, false) => none
  | (.delete a, false) => some (.keep a)
  | (e, _) => some e

/-- One marked edit read against the new text: an unmarked insertion is already
there, an unmarked deletion is gone. -/
def unpickEdit : Edit α × Bool → Option (Edit α)
  | (.insert a, false) => some (.keep a)
  | (.delete _, false) => none
  | (e, _) => some e

def pick (marked : List (Edit α × Bool)) : List (Edit α) := marked.filterMap pickEdit

def unpick (marked : List (Edit α × Bool)) : List (Edit α) := marked.filterMap unpickEdit

/-- The line an edit leaves when exactly the marked changes happen. -/
def appliedLine : Edit α × Bool → Option α
  | (.keep a, _) | (.insert a, true) | (.delete a, false) => some a
  | (.insert _, false) | (.delete _, true) => none

/-- The line an edit leaves when all changes happened and the marked ones are undone. -/
def undoneLine : Edit α × Bool → Option α
  | (.keep a, _) | (.insert a, false) | (.delete a, true) => some a
  | (.insert _, true) | (.delete _, false) => none

def applied (marked : List (Edit α × Bool)) : List α := marked.filterMap appliedLine

def undone (marked : List (Edit α × Bool)) : List α := marked.filterMap undoneLine

theorem unpickEdit_eq_flip (e : Edit α) (mark : Bool) :
    unpickEdit (e, mark) = (pickEdit (e.flip, mark)).map Edit.flip := by
  cases e <;> cases mark <;> rfl

theorem undoneLine_eq_flip (e : Edit α) (mark : Bool) :
    undoneLine (e, mark) = appliedLine (e.flip, mark) := by
  cases e <;> cases mark <;> rfl

def flipMarked (marked : List (Edit α × Bool)) : List (Edit α × Bool) :=
  marked.map fun m => (m.1.flip, m.2)

theorem before_map_flip (script : List (Edit α)) : before (script.map Edit.flip) = after script := by
  rw [before, List.filterMap_map]
  exact List.filterMap_congr fun e _ => Edit.before_flip e

theorem after_map_flip (script : List (Edit α)) : after (script.map Edit.flip) = before script := by
  rw [after, List.filterMap_map]
  exact List.filterMap_congr fun e _ => Edit.after_flip e

theorem unpick_eq_flip (marked : List (Edit α × Bool)) :
    unpick marked = (pick (flipMarked marked)).map Edit.flip := by
  rw [unpick, pick, flipMarked, List.filterMap_map, List.map_filterMap]
  exact List.filterMap_congr fun m _ => unpickEdit_eq_flip m.1 m.2

theorem undone_eq_flip (marked : List (Edit α × Bool)) :
    undone marked = applied (flipMarked marked) := by
  rw [undone, applied, flipMarked, List.filterMap_map]
  exact List.filterMap_congr fun m _ => undoneLine_eq_flip m.1 m.2

theorem before_pick (marked : List (Edit α × Bool)) :
    before (pick marked) = before (marked.map Prod.fst) := by
  rw [before, before, pick, List.filterMap_filterMap, List.filterMap_map]
  apply List.filterMap_congr
  rintro ⟨e, mark⟩ _
  cases e <;> cases mark <;> rfl

theorem after_pick (marked : List (Edit α × Bool)) : after (pick marked) = applied marked := by
  rw [after, applied, pick, List.filterMap_filterMap]
  apply List.filterMap_congr
  rintro ⟨e, mark⟩ _
  cases e <;> cases mark <;> rfl

theorem map_fst_flipMarked (marked : List (Edit α × Bool)) :
    (flipMarked marked).map Prod.fst = (marked.map Prod.fst).map Edit.flip := by
  simp [flipMarked]

theorem after_unpick (marked : List (Edit α × Bool)) :
    after (unpick marked) = after (marked.map Prod.fst) := by
  rw [unpick_eq_flip, after_map_flip, before_pick, map_fst_flipMarked, before_map_flip]

theorem before_unpick (marked : List (Edit α × Bool)) : before (unpick marked) = undone marked := by
  rw [unpick_eq_flip, before_map_flip, after_pick, undone_eq_flip]

theorem any_pick (marked : List (Edit α × Bool)) :
    (pick marked).any Edit.isChange = marked.any fun m => m.1.isChange && m.2 := by
  induction marked with
  | nil => rfl
  | cons m marked ih =>
    obtain ⟨e, mark⟩ := m
    rw [pick, List.filterMap_cons, List.any_cons, ← ih]
    cases e <;> cases mark <;> rfl

theorem any_unpick (marked : List (Edit α × Bool)) :
    (unpick marked).any Edit.isChange = marked.any fun m => m.1.isChange && m.2 := by
  rw [unpick_eq_flip, List.any_map]
  have h := any_pick (flipMarked marked)
  simp only [flipMarked, List.any_map, Function.comp_def, Edit.isChange_flip] at h ⊢
  exact h

theorem filter_pick (marked : List (Edit α × Bool)) :
    (pick marked).filter Edit.isChange =
      ((marked.filter fun m => m.1.isChange && m.2).map Prod.fst) := by
  induction marked with
  | nil => rfl
  | cons m marked ih =>
    obtain ⟨e, mark⟩ := m
    cases e with
    | keep a => cases mark <;> exact ih
    | insert a =>
      cases mark with
      | false => exact ih
      | true => exact congrArg (Edit.insert a :: ·) ih
    | delete a =>
      cases mark with
      | false => exact ih
      | true => exact congrArg (Edit.delete a :: ·) ih

theorem filter_unpick (marked : List (Edit α × Bool)) :
    (unpick marked).filter Edit.isChange =
      ((marked.filter fun m => m.1.isChange && m.2).map Prod.fst) := by
  induction marked with
  | nil => rfl
  | cons m marked ih =>
    obtain ⟨e, mark⟩ := m
    cases e with
    | keep a => cases mark <;> exact ih
    | insert a =>
      cases mark with
      | false => exact ih
      | true => exact congrArg (Edit.insert a :: ·) ih
    | delete a =>
      cases mark with
      | false => exact ih
      | true => exact congrArg (Edit.delete a :: ·) ih

end Library.EditScript
