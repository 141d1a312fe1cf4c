import GitBranchManager.Library.Positions
import Mathlib.Data.List.Induction

/-! # The lines of a conflict region

A region is composed line by line. A removal is kept with its position, so that it can be undone after any
further changes; an edit by hand ends all this until the region is reset.
-/

namespace GitBranchManager

inductive ConflictLineSource
  | ours
  | theirs
  deriving DecidableEq, Repr

structure ConflictLineEntry where
  source : ConflictLineSource
  lineContent : String
  deriving DecidableEq, Repr

structure ConflictRegionState where
  orderedLines : List ConflictLineEntry
  undoStack : List (ConflictLineEntry × Nat)
  manuallyEdited : Bool
  deriving DecidableEq, Repr

inductive RegionError
  | stateError (message : String)
  | rangeError (value minValue maxValue : Int)
  deriving DecidableEq, Repr

/-- A part of a list; the ends have to be in order and within it. -/
def sublist {α : Type*} (xs : List α) (start stop : Nat) : Except RegionError (List α) :=
  if xs.length < start then .error (.rangeError start 0 xs.length)
  else if stop < start ∨ xs.length < stop then .error (.rangeError stop start xs.length)
  else .ok ((xs.take stop).drop start)

namespace ConflictRegionState

def unresolved : ConflictRegionState := { orderedLines := [], undoStack := [], manuallyEdited := false }

variable (s : ConflictRegionState)

def appendLine (source : ConflictLineSource) (lineContent : String) : Except RegionError ConflictRegionState :=
  if s.manuallyEdited then
    .error (.stateError "Cannot append line to manually edited region; call resetRegion() first")
  else .ok { s with orderedLines := s.orderedLines ++ [{ source, lineContent }] }

def removeAt (position : Int) : Except RegionError ConflictRegionState :=
  if s.manuallyEdited then
    .error (.stateError "Cannot remove line from manually edited region; call resetRegion() first")
  else if position < 0 ∨ s.orderedLines.length ≤ position then
    .error (.rangeError position 0 (s.orderedLines.length - 1))
  else
    match s.orderedLines[position.toNat]? with
    | none => .error (.rangeError position 0 (s.orderedLines.length - 1))
    | some removed => do
      let before ← sublist s.orderedLines 0 position.toNat
      let after ← sublist s.orderedLines (position.toNat + 1) s.orderedLines.length
      .ok { s with orderedLines := before ++ after, undoStack := s.undoStack ++ [(removed, position.toNat)] }

def undoLastRemoval : Except RegionError ConflictRegionState :=
  if s.manuallyEdited then
    .error (.stateError "Cannot undo removal in manually edited region; call resetRegion() first")
  else
    match s.undoStack.getLast? with
    | none => .error (.stateError "No removals to undo")
    | some (restored, position) => do
      let before ← sublist s.orderedLines 0 position
      let after ← sublist s.orderedLines position s.orderedLines.length
      let undoStack ← sublist s.undoStack 0 (s.undoStack.length - 1)
      .ok { s with orderedLines := before ++ restored :: after, undoStack }

def markManuallyEdited : ConflictRegionState := { s with manuallyEdited := true }

def reset (_s : ConflictRegionState) : ConflictRegionState := unresolved

end ConflictRegionState

inductive RegionOp
  | appendLine (source : ConflictLineSource) (lineContent : String)
  | removeAt (position : Int)
  | undoLastRemoval
  | markManuallyEdited
  | reset
  deriving DecidableEq, Repr

namespace ConflictRegionState

def step (s : ConflictRegionState) : RegionOp → Except RegionError ConflictRegionState
  | .appendLine source lineContent => s.appendLine source lineContent
  | .removeAt position => s.removeAt position
  | .undoLastRemoval => s.undoLastRemoval
  | .markManuallyEdited => .ok s.markManuallyEdited
  | .reset => .ok s.reset

/-- What throws leaves the region as it was. -/
def after (s : ConflictRegionState) (op : RegionOp) : ConflictRegionState :=
  match s.step op with
  | .ok next => next
  | .error _ => s

def run (ops : List RegionOp) : ConflictRegionState := ops.foldl after unresolved

/-- As many undos as there are removals to undo. -/
def undoAll : Nat → ConflictRegionState → Except RegionError ConflictRegionState
  | 0, s => .ok s
  | n + 1, s => do
    let s ← s.undoLastRemoval
    undoAll n s

/-! ## Single steps -/

variable {s : ConflictRegionState}

theorem sublist_zero {α : Type*} {xs : List α} {stop : Nat} (h : stop ≤ xs.length) :
    sublist xs 0 stop = .ok (xs.take stop) := by
  rw [sublist, if_neg (Nat.not_lt_zero _), if_neg (by omega), List.drop_zero]

theorem sublist_length {α : Type*} {xs : List α} {start : Nat} (h : start ≤ xs.length) :
    sublist xs start xs.length = .ok (xs.drop start) := by
  rw [sublist, if_neg (by omega), if_neg (by omega), List.take_length]

theorem removeAt_eq_ok {position : Int} {next : ConflictRegionState} (h : s.removeAt position = .ok next) :
    ∃ (place : Nat) (removed : ConflictLineEntry), position = place ∧ s.manuallyEdited = false ∧
      s.orderedLines[place]? = some removed ∧
      next = { s with
        orderedLines := s.orderedLines.eraseIdx place
        undoStack := s.undoStack ++ [(removed, place)] } := by
  rw [removeAt] at h
  split at h
  next => exact nomatch h
  next hManual =>
    split at h
    next => exact nomatch h
    next hIn =>
      obtain ⟨place, rfl⟩ := Int.eq_ofNat_of_zero_le (a := position) (by omega)
      have hPlace : place < s.orderedLines.length := by omega
      rw [Int.toNat_natCast, List.getElem?_eq_getElem hPlace] at h
      dsimp only at h
      rw [sublist_zero (Nat.le_of_lt hPlace), sublist_length (Nat.succ_le_of_lt hPlace)] at h
      refine ⟨place, _, rfl, eq_false_of_ne_true hManual, List.getElem?_eq_getElem hPlace, ?_⟩
      rw [List.eraseIdx_eq_take_drop_succ]
      exact (Except.ok.inj h).symm

/-- An undo of a removal whose position is still within the list. -/
theorem undoLastRemoval_eq {rest : List (ConflictLineEntry × Nat)} {entry : ConflictLineEntry} {position : Nat}
    (hManual : s.manuallyEdited = false) (hStack : s.undoStack = rest ++ [(entry, position)])
    (hPosition : position ≤ s.orderedLines.length) :
    s.undoLastRemoval =
      .ok { s with orderedLines := s.orderedLines.insertIdx position entry, undoStack := rest } := by
  have hLast : s.undoStack.getLast? = some (entry, position) := by rw [hStack, List.getLast?_concat]
  have hRest : sublist s.undoStack 0 (s.undoStack.length - 1) = .ok rest := by
    rw [sublist_zero (Nat.sub_le _ _), hStack, List.length_append, List.length_singleton, Nat.add_sub_cancel,
      List.take_left]
  rw [undoLastRemoval, if_neg (by rw [hManual]; exact Bool.false_ne_true), hLast]
  dsimp only
  rw [sublist_zero hPosition, sublist_length hPosition, hRest, ← Removals.take_append_cons_drop hPosition]
  rfl

/-! ## Runs -/

theorem run_concat (ops : List RegionOp) (op : RegionOp) : run (ops ++ [op]) = (run ops).after op := by
  rw [run, List.foldl_append]
  rfl

end ConflictRegionState

/-- The steps since the region was last reset. -/
def sinceReset (ops : List RegionOp) : List RegionOp :=
  ops.foldl (fun since op => if op = .reset then [] else since ++ [op]) []

def RegionOp.line? : RegionOp → Option ConflictLineEntry
  | .appendLine source lineContent => some { source, lineContent }
  | _ => none

def RegionOp.isRemoval : RegionOp → Bool
  | .removeAt _ => true
  | _ => false

def appendedLines (ops : List RegionOp) : List ConflictLineEntry := (sinceReset ops).filterMap RegionOp.line?

def linesBeforeRemovals (ops : List RegionOp) : List ConflictLineEntry :=
  ((sinceReset ops).takeWhile fun op => !op.isRemoval).filterMap RegionOp.line?

theorem sinceReset_concat (ops : List RegionOp) (op : RegionOp) :
    sinceReset (ops ++ [op]) = if op = .reset then [] else sinceReset ops ++ [op] := by
  rw [sinceReset, List.foldl_append]
  rfl

/-- The lines there would be if no removal had been made, after one more step. -/
def keep (all : List ConflictLineEntry) : RegionOp → List ConflictLineEntry
  | .appendLine source lineContent => all ++ [{ source, lineContent }]
  | .reset => []
  | _ => all

theorem appendedLines_concat (ops : List RegionOp) (op : RegionOp) :
    appendedLines (ops ++ [op]) = keep (appendedLines ops) op := by
  rw [appendedLines, sinceReset_concat]
  split
  next hReset =>
    rw [hReset]
    rfl
  next hOther =>
    rw [List.filterMap_append, ← appendedLines]
    cases op with
    | reset => exact absurd rfl hOther
    | appendLine => rfl
    | removeAt | undoLastRemoval | markManuallyEdited => exact List.append_nil _

namespace ConflictRegionState

/-- Undoing all the removals is possible, unless the region is edited by hand. -/
def Kept (all : List ConflictLineEntry) (s : ConflictRegionState) : Prop :=
  s.manuallyEdited = false → Removals.Restores s.orderedLines s.undoStack all

theorem Kept.undoLastRemoval_eq {all : List ConflictLineEntry} {s : ConflictRegionState} (h : s.Kept all)
    (hManual : s.manuallyEdited = false) {rest : List (ConflictLineEntry × Nat)} {entry : ConflictLineEntry}
    {position : Nat} (hStack : s.undoStack = rest ++ [(entry, position)]) :
    s.undoLastRemoval = .ok { s with orderedLines := s.orderedLines.insertIdx position entry, undoStack := rest } ∧
      Removals.Restores (s.orderedLines.insertIdx position entry) rest all := by
  obtain ⟨hPosition, hRest⟩ := (hStack ▸ h hManual).last
  exact ⟨ConflictRegionState.undoLastRemoval_eq hManual hStack hPosition, hRest⟩

theorem Kept.undoLastRemoval_eq_ok {all : List ConflictLineEntry} {s next : ConflictRegionState} (h : s.Kept all)
    (hUndo : s.undoLastRemoval = .ok next) :
    s.manuallyEdited = false ∧ ∃ rest removal, s.undoStack = rest ++ [removal] ∧
      next = { s with orderedLines := s.orderedLines.insertIdx removal.2 removal.1, undoStack := rest } := by
  by_cases hEdited : s.manuallyEdited = true
  · rw [undoLastRemoval, if_pos hEdited] at hUndo
    exact nomatch hUndo
  · obtain hNil | ⟨rest, removal, hStack⟩ := List.eq_nil_or_concat s.undoStack
    · rw [undoLastRemoval, if_neg hEdited, hNil] at hUndo
      exact nomatch hUndo
    · rw [List.concat_eq_append] at hStack
      have hManual := eq_false_of_ne_true hEdited
      have hEq := (h.undoLastRemoval_eq hManual hStack).1
      exact ⟨hManual, rest, removal, hStack, (Except.ok.inj (hEq.symm.trans hUndo)).symm⟩

theorem Kept.after {all : List ConflictLineEntry} {s : ConflictRegionState} (h : s.Kept all) (op : RegionOp) :
    (s.after op).Kept (keep all op) := by
  cases op with
  | reset => exact fun _ => .done []
  | markManuallyEdited => exact nofun
  | appendLine source lineContent =>
    intro hManual
    by_cases hEdited : s.manuallyEdited = true
    · rw [ConflictRegionState.after, step, appendLine, if_pos hEdited] at hManual
      exact nomatch hEdited.symm.trans hManual
    · rw [ConflictRegionState.after, step, appendLine, if_neg hEdited]
      exact (h (eq_false_of_ne_true hEdited)).append _
  | removeAt position =>
    rw [ConflictRegionState.after, step]
    cases hRemove : s.removeAt position with
    | error => exact h
    | ok next =>
      obtain ⟨place, removed, rfl, hOld, hAt, rfl⟩ := removeAt_eq_ok hRemove
      exact fun _ => (h hOld).remove hAt
  | undoLastRemoval =>
    intro hManual
    rw [ConflictRegionState.after, step] at hManual ⊢
    cases hUndo : s.undoLastRemoval with
    | error =>
      rw [hUndo] at hManual
      exact h hManual
    | ok next =>
      obtain ⟨hOld, rest, removal, hStack, rfl⟩ := h.undoLastRemoval_eq_ok hUndo
      exact (h.undoLastRemoval_eq hOld hStack).2

theorem kept_run (ops : List RegionOp) : (run ops).Kept (appendedLines ops) := by
  induction ops using List.reverseRecOn with
  | nil => exact fun _ => .done []
  | append_singleton ops op ih =>
    rw [run_concat, appendedLines_concat]
    exact ih.after op

theorem undoAll_eq {all : List ConflictLineEntry} {s : ConflictRegionState} (h : s.Kept all)
    (hManual : s.manuallyEdited = false) :
    undoAll s.undoStack.length s = .ok { s with orderedLines := all, undoStack := [] } := by
  generalize hLength : s.undoStack.length = n
  induction n generalizing s with
  | zero =>
    have hNil := List.length_eq_zero_iff.mp hLength
    have hAll := (hNil ▸ h hManual).eq_of_nil
    rw [undoAll, ← hAll, ← hNil]
  | succ n ih =>
    obtain hNil | ⟨rest, ⟨entry, position⟩, hStack⟩ := List.eq_nil_or_concat s.undoStack
    · rw [hNil] at hLength
      exact nomatch hLength
    · rw [List.concat_eq_append] at hStack
      obtain ⟨hEq, hRest⟩ := h.undoLastRemoval_eq hManual hStack
      rw [hStack, List.length_append, List.length_singleton] at hLength
      rw [undoAll, hEq]
      exact ih (s := { s with orderedLines := s.orderedLines.insertIdx position entry, undoStack := rest })
        (fun _ => hRest) hManual (Nat.succ.inj hLength)

/-! ## Where the last removal comes from -/

/-- What a step does to the removals that can be undone. -/
theorem Kept.undoStack_after {all : List ConflictLineEntry} {s : ConflictRegionState} (h : s.Kept all)
    (op : RegionOp) :
    (s.after op).undoStack = s.undoStack ∨ (s.after op).undoStack = [] ∨
      (∃ removal, s.undoStack = (s.after op).undoStack ++ [removal]) ∨
      ∃ (place : Nat) (removed : ConflictLineEntry), op = .removeAt place ∧
        s.orderedLines[place]? = some removed ∧ (s.after op).undoStack = s.undoStack ++ [(removed, place)] := by
  cases op with
  | reset => exact .inr (.inl rfl)
  | markManuallyEdited => exact .inl rfl
  | appendLine source lineContent =>
    refine .inl ?_
    by_cases hEdited : s.manuallyEdited = true
    · rw [ConflictRegionState.after, step, appendLine, if_pos hEdited]
    · rw [ConflictRegionState.after, step, appendLine, if_neg hEdited]
  | removeAt position =>
    rw [ConflictRegionState.after, step]
    cases hRemove : s.removeAt position with
    | error => exact .inl rfl
    | ok next =>
      obtain ⟨place, removed, rfl, -, hAt, rfl⟩ := removeAt_eq_ok hRemove
      exact .inr (.inr (.inr ⟨place, removed, rfl, hAt, rfl⟩))
  | undoLastRemoval =>
    rw [ConflictRegionState.after, step]
    cases hUndo : s.undoLastRemoval with
    | error => exact .inl rfl
    | ok next =>
      obtain ⟨-, rest, removal, hStack, rfl⟩ := h.undoLastRemoval_eq_ok hUndo
      exact .inr (.inr (.inl ⟨removal, hStack⟩))

/-- Each removal of the stack was made by some step of the run, and has not been undone since. -/
theorem mem_undoStack_run {ops : List RegionOp} {rest newer : List (ConflictLineEntry × Nat)}
    {entry : ConflictLineEntry} {position : Nat} (hStack : (run ops).undoStack = rest ++ (entry, position) :: newer) :
    ∃ before later, ops = before ++ .removeAt position :: later ∧ (run before).orderedLines[position]? = some entry ∧
      (run before).undoStack = rest ∧
      ∀ part, part <+: later →
        rest ++ [(entry, position)] <+: (run (before ++ .removeAt position :: part)).undoStack := by
  induction ops using List.reverseRecOn generalizing newer with
  | nil => exact nomatch List.append_ne_nil_of_right_ne_nil rest (List.cons_ne_nil _ _) hStack.symm
  | append_singleton ops op ih =>
    have hNow : rest ++ [(entry, position)] <+: (run (ops ++ [op])).undoStack := by
      rw [hStack]
      exact List.prefix_append_right_inj rest |>.mpr (List.cons_prefix_cons.mpr ⟨rfl, List.nil_prefix⟩)
    have hOlder {newer : List (ConflictLineEntry × Nat)}
        (hOld : (run ops).undoStack = rest ++ (entry, position) :: newer) :
        ∃ before later, ops ++ [op] = before ++ .removeAt position :: later ∧
          (run before).orderedLines[position]? = some entry ∧ (run before).undoStack = rest ∧
          ∀ part, part <+: later →
            rest ++ [(entry, position)] <+: (run (before ++ .removeAt position :: part)).undoStack := by
      obtain ⟨before, later, hOps, hAt, hRest, hParts⟩ := ih hOld
      refine ⟨before, later ++ [op], by rw [hOps, List.append_assoc, List.cons_append], hAt, hRest, ?_⟩
      intro part hPart
      obtain rfl | hPart := List.prefix_concat_iff.mp hPart
      · rw [← List.cons_append, ← List.append_assoc, ← hOps]
        exact hNow
      · exact hParts part hPart
    rw [run_concat] at hStack hNow
    obtain hSame | hNil | ⟨removal, hPop⟩ | ⟨place, removed, rfl, hAt, hPush⟩ := (kept_run ops).undoStack_after op
    · exact hOlder (hSame ▸ hStack)
    · rw [hNil] at hStack
      exact nomatch List.append_ne_nil_of_right_ne_nil rest (List.cons_ne_nil _ _) hStack.symm
    · rw [hStack, List.append_assoc, List.cons_append] at hPop
      exact hOlder hPop
    · rw [hPush] at hStack
      obtain rfl | ⟨older, last, rfl⟩ := List.eq_nil_or_concat newer
      · obtain ⟨hRest, hLast⟩ := List.append_inj' hStack rfl
        obtain ⟨rfl, rfl⟩ := Prod.mk.inj (List.cons.inj hLast).1
        refine ⟨ops, [], rfl, hAt, hRest, fun part hPart => ?_⟩
        rw [List.prefix_nil.mp hPart, run_concat]
        exact hNow
      · rw [List.concat_eq_append, ← List.cons_append, ← List.append_assoc] at hStack
        exact hOlder (List.append_inj' hStack rfl).1

theorem undo_is_exact (ops : List RegionOp) (hManual : (run ops).manuallyEdited = false) :
    ((run ops).undoStack ≠ [] → ∃ before later position entry restored,
      ops = before ++ .removeAt (position : Nat) :: later ∧ (run before).orderedLines[position]? = some entry ∧
        (∀ part, part <+: later →
          (run before).undoStack ++ [(entry, position)] <+: (run (before ++ .removeAt position :: part)).undoStack) ∧
        (run ops).undoLastRemoval = .ok restored ∧ restored.undoStack = (run before).undoStack ∧
        restored.orderedLines[position]? = some entry ∧
        restored.orderedLines.eraseIdx position = (run ops).orderedLines) ∧
      ∃ all, undoAll (run ops).undoStack.length (run ops) = .ok all ∧ all.undoStack = [] ∧
        all.orderedLines = appendedLines ops ∧ linesBeforeRemovals ops <+: all.orderedLines := by
  refine ⟨fun hStack => ?_, ?_⟩
  · obtain hNil | ⟨rest, ⟨entry, position⟩, hLast⟩ := List.eq_nil_or_concat (run ops).undoStack
    · exact absurd hNil hStack
    · rw [List.concat_eq_append] at hLast
      obtain ⟨hPosition, -⟩ := (hLast ▸ kept_run ops hManual).last
      obtain ⟨before, later, hOps, hAt, hRest, hParts⟩ := mem_undoStack_run hLast
      obtain rfl := hRest
      refine ⟨before, later, position, entry, _, hOps, hAt, hParts,
        ((kept_run ops).undoLastRemoval_eq hManual hLast).1, rfl, ?_, ?_⟩
      · exact List.getElem?_insertIdx_self.trans (if_pos hPosition)
      · exact List.eraseIdx_insertIdx_self _
  · refine ⟨_, undoAll_eq (kept_run ops) hManual, rfl, rfl, ?_⟩
    exact (List.takeWhile_prefix _).filterMap RegionOp.line?

/-- A line that is removed, two that are removed while it is away, and one that is appended. -/
def composedRegion : List RegionOp :=
  [.appendLine .ours "a\n", .appendLine .theirs "b\n", .removeAt 0, .appendLine .ours "c\n", .removeAt 1, .removeAt 0]

theorem undo_is_exact_composed :
    ∃ all, undoAll (run composedRegion).undoStack.length (run composedRegion) = .ok all ∧
      all.orderedLines = appendedLines composedRegion := by
  obtain ⟨-, all, hAll, -, hLines, -⟩ := undo_is_exact composedRegion (by decide)
  exact ⟨all, hAll, hLines⟩

end ConflictRegionState

end GitBranchManager
