import GitBranchManager.Base.ErrorPatterns
import GitBranchManager.Library.Pieces
import GitBranchManager.Refs.RefCommands

/-! # Branch names that the core accepts

Git checks each component of a name, the core the name as a whole. So a dot that starts a later
component and a `.lock` that ends an earlier one are missed, and nothing else is.
-/

namespace GitBranchManager

open Library.Pieces

def components (name : Bytes) : List Bytes := name.splitOn 0x2F

def isForbidden (b : UInt8) : Bool := isControl b || (ascii " ~^:?*[\\").contains b

/-- `git check-ref-format`. -/
def checkRefFormat (ref : Bytes) : Bool :=
  decide (2 ≤ (components ref).length) &&
    (components ref).all (fun part =>
      !part.isEmpty && !startsWith part (ascii ".") && !(ascii ".lock").isSuffixOf part) &&
    [ascii "..", ascii "@\x7b"].all (fun needle => (find needle ref).isNone) &&
    !(ascii ".").isSuffixOf ref && !ref.any isForbidden

/-- A dot or a `.lock` where the core does not look for it. -/
def hidesFault (name : Bytes) : Bool :=
  (components name).tail.any (startsWith · (ascii ".")) ||
    (components name).dropLast.any (ascii ".lock").isSuffixOf

/-- Any other fault. -/
def showsFault (name : Bytes) : Bool :=
  (components name).any List.isEmpty || (components name).head?.any (startsWith · (ascii ".")) ||
    (components name).getLast?.any (ascii ".lock").isSuffixOf ||
    [ascii "..", ascii "@\x7b"].any (fun needle => (find needle name).isSome) ||
    (ascii ".").isSuffixOf name || name.any isForbidden || startsWith name (ascii "-") || name == ascii "@"

theorem components_kHeads (name : Bytes) :
    components (kHeads ++ name) = ascii "refs" :: ascii "heads" :: components name := by
  have hHeads : kHeads ++ name = ascii "refs" ++ 0x2F :: (ascii "heads" ++ 0x2F :: name) := rfl
  rw [components, hHeads, List.splitOn_append_cons_self_of_not_mem (by decide),
    List.splitOn_append_cons_self_of_not_mem (by decide), components]

theorem any_components (name : Bytes) (p : Bytes → Bool) :
    (components name).any p = ((components name).head?.any p || (components name).tail.any p) := by
  obtain ⟨first, more, hParts⟩ := exists_splitOn (0x2F : UInt8) name
  rw [components, hParts]
  simp

theorem any_components_last (name : Bytes) (p : Bytes → Bool) :
    (components name).any p = ((components name).getLast?.any p || (components name).dropLast.any p) := by
  have hNe : components name ≠ [] := List.splitOn_ne_nil _ _
  conv_lhs => rw [← List.dropLast_append_getLast hNe]
  rw [List.any_append, List.getLast?_eq_some_getLast hNe, Bool.or_comm]
  simp

theorem all_not {α : Type} (xs : List α) (p q r : α → Bool) :
    xs.all (fun x => !p x && !q x && !r x) = (!xs.any p && !xs.any q && !xs.any r) := by
  induction xs with
  | nil => rfl
  | cons x xs ih =>
    rw [List.all_cons, ih, List.any_cons, List.any_cons, List.any_cons]
    cases p x <;> cases q x <;> cases r x <;> simp

theorem isSuffixOf_last {name last tail : Bytes} (hSlash : 0x2F ∉ tail)
    (hLast : (components name).getLast? = some last) : tail.isSuffixOf last = tail.isSuffixOf name := by
  rw [Bool.eq_iff_iff, List.isSuffixOf_iff_suffix, List.isSuffixOf_iff_suffix]
  exact suffix_last_iff hSlash hLast

theorem getLast?_components (name : Bytes) : ∃ last, (components name).getLast? = some last :=
  ⟨_, List.getLast?_eq_some_getLast (List.splitOn_ne_nil _ _)⟩

theorem isNone_find_kHeads {p : UInt8} (hp : p ∉ kHeads) (needle name : Bytes) :
    (find (p :: needle) (kHeads ++ name)).isNone = !(find (p :: needle) name).isSome := by
  rw [find_skip hp]
  cases find (p :: needle) name <;> rfl

/-- Git refuses a branch's name for a fault of either kind. -/
theorem checkRefFormat_kHeads (name : Bytes) :
    (checkRefFormat (kHeads ++ name) && !startsWith name (ascii "-") && name != ascii "@") =
      (!hidesFault name && !showsFault name) := by
  obtain ⟨last, hLast⟩ := getLast?_components name
  have hWhole : (components (kHeads ++ name)).getLast? = some last := by
    obtain ⟨first, more, hParts⟩ := exists_splitOn (0x2F : UInt8) name
    rw [components_kHeads, ← hLast, components, hParts, List.getLast?_cons_cons, List.getLast?_cons_cons]
  have hEnd : (ascii ".").isSuffixOf (kHeads ++ name) = (ascii ".").isSuffixOf name := by
    rw [← isSuffixOf_last (by decide) hWhole, isSuffixOf_last (by decide) hLast]
  have hDots : (find (ascii "..") (kHeads ++ name)).isNone = !(find (ascii "..") name).isSome :=
    isNone_find_kHeads (by decide) _ name
  have hBrace : (find (ascii "@\x7b") (kHeads ++ name)).isNone = !(find (ascii "@\x7b") name).isSome :=
    isNone_find_kHeads (by decide) _ name
  have hForbidden : (kHeads ++ name).any isForbidden = name.any isForbidden := by
    rw [List.any_append]
    rfl
  have hLength : decide (2 ≤ (components (kHeads ++ name)).length) = true := by
    rw [components_kHeads, decide_eq_true_iff]
    exact Nat.succ_le_succ (Nat.succ_le_succ (Nat.zero_le _))
  have hAll : (components (kHeads ++ name)).all (fun part =>
      !part.isEmpty && !startsWith part (ascii ".") && !(ascii ".lock").isSuffixOf part) =
      (!(components name).any List.isEmpty && !(components name).any (startsWith · (ascii ".")) &&
        !(components name).any (ascii ".lock").isSuffixOf) := by
    rw [components_kHeads, List.all_cons, List.all_cons, all_not]
    rfl
  rw [checkRefFormat, hLength, hAll, hEnd, hForbidden, hidesFault, showsFault,
    any_components name (startsWith · (ascii ".")), any_components_last name (ascii ".lock").isSuffixOf]
  simp only [List.all_cons, List.all_nil, List.any_cons, List.any_nil, hDots, hBrace, bne, Bool.true_and,
    Bool.or_false, Bool.not_or, Bool.and_assoc, Bool.and_comm, Bool.and_left_comm]

theorem any_isEmpty_components (name : Bytes) :
    (components name).any List.isEmpty = (name.isEmpty || startsWith name (ascii "/") ||
      (ascii "/").isSuffixOf name || (find (ascii "//") name).isSome) := by
  rw [← Bool.not_inj_iff, Bool.eq_iff_iff]
  simp only [Bool.not_or, Bool.and_eq_true, Bool.not_eq_true', ← Bool.not_eq_true, startsWith_iff,
    List.isSuffixOf_iff_suffix, find_isSome_iff, List.isEmpty_iff, List.any_eq_true, not_exists, not_and]
  rw [and_assoc, and_assoc]
  exact pieces_ne_nil_iff

/-- The core refuses a name for the faults that show, and for no other. -/
theorem isValidBranchName_eq (name : Bytes) : RefStore.isValidBranchName name = !showsFault name := by
  obtain ⟨last, hLast⟩ := getLast?_components name
  obtain ⟨first, more, hParts⟩ := exists_splitOn (0x2F : UInt8) name
  have hDot : (components name).head?.any (startsWith · (ascii ".")) = startsWith name (ascii ".") := by
    rw [components, hParts, List.head?_cons, Option.any_some, Bool.eq_iff_iff, startsWith_iff, startsWith_iff]
    exact prefix_first_iff (by decide) hParts
  have hLock : (components name).getLast?.any (ascii ".lock").isSuffixOf =
      (ascii ".lock").isSuffixOf name := by
    rw [hLast, Option.any_some, isSuffixOf_last (by decide) hLast]
  have hForbidden : (name.any fun b => isControl b || (ascii " ~^:?*[\\").contains b) =
      name.any isForbidden := rfl
  rw [RefStore.isValidBranchName, showsFault, hDot, hLock, any_isEmpty_components, hForbidden]
  simp only [Bool.if_false_left, Bool.decide_eq_true, List.any_cons, List.any_nil, Bool.or_false,
    Bool.not_or, Bool.and_assoc, Bool.and_comm, Bool.and_left_comm]

/-- The core agrees with git on a name but where it has a fault that is hidden and none that shows. -/
theorem isValidBranchName_exact_iff (name : Bytes) :
    (RefStore.isValidBranchName name = true ↔ checkRefFormat (kHeads ++ name) = true ∧
      startsWith name (ascii "-") = false ∧ name ≠ ascii "@") ↔
    hidesFault name = false ∨ showsFault name = true := by
  have hGit : (checkRefFormat (kHeads ++ name) = true ∧ startsWith name (ascii "-") = false ∧
      name ≠ ascii "@") ↔ hidesFault name = false ∧ showsFault name = false := by
    have hBoth := checkRefFormat_kHeads name
    rw [Bool.eq_iff_iff] at hBoth
    simpa [and_assoc] using hBoth
  rw [hGit, isValidBranchName_eq, Bool.not_eq_true']
  cases hidesFault name <;> cases showsFault name <;> simp

/-- Git refuses a component that starts with a dot. -/
theorem isValidBranchName_misses_dot : ¬ (RefStore.isValidBranchName (ascii "a/.b") = true ↔
    checkRefFormat (kHeads ++ ascii "a/.b") = true ∧ startsWith (ascii "a/.b") (ascii "-") = false ∧
      ascii "a/.b" ≠ ascii "@") := by
  rw [isValidBranchName_eq]
  decide

end GitBranchManager
