import Mathlib.Data.List.Infix
import Mathlib.Data.List.Nodup
import Mathlib.Data.List.Range
import Mathlib.Data.List.Sort

/-! # The selection of a list

A list keeps the items that are chosen, in the order in which they were chosen, and the anchor that a range is measured
from. Commits are replayed only when the chosen ones lie in one run of the list.
-/

namespace GitBranchManager

structure ListSelection (α : Type) where
  items : List α := []
  anchor : Option α := none
  deriving DecidableEq, Repr

/-- Whether each number is the one before it plus one. -/
def stepsByOne : List Nat → Bool
  | a :: b :: rest => b == a + 1 && stepsByOne (b :: rest)
  | _ => true

namespace ListSelection

variable {α : Type} [DecidableEq α]

def single (item : α) : ListSelection α := { items := [item], anchor := some item }

def toggle (s : ListSelection α) (item : α) : ListSelection α :=
  if !s.items.contains item then { items := s.items ++ [item], anchor := some item }
  else
    let remaining := s.items.filter (· ≠ item)
    match remaining.getLast? with
    | none => {}
    | some last => { items := remaining, anchor := if s.anchor = some item then some last else s.anchor }

/-- From the anchor to the item; without both of them in the list it is a single selection. -/
def range (s : ListSelection α) (item : α) (all : List α) : ListSelection α :=
  match s.anchor with
  | none => single item
  | some from_ =>
    match all.idxOf? from_, all.idxOf? item with
    | some start, some end_ =>
      let lo := if start ≤ end_ then start else end_
      let hi := if start ≤ end_ then end_ else start
      { items := (List.range' lo (hi + 1 - lo)).filterMap fun i => all[i]?, anchor := some from_ }
    | _, _ => single item

def selectAll (s : ListSelection α) : List α → ListSelection α
  | [] => {}
  | first :: rest =>
    { items := first :: rest
      anchor :=
        match s.anchor with
        | some from_ => if (first :: rest).contains from_ then some from_ else some first
        | none => some first }

def collapseToAnchor (s : ListSelection α) : ListSelection α :=
  match s.anchor with
  | none => {}
  | some from_ => { items := [from_], anchor := some from_ }

/-- Shift and an arrow: the end that is not the anchor moves in the list as it is shown. -/
def extendSelection (s : ListSelection α) (delta : Int) (visible : List α) : ListSelection α :=
  match visible with
  | [] => s
  | first :: rest =>
    let ordered := visible.filter fun candidate => s.items.contains candidate
    match s.anchor, ordered.head?, ordered.getLast? with
    | some anchor, some top, some bottom =>
      if !visible.contains anchor then single first
      else
        let freeEnd := if top = anchor then bottom else top
        let next := max 0 (min (visible.idxOf freeEnd + delta) (visible.length - 1))
        s.range (visible.getD next.toNat first) (first :: rest)
    | _, _, _ => single first

/-- The same in the list of branches, by the places of the chosen rows. -/
def extendedSelection (current : ListSelection α) (all : List α) (delta : Int) : Option (ListSelection α) :=
  match current.anchor with
  | none => none
  | some anchor =>
    match all.idxOf? anchor with
    | none => none
    | some anchorIndex =>
      let places := (current.items.filter fun name => all.contains name).map all.idxOf
      let indices := places.mergeSort fun a b => decide (a ≤ b)
      match indices.head?, indices.getLast? with
      | some first, some last =>
        let movingEdge := if first = anchorIndex then last else first
        let next := max 0 (min (movingEdge + delta) (all.length - 1))
        all[next.toNat]?.map fun name => current.range name all
      | _, _ => none

/-- `none` when every chosen name is still there. -/
def prunedSelection (s : ListSelection α) (names : List α) : Option (ListSelection α) :=
  let survivors := s.items.filter fun name => names.contains name
  if survivors.length = s.items.length then none
  else
    some
      { items := survivors
        anchor :=
          match s.anchor with
          | some anchor => if !survivors.isEmpty && names.contains anchor then some anchor else survivors.getLast?
          | none => survivors.getLast? }

def isContiguousIn (s : ListSelection α) (all : List α) : Bool :=
  if s.items.isEmpty then false
  else
    match s.items.mapM fun item => all.idxOf? item with
    | none => false
    | some indices => stepsByOne (indices.mergeSort fun a b => decide (a ≤ b))

def orderedBy (s : ListSelection α) (all : List α) : List α := all.filter fun candidate => s.items.contains candidate

end ListSelection

/-! ## Numbers that follow one another -/

theorem stepsByOne_iff (numbers : List Nat) :
    stepsByOne numbers = true ↔ ∃ lo, numbers = List.range' lo numbers.length := by
  induction numbers with
  | nil => exact ⟨fun _ => ⟨0, rfl⟩, fun _ => rfl⟩
  | cons a rest ih =>
    cases rest with
    | nil => exact ⟨fun _ => ⟨a, rfl⟩, fun _ => rfl⟩
    | cons b rest =>
      rw [stepsByOne, Bool.and_eq_true, beq_iff_eq, ih]
      constructor
      · rintro ⟨rfl, lo, hRest⟩
        obtain rfl : a + 1 = lo := (List.cons.inj hRest).1
        refine ⟨a, ?_⟩
        rw [List.length_cons, List.range'_succ, ← hRest]
      · rintro ⟨lo, hAll⟩
        rw [List.length_cons, List.range'_succ, List.cons.injEq] at hAll
        obtain ⟨rfl, hRest⟩ := hAll
        exact ⟨(List.cons.inj hRest).1, a + 1, hRest⟩

/-- Sorted numbers follow one another if and only if they are the numbers of a range, in some order. -/
theorem stepsByOne_sorted {numbers : List Nat} :
    stepsByOne (numbers.mergeSort fun a b => decide (a ≤ b)) = true ↔
      ∃ lo, numbers.Perm (List.range' lo numbers.length) := by
  have hPerm : (numbers.mergeSort fun a b => decide (a ≤ b)).Perm numbers := List.mergeSort_perm _ _
  rw [stepsByOne_iff, hPerm.length_eq]
  refine exists_congr fun lo => ⟨fun h => ?_, fun h => ?_⟩
  · rw [← h]
    exact hPerm.symm
  · have hSorted : (numbers.mergeSort fun a b => decide (a ≤ b)).Pairwise (· ≤ ·) := List.pairwise_mergeSort' (· ≤ ·) _
    have hRange : (List.range' lo numbers.length).Pairwise (· ≤ ·) := List.pairwise_le_range'
    exact (hPerm.trans h).eq_of_pairwise' hSorted hRange

/-! ## Runs of a list -/

section Runs

variable {α : Type}

theorem filterMap_range' (all : List α) (lo count : Nat) :
    ((List.range' lo count).filterMap fun i => all[i]?) = (all.drop lo).take count := by
  induction count generalizing lo with
  | zero => simp
  | succ count ih =>
    rw [List.range'_succ, List.filterMap_cons]
    cases hItem : all[lo]? with
    | none =>
      have hPast := List.getElem?_eq_none_iff.mp hItem
      rw [ih, List.drop_eq_nil_of_le hPast, List.drop_eq_nil_of_le (by omega)]
      simp
    | some item =>
      obtain ⟨hLess, rfl⟩ := List.getElem?_eq_some_iff.mp hItem
      rw [ih, List.drop_eq_getElem_cons hLess, List.take_succ_cons]

/-- Of a list without duplicates, what is kept is a run if exactly the items of the run are kept. -/
theorem filter_run {all front run back : List α} (hAll : all.Nodup) (hSplit : front ++ run ++ back = all) {p : α → Bool}
    (hRun : ∀ a ∈ all, p a = true ↔ a ∈ run) : all.filter p = run := by
  subst hSplit
  obtain ⟨hFront, hBack, hApart⟩ := List.nodup_append.mp hAll
  obtain ⟨-, -, hBefore⟩ := List.nodup_append.mp hFront
  have hNoFront : front.filter p = [] := by
    rw [List.filter_eq_nil_iff]
    intro a hMem hKept
    exact hBefore a hMem a ((hRun a (by simp [hMem])).mp hKept) rfl
  have hNoBack : back.filter p = [] := by
    rw [List.filter_eq_nil_iff]
    intro a hMem hKept
    exact hApart a (List.mem_append_right _ ((hRun a (by simp [hMem])).mp hKept)) a hMem rfl
  have hAllRun : run.filter p = run := by
    rw [List.filter_eq_self]
    exact fun a hMem => (hRun a (by simp [hMem])).mpr hMem
  rw [List.filter_append, List.filter_append, hNoFront, hNoBack, hAllRun, List.nil_append, List.append_nil]

variable [DecidableEq α]

/-- The items lie in a run if and only if their places do. -/
theorem places_perm_iff {all items : List α} (hAll : all.Nodup) (hItems : items ⊆ all) (lo : Nat) :
    (items.map all.idxOf).Perm (List.range' lo items.length) ↔ items.Perm ((all.drop lo).take items.length) := by
  constructor
  · intro h
    have hBack : ((items.map all.idxOf).filterMap fun i => all[i]?) = items := by
      rw [List.filterMap_map]
      have hEach : ∀ item ∈ items, ((fun i => all[i]?) ∘ all.idxOf) item = some item := by
        intro item hMem
        have hLess := List.idxOf_lt_length_iff.mpr (hItems hMem)
        rw [Function.comp_apply, List.getElem?_eq_getElem hLess, List.getElem_idxOf hLess]
      rw [List.filterMap_congr hEach, List.filterMap_some]
    have hPerm := h.filterMap fun i => all[i]?
    rwa [hBack, filterMap_range'] at hPerm
  · intro h
    have hLength : ((all.drop lo).take items.length).length = items.length := h.length_eq.symm
    have hPlaces : ((all.drop lo).take items.length).map all.idxOf = List.range' lo items.length := by
      apply List.ext_getElem
      · rw [List.length_map, List.length_range', hLength]
      · intro i hLeft hRight
        rw [List.getElem_map, List.getElem_take, List.getElem_drop, hAll.idxOf_getElem, List.getElem_range',
          Nat.one_mul]
    rw [← hPlaces]
    exact h.map _

theorem exists_run_iff {all items : List α} (hAll : all.Nodup) (hNodup : items.Nodup) (hItems : items ⊆ all) :
    (∃ lo, items.Perm ((all.drop lo).take items.length)) ↔
      all.filter (fun candidate => items.contains candidate) <:+: all := by
  constructor
  · rintro ⟨lo, hPerm⟩
    have hSplit : all.take lo ++ (all.drop lo).take items.length ++ (all.drop lo).drop items.length = all := by
      rw [List.append_assoc, List.take_append_drop, List.take_append_drop]
    have hRun : ∀ a ∈ all, items.contains a = true ↔ a ∈ (all.drop lo).take items.length := by
      intro a _
      rw [List.contains_iff_mem, hPerm.mem_iff]
    rw [filter_run hAll hSplit hRun]
    exact ⟨_, _, hSplit⟩
  · rintro ⟨front, back, hSplit⟩
    have hPerm : items.Perm (all.filter fun candidate => items.contains candidate) := by
      rw [List.perm_ext_iff_of_nodup hNodup (hAll.filter _)]
      intro a
      rw [List.mem_filter, List.contains_iff_mem]
      exact ⟨fun h => ⟨hItems h, h⟩, And.right⟩
    refine ⟨front.length, ?_⟩
    have hTake : (all.drop front.length).take items.length = all.filter fun candidate => items.contains candidate := by
      conv_lhs => rw [← hSplit]
      rw [List.append_assoc, List.drop_left, List.take_left' hPerm.length_eq.symm]
    rw [hTake]
    exact hPerm

end Runs

namespace ListSelection

variable {α : Type} [DecidableEq α]

/-! ## The gate of a replay -/

theorem idxOf?_eq (all : List α) (item : α) :
    all.idxOf? item = if item ∈ all then some (all.idxOf item) else none := by
  split
  next hMem =>
    obtain ⟨i, hFound⟩ := Option.isSome_iff_exists.mp (List.isSome_idxOf?.mpr hMem)
    rw [List.idxOf_eq_getD_idxOf?, hFound, Option.getD_some]
  next hOut => exact List.idxOf?_eq_none_iff.mpr hOut

theorem mapM_idxOf? (items all : List α) :
    (items.mapM fun item => all.idxOf? item) = if items ⊆ all then some (items.map all.idxOf) else none := by
  induction items with
  | nil => exact (if_pos (List.nil_subset all)).symm
  | cons item items ih =>
    simp only [List.mapM_cons, idxOf?_eq, List.cons_subset] at ih ⊢
    rw [ih]
    split
    next hMem =>
      simp only [hMem, true_and]
      split <;> rfl
    next hOut => simp [hOut]

theorem isContiguousIn_iff {s : ListSelection α} {all : List α} (hItems : s.items.Nodup) (hAll : all.Nodup) :
    s.isContiguousIn all = true ↔ s.items ≠ [] ∧ s.items ⊆ all ∧ s.orderedBy all <:+: all := by
  rw [isContiguousIn, mapM_idxOf?]
  split
  next hNone =>
    exact ⟨fun h => absurd h Bool.false_ne_true, fun h => absurd (List.isEmpty_iff.mp hNone) h.1⟩
  next hSome =>
    rw [List.isEmpty_iff] at hSome
    rw [and_iff_right hSome]
    split
    next hMissing =>
      split at hMissing
      next => cases hMissing
      next hOut => exact ⟨fun h => absurd h Bool.false_ne_true, fun h => absurd h.1 hOut⟩
    next indices hIndices =>
      split at hIndices
      next hIn =>
        obtain rfl := Option.some.inj hIndices
        rw [and_iff_right hIn, stepsByOne_sorted, List.length_map, orderedBy, ← exists_run_iff hAll hItems hIn]
        exact exists_congr fun lo => places_perm_iff hAll hIn lo
      next => cases hIndices

/-! ## What every gesture keeps -/

inductive Gesture (α : Type)
  | single (item : α)
  | toggle (item : α)
  | range (item : α) (visible : List α)
  | extend (delta : Int) (visible : List α)
  | selectAll (visible : List α)
  | collapseToAnchor
  | prune (names : List α)

/-- The list that a gesture is made in. -/
def Gesture.shown : Gesture α → List α
  | range _ visible | extend _ visible | selectAll visible => visible
  | _ => []

def apply (s : ListSelection α) : Gesture α → ListSelection α
  | .single item => single item
  | .toggle item => s.toggle item
  | .range item visible => s.range item visible
  | .extend delta visible => s.extendSelection delta visible
  | .selectAll visible => s.selectAll visible
  | .collapseToAnchor => s.collapseToAnchor
  | .prune names => (s.prunedSelection names).getD s

def run (gestures : List (Gesture α)) : ListSelection α := gestures.foldl apply {}

/-- Nothing is chosen twice, and while anything is chosen the anchor is one of the items. -/
structure Sound {α : Type} (s : ListSelection α) : Prop where
  nodup : s.items.Nodup
  empty : s.anchor = none ↔ s.items = []
  anchor : ∀ item, s.anchor = some item → item ∈ s.items

theorem sound_empty {α : Type} : Sound ({} : ListSelection α) where
  nodup := List.nodup_nil
  empty := ⟨fun _ => rfl, fun _ => rfl⟩
  anchor := nofun

theorem sound_of_mem {α : Type} {items : List α} {anchor : α} (hNodup : items.Nodup) (hMem : anchor ∈ items) :
    Sound { items, anchor := some anchor } where
  nodup := hNodup
  empty := ⟨nofun, fun hNone => absurd hNone (List.ne_nil_of_mem hMem)⟩
  anchor := by
    rintro _ ⟨⟩
    exact hMem

theorem sound_single {α : Type} (item : α) : Sound (single item) :=
  sound_of_mem (List.nodup_singleton item) List.mem_cons_self

theorem Sound.toggle {s : ListSelection α} (h : s.Sound) (item : α) : (s.toggle item).Sound := by
  rw [ListSelection.toggle]
  split
  next hNew =>
    have hOut : item ∉ s.items := by simpa using hNew
    apply sound_of_mem _ (List.mem_append_right _ List.mem_cons_self)
    exact List.nodup_append.mpr ⟨h.nodup, List.nodup_singleton item, by
      rintro a hMem b hLast rfl
      exact hOut (List.mem_singleton.mp hLast ▸ hMem)⟩
  next =>
    dsimp only
    split
    next => exact sound_empty
    next last hLast =>
      have hNodup : (s.items.filter (· ≠ item)).Nodup := h.nodup.filter _
      have hLastMem : last ∈ s.items.filter (· ≠ item) := List.mem_of_getLast? hLast
      split
      next => exact sound_of_mem hNodup hLastMem
      next hOther =>
        cases hAnchor : s.anchor with
        | none =>
          have hItems := h.empty.mp hAnchor
          rw [hItems] at hLastMem
          cases hLastMem
        | some anchor =>
          apply sound_of_mem hNodup
          rw [List.mem_filter, decide_eq_true_eq]
          exact ⟨h.anchor anchor hAnchor, fun hSame => hOther (hSame ▸ hAnchor)⟩

/-- The items from one place to another, whichever comes first. -/
def between {α : Type} (all : List α) (start end_ : Nat) : List α :=
  (all.drop (min start end_)).take (max start end_ + 1 - min start end_)

theorem between_sublist {α : Type} (all : List α) (start end_ : Nat) : (between all start end_).Sublist all :=
  (List.take_sublist _ _).trans (List.drop_sublist _ _)

theorem getElem?_between {α : Type} (all : List α) (start end_ i : Nat) :
    (between all start end_)[i]? = if min start end_ + i ≤ max start end_ then all[min start end_ + i]? else none := by
  rw [between, List.getElem?_take, List.getElem?_drop]
  congr 1
  rw [eq_iff_iff]
  omega

theorem range_eq {s : ListSelection α} {all : List α} {from_ item : α} {start end_ : Nat}
    (hAnchor : s.anchor = some from_) (hStart : all.idxOf? from_ = some start) (hEnd : all.idxOf? item = some end_) :
    s.range item all = { items := between all start end_, anchor := some from_ } := by
  simp only [range, hAnchor, hStart, hEnd, filterMap_range', between, Nat.min_def, Nat.max_def]

theorem mem_between {α : Type} {all : List α} {item : α} {start end_ : Nat} (hStart : all[start]? = some item) :
    item ∈ between all start end_ := by
  obtain ⟨hLess, rfl⟩ := List.getElem?_eq_some_iff.mp hStart
  have hRun : start - min start end_ < max start end_ + 1 - min start end_ := by omega
  have hPlace : (between all start end_)[start - min start end_]? = some all[start] := by
    rw [between, List.getElem?_take, if_pos hRun, List.getElem?_drop, Nat.add_sub_cancel' (Nat.min_le_left start end_),
      List.getElem?_eq_getElem hLess]
  exact List.mem_of_getElem? hPlace

theorem Sound.range (s : ListSelection α) (item : α) {all : List α} (hAll : all.Nodup) :
    (s.range item all).Sound := by
  cases hAnchor : s.anchor with
  | none =>
    rw [ListSelection.range, hAnchor]
    exact sound_single item
  | some from_ =>
    cases hStart : all.idxOf? from_ with
    | none =>
      simp only [ListSelection.range, hAnchor, hStart]
      exact sound_single item
    | some start =>
      cases hEnd : all.idxOf? item with
      | none =>
        simp only [ListSelection.range, hAnchor, hStart, hEnd]
        exact sound_single item
      | some end_ =>
        obtain ⟨hLess, hFrom, -⟩ := List.idxOf?_eq_some_iff.mp hStart
        rw [range_eq hAnchor hStart hEnd]
        exact sound_of_mem (hAll.sublist (between_sublist all start end_))
          (mem_between (by rw [List.getElem?_eq_getElem hLess, hFrom]))

theorem Sound.extendSelection {s : ListSelection α} (h : s.Sound) (delta : Int) {visible : List α}
    (hVisible : visible.Nodup) : (s.extendSelection delta visible).Sound := by
  cases visible with
  | nil => exact h
  | cons first rest =>
    simp only [ListSelection.extendSelection]
    split
    next =>
      split
      next => exact sound_single first
      next => exact Sound.range s _ hVisible
    next => exact sound_single first

theorem Sound.selectAll {s : ListSelection α} {all : List α} (hAll : all.Nodup) : (s.selectAll all).Sound := by
  cases all with
  | nil => exact sound_empty
  | cons first rest =>
    rw [ListSelection.selectAll]
    split
    next from_ _ =>
      split
      next hMem => exact sound_of_mem hAll (List.contains_iff_mem.mp hMem)
      next => exact sound_of_mem hAll List.mem_cons_self
    next => exact sound_of_mem hAll List.mem_cons_self

theorem Sound.collapseToAnchor {α : Type} (s : ListSelection α) : s.collapseToAnchor.Sound := by
  rw [ListSelection.collapseToAnchor]
  split
  next => exact sound_empty
  next from_ _ => exact sound_single from_

theorem Sound.prunedSelection {s pruned : ListSelection α} (h : s.Sound) {names : List α}
    (hPruned : s.prunedSelection names = some pruned) : pruned.Sound := by
  rw [ListSelection.prunedSelection] at hPruned
  split at hPruned
  next => cases hPruned
  next hFewer =>
    obtain rfl := Option.some.inj hPruned
    have hNodup : (s.items.filter fun name => names.contains name).Nodup := h.nodup.filter _
    cases hLast : (s.items.filter fun name => names.contains name).getLast? with
    | none =>
      rw [List.getLast?_eq_none_iff] at hLast
      simp only [hLast, List.isEmpty_nil, Bool.not_true, Bool.false_and, Bool.false_eq_true, if_false]
      cases s.anchor <;> exact sound_empty
    | some last =>
      have hLastMem := List.mem_of_getLast? hLast
      cases hAnchor : s.anchor with
      | none => exact sound_of_mem hNodup hLastMem
      | some anchor =>
        dsimp only
        split
        next hKept =>
          rw [Bool.and_eq_true] at hKept
          exact sound_of_mem hNodup (List.mem_filter.mpr ⟨h.anchor anchor hAnchor, hKept.2⟩)
        next => exact sound_of_mem hNodup hLastMem

theorem Sound.apply {s : ListSelection α} (h : s.Sound) (gesture : Gesture α) (hShown : gesture.shown.Nodup) :
    (s.apply gesture).Sound := by
  cases gesture with
  | single item => exact sound_single item
  | toggle item => exact h.toggle item
  | range item visible => exact Sound.range s item hShown
  | extend delta visible => exact h.extendSelection delta hShown
  | selectAll visible => exact Sound.selectAll hShown
  | collapseToAnchor => exact Sound.collapseToAnchor s
  | prune names =>
    change ((s.prunedSelection names).getD s).Sound
    cases hPruned : s.prunedSelection names with
    | none => exact h
    | some pruned => exact h.prunedSelection hPruned

/-- Whatever is clicked, in lists that change in between. -/
theorem sound_gestures {gestures : List (Gesture α)} (hShown : ∀ gesture ∈ gestures, gesture.shown.Nodup) :
    (run gestures).Sound := by
  rw [run]
  induction gestures using List.reverseRecOn with
  | nil => exact sound_empty
  | append_singleton gestures gesture ih =>
    rw [List.foldl_append]
    exact (ih fun g hMem => hShown g (List.mem_append_left _ hMem)).apply gesture
      (hShown gesture (List.mem_append_right _ List.mem_cons_self))

theorem sound_gestures_toggled :
    Sound (run [.single 1, .toggle 4, .range 2 [1, 2, 3, 4], .toggle 4, .prune [2, 3]]) :=
  sound_gestures (by simp [Gesture.shown])

/-- A replay is offered for a run of the list and for nothing else. -/
theorem isContiguousIn_run {gestures : List (Gesture α)} (hShown : ∀ gesture ∈ gestures, gesture.shown.Nodup)
    {all : List α} (hAll : all.Nodup) :
    (run gestures).isContiguousIn all = true ↔
      (run gestures).items ≠ [] ∧ (run gestures).items ⊆ all ∧ (run gestures).orderedBy all <:+: all :=
  isContiguousIn_iff (sound_gestures hShown).nodup hAll

theorem isContiguousIn_run_filtered :
    ListSelection.isContiguousIn (run [.single 4, .range 2 [1, 2, 4]]) [1, 2, 3, 4] = true ↔
      (run [.single 4, .range 2 [1, 2, 4]]).items ≠ [] ∧
        (run [.single 4, .range 2 [1, 2, 4]]).items ⊆ [1, 2, 3, 4] ∧
        (run [.single 4, .range 2 [1, 2, 4]]).orderedBy [1, 2, 3, 4] <:+: [1, 2, 3, 4] :=
  isContiguousIn_run (by simp [Gesture.shown]) (by decide)

/-! ## Shift with the mouse and with the keyboard -/

theorem orderedBy_between {all : List α} (hAll : all.Nodup) (start end_ : Nat) (anchor : Option α) :
    orderedBy { items := between all start end_, anchor } all = between all start end_ := by
  have hSplit : all.take (min start end_) ++ between all start end_ ++
      (all.drop (min start end_)).drop (max start end_ + 1 - min start end_) = all := by
    rw [between, List.append_assoc, List.take_append_drop, List.take_append_drop]
  exact filter_run hAll hSplit fun a _ => List.contains_iff_mem

theorem head?_between {α : Type} (all : List α) (start end_ : Nat) :
    (between all start end_).head? = all[min start end_]? := by
  rw [List.head?_eq_getElem?, getElem?_between, Nat.add_zero, if_pos (by omega)]

theorem getLast?_between {α : Type} {all : List α} {start end_ : Nat} (hStart : start < all.length)
    (hEnd : end_ < all.length) : (between all start end_).getLast? = all[max start end_]? := by
  have hLength : (between all start end_).length = max start end_ + 1 - min start end_ := by
    rw [between, List.length_take, List.length_drop]
    omega
  have hLast : min start end_ + (max start end_ + 1 - min start end_ - 1) = max start end_ := by omega
  rw [List.getLast?_eq_getElem?, hLength, getElem?_between, hLast, if_pos le_rfl]

/-- A step of Shift and an arrow, within the list. -/
def clamped (length free : Nat) (delta : Int) : Nat := (max 0 (min (free + delta) (length - 1))).toNat

theorem clamped_lt {length : Nat} (hLength : 0 < length) (free : Nat) (delta : Int) :
    clamped length free delta < length := by
  rw [clamped]
  omega

/-- The end that moves is found in the list, and the range is measured to where it stops. -/
theorem extendSelection_eq {s : ListSelection α} {all : List α} {anchor top bottom : α}
    (hAnchor : s.anchor = some anchor) (hMem : anchor ∈ all) (hTop : (s.orderedBy all).head? = some top)
    (hBottom : (s.orderedBy all).getLast? = some bottom) (delta : Int) :
    ∃ item, all[clamped all.length (all.idxOf (if top = anchor then bottom else top)) delta]? = some item ∧
      s.extendSelection delta all = s.range item all := by
  cases all with
  | nil => cases hMem
  | cons first rest =>
    have hNext := clamped_lt (Nat.succ_pos rest.length)
      ((first :: rest).idxOf (if top = anchor then bottom else top)) delta
    refine ⟨_, List.getElem?_eq_getElem hNext, ?_⟩
    rw [orderedBy] at hTop hBottom
    simp only [extendSelection, hAnchor, hTop, hBottom, List.contains_iff_mem.mpr hMem, Bool.not_true,
      Bool.false_eq_true, if_false]
    congr 1
    rw [List.getD_eq_getElem?_getD]
    change (first :: rest)[clamped _ _ _]?.getD first = _
    rw [List.getElem?_eq_getElem hNext, Option.getD_some]

theorem extendSelection_between {all : List α} (hAll : all.Nodup) {start free : Nat} {anchor : α}
    (hStart : all[start]? = some anchor) (hFree : free < all.length) (delta : Int) :
    extendSelection { items := between all start free, anchor := some anchor } delta all =
      { items := between all start (clamped all.length free delta), anchor := some anchor } := by
  obtain ⟨hStartLess, rfl⟩ := List.getElem?_eq_some_iff.mp hStart
  have hLow : min start free < all.length := by omega
  have hHigh : max start free < all.length := by omega
  have hTop : (between all start free).head? = some all[min start free] := by
    rw [head?_between, List.getElem?_eq_getElem hLow]
  have hBottom : (between all start free).getLast? = some all[max start free] := by
    rw [getLast?_between hStartLess hFree, List.getElem?_eq_getElem hHigh]
  rw [← orderedBy_between hAll start free (some all[start])] at hTop hBottom
  obtain ⟨item, hItem, hMoved⟩ := extendSelection_eq
    (s := { items := between all start free, anchor := some all[start] })
    rfl (List.getElem_mem hStartLess) hTop hBottom delta
  have hFreeEnd :
      all.idxOf (if all[min start free] = all[start] then all[max start free] else all[min start free]) = free := by
    split
    next hSame =>
      have hMin := hAll.getElem_inj_iff.mp hSame
      rw [hAll.idxOf_getElem]
      omega
    next hOther =>
      have hMin : min start free ≠ start := fun hSame => hOther (by simp only [hSame])
      rw [hAll.idxOf_getElem]
      omega
  rw [hFreeEnd] at hItem
  obtain ⟨hItemLess, rfl⟩ := List.getElem?_eq_some_iff.mp hItem
  rw [hMoved]
  apply range_eq rfl
  · rw [idxOf?_eq, if_pos (List.getElem_mem hStartLess), hAll.idxOf_getElem]
  · rw [idxOf?_eq, if_pos (List.getElem_mem hItemLess), hAll.idxOf_getElem]

inductive ShiftGesture (α : Type)
  | click (item : α)
  | arrow (delta : Int)

def ShiftGesture.inList (all : List α) : ShiftGesture α → Gesture α
  | click item => .range item all
  | arrow delta => .extend delta all

/-- Where the end that is not the anchor goes. -/
def freeEnd (all : List α) (free : Nat) : ShiftGesture α → Nat
  | .click item => all.idxOf item
  | .arrow delta => clamped all.length free delta

theorem freeEnd_lt {all : List α} {free : Nat} (hFree : free < all.length) {gesture : ShiftGesture α}
    (hClick : ∀ item, gesture = .click item → item ∈ all) : freeEnd all free gesture < all.length := by
  cases gesture with
  | click item => exact List.idxOf_lt_length_iff.mpr (hClick item rfl)
  | arrow delta => exact clamped_lt (Nat.zero_lt_of_lt hFree) free delta

theorem apply_shift {all : List α} (hAll : all.Nodup) {start free : Nat} {anchor : α}
    (hStart : all[start]? = some anchor) (hFree : free < all.length) {gesture : ShiftGesture α}
    (hClick : ∀ item, gesture = .click item → item ∈ all) :
    apply { items := between all start free, anchor := some anchor } (gesture.inList all) =
      { items := between all start (freeEnd all free gesture), anchor := some anchor } := by
  cases gesture with
  | click item =>
    obtain ⟨hLess, rfl⟩ := List.getElem?_eq_some_iff.mp hStart
    rw [ShiftGesture.inList, apply, freeEnd]
    apply range_eq rfl
    · rw [idxOf?_eq, if_pos (List.getElem_mem hLess), hAll.idxOf_getElem]
    · rw [idxOf?_eq, if_pos (hClick item rfl)]
  | arrow delta => exact extendSelection_between hAll hStart hFree delta

theorem foldl_shift {all : List α} (hAll : all.Nodup) {start free : Nat} {anchor : α}
    (hStart : all[start]? = some anchor) (hFree : free < all.length) {gestures : List (ShiftGesture α)}
    (hClicks : ∀ item, ShiftGesture.click item ∈ gestures → item ∈ all) :
    (gestures.map (ShiftGesture.inList all)).foldl apply { items := between all start free, anchor := some anchor } =
      { items := between all start (gestures.foldl (freeEnd all) free), anchor := some anchor } := by
  induction gestures generalizing free with
  | nil => rfl
  | cons gesture gestures ih =>
    have hClick : ∀ item, gesture = .click item → item ∈ all := by
      rintro item rfl
      exact hClicks item List.mem_cons_self
    rw [List.map_cons, List.foldl_cons, apply_shift hAll hStart hFree hClick, List.foldl_cons]
    exact ih (freeEnd_lt hFree hClick) fun item hMem => hClicks item (List.mem_cons_of_mem _ hMem)

theorem between_self {α : Type} {all : List α} {place : Nat} {item : α} (hItem : all[place]? = some item) :
    between all place place = [item] := by
  obtain ⟨hLess, rfl⟩ := List.getElem?_eq_some_iff.mp hItem
  rw [between, Nat.min_self, Nat.max_self, Nat.add_sub_cancel_left, List.drop_eq_getElem_cons hLess]
  rfl

/-- After a click, Shift with clicks and arrows in any order leaves the items from the one clicked to the free end. -/
theorem shift_run {all : List α} (hAll : all.Nodup) {item : α} (hItem : item ∈ all) {gestures : List (ShiftGesture α)}
    (hClicks : ∀ other, ShiftGesture.click other ∈ gestures → other ∈ all) (before : List (Gesture α)) :
    run (before ++ .single item :: gestures.map (ShiftGesture.inList all)) =
      { items := between all (all.idxOf item) (gestures.foldl (freeEnd all) (all.idxOf item))
        anchor := some item } := by
  have hLess := List.idxOf_lt_length_iff.mpr hItem
  have hPlace : all[all.idxOf item]? = some item := by rw [List.getElem?_eq_getElem hLess, List.getElem_idxOf hLess]
  have hSingle (s : ListSelection α) :
      s.apply (.single item) = { items := between all (all.idxOf item) (all.idxOf item), anchor := some item } := by
    rw [between_self hPlace]
    rfl
  rw [run, List.foldl_append, List.foldl_cons, hSingle]
  exact foldl_shift hAll hPlace hLess hClicks

theorem shift_run_swept :
    run [.toggle 3, .single 2, .range 4 [1, 2, 3, 4], .extend (-3) [1, 2, 3, 4], .extend (-9) [1, 2, 3, 4]] =
      { items := [1, 2], anchor := some 2 } :=
  @shift_run Nat _ [1, 2, 3, 4] (by decide) 2 (by decide) [.click 4, .arrow (-3), .arrow (-9)] (by simp) [.toggle 3]

/-! ## The two lists agree -/

theorem sorted_places {s : ListSelection α} (hItems : s.items.Nodup) {all : List α} (hAll : all.Nodup) :
    (((s.items.filter fun name => all.contains name).map all.idxOf).mergeSort fun a b => decide (a ≤ b)) =
      (s.orderedBy all).map all.idxOf := by
  have hPerm : (s.items.filter fun name => all.contains name).Perm (s.orderedBy all) := by
    rw [orderedBy, List.perm_ext_iff_of_nodup (hItems.filter _) (hAll.filter _)]
    intro a
    rw [List.mem_filter, List.mem_filter, List.contains_iff_mem, List.contains_iff_mem, and_comm]
  have hPlaces : all.map all.idxOf = List.range all.length := by
    apply List.ext_getElem
    · rw [List.length_map, List.length_range]
    · intro i hLeft hRight
      rw [List.getElem_map, hAll.idxOf_getElem, List.getElem_range]
  have hOrdered : ((s.orderedBy all).map all.idxOf).Pairwise (· ≤ ·) := by
    have hSub : ((s.orderedBy all).map all.idxOf).Sublist (List.range all.length) := by
      rw [← hPlaces]
      exact List.filter_sublist.map _
    exact List.pairwise_le_range.sublist hSub
  have hSorted := List.pairwise_mergeSort' (· ≤ ·) ((s.items.filter fun name => all.contains name).map all.idxOf)
  exact ((List.mergeSort_perm _ _).trans (hPerm.map _)).eq_of_pairwise' hSorted hOrdered

/-- Wherever the list of branches extends a selection, the list of commits extends it to the same rows. -/
theorem extendedSelection_eq {s : ListSelection α} (h : s.Sound) {all : List α} (hAll : all.Nodup) (delta : Int) :
    s.extendedSelection all delta =
      s.anchor.bind fun anchor => if anchor ∈ all then some (s.extendSelection delta all) else none := by
  cases hAnchor : s.anchor with
  | none => simp only [extendedSelection, hAnchor, Option.bind_none]
  | some anchor =>
    rw [Option.bind_some]
    split
    next hMem =>
      have hChosen : anchor ∈ s.orderedBy all :=
        List.mem_filter.mpr ⟨hMem, List.contains_iff_mem.mpr (h.anchor anchor hAnchor)⟩
      obtain ⟨top, hTop⟩ := Option.isSome_iff_exists.mp (List.isSome_head?.mpr (List.ne_nil_of_mem hChosen))
      obtain ⟨bottom, hBottom⟩ := Option.isSome_iff_exists.mp (List.getLast?_isSome.mpr (List.ne_nil_of_mem hChosen))
      obtain ⟨item, hItem, hExtended⟩ := extendSelection_eq hAnchor hMem hTop hBottom delta
      simp only [extendedSelection, hAnchor, idxOf?_eq, if_pos hMem, sorted_places h.nodup hAll, List.head?_map, hTop,
        List.getLast?_map, hBottom, Option.map_some]
      have hTopMem : top ∈ all := List.mem_of_mem_filter (List.mem_of_head? hTop)
      have hPlace : (if all.idxOf top = all.idxOf anchor then all.idxOf bottom else all.idxOf top) =
          all.idxOf (if top = anchor then bottom else top) := by
        simp only [List.idxOf_inj hTopMem, apply_ite all.idxOf]
      rw [hPlace]
      change all[clamped _ _ _]?.map _ = _
      rw [hItem, hExtended]
      rfl
    next hOut => simp only [extendedSelection, hAnchor, idxOf?_eq, if_neg hOut]

theorem extendedSelection_run {gestures : List (Gesture α)} (hShown : ∀ gesture ∈ gestures, gesture.shown.Nodup)
    {all : List α} (hAll : all.Nodup) (delta : Int) :
    (run gestures).extendedSelection all delta =
      (run gestures).anchor.bind fun anchor =>
        if anchor ∈ all then some ((run gestures).extendSelection delta all) else none :=
  extendedSelection_eq (sound_gestures hShown) hAll delta

theorem extendedSelection_run_toggled :
    (run [.single 3, .toggle 1]).extendedSelection [1, 2, 3, 4] 1 =
      some ((run [.single 3, .toggle 1]).extendSelection 1 [1, 2, 3, 4]) :=
  extendedSelection_run (by simp [Gesture.shown]) (by decide) 1

end ListSelection

end GitBranchManager
