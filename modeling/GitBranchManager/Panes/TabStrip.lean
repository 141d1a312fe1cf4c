import GitBranchManager.Base.Bytes
import GitBranchManager.Library.Decimal
import GitBranchManager.Library.Joined
import Mathlib.Data.List.Induction
import Mathlib.Data.List.Nodup
import Mathlib.Data.List.TakeWhile

/-! # The tabs of a repository

History and Working Copy are always there. A comparison is a new tab each time, a panel is opened once for each file or
once for the repository, and the panel of the worktrees cannot be closed.
-/

namespace GitBranchManager

open Library

inductive GbmPanelKind
  | manageStashes
  | manageWorktrees
  | manageRemotes
  | manageSubmodules
  | manageLfs
  | patches
  | interactiveRebase
  | bisect
  | reflog
  | blame
  | fileHistory
  | lineHistory
  deriving DecidableEq, Repr

namespace GbmPanelKind

def values : List GbmPanelKind :=
  [manageStashes, manageWorktrees, manageRemotes, manageSubmodules, manageLfs, patches, interactiveRebase, bisect,
    reflog, blame, fileHistory, lineHistory]

def slug : GbmPanelKind → Utf16
  | manageStashes => utf16 "stashes"
  | manageWorktrees => utf16 "worktrees"
  | manageRemotes => utf16 "remotes"
  | manageSubmodules => utf16 "submodules"
  | manageLfs => utf16 "lfs"
  | patches => utf16 "patches"
  | interactiveRebase => utf16 "interactive-rebase"
  | bisect => utf16 "bisect"
  | reflog => utf16 "reflog"
  | blame => utf16 "blame"
  | fileHistory => utf16 "file-history"
  | lineHistory => utf16 "line-history"

def isPerSubject (kind : GbmPanelKind) : Bool := kind == blame || kind == fileHistory || kind == lineHistory

def isPinned (kind : GbmPanelKind) : Bool := kind == manageWorktrees

/-- Only the panels about a file keep the file. -/
def normalized (kind : GbmPanelKind) (subject : Option Utf16) : Option Utf16 :=
  if kind.isPerSubject then subject else none

theorem find?_slug (kind : GbmPanelKind) : (values.find? fun other => other.slug == kind.slug) = some kind := by
  cases kind <;> decide

theorem slug_inj {kind other : GbmPanelKind} (h : kind.slug = other.slug) : kind = other := by
  have hFind := find?_slug other
  rw [← h, find?_slug kind] at hFind
  exact Option.some.inj hFind

end GbmPanelKind

structure PanelTabSpec where
  id : Utf16
  kind : GbmPanelKind
  subject : Option Utf16 := none
  deriving DecidableEq, Repr

structure PanelTabsNotifier where
  state : List PanelTabSpec := []
  nextId : Nat := 0
  deriving DecidableEq, Repr

def decimal (n : Nat) : Utf16 := (Decimal.numeral n).map UInt8.toUInt16

def panelTabId (kind : GbmPanelKind) (n : Nat) : Utf16 := kind.slug ++ utf16 "-" ++ decimal n

namespace PanelTabsNotifier

/-- A panel that is there already is given, not opened again. -/
def open_ (t : PanelTabsNotifier) (kind : GbmPanelKind) (subject : Option Utf16) : PanelTabsNotifier × Utf16 :=
  match t.state.find? fun tab => tab.kind == kind && tab.subject == kind.normalized subject with
  | some tab => (t, tab.id)
  | none =>
    let id := panelTabId kind t.nextId
    ({ state := t.state ++ [{ id, kind, subject := kind.normalized subject }], nextId := t.nextId + 1 }, id)

def close (t : PanelTabsNotifier) (id : Utf16) : PanelTabsNotifier :=
  match t.state.find? fun tab => tab.id == id with
  | some tab => if tab.kind.isPinned then t else { t with state := t.state.filter fun tab => tab.id != id }
  | none => t

def init : PanelTabsNotifier :=
  GbmPanelKind.values.foldl (fun t kind => if kind.isPinned then (t.open_ kind none).1 else t) {}

end PanelTabsNotifier

structure CompareTabSpec where
  id : Utf16
  left : Utf16
  /-- None is the working copy. -/
  right : Option Utf16 := none
  threeDot : Bool := true
  deriving DecidableEq, Repr

structure CompareTabsNotifier where
  state : List CompareTabSpec := []
  nextId : Nat := 0
  deriving DecidableEq, Repr

def compareTabId (n : Nat) : Utf16 := utf16 "compare-" ++ decimal n

namespace CompareTabsNotifier

def open_ (t : CompareTabsNotifier) (left : Utf16) (right : Option Utf16) (threeDot : Bool) :
    CompareTabsNotifier × Utf16 :=
  let id := compareTabId t.nextId
  ({ state := t.state ++ [{ id, left, right, threeDot }], nextId := t.nextId + 1 }, id)

def close (t : CompareTabsNotifier) (id : Utf16) : CompareTabsNotifier :=
  { t with state := t.state.filter fun tab => tab.id != id }

def updateRefs (t : CompareTabsNotifier) (id left : Utf16) (right : Option Utf16) (threeDot : Bool) :
    CompareTabsNotifier :=
  { t with state := t.state.map fun tab => if tab.id = id then { tab with left, right, threeDot } else tab }

end CompareTabsNotifier

/-- The key under which a panel's splitter is kept from one run of the program to the next. -/
def panelStorageId (kind : GbmPanelKind) (subject slot : Option Utf16) : Utf16 :=
  let id := utf16 "panel." ++ kind.slug
  let slotted :=
    match slot with
    | some slot => id ++ utf16 "." ++ slot
    | none => id
  match kind.normalized subject with
  | some subject => slotted ++ utf16 ":" ++ subject
  | none => slotted

/-! ## The strip and the location -/

/-- What is shown, a route by its parts; a panel can be entered with a query that its tab does not have. -/
inductive Location
  | history
  | workingCopy
  | compare (tabId : Utf16)
  | panel (tabId : Utf16) (query : List (Utf16 × Utf16))
  deriving DecidableEq, Repr

inductive WorkspaceTabKind
  | history
  | workingCopy
  | compare
  | panel
  deriving DecidableEq, Repr

structure WorkspaceTab where
  kind : WorkspaceTabKind
  route : Location
  closable : Bool := false
  deriving DecidableEq, Repr

def defaultWorkspaceTabs : List WorkspaceTab :=
  [{ kind := .history, route := .history }, { kind := .workingCopy, route := .workingCopy }]

def compareWorkspaceTab (spec : CompareTabSpec) : WorkspaceTab :=
  { kind := .compare, route := .compare spec.id, closable := true }

def panelWorkspaceTab (spec : PanelTabSpec) : WorkspaceTab :=
  { kind := .panel, route := .panel spec.id [], closable := !spec.kind.isPinned }

def activeWorkspaceTabIndex (tabs : List WorkspaceTab) (location : Location) : Nat :=
  (tabs.findIdx? fun tab => tab.route == location).getD 0

def nextWorkspaceTabRoute (tabs : List WorkspaceTab) (location : Location) : Location :=
  ((tabs[(activeWorkspaceTabIndex tabs location + 1) % tabs.length]?).map WorkspaceTab.route).getD location

structure Workspace where
  compareTabs : CompareTabsNotifier := {}
  panelTabs : PanelTabsNotifier := .init
  location : Location := .history
  deriving DecidableEq, Repr

namespace Workspace

variable (w : Workspace)

/-- The tabs that cannot be closed come first. -/
def ordered : List (WorkspaceTab × Option Utf16) :=
  let all :=
    defaultWorkspaceTabs.map (·, none) ++
      w.compareTabs.state.map (fun spec => (compareWorkspaceTab spec, some spec.id)) ++
      w.panelTabs.state.map fun spec => (panelWorkspaceTab spec, some spec.id)
  all.filter (fun e => !e.1.closable) ++ all.filter fun e => e.1.closable

def tabs : List WorkspaceTab := w.ordered.map Prod.fst

/-- View → Next tab goes round without the panels. -/
def nextTabs : List WorkspaceTab := defaultWorkspaceTabs ++ w.compareTabs.state.map compareWorkspaceTab

def closeCompareTab (id : Utf16) : Workspace :=
  { w with
    location := if w.location = .compare id then .history else w.location
    compareTabs := w.compareTabs.close id }

def closePanelTab (id : Utf16) : Workspace :=
  { w with
    location := if w.location = .panel id [] then .history else w.location
    panelTabs := w.panelTabs.close id }

/-- Ctrl/Cmd+W in the page that is shown. -/
def closeThisTab : Workspace :=
  match w.location with
  | .compare id =>
    if w.compareTabs.state.any fun tab => tab.id == id then
      { w with location := .history, compareTabs := w.compareTabs.close id }
    else w
  | .panel id _ =>
    match w.panelTabs.state.find? fun tab => tab.id == id with
    | some spec => if spec.kind.isPinned then w else { w with location := .history, panelTabs := w.panelTabs.close id }
    | none => w
  | _ => w

inductive Gesture
  | openCompareTab (left : Utf16) (right : Option Utf16) (threeDot : Bool)
  | openPanelTab (kind : GbmPanelKind) (subject : Option Utf16) (query : List (Utf16 × Utf16))
  | updateRefs (id left : Utf16) (right : Option Utf16) (threeDot : Bool)
  | tap (index : Nat)
  | close (index : Nat)
  | closeThisTab
  | viewHistory
  | viewWorkingCopy
  | viewNextTab

def apply : Gesture → Workspace
  | .openCompareTab left right threeDot =>
    let opened := w.compareTabs.open_ left right threeDot
    { w with compareTabs := opened.1, location := .compare opened.2 }
  | .openPanelTab kind subject query =>
    let opened := w.panelTabs.open_ kind subject
    { w with panelTabs := opened.1, location := .panel opened.2 query }
  | .updateRefs id left right threeDot => { w with compareTabs := w.compareTabs.updateRefs id left right threeDot }
  | .tap index =>
    match w.tabs[index]? with
    | some tab => { w with location := tab.route }
    | none => w
  | .close index =>
    match w.ordered[index]? with
    | some (tab, some id) =>
      if !tab.closable then w
      else
        match tab.kind with
        | .compare => w.closeCompareTab id
        | .panel => w.closePanelTab id
        | _ => w
    | _ => w
  | .closeThisTab => w.closeThisTab
  | .viewHistory => { w with location := .history }
  | .viewWorkingCopy => { w with location := .workingCopy }
  | .viewNextTab => { w with location := nextWorkspaceTabRoute w.nextTabs w.location }

def run (gestures : List Gesture) : Workspace := gestures.foldl apply {}

end Workspace

/-! ## Ids -/

theorem map_decimal (n : Nat) : (decimal n).map UInt16.toUInt8 = Decimal.numeral n := by
  simp [decimal, Function.comp_def]

theorem decimal_inj {n m : Nat} (h : decimal n = decimal m) : n = m := by
  have hNumeral := congrArg (List.map UInt16.toUInt8) h
  rw [map_decimal, map_decimal] at hNumeral
  rw [← Decimal.value_numeral n, hNumeral, Decimal.value_numeral]

theorem dash_notMem_decimal (n : Nat) : (0x2D : UInt16) ∉ decimal n := by
  intro hMem
  refine Decimal.not_mem_numeral n (b := (0x2D : UInt16).toUInt8) (by decide) ?_
  rw [← map_decimal]
  exact List.mem_map_of_mem hMem

theorem panelTabId_inj {kind other : GbmPanelKind} {n m : Nat} (h : panelTabId kind n = panelTabId other m) :
    kind = other ∧ n = m := by
  have hParts : kind.slug ++ (0x2D : UInt16) :: decimal n = other.slug ++ (0x2D : UInt16) :: decimal m := by
    simpa [panelTabId, utf16] using h
  obtain ⟨hSlug, hNumber⟩ := Joined.split_last (dash_notMem_decimal n) (dash_notMem_decimal m) hParts
  exact ⟨GbmPanelKind.slug_inj hSlug, decimal_inj hNumber⟩

theorem compareTabId_inj {n m : Nat} (h : compareTabId n = compareTabId m) : n = m :=
  decimal_inj (List.append_cancel_left h)

theorem dot_notMem_slug (kind : GbmPanelKind) : (0x2E : UInt16) ∉ kind.slug := by
  cases kind <;> decide

theorem colon_notMem_slug (kind : GbmPanelKind) : (0x3A : UInt16) ∉ kind.slug := by
  cases kind <;> decide

theorem panelStorageId_eq (kind : GbmPanelKind) (subject slot : Option Utf16) :
    panelStorageId kind subject slot =
      utf16 "panel." ++ (kind.slug ++ (slot.map ((0x2E : UInt16) :: ·)).getD [] ++
        ((kind.normalized subject).map ((0x3A : UInt16) :: ·)).getD []) := by
  unfold panelStorageId
  cases slot <;> cases kind.normalized subject <;> simp [utf16]

/-- Two splitters share a key only when they are the same one. -/
theorem panelStorageId_inj {kind other : GbmPanelKind} {subject subject' slot slot' : Option Utf16}
    (hSlot : ∀ text ∈ slot, (0x3A : UInt16) ∉ text) (hSlot' : ∀ text ∈ slot', (0x3A : UInt16) ∉ text)
    (h : panelStorageId kind subject slot = panelStorageId other subject' slot') :
    kind = other ∧ slot = slot' ∧ kind.normalized subject = other.normalized subject' := by
  rw [panelStorageId_eq, panelStorageId_eq] at h
  have hColon {kind : GbmPanelKind} {slot : Option Utf16} (hFree : ∀ text ∈ slot, (0x3A : UInt16) ∉ text) :
      (0x3A : UInt16) ∉ kind.slug ++ (slot.map ((0x2E : UInt16) :: ·)).getD [] := by
    rw [List.mem_append, not_or]
    refine ⟨colon_notMem_slug kind, ?_⟩
    cases slot with
    | none => simp
    | some text => simpa using hFree text rfl
  obtain ⟨hFront, hSubject⟩ := Joined.split_optional (hColon hSlot) (hColon hSlot') (List.append_cancel_left h)
  obtain ⟨hSlug, hSlots⟩ := Joined.split_optional (dot_notMem_slug kind) (dot_notMem_slug other) hFront
  exact ⟨GbmPanelKind.slug_inj hSlug, hSlots, hSubject⟩

/-! ## What one call does -/

namespace PanelTabsNotifier

theorem open_cases (t : PanelTabsNotifier) (kind : GbmPanelKind) (subject : Option Utf16) :
    (∃ tab ∈ t.state, tab.kind = kind ∧ tab.subject = kind.normalized subject ∧ t.open_ kind subject = (t, tab.id)) ∨
      ((∀ tab ∈ t.state, tab.kind = kind → tab.subject ≠ kind.normalized subject) ∧
        t.open_ kind subject =
          ({ state := t.state ++ [⟨panelTabId kind t.nextId, kind, kind.normalized subject⟩], nextId := t.nextId + 1 },
            panelTabId kind t.nextId)) := by
  unfold open_
  split
  next tab hFind =>
    have hTab := List.find?_some hFind
    rw [Bool.and_eq_true, beq_iff_eq, beq_iff_eq] at hTab
    exact Or.inl ⟨tab, List.mem_of_find?_eq_some hFind, hTab.1, hTab.2, rfl⟩
  next hNone =>
    refine Or.inr ⟨fun tab hMem hKind => ?_, rfl⟩
    simpa [hKind] using List.find?_eq_none.mp hNone tab hMem

theorem close_cases (t : PanelTabsNotifier) (id : Utf16) :
    ((∀ tab ∈ t.state, tab.id ≠ id) ∨ ∃ tab ∈ t.state, tab.id = id ∧ tab.kind.isPinned = true) ∧ t.close id = t ∨
      (∃ tab ∈ t.state, tab.id = id ∧ tab.kind.isPinned = false) ∧
        t.close id = { t with state := t.state.filter fun tab => tab.id != id } := by
  unfold close
  split
  next tab hFind =>
    have hMem := List.mem_of_find?_eq_some hFind
    have hId : tab.id = id := by simpa using List.find?_some hFind
    split
    next hPinned => exact Or.inl ⟨Or.inr ⟨tab, hMem, hId, hPinned⟩, rfl⟩
    next hUnpinned => exact Or.inr ⟨⟨tab, hMem, hId, Bool.eq_false_iff.mpr hUnpinned⟩, rfl⟩
  next hNone => exact Or.inl ⟨Or.inl (by simpa using List.find?_eq_none.mp hNone), rfl⟩

def worktreesTab : PanelTabSpec := { id := panelTabId .manageWorktrees 0, kind := .manageWorktrees }

theorem init_eq : init = { state := [worktreesTab], nextId := 1 } := by decide

/-- Every tab has an id and a panel of its own, and one of them is the panel of the worktrees. -/
structure Issued (t : PanelTabsNotifier) : Prop where
  ids : ∀ tab ∈ t.state, ∃ n < t.nextId, tab.id = panelTabId tab.kind n
  nodup : (t.state.map PanelTabSpec.id).Nodup
  subjects : (t.state.map fun tab => (tab.kind, tab.subject)).Nodup
  normalized : ∀ tab ∈ t.state, tab.kind.normalized tab.subject = tab.subject
  pinned : (t.state.filter fun tab => tab.kind.isPinned) = [worktreesTab]

variable {t : PanelTabsNotifier}

theorem issued_init : init.Issued := by
  rw [init_eq]
  refine ⟨?_, by simp, by simp, ?_, by decide⟩
  · simp only [List.mem_singleton, forall_eq]
    exact ⟨0, by decide, rfl⟩
  · simp only [List.mem_singleton, forall_eq]
    decide

theorem normalized_normalized (kind : GbmPanelKind) (subject : Option Utf16) :
    kind.normalized (kind.normalized subject) = kind.normalized subject := by
  unfold GbmPanelKind.normalized
  split <;> rfl

theorem Issued.fresh_id (issued : t.Issued) (kind : GbmPanelKind) :
    ∀ tab ∈ t.state, tab.id ≠ panelTabId kind t.nextId := by
  intro tab hMem hId
  obtain ⟨n, hLt, hIssued⟩ := issued.ids tab hMem
  obtain ⟨-, rfl⟩ := panelTabId_inj (hIssued.symm.trans hId)
  exact Nat.lt_irrefl _ hLt

theorem Issued.open_ (issued : t.Issued) (kind : GbmPanelKind) (subject : Option Utf16) :
    (t.open_ kind subject).1.Issued ∧
      (t.open_ kind subject).2 ∈ (t.open_ kind subject).1.state.map PanelTabSpec.id := by
  obtain ⟨tab, hMem, -, -, hSame⟩ | ⟨hNew, hOpened⟩ := t.open_cases kind subject
  · rw [hSame]
    exact ⟨issued, List.mem_map_of_mem hMem⟩
  · rw [hOpened]
    refine ⟨⟨fun tab hMem => ?_, ?_, ?_, fun tab hMem => ?_, ?_⟩, by simp⟩
    · obtain hOld | rfl : tab ∈ t.state ∨ tab = _ := by simpa using hMem
      · obtain ⟨n, hLt, hId⟩ := issued.ids tab hOld
        exact ⟨n, Nat.lt_succ_of_lt hLt, hId⟩
      · exact ⟨t.nextId, Nat.lt_succ_self _, rfl⟩
    · simpa [List.nodup_append] using ⟨issued.nodup, issued.fresh_id kind⟩
    · have hFresh : (kind, kind.normalized subject) ∉ t.state.map fun tab => (tab.kind, tab.subject) := by
        rintro hOld
        obtain ⟨tab, hMem, hPair⟩ := List.mem_map.mp hOld
        exact hNew tab hMem (Prod.mk.inj hPair).1 (Prod.mk.inj hPair).2
      rw [List.map_append, List.nodup_append]
      refine ⟨issued.subjects, by simp, fun pair hOld other hOther => ?_⟩
      obtain rfl : other = (kind, kind.normalized subject) := by simpa using hOther
      exact fun hEq => hFresh (hEq ▸ hOld)
    · obtain hOld | rfl : tab ∈ t.state ∨ tab = _ := by simpa using hMem
      · exact issued.normalized tab hOld
      · exact normalized_normalized kind subject
    · have hUnpinned : kind.isPinned = false := by
        by_contra hPinned
        obtain rfl : kind = .manageWorktrees := by simpa [GbmPanelKind.isPinned] using hPinned
        have hThere : worktreesTab ∈ t.state.filter fun tab => tab.kind.isPinned := by simp [issued.pinned]
        exact hNew worktreesTab (List.mem_of_mem_filter hThere) rfl rfl
      simp [List.filter_append, issued.pinned, hUnpinned]

theorem Issued.close (issued : t.Issued) (id : Utf16) : (t.close id).Issued := by
  obtain ⟨-, hSame⟩ | ⟨⟨closed, hClosed, rfl, hUnpinned⟩, hEq⟩ := t.close_cases id
  · rw [hSame]
    exact issued
  · rw [hEq]
    refine ⟨fun tab hMem => issued.ids tab (List.mem_of_mem_filter hMem), issued.nodup.sublist ?_,
      issued.subjects.sublist ?_, fun tab hMem => issued.normalized tab (List.mem_of_mem_filter hMem), ?_⟩
    · exact List.filter_sublist.map _
    · exact List.filter_sublist.map _
    · -- The tab that is closed has its id alone, and it is not the one of the worktrees.
      have hKept : ∀ tab ∈ t.state.filter fun tab => tab.kind.isPinned, (tab.id != closed.id) = true := by
        intro tab hMem
        rw [bne_iff_ne]
        intro hId
        obtain rfl : tab = closed :=
          List.inj_on_of_nodup_map issued.nodup (List.mem_of_mem_filter hMem) hClosed hId
        simp [hUnpinned] at hMem
      rw [List.filter_filter]
      simp only [Bool.and_comm]
      rw [← List.filter_filter, List.filter_eq_self.mpr hKept, issued.pinned]

end PanelTabsNotifier

namespace CompareTabsNotifier

structure Issued (t : CompareTabsNotifier) : Prop where
  ids : ∀ tab ∈ t.state, ∃ n < t.nextId, tab.id = compareTabId n
  nodup : (t.state.map CompareTabSpec.id).Nodup

variable {t : CompareTabsNotifier}

theorem Issued.fresh_id (issued : t.Issued) : ∀ tab ∈ t.state, tab.id ≠ compareTabId t.nextId := by
  intro tab hMem hId
  obtain ⟨n, hLt, hIssued⟩ := issued.ids tab hMem
  obtain rfl := compareTabId_inj (hIssued.symm.trans hId)
  exact Nat.lt_irrefl _ hLt

theorem Issued.open_ (issued : t.Issued) (left : Utf16) (right : Option Utf16) (threeDot : Bool) :
    (t.open_ left right threeDot).1.Issued ∧
      (t.open_ left right threeDot).2 ∈ (t.open_ left right threeDot).1.state.map CompareTabSpec.id := by
  refine ⟨⟨fun tab hMem => ?_, ?_⟩, by simp [CompareTabsNotifier.open_]⟩
  · obtain hOld | rfl : tab ∈ t.state ∨ tab = _ := by simpa [CompareTabsNotifier.open_] using hMem
    · obtain ⟨n, hLt, hId⟩ := issued.ids tab hOld
      exact ⟨n, Nat.lt_succ_of_lt hLt, hId⟩
    · exact ⟨t.nextId, Nat.lt_succ_self _, rfl⟩
  · simpa [CompareTabsNotifier.open_, List.nodup_append] using ⟨issued.nodup, issued.fresh_id⟩

theorem Issued.close (issued : t.Issued) (id : Utf16) : (t.close id).Issued :=
  ⟨fun tab hMem => issued.ids tab (List.mem_of_mem_filter hMem), issued.nodup.sublist (List.filter_sublist.map _)⟩

theorem map_id_updateRefs (t : CompareTabsNotifier) (id left : Utf16) (right : Option Utf16) (threeDot : Bool) :
    (t.updateRefs id left right threeDot).state.map CompareTabSpec.id = t.state.map CompareTabSpec.id := by
  rw [updateRefs, List.map_map]
  refine List.map_congr_left fun tab _ => ?_
  rw [Function.comp_apply]
  split <;> rfl

theorem Issued.updateRefs (issued : t.Issued) (id left : Utf16) (right : Option Utf16) (threeDot : Bool) :
    (t.updateRefs id left right threeDot).Issued := by
  refine ⟨fun tab hMem => ?_, (map_id_updateRefs t id left right threeDot).symm ▸ issued.nodup⟩
  have hId : tab.id ∈ t.state.map CompareTabSpec.id := by
    rw [← map_id_updateRefs t id left right threeDot]
    exact List.mem_map_of_mem hMem
  obtain ⟨old, hOld, hSame⟩ := List.mem_map.mp hId
  rw [← hSame]
  exact issued.ids old hOld

end CompareTabsNotifier

/-! ## The strip -/

namespace Workspace

variable {w : Workspace}

/-- The routes of the tabs, in another order than the strip's. -/
def routes (w : Workspace) : List Location :=
  .history :: .workingCopy ::
    ((w.compareTabs.state.map CompareTabSpec.id).map .compare ++
      (w.panelTabs.state.map PanelTabSpec.id).map (.panel · []))

theorem perm_routes (w : Workspace) : (w.tabs.map WorkspaceTab.route).Perm w.routes := by
  have hPerm := (List.filter_append_perm (fun e : WorkspaceTab × Option Utf16 => !e.1.closable)
    (defaultWorkspaceTabs.map (·, none) ++
      w.compareTabs.state.map (fun spec => (compareWorkspaceTab spec, some spec.id)) ++
      w.panelTabs.state.map fun spec => (panelWorkspaceTab spec, some spec.id))).map
    (fun e => e.1.route)
  simpa [tabs, ordered, routes, defaultWorkspaceTabs, compareWorkspaceTab, panelWorkspaceTab, Function.comp_def]
    using hPerm

/-- Every tab has an id of its own, and what is shown is a tab, or a panel that was entered with a query. -/
structure Sound (w : Workspace) : Prop where
  panels : w.panelTabs.Issued
  compares : w.compareTabs.Issued
  shown : w.location ∈ w.routes ∨ ∃ id query, query ≠ [] ∧ w.location = .panel id query

theorem sound_start : Sound {} :=
  ⟨PanelTabsNotifier.issued_init, ⟨by simp, by simp⟩, Or.inl (by simp [routes])⟩

theorem Sound.nodup_routes (sound : w.Sound) : w.routes.Nodup := by
  have hCompare : ((w.compareTabs.state.map CompareTabSpec.id).map Location.compare).Nodup :=
    sound.compares.nodup.map fun _ _ h => Location.compare.inj h
  have hPanel : ((w.panelTabs.state.map PanelTabSpec.id).map (Location.panel · [])).Nodup :=
    sound.panels.nodup.map fun _ _ h => (Location.panel.inj h).1
  simp only [routes, List.nodup_cons, List.nodup_append]
  refine ⟨by simp, by simp, hCompare, hPanel, ?_⟩
  intro a hLeft b hRight hSame
  obtain ⟨id, -, rfl⟩ := List.mem_map.mp hLeft
  obtain ⟨other, -, rfl⟩ := List.mem_map.mp hRight
  cases hSame

theorem mem_routes_of_tab {tab : WorkspaceTab} (hMem : tab ∈ w.tabs) : tab.route ∈ w.routes :=
  (perm_routes w).mem_iff.mp (List.mem_map_of_mem hMem)

def Listed (w : Workspace) : Location → Prop
  | .history | .workingCopy => True
  | .compare id => id ∈ w.compareTabs.state.map CompareTabSpec.id
  | .panel id query => query = [] ∧ id ∈ w.panelTabs.state.map PanelTabSpec.id

theorem mem_routes {location : Location} : location ∈ w.routes ↔ w.Listed location := by
  cases location with
  | history | workingCopy => simp [routes, Listed]
  | compare id => simp [routes, Listed]
  | panel id query =>
    simp only [routes, Listed, List.mem_cons, List.mem_append, List.mem_map]
    constructor
    · rintro (h | h | ⟨_, -, h⟩ | ⟨other, hOther, h⟩)
      · cases h
      · cases h
      · cases h
      · cases h
        exact ⟨rfl, hOther⟩
    · rintro ⟨rfl, hMem⟩
      exact Or.inr (Or.inr (Or.inr ⟨id, hMem, rfl⟩))

theorem mem_closed_compare {t : CompareTabsNotifier} {id other : Utf16}
    (hMem : other ∈ t.state.map CompareTabSpec.id) (hOther : other ≠ id) :
    other ∈ (t.close id).state.map CompareTabSpec.id := by
  obtain ⟨tab, hTab, rfl⟩ := List.mem_map.mp hMem
  exact List.mem_map_of_mem (List.mem_filter.mpr ⟨hTab, by simpa using hOther⟩)

theorem mem_closed_panel {t : PanelTabsNotifier} {id other : Utf16} (hMem : other ∈ t.state.map PanelTabSpec.id)
    (hOther : other ≠ id) : other ∈ (t.close id).state.map PanelTabSpec.id := by
  obtain ⟨-, hSame⟩ | ⟨-, hEq⟩ := t.close_cases id
  · rw [hSame]
    exact hMem
  · rw [hEq]
    obtain ⟨tab, hTab, rfl⟩ := List.mem_map.mp hMem
    exact List.mem_map_of_mem (List.mem_filter.mpr ⟨hTab, by simpa using hOther⟩)

theorem Sound.closeCompareTab (sound : w.Sound) (id : Utf16) : (w.closeCompareTab id).Sound := by
  refine ⟨sound.panels, sound.compares.close id, ?_⟩
  simp only [Workspace.closeCompareTab]
  split
  next => exact Or.inl (mem_routes.mpr trivial)
  next hElsewhere =>
    refine sound.shown.imp_left fun hShown => mem_routes.mpr ?_
    have hListed := mem_routes.mp hShown
    cases hLocation : w.location with
    | history | workingCopy => trivial
    | compare other =>
      rw [hLocation] at hListed hElsewhere
      exact mem_closed_compare hListed fun hSame => hElsewhere (congrArg Location.compare hSame)
    | panel other query =>
      rw [hLocation] at hListed
      exact hListed

theorem Sound.closePanelTab (sound : w.Sound) (id : Utf16) : (w.closePanelTab id).Sound := by
  refine ⟨sound.panels.close id, sound.compares, ?_⟩
  simp only [Workspace.closePanelTab]
  split
  next => exact Or.inl (mem_routes.mpr trivial)
  next hElsewhere =>
    refine sound.shown.imp_left fun hShown => mem_routes.mpr ?_
    have hListed := mem_routes.mp hShown
    cases hLocation : w.location with
    | history | workingCopy => trivial
    | compare other =>
      rw [hLocation] at hListed
      exact hListed
    | panel other query =>
      rw [hLocation] at hListed hElsewhere
      obtain ⟨rfl, hMem⟩ := hListed
      exact ⟨rfl, mem_closed_panel hMem fun hSame => hElsewhere (by rw [hSame])⟩

theorem Sound.closeThisTab (sound : w.Sound) : w.closeThisTab.Sound := by
  unfold Workspace.closeThisTab
  split
  next id hLocation =>
    split
    next => exact ⟨sound.panels, sound.compares.close id, Or.inl (mem_routes.mpr trivial)⟩
    next => exact sound
  next id query hLocation =>
    split
    next =>
      split
      next => exact sound
      next => exact ⟨sound.panels.close id, sound.compares, Or.inl (mem_routes.mpr trivial)⟩
    next => exact sound
  next => exact sound

theorem nextWorkspaceTabRoute_mem {tabs : List WorkspaceTab} (hSome : 0 < tabs.length) (location : Location) :
    ∃ tab ∈ tabs, nextWorkspaceTabRoute tabs location = tab.route := by
  have hLess := Nat.mod_lt (activeWorkspaceTabIndex tabs location + 1) hSome
  refine ⟨_, List.getElem_mem hLess, ?_⟩
  rw [nextWorkspaceTabRoute, List.getElem?_eq_getElem hLess]
  rfl

theorem mem_routes_of_nextTab {tab : WorkspaceTab} (hMem : tab ∈ w.nextTabs) : tab.route ∈ w.routes := by
  rw [nextTabs, defaultWorkspaceTabs, List.cons_append, List.cons_append, List.nil_append, List.mem_cons,
    List.mem_cons] at hMem
  obtain rfl | rfl | hMem := hMem
  · exact mem_routes.mpr trivial
  · exact mem_routes.mpr trivial
  · obtain ⟨spec, hSpec, rfl⟩ := List.mem_map.mp hMem
    exact mem_routes.mpr (List.mem_map_of_mem hSpec)

theorem Sound.apply (sound : w.Sound) (gesture : Gesture) : (w.apply gesture).Sound := by
  cases gesture with
  | openCompareTab left right threeDot =>
    obtain ⟨issued, hMem⟩ := sound.compares.open_ left right threeDot
    exact ⟨sound.panels, issued, Or.inl (mem_routes.mpr hMem)⟩
  | openPanelTab kind subject query =>
    obtain ⟨issued, hMem⟩ := sound.panels.open_ kind subject
    refine ⟨issued, sound.compares, ?_⟩
    by_cases hQuery : query = []
    · exact Or.inl (mem_routes.mpr ⟨hQuery, hMem⟩)
    · exact Or.inr ⟨_, query, hQuery, rfl⟩
  | updateRefs id left right threeDot =>
    refine ⟨sound.panels, sound.compares.updateRefs id left right threeDot, ?_⟩
    simpa only [Workspace.apply, routes, CompareTabsNotifier.map_id_updateRefs] using sound.shown
  | tap index =>
    simp only [Workspace.apply]
    split
    next tab hTab => exact ⟨sound.panels, sound.compares, Or.inl (mem_routes_of_tab (List.mem_of_getElem? hTab))⟩
    next => exact sound
  | close index =>
    simp only [Workspace.apply]
    split
    next tab id hTab =>
      split
      next => exact sound
      next =>
        split
        next => exact sound.closeCompareTab id
        next => exact sound.closePanelTab id
        next => exact sound
    next => exact sound
  | closeThisTab => exact sound.closeThisTab
  | viewHistory => exact ⟨sound.panels, sound.compares, Or.inl (mem_routes.mpr trivial)⟩
  | viewWorkingCopy => exact ⟨sound.panels, sound.compares, Or.inl (mem_routes.mpr trivial)⟩
  | viewNextTab =>
    have hSome : 0 < w.nextTabs.length := by simp [nextTabs, defaultWorkspaceTabs]
    obtain ⟨tab, hMem, hRoute⟩ := nextWorkspaceTabRoute_mem hSome w.location
    refine ⟨sound.panels, sound.compares, Or.inl ?_⟩
    simp only [Workspace.apply, hRoute]
    exact mem_routes_of_nextTab hMem

theorem run_append (before after : List Gesture) : run (before ++ after) = after.foldl Workspace.apply (run before) :=
  List.foldl_append

theorem sound_run (gestures : List Gesture) : (run gestures).Sound := by
  induction gestures using List.reverseRecOn with
  | nil => exact sound_start
  | append_singleton gestures gesture ih =>
    rw [run_append]
    exact ih.apply gesture

/-! ## What the strip shows -/

theorem active_of_mem {tabs : List WorkspaceTab} {location : Location} (hMem : location ∈ tabs.map WorkspaceTab.route) :
    (tabs[activeWorkspaceTabIndex tabs location]?).map WorkspaceTab.route = some location := by
  obtain ⟨tab, hTab, hRoute⟩ := List.mem_map.mp hMem
  cases hFind : tabs.findIdx? fun tab => tab.route == location with
  | none =>
    have hNone := List.findIdx?_eq_none_iff.mp hFind tab hTab
    simp [hRoute] at hNone
  | some i =>
    obtain ⟨hLess, hHere, -⟩ := List.findIdx?_eq_some_iff_getElem.mp hFind
    rw [activeWorkspaceTabIndex, hFind, Option.getD_some, List.getElem?_eq_getElem hLess, Option.map_some]
    exact congrArg some (by simpa using hHere)

/-- The tab that is marked is the one that is shown, unless a panel was entered with a query; no two tabs are alike. -/
theorem active_run (gestures : List Gesture) :
    ((run gestures).tabs.map WorkspaceTab.route).Nodup ∧
      (((run gestures).tabs[activeWorkspaceTabIndex (run gestures).tabs (run gestures).location]?).map
          WorkspaceTab.route = some (run gestures).location ∨
        ∃ id query, query ≠ [] ∧ (run gestures).location = .panel id query) := by
  have sound := sound_run gestures
  refine ⟨(perm_routes _).nodup_iff.mpr sound.nodup_routes, sound.shown.imp_left fun hShown => ?_⟩
  exact active_of_mem ((perm_routes _).mem_iff.mpr hShown)

-- The tab that is closed is compared with the location without its query, so the panel is still what is shown.
example :
    run [.openPanelTab .manageStashes none [(utf16 "select", utf16 "0")], .close 3] =
      { panelTabs := { state := [PanelTabsNotifier.worktreesTab], nextId := 2 }
        location := .panel (panelTabId .manageStashes 1) [(utf16 "select", utf16 "0")] } := by
  decide

def pinnedTab : WorkspaceTab × Option Utf16 :=
  (panelWorkspaceTab PanelTabsNotifier.worktreesTab, some PanelTabsNotifier.worktreesTab.id)

/-- History, Working Copy and the worktrees come first, then the comparisons and the other panels in their order. -/
theorem ordered_run (gestures : List Gesture) :
    (run gestures).ordered =
      defaultWorkspaceTabs.map (·, none) ++ pinnedTab ::
        ((run gestures).compareTabs.state.map (fun spec => (compareWorkspaceTab spec, some spec.id)) ++
          ((run gestures).panelTabs.state.filter fun spec => !spec.kind.isPinned).map fun spec =>
            (panelWorkspaceTab spec, some spec.id)) := by
  have hPinned := (sound_run gestures).panels.pinned
  simp [ordered, defaultWorkspaceTabs, compareWorkspaceTab, panelWorkspaceTab, List.filter_map, Function.comp_def,
    hPinned, pinnedTab]

/-! ## The panels of a run -/

/-- No two panels are the same, none shares its splitter with another, and the worktrees are there once. -/
theorem panels_run (gestures : List Gesture) :
    ((run gestures).panelTabs.state.map PanelTabSpec.id).Nodup ∧
      ((run gestures).panelTabs.state.map fun tab => (tab.kind, tab.subject)).Nodup ∧
      ((run gestures).panelTabs.state.map fun tab => panelStorageId tab.kind tab.subject none).Nodup ∧
      ((run gestures).panelTabs.state.filter fun tab => tab.kind.isPinned) = [PanelTabsNotifier.worktreesTab] := by
  have issued := (sound_run gestures).panels
  refine ⟨issued.nodup, issued.subjects, ?_, issued.pinned⟩
  refine issued.subjects.of_map.map_on fun tab hTab other hOther hSame => ?_
  obtain ⟨hKind, -, hSubject⟩ := panelStorageId_inj (by simp) (by simp) hSame
  rw [issued.normalized tab hTab, issued.normalized other hOther] at hSubject
  exact List.inj_on_of_nodup_map issued.subjects hTab hOther (Prod.ext hKind hSubject)

theorem panelTabs_closeThisTab (w : Workspace) :
    w.closeThisTab.panelTabs = w.panelTabs ∨ ∃ id, w.closeThisTab.panelTabs = w.panelTabs.close id := by
  unfold closeThisTab
  split
  next =>
    split
    next => exact Or.inl rfl
    next => exact Or.inl rfl
  next id query hLocation =>
    split
    next =>
      split
      next => exact Or.inl rfl
      next => exact Or.inr ⟨id, rfl⟩
    next => exact Or.inl rfl
  next => exact Or.inl rfl

theorem panelTabs_apply (w : Workspace) (gesture : Gesture) :
    (w.apply gesture).panelTabs = w.panelTabs ∨ (∃ id, (w.apply gesture).panelTabs = w.panelTabs.close id) ∨
      ∃ kind subject, (w.apply gesture).panelTabs = (w.panelTabs.open_ kind subject).1 := by
  cases gesture with
  | openCompareTab | updateRefs | viewHistory | viewWorkingCopy | viewNextTab => exact Or.inl rfl
  | openPanelTab kind subject query => exact Or.inr (Or.inr ⟨kind, subject, rfl⟩)
  | tap index =>
    simp only [Workspace.apply]
    split
    next => exact Or.inl rfl
    next => exact Or.inl rfl
  | close index =>
    simp only [Workspace.apply]
    split
    next tab id hTab =>
      split
      next => exact Or.inl rfl
      next =>
        split
        next => exact Or.inl rfl
        next => exact Or.inr (Or.inl ⟨id, rfl⟩)
        next => exact Or.inl rfl
    next => exact Or.inl rfl
  | closeThisTab => exact (panelTabs_closeThisTab w).imp_right Or.inl

/-- A panel that is new has a number that was not given before. -/
theorem new_panel_apply (w : Workspace) (gesture : Gesture) :
    w.panelTabs.nextId ≤ (w.apply gesture).panelTabs.nextId ∧
      ∀ tab ∈ (w.apply gesture).panelTabs.state,
        tab ∈ w.panelTabs.state ∨ ∃ n, w.panelTabs.nextId ≤ n ∧ tab.id = panelTabId tab.kind n := by
  obtain hSame | ⟨id, hClosed⟩ | ⟨kind, subject, hOpened⟩ := panelTabs_apply w gesture
  · rw [hSame]
    exact ⟨Nat.le_refl _, fun _ => Or.inl⟩
  · rw [hClosed]
    obtain ⟨-, hEq⟩ | ⟨-, hEq⟩ := w.panelTabs.close_cases id
    · rw [hEq]
      exact ⟨Nat.le_refl _, fun _ => Or.inl⟩
    · rw [hEq]
      exact ⟨Nat.le_refl _, fun _ hMem => Or.inl (List.mem_of_mem_filter hMem)⟩
  · rw [hOpened]
    obtain ⟨_, _, _, _, hEq⟩ | ⟨-, hEq⟩ := w.panelTabs.open_cases kind subject
    · rw [hEq]
      exact ⟨Nat.le_refl _, fun _ => Or.inl⟩
    · rw [hEq]
      refine ⟨Nat.le_succ _, fun tab hMem => ?_⟩
      obtain hOld | rfl : tab ∈ w.panelTabs.state ∨ tab = _ := by simpa using hMem
      · exact Or.inl hOld
      · exact Or.inr ⟨w.panelTabs.nextId, Nat.le_refl _, rfl⟩

theorem new_panel_foldl (w : Workspace) (gestures : List Gesture) :
    w.panelTabs.nextId ≤ (gestures.foldl apply w).panelTabs.nextId ∧
      ∀ tab ∈ (gestures.foldl apply w).panelTabs.state,
        tab ∈ w.panelTabs.state ∨ ∃ n, w.panelTabs.nextId ≤ n ∧ tab.id = panelTabId tab.kind n := by
  induction gestures using List.reverseRecOn with
  | nil => exact ⟨Nat.le_refl _, fun _ => Or.inl⟩
  | append_singleton gestures gesture ih =>
    rw [List.foldl_append]
    obtain ⟨hMono, hOld⟩ := ih
    obtain ⟨hStep, hNew⟩ := new_panel_apply (gestures.foldl apply w) gesture
    refine ⟨hMono.trans hStep, fun tab hMem => ?_⟩
    obtain hBefore | ⟨n, hLe, hId⟩ := hNew tab hMem
    · exact hOld tab hBefore
    · exact Or.inr ⟨n, hMono.trans hLe, hId⟩

/-- An id never comes to name another panel, also after its panel was closed. -/
theorem eq_of_panel_id_eq {before after : List Gesture} {tab old : PanelTabSpec}
    (hOld : old ∈ (run before).panelTabs.state) (hTab : tab ∈ (run (before ++ after)).panelTabs.state)
    (hId : tab.id = old.id) : tab = old := by
  have issued := (sound_run before).panels
  rw [run_append] at hTab
  obtain hBefore | ⟨n, hLe, hNew⟩ := (new_panel_foldl (run before) after).2 tab hTab
  · exact List.inj_on_of_nodup_map issued.nodup hBefore hOld hId
  · obtain ⟨m, hLt, hOldId⟩ := issued.ids old hOld
    obtain ⟨-, rfl⟩ := panelTabId_inj (hNew.symm.trans (hId.trans hOldId))
    exact absurd hLt (Nat.not_lt.mpr hLe)

theorem eq_of_panel_id_eq_worktrees :
    ∃ tab ∈ (run ([.openPanelTab .reflog none []] ++ [.closeThisTab, .close 2])).panelTabs.state,
      tab.id = panelTabId .manageWorktrees 0 ∧ tab = PanelTabsNotifier.worktreesTab :=
  ⟨PanelTabsNotifier.worktreesTab, by decide, rfl,
    eq_of_panel_id_eq
      (show PanelTabsNotifier.worktreesTab ∈ (run [.openPanelTab .reflog none []]).panelTabs.state by decide)
      (show PanelTabsNotifier.worktreesTab ∈
        (run ([.openPanelTab .reflog none []] ++ [.closeThisTab, .close 2])).panelTabs.state by decide) rfl⟩

/-! ## The next tab -/

theorem active_route {tabs : List WorkspaceTab} (hNodup : (tabs.map WorkspaceTab.route).Nodup) {i : Nat}
    (hLess : i < tabs.length) : activeWorkspaceTabIndex tabs tabs[i].route = i := by
  have hFind : tabs.findIdx? (fun tab => tab.route == tabs[i].route) = some i := by
    refine List.findIdx?_eq_some_iff_getElem.mpr ⟨hLess, by simp, fun j hBefore hSame => ?_⟩
    have hEq : tabs[j].route = tabs[i].route := by simpa using hSame
    have hPlace : j = i := by
      refine (List.getElem?_inj (by simpa using hBefore.trans hLess) hNodup).mp ?_
      simp [List.getElem?_eq_getElem hLess, List.getElem?_eq_getElem (hBefore.trans hLess), hEq]
    omega
  rw [activeWorkspaceTabIndex, hFind, Option.getD_some]

theorem Sound.nodup_nextTabs (sound : w.Sound) : (w.nextTabs.map WorkspaceTab.route).Nodup := by
  refine sound.nodup_routes.sublist ?_
  simp [nextTabs, routes, defaultWorkspaceTabs, compareWorkspaceTab, Function.comp_def]

/-- View → Next tab goes round History, Working Copy and the comparisons, and never shows a panel. -/
theorem next_run (gestures : List Gesture) (k : Nat) :
    some (run (gestures ++ List.replicate (k + 1) .viewNextTab)).location =
      ((run gestures).nextTabs[(activeWorkspaceTabIndex (run gestures).nextTabs (run gestures).location + (k + 1)) %
        (run gestures).nextTabs.length]?).map WorkspaceTab.route := by
  have hNodup := (sound_run gestures).nodup_nextTabs
  have hSome : 0 < (run gestures).nextTabs.length := by simp [nextTabs, defaultWorkspaceTabs]
  have hTabs (k : Nat) : (run (gestures ++ List.replicate k .viewNextTab)).nextTabs = (run gestures).nextTabs := by
    induction k with
    | zero => simp
    | succ k ih =>
      rw [List.replicate_succ', ← List.append_assoc, run_append]
      exact ih
  have hStep (k : Nat) : (run (gestures ++ List.replicate (k + 1) .viewNextTab)).location =
      nextWorkspaceTabRoute (run gestures).nextTabs (run (gestures ++ List.replicate k .viewNextTab)).location := by
    rw [List.replicate_succ', ← List.append_assoc, run_append, List.foldl_cons, List.foldl_nil, Workspace.apply,
      hTabs k]
  have hNext (location : Location) : some (nextWorkspaceTabRoute (run gestures).nextTabs location) =
      ((run gestures).nextTabs[(activeWorkspaceTabIndex (run gestures).nextTabs location + 1) %
        (run gestures).nextTabs.length]?).map WorkspaceTab.route := by
    rw [nextWorkspaceTabRoute, List.getElem?_eq_getElem (Nat.mod_lt _ hSome)]
    rfl
  induction k with
  | zero => rw [hStep 0, List.replicate_zero, List.append_nil, hNext]
  | succ k ih =>
    have hLess := Nat.mod_lt (activeWorkspaceTabIndex (run gestures).nextTabs (run gestures).location + (k + 1)) hSome
    rw [List.getElem?_eq_getElem hLess, Option.map_some, Option.some.injEq] at ih
    rw [hStep (k + 1), hNext, ih, active_route hNodup hLess, Nat.mod_add_mod, Nat.add_assoc]

end Workspace

end GitBranchManager
