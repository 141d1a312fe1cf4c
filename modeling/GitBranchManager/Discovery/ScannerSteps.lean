import GitBranchManager.Discovery.Scanner

/-! # What each step of a scan does

Each item owes the index what a walk from it would do. What has been done, what is waiting in the
batch and what the workers and the queue still owe come to the same at each step.
-/

namespace GitBranchManager

open Library

namespace Scan

variable (scan : Scan)

/-- What is found or touched at the item itself. -/
def ownEffects (item : WorkItem) : List IndexEffect :=
  if !scan.admits item then []
  else if scan.unchanged item then [.touch (scan.pathOf item)]
  else (scan.fs item.path).repo.toList.map fun repo => .upsert (scan.recordOf repo)

def expand (item : WorkItem) : List WorkItem :=
  if scan.admits item && !scan.unchanged item then scan.children item else []

/-- The levels below the item. -/
def rank (item : WorkItem) : Nat := (scan.baseFolder.maxDepth + 1 - item.depth).toNat

def walk (item : WorkItem) : List WorkItem := unfold scan.expand scan.rank item

def effectsBelow (item : WorkItem) : List IndexEffect := (scan.walk item).flatMap scan.ownEffects

theorem mem_children {item child : WorkItem} (h : child ∈ scan.children item) :
    (scan.fs item.path).repo = none ∧ ∃ entry ∈ (scan.fs item.path).entries,
      entry.isCloudPlaceholder = false ∧ entry.isLinkLike = false ∧
        child = { path := item.path ++ [entry.name], depth := item.depth + 1 } := by
  rw [children] at h
  split at h
  · cases h
  next hRepo =>
    obtain ⟨entry, hEntry, rfl⟩ := List.mem_map.mp h
    obtain ⟨hMem, hKept⟩ := List.mem_filter.mp hEntry
    rw [Bool.and_eq_true, Bool.not_eq_true', Bool.not_eq_true'] at hKept
    exact ⟨Option.not_isSome_iff_eq_none.mp hRepo, entry, hMem, hKept.1, hKept.2, rfl⟩

theorem mem_expand {item child : WorkItem} (h : child ∈ scan.expand item) :
    scan.admits item = true ∧ scan.unchanged item = false ∧ child ∈ scan.children item := by
  rw [expand] at h
  split at h
  next hBoth =>
    rw [Bool.and_eq_true, Bool.not_eq_true'] at hBoth
    exact ⟨hBoth.1, hBoth.2, h⟩
  · cases h

theorem depth_le {item : WorkItem} (h : scan.admits item = true) : (item.depth : Int) ≤ scan.baseFolder.maxDepth := by
  rw [admits, Bool.and_eq_true, Bool.not_eq_true', decide_eq_false_iff_not, Int.not_lt] at h
  exact h.1

theorem ranked : Ranked scan.expand scan.rank := by
  intro item child hChild
  obtain ⟨hAdmits, _, hIn⟩ := scan.mem_expand hChild
  obtain ⟨_, entry, _, _, _, rfl⟩ := scan.mem_children hIn
  have hDepth := scan.depth_le hAdmits
  change (scan.baseFolder.maxDepth + 1 - (item.depth + 1 : Nat)).toNat <
    (scan.baseFolder.maxDepth + 1 - item.depth).toNat
  omega

theorem named : Named scan.expand WorkItem.path := by
  constructor
  · intro item child hChild
    obtain ⟨_, _, hIn⟩ := scan.mem_expand hChild
    obtain ⟨_, entry, _, _, _, rfl⟩ := scan.mem_children hIn
    exact ⟨entry.name, rfl⟩
  · intro item
    rw [expand]
    split
    · rw [children]
      split
      · exact List.nodup_nil
      · have hApart : (scan.fs item.path).entries.Pairwise fun entry other => entry.name ≠ other.name :=
          List.pairwise_map.mp (scan.fs item.path).distinct
        rw [List.map_map, List.Nodup, List.pairwise_map]
        refine (hApart.filter _).imp fun hDiffer hSame => hDiffer ?_
        exact List.singleton_inj.mp (List.append_cancel_left hSame)
    · exact List.nodup_nil

theorem effectsBelow_eq (item : WorkItem) :
    scan.effectsBelow item = scan.ownEffects item ++ (scan.expand item).flatMap scan.effectsBelow := by
  rw [effectsBelow, walk, unfold_eq scan.ranked, List.flatMap_cons, List.flatMap_assoc]
  rfl

end Scan

/-- The ways through a step of a worker. -/
inductive ScanMove (scan : Scan) (s : ScannerState) :
    ScanWorker → ScanAction → ScannerState → ScanWorker → Prop
  | pop (item : WorkItem) (queue : List WorkItem) (hQueue : s.queue = item :: queue) :
      ScanMove scan s .polling .pop { s with queue, activeWorkers := s.activeWorkers + 1 } (.holding item)
  | sleep (hQueue : s.queue = []) (hBusy : s.activeWorkers ≠ 0) : ScanMove scan s .polling .sleep s .polling
  | exit (hQueue : s.queue = []) (hIdle : s.activeWorkers = 0) : ScanMove scan s .polling .exit s .exited
  | turnBack (item : WorkItem) (ok : Bool) (hCancelled : s.cancelled = true) :
      ScanMove scan s (.holding item) (.look ok) s .leaving
  | passOver (item : WorkItem) (ok : Bool) (hAdmits : scan.admits item = false) :
      ScanMove scan s (.holding item) (.look ok) s .releasing
  | touch (item : WorkItem) (hAdmits : scan.admits item = true) (hSame : scan.unchanged item = true) :
      ScanMove scan s (.holding item) (.look true) (scan.applyEffects s [.touch (scan.pathOf item)]) .releasing
  | touchFails (item : WorkItem) : ScanMove scan s (.holding item) (.look false) { s with failed := true } .leaving
  | enter (item : WorkItem) (ok : Bool) (hAdmits : scan.admits item = true) (hSame : scan.unchanged item = false)
      (hRepo : (scan.fs item.path).repo = none) : ScanMove scan s (.holding item) (.look ok) s (.listing item)
  | find (item : WorkItem) (ok : Bool) (repo : ClassifiedRepo) (next : ScanWorker) (hAdmits : scan.admits item = true)
      (hSame : scan.unchanged item = false) (hRepo : (scan.fs item.path).repo = some repo)
      (hNext : next = .flushing item ∨ next = .listing item) :
      ScanMove scan s (.holding item) (.look ok) { s with pending := s.pending ++ [scan.recordOf repo] } next
  | swapNone (item : WorkItem) (hPending : s.pending = []) :
      ScanMove scan s (.flushing item) .swap s (.listing item)
  | swap (item : WorkItem) :
      ScanMove scan s (.flushing item) .swap { s with pending := [] } (.committing item s.pending)
  | commit (item : WorkItem) (batch : List RepoRecord) :
      ScanMove scan s (.committing item batch) (.commit true) (scan.applyEffects s (batch.map .upsert)) (.listing item)
  | commitFails (item : WorkItem) (batch : List RepoRecord) :
      ScanMove scan s (.committing item batch) (.commit false) { s with failed := true } .leaving
  | list (item : WorkItem) :
      ScanMove scan s (.listing item) .list
        { s with
          queue := s.queue ++ scan.children item
          signatures := s.signatures ++ scan.signatureOf item }
        .releasing
  | release : ScanMove scan s .releasing .release { s with activeWorkers := s.activeWorkers - 1 } .polling
  | leave : ScanMove scan s .leaving .release { s with activeWorkers := s.activeWorkers - 1 } .exited
  | throws (worker : ScanWorker) (hActive : worker.isActive = true) :
      ScanMove scan s worker .throws { s with activeWorkers := s.activeWorkers - 1, failed := true } .exited

namespace Scan

variable {scan : Scan} {s s' m : ScannerState} {worker next : ScanWorker} {action : ScanAction}

theorem look_moves (item : WorkItem) (ok : Bool) :
    ScanMove scan s (.holding item) (.look ok) (scan.look s item ok).1 (scan.look s item ok).2 := by
  rw [look]
  split
  next hCancelled => exact .turnBack item ok hCancelled
  next =>
    split
    next hNot => exact .passOver item ok (by simpa using hNot)
    next hNot =>
      have hAdmits : scan.admits item = true := by simpa using hNot
      split
      next hSame =>
        cases ok with
        | true => exact .touch item hAdmits hSame
        | false => exact .touchFails item
      next hNot =>
        have hSame : scan.unchanged item = false := by simpa using hNot
        cases hRepo : (scan.fs item.path).repo with
        | none => exact .enter item ok hAdmits hSame hRepo
        | some repo =>
          refine .find item ok repo _ hAdmits hSame hRepo ?_
          dsimp only
          split
          · exact .inl rfl
          · exact .inr rfl

theorem act_moves (h : scan.act s worker action = some (m, next)) : ScanMove scan s worker action m next := by
  rw [act.eq_def] at h
  split at h
  next =>
    split at h
    · cases h
    next item queue hQueue =>
      cases h
      exact .pop item queue hQueue
  next =>
    split at h
    next hBoth =>
      cases h
      exact .sleep hBoth.1 hBoth.2
    · cases h
  next =>
    split at h
    next hBoth =>
      cases h
      exact .exit hBoth.1 hBoth.2
    · cases h
  next item ok =>
    have hLook : ScanMove scan s (.holding item) (.look ok) _ _ := look_moves item ok
    rwa [Option.some.inj h] at hLook
  next item =>
    cases hPending : s.pending with
    | nil =>
      rw [hPending] at h
      cases h
      have hSame : { s with pending := [] } = s := by rw [← hPending]
      rw [hSame]
      exact .swapNone item hPending
    | cons record pending =>
      rw [hPending] at h
      cases h
      have hSwap : ScanMove scan s (.flushing item) .swap { s with pending := [] } (.committing item s.pending) :=
        .swap item
      rwa [hPending] at hSwap
  next item batch ok =>
    cases ok with
    | true =>
      cases h
      exact .commit item batch
    | false =>
      cases h
      exact .commitFails item batch
  next item =>
    cases h
    exact .list item
  next =>
    cases h
    exact .release
  next =>
    cases h
    exact .leave
  next =>
    split at h
    next hActive =>
      cases h
      exact .throws worker hActive
    · cases h
  next => cases h

/-- A step of the scan cancels it or moves one worker. -/
theorem step_cases {event : ScanEvent} (h : scan.step s event = some s') :
    (event = .cancel ∧ s' = { s with cancelled := true }) ∨
    ∃ i action worker next m before after, event = .worker i action ∧ ScanMove scan s worker action m next ∧
      s.workers = before ++ worker :: after ∧ before.length = i ∧
      s' = { m with workers := before ++ next :: after } := by
  cases event with
  | cancel => exact .inl ⟨rfl, (Option.some.inj h).symm⟩
  | worker i action =>
    refine .inr ?_
    rw [step] at h
    split at h
    · cases h
    next worker hWorker =>
      obtain ⟨⟨m, next⟩, hAct, rfl⟩ := Option.map_eq_some_iff.mp h
      obtain ⟨hLt, hGet⟩ := List.getElem?_eq_some_iff.mp hWorker
      obtain ⟨before, after, hSplit, hLength, hSet⟩ : ∃ before after, s.workers = before ++ s.workers[i] :: after ∧
          before.length = i ∧ s.workers.set i next = before ++ next :: after := List.exists_of_set hLt
      have hMove := act_moves hAct
      have hSame : m.workers = s.workers := by cases hMove <;> rfl
      refine ⟨i, action, worker, next, m, before, after, rfl, hMove, hGet ▸ hSplit, hLength, ?_⟩
      rw [hSame, hSet]

end Scan

end GitBranchManager
