import GitBranchManager.Library.Positions
import GitBranchManager.Prunes.PrunePreviews

/-! # Prune previews belong to their asker

A remote has no more marks than automatic previews that are outstanding, as long as each of these
takes its own mark with it. The dialog is then answered by what it has asked for.
-/

namespace GitBranchManager

open Library

/-- A preview of the dialog that no automatic one overlaps shows its failure and prunes nothing. -/
def PreviewRecord.Attributed : PreviewRecord → Prop
  | .failed request overlapping error written => request.origin = .user → overlapping = 0 → written = some error
  | .replied request overlapping pruned => request.origin = .user → overlapping = 0 → pruned = []

/-- The error has the words of a dry run. -/
def ReportedError.isPreview (error : ReportedError) : Bool :=
  error.argv.contains "remote" && error.argv.contains "prune" && error.argv.contains "--dry-run"

namespace PrunePreviews

variable {globalArgs : List String} {s s' : PrunePreviews} {request : PreviewRequest} {remote : String}

/-- A mark that the automatic previews of the remote do not need. -/
def Spare (s : PrunePreviews) (remote : String) : Prop :=
  s.autoPrunePreviewsInFlight.count remote < s.automatic remote

/-- The first marked remote among the arguments of a command. -/
def markedArgument (s : PrunePreviews) (argv : List String) : Option String :=
  s.autoPrunePreviewsInFlight.keys.find? fun remote => argv.contains remote

/-- The arguments of a failed automatic preview lead to its own mark, those of the dialog's to none. -/
def AdmitsFailure (s : PrunePreviews) (request : PreviewRequest) (decodes : Bool) (error : ReportedError) : Prop :=
  match request.origin with
  | .automatic => decodes = true ∧ error.isPreview = true ∧ s.markedArgument error.argv = some request.remote ∨
    s.Spare request.remote
  | .user => s.automatic request.remote = 0 →
    decodes = true ∧ (error.isPreview = true → s.markedArgument error.argv = none)

/-- Every automatic preview takes a mark of its remote off, unless there are enough without it. -/
def Admits (globalArgs : List String) (s : PrunePreviews) : PreviewEvent → Prop
  | .remotePrunePreviewReady i decodes _ => ∀ request ∈ s.outstanding[i]?, request.origin = .automatic →
    decodes = true ∨ s.Spare request.remote
  | .previewFailed i decodes codeName message spawned => ∀ request ∈ s.outstanding[i]?,
    s.AdmitsFailure request decodes (previewError globalArgs request.remote codeName message spawned)
  | _ => True

/-- What the handlers of replies and errors leave alone. No mark is added. -/
structure Frame (s handled : PrunePreviews) : Prop where
  outstanding : handled.outstanding = s.outstanding
  log : handled.log = s.log
  remoteNames : handled.remoteNames = s.remoteNames
  marks : ∀ remote, handled.autoPrunePreviewsInFlight.count remote ≤ s.autoPrunePreviewsInFlight.count remote

structure Counted (s : PrunePreviews) : Prop where
  marks : ∀ remote, s.autoPrunePreviewsInFlight.count remote ≤ s.automatic remote
  attributed : ∀ record ∈ s.log, record.Attributed

section Marks

theorem marks_consume (s : PrunePreviews) (remote other : String) :
    (s.consumeAutoPrunePreview remote).2.autoPrunePreviewsInFlight.count other =
      s.autoPrunePreviewsInFlight.count other - if other = remote then 1 else 0 := by
  rw [consumeAutoPrunePreview]
  split
  next hNone =>
    rw [Tally.take?_eq_none] at hNone
    split
    next hIs => rw [hIs, hNone]
    next => rfl
  next hSome => exact Tally.count_of_take? hSome other

theorem consume_of_unmarked (h : s.autoPrunePreviewsInFlight.count remote = 0) :
    s.consumeAutoPrunePreview remote = (false, s) := by
  rw [consumeAutoPrunePreview, (Tally.take?_eq_none _ _).mpr h]

theorem marks_handlePreview (s : PrunePreviews) (preview : RemotePrunePreview) :
    (s.handlePreview preview).2.autoPrunePreviewsInFlight =
      (s.consumeAutoPrunePreview preview.remote).2.autoPrunePreviewsInFlight := by
  rw [handlePreview]
  dsimp only
  split
  · rw [autoPruneUnclaimedRefs]
    split
    · rfl
    · rfl
  · rfl

theorem pruned_of_unmarked {preview : RemotePrunePreview}
    (h : s.autoPrunePreviewsInFlight.count preview.remote = 0) : (s.handlePreview preview).1 = [] := by
  rw [handlePreview, consume_of_unmarked h]
  rfl

theorem suppressedRemote_eq (s : PrunePreviews) (error : ReportedError) :
    s.suppressedRemote error = if error.isPreview then s.markedArgument error.argv else none := by
  rw [suppressedRemote, ReportedError.isPreview, ← Bool.not_and, ← Bool.not_and]
  cases error.argv.contains "remote" && error.argv.contains "prune" && error.argv.contains "--dry-run" with
  | true => rfl
  | false => rfl

theorem written_of_unsuppressed {error : ReportedError} (hNone : s.suppressedRemote error = none)
    (hCode : error.codeName ≠ "NotCancellable") : (s.handleError error).1 = some error := by
  have hOther : (error.codeName == "NotCancellable") = false := beq_eq_false_iff_ne.mpr hCode
  rw [handleError, hNone, hOther]
  rfl

theorem handleError_some {error : ReportedError} (h : s.suppressedRemote error = some remote) :
    (s.handleError error).2 = (s.consumeAutoPrunePreview remote).2 := by
  rw [handleError, h]

theorem frame_self (s : PrunePreviews) : Frame s s := ⟨rfl, rfl, rfl, fun _ => Nat.le_refl _⟩

theorem frame_consume (s : PrunePreviews) (remote : String) : Frame s (s.consumeAutoPrunePreview remote).2 := by
  have hMarks (other : String) := marks_consume s remote other
  rw [consumeAutoPrunePreview] at hMarks ⊢
  split
  next => exact frame_self s
  next autoPrunePreviewsInFlight hSome =>
    rw [hSome] at hMarks
    exact ⟨rfl, rfl, rfl, fun other => Nat.le_trans (Nat.le_of_eq (hMarks other)) (Nat.sub_le _ _)⟩

theorem frame_handlePreview (s : PrunePreviews) (preview : RemotePrunePreview) :
    Frame s (s.handlePreview preview).2 := by
  have hFrame := frame_consume s preview.remote
  rw [handlePreview]
  dsimp only
  split
  · rw [autoPruneUnclaimedRefs]
    split
    · exact ⟨hFrame.outstanding, hFrame.log, hFrame.remoteNames, hFrame.marks⟩
    · exact ⟨hFrame.outstanding, hFrame.log, hFrame.remoteNames, hFrame.marks⟩
  · exact ⟨hFrame.outstanding, hFrame.log, hFrame.remoteNames, hFrame.marks⟩

theorem frame_handleError (s : PrunePreviews) (error : ReportedError) : Frame s (s.handleError error).2 := by
  cases h : s.suppressedRemote error with
  | none =>
    rw [handleError, h]
    dsimp only
    split
    · exact ⟨rfl, rfl, rfl, fun _ => Nat.le_refl _⟩
    · exact ⟨rfl, rfl, rfl, fun _ => Nat.le_refl _⟩
  | some remote =>
    rw [handleError_some h]
    exact frame_consume s remote

end Marks

/-- An answered preview is outstanding no more. -/
theorem count_outstanding {i : Nat} (h : s.outstanding[i]? = some request) (other : PreviewRequest) :
    s.outstanding.count other = (s.outstanding.eraseIdx i).count other + if request = other then 1 else 0 := by
  rw [List.count_eq_countP, List.count_eq_countP, countP_eraseIdx h]
  simp only [beq_iff_eq]

theorem counted_start : Counted {} := ⟨fun _ => Nat.zero_le _, fun _ hNone => absurd hNone List.not_mem_nil⟩

theorem counted_previewAfterFetch (h : Counted s) (remote : String) : Counted (s.previewAfterFetch remote) where
  marks other := by
    have hMarks := h.marks other
    rw [automatic] at hMarks ⊢
    simp only [previewAfterFetch, requestPreview, Tally.count_add, List.count_append, List.count_singleton]
    split
    next hIs =>
      subst hIs
      simpa using hMarks
    next => omega
  attributed := h.attributed

theorem counted_fetch (h : Counted s) (remotes : List String) : Counted (remotes.foldl previewAfterFetch s) := by
  induction remotes generalizing s with
  | nil => exact h
  | cons remote remotes ih => exact ih (counted_previewAfterFetch h remote)

/-- What an answer leaves, whichever it is. -/
theorem counted_answer (h : Counted s) {i : Nat} (hAt : s.outstanding[i]? = some request) {handled : PrunePreviews}
    {record : PreviewRecord}
    (hFrame : Frame s handled)
    (hOwn : request.origin = .automatic →
      handled.autoPrunePreviewsInFlight.count request.remote < s.autoPrunePreviewsInFlight.count request.remote ∨
        s.autoPrunePreviewsInFlight.count request.remote = 0 ∨ s.Spare request.remote)
    (hRecord : record.Attributed) :
    Counted { handled with outstanding := s.outstanding.eraseIdx i, log := record :: s.log } where
  marks other := by
    have hMarks := h.marks other
    have hHandled := hFrame.marks other
    have hCount := count_outstanding hAt { origin := .automatic, remote := other }
    change handled.autoPrunePreviewsInFlight.count other ≤
      (s.outstanding.eraseIdx i).count { origin := .automatic, remote := other }
    rw [automatic] at hMarks
    split at hCount
    next hIs =>
      subst hIs
      have hOwn := hOwn rfl
      rw [Spare, automatic] at hOwn
      dsimp only at hOwn
      omega
    next => omega
  attributed := List.forall_mem_cons.mpr ⟨hRecord, h.attributed⟩

theorem counted_ready (h : Counted s) {i : Nat} (hAt : s.outstanding[i]? = some request) (decodes : Bool)
    (refs : List String) (hAdmits : request.origin = .automatic → decodes = true ∨ s.Spare request.remote)
    {answer : List String × PrunePreviews}
    (hAnswer : answer = if decodes then s.handlePreview { remote := request.remote, refs } else ([], s)) :
    Counted { answer.2 with
      outstanding := s.outstanding.eraseIdx i
      log := .replied request (s.automatic request.remote) answer.1 :: s.log } := by
  cases decodes with
  | false =>
    obtain rfl : answer = ([], s) := hAnswer
    refine counted_answer h hAt (frame_self s) (fun hOrigin => ?_) fun _ _ => rfl
    exact .inr (.inr ((hAdmits hOrigin).resolve_left Bool.false_ne_true))
  | true =>
    obtain rfl : answer = s.handlePreview { remote := request.remote, refs } := hAnswer
    refine counted_answer h hAt (frame_handlePreview s _) (fun _ => ?_) fun _ hNone => ?_
    · rw [marks_handlePreview, marks_consume, if_pos rfl]
      omega
    · have hLess := h.marks request.remote
      rw [hNone] at hLess
      exact pruned_of_unmarked (Nat.eq_zero_of_le_zero hLess)

theorem counted_failed (h : Counted s) {i : Nat} (hAt : s.outstanding[i]? = some request) (decodes : Bool)
    {error : ReportedError} (hCode : error.codeName ≠ "NotCancellable")
    (hAdmits : s.AdmitsFailure request decodes error)
    {answer : Option ReportedError × PrunePreviews}
    (hAnswer : answer = if decodes then s.handleError error else (none, s)) :
    Counted { answer.2 with
      outstanding := s.outstanding.eraseIdx i
      log := .failed request (s.automatic request.remote) error answer.1 :: s.log } := by
  rw [AdmitsFailure] at hAdmits
  refine counted_answer h hAt ?_ (fun hOrigin => ?_) fun hOrigin hNone => ?_
  · rw [hAnswer]
    split
    · exact frame_handleError s error
    · exact frame_self s
  · rw [hOrigin] at hAdmits
    rcases hAdmits with ⟨rfl, hPreview, hMarked⟩ | hSpare
    · have hOwn : s.suppressedRemote error = some request.remote := by
        rw [suppressedRemote_eq, if_pos hPreview, hMarked]
      rw [hAnswer, if_pos rfl, handleError_some hOwn, marks_consume, if_pos rfl]
      omega
    · exact .inr (.inr hSpare)
  · rw [hOrigin] at hAdmits
    obtain ⟨rfl, hUnmarked⟩ := hAdmits hNone
    have hUnsuppressed : s.suppressedRemote error = none := by
      rw [suppressedRemote_eq]
      exact ite_eq_right_iff.mpr hUnmarked
    rw [hAnswer, if_pos rfl]
    exact written_of_unsuppressed hUnsuppressed hCode

theorem counted_step (h : Counted s) {event : PreviewEvent} (hAdmits : Admits globalArgs s event)
    (hStep : s.step globalArgs event = some s') : Counted s' := by
  cases event with
  | fetchFinished fetchedRemote background refsMoved =>
    rw [step] at hStep
    split at hStep
    · obtain rfl := Option.some.inj hStep
      exact h
    · obtain rfl := Option.some.inj hStep
      exact counted_fetch h _
  | requestRemotePrunePreview remote =>
    obtain rfl := Option.some.inj hStep
    refine ⟨fun other => Nat.le_trans (h.marks other) ?_, h.attributed⟩
    exact (List.sublist_append_left _ _).count_le _
  | remotePrunePreviewReady i decodes refs =>
    obtain ⟨request, hAt, rfl⟩ := Option.map_eq_some_iff.mp hStep
    exact counted_ready h hAt decodes refs (hAdmits request hAt) rfl
  | previewFailed i decodes codeName message spawned =>
    obtain ⟨hCode, hStep⟩ := Option.ite_none_left_eq_some.mp hStep
    obtain ⟨request, hAt, rfl⟩ := Option.map_eq_some_iff.mp hStep
    exact counted_failed h hAt decodes hCode (hAdmits request hAt) rfl
  | errorOccurred error =>
    obtain rfl := Option.some.inj hStep
    have hFrame := frame_handleError s error
    refine ⟨fun other => ?_, hFrame.log ▸ h.attributed⟩
    rw [automatic, hFrame.outstanding]
    exact Nat.le_trans (hFrame.marks other) (h.marks other)
  | autoFetchCancelRefused | readRefs _ _ | clearError =>
    obtain rfl := Option.some.inj hStep
    exact ⟨h.marks, h.attributed⟩

section Plain

/-- A name that no other argument of the command can be taken for. -/
def plainName (globalArgs : List String) (remote : String) : Bool :=
  !(globalArgs ++ ["remote", "prune", "--dry-run"]).contains remote

/-- Fetches of plain names, and answers that can be read and tell their command. -/
def plain (globalArgs : List String) : PreviewEvent → Bool
  | .fetchFinished fetchedRemote _ _ => fetchedRemote == "" || plainName globalArgs fetchedRemote
  | .readRefs remoteNames _ => remoteNames.all (plainName globalArgs)
  | .remotePrunePreviewReady _ decodes _ => decodes
  | .previewFailed _ decodes _ _ spawned => decodes && spawned
  | _ => true

structure PlainMarks (globalArgs : List String) (s : PrunePreviews) : Prop extends Counted s where
  names : ∀ remote ∈ s.remoteNames, plainName globalArgs remote = true
  marked : ∀ remote, 0 < s.autoPrunePreviewsInFlight.count remote → plainName globalArgs remote = true

theorem eq_of_mem_command {other : String} (hPlain : plainName globalArgs other = true)
    (hMem : other ∈ previewCommand globalArgs remote) : other = remote := by
  simp only [plainName, List.contains_eq_mem, List.mem_append, List.mem_cons, List.not_mem_nil, or_false,
    Bool.not_eq_true', decide_eq_false_iff_not, not_or] at hPlain
  simp only [previewCommand, List.mem_append, List.mem_cons, List.not_mem_nil, or_false] at hMem
  obtain ⟨hGlobal, hFirst, hSecond, hLast⟩ := hPlain
  rcases hMem with hMem | hMem | hMem | hMem | hMem
  · exact absurd hMem hGlobal
  · exact absurd hMem hFirst
  · exact absurd hMem hSecond
  · exact hMem
  · exact absurd hMem hLast

theorem isPreview_command (remote codeName message : String) :
    (previewError globalArgs remote codeName message true).isPreview = true := by
  simp [ReportedError.isPreview, previewError, previewCommand]

/-- The one marked remote that a command can lead to is its own. -/
theorem markedArgument_plain (h : PlainMarks globalArgs s) (remote : String) :
    s.markedArgument (previewCommand globalArgs remote) =
      if 0 < s.autoPrunePreviewsInFlight.count remote then some remote else none := by
  rw [markedArgument]
  have hOnly {other : String} (hKey : other ∈ s.autoPrunePreviewsInFlight.keys)
      (hIn : (previewCommand globalArgs remote).contains other = true) : other = remote :=
    eq_of_mem_command (h.marked other ((Tally.mem_keys _ _).mp hKey)) (List.contains_iff_mem.mp hIn)
  split
  next hMarked =>
    have hOwn : (previewCommand globalArgs remote).contains remote = true := by simp [previewCommand]
    let isArgument (other : String) : Bool := (previewCommand globalArgs remote).contains other
    cases hFind : s.autoPrunePreviewsInFlight.keys.find? isArgument with
    | none => exact absurd hOwn (List.find?_eq_none.mp hFind remote ((Tally.mem_keys _ _).mpr hMarked))
    | some other => rw [hOnly (List.mem_of_find?_eq_some hFind) (List.find?_some hFind)]
  next hUnmarked =>
    refine List.find?_eq_none.mpr fun other hKey hIn => hUnmarked ?_
    exact hOnly hKey hIn ▸ (Tally.mem_keys _ _).mp hKey

theorem admits_of_plain (h : PlainMarks globalArgs s) {event : PreviewEvent} (hPlain : plain globalArgs event = true) :
    Admits globalArgs s event := by
  cases event with
  | remotePrunePreviewReady i decodes refs => exact fun _ _ _ => .inl hPlain
  | previewFailed i decodes codeName message spawned =>
    intro request hAt
    obtain ⟨rfl, rfl⟩ := Bool.and_eq_true_iff.mp hPlain
    have hArgument := markedArgument_plain h request.remote
    have hMarks := h.marks request.remote
    rw [AdmitsFailure]
    cases hOrigin : request.origin with
    | automatic =>
      have hOutstanding : 0 < s.automatic request.remote := by
        refine List.count_pos_iff.mpr ?_
        rw [← hOrigin]
        exact List.mem_of_getElem? hAt
      by_cases hMarked : 0 < s.autoPrunePreviewsInFlight.count request.remote
      · rw [if_pos hMarked] at hArgument
        exact .inl ⟨rfl, isPreview_command _ _ _, hArgument⟩
      · right
        rw [Spare]
        omega
    | user =>
      intro hNone
      rw [hNone] at hMarks
      rw [if_neg (Nat.not_lt_of_le hMarks)] at hArgument
      exact ⟨rfl, fun _ => hArgument⟩
  | fetchFinished _ _ _ | requestRemotePrunePreview _ | errorOccurred _ | autoFetchCancelRefused | readRefs _ _
  | clearError => trivial

theorem plainName_of_fetch (h : PlainMarks globalArgs s) {fetchedRemote : String}
    (hFetched : (fetchedRemote == "" || plainName globalArgs fetchedRemote) = true) :
    ∀ remote ∈ remotesToPreviewAfterFetch fetchedRemote s.remoteNames, plainName globalArgs remote = true := by
  intro remote hMem
  rw [remotesToPreviewAfterFetch] at hMem
  split at hMem
  next hNot =>
    obtain rfl := List.mem_singleton.mp hMem
    simpa [bne_iff_ne.mp hNot] using hFetched
  next => exact h.names remote (List.mem_filter.mp (List.mem_eraseDups.mp hMem)).1

theorem marked_fetch {remotes : List String}
    (h : 0 < (remotes.foldl previewAfterFetch s).autoPrunePreviewsInFlight.count remote) :
    0 < s.autoPrunePreviewsInFlight.count remote ∨ remote ∈ remotes := by
  induction remotes generalizing s with
  | nil => exact .inl h
  | cons first remotes ih =>
    rcases ih h with hMarked | hMem
    · simp only [previewAfterFetch, requestPreview, Tally.count_add] at hMarked
      split at hMarked
      next hIs => exact .inr (hIs ▸ List.mem_cons_self)
      next => exact .inl hMarked
    · exact .inr (List.mem_cons_of_mem _ hMem)

theorem remoteNames_fetch (s : PrunePreviews) (remotes : List String) :
    (remotes.foldl previewAfterFetch s).remoteNames = s.remoteNames := by
  induction remotes generalizing s with
  | nil => rfl
  | cons first remotes ih => exact ih _

theorem plain_step (h : PlainMarks globalArgs s) {event : PreviewEvent} (hPlain : plain globalArgs event = true)
    (hStep : s.step globalArgs event = some s') : PlainMarks globalArgs s' := by
  have hCounted := counted_step h.toCounted (admits_of_plain h hPlain) hStep
  have hFramed {handled : PrunePreviews} (hFrame : Frame s handled) (hSame : s'.remoteNames = handled.remoteNames)
      (hMarks : s'.autoPrunePreviewsInFlight = handled.autoPrunePreviewsInFlight) : PlainMarks globalArgs s' := by
    refine ⟨hCounted, ?_, fun remote hMarked => ?_⟩
    · rw [hSame, hFrame.remoteNames]
      exact h.names
    · rw [hMarks] at hMarked
      exact h.marked remote (Nat.lt_of_lt_of_le hMarked (hFrame.marks remote))
  cases event with
  | fetchFinished fetchedRemote background refsMoved =>
    rw [step] at hStep
    split at hStep
    · obtain rfl := Option.some.inj hStep
      exact h
    · obtain rfl := Option.some.inj hStep
      refine ⟨hCounted, ?_, fun remote hMarked => ?_⟩
      · rw [remoteNames_fetch]
        exact h.names
      · exact (marked_fetch hMarked).elim (h.marked remote) (plainName_of_fetch h hPlain remote)
  | readRefs remoteNames claimed =>
    obtain rfl := Option.some.inj hStep
    exact ⟨hCounted, List.all_eq_true.mp hPlain, h.marked⟩
  | remotePrunePreviewReady i decodes refs =>
    obtain ⟨request, hAt, rfl⟩ := Option.map_eq_some_iff.mp hStep
    obtain rfl : decodes = true := hPlain
    exact hFramed (frame_handlePreview s { remote := request.remote, refs }) rfl rfl
  | previewFailed i decodes codeName message spawned =>
    obtain ⟨-, hStep⟩ := Option.ite_none_left_eq_some.mp hStep
    obtain ⟨request, hAt, rfl⟩ := Option.map_eq_some_iff.mp hStep
    obtain ⟨rfl, -⟩ := Bool.and_eq_true_iff.mp hPlain
    exact hFramed (frame_handleError s _) rfl rfl
  | errorOccurred error =>
    obtain rfl := Option.some.inj hStep
    exact hFramed (frame_handleError s error) rfl rfl
  | requestRemotePrunePreview _ | autoFetchCancelRefused | clearError =>
    obtain rfl := Option.some.inj hStep
    exact hFramed (frame_self s) rfl rfl

theorem admitted_of_plain {events : List PreviewEvent} (hRun : Run (step globalArgs) (fun _ _ => True) {} events s)
    (hPlain : ∀ event ∈ events, plain globalArgs event = true) :
    Run (step globalArgs) (Admits globalArgs) {} events s := by
  have hStart : PlainMarks globalArgs {} :=
    ⟨counted_start, fun _ hNone => absurd hNone List.not_mem_nil, fun _ hNone => absurd hNone (Nat.lt_irrefl 0)⟩
  have hAdmitted : Run (step globalArgs) (fun _ event => plain globalArgs event = true) {} events s :=
    hRun.admitted fun event hMem _ => hPlain event hMem
  exact hAdmitted.strengthen hStart (fun _ _ _ h hOk hStep => plain_step h hOk hStep)
    fun _ _ _ h hOk _ => admits_of_plain h hOk

end Plain

section Remotes

def gitArgs : List String :=
  ["git", "-c", "core.quotepath=false", "-c", "color.ui=false", "-c", "advice.detachedHead=false",
    "-c", "diff.autoRefreshIndex=false", "--no-pager", "--no-optional-locks", "-C", "/repo"]

def unreachable : String := "fatal: unable to access the remote"

def unreachableError (remote : String) : ReportedError := previewError gitArgs remote "ProcessFailed" unreachable true

def dialogEvents : List PreviewEvent :=
  [.fetchFinished "origin" false true, .requestRemotePrunePreview "upstream",
    .previewFailed 1 true "ProcessFailed" unreachable true, .remotePrunePreviewReady 0 true ["origin/old"],
    .requestRemotePrunePreview "origin", .remotePrunePreviewReady 0 true ["origin/old"]]

end Remotes

end PrunePreviews

end GitBranchManager
