import GitBranchManager.Library.Positions
import GitBranchManager.Library.Tracing
import GitBranchManager.Operations.BranchDeletions

/-! # The remote half of a confirmed delete

A confirmation has one request at most: in the queue, kept after a failure, or waiting for a probe.
It is given up when the remote half goes out, so no other request of it can send that again.
-/

namespace GitBranchManager

open Library

/-- The request that a first submission of the confirmation's remote half makes. -/
def DeletionRecord.remoteHalf (confirmation : Confirmation) : DeletionRecord → Option PendingDeleteBranchRequest
  | .submitted deletion none =>
    if deletion.isRemoteHalf && deletion.confirmation == confirmation then some deletion.request else none
  | _ => none

/-- The remote deletions that were submitted for the confirmation, without those that were retried. -/
def sentHalf (confirmation : Confirmation) (log : List DeletionRecord) : List PendingDeleteBranchRequest :=
  (log.filterMap (DeletionRecord.remoteHalf confirmation)).reverse

def Confirmation.Succeeded (confirmation : Confirmation) (log : List DeletionRecord) : Prop :=
  ∃ deletion, .finished deletion true ∈ log ∧ deletion.confirmation = confirmation ∧ deletion.isRemoteHalf = false

def Confirmation.Reported (confirmation : Confirmation) (log : List DeletionRecord) (name : Bytes) : Prop :=
  ∃ gone, .probed confirmation gone ∈ log ∧ name ∈ gone

/-- Why a remote half is submitted: its own half has succeeded or is gone, or it has failed itself
and the user has it sent again. -/
def Supported (log : List DeletionRecord) : DeletionRecord → Prop
  | .submitted deletion none => deletion.isRemoteHalf = true →
    deletion.confirmation.Succeeded log ∨
      ∀ name ∈ deletion.confirmation.request.names, deletion.confirmation.Reported log name
  | .submitted deletion (some kind) => deletion.isRemoteHalf = true →
    (kind = .retry ∨ kind = .removeLock) ∧ .finished deletion false ∈ log
  | _ => True

namespace BranchDeletion

def isOf (confirmation : Confirmation) (deletion : BranchDeletion) : Bool :=
  !deletion.isRemoteHalf && deletion.confirmation == confirmation

/-- What a request has of the confirmation it comes from. -/
structure Carries (deletion : BranchDeletion) (log : List DeletionRecord) : Prop where
  own : deletion.isRemoteHalf = false →
    deletion.request.thenDeleteRemote = deletion.confirmation.request.thenDeleteRemote ∧
      ∀ name ∈ deletion.confirmation.request.names,
        name ∈ deletion.request.names ∨ deletion.confirmation.Reported log name
  half : deletion.isRemoteHalf = true → deletion.request.isRemote = true ∧ deletion.request.thenDeleteRemote = []

/-- The calls that send the remote half. -/
def halves (deletion : BranchDeletion) : List BranchDeletion :=
  (deletion.request.thenDeleteRemote.filter fun remote => !remote.names.isEmpty).map
    (BranchDeletions.remoteHalf deletion)

theorem isOf_iff {confirmation : Confirmation} {deletion : BranchDeletion} :
    deletion.isOf confirmation = true ↔ deletion.isRemoteHalf = false ∧ deletion.confirmation = confirmation := by
  simp [isOf]

end BranchDeletion

/-- What holds of the requests that the controller has, wherever it keeps them. -/
structure Linear (deletions : List BranchDeletion) (confirmations : Nat) (log : List DeletionRecord) : Prop where
  known : ∀ deletion ∈ deletions, deletion.confirmation.id < confirmations
  recorded : ∀ confirmation, confirmations ≤ confirmation.id → sentHalf confirmation log = []
  once : ∀ confirmation, deletions.countP (BranchDeletion.isOf confirmation) ≤ 1
  unsent : ∀ deletion ∈ deletions, deletion.isRemoteHalf = false → sentHalf deletion.confirmation log = []
  whole : ∀ confirmation, sentHalf confirmation log = [] ∨
    sentHalf confirmation log = confirmation.request.remoteRequests
  carries : ∀ deletion ∈ deletions, deletion.Carries log
  explained : Explained Supported log

namespace Linear

variable {deletions rest : List BranchDeletion} {deletion : BranchDeletion} {confirmations : Nat}
  {log : List DeletionRecord}

theorem subset_of_countP (h : ∀ p : BranchDeletion → Bool, rest.countP p ≤ deletions.countP p) :
    rest ⊆ deletions := by
  intro deletion hMem
  have hPos : 0 < rest.countP (· == deletion) := List.countP_pos_iff.mpr ⟨deletion, hMem, beq_self_eq_true _⟩
  obtain ⟨same, hSame, hIs⟩ := List.countP_pos_iff.mp (Nat.lt_of_lt_of_le hPos (h _))
  exact eq_of_beq hIs ▸ hSame

/-- Requests are dropped or kept elsewhere. -/
theorem fewer (h : Linear deletions confirmations log)
    (hFewer : ∀ p : BranchDeletion → Bool, rest.countP p ≤ deletions.countP p) : Linear rest confirmations log := by
  have hSubset := subset_of_countP hFewer
  exact
    { h with
      known := fun deletion hMem => h.known deletion (hSubset hMem)
      once := fun confirmation => Nat.le_trans (hFewer _) (h.once confirmation)
      unsent := fun deletion hMem => h.unsent deletion (hSubset hMem)
      carries := fun deletion hMem => h.carries deletion (hSubset hMem) }

theorem reported_cons {confirmation : Confirmation} {name : Bytes} (record : DeletionRecord)
    (h : confirmation.Reported log name) : confirmation.Reported (record :: log) name := by
  obtain ⟨gone, hMem, hName⟩ := h
  exact ⟨gone, List.mem_cons_of_mem _ hMem, hName⟩

theorem carries_cons (record : DeletionRecord) (h : deletion.Carries log) : deletion.Carries (record :: log) := by
  refine ⟨fun hOwn => ⟨(h.own hOwn).1, fun name hName => ?_⟩, h.half⟩
  exact ((h.own hOwn).2 name hName).imp_right (reported_cons record)

theorem sentHalf_cons {confirmation : Confirmation} {record : DeletionRecord}
    (h : record.remoteHalf confirmation = none) :
    sentHalf confirmation (record :: log) = sentHalf confirmation log := by
  rw [sentHalf, List.filterMap_cons_none h]
  rfl

/-- A record that sends no remote half. -/
theorem write (h : Linear deletions confirmations log) {record : DeletionRecord}
    (hNone : ∀ confirmation, record.remoteHalf confirmation = none) (hSupported : Supported log record) :
    Linear deletions confirmations (record :: log) where
  known := h.known
  recorded confirmation hNew := by
    rw [sentHalf_cons (hNone confirmation)]
    exact h.recorded confirmation hNew
  once := h.once
  unsent deletion hMem hOwn := by
    rw [sentHalf_cons (hNone _)]
    exact h.unsent deletion hMem hOwn
  whole confirmation := by
    rw [sentHalf_cons (hNone confirmation)]
    exact h.whole confirmation
  carries deletion hMem := carries_cons record (h.carries deletion hMem)
  explained := h.explained.cons hSupported

theorem mono (h : Linear deletions confirmations log) : Linear deletions (confirmations + 1) log :=
  { h with
    known := fun deletion hMem => Nat.lt_succ_of_lt (h.known deletion hMem)
    recorded := fun confirmation hNew => h.recorded confirmation (Nat.le_of_succ_le hNew) }

/-- The user confirms a delete. -/
theorem confirmed (h : Linear deletions confirmations log) (hId : deletion.confirmation.id = confirmations)
    (hCarries : deletion.Carries log) : Linear (deletion :: deletions) (confirmations + 1) log where
  known := List.forall_mem_cons.mpr ⟨hId ▸ Nat.lt_succ_self _, h.mono.known⟩
  recorded := h.mono.recorded
  once confirmation := by
    rw [List.countP_cons]
    cases hIs : deletion.isOf confirmation with
    | false => simpa using h.once confirmation
    | true =>
      have hNone : deletions.countP (BranchDeletion.isOf confirmation) = 0 := by
        refine List.countP_eq_zero.mpr fun other hMem hOther => ?_
        have hSame : other.confirmation = deletion.confirmation :=
          (BranchDeletion.isOf_iff.mp hOther).2.trans (BranchDeletion.isOf_iff.mp hIs).2.symm
        have hOlder := h.known other hMem
        rw [hSame, hId] at hOlder
        exact Nat.lt_irrefl _ hOlder
      simp [hNone]
  unsent := List.forall_mem_cons.mpr ⟨fun _ => h.recorded _ (Nat.le_of_eq hId.symm), h.unsent⟩
  whole := h.whole
  carries := List.forall_mem_cons.mpr ⟨hCarries, h.carries⟩
  explained := h.explained

/-- A request goes on as another one of the same half. -/
theorem replaced (h : Linear (deletion :: deletions) confirmations log) {next : BranchDeletion}
    (hConfirmation : next.confirmation = deletion.confirmation) (hHalf : next.isRemoteHalf = deletion.isRemoteHalf)
    (hCarries : next.Carries log) : Linear (next :: deletions) confirmations log := by
  obtain ⟨hKnown, hKnownRest⟩ := List.forall_mem_cons.mp h.known
  obtain ⟨hUnsent, hUnsentRest⟩ := List.forall_mem_cons.mp h.unsent
  obtain ⟨-, hCarriesRest⟩ := List.forall_mem_cons.mp h.carries
  have hIs (confirmation : Confirmation) : next.isOf confirmation = deletion.isOf confirmation := by
    rw [BranchDeletion.isOf, BranchDeletion.isOf, hConfirmation, hHalf]
  exact
    { known := List.forall_mem_cons.mpr ⟨hConfirmation ▸ hKnown, hKnownRest⟩
      recorded := h.recorded
      once := fun confirmation => by
        have hOnce := h.once confirmation
        rw [List.countP_cons, ← hIs confirmation, ← List.countP_cons] at hOnce
        exact hOnce
      unsent := List.forall_mem_cons.mpr ⟨fun hOwn => hConfirmation ▸ hUnsent (hHalf ▸ hOwn), hUnsentRest⟩
      whole := h.whole
      carries := List.forall_mem_cons.mpr ⟨hCarries, hCarriesRest⟩
      explained := h.explained }

section Halves

variable (deletion)

def sentRecords : List DeletionRecord := (deletion.halves.map fun half => .submitted half none).reverse

theorem map_request_halves : deletion.halves.map BranchDeletion.request = deletion.request.remoteRequests := by
  rw [BranchDeletion.halves, List.map_map]
  rfl

theorem sentHalf_append (confirmation : Confirmation) (more : List DeletionRecord) :
    sentHalf confirmation (more ++ log) = sentHalf confirmation log ++ sentHalf confirmation more := by
  rw [sentHalf, List.filterMap_append, List.reverse_append]
  rfl

theorem mem_halves {half : BranchDeletion} (h : half ∈ deletion.halves) :
    ∃ remote, half = BranchDeletions.remoteHalf deletion remote := by
  obtain ⟨remote, -, rfl⟩ := List.mem_map.mp h
  exact ⟨remote, rfl⟩

theorem sentHalf_sentRecords :
    sentHalf deletion.confirmation (sentRecords deletion) = deletion.request.remoteRequests := by
  rw [← map_request_halves, sentHalf, sentRecords, List.filterMap_reverse, List.reverse_reverse, List.filterMap_map]
  rw [← List.filterMap_eq_map]
  apply List.filterMap_congr
  intro half hMem
  obtain ⟨remote, rfl⟩ := mem_halves deletion hMem
  simp [DeletionRecord.remoteHalf, BranchDeletions.remoteHalf]

theorem sentHalf_sentRecords_of_ne {confirmation : Confirmation} (h : confirmation ≠ deletion.confirmation) :
    sentHalf confirmation (sentRecords deletion) = [] := by
  rw [sentHalf, List.reverse_eq_nil_iff, List.filterMap_eq_nil_iff]
  intro record hRecord
  obtain ⟨half, hMem, rfl⟩ := List.mem_map.mp (List.mem_reverse.mp hRecord)
  obtain ⟨remote, rfl⟩ := mem_halves deletion hMem
  have hOther : (deletion.confirmation == confirmation) = false := beq_eq_false_iff_ne.mpr h.symm
  simp [DeletionRecord.remoteHalf, BranchDeletions.remoteHalf, hOther]

theorem sentHalf_started_of_ne {confirmation : Confirmation} (h : confirmation ≠ deletion.confirmation) :
    sentHalf confirmation (sentRecords deletion ++ log) = sentHalf confirmation log := by
  rw [sentHalf_append, sentHalf_sentRecords_of_ne deletion h, List.append_nil]

/-- The calls that send the remote half are not of its confirmation's own half. -/
theorem countP_halves (confirmation : Confirmation) :
    deletion.halves.countP (BranchDeletion.isOf confirmation) = 0 := by
  refine List.countP_eq_zero.mpr fun half hMem => ?_
  obtain ⟨remote, rfl⟩ := mem_halves deletion hMem
  exact Bool.false_ne_true

end Halves

/-- The confirmation of a request has no other one. -/
theorem confirmation_ne (h : Linear (deletion :: deletions) confirmations log) (hHalf : deletion.isRemoteHalf = false)
    {other : BranchDeletion} (hMem : other ∈ deletions) (hOwn : other.isRemoteHalf = false) :
    other.confirmation ≠ deletion.confirmation := by
  intro hIs
  have hOnce := h.once deletion.confirmation
  have hOther : 0 < deletions.countP (BranchDeletion.isOf deletion.confirmation) :=
    List.countP_pos_iff.mpr ⟨other, hMem, BranchDeletion.isOf_iff.mpr ⟨hOwn, hIs⟩⟩
  rw [List.countP_cons, if_pos (BranchDeletion.isOf_iff.mpr ⟨hHalf, rfl⟩)] at hOnce
  omega

theorem halves_of_half (h : deletion.Carries log) (hHalf : deletion.isRemoteHalf = true) : deletion.halves = [] := by
  rw [BranchDeletion.halves, (h.half hHalf).2]
  rfl

theorem carries_append (more : List DeletionRecord) (h : deletion.Carries log) : deletion.Carries (more ++ log) := by
  induction more with
  | nil => exact h
  | cons record more ih => exact carries_cons record ih

theorem explained_sentRecords (h : Explained Supported log)
    (hSupported : deletion.confirmation.Succeeded log ∨
      ∀ name ∈ deletion.confirmation.request.names, deletion.confirmation.Reported log name) :
    Explained Supported (sentRecords deletion ++ log) := by
  refine h.append fun between record hRecord => ?_
  obtain ⟨half, hMem, rfl⟩ := List.mem_map.mp (List.mem_reverse.mp hRecord)
  obtain ⟨remote, rfl⟩ := mem_halves deletion hMem
  intro _
  refine hSupported.imp ?_ fun hGone name hName => ?_
  · rintro ⟨own, hOwn, hOf⟩
    exact ⟨own, List.mem_append_right _ hOwn, hOf⟩
  · obtain ⟨gone, hProbed, hIn⟩ := hGone name hName
    exact ⟨gone, List.mem_append_right _ hProbed, hIn⟩

/-- The remote half goes out, and the request is given up for it. -/
theorem started (h : Linear (deletion :: deletions) confirmations log)
    (hSupported : deletion.isRemoteHalf = false → deletion.confirmation.Succeeded log ∨
      ∀ name ∈ deletion.confirmation.request.names, deletion.confirmation.Reported log name) :
    Linear (deletion.halves ++ deletions) confirmations (sentRecords deletion ++ log) := by
  obtain ⟨hKnown, hKnownRest⟩ := List.forall_mem_cons.mp h.known
  obtain ⟨hUnsent, hUnsentRest⟩ := List.forall_mem_cons.mp h.unsent
  obtain ⟨hCarries, hCarriesRest⟩ := List.forall_mem_cons.mp h.carries
  cases hHalf : deletion.isRemoteHalf with
  | true =>
    have hNone := halves_of_half hCarries hHalf
    rw [sentRecords, hNone]
    exact h.fewer fun p => by
      rw [List.countP_cons]
      exact Nat.le_add_right _ _
  | false =>
    have hEmpty := hUnsent hHalf
    have hThen := (hCarries.own hHalf).1
    exact
      { known := fun half hMem => by
          rcases List.mem_append.mp hMem with hNew | hOld
          · obtain ⟨remote, rfl⟩ := mem_halves deletion hNew
            exact hKnown
          · exact hKnownRest half hOld
        recorded := fun confirmation hNew => by
          have hOther : confirmation ≠ deletion.confirmation := by
            rintro rfl
            exact Nat.not_le_of_lt hKnown hNew
          rw [sentHalf_started_of_ne deletion hOther]
          exact h.recorded confirmation hNew
        once := fun confirmation => by
          have hOnce := h.once confirmation
          rw [List.countP_cons] at hOnce
          rw [List.countP_append, countP_halves]
          omega
        unsent := fun own hMem hOwn => by
          rcases List.mem_append.mp hMem with hNew | hOld
          · obtain ⟨remote, rfl⟩ := mem_halves deletion hNew
            cases hOwn
          · rw [sentHalf_started_of_ne deletion (h.confirmation_ne hHalf hOld hOwn)]
            exact hUnsentRest own hOld hOwn
        whole := fun confirmation => by
          by_cases hIs : confirmation = deletion.confirmation
          · subst hIs
            right
            rw [sentHalf_append, hEmpty, List.nil_append, sentHalf_sentRecords,
              PendingDeleteBranchRequest.remoteRequests, hThen]
            rfl
          · rw [sentHalf_started_of_ne deletion hIs]
            exact h.whole confirmation
        carries := fun own hMem => by
          rcases List.mem_append.mp hMem with hNew | hOld
          · obtain ⟨remote, rfl⟩ := mem_halves deletion hNew
            exact ⟨fun hOwn => (by cases hOwn), fun _ => ⟨rfl, rfl⟩⟩
          · exact carries_append _ (hCarriesRest own hOld)
        explained := explained_sentRecords h.explained (hSupported hHalf) }

end Linear

namespace BranchDeletions

variable {s s' : BranchDeletions}

def kept (s : BranchDeletions) : List BranchDeletion :=
  s.queue ++ (s.lastFailed.toList ++ s.awaiting.map Prod.fst)

/-- `hand` is what a step has taken and not yet put somewhere. -/
structure Kept (hand : List BranchDeletion) (s : BranchDeletions) : Prop where
  linear : Linear (hand ++ s.kept) s.confirmations s.log
  failed : ∀ deletion ∈ s.lastFailed, .finished deletion false ∈ s.log
  own : ∀ waiting ∈ s.awaiting, waiting.1.isRemoteHalf = false
  lastProbe : ∀ deletion ∈ s.lastFailed, ∀ probe ∈ s.lastFailedProbe,
    (s.probes[probe]?).map ProbeFuture.names = some deletion.request.names
  waiting : ∀ waiting ∈ s.awaiting, (s.probes[waiting.2]?).map ProbeFuture.names = some waiting.1.request.names
  replies : s.isOpen = true → ∀ future ∈ s.probes, ∀ reply ∈ future.reply, reply.answers future.names = true

theorem kept_start : Kept [] {} where
  linear :=
    { known := fun _ hNone => absurd hNone List.not_mem_nil
      recorded := fun _ _ => rfl
      once := fun _ => Nat.zero_le _
      unsent := fun _ hNone => absurd hNone List.not_mem_nil
      whole := fun _ => .inl rfl
      carries := fun _ hNone => absurd hNone List.not_mem_nil
      explained := trivial }
  failed _ hNone := by cases hNone
  own _ hNone := absurd hNone List.not_mem_nil
  lastProbe _ hNone := by cases hNone
  waiting _ hNone := absurd hNone List.not_mem_nil
  replies _ _ hNone := absurd hNone List.not_mem_nil

variable {hand : List BranchDeletion} {deletion : BranchDeletion} {choice : Option OperationChoiceKind}

/-- What was in the hand is put down. -/
theorem Kept.dropped (h : Kept (deletion :: hand) s) : Kept hand s :=
  { h with
    linear := h.linear.fewer fun p => by
      rw [List.cons_append, List.countP_cons]
      exact Nat.le_add_right _ _ }

theorem Kept.write (h : Kept hand s) {record : DeletionRecord}
    (hNone : ∀ confirmation, record.remoteHalf confirmation = none) (hSupported : Supported s.log record) :
    Kept hand (s.write record) :=
  { h with
    linear := h.linear.write hNone hSupported
    failed deletion hFailed := List.mem_cons_of_mem _ (h.failed deletion hFailed) }

theorem Kept.deleteBranch (h : Kept (deletion :: hand) s)
    (hNone : ∀ confirmation, (DeletionRecord.submitted deletion choice).remoteHalf confirmation = none)
    (hSupported : Supported s.log (.submitted deletion choice)) : Kept hand (s.deleteBranch deletion choice) := by
  rw [BranchDeletions.deleteBranch]
  split
  · exact h.dropped
  · have hWritten := h.write hNone hSupported
    refine { hWritten with linear := hWritten.linear.fewer fun p => ?_ }
    simp only [kept, BranchDeletions.write, List.cons_append, List.countP_append, List.countP_cons, List.countP_nil]
    omega

theorem deleteRemoteHalf_open (s : BranchDeletions) (deletion : BranchDeletion) (hOpen : s.isOpen = true) :
    s.deleteRemoteHalf deletion =
      { s with queue := s.queue ++ deletion.halves, log := Linear.sentRecords deletion ++ s.log } := by
  rw [deleteRemoteHalf, BranchDeletion.halves, Linear.sentRecords, BranchDeletion.halves]
  generalize deletion.request.thenDeleteRemote = remotes
  induction remotes generalizing s with
  | nil => simp
  | cons remote remotes ih =>
    rw [List.foldl_cons, BranchDeletions.deleteBranch, List.filter_cons]
    cases hNames : remote.names.isEmpty with
    | true =>
      have hEmpty : (remoteHalf deletion remote).request.entries.isEmpty = true := by
        simpa [remoteHalf] using hNames
      rw [hEmpty, Bool.or_true, if_pos rfl, ih s hOpen]
      rfl
    | false =>
      have hFilled : (remoteHalf deletion remote).request.entries.isEmpty = false := by
        simpa [remoteHalf] using hNames
      have hNot : ¬ (!s.isOpen || (remoteHalf deletion remote).request.entries.isEmpty) = true := by
        simp [hOpen, hFilled]
      let next : BranchDeletions := { s with queue := s.queue ++ [remoteHalf deletion remote] }.write
        (.submitted (remoteHalf deletion remote) none)
      rw [if_neg hNot, ih next hOpen]
      simp [next, BranchDeletions.write]

theorem deleteRemoteHalf_closed (s : BranchDeletions) (deletion : BranchDeletion) (hClosed : s.isOpen = false) :
    s.deleteRemoteHalf deletion = s := by
  rw [deleteRemoteHalf]
  generalize deletion.request.thenDeleteRemote = remotes
  induction remotes with
  | nil => rfl
  | cons remote remotes ih =>
    rw [List.foldl_cons, BranchDeletions.deleteBranch, hClosed]
    exact ih

theorem Kept.deleteRemoteHalf (h : Kept (deletion :: hand) s)
    (hSupported : s.isOpen = true → deletion.isRemoteHalf = false → deletion.confirmation.Succeeded s.log ∨
      ∀ name ∈ deletion.confirmation.request.names, deletion.confirmation.Reported s.log name) :
    Kept hand (s.deleteRemoteHalf deletion) := by
  cases hOpen : s.isOpen with
  | false =>
    rw [deleteRemoteHalf_closed s deletion hOpen]
    exact h.dropped
  | true =>
    have hLinear : Linear (deletion :: (hand ++ s.kept)) s.confirmations s.log := h.linear
    rw [deleteRemoteHalf_open s deletion hOpen]
    refine
      { h with
        linear := (hLinear.started (hSupported hOpen)).fewer fun p => ?_
        failed := fun other hFailed => List.mem_append_right _ (h.failed other hFailed) }
    simp only [kept, List.countP_append]
    omega

theorem getElem?_probed (s : BranchDeletions) (names : List Bytes) (probe : Nat) {asked : List Bytes}
    (h : (s.probes[probe]?).map ProbeFuture.names = some asked) :
    ((s.probeBranchDeletion names).2.probes[probe]?).map ProbeFuture.names = some asked := by
  obtain ⟨future, hFuture, hNames⟩ := Option.map_eq_some_iff.mp h
  have hLess : probe < s.probes.length := (List.getElem?_eq_some_iff.mp hFuture).1
  rw [probeBranchDeletion, List.getElem?_append_left hLess, hFuture, Option.map_some, hNames]

theorem getElem?_newProbe (s : BranchDeletions) (names : List Bytes) :
    ((s.probeBranchDeletion names).2.probes[(s.probeBranchDeletion names).1]?).map ProbeFuture.names = some names := by
  simp [probeBranchDeletion]

theorem Kept.probeBranchDeletion (h : Kept hand s) (names : List Bytes) : Kept hand (s.probeBranchDeletion names).2 :=
  { h with
    lastProbe deletion hFailed probe hProbe := getElem?_probed s names probe (h.lastProbe deletion hFailed probe hProbe)
    waiting waiting hMem := getElem?_probed s names waiting.2 (h.waiting waiting hMem)
    replies hOpen future hFuture reply hReply := by
      rcases List.mem_append.mp hFuture with hOld | hNew
      · exact h.replies hOpen future hOld reply hReply
      · obtain rfl := List.mem_singleton.mp hNew
        obtain ⟨hAtOnce, hEmpty⟩ := Option.ite_none_right_eq_some.mp hReply
        obtain rfl := Option.some.inj hEmpty
        have hStays : s.isOpen = true := hOpen
        rw [hStays, Bool.not_true, Bool.false_or] at hAtOnce
        rw [List.isEmpty_iff.mp hAtOnce]
        rfl }

theorem Kept.dismiss (h : Kept hand s) : Kept hand s.dismiss :=
  { h with
    linear := h.linear.fewer fun p => by
      simp only [kept, BranchDeletions.dismiss, List.countP_append, Option.toList_none, List.countP_nil]
      omega
    failed _ hNone := by cases hNone
    lastProbe _ hNone := by cases hNone }

section Outcome

variable {queue : List BranchDeletion}

theorem Kept.keepFailed (h : Kept [] s) (hQueue : s.queue = deletion :: queue) :
    Kept [] ({ s with queue, lastFailed := some deletion, lastFailedProbe := none }.write
      (.finished deletion false)) :=
  { h with
    linear := by
      have hFewer : Linear (queue ++ ([deletion] ++ s.awaiting.map Prod.fst)) s.confirmations s.log :=
        h.linear.fewer fun p => by
          simp only [kept, hQueue, List.nil_append, List.cons_append, List.countP_append, List.countP_cons]
          omega
      exact hFewer.write (fun _ => rfl) trivial
    failed := by
      rintro other ⟨⟩
      exact List.mem_cons_self
    lastProbe _ _ _ hNone := by cases hNone }

theorem Kept.takeSucceeded (h : Kept [] s) (hQueue : s.queue = deletion :: queue) :
    Kept [deletion] ({ s with queue, lastFailed := none, lastFailedProbe := none }.write
      (.finished deletion true)) :=
  { h with
    linear := by
      have hFewer : Linear ([deletion] ++ (queue ++ s.awaiting.map Prod.fst)) s.confirmations s.log :=
        h.linear.fewer fun p => by
          simp only [kept, hQueue, List.nil_append, List.cons_append, List.countP_append, List.countP_cons]
          omega
      exact hFewer.write (fun _ => rfl) trivial
    failed _ hNone := by cases hNone
    lastProbe _ hNone := by cases hNone }

theorem Kept.setProbe (h : Kept hand s) {probe : Nat}
    (hProbe : ∀ deletion ∈ s.lastFailed, (s.probes[probe]?).map ProbeFuture.names = some deletion.request.names) :
    Kept hand { s with lastFailedProbe := some probe } :=
  { h with
    lastProbe := by
      rintro deletion hFailed _ ⟨⟩
      exact hProbe deletion hFailed }

theorem Kept.handleOutcome (h : Kept [] s) (succeeded : Bool) (choices : List OperationChoice) :
    Kept [] (s.handleOutcome succeeded choices) := by
  rw [BranchDeletions.handleOutcome]
  split
  · exact h
  · rename_i deletion queue hQueue
    cases succeeded with
    | true =>
      refine (h.takeSucceeded hQueue).deleteRemoteHalf fun _ hOwn => .inl ?_
      exact ⟨deletion, List.mem_cons_self, rfl, hOwn⟩
    | false =>
      have hKept := h.keepFailed hQueue
      simp only [Bool.not_false, Bool.true_and, Bool.false_eq_true, if_false]
      split
      · refine (hKept.probeBranchDeletion deletion.request.names).setProbe ?_
        rintro other ⟨⟩
        exact getElem?_newProbe _ _
      · exact hKept

end Outcome

section Retry

theorem Kept.taken (h : Kept [] s) (hFailed : s.lastFailed = some deletion) : Kept [deletion] s.dismiss :=
  { h with
    linear := h.linear.fewer fun p => by
      simp only [kept, BranchDeletions.dismiss, hFailed, List.nil_append, List.countP_append, Option.toList_none,
        Option.toList_some]
      omega
    failed _ hNone := by cases hNone
    lastProbe _ hNone := by cases hNone }

theorem Kept.await (h : Kept (deletion :: hand) s) (hOwn : deletion.isRemoteHalf = false) {probe : Nat}
    (hProbe : (s.probes[probe]?).map ProbeFuture.names = some deletion.request.names) :
    Kept hand { s with awaiting := s.awaiting ++ [(deletion, probe)] } :=
  { h with
    linear := h.linear.fewer fun p => by
      simp only [kept, List.cons_append, List.map_append, List.map_cons, List.map_nil, List.countP_append,
        List.countP_cons, List.countP_nil]
      omega
    own waiting hMem := by
      rcases List.mem_append.mp hMem with hOld | hNew
      · exact h.own waiting hOld
      · obtain rfl := List.mem_singleton.mp hNew
        exact hOwn
    waiting waiting hMem := by
      rcases List.mem_append.mp hMem with hOld | hNew
      · exact h.waiting waiting hOld
      · obtain rfl := List.mem_singleton.mp hNew
        exact hProbe }

theorem Kept.forceDeleteAfterProbe (h : Kept (deletion :: hand) s) {probe : Option Nat}
    (hProbe : ∀ i ∈ probe, (s.probes[i]?).map ProbeFuture.names = some deletion.request.names) :
    Kept hand (s.forceDeleteAfterProbe deletion probe) := by
  have hCarries := h.linear.carries deletion List.mem_cons_self
  unfold BranchDeletions.forceDeleteAfterProbe
  split
  · exact h.dropped
  · rename_i hLocal
    have hOwn : deletion.isRemoteHalf = false := Bool.eq_false_iff.mpr fun hHalf => hLocal (hCarries.half hHalf).1
    split
    · exact h.await hOwn (hProbe _ rfl)
    · exact (h.probeBranchDeletion deletion.request.names).await hOwn (getElem?_newProbe _ _)

theorem Kept.retryDeleteBranchWithChoice (h : Kept [] s) (kind : OperationChoiceKind) :
    Kept [] (s.retryDeleteBranchWithChoice kind) := by
  rw [BranchDeletions.retryDeleteBranchWithChoice]
  split
  · exact h.dismiss
  · rename_i deletion hFailed
    have hTaken := h.taken hFailed
    have hResubmitted : .finished deletion false ∈ s.dismiss.log := h.failed deletion hFailed
    cases kind with
    | forceDiscard => exact hTaken.forceDeleteAfterProbe fun i hProbe => h.lastProbe deletion hFailed i hProbe
    | retry => exact hTaken.deleteBranch (fun _ => rfl) fun _ => ⟨.inl rfl, hResubmitted⟩
    | removeLock => exact hTaken.deleteBranch (fun _ => rfl) fun _ => ⟨.inr rfl, hResubmitted⟩
    | stashAndRetry | abort => exact hTaken.dropped

end Retry

section Resume

theorem mem_gone_or_forced {reply : BranchDeletionProbeReply} {name : Bytes}
    (h : name ∈ reply.probes.map BranchDeletionProbe.name) :
    name ∈ reply.gone ∨
      name ∈ (reply.probes.filterMap BranchDeletionProbe.forced).map DeleteBranchEntry.name := by
  obtain ⟨probe, hProbe, rfl⟩ := List.mem_map.mp h
  cases probe with
  | notFound name =>
    exact .inl (List.mem_map.mpr ⟨.notFound name, List.mem_filter.mpr ⟨hProbe, rfl⟩, rfl⟩)
  | noReference name tipOid =>
    exact .inr (List.mem_map.mpr ⟨_, List.mem_filterMap.mpr ⟨_, hProbe, rfl⟩, rfl⟩)
  | counted name tipOid upstream unsyncedCount =>
    exact .inr (List.mem_map.mpr ⟨_, List.mem_filterMap.mpr ⟨_, hProbe, rfl⟩, rfl⟩)

/-- The request goes on with the names that the probe has found. -/
theorem Kept.narrowed (h : Kept [deletion] s) (hOwn : deletion.isRemoteHalf = false) {entries : List DeleteBranchEntry}
    (hNames : ∀ name ∈ deletion.request.names,
      deletion.confirmation.Reported s.log name ∨ name ∈ entries.map DeleteBranchEntry.name) :
    Kept [{ deletion with request := { deletion.request with entries } }] s :=
  { h with
    linear := by
      have hCarries := (h.linear.carries deletion List.mem_cons_self).own hOwn
      refine h.linear.replaced rfl rfl ⟨fun _ => ⟨hCarries.1, fun name hName => ?_⟩, fun hHalf => ?_⟩
      · rcases hCarries.2 name hName with hAsked | hReported
        · exact (hNames name hAsked).symm
        · exact .inr hReported
      · cases hOwn.symm.trans hHalf }

theorem Kept.resume (h : Kept [deletion] s) (hOwn : deletion.isRemoteHalf = false) {reply : BranchDeletionProbeReply}
    (hAnswers : s.isOpen = true → reply.answers deletion.request.names = true) : Kept [] (s.resume deletion reply) := by
  rw [BranchDeletions.resume]
  split
  · exact h.dropped
  · rename_i hRead
    have hProbed : Kept [deletion] (s.write (.probed deletion.confirmation reply.gone)) :=
      h.write (fun _ => rfl) trivial
    have hReported {name : Bytes} (hGone : name ∈ reply.gone) :
        deletion.confirmation.Reported (s.write (.probed deletion.confirmation reply.gone)).log name :=
      ⟨reply.gone, List.mem_cons_self, hGone⟩
    have hAsked (hOpen : s.isOpen = true) : ∀ name ∈ deletion.request.names,
        name ∈ reply.gone ∨ name ∈ (reply.probes.filterMap BranchDeletionProbe.forced).map DeleteBranchEntry.name := by
      have hNames := hAnswers hOpen
      rw [BranchDeletionProbeReply.answers, if_neg hRead] at hNames
      exact fun name hName => mem_gone_or_forced (eq_of_beq hNames ▸ hName)
    dsimp only
    split
    · rename_i hNone
      refine hProbed.deleteRemoteHalf fun hOpen _ => .inr fun name hName => ?_
      rcases ((hProbed.linear.carries deletion List.mem_cons_self).own hOwn).2 name hName with hStill | hEarlier
      · rcases hAsked hOpen name hStill with hGone | hForced
        · exact hReported hGone
        · rw [List.isEmpty_iff.mp hNone] at hForced
          exact absurd hForced List.not_mem_nil
      · exact hEarlier
    · cases hOpen : s.isOpen with
      | false =>
        have hClosed : (s.write (.probed deletion.confirmation reply.gone)).isOpen = false := hOpen
        rw [BranchDeletions.deleteBranch, hClosed]
        exact hProbed.dropped
      | true =>
        have hNarrowed := hProbed.narrowed hOwn fun name hName => (hAsked hOpen name hName).imp_left hReported
        exact hNarrowed.deleteBranch (fun _ => rfl) fun hHalf => by cases hOwn.symm.trans hHalf

end Resume

theorem Kept.confirm (h : Kept [] s) (request : PendingDeleteBranchRequest) :
    Kept [{ confirmation := { id := s.confirmations, request }, isRemoteHalf := false, request }]
      { s with confirmations := s.confirmations + 1 } :=
  { h with
    linear := h.linear.confirmed rfl ⟨fun _ => ⟨rfl, fun _ hName => .inl hName⟩, fun hHalf => by cases hHalf⟩ }

theorem Kept.probeReady (h : Kept [] s) {probe : Nat} {future : ProbeFuture} {reply : BranchDeletionProbeReply}
    (hFuture : s.probes[probe]? = some future) (hAnswers : reply.answers future.names = true) :
    Kept [] { s with probes := s.probes.set probe { future with reply := some reply } } := by
  have hSame (i : Nat) {names : List Bytes} (hNames : (s.probes[i]?).map ProbeFuture.names = some names) :
      ((s.probes.set probe { future with reply := some reply })[i]?).map ProbeFuture.names = some names := by
    by_cases hIs : probe = i
    · subst hIs
      have hLess := (List.getElem?_eq_some_iff.mp hFuture).1
      rw [hFuture] at hNames
      rw [List.getElem?_set_self hLess]
      exact hNames
    · rw [List.getElem?_set_ne hIs]
      exact hNames
  exact
    { h with
      lastProbe := fun deletion hFailed i hProbe => hSame i (h.lastProbe deletion hFailed i hProbe)
      waiting := fun waiting hMem => hSame waiting.2 (h.waiting waiting hMem)
      replies := fun hOpen other hOther read hRead => by
        rcases List.mem_or_eq_of_mem_set hOther with hOld | rfl
        · exact h.replies hOpen other hOld read hRead
        · obtain rfl := Option.some.inj hRead
          exact hAnswers }

theorem Kept.takeWaiting (h : Kept [] s) {i probe : Nat} (hAt : s.awaiting[i]? = some (deletion, probe)) :
    Kept [deletion] { s with awaiting := s.awaiting.eraseIdx i } :=
  { h with
    linear := h.linear.fewer fun p => by
      have hCount := countP_eraseIdx hAt (p ∘ Prod.fst)
      simp only [kept, List.nil_append, List.cons_append, List.countP_append, List.countP_cons, List.countP_map, hCount,
        Function.comp_apply]
      omega
    own waiting hMem := h.own waiting (List.mem_of_mem_eraseIdx hMem)
    waiting waiting hMem := h.waiting waiting (List.mem_of_mem_eraseIdx hMem) }

theorem Kept.closed (h : Kept [] s) : Kept [] { s with isOpen := false, queue := [] } :=
  { h with
    linear := h.linear.fewer fun p => by
      simp only [kept, List.nil_append, List.countP_append]
      omega
    replies hNever := by cases hNever }

theorem Kept.step (h : Kept [] s) {event : DeletionEvent} (hStep : s.step event = some s') : Kept [] s' := by
  cases event with
  | deleteBranch request =>
    obtain rfl := Option.some.inj hStep
    exact (h.confirm request).deleteBranch (fun _ => rfl) fun hHalf => by cases hHalf
  | outcome succeeded choices =>
    obtain rfl := Option.some.inj hStep
    exact h.handleOutcome succeeded choices
  | retryDeleteBranchWithChoice kind =>
    obtain rfl := Option.some.inj hStep
    exact h.retryDeleteBranchWithChoice kind
  | dismissDeleteBranchChoices =>
    obtain rfl := Option.some.inj hStep
    exact h.dismiss
  | probeReady probe reply =>
    rw [BranchDeletions.step] at hStep
    split at hStep
    · obtain rfl := Option.some.inj hStep
      exact h
    · rename_i future hFuture
      split at hStep
      · obtain rfl := Option.some.inj hStep
        exact h
      · obtain ⟨hAnswers, hNext⟩ := Option.ite_none_right_eq_some.mp hStep
        obtain rfl := Option.some.inj hNext
        exact h.probeReady hFuture hAnswers
  | resume i =>
    rw [BranchDeletions.step] at hStep
    split at hStep
    · cases hStep
    · rename_i deletion probe hAt
      obtain ⟨reply, hReply, rfl⟩ := Option.map_eq_some_iff.mp hStep
      obtain ⟨future, hFuture, hRead⟩ := Option.bind_eq_some_iff.mp hReply
      have hMem : (deletion, probe) ∈ s.awaiting := List.mem_of_getElem? hAt
      have hNames := h.waiting _ hMem
      rw [hFuture] at hNames
      refine (h.takeWaiting hAt).resume (h.own _ hMem) fun hOpen => ?_
      have hAnswers := h.replies hOpen future (List.mem_of_getElem? hFuture) reply hRead
      rwa [Option.some.inj hNames] at hAnswers
  | close =>
    obtain rfl := Option.some.inj hStep
    exact h.closed

/-- The remote half of a confirmation goes out once. Each of its calls has its reason, and one that is
made again has failed before. -/
theorem remote_half_once {events : List DeletionEvent} (hRun : Run step (fun _ _ => True) {} events s) :
    (∀ confirmation, sentHalf confirmation s.log = [] ∨
      sentHalf confirmation s.log = confirmation.request.remoteRequests) ∧
    ∀ later record earlier, s.log = later ++ record :: earlier → Supported earlier record := by
  have hKept : Kept [] s := hRun.invariant kept_start fun _ _ _ h _ hStep => h.step hStep
  refine ⟨hKept.linear.whole, fun later record earlier hLog => ?_⟩
  have hExplained := hKept.linear.explained
  rw [hLog] at hExplained
  exact hExplained.at_record

section Sample

def main : Bytes := ascii "main"

def topic : Bytes := ascii "topic"

/-- A delete of local branches together with those of the same names on the remote. -/
def both (names : List Bytes) : PendingDeleteBranchRequest where
  entries := names.map fun name => { name }
  isRemote := false
  remoteName := []
  thenDeleteRemote := [{ remoteName := ascii "origin", names }]

def offered (kind : OperationChoiceKind) : List OperationChoice := [{ kind }]

/-- The remote half fails, and the user has it sent again. -/
def retried : List DeletionEvent :=
  [.deleteBranch (both [main]), .outcome true [], .outcome false (offered .retry), .retryDeleteBranchWithChoice .retry]

/-- The first of two branches is gone by the first probe, the second by the next. -/
def goneInTurn : List DeletionEvent :=
  [.deleteBranch (both [main, topic]), .outcome false (offered .forceDiscard),
    .probeReady 0 { probes := [.notFound main, .noReference topic (ascii "1")] },
    .retryDeleteBranchWithChoice .forceDiscard, .resume 0, .outcome false (offered .forceDiscard),
    .probeReady 1 { probes := [.notFound topic] }, .retryDeleteBranchWithChoice .forceDiscard, .resume 0]

/-- All the remote deletions of the confirmation, with those that were retried. -/
def sentEver (confirmation : Confirmation) (log : List DeletionRecord) : List PendingDeleteBranchRequest :=
  (log.filterMap fun
    | .submitted deletion _ =>
      if deletion.isRemoteHalf && deletion.confirmation == confirmation then some deletion.request else none
    | _ => none).reverse

/-- A success of its own half, or a probe that has found none of its names. -/
def allows (confirmation : Confirmation) : DeletionRecord → Bool
  | .submitted _ _ => false
  | .finished deletion succeeded => succeeded && deletion.isOf confirmation
  | .probed probed gone => probed == confirmation && confirmation.request.names.all gone.contains

theorem remote_half_once_retried : ∃ s, Run step (fun _ _ => True) {} retried s ∧ s.log.length = 5 ∧
    (∀ confirmation, sentHalf confirmation s.log = [] ∨
      sentHalf confirmation s.log = confirmation.request.remoteRequests) ∧
    ∀ later record earlier, s.log = later ++ record :: earlier → Supported earlier record := by
  obtain ⟨s, hSteps⟩ : ∃ s, retried.foldlM step {} = some s := ⟨_, rfl⟩
  have hRun : Run step (fun _ _ => True) {} retried s := .of_foldlM hSteps
  refine ⟨s, hRun, ?_, remote_half_once hRun⟩
  obtain rfl := Option.some.inj hSteps
  rfl

/-- A remote half that failed is sent again, and two probes together may say that the names are gone. -/
theorem remote_half_sent_again :
    (¬ ∀ (events : List DeletionEvent) (s : BranchDeletions), Run step (fun _ _ => True) {} events s →
      ∀ confirmation, confirmation.request.isRemote = false → sentEver confirmation s.log = [] ∨
        sentEver confirmation s.log = confirmation.request.remoteRequests) ∧
    ¬ ∀ (events : List DeletionEvent) (s : BranchDeletions), Run step (fun _ _ => True) {} events s →
      ∀ later deletion choice earlier, s.log = later ++ .submitted deletion choice :: earlier →
        deletion.isRemoteHalf = true → earlier.any (allows deletion.confirmation) = true := by
  constructor
  · intro h
    obtain ⟨s, hSteps⟩ : ∃ s, retried.foldlM step {} = some s := ⟨_, rfl⟩
    have hOnce := h retried s (.of_foldlM hSteps) { id := 0, request := both [main] } rfl
    obtain rfl := Option.some.inj hSteps
    exact absurd hOnce (by decide +kernel)
  · intro h
    obtain ⟨s, hSteps⟩ : ∃ s, goneInTurn.foldlM step {} = some s := ⟨_, rfl⟩
    have hAllowed := h goneInTurn s (.of_foldlM hSteps) []
    obtain rfl := Option.some.inj hSteps
    exact absurd (hAllowed _ _ _ rfl rfl) (by decide +kernel)

end Sample

end BranchDeletions

end GitBranchManager
