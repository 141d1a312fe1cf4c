import GitBranchManager.Status.LineCountPasses

/-! # Remembered line counts are not stale

A count is kept only for a file dated before its pass began. A later write is dated no earlier
than that, so a lookup that finds the date again finds the file that was read.
-/

namespace GitBranchManager

open WorkingCopyStatusReader (countLines)

section Writes

variable {writes : List FileWrite} {path : Bytes}

/-- From the moment on, every write is dated `time` or later. -/
def Since (writes : List FileWrite) (moment : Nat) (time : Int) : Prop :=
  ∀ write ∈ writes.drop moment, time ≤ write.time

theorem lastWrite_append (writes more : List FileWrite) (path : Bytes) :
    lastWrite (writes ++ more) path = (lastWrite more path).or (lastWrite writes path) := by
  rw [lastWrite, List.filter_append, List.getLast?_append]
  rfl

theorem mem_of_lastWrite {write : FileWrite} (h : lastWrite writes path = some write) :
    write ∈ writes ∧ write.path = path := by
  have hMem := List.mem_filter.mp (List.mem_of_getLast? h)
  exact ⟨hMem.1, beq_iff_eq.mp hMem.2⟩

/-- A file that is older than all writes since a moment is still the one of that moment. -/
theorem lastWrite_kept {moment now : Nat} {time : Int} {write : FileWrite} (hLe : moment ≤ now)
    (hSince : Since writes moment time) (hLast : lastWrite (writes.take now) path = some write)
    (hOlder : write.time < time) : lastWrite (writes.take moment) path = some write := by
  obtain ⟨count, rfl⟩ := Nat.exists_eq_add_of_le hLe
  rw [List.take_add, lastWrite_append] at hLast
  rcases hMore : lastWrite ((writes.drop moment).take count) path with _ | other
  · rwa [hMore, Option.none_or] at hLast
  · rw [hMore, Option.some_or] at hLast
    obtain rfl := Option.some.inj hLast
    have hTime := hSince other (List.mem_of_mem_take (mem_of_lastWrite hMore).1)
    omega

theorem Since.now (writes : List FileWrite) (time : Int) : Since writes writes.length time := by
  intro write hWrite
  rw [List.drop_length] at hWrite
  cases hWrite

theorem Since.mono {moment later : Nat} {time : Int} (h : Since writes moment time)
    (hLe : moment ≤ later) : Since writes later time :=
  fun write hWrite => h write (List.drop_subset_drop_left _ hLe hWrite)

end Writes

namespace LineCountState

variable {ι : Type} [DecidableEq ι]

/-- The entry counts a file that was read when all older files had been written. -/
def EntryOk (s : LineCountState ι) (bound : Nat) (path : Bytes) (entry : UntrackedLineCountCache.Entry) :
    Prop :=
  ∃ (passStartedAt : Int) (readAt : Nat) (contents : Bytes),
    passStartedAt ≤ s.clock ∧ entry.stat.modified < passStartedAt ∧ readAt ≤ bound ∧
    Since s.writes readAt passStartedAt ∧ contentsAt (s.writes.take readAt) path = some contents ∧
    entry.lines = countLines contents

def StageOk (s : LineCountState ι) (passStartedAt : Int) : PassStage → Prop
  | .sized _ _ sizedAt => sizedAt ≤ s.writes.length
  | .stated path stat sizedAt statedAt =>
    sizedAt ≤ statedAt ∧ statedAt ≤ s.writes.length ∧
    ∃ write, lastWrite (s.writes.take statedAt) path = some write ∧ write.time = stat.modified
  | .read path _ contents =>
    ∃ readAt ≤ s.writes.length, Since s.writes readAt passStartedAt ∧
      contentsAt (s.writes.take readAt) path = some contents
  | _ => True

/-- The count is that of the file at a moment between its stat and the lookup. -/
def HitOk (s : LineCountState ι) (hit : LineCountHit) : Prop :=
  hit.lookedUpAt ≤ s.writes.length ∧
  ∃ (moment : Nat) (contents : Bytes), hit.statedAt ≤ moment ∧ moment ≤ hit.lookedUpAt ∧
    contentsAt (s.writes.take moment) hit.path = some contents ∧ hit.lines = countLines contents

/-- The count is that of the file at both halves of its stat. -/
def HitExact (s : LineCountState ι) (hit : LineCountHit) : Prop :=
  hit.sizedAt ≤ hit.statedAt ∧ hit.statedAt ≤ s.writes.length ∧
  ∃ contents, contentsAt (s.writes.take hit.sizedAt) hit.path = some contents ∧
    contentsAt (s.writes.take hit.statedAt) hit.path = some contents ∧ hit.lines = countLines contents

structure Inv (s : LineCountState ι) : Prop where
  started : ∀ id pass, s.passes id = some pass → pass.passStartedAt ≤ s.clock
  stages : ∀ id pass, s.passes id = some pass → StageOk s pass.passStartedAt pass.stage
  entries : ∀ path entry, s.cache.entries path = some entry → EntryOk s s.writes.length path entry
  hits : ∀ hit ∈ s.hits, HitOk s hit

/-- What the clock, the writers and the passes do to the files. -/
structure Grows (s s' : LineCountState ι) : Prop where
  clock : s.clock ≤ s'.clock
  writes : ∃ more, s'.writes = s.writes ++ more ∧ ∀ write ∈ more, s.clock ≤ write.time

section Grows

variable {s s' : LineCountState ι}

omit [DecidableEq ι]

theorem Grows.length_le (h : Grows s s') : s.writes.length ≤ s'.writes.length := by
  obtain ⟨more, hWrites, -⟩ := h.writes
  rw [hWrites, List.length_append]
  omega

theorem Grows.take_eq (h : Grows s s') {moment : Nat} (hMoment : moment ≤ s.writes.length) :
    s'.writes.take moment = s.writes.take moment := by
  obtain ⟨more, hWrites, -⟩ := h.writes
  rw [hWrites, List.take_append_of_le_length hMoment]

theorem Grows.since (h : Grows s s') {moment : Nat} {time : Int} (hSince : Since s.writes moment time)
    (hTime : time ≤ s.clock) : Since s'.writes moment time := by
  obtain ⟨more, hWrites, hMore⟩ := h.writes
  intro write hWrite
  rw [hWrites, List.drop_append, List.mem_append] at hWrite
  rcases hWrite with hOld | hNew
  · exact hSince write hOld
  · exact Int.le_trans hTime (hMore write (List.mem_of_mem_drop hNew))

theorem EntryOk.grows {bound : Nat} {path : Bytes} {entry : UntrackedLineCountCache.Entry}
    (h : EntryOk s bound path entry) (hBound : bound ≤ s.writes.length) (hGrows : Grows s s') :
    EntryOk s' bound path entry := by
  obtain ⟨passStartedAt, readAt, contents, hClock, hOlder, hRead, hSince, hContents, hLines⟩ := h
  refine ⟨passStartedAt, readAt, contents, Int.le_trans hClock hGrows.clock, hOlder, hRead,
    hGrows.since hSince hClock, ?_, hLines⟩
  rw [hGrows.take_eq (hRead.trans hBound)]
  exact hContents

theorem EntryOk.mono {bound later : Nat} {path : Bytes} {entry : UntrackedLineCountCache.Entry}
    (h : EntryOk s bound path entry) (hLe : bound ≤ later) : EntryOk s later path entry := by
  obtain ⟨passStartedAt, readAt, contents, hClock, hOlder, hRead, hRest⟩ := h
  exact ⟨passStartedAt, readAt, contents, hClock, hOlder, hRead.trans hLe, hRest⟩

theorem StageOk.grows {passStartedAt : Int} {stage : PassStage} (h : StageOk s passStartedAt stage)
    (hStarted : passStartedAt ≤ s.clock) (hGrows : Grows s s') : StageOk s' passStartedAt stage := by
  cases stage with
  | next => trivial
  | missed path stat => trivial
  | sized path size sizedAt => exact Nat.le_trans h hGrows.length_le
  | stated path stat sizedAt statedAt =>
    obtain ⟨hSized, hStated, write, hLast, hTime⟩ := h
    refine ⟨hSized, hStated.trans hGrows.length_le, write, ?_, hTime⟩
    rw [hGrows.take_eq hStated]
    exact hLast
  | read path stat contents =>
    obtain ⟨readAt, hRead, hSince, hContents⟩ := h
    refine ⟨readAt, hRead.trans hGrows.length_le, hGrows.since hSince hStarted, ?_⟩
    rw [hGrows.take_eq hRead]
    exact hContents

theorem HitOk.grows {hit : LineCountHit} (h : HitOk s hit) (hGrows : Grows s s') : HitOk s' hit := by
  obtain ⟨hLookup, moment, contents, hStated, hMoment, hContents, hLines⟩ := h
  refine ⟨hLookup.trans hGrows.length_le, moment, contents, hStated, hMoment, ?_, hLines⟩
  rw [hGrows.take_eq (hMoment.trans hLookup)]
  exact hContents

theorem HitExact.grows {hit : LineCountHit} (h : HitExact s hit) (hGrows : Grows s s') : HitExact s' hit := by
  obtain ⟨hSized, hStated, contents, hSizedAt, hStatedAt, hLines⟩ := h
  refine ⟨hSized, hStated.trans hGrows.length_le, contents, ?_, ?_, hLines⟩
  · rw [hGrows.take_eq (hSized.trans hStated)]
    exact hSizedAt
  · rw [hGrows.take_eq hStated]
    exact hStatedAt

/-- Files that are found with the entry's date, at a moment after the read, are the file read. -/
theorem EntryOk.counted {bound : Nat} {path : Bytes} {entry : UntrackedLineCountCache.Entry}
    (h : EntryOk s bound path entry) {statedAt : Nat} {write : FileWrite}
    (hLast : lastWrite (s.writes.take statedAt) path = some write)
    (hTime : write.time = entry.stat.modified) :
    ∃ (readAt : Nat) (contents : Bytes), readAt ≤ bound ∧ entry.lines = countLines contents ∧
      contentsAt (s.writes.take readAt) path = some contents ∧
      ∀ moment, readAt ≤ moment → moment ≤ statedAt →
        contentsAt (s.writes.take moment) path = some contents := by
  obtain ⟨passStartedAt, readAt, contents, -, hOlder, hRead, hSince, hContents, hLines⟩ := h
  refine ⟨readAt, contents, hRead, hLines, hContents, ?_⟩
  intro moment hFrom hTo
  have hSame (m : Nat) (hm : readAt ≤ m) (hmTo : m ≤ statedAt) :
      lastWrite (s.writes.take m) path = some write :=
    lastWrite_kept hmTo (hSince.mono hm) hLast (by omega)
  have hAtRead := hSame readAt (Nat.le_refl _) (hFrom.trans hTo)
  rw [contentsAt, hSame moment hFrom hTo, ← hContents, contentsAt, hAtRead]

theorem EntryOk.hitOk {path : Bytes} {entry : UntrackedLineCountCache.Entry}
    (h : EntryOk s s.writes.length path entry) {statedAt : Nat} (hStated : statedAt ≤ s.writes.length)
    {write : FileWrite} (hLast : lastWrite (s.writes.take statedAt) path = some write)
    (hTime : write.time = entry.stat.modified) (sizedAt : Nat) :
    HitOk s { path, lines := entry.lines, sizedAt, statedAt, lookedUpAt := s.writes.length } := by
  obtain ⟨readAt, contents, hRead, hLines, hAtRead, hKept⟩ := h.counted hLast hTime
  refine ⟨Nat.le_refl _, ?_⟩
  rcases Nat.le_total statedAt readAt with hLate | hEarly
  · exact ⟨readAt, contents, hLate, hRead, hAtRead, hLines⟩
  · exact ⟨statedAt, contents, Nat.le_refl _, hStated, hKept statedAt hEarly (Nat.le_refl _), hLines⟩

theorem EntryOk.hitExact {path : Bytes} {entry : UntrackedLineCountCache.Entry} {sizedAt statedAt : Nat}
    (h : EntryOk s sizedAt path entry) (hSized : sizedAt ≤ statedAt) (hStated : statedAt ≤ s.writes.length)
    {write : FileWrite} (hLast : lastWrite (s.writes.take statedAt) path = some write)
    (hTime : write.time = entry.stat.modified) (lookedUpAt : Nat) :
    HitExact s { path, lines := entry.lines, sizedAt, statedAt, lookedUpAt } := by
  obtain ⟨readAt, contents, hRead, hLines, -, hKept⟩ := h.counted hLast hTime
  exact ⟨hSized, hStated, contents, hKept sizedAt hRead hSized,
    hKept statedAt (hRead.trans hSized) (Nat.le_refl _), hLines⟩

/-- A step of the clock or of a writer. -/
theorem Inv.env {s s' : LineCountState ι} (hInv : Inv s) (hGrows : Grows s s') (hCache : s'.cache = s.cache)
    (hPasses : s'.passes = s.passes) (hHits : s'.hits = s.hits) : Inv s' where
  started id pass hPass := by
    rw [hPasses] at hPass
    exact Int.le_trans (hInv.started id pass hPass) hGrows.clock
  stages id pass hPass := by
    rw [hPasses] at hPass
    exact (hInv.stages id pass hPass).grows (hInv.started id pass hPass) hGrows
  entries path entry hEntry := by
    rw [hCache] at hEntry
    exact ((hInv.entries path entry hEntry).grows (Nat.le_refl _) hGrows).mono hGrows.length_le
  hits hit hHit := by
    rw [hHits] at hHit
    exact (hInv.hits hit hHit).grows hGrows

theorem grows_tick (s : LineCountState ι) {time : Int} (h : s.clock ≤ time) :
    Grows s { s with clock := time } where
  clock := h
  writes := ⟨[], (List.append_nil _).symm, fun _ hNone => absurd hNone List.not_mem_nil⟩

theorem grows_write (s : LineCountState ι) (path : Bytes) (contents : Option Bytes) :
    Grows s { s with writes := s.writes ++ [{ path, contents, time := s.clock }] } where
  clock := Int.le_refl _
  writes := ⟨_, rfl, fun write hWrite => by
    obtain rfl := List.mem_singleton.mp hWrite
    exact Int.le_refl _⟩

theorem Inv.start (clock : Int) : Inv ({ clock } : LineCountState ι) where
  started _ _ hPass := by cases hPass
  stages _ _ hPass := by cases hPass
  entries _ _ hEntry := by cases hEntry
  hits _ hHit := by cases hHit

end Grows

theorem PassStep.grows {s s' : LineCountState ι} {id : ι} (h : PassStep s id s') : Grows s s' where
  clock := Int.le_of_eq h.frame.2.1.symm
  writes := ⟨[], by rw [h.frame.1, List.append_nil], fun _ hNone => absurd hNone List.not_mem_nil⟩

/-- The pass that steps keeps its start and is where the files and the calls put it. -/
theorem PassStep.stage {s s' : LineCountState ι} {id : ι} (h : PassStep s id s') (hInv : Inv s)
    {pass : LineCountPass} (hPass' : s'.passes id = some pass) :
    pass.passStartedAt ≤ s.clock ∧ StageOk s pass.passStartedAt pass.stage := by
  cases h with
  | skip old hPass => exact ⟨hInv.started id pass hPass', hInv.stages id pass hPass'⟩
  | start hPass =>
    obtain rfl := Option.some.inj ((Function.update_self id _ _).symm.trans hPass')
    exact ⟨Int.le_refl _, trivial⟩
  | give_up old hPass =>
    obtain rfl := Option.some.inj ((Function.update_self id _ _).symm.trans hPass')
    exact ⟨hInv.started id old hPass, trivial⟩
  | fileSize old hPass path size =>
    obtain rfl := Option.some.inj ((Function.update_self id _ _).symm.trans hPass')
    exact ⟨hInv.started id old hPass, Nat.le_refl _⟩
  | lastWriteTime passStartedAt path size sizedAt write hPass hLast =>
    obtain rfl := Option.some.inj ((Function.update_self id _ _).symm.trans hPass')
    have hStarted := hInv.started id _ hPass
    refine ⟨hStarted, hInv.stages id _ hPass, Nat.le_refl _, write, ?_, rfl⟩
    rw [List.take_length]
    exact hLast
  | hit passStartedAt path stat sizedAt statedAt entry hits hPass hEntry hStat =>
    obtain rfl := Option.some.inj ((Function.update_self id _ _).symm.trans hPass')
    have hStarted := hInv.started id _ hPass
    exact ⟨hStarted, trivial⟩
  | miss old hPass path stat misses =>
    obtain rfl := Option.some.inj ((Function.update_self id _ _).symm.trans hPass')
    exact ⟨hInv.started id old hPass, trivial⟩
  | read old hPass path stat contents hContents =>
    obtain rfl := Option.some.inj ((Function.update_self id _ _).symm.trans hPass')
    refine ⟨hInv.started id old hPass, s.writes.length, Nat.le_refl _, Since.now _ _, ?_⟩
    rw [List.take_length]
    exact hContents
  | store passStartedAt path stat contents hPass =>
    obtain rfl := Option.some.inj ((Function.update_self id _ _).symm.trans hPass')
    have hStarted := hInv.started id _ hPass
    exact ⟨hStarted, trivial⟩
  | retainOnly old hPass live =>
    exact absurd ((Function.update_self id _ _).symm.trans hPass') (Option.some_ne_none _).symm

theorem Inv.passStep {s s' : LineCountState ι} {id : ι} (hInv : Inv s) (h : PassStep s id s') : Inv s' := by
  have hGrows := h.grows
  obtain ⟨hWrites, hClock, hOthers⟩ := h.frame
  have hPasses : ∀ other pass, s'.passes other = some pass →
      pass.passStartedAt ≤ s.clock ∧ StageOk s pass.passStartedAt pass.stage := by
    intro other pass hPass
    by_cases hOther : other = id
    · subst hOther
      exact h.stage hInv hPass
    · rw [hOthers other hOther] at hPass
      exact ⟨hInv.started other pass hPass, hInv.stages other pass hPass⟩
  constructor
  · intro other pass hPass
    rw [hClock]
    exact (hPasses other pass hPass).1
  · intro other pass hPass
    obtain ⟨hStarted, hStage⟩ := hPasses other pass hPass
    exact hStage.grows hStarted hGrows
  · intro path entry hEntry
    rw [hWrites]
    rcases h.entries hEntry with hOld | ⟨passStartedAt, contents, hPass, hOlder, hLines⟩
    · exact (hInv.entries path entry hOld).grows (Nat.le_refl _) hGrows
    · obtain ⟨readAt, hRead, hSince, hContents⟩ := hInv.stages id _ hPass
      have hStored : EntryOk s s.writes.length path entry :=
        ⟨passStartedAt, readAt, contents, hInv.started id _ hPass, hOlder, hRead, hSince, hContents, hLines⟩
      exact hStored.grows (Nat.le_refl _) hGrows
  · intro hit hHit
    rcases h.hits hHit with hOld | ⟨passStartedAt, entry, hPass, hEntry, hLines, hLookup⟩
    · exact (hInv.hits hit hOld).grows hGrows
    · obtain ⟨path, lines, sizedAt, statedAt, lookedUpAt⟩ := hit
      obtain rfl : lines = entry.lines := hLines
      obtain rfl : lookedUpAt = s.writes.length := hLookup
      obtain ⟨-, hStated, write, hLast, hTime⟩ := hInv.stages id _ hPass
      exact ((hInv.entries path entry hEntry).hitOk hStated hLast hTime sizedAt).grows hGrows

theorem Inv.step {s s' : LineCountState ι} {event : LineCountEvent ι} (hInv : Inv s)
    (h : s.step event = some s') : Inv s' := by
  rcases step_cases h with ⟨time, hTime, rfl⟩ | ⟨path, contents, rfl⟩ | ⟨id, hStep, -⟩
  · exact hInv.env (grows_tick s hTime) rfl rfl rfl
  · exact hInv.env (grows_write s path contents) rfl rfl rfl
  · exact hInv.passStep hStep

/-- What holds in addition while passes run one after another. -/
structure AloneInv (s : LineCountState ι) : Prop extends Inv s where
  alone : ∀ id pass, s.passes id = some pass → ∀ other, other ≠ id → s.passes other = none
  bounded : ∀ id pass sizedAt, s.passes id = some pass → pass.stage.sizedAt? = some sizedAt →
    ∀ path entry, s.cache.entries path = some entry → EntryOk s sizedAt path entry
  exactHits : ∀ hit ∈ s.hits, HitExact s hit

omit [DecidableEq ι] in
theorem StageOk.sizedAt_le {s : LineCountState ι} {passStartedAt : Int} {stage : PassStage}
    (h : StageOk s passStartedAt stage) {sizedAt : Nat} (hSized : stage.sizedAt? = some sizedAt) :
    sizedAt ≤ s.writes.length := by
  cases stage with
  | sized path size sized =>
    obtain rfl := Option.some.inj hSized
    exact h
  | stated path stat sized stated =>
    obtain rfl := Option.some.inj hSized
    exact h.1.trans h.2.1
  | next => cases hSized
  | missed path stat => cases hSized
  | read path stat contents => cases hSized

omit [DecidableEq ι] in
theorem AloneInv.env {s s' : LineCountState ι} (hInv : AloneInv s) (hGrows : Grows s s')
    (hCache : s'.cache = s.cache) (hPasses : s'.passes = s.passes) (hHits : s'.hits = s.hits) :
    AloneInv s' where
  toInv := hInv.toInv.env hGrows hCache hPasses hHits
  alone := by
    rw [hPasses]
    exact hInv.alone
  bounded id pass sizedAt hPass hSized path entry hEntry := by
    rw [hPasses] at hPass
    rw [hCache] at hEntry
    have hBound := (hInv.stages id pass hPass).sizedAt_le hSized
    exact (hInv.bounded id pass sizedAt hPass hSized path entry hEntry).grows hBound hGrows
  exactHits hit hHit := by
    rw [hHits] at hHit
    exact (hInv.exactHits hit hHit).grows hGrows

theorem AloneInv.passStep {s s' : LineCountState ι} {id : ι} (hInv : AloneInv s) (h : PassStep s id s')
    (hStart : s.passes id = none → ∀ other, s.passes other = none) : AloneInv s' := by
  have hGrows := h.grows
  obtain ⟨-, -, hOthers⟩ := h.frame
  have hAlone : ∀ other, other ≠ id → s'.passes other = none := by
    intro other hOther
    rw [hOthers other hOther]
    rcases hPass : s.passes id with _ | pass
    · exact hStart hPass other
    · exact hInv.alone id pass hPass other hOther
  have hOnly : ∀ other pass, s'.passes other = some pass → other = id := by
    intro other pass hPass
    refine Decidable.byContradiction fun hOther => ?_
    exact absurd ((hAlone other hOther).symm.trans hPass) (Option.some_ne_none pass).symm
  constructor
  · exact hInv.toInv.passStep h
  · intro other pass hPass third hThird
    obtain rfl := hOnly other pass hPass
    exact hAlone third hThird
  · intro other pass sizedAt hPass hSized path entry hEntry
    obtain rfl := hOnly other pass hPass
    obtain ⟨hCache, hNow | ⟨old, hOld, hOldSized⟩⟩ := h.sizedAt hPass hSized
    · rw [hCache] at hEntry
      subst hNow
      exact (hInv.entries path entry hEntry).grows (Nat.le_refl _) hGrows
    · rw [hCache] at hEntry
      have hBound := (hInv.stages _ old hOld).sizedAt_le hOldSized
      exact (hInv.bounded _ old sizedAt hOld hOldSized path entry hEntry).grows hBound hGrows
  · intro hit hHit
    rcases h.hits hHit with hOld | ⟨passStartedAt, entry, hPass, hEntry, hLines, -⟩
    · exact (hInv.exactHits hit hOld).grows hGrows
    · obtain ⟨path, lines, sizedAt, statedAt, lookedUpAt⟩ := hit
      obtain rfl : lines = entry.lines := hLines
      obtain ⟨hSized, hStated, write, hLast, hTime⟩ := hInv.stages id _ hPass
      have hEntryOk := hInv.bounded id _ sizedAt hPass rfl path entry hEntry
      exact (hEntryOk.hitExact hSized hStated hLast hTime lookedUpAt).grows hGrows

theorem AloneInv.step {s s' : LineCountState ι} {event : LineCountEvent ι} (hInv : AloneInv s)
    (hAlone : OnePass s event) (h : s.step event = some s') : AloneInv s' := by
  rcases step_cases h with ⟨time, hTime, rfl⟩ | ⟨path, contents, rfl⟩ | ⟨id, hStep, hStart⟩
  · exact hInv.env (grows_tick s hTime) rfl rfl rfl
  · exact hInv.env (grows_write s path contents) rfl rfl rfl
  · exact hInv.passStep hStep fun hNone => hAlone id (hStart hNone)

omit [DecidableEq ι] in
theorem AloneInv.start (clock : Int) : AloneInv ({ clock } : LineCountState ι) where
  toInv := Inv.start clock
  alone _ _ hPass := by cases hPass
  bounded _ _ _ hPass := by cases hPass
  exactHits _ hHit := by cases hHit

omit [DecidableEq ι] in
/-- Without a write in between, the file is at the lookup what it was at the stat. -/
theorem HitOk.at_stat {s : LineCountState ι} {hit : LineCountHit} (h : HitOk s hit)
    (hQuiet : ∀ write ∈ (s.writes.take hit.lookedUpAt).drop hit.statedAt, write.path ≠ hit.path) :
    ∃ contents, contentsAt (s.writes.take hit.statedAt) hit.path = some contents ∧
      hit.lines = countLines contents := by
  obtain ⟨-, moment, contents, hFrom, hTo, hContents, hLines⟩ := h
  refine ⟨contents, ?_, hLines⟩
  obtain ⟨count, rfl⟩ := Nat.exists_eq_add_of_le hFrom
  rw [← hContents, contentsAt, contentsAt, List.take_add, lastWrite_append]
  rcases hMore : lastWrite ((s.writes.drop hit.statedAt).take count) hit.path with _ | write
  · rw [Option.none_or]
  · obtain ⟨hMem, hPath⟩ := mem_of_lastWrite hMore
    refine absurd hPath (hQuiet write ?_)
    rw [List.drop_take]
    exact List.take_subset_take_left _ (by omega) hMem

/-- A remembered count is that of the file at a moment between the stat that was looked up and
the lookup, that of the stat if no write of the file fell in between, and always that of the
stat, in both its halves, if no two passes ran at once. -/
theorem remembered_count_fresh (clock : Int) :
    (∀ (events : List (LineCountEvent ι)) (s : LineCountState ι),
      Library.Run step (fun _ _ => True) { clock } events s → ∀ hit ∈ s.hits,
      (∃ (moment : Nat) (contents : Bytes), hit.statedAt ≤ moment ∧ moment ≤ hit.lookedUpAt ∧
        contentsAt (s.writes.take moment) hit.path = some contents ∧ hit.lines = countLines contents) ∧
      ((∀ write ∈ (s.writes.take hit.lookedUpAt).drop hit.statedAt, write.path ≠ hit.path) →
        ∃ contents, contentsAt (s.writes.take hit.statedAt) hit.path = some contents ∧
          hit.lines = countLines contents)) ∧
    ∀ (events : List (LineCountEvent ι)) (s : LineCountState ι),
      Library.Run step OnePass { clock } events s → ∀ hit ∈ s.hits,
      ∃ contents, contentsAt (s.writes.take hit.sizedAt) hit.path = some contents ∧
        contentsAt (s.writes.take hit.statedAt) hit.path = some contents ∧
        hit.lines = countLines contents := by
  constructor
  · intro events s hRun hit hHit
    have hInv : Inv s := hRun.invariant (Inv.start clock) fun _ _ _ hInv _ hStep => hInv.step hStep
    exact ⟨(hInv.hits hit hHit).2, (hInv.hits hit hHit).at_stat⟩
  · intro events s hRun hit hHit
    have hInv : AloneInv s :=
      hRun.invariant (AloneInv.start clock) fun _ _ _ hInv hAlone hStep => hInv.step hAlone hStep
    exact (hInv.exactHits hit hHit).2.2

/-- One pass has asked for the date, another one reads the file after it was written again. -/
def overlappingPasses : List (LineCountEvent Nat) :=
  [.write (ascii "f") (some (ascii "ab")), .tick 1, .start 0, .fileSize 0 (ascii "f"), .lastWriteTime 0,
    .start 1, .fileSize 1 (ascii "f"), .lastWriteTime 1, .lookup 1,
    .write (ascii "f") (some (ascii "\n\n")), .read 1, .store 1, .lookup 0]

theorem overlappingPasses_run : ∃ s : LineCountState Nat,
    Library.Run step (fun _ _ => True) { clock := 0 } overlappingPasses s ∧
    s.hits = [⟨ascii "f", 2, 1, 1, 2⟩] ∧
    s.writes = [⟨ascii "f", some (ascii "ab"), 0⟩, ⟨ascii "f", some (ascii "\n\n"), 1⟩] := by
  have hHits : (overlappingPasses.foldlM step { clock := 0 }).map (fun s => (s.hits, s.writes)) =
      some ([⟨ascii "f", 2, 1, 1, 2⟩],
        [⟨ascii "f", some (ascii "ab"), 0⟩, ⟨ascii "f", some (ascii "\n\n"), 1⟩]) := by
    decide
  obtain ⟨s, hRun, hState⟩ := Option.map_eq_some_iff.mp hHits
  exact ⟨s, Library.Run.of_foldlM hRun, (Prod.mk.inj hState).1, (Prod.mk.inj hState).2⟩

theorem overlappingPasses_newer_count :
    ¬ ∀ (events : List (LineCountEvent Nat)) (s : LineCountState Nat),
      Library.Run step (fun _ _ => True) { clock := 0 } events s → ∀ hit ∈ s.hits,
      ∃ contents, contentsAt (s.writes.take hit.statedAt) hit.path = some contents ∧
        hit.lines = countLines contents := by
  intro hFresh
  obtain ⟨s, hRun, hHits, hWrites⟩ := overlappingPasses_run
  have hMem : (⟨ascii "f", 2, 1, 1, 2⟩ : LineCountHit) ∈ s.hits := by rw [hHits]; exact List.mem_singleton_self _
  obtain ⟨contents, hContents, hLines⟩ := hFresh _ s hRun _ hMem
  rw [hWrites] at hContents
  obtain rfl : ascii "ab" = contents := Option.some.inj hContents
  exact absurd hLines (by decide)

theorem remembered_count_fresh_overlapping : ∃ s : LineCountState Nat, s.hits.length = 1 ∧
    ∀ hit ∈ s.hits, ∃ (moment : Nat) (contents : Bytes), hit.statedAt ≤ moment ∧ moment ≤ hit.lookedUpAt ∧
      contentsAt (s.writes.take moment) hit.path = some contents ∧ hit.lines = countLines contents := by
  obtain ⟨s, hRun, hHits, -⟩ := overlappingPasses_run
  exact ⟨s, by rw [hHits]; rfl, fun hit hHit => ((remembered_count_fresh 0).1 _ s hRun hit hHit).1⟩

end LineCountState

end GitBranchManager
