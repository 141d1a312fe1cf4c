import GitBranchManager.Library.Runs
import GitBranchManager.Status.WorkingCopyStatus

/-! # Passes over untracked files

Status reads run on a pool, so that their passes share the line-count cache while files are
written. Every system call and every call of the cache is a step of its own. A moment is how
many writes there were before it.
-/

namespace GitBranchManager

/-- A write of no contents removes the file. -/
structure FileWrite where
  path : Bytes
  contents : Option Bytes
  time : Int
  deriving DecidableEq, Repr

def lastWrite (writes : List FileWrite) (path : Bytes) : Option FileWrite :=
  (writes.filter fun write => write.path == path).getLast?

def contentsAt (writes : List FileWrite) (path : Bytes) : Option Bytes :=
  (lastWrite writes path).bind FileWrite.contents

open UntrackedLineCountCache (Stat)

/-- Where a pass is within `countUntrackedLines`; the moments are read by no step. -/
inductive PassStage
  | next
  | sized (path : Bytes) (size : Nat) (sizedAt : Nat)
  | stated (path : Bytes) (stat : Stat) (sizedAt statedAt : Nat)
  | missed (path : Bytes) (stat : Stat)
  | read (path : Bytes) (stat : Stat) (contents : Bytes)
  deriving DecidableEq, Repr

def PassStage.sizedAt? : PassStage → Option Nat
  | .sized _ _ sizedAt => some sizedAt
  | .stated _ _ sizedAt _ => some sizedAt
  | _ => none

structure LineCountPass where
  passStartedAt : Int
  stage : PassStage := .next
  deriving DecidableEq, Repr

structure LineCountHit where
  path : Bytes
  lines : UInt32
  sizedAt : Nat
  statedAt : Nat
  lookedUpAt : Nat
  deriving DecidableEq, Repr

/-- The files, the clock that dates their writes, the cache and the passes that run. -/
structure LineCountState (ι : Type) where
  clock : Int
  writes : List FileWrite := []
  cache : UntrackedLineCountCache := {}
  passes : ι → Option LineCountPass := fun _ => none
  hits : List LineCountHit := []

inductive LineCountEvent (ι : Type)
  | tick (time : Int)
  | write (path : Bytes) (contents : Option Bytes)
  | start (id : ι)
  | fileSize (id : ι) (path : Bytes)
  | lastWriteTime (id : ι)
  | lookup (id : ι)
  | read (id : ι)
  | store (id : ι)
  | retainOnly (id : ι) (live : List Bytes)
  deriving DecidableEq, Repr

namespace LineCountState

variable {ι : Type} [DecidableEq ι]

def setPass (s : LineCountState ι) (id : ι) (pass : Option LineCountPass) : LineCountState ι :=
  { s with passes := Function.update s.passes id pass }

/-- A call that fails ends the work on its file. -/
def step (s : LineCountState ι) : LineCountEvent ι → Option (LineCountState ι)
  | .tick time => if s.clock ≤ time then some { s with clock := time } else none
  | .write path contents => some { s with writes := s.writes ++ [{ path, contents, time := s.clock }] }
  | .start id =>
    match s.passes id with
    | none => some (s.setPass id (some { passStartedAt := s.clock }))
    | some _ => none
  | .fileSize id path =>
    match s.passes id with
    | some ⟨passStartedAt, .next⟩ =>
      match contentsAt s.writes path with
      | none => some s
      | some contents =>
        if WorkingCopyStatusReader.kUntrackedLineCountByteCap < contents.length then some s
        else some (s.setPass id (some ⟨passStartedAt, .sized path contents.length s.writes.length⟩))
    | _ => none
  | .lastWriteTime id =>
    match s.passes id with
    | some ⟨passStartedAt, .sized path size sizedAt⟩ =>
      match lastWrite s.writes path with
      | some ⟨_, some _, modified⟩ =>
        some (s.setPass id (some ⟨passStartedAt, .stated path { size, modified } sizedAt s.writes.length⟩))
      | _ => some (s.setPass id (some ⟨passStartedAt, .next⟩))
    | _ => none
  | .lookup id =>
    match s.passes id with
    | some ⟨passStartedAt, .stated path stat sizedAt statedAt⟩ =>
      match s.cache.lookup path stat with
      | (some lines, cache) =>
        some { s.setPass id (some ⟨passStartedAt, .next⟩) with
          cache
          hits := s.hits ++ [{ path, lines, sizedAt, statedAt, lookedUpAt := s.writes.length }] }
      | (none, cache) => some { s.setPass id (some ⟨passStartedAt, .missed path stat⟩) with cache }
    | _ => none
  | .read id =>
    match s.passes id with
    | some ⟨passStartedAt, .missed path stat⟩ =>
      match contentsAt s.writes path with
      | none => some (s.setPass id (some ⟨passStartedAt, .next⟩))
      | some contents => some (s.setPass id (some ⟨passStartedAt, .read path stat contents⟩))
    | _ => none
  | .store id =>
    match s.passes id with
    | some ⟨passStartedAt, .read path stat contents⟩ =>
      some { s.setPass id (some ⟨passStartedAt, .next⟩) with
        cache := s.cache.store path stat (WorkingCopyStatusReader.countLines contents) passStartedAt }
    | _ => none
  | .retainOnly id live =>
    match s.passes id with
    | some ⟨_, .next⟩ => some { s.setPass id none with cache := s.cache.retainOnly live }
    | _ => none

/-- No pass starts while another one runs. -/
def OnePass (s : LineCountState ι) (event : LineCountEvent ι) : Prop :=
  ∀ id, event = .start id → ∀ other, s.passes other = none

/-- What a step of a pass does to that pass, to the cache and to the hits. -/
inductive PassStep (s : LineCountState ι) (id : ι) : LineCountState ι → Prop
  | start (hPass : s.passes id = none) : PassStep s id (s.setPass id (some { passStartedAt := s.clock }))
  | skip (pass : LineCountPass) (hPass : s.passes id = some pass) : PassStep s id s
  | give_up (pass : LineCountPass) (hPass : s.passes id = some pass) :
      PassStep s id (s.setPass id (some ⟨pass.passStartedAt, .next⟩))
  | fileSize (pass : LineCountPass) (hPass : s.passes id = some pass) (path : Bytes) (size : Nat) :
      PassStep s id (s.setPass id (some ⟨pass.passStartedAt, .sized path size s.writes.length⟩))
  | lastWriteTime (passStartedAt : Int) (path : Bytes) (size sizedAt : Nat) (write : FileWrite)
      (hPass : s.passes id = some ⟨passStartedAt, .sized path size sizedAt⟩)
      (hLast : lastWrite s.writes path = some write) :
      PassStep s id
        (s.setPass id (some ⟨passStartedAt, .stated path ⟨size, write.time⟩ sizedAt s.writes.length⟩))
  | hit (passStartedAt : Int) (path : Bytes) (stat : Stat) (sizedAt statedAt : Nat)
      (entry : UntrackedLineCountCache.Entry) (hits : Nat)
      (hPass : s.passes id = some ⟨passStartedAt, .stated path stat sizedAt statedAt⟩)
      (hEntry : s.cache.entries path = some entry) (hStat : entry.stat = stat) :
      PassStep s id { s.setPass id (some ⟨passStartedAt, .next⟩) with
        cache := { s.cache with hits }
        hits := s.hits ++
          [{ path, lines := entry.lines, sizedAt, statedAt, lookedUpAt := s.writes.length }] }
  | miss (pass : LineCountPass) (hPass : s.passes id = some pass) (path : Bytes) (stat : Stat)
      (misses : Nat) :
      PassStep s id { s.setPass id (some ⟨pass.passStartedAt, .missed path stat⟩) with
        cache := { s.cache with misses } }
  | read (pass : LineCountPass) (hPass : s.passes id = some pass) (path : Bytes) (stat : Stat)
      (contents : Bytes) (hContents : contentsAt s.writes path = some contents) :
      PassStep s id (s.setPass id (some ⟨pass.passStartedAt, .read path stat contents⟩))
  | store (passStartedAt : Int) (path : Bytes) (stat : Stat) (contents : Bytes)
      (hPass : s.passes id = some ⟨passStartedAt, .read path stat contents⟩) :
      PassStep s id { s.setPass id (some ⟨passStartedAt, .next⟩) with
        cache := s.cache.store path stat (WorkingCopyStatusReader.countLines contents) passStartedAt }
  | retainOnly (pass : LineCountPass) (hPass : s.passes id = some pass) (live : List Bytes) :
      PassStep s id { s.setPass id none with cache := s.cache.retainOnly live }

omit [DecidableEq ι] in
theorem absurd_none {s : LineCountState ι} {id : ι} {pass : LineCountPass} {P : Prop}
    (hPass : s.passes id = some pass) (hNone : s.passes id = none) : P :=
  absurd (hPass.symm.trans hNone) (Option.some_ne_none pass)

/-- Every step is the clock's, a writer's or that of one pass; a pass starts by `start` only. -/
theorem step_cases {s s' : LineCountState ι} {event : LineCountEvent ι} (h : s.step event = some s') :
    (∃ time, s.clock ≤ time ∧ s' = { s with clock := time }) ∨
    (∃ path contents, s' = { s with writes := s.writes ++ [{ path, contents, time := s.clock }] }) ∨
    ∃ id, PassStep s id s' ∧ (s.passes id = none → event = .start id) := by
  cases event with
  | tick time =>
    rw [step] at h
    split at h
    · exact .inl ⟨time, ‹_›, (Option.some.inj h).symm⟩
    · cases h
  | write path contents => exact .inr (.inl ⟨path, contents, (Option.some.inj h).symm⟩)
  | start id =>
    rw [step] at h
    split at h
    · obtain rfl := Option.some.inj h
      exact .inr (.inr ⟨id, .start ‹_›, fun _ => rfl⟩)
    · cases h
  | fileSize id path =>
    refine .inr (.inr ⟨id, ?_⟩)
    rw [step] at h
    split at h
    · rename_i passStartedAt hPass
      refine ⟨?_, absurd_none hPass⟩
      split at h
      · obtain rfl := Option.some.inj h
        exact .skip _ hPass
      · split at h
        · obtain rfl := Option.some.inj h
          exact .skip _ hPass
        · obtain rfl := Option.some.inj h
          exact .fileSize _ hPass _ _
    · cases h
  | lastWriteTime id =>
    refine .inr (.inr ⟨id, ?_⟩)
    rw [step] at h
    split at h
    · rename_i passStartedAt path size sizedAt hPass
      refine ⟨?_, absurd_none hPass⟩
      split at h
      · rename_i hLast
        obtain rfl := Option.some.inj h
        exact .lastWriteTime _ _ _ _ _ hPass hLast
      · obtain rfl := Option.some.inj h
        exact .give_up _ hPass
    · cases h
  | lookup id =>
    refine .inr (.inr ⟨id, ?_⟩)
    rw [step] at h
    split at h
    · rename_i passStartedAt path stat sizedAt statedAt hPass
      refine ⟨?_, absurd_none hPass⟩
      rw [UntrackedLineCountCache.lookup] at h
      rcases hEntry : s.cache.entries path with _ | entry
      · rw [hEntry] at h
        obtain rfl := Option.some.inj h
        exact .miss _ hPass _ _ _
      · rw [hEntry] at h
        by_cases hStat : entry.stat = stat
        · simp only [if_pos hStat] at h
          obtain rfl := Option.some.inj h
          exact .hit _ _ _ _ _ _ _ hPass hEntry hStat
        · simp only [if_neg hStat] at h
          obtain rfl := Option.some.inj h
          exact .miss _ hPass _ _ _
    · cases h
  | read id =>
    refine .inr (.inr ⟨id, ?_⟩)
    rw [step] at h
    split at h
    · rename_i passStartedAt path stat hPass
      refine ⟨?_, absurd_none hPass⟩
      split at h
      · obtain rfl := Option.some.inj h
        exact .give_up _ hPass
      · rename_i contents hContents
        obtain rfl := Option.some.inj h
        exact .read _ hPass _ _ _ hContents
    · cases h
  | store id =>
    refine .inr (.inr ⟨id, ?_⟩)
    rw [step] at h
    split at h
    · rename_i passStartedAt path stat contents hPass
      obtain rfl := Option.some.inj h
      exact ⟨.store _ _ _ _ hPass, absurd_none hPass⟩
    · cases h
  | retainOnly id live =>
    refine .inr (.inr ⟨id, ?_⟩)
    rw [step] at h
    split at h
    · rename_i passStartedAt hPass
      obtain rfl := Option.some.inj h
      exact ⟨.retainOnly _ hPass _, absurd_none hPass⟩
    · cases h

/-- A pass changes no file, and no other pass. -/
theorem PassStep.frame {s s' : LineCountState ι} {id : ι} (h : PassStep s id s') :
    s'.writes = s.writes ∧ s'.clock = s.clock ∧ ∀ other, other ≠ id → s'.passes other = s.passes other := by
  cases h with
  | skip pass hPass => exact ⟨rfl, rfl, fun _ _ => rfl⟩
  | _ => exact ⟨rfl, rfl, fun other hOther => Function.update_of_ne hOther _ _⟩

/-- An entry is as old as its state, or counts a file dated before the pass that read it. -/
theorem PassStep.entries {s s' : LineCountState ι} {id : ι} (h : PassStep s id s') {path : Bytes}
    {entry : UntrackedLineCountCache.Entry} (hEntry : s'.cache.entries path = some entry) :
    s.cache.entries path = some entry ∨
    ∃ (passStartedAt : Int) (contents : Bytes),
      s.passes id = some ⟨passStartedAt, .read path entry.stat contents⟩ ∧
      entry.stat.modified < passStartedAt ∧ entry.lines = WorkingCopyStatusReader.countLines contents := by
  cases h with
  | store passStartedAt storedPath stat contents hPass =>
    simp only [UntrackedLineCountCache.store] at hEntry
    split at hEntry
    · by_cases hPath : path = storedPath
      · subst hPath
        simp only [Function.update_self] at hEntry
        obtain rfl := Option.some.inj hEntry
        exact .inr ⟨passStartedAt, contents, hPass, ‹_›, rfl⟩
      · simp only [Function.update_of_ne hPath] at hEntry
        exact .inl hEntry
    · exact .inl hEntry
  | retainOnly pass hPass live =>
    simp only [UntrackedLineCountCache.retainOnly] at hEntry
    split at hEntry
    · exact .inl hEntry
    · cases hEntry
  | _ => exact .inl hEntry

theorem PassStep.hits {s s' : LineCountState ι} {id : ι} (h : PassStep s id s') {hit : LineCountHit}
    (hHit : hit ∈ s'.hits) :
    hit ∈ s.hits ∨
    ∃ (passStartedAt : Int) (entry : UntrackedLineCountCache.Entry),
      s.passes id = some ⟨passStartedAt, .stated hit.path entry.stat hit.sizedAt hit.statedAt⟩ ∧
      s.cache.entries hit.path = some entry ∧ hit.lines = entry.lines ∧ hit.lookedUpAt = s.writes.length := by
  cases h with
  | hit passStartedAt path stat sizedAt statedAt entry hits hPass hEntry hStat =>
    subst hStat
    rcases List.mem_append.mp hHit with hOld | hNew
    · exact .inl hOld
    · obtain rfl := List.mem_singleton.mp hNew
      exact .inr ⟨passStartedAt, entry, hPass, hEntry, rfl, rfl⟩
  | _ => exact .inl hHit

/-- A pass that is about to look up has asked for the size just now, or had done so before. -/
theorem PassStep.sizedAt {s s' : LineCountState ι} {id : ι} (h : PassStep s id s') {pass : LineCountPass}
    (hPass' : s'.passes id = some pass) {sizedAt : Nat} (hSized : pass.stage.sizedAt? = some sizedAt) :
    s'.cache.entries = s.cache.entries ∧
    (sizedAt = s.writes.length ∨
      ∃ old, s.passes id = some old ∧ old.stage.sizedAt? = some sizedAt) := by
  cases h with
  | skip old hPass => exact ⟨rfl, .inr ⟨pass, hPass', hSized⟩⟩
  | fileSize old hPass path size =>
    obtain rfl := Option.some.inj ((Function.update_self id _ _).symm.trans hPass')
    exact ⟨rfl, .inl (Option.some.inj hSized).symm⟩
  | lastWriteTime passStartedAt path size sizedBefore write hPass hLast =>
    obtain rfl := Option.some.inj ((Function.update_self id _ _).symm.trans hPass')
    exact ⟨rfl, .inr ⟨_, hPass, hSized⟩⟩
  | retainOnly old hPass live =>
    exact absurd ((Function.update_self id _ _).symm.trans hPass') (Option.some_ne_none _).symm
  | _ =>
    obtain rfl := Option.some.inj ((Function.update_self id _ _).symm.trans hPass')
    cases hSized

section Quiet

variable {s : LineCountState ι} {id : ι} {reads : StatusReads}

/-- The file system answers as the writes left it. -/
structure Answers (s : LineCountState ι) (reads : StatusReads) : Prop where
  fileSize : ∀ path, reads.fileSize path = (contentsAt s.writes path).map List.length
  lastWriteTime : ∀ path, reads.lastWriteTime path =
    (lastWrite s.writes path).bind fun write => write.contents.map fun _ => write.time
  contents : ∀ path, reads.contents path = contentsAt s.writes path

/-- While nothing is written, the steps of a pass on one entry are `countUntrackedEntry`. -/
theorem quiet_entry (hAnswers : Answers s reads) (hPass : s.passes id = some ⟨reads.now, .next⟩)
    (entry : WorkingCopyEntry) :
    ∃ (events : List (LineCountEvent ι)) (s' : LineCountState ι), events.foldlM step s = some s' ∧
      s'.passes id = some ⟨reads.now, .next⟩ ∧ s'.writes = s.writes ∧
      s'.cache = (WorkingCopyStatusReader.countUntrackedEntry reads s.cache entry).2 := by
  rw [WorkingCopyStatusReader.countUntrackedEntry, hAnswers.fileSize]
  rcases hLast : lastWrite s.writes entry.path with _ | ⟨path, _ | contents, modified⟩
  · have hNone : contentsAt s.writes entry.path = none := by rw [contentsAt, hLast]; rfl
    exact ⟨[], s, rfl, hPass, rfl, by rw [hNone]; rfl⟩
  · have hNone : contentsAt s.writes entry.path = none := by rw [contentsAt, hLast]; rfl
    exact ⟨[], s, rfl, hPass, rfl, by rw [hNone]; rfl⟩
  · have hContents : contentsAt s.writes entry.path = some contents := by rw [contentsAt, hLast]; rfl
    have hModified : reads.lastWriteTime entry.path = some modified := by
      rw [hAnswers.lastWriteTime, hLast]
      rfl
    have hRead : reads.contents entry.path = some contents := by rw [hAnswers.contents, hContents]
    simp only [hContents, hModified, hRead, Option.map_some]
    by_cases hCap : WorkingCopyStatusReader.kUntrackedLineCountByteCap < contents.length
    · exact ⟨[], s, rfl, hPass, rfl, by simp [hCap]⟩
    · rcases hLookup : s.cache.lookup entry.path ⟨contents.length, modified⟩ with ⟨_ | lines, cache⟩
      · refine ⟨[.fileSize id entry.path, .lastWriteTime id, .lookup id, .read id, .store id], ?_⟩
        simp [step, setPass, hPass, hContents, hCap, hLast, hLookup]
      · refine ⟨[.fileSize id entry.path, .lastWriteTime id, .lookup id], ?_⟩
        simp [step, setPass, hPass, hContents, hCap, hLast, hLookup]

end Quiet

end LineCountState

end GitBranchManager
