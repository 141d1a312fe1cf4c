import GitBranchManager.Base.Bytes
import GitBranchManager.Library.Lines

/-! # The record splitter of the process runner

Git's output arrives in chunks. What the splitter gives to a sink that never asks to stop
depends on the output alone.
-/

namespace GitBranchManager

def NUL : UInt8 := 0

structure LineSplitter where
  separator : UInt8
  pending : Bytes := []
  deriving DecidableEq, Repr

namespace LineSplitter

/-- Only lines lose a carriage return, a record that ends in NUL keeps it. -/
def trimmed (separator : UInt8) (record : Bytes) : Bytes :=
  if separator = LF ∧ record.getLast? = some CR then record.dropLast else record

def feed (splitter : LineSplitter) (chunk : Bytes) : List Bytes × LineSplitter :=
  let (records, pending) := Library.Lines.cut splitter.separator (splitter.pending ++ chunk)
  (records.map (trimmed splitter.separator), { splitter with pending })

def finish (splitter : LineSplitter) : List Bytes :=
  if splitter.pending.isEmpty then [] else [trimmed splitter.separator splitter.pending]

def feedAll (splitter : LineSplitter) : List Bytes → List Bytes
  | [] => splitter.finish
  | chunk :: chunks =>
    let (records, splitter) := splitter.feed chunk
    records ++ splitter.feedAll chunks

def records (separator : UInt8) (chunks : List Bytes) : List Bytes :=
  feedAll { separator } chunks

theorem feedAll_eq (splitter : LineSplitter) (hPending : splitter.separator ∉ splitter.pending)
    (chunks : List Bytes) :
    splitter.feedAll chunks =
      (Library.Lines.cut splitter.separator (splitter.pending ++ chunks.flatten)).1.map
        (trimmed splitter.separator) ++
      finish { splitter with
        pending := (Library.Lines.cut splitter.separator (splitter.pending ++ chunks.flatten)).2 } := by
  induction chunks generalizing splitter with
  | nil =>
    rw [List.flatten_nil, List.append_nil, Library.Lines.cut_open _ hPending]
    rfl
  | cons chunk chunks ih =>
    have hFree := (Library.Lines.sep_not_mem_cut splitter.separator (splitter.pending ++ chunk)).2
    rw [List.flatten_cons, ← List.append_assoc, Library.Lines.cut_append, feedAll]
    simp only [feed]
    rw [ih _ hFree, List.map_append, List.append_assoc]

/-- Records that each end in the separator are read back, however the stream is chopped. -/
theorem records_join {separator : UInt8} {written : List Bytes} {chunks : List Bytes}
    (hWritten : ∀ record ∈ written, separator ∉ record)
    (hChunks : chunks.flatten = Library.Lines.join separator written) :
    records separator chunks = written.map (trimmed separator) := by
  have hCut : Library.Lines.cut separator chunks.flatten = (written, []) := by
    have hJoin := Library.Lines.cut_join separator hWritten (List.not_mem_nil : separator ∉ ([] : Bytes))
    rwa [List.append_nil, ← hChunks] at hJoin
  rw [records, feedAll_eq { separator } List.not_mem_nil, List.nil_append, hCut]
  simp [finish]

theorem records_nul {written : List Bytes} {chunks : List Bytes}
    (hWritten : ∀ record ∈ written, NUL ∉ record)
    (hChunks : chunks.flatten = Library.Lines.join NUL written) : records NUL chunks = written := by
  have hKept : trimmed NUL = id := by
    funext record
    exact if_neg (fun hLine => absurd hLine.1 (by decide))
  rw [records_join hWritten hChunks, hKept, List.map_id]

end LineSplitter

/-! ## The record splitter and its sink

A sink may ask to stop at any record, and what it answers may depend on every record it got.
Both pumps feed one chunk after another until the sink asks to stop, and then finish.
-/

/-- The answer to a record, after the records given before it; `false` asks to stop. -/
abbrev LineSink := List Bytes → Bytes → Bool

/-- The splitter, and what its sink was given so far. -/
structure SinkSplitter where
  separator : UInt8
  pending : Bytes := []
  stopped : Bool := false
  given : List Bytes := []
  deriving DecidableEq, Repr

namespace SinkSplitter

open LineSplitter (trimmed)

/-- The loop of `feed` over the terminated records, and whether it ran to its end. A splitter
without a sink gives nothing away. -/
def giveAll (sink : Option LineSink) (given : List Bytes) : List Bytes → List Bytes × Bool
  | [] => (given, true)
  | record :: records =>
    match sink with
    | none => giveAll none given records
    | some answer =>
      if answer given record then giveAll (some answer) (given ++ [record]) records
      else (given ++ [record], false)

/-- What is pending stays pending, records and all, when the sink asks to stop. -/
def feed (sink : Option LineSink) (splitter : SinkSplitter) (chunk : Bytes) : SinkSplitter × Bool :=
  let pending := splitter.pending ++ chunk
  let (records, rest) := Library.Lines.cut splitter.separator pending
  match giveAll sink splitter.given (records.map (trimmed splitter.separator)) with
  | (given, true) => ({ splitter with pending := rest, given }, true)
  | (given, false) => ({ splitter with pending, stopped := true, given }, false)

/-- The answer to the last record, which has no separator behind it, is not looked at. -/
def finish (sink : Option LineSink) (splitter : SinkSplitter) : SinkSplitter :=
  if splitter.stopped || splitter.pending.isEmpty then splitter
  else
    let record := trimmed splitter.separator splitter.pending
    { splitter with
      pending := []
      given := if sink.isSome then splitter.given ++ [record] else splitter.given }

/-- The reading loop of `PosixChild::pump` and `WindowsChild::pump`. -/
def pump (sink : Option LineSink) (splitter : SinkSplitter) : List Bytes → SinkSplitter
  | [] => splitter.finish sink
  | chunk :: chunks =>
    match splitter.feed sink chunk with
    | (splitter, true) => splitter.pump sink chunks
    | (splitter, false) => splitter.finish sink

/-- The whole stream split at once. -/
def split (separator : UInt8) (stream : Bytes) : List Bytes :=
  let (records, rest) := Library.Lines.cut separator stream
  records.map (trimmed separator) ++ if rest.isEmpty then [] else [trimmed separator rest]

/-- The records up to the one the sink refuses, that one included. -/
def upToRefusal (sink : LineSink) (given : List Bytes) : List Bytes → List Bytes
  | [] => []
  | record :: records =>
    record :: if sink given record then upToRefusal sink (given ++ [record]) records else []

theorem giveAll_none (given records : List Bytes) : giveAll none given records = (given, true) := by
  induction records with
  | nil => rfl
  | cons record records ih => exact ih

theorem giveAll_some (sink : LineSink) (given records : List Bytes) :
    (giveAll (some sink) given records).1 = given ++ upToRefusal sink given records := by
  induction records generalizing given with
  | nil => exact (List.append_nil given).symm
  | cons record records ih =>
    rw [giveAll, upToRefusal]
    by_cases hAnswer : sink given record = true
    · simp only [if_pos hAnswer]
      rw [ih, List.append_assoc, List.singleton_append]
    · simp only [if_neg hAnswer]

/-- More records come only to a sink that has refused none. -/
theorem upToRefusal_append (sink : LineSink) (given records more : List Bytes) :
    upToRefusal sink given (records ++ more) =
      upToRefusal sink given records ++
        if (giveAll (some sink) given records).2 then upToRefusal sink (given ++ records) more else [] := by
  induction records generalizing given with
  | nil => simp [giveAll, upToRefusal]
  | cons record records ih =>
    rw [List.cons_append, upToRefusal, upToRefusal, giveAll]
    by_cases hAnswer : sink given record = true
    · simp only [if_pos hAnswer]
      rw [ih, List.append_assoc, List.singleton_append, List.cons_append]
    · simp [if_neg hAnswer]

theorem upToRefusal_eq_of_accepts (sink : LineSink) (given records : List Bytes)
    (h : (giveAll (some sink) given records).2 = true) : upToRefusal sink given records = records := by
  induction records generalizing given with
  | nil => rfl
  | cons record records ih =>
    rw [giveAll] at h
    by_cases hAnswer : sink given record = true
    · simp only [if_pos hAnswer] at h
      rw [upToRefusal, if_pos hAnswer, ih _ h]
    · simp [if_neg hAnswer] at h

/-- Nothing comes after a record that the sink refused. -/
theorem refused_last {sink : LineSink} {given records before after : List Bytes} {record : Bytes}
    (h : upToRefusal sink given records = before ++ record :: after)
    (hRefused : sink (given ++ before) record = false) : after = [] := by
  induction before generalizing given records with
  | nil =>
    cases records with
    | nil => cases h
    | cons first records =>
      rw [List.append_nil] at hRefused
      obtain ⟨rfl, hAfter⟩ := List.cons.inj h
      rw [if_neg (by simp [hRefused])] at hAfter
      exact hAfter.symm
  | cons first before ih =>
    cases records with
    | nil => cases h
    | cons first' records =>
      obtain ⟨rfl, hAfter⟩ := List.cons.inj h
      by_cases hAnswer : sink given first' = true
      · rw [if_pos hAnswer] at hAfter
        apply ih hAfter
        rwa [List.append_assoc, List.singleton_append]
      · rw [if_neg hAnswer] at hAfter
        cases before <;> cases hAfter

theorem given_finish (sink : LineSink) (splitter : SinkSplitter) (h : splitter.stopped = false) :
    (splitter.finish (some sink)).given =
      splitter.given ++ if splitter.pending.isEmpty then [] else [trimmed splitter.separator splitter.pending] := by
  rw [finish, h, Bool.false_or]
  split
  · rw [List.append_nil]
  · rfl

theorem upToRefusal_tail (sink : LineSink) (given : List Bytes) (separator : UInt8) (rest : Bytes) :
    upToRefusal sink given (if rest.isEmpty then [] else [trimmed separator rest]) =
      if rest.isEmpty then [] else [trimmed separator rest] := by
  split
  · rfl
  · rw [upToRefusal, upToRefusal]
    split <;> rfl

theorem split_open {separator : UInt8} {rest : Bytes} (h : separator ∉ rest) :
    split separator rest = if rest.isEmpty then [] else [trimmed separator rest] := by
  rw [split, Library.Lines.cut_open separator h]
  rfl

theorem split_append (separator : UInt8) (stream more : Bytes) :
    split separator (stream ++ more) =
      (Library.Lines.cut separator stream).1.map (trimmed separator) ++
        split separator ((Library.Lines.cut separator stream).2 ++ more) := by
  simp only [split]
  rw [Library.Lines.cut_append]
  simp only [List.map_append, List.append_assoc]

/-- By induction on the chunks: what is pending never holds a separator while the sink accepts. -/
theorem given_pump (sink : LineSink) (splitter : SinkSplitter) (hOpen : splitter.separator ∉ splitter.pending)
    (hGoing : splitter.stopped = false) (chunks : List Bytes) :
    (splitter.pump (some sink) chunks).given =
      splitter.given ++
        upToRefusal sink splitter.given (split splitter.separator (splitter.pending ++ chunks.flatten)) := by
  induction chunks generalizing splitter with
  | nil =>
    rw [pump, given_finish sink splitter hGoing, List.flatten_nil, List.append_nil, split_open hOpen,
      upToRefusal_tail]
  | cons chunk chunks ih =>
    rcases hCut : Library.Lines.cut splitter.separator (splitter.pending ++ chunk) with ⟨records, rest⟩
    have hRest : splitter.separator ∉ rest := by
      have hCutRest := (Library.Lines.sep_not_mem_cut splitter.separator (splitter.pending ++ chunk)).2
      rwa [hCut] at hCutRest
    have hGiven := giveAll_some sink splitter.given (records.map (trimmed splitter.separator))
    rw [pump, feed]
    simp only [hCut]
    rw [List.flatten_cons, ← List.append_assoc, split_append, hCut, upToRefusal_append]
    rcases hGive : giveAll (some sink) splitter.given (records.map (trimmed splitter.separator)) with
      ⟨given, _ | _⟩
    · rw [hGive] at hGiven
      simp only [finish, Bool.true_or, if_true, Bool.false_eq_true, if_false, List.append_nil]
      exact hGiven
    · rw [hGive] at hGiven
      have hAll := upToRefusal_eq_of_accepts sink splitter.given _ (congrArg Prod.snd hGive)
      rw [hAll] at hGiven ⊢
      have hLater := ih { splitter with pending := rest, given } hRest hGoing
      simp only at hGiven
      subst hGiven
      exact hLater.trans (List.append_assoc _ _ _)

theorem given_pump_none (splitter : SinkSplitter) (chunks : List Bytes) :
    (splitter.pump none chunks).given = splitter.given := by
  have hFinish : ∀ s : SinkSplitter, (s.finish none).given = s.given := by
    intro s
    rw [finish]
    split <;> rfl
  induction chunks generalizing splitter with
  | nil => exact hFinish splitter
  | cons chunk chunks ih =>
    rw [pump, feed]
    simp only [giveAll_none]
    rw [ih]

theorem given_eq_split (separator : UInt8) (sink : Option LineSink) (chunks : List Bytes) :
    (pump sink { separator } chunks).given =
      sink.elim [] fun sink => upToRefusal sink [] (split separator chunks.flatten) := by
  cases sink with
  | none => exact given_pump_none { separator } chunks
  | some sink => exact given_pump sink { separator } List.not_mem_nil rfl chunks

/-- However the stream is chopped, a sink is given the pieces between its separators and what
follows the last of them, up to the first that it refuses. -/
theorem given_in_order (separator : UInt8) (sink : Option LineSink) (chunks : List Bytes) :
    ∃ (pieces : List Bytes) (rest : Bytes),
      chunks.flatten = Library.Lines.join separator pieces ++ rest ∧
      (∀ piece ∈ pieces, separator ∉ piece) ∧ separator ∉ rest ∧
      ((pump sink { separator } chunks).given = sink.elim [] fun sink =>
        upToRefusal sink []
          (pieces.map (trimmed separator) ++ if rest.isEmpty then [] else [trimmed separator rest])) ∧
      ∀ answer, sink = some answer → ∀ before record after,
        (pump sink { separator } chunks).given = before ++ record :: after →
        answer before record = false → after = [] := by
  obtain ⟨hPieces, hRest⟩ := Library.Lines.sep_not_mem_cut separator chunks.flatten
  refine ⟨_, _, (Library.Lines.join_cut separator chunks.flatten).symm, hPieces, hRest,
    given_eq_split separator sink chunks, ?_⟩
  rintro answer rfl before record after hGiven hRefused
  rw [given_eq_split] at hGiven
  exact refused_last hGiven hRefused

theorem upToRefusal_always (given records : List Bytes) :
    upToRefusal (fun _ _ => true) given records = records := by
  induction records generalizing given with
  | nil => rfl
  | cons record records ih => rw [upToRefusal, if_pos rfl, ih]

/-- A sink that never refuses gets the records of the splitter without one. -/
theorem given_always (separator : UInt8) (chunks : List Bytes) :
    (pump (some fun _ _ => true) { separator } chunks).given = LineSplitter.records separator chunks := by
  rw [given_eq_split, Option.elim_some, upToRefusal_always, LineSplitter.records,
    LineSplitter.feedAll_eq { separator } List.not_mem_nil, List.nil_append, split]
  simp only [LineSplitter.finish]

end SinkSplitter

end GitBranchManager
