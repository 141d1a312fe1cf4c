import GitBranchManager.Base.GitError
import GitBranchManager.Base.ObjectId
import GitBranchManager.Graph.GraphBuilder
import GitBranchManager.Library.Lines

/-! # The history walk

`git rev-list` prints one record a line, and the walk feeds them to the graph builder. A linear
walk holds each record back until the next one is read, whose id then stands for its parents.
-/

namespace GitBranchManager

/-- A walk that is narrowed to some refs need not reach HEAD, and then reserves no trunk lane. -/
structure HistoryQuery where
  includeRefs : List Bytes := []
  firstParentOnly : Bool := false
  noMerges : Bool := false
  maxCount : UInt32 := 0
  trunkTip : ObjectId := .null
  unreserved : includeRefs ≠ [] → trunkTip.isNull = true

namespace HistoryQuery

def isLinearWalk (query : HistoryQuery) : Bool := query.includeRefs.length == 1 && query.noMerges

end HistoryQuery

/-- The filter that a session's history is under. -/
structure HistoryFilter where
  includeRefs : List Bytes := []
  firstParentOnly : Bool := false
  noMerges : Bool := false

/-- The query of a session's refresh: stale refs are dropped, and HEAD's tip is reserved only if
no ref is left. -/
def HistoryFilter.query (filter : HistoryFilter) (refExists : Bytes → Bool) (freshHead : Option ObjectId)
    (head : ObjectId) : HistoryQuery where
  includeRefs := filter.includeRefs.filter refExists
  firstParentOnly := filter.firstParentOnly
  noMerges := filter.noMerges
  trunkTip := if (filter.includeRefs.filter refExists).isEmpty then freshHead.getD head else .null
  unreserved := by
    intro hSome
    rw [if_neg (fun hNone => hSome (List.isEmpty_iff.mp hNone))]
    rfl

namespace HistoryProvider

structure Record where
  oid : ObjectId := .null
  parents : List ObjectId := []
  commitTime : UInt32 := 0
  valid : Bool := false
  deriving DecidableEq

/-- What `nextToken` takes from a line, one after another. -/
def tokens (line : Bytes) : List Bytes :=
  let (fields, rest) := Library.Lines.cut space line
  (fields ++ [rest]).filter fun token => !token.isEmpty

/-- `std::from_chars` into a `std::uint64_t`. -/
def parseSeconds (text : Bytes) : Option Nat :=
  if (text.takeWhile Library.Decimal.isDigit).isEmpty then none
  else if Library.Decimal.read text < 2 ^ 64 then some (Library.Decimal.read text) else none

def parseRevListLine (line : Bytes) : Record :=
  match tokens line with
  | [] => {}
  | timestamp :: rest =>
    match parseSeconds timestamp with
    | none => {}
    | some seconds =>
      let commitTime := UInt32.ofNat (min seconds 0xFFFFFFFF)
      match rest with
      | [] => { commitTime }
      | oidText :: parentTexts =>
        let oid := ObjectId.fromHex oidText
        if oid.isNull then { commitTime }
        else
          { oid
            parents := (parentTexts.map ObjectId.fromHex).filter fun parent => !parent.isNull
            commitTime
            valid := true }

def kFirstChunkRows : Nat := 256
def kMaxChunkRows : Nat := 131072

structure WalkState where
  builder : GraphBuilder
  malformedLines : Nat := 0
  held : Record := {}
  nextPublishAt : Nat := kFirstChunkRows
  publishedOnce : Bool := false
  chunks : List GraphSnapshot := []

/-- What a line meets: a cancelled token, and the interval of the first chunk gone by. -/
structure Arrival where
  cancelled : Bool := false
  waited : Bool := false
  line : Bytes

namespace WalkState

/-- The record held back is emitted with the one that follows it as its parent. -/
def accept (s : WalkState) (bridgeFilteredParents : Bool) (record : Record) : WalkState :=
  if bridgeFilteredParents then
    { s with
      builder :=
        if s.held.valid then
          s.builder.add { oid := s.held.oid, parents := [record.oid], commitTime := s.held.commitTime }
        else s.builder
      held := record }
  else
    { s with
      builder := s.builder.add
        { oid := record.oid, parents := record.parents, commitTime := record.commitTime } }

def publish (s : WalkState) (waited : Bool) : WalkState :=
  let rows := s.builder.built.rows.length
  if s.nextPublishAt ≤ rows ∨ (!s.publishedOnce && waited) = true ∧ 0 < rows then
    { s with
      chunks := s.chunks ++ [s.builder.snapshot]
      publishedOnce := true
      nextPublishAt := rows + min (max rows kFirstChunkRows) kMaxChunkRows }
  else s

/-- The line sink of the walk; it answers whether it wants more. -/
def sink (s : WalkState) (query : HistoryQuery) (arrival : Arrival) : WalkState × Bool :=
  if arrival.cancelled then (s, false)
  else
    let record := parseRevListLine arrival.line
    if !record.valid then ({ s with malformedLines := s.malformedLines + 1 }, true)
    else
      let s := s.accept query.isLinearWalk record
      if s.builder.built.truncated then (s, false) else (s.publish arrival.waited, true)

def streamSeparated (s : WalkState) (query : HistoryQuery) : List Arrival → WalkState
  | [] => s
  | arrival :: arrivals =>
    match s.sink query arrival with
    | (s, true) => s.streamSeparated query arrivals
    | (s, false) => s

end WalkState

/-- The walk over what git prints; `streamed` is what became of the process. The chunks handed
out come with the result. -/
def walk (query : HistoryQuery) (arrivals : List Arrival) (streamed : GitResult Unit) :
    GitResult GraphSnapshot × List GraphSnapshot :=
  let s := WalkState.streamSeparated { builder := .new { trunkTip := query.trunkTip } } query arrivals
  match streamed with
  | .error error => (.error error, s.chunks)
  | .ok () =>
    let builder :=
      if query.isLinearWalk && s.held.valid then
        s.builder.add { oid := s.held.oid, parents := s.held.parents, commitTime := s.held.commitTime }
      else s.builder
    let builder :=
      if 0 < query.maxCount ∧ query.maxCount.toNat ≤ builder.built.rows.length then builder.markTruncated
      else builder
    let finalSnapshot := builder.finish.snapshot
    (.ok finalSnapshot, s.chunks ++ [finalSnapshot])

end HistoryProvider

end GitBranchManager
