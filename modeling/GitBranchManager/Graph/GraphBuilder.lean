import GitBranchManager.Graph.LaneAllocator
import GitBranchManager.Library.Waiting

/-! # The streaming commit graph builder

Commits arrive one row at a time. Each edge is created with its parent row open and is
patched when the parent is emitted, through the pool of pending edges. Edge indices are
not truncated to 32 bits here: edges numbered past 2^32 are not modelled.
-/

namespace GitBranchManager

open Library.Waiting LaneAllocator

inductive EdgeKind
  | firstParent
  | mergeParent
  | octopus
  deriving DecidableEq, Repr

structure RowMeta where
  parentOffset : Nat := 0
  edgeOffset : Nat := 0
  commitTime : UInt32 := 0
  lane : Nat := 0
  color : UInt8 := 0
  flags : UInt8 := 0
  deriving DecidableEq, Repr

namespace RowMeta

def flagParentCountMask : UInt8 := 0x07
def flagIsMerge : UInt8 := 0x08
def flagHasRefs : UInt8 := 0x10
def flagIsHead : UInt8 := 0x20
def flagBoundary : UInt8 := 0x40
def flagLaneOverflow : UInt8 := 0x80

end RowMeta

structure Edge where
  childRow : Nat := 0
  parentRow : Nat := kRowBoundary
  lane : Nat := 0
  childLane : Nat := 0
  color : UInt8 := 0
  kind : EdgeKind := .firstParent
  deriving DecidableEq, Repr

structure GraphSnapshot where
  oids : List ObjectId := []
  rows : List RowMeta := []
  parentPool : List Nat := []
  edges : List Edge := []
  laneCount : Nat := 0
  complete : Bool := false
  truncated : Bool := false
  overflowedEdges : Nat := 0
  deriving DecidableEq

structure GraphOptions where
  maxRows : UInt32 := 2000000
  trunkTip : ObjectId := .null

structure PendingEdge where
  edgeId : Nat := 0
  parentPoolIndex : Nat := 0
  lane : Nat := 0
  childRow : Nat := 0
  color : UInt8 := 0
  firstParent : Bool := false
  deriving DecidableEq, Repr

/-- A commit as the walk feeds it, its parents in git's order. -/
structure Commit where
  oid : ObjectId
  parents : List ObjectId := []
  commitTime : UInt32 := 0
  deriving DecidableEq

/-- `pending` lists the edges of every parent together; those of one parent are in the
order the source's vector has them. -/
structure GraphBuilder where
  options : GraphOptions
  lanes : LaneAllocator := {}
  pending : List (ObjectId × PendingEdge) := []
  laneRefCount : Nat → Nat := fun _ => 0
  built : GraphSnapshot := {}
  finished : Bool := false

namespace GraphBuilder

/-- The constructor: a trunk tip holds lane 0 from before the first row. -/
def new (options : GraphOptions) : GraphBuilder where
  options
  lanes := if options.trunkTip.isNull then {} else LaneAllocator.reserve {} 0

def isTrunkTip (b : GraphBuilder) (oid : ObjectId) : Bool :=
  !b.options.trunkTip.isNull && oid == b.options.trunkTip

def rank (edge : PendingEdge) : Nat := if edge.firstParent then 0 else 1

def better (best candidate : PendingEdge) : PendingEdge :=
  if rank candidate < rank best ∨ rank candidate = rank best ∧ candidate.lane < best.lane
  then candidate else best

/-- The straightness rule: first-parent edges before others, then the leftmost. -/
def chooseLane : List PendingEdge → Nat
  | [] => 0
  | first :: rest => (rest.foldl better first).lane

/-- Part 1 of `add`: the lane of a new row, and the allocator once it is held. -/
def occupy (b : GraphBuilder) (oid : ObjectId) (incoming : List PendingEdge) : Nat × LaneAllocator :=
  if b.isTrunkTip oid then (0, b.lanes.seed 0 oid)
  else if incoming.isEmpty then
    let (lane, lanes) := b.lanes.allocateLeftmost
    (lane, lanes.seed lane oid)
  else (chooseLane incoming, b.lanes)

def patchEdge (row : Nat) (b : GraphBuilder) (edge : PendingEdge) : GraphBuilder :=
  { b with
    built := { b.built with
      edges := b.built.edges.modify edge.edgeId fun e => { e with parentRow := row }
      parentPool := b.built.parentPool.set edge.parentPoolIndex row }
    laneRefCount :=
      if !isOverflow edge.lane && 0 < b.laneRefCount edge.lane then
        Function.update b.laneRefCount edge.lane (b.laneRefCount edge.lane - 1)
      else b.laneRefCount }

def patchIncoming (b : GraphBuilder) (incoming : List PendingEdge) (row : Nat) : GraphBuilder :=
  incoming.foldl (patchEdge row) b

def releaseIfEnded (b : GraphBuilder) (lane : Nat) : GraphBuilder :=
  if !isOverflow lane && b.laneRefCount lane == 0 then { b with lanes := b.lanes.release lane } else b

/-- Every other incoming lane bends into `lane`; a column that has ended is freed. -/
def releaseOthers (b : GraphBuilder) (incoming : List PendingEdge) (lane : Nat) : GraphBuilder :=
  incoming.foldl (fun b edge => if edge.lane ≠ lane then b.releaseIfEnded edge.lane else b) b

def rowMeta (b : GraphBuilder) (commit : Commit) (lane : Nat) (color : UInt8) : RowMeta where
  parentOffset := b.built.parentPool.length
  edgeOffset := b.built.edges.length
  commitTime := commit.commitTime
  lane
  color
  flags :=
    let count := UInt8.ofNat (min commit.parents.length 7)
    let merge := if 1 < commit.parents.length then count ||| RowMeta.flagIsMerge else count
    if isOverflow lane then merge ||| RowMeta.flagLaneOverflow else merge

def pushRow (b : GraphBuilder) (commit : Commit) (lane : Nat) (color : UInt8) : GraphBuilder :=
  { b with
    built := { b.built with
      oids := b.built.oids ++ [commit.oid]
      rows := b.built.rows ++ [b.rowMeta commit lane color]
      parentPool := b.built.parentPool ++ List.replicate commit.parents.length kRowBoundary } }

def createEdge (b : GraphBuilder) (childRow childLane descendLane : Nat) (color : UInt8)
    (kind : EdgeKind) : Nat × GraphBuilder :=
  let edge : Edge :=
    { childRow, parentRow := kRowBoundary, lane := descendLane, childLane, color, kind }
  (b.built.edges.length,
    { b with
      built := { b.built with
        edges := b.built.edges ++ [edge]
        overflowedEdges :=
          if isOverflow descendLane then b.built.overflowedEdges + 1 else b.built.overflowedEdges } })

/-- An edge in `lane`, and the pending entry that stands for it until `parent` is emitted. -/
def connect (b : GraphBuilder) (parent : ObjectId) (row childLane lane : Nat) (color : UInt8)
    (kind : EdgeKind) (parentPoolIndex : Nat) (firstParent : Bool) : GraphBuilder :=
  let (edgeId, b) := b.createEdge row childLane lane color kind
  { b with
    pending := b.pending ++
      [(parent, { edgeId, parentPoolIndex, lane, childRow := row, color, firstParent })]
    laneRefCount :=
      if isOverflow lane then b.laneRefCount
      else Function.update b.laneRefCount lane (b.laneRefCount lane + 1) }

/-- Part 2a of `add`: the first parent inherits the lane and its colour. -/
def connectFirst (b : GraphBuilder) (row lane : Nat) (color : UInt8) (parentOffset : Nat)
    (parent : ObjectId) : GraphBuilder :=
  b.connect parent row lane lane color .firstParent parentOffset true

/-- The lane in which a second or later parent is reached: the leftmost of those that lead
to it already, else a new one right of the child. -/
def route (b : GraphBuilder) (lane : Nat) (parent : ObjectId) : Nat × LaneAllocator :=
  match waiting b.pending parent with
  | first :: rest => (rest.foldl (fun target edge => min target edge.lane) first.lane, b.lanes)
  | [] =>
    let (target, lanes) := b.lanes.allocateAfter lane
    (target, lanes.seed target parent)

def connectMerged (b : GraphBuilder) (row lane : Nat) (kind : EdgeKind) (parent : ObjectId)
    (parentPoolIndex : Nat) : GraphBuilder :=
  let (target, lanes) := b.route lane parent
  { b with lanes }.connect parent row lane target (lanes.colorOf target) kind parentPoolIndex false

def recordLaneCount (b : GraphBuilder) : GraphBuilder :=
  { b with built := { b.built with laneCount := b.lanes.highWater } }

/-- Part 2 of `add`: the edges to the parents, or the end of a root's column. -/
def descend (b : GraphBuilder) (row lane : Nat) (color : UInt8) (parentOffset : Nat) :
    List ObjectId → GraphBuilder
  | [] => b.releaseIfEnded lane
  | first :: rest =>
    let kind := if 1 < rest.length then EdgeKind.octopus else .mergeParent
    (rest.zipIdx (parentOffset + 1)).foldl
      (fun b (parent, index) => b.connectMerged row lane kind parent index)
      (b.connectFirst row lane color parentOffset first)

def arrive (b : GraphBuilder) (commit : Commit) (lane : Nat) (lanes : LaneAllocator) : GraphBuilder :=
  let incoming := waiting b.pending commit.oid
  ((({ b with pending := discard b.pending commit.oid, lanes }).patchIncoming incoming
    b.built.rows.length).releaseOthers incoming lane).pushRow commit lane (lanes.colorOf lane)

def emit (b : GraphBuilder) (commit : Commit) : GraphBuilder :=
  let (lane, lanes) := b.occupy commit.oid (waiting b.pending commit.oid)
  ((b.arrive commit lane lanes).descend b.built.rows.length lane (lanes.colorOf lane)
    b.built.parentPool.length commit.parents).recordLaneCount

def markTruncated (b : GraphBuilder) : GraphBuilder :=
  { b with built := { b.built with truncated := true } }

def add (b : GraphBuilder) (commit : Commit) : GraphBuilder :=
  if b.options.maxRows.toNat ≤ b.built.rows.length then b.markTruncated else b.emit commit

def setRowFlags (b : GraphBuilder) (row : Nat) (flagsToSet : UInt8) : GraphBuilder :=
  { b with built := { b.built with
      rows := b.built.rows.modify row fun m => { m with flags := m.flags ||| flagsToSet } } }

def reopen (edges : List Edge) (edge : PendingEdge) : List Edge :=
  edges.modify edge.edgeId fun e => { e with parentRow := kRowBoundary }

def markBoundary (rows : List RowMeta) (edge : PendingEdge) : List RowMeta :=
  rows.modify edge.childRow fun m => { m with flags := m.flags ||| RowMeta.flagBoundary }

def finish (b : GraphBuilder) : GraphBuilder :=
  { b with
    built := { b.built with
      edges := b.pending.foldl (fun edges item => reopen edges item.2) b.built.edges
      rows := b.pending.foldl (fun rows item => markBoundary rows item.2) b.built.rows
      complete := true
      laneCount := b.lanes.highWater }
    finished := true }

def snapshot (b : GraphBuilder) : GraphSnapshot :=
  { b.built with
    complete := b.finished
    edges :=
      if b.finished then b.built.edges
      else b.pending.foldl (fun edges item => reopen edges item.2) b.built.edges }

def walk (options : GraphOptions) (commits : List Commit) : GraphBuilder :=
  commits.foldl add (new options)

end GraphBuilder

end GitBranchManager
