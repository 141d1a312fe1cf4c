import GitBranchManager.Base.GitError
import GitBranchManager.Base.ObjectId
import GitBranchManager.Library.Chunks

/-! # The `git cat-file --batch` co-process

One child answers every request over one pipe. The pipe is the list of chunks that its reads
find, and ends where the child is gone; what a request leaves unread, the next one reads first.
-/

namespace GitBranchManager

structure CatFileObject where
  oid : ObjectId
  type : Bytes
  content : Bytes
  deriving DecidableEq

structure CatFileChild where
  id : Nat
  unread : List Bytes := []
  deriving DecidableEq, Repr

/-- `spawned` counts the children that were started, which no call reads. -/
structure CatFileBatch where
  child : Option CatFileChild := none
  poisoned : Bool := false
  spawned : Nat := 0
  deriving DecidableEq, Repr

/-- A call of `read`, and what the system does meanwhile: whether a child can be started,
whether the request could be written, what the pipe then brings and whether the watchdog
killed the child. -/
structure CatFileRequest where
  revision : Bytes
  cancelled : Bool := false
  deadlineMs : Nat := 30000
  spawns : Bool := true
  written : Bool := true
  arrives : List Bytes
  fired : Bool := false
  deriving DecidableEq, Repr

namespace CatFileBatch

open Library

def kMaxHeader : Nat := 64 * 1024
def kMaxObjectBytes : Nat := 128 * 1024 * 1024
def kScratch : Nat := 64 * 1024

structure ResponseHeader where
  oid : ObjectId
  type : Bytes
  size : Nat
  deriving DecidableEq

/-- The size is a `std::size_t`. -/
def parseHeader (header : Bytes) : GitResult ResponseHeader :=
  match find [space] header with
  | none => .error { code := .parseError, message := ascii "Unexpected cat-file response" }
  | some firstSpace =>
    let rest := header.drop (firstSpace + 1)
    match find [space] rest with
    | none => .error { code := .parseError, message := ascii "Unexpected cat-file response" }
    | some secondSpace =>
      let digits := rest.drop (secondSpace + 1)
      if digits.all Decimal.isDigit then
        .ok
          { oid := ObjectId.fromHex (header.take firstSpace)
            type := rest.take secondSpace
            size := Decimal.value digits % 2 ^ 64 }
      else .error { code := .parseError, message := ascii "Unexpected cat-file size" }

def stoppedResponding : GitError :=
  { code := .io, message := ascii "The git cat-file process stopped responding" }

def noSuchObject (revision : Bytes) : GitError :=
  { code := .notFound, message := ascii "No such object: " ++ revision }

def ambiguousName (revision : Bytes) : GitError :=
  { code := .invalidArgument, message := ascii "Ambiguous object name: " ++ revision }

def tooLarge (size : Nat) : GitError :=
  { code := .tooLarge
    message := ascii "Object is too large to display (" ++ Decimal.numeral (size / (1024 * 1024)) ++
      ascii " MB)" }

/-- The answer, whether it poisons the batch, and the pipe behind it. An object over the limit
is read in pieces that are thrown away; one that is shorter is read with its final line feed. -/
def readPayload (header : ResponseHeader) (pipe : List Bytes) :
    GitResult CatFileObject × Bool × List Bytes :=
  if kMaxObjectBytes < header.size then
    let remaining := (header.size + 1) % 2 ^ 64
    match Chunks.collect kScratch remaining remaining pipe with
    | (some _, pipe) => (.error (tooLarge header.size), false, pipe)
    | (none, pipe) => (.error (tooLarge header.size), true, pipe)
  else
    match Chunks.collect kMaxObjectBytes header.size header.size pipe with
    | (none, pipe) =>
      (.error { code := .io, message := ascii "The git cat-file process stopped mid-object" }, true, pipe)
    | (some content, pipe) =>
      match Chunks.collect 1 1 1 pipe with
      | (some [10], pipe) => (.ok { oid := header.oid, type := header.type, content }, false, pipe)
      | (_, pipe) =>
        (.error { code := .parseError, message := ascii "Malformed cat-file record terminator" }, true, pipe)

def exchangeLocked (revision : Bytes) (written : Bool) (pipe : List Bytes) :
    GitResult CatFileObject × Bool × List Bytes :=
  if !written then (.error stoppedResponding, true, pipe)
  else
    match Chunks.readLine LF (kMaxHeader + 1) pipe with
    | (none, pipe) => (.error stoppedResponding, true, pipe)
    | (some header, pipe) =>
      if 8 < header.length ∧ header.drop (header.length - 8) = ascii " missing" then
        (.error (noSuchObject revision), false, pipe)
      else if (find (ascii " ambiguous") header).isSome then (.error (ambiguousName revision), false, pipe)
      else match parseHeader header with
        | .error error => (.error error, true, pipe)
        | .ok header => readPayload header pipe

/-- The child that takes the next request: the running one, or a new one in place of a missing
or poisoned one. -/
def ready (s : CatFileBatch) (spawns : Bool) : Option CatFileChild × CatFileBatch :=
  match s.child, s.poisoned with
  | some child, false => (some child, s)
  | _, _ =>
    if spawns then
      (some { id := s.spawned }, { child := some { id := s.spawned }, spawned := s.spawned + 1 })
    else (none, { s with child := none, poisoned := false })

def start (s : CatFileBatch) (spawns : Bool) : CatFileBatch := (s.ready spawns).2

def stop (s : CatFileBatch) : CatFileBatch := { s with child := none }

def isRunning (s : CatFileBatch) : Bool := s.child.isSome && !s.poisoned

def timedOut (deadlineMs : Nat) : GitError :=
  { code := .timeout
    message := ascii "git cat-file did not answer within " ++ Decimal.numeral deadlineMs ++ ascii " ms" }

def read (s : CatFileBatch) (request : CatFileRequest) : GitResult CatFileObject × CatFileBatch :=
  if request.revision.isEmpty || request.revision.contains LF then
    (.error { code := .invalidArgument, message := ascii "Invalid object revision" }, s)
  else if request.cancelled then (.error { code := .cancelled, message := ascii "Read cancelled" }, s)
  else
    match s.ready request.spawns with
    | (none, s) => (.error { code := .spawnFailed, message := ascii "Could not start git cat-file --batch" }, s)
    | (some child, s) =>
      let (object, poisons, pipe) :=
        exchangeLocked request.revision request.written (child.unread ++ request.arrives)
      let s := { s with child := some { child with unread := pipe }, poisoned := poisons }
      if request.fired then (.error (timedOut request.deadlineMs), { s with poisoned := true })
      else (object, s)

end CatFileBatch

end GitBranchManager
