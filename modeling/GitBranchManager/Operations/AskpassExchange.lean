import GitBranchManager.Base.Bytes
import GitBranchManager.Library.Runs

/-! # The exchange over a request directory

The poller's thread, the askpass clients that git starts one after another and the thread that
answers share a directory with a request and a response file, and two flags under a lock. Each
access to a file and each critical section is a step of its own.
-/

namespace GitBranchManager

/-- What `readSmallFile` reads at most. -/
def maxBytes : Nat := 64 * 1024

/-- The size that `readSmallFile` finds, where it does not refuse the file. -/
def smallFileSize (file : Option Bytes) : Option Nat :=
  match file with
  | none => none
  | some contents => if contents.length ≤ maxBytes then some contents.length else none

/-- The rest of `readSmallFile`, which reads as many bytes as it found before. -/
def readSized (file : Option Bytes) (size : Nat) : Option Bytes :=
  match file with
  | none => none
  | some contents => if size ≤ contents.length then some (contents.take size) else none

/-- Where `pollLoop` is. -/
inductive PollerAt
  | idle
  | checkResponse
  | checkRequest
  | rearming
  | sizing
  | reading (size : Nat)
  | marking (content : Bytes)
  | prompting (content : Bytes)
  deriving DecidableEq, Repr

/-- Where `runClientForDir` is; `absent` is before it is started and after it has returned. -/
inductive ClientAt
  | absent
  | waiting
  | sizing
  | reading (size : Nat)
  | removingRequest (content : Option Bytes)
  | removingResponse (content : Option Bytes)
  | returning (content : Option Bytes)
  deriving DecidableEq, Repr

/-- Where `answer` is; it holds the lock in between. -/
inductive AnswerAt
  | idle
  | writing (prompt : Nat) (secret : Bytes)
  | marking
  deriving DecidableEq, Repr

/-- `prompts` and `outputs` are what the clients have asked and have written to their standard
output, `none` for one that failed, `shown` what `onPrompt` was called with. `tried` are the
prompts that the user has typed an answer to and `typed` the answers that were written. -/
structure AskpassExchange where
  request : Option Bytes := none
  response : Option Bytes := none
  requestSeen : Bool := false
  answered : Bool := false
  poller : PollerAt := .idle
  client : ClientAt := .absent
  answering : AnswerAt := .idle
  prompts : List Bytes := []
  outputs : List (Option Bytes) := []
  shown : List Bytes := []
  tried : List Nat := []
  typed : List (Nat × Bytes) := []
  deriving DecidableEq, Repr

/-- `answer` answers the prompt with that number, counted in the order they were shown; `written`
tells whether `writeHandshakeFile` could put the response there. -/
inductive AskpassStep
  | poll
  | start (prompt : Bytes)
  | client
  | answer (prompt : Nat) (secret : Bytes)
  | write (written : Bool)
  | mark
  deriving DecidableEq, Repr

namespace AskpassExchange

open Library

/-- `fwrite` of the content and `fputc('\n')`. -/
def printed (content : Bytes) : Bytes := content ++ [LF]

/-- The next step of the poller's thread; it waits where another thread holds the lock. -/
def poll (s : AskpassExchange) : Option AskpassExchange :=
  match s.poller with
  | .idle =>
    if s.answering = .idle then
      some { s with
        poller := if s.requestSeen then (if s.answered then .checkResponse else .checkRequest) else .sizing }
    else none
  | .checkResponse => some { s with poller := if s.response.isSome then .checkRequest else .rearming }
  | .checkRequest => some { s with poller := if s.request.isSome then .idle else .rearming }
  | .rearming =>
    if s.answering = .idle then some { s with requestSeen := false, answered := false, poller := .idle } else none
  | .sizing =>
    match smallFileSize s.request with
    | none => some { s with poller := .idle }
    | some size => some { s with poller := .reading size }
  | .reading size =>
    match readSized s.request size with
    | none => some { s with poller := .idle }
    | some content => some { s with poller := .marking content }
  | .marking content =>
    if s.answering = .idle then some { s with requestSeen := true, poller := .prompting content } else none
  | .prompting content => some { s with shown := s.shown ++ [content], poller := .idle }

def start (s : AskpassExchange) (prompt : Bytes) : Option AskpassExchange :=
  match s.client with
  | .absent => some { s with request := some prompt, prompts := s.prompts ++ [prompt], client := .waiting }
  | _ => none

def clientStep (s : AskpassExchange) : Option AskpassExchange :=
  match s.client with
  | .absent => none
  | .waiting => some (if s.response.isSome then { s with client := .sizing } else s)
  | .sizing =>
    match smallFileSize s.response with
    | none => some { s with client := .removingRequest none }
    | some size => some { s with client := .reading size }
  | .reading size => some { s with client := .removingRequest (readSized s.response size) }
  | .removingRequest content => some { s with request := none, client := .removingResponse content }
  | .removingResponse content => some { s with response := none, client := .returning content }
  | .returning content => some { s with outputs := s.outputs ++ [content.map printed], client := .absent }

/-- The user types an answer to a prompt that was shown and had none; `answer` takes the lock. -/
def answer (s : AskpassExchange) (prompt : Nat) (secret : Bytes) : Option AskpassExchange :=
  if s.answering = .idle ∧ prompt < s.shown.length ∧ prompt ∉ s.tried then
    some { s with tried := s.tried ++ [prompt], answering := .writing prompt secret }
  else none

def write (s : AskpassExchange) (written : Bool) : Option AskpassExchange :=
  match s.answering with
  | .writing prompt secret =>
    if written then
      some { s with response := some secret, typed := s.typed ++ [(prompt, secret)], answering := .marking }
    else some { s with answering := .idle }
  | _ => none

def mark (s : AskpassExchange) : Option AskpassExchange :=
  match s.answering with
  | .marking => some { s with answered := true, answering := .idle }
  | _ => none

def step (s : AskpassExchange) : AskpassStep → Option AskpassExchange
  | .poll => s.poll
  | .start prompt => s.start prompt
  | .client => s.clientStep
  | .answer prompt secret => s.answer prompt secret
  | .write written => s.write written
  | .mark => s.mark

/-- No text is longer than what `readSmallFile` reads. -/
def Fits : AskpassStep → Prop
  | .start prompt => prompt.length ≤ maxBytes
  | .answer _ secret => secret.length ≤ maxBytes
  | _ => True

instance (event : AskpassStep) : Decidable (Fits event) :=
  match event with
  | .start prompt => inferInstanceAs (Decidable (prompt.length ≤ maxBytes))
  | .answer _ secret => inferInstanceAs (Decidable (secret.length ≤ maxBytes))
  | .poll | .client | .write _ | .mark => .isTrue trivial

theorem smallFileSize_some {contents : Bytes} (h : contents.length ≤ maxBytes) :
    smallFileSize (some contents) = some contents.length :=
  if_pos h

theorem smallFileSize_eq_some {file : Option Bytes} {size : Nat} (h : smallFileSize file = some size) :
    ∃ contents, file = some contents ∧ contents.length = size := by
  cases file with
  | none => exact nomatch h
  | some contents =>
    refine ⟨contents, rfl, ?_⟩
    by_cases hFits : contents.length ≤ maxBytes
    · rw [smallFileSize_some hFits] at h
      exact Option.some.inj h
    · exact absurd h (by simp [smallFileSize, hFits])

theorem readSized_length (contents : Bytes) : readSized (some contents) contents.length = some contents := by
  rw [readSized, if_pos (Nat.le_refl _), List.take_length]

end AskpassExchange

end GitBranchManager
