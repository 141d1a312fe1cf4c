import GitBranchManager.Operations.AskpassExchange
import Mathlib.Data.List.Infix

/-! # The stages of a prompt

A request that is there has been shown exactly if as many prompts were shown as clients have
returned, and one more. The poller watches for a request, shows it, waits for its answer and
waits for the answer to be taken; it looks for a request again only where every request that is
there is a new one.
-/

namespace GitBranchManager

open Library

namespace AskpassExchange

variable {s s' : AskpassExchange}

/-- A request that is there has not been shown. -/
def Fresh (s : AskpassExchange) : Prop := s.request.isSome → s.shown.length = s.outputs.length

/-- A client is running. -/
def Running (s : AskpassExchange) : Prop := s.prompts.length = s.outputs.length + 1

/-- What was typed for the prompt of the client that is running. -/
def text (s : AskpassExchange) : Option Bytes := s.typed[s.outputs.length]?.map Prod.snd

/-- The answer of the client that is running is there. -/
def Given (s : AskpassExchange) (secret : Bytes) : Prop := s.text = some secret ∧ s.response = some secret

/-- What the client that is running has to do with the files. -/
def Serving (s : AskpassExchange) : Prop :=
  match s.client with
  | .absent => s.prompts.length = s.outputs.length ∧ s.request = none ∧ s.response = none
  | .waiting => s.Running ∧ s.request = s.prompts[s.outputs.length]? ∧ s.response = s.text
  | .sizing => s.Running ∧ s.request.isSome ∧ ∃ secret, s.Given secret
  | .reading size => s.Running ∧ s.request.isSome ∧ ∃ secret, s.Given secret ∧ secret.length = size
  | .removingRequest content => s.Running ∧ s.request.isSome ∧ ∃ secret, s.Given secret ∧ content = some secret
  | .removingResponse content => s.Running ∧ s.request = none ∧ ∃ secret, s.Given secret ∧ content = some secret
  | .returning content =>
    s.Running ∧ s.request = none ∧ s.response = none ∧ ∃ secret, s.text = some secret ∧ content = some secret

def Looking (s : AskpassExchange) : Prop :=
  match s.poller with
  | .idle | .sizing => True
  | .reading size => ∃ content, s.request = some content ∧ content.length = size
  | .marking content => s.request = some content
  | _ => False

def Rechecking (s : AskpassExchange) : Prop :=
  match s.poller with
  | .idle | .checkResponse | .checkRequest => True
  | .rearming => s.Fresh
  | _ => False

/-- The poller looks for a request. -/
structure Unseen (s : AskpassExchange) : Prop where
  seen : s.requestSeen = false
  answered : s.answered = false
  idle : s.answering = .idle
  fresh : s.Fresh
  typed : s.typed.length = s.shown.length
  place : s.Looking

/-- The poller is about to show the request. -/
structure Prompting (s : AskpassExchange) (content : Bytes) : Prop where
  place : s.poller = .prompting content
  seen : s.requestSeen = true
  answered : s.answered = false
  idle : s.answering = .idle
  request : s.request = some content
  shown : s.shown.length = s.outputs.length
  typed : s.typed.length = s.shown.length

/-- The request was shown and waits for its answer. -/
structure Asked (s : AskpassExchange) : Prop where
  seen : s.requestSeen = true
  answered : s.answered = false
  answering : s.answering = .idle ∨ ∃ secret, s.answering = .writing s.typed.length secret
  request : s.request.isSome
  shown : s.shown.length = s.outputs.length + 1
  typed : s.typed.length = s.outputs.length
  place : s.poller = .idle ∨ s.poller = .checkRequest

/-- The request was answered. With the response gone, a request that is there is a new one. -/
structure Answered (s : AskpassExchange) : Prop where
  seen : s.requestSeen = true
  answering : s.answering = if s.answered then .idle else .marking
  typed : s.typed.length = s.shown.length
  fresh : s.response = none → s.Fresh
  place : s.Rechecking

inductive Stage (s : AskpassExchange) : Prop
  | unseen (h : s.Unseen)
  | prompting (content : Bytes) (h : s.Prompting content)
  | asked (h : s.Asked)
  | answered (h : s.Answered)

/-- Prompts are shown in the order they were written, answers typed in that order, and every
client that has returned has printed its own. -/
structure Matched (s : AskpassExchange) : Prop where
  shown : s.shown <+: s.prompts
  typed : s.typed.map Prod.fst = List.range s.typed.length
  tried : ∀ i, i < s.typed.length → i ∈ s.tried
  outputs : s.outputs <+: s.typed.map fun entry => some (printed entry.2)
  order : s.typed.length ≤ s.shown.length
  fits : ∀ prompt ∈ s.prompts, prompt.length ≤ maxBytes
  fit : ∀ entry ∈ s.typed, entry.2.length ≤ maxBytes
  writing : ∀ prompt secret, s.answering = .writing prompt secret →
    prompt ∈ s.tried ∧ secret.length ≤ maxBytes

structure Exchanged (s : AskpassExchange) : Prop where
  matched : s.Matched
  serving : s.Serving
  stage : s.Stage

theorem append_prefix {α : Type} {xs ys : List α} {a : α} (h : xs <+: ys) (ha : ys[xs.length]? = some a) :
    xs ++ [a] <+: ys := by
  obtain ⟨rest, rfl⟩ := h
  rw [List.getElem?_append_right (Nat.le_refl _), Nat.sub_self] at ha
  cases rest with
  | nil => exact nomatch ha
  | cons b rest =>
    obtain rfl : b = a := Option.some.inj ha
    exact ⟨rest, List.append_assoc _ _ _⟩

theorem Matched.outputs_le (h : s.Matched) : s.outputs.length ≤ s.typed.length := by
  have hLength := h.outputs.length_le
  rwa [List.length_map] at hLength

theorem exchanged_start : Exchanged {} where
  matched :=
    { shown := List.prefix_rfl
      typed := rfl
      tried _ hLow := absurd hLow (Nat.not_lt_zero _)
      outputs := List.prefix_rfl
      order := Nat.le_refl _
      fits _ hPrompt := absurd hPrompt List.not_mem_nil
      fit _ hEntry := absurd hEntry List.not_mem_nil
      writing _ _ hWriting := nomatch hWriting }
  serving := ⟨rfl, rfl, rfl⟩
  stage := .unseen
    { seen := rfl
      answered := rfl
      idle := rfl
      fresh _ := rfl
      typed := rfl
      place := trivial }

theorem Serving.one_at_a_time (h : s.Serving) : s.prompts.length = s.outputs.length ∨ s.Running := by
  unfold Serving at h
  cases hClient : s.client with
  | absent =>
    rw [hClient] at h
    exact .inl h.1
  | _ =>
    rw [hClient] at h
    exact .inr h.1

theorem Serving.running (h : s.Serving) (hRequest : s.request.isSome) : s.Running := by
  unfold Serving at h
  cases hClient : s.client with
  | absent =>
    rw [hClient] at h
    exact absurd hRequest (by simp [h.2.1])
  | _ =>
    rw [hClient] at h
    exact h.1

/-- A client that is not answered waits. -/
theorem Serving.waiting (h : s.Serving) (hText : s.text = none) (hRunning : s.Running) :
    s.client = .waiting ∧ s.response = none ∧ s.request = s.prompts[s.outputs.length]? := by
  unfold Serving at h
  unfold Running at hRunning
  cases hClient : s.client with
  | absent =>
    rw [hClient] at h
    exact absurd (hRunning.symm.trans h.1) (Nat.succ_ne_self _)
  | waiting =>
    rw [hClient] at h
    obtain ⟨-, hPrompt, hResponse⟩ := h
    exact ⟨rfl, hResponse.trans hText, hPrompt⟩
  | sizing =>
    rw [hClient] at h
    obtain ⟨-, -, secret, hGiven⟩ := h
    exact absurd hGiven.1 (by simp [hText])
  | reading size =>
    rw [hClient] at h
    obtain ⟨-, -, secret, hGiven, -⟩ := h
    exact absurd hGiven.1 (by simp [hText])
  | removingRequest content =>
    rw [hClient] at h
    obtain ⟨-, -, secret, hGiven, -⟩ := h
    exact absurd hGiven.1 (by simp [hText])
  | removingResponse content =>
    rw [hClient] at h
    obtain ⟨-, -, secret, hGiven, -⟩ := h
    exact absurd hGiven.1 (by simp [hText])
  | returning content =>
    rw [hClient] at h
    obtain ⟨-, -, -, secret, hGiven, -⟩ := h
    exact absurd hGiven (by simp [hText])

theorem text_none (h : s.typed.length = s.outputs.length) : s.text = none := by
  rw [text, List.getElem?_eq_none (Nat.le_of_eq h), Option.map_none]

theorem text_mem {secret : Bytes} (h : s.text = some secret) :
    ∃ prompt, s.typed[s.outputs.length]? = some (prompt, secret) := by
  obtain ⟨⟨prompt, typed⟩, hEntry, rfl⟩ := Option.map_eq_some_iff.mp h
  exact ⟨prompt, hEntry⟩

theorem Matched.text_fits (h : s.Matched) {secret : Bytes} (hText : s.text = some secret) :
    secret.length ≤ maxBytes := by
  obtain ⟨prompt, hEntry⟩ := text_mem hText
  exact h.fit _ (List.mem_of_getElem? hEntry)

/-- What a client's step does to what the others see. -/
inductive ClientMove (s : AskpassExchange) : AskpassExchange → Prop
  | goes (next : ClientAt) (hRunning : s.Running) : ClientMove s { s with client := next }
  | removesRequest (content : Option Bytes) (hRunning : s.Running) :
    ClientMove s { s with request := none, client := .removingResponse content }
  | removesResponse (content : Option Bytes) (hRunning : s.Running) (hRequest : s.request = none) :
    ClientMove s { s with response := none, client := .returning content }
  | returns (secret : Bytes) (hRunning : s.Running) (hRequest : s.request = none) (hText : s.text = some secret) :
    ClientMove s { s with outputs := s.outputs ++ [some (printed secret)], client := .absent }

theorem clientStep_serving (h : s.Serving) (hMatched : s.Matched) (hStep : s.clientStep = some s') :
    ClientMove s s' ∧ s'.Serving := by
  unfold Serving at h
  unfold clientStep at hStep
  cases hClient : s.client with
  | absent =>
    rw [hClient] at hStep
    exact nomatch hStep
  | waiting =>
    rw [hClient] at h hStep
    obtain ⟨hRunning, hRequest, hResponse⟩ := h
    cases hThere : s.response with
    | none =>
      obtain rfl : s = s' := by simpa [hThere] using hStep
      have hStays := ClientMove.goes s.client hRunning
      refine ⟨hStays, ?_⟩
      rw [Serving, hClient]
      exact ⟨hRunning, hRequest, hResponse⟩
    | some secret =>
      obtain rfl : { s with client := .sizing } = s' := by simpa [hThere] using hStep
      refine ⟨.goes _ hRunning, hRunning, ?_, secret, hResponse.symm.trans hThere, hThere⟩
      have hLow : s.outputs.length < s.prompts.length := by rw [hRunning]; exact Nat.lt_succ_self _
      show s.request.isSome
      rw [hRequest, List.getElem?_eq_getElem hLow]
      rfl
  | sizing =>
    rw [hClient] at h hStep
    obtain ⟨hRunning, hRequest, secret, hGiven⟩ := h
    have hSize : smallFileSize s.response = some secret.length := by
      rw [hGiven.2, smallFileSize_some (hMatched.text_fits hGiven.1)]
    simp only [hSize] at hStep
    obtain rfl := Option.some.inj hStep
    exact ⟨.goes _ hRunning, hRunning, hRequest, secret, hGiven, rfl⟩
  | reading size =>
    rw [hClient] at h hStep
    obtain ⟨hRunning, hRequest, secret, hGiven, rfl⟩ := h
    have hRead : readSized s.response secret.length = some secret := by rw [hGiven.2, readSized_length]
    simp only [hRead] at hStep
    obtain rfl := Option.some.inj hStep
    exact ⟨.goes _ hRunning, hRunning, hRequest, secret, hGiven, rfl⟩
  | removingRequest content =>
    rw [hClient] at h hStep
    obtain ⟨hRunning, -, secret, hGiven, hContent⟩ := h
    obtain rfl := Option.some.inj hStep
    exact ⟨.removesRequest _ hRunning, hRunning, rfl, secret, hGiven, hContent⟩
  | removingResponse content =>
    rw [hClient] at h hStep
    obtain ⟨hRunning, hRequest, secret, hGiven, hContent⟩ := h
    obtain rfl := Option.some.inj hStep
    exact ⟨.removesResponse _ hRunning hRequest, hRunning, hRequest, rfl, secret, hGiven.1, hContent⟩
  | returning content =>
    rw [hClient] at h hStep
    obtain ⟨hRunning, hRequest, hResponse, secret, hText, rfl⟩ := h
    obtain rfl := Option.some.inj hStep
    refine ⟨.returns secret hRunning hRequest hText, ?_, hRequest, hResponse⟩
    show s.prompts.length = (s.outputs ++ [some (printed secret)]).length
    rw [hRunning, List.length_append, List.length_singleton]

theorem Matched.client (h : s.Matched) (hMove : ClientMove s s') : s'.Matched := by
  cases hMove with
  | goes | removesRequest | removesResponse =>
    exact ⟨h.shown, h.typed, h.tried, h.outputs, h.order, h.fits, h.fit, h.writing⟩
  | returns secret hRunning hRequest hText =>
    refine ⟨h.shown, h.typed, h.tried, ?_, h.order, h.fits, h.fit, h.writing⟩
    obtain ⟨prompt, hEntry⟩ := text_mem hText
    apply append_prefix h.outputs
    rw [List.getElem?_map, hEntry]
    rfl

/-- A client takes a new request away only after it has been answered. -/
theorem Fresh.client (h : s.Fresh) (hMove : ClientMove s s') : s'.Fresh := by
  cases hMove with
  | goes | removesResponse => exact h
  | removesRequest => exact fun hRequest => nomatch hRequest
  | returns secret hRunning hRequest hText =>
    intro hThere
    exact absurd hThere (by simp [hRequest])

/-- A client whose prompt is not answered waits. -/
theorem clientStep_unanswered (h : s.Serving) (hTyped : s.typed.length = s.outputs.length)
    (hRequest : s.request.isSome) (hStep : s.clientStep = some s') : s' = s := by
  obtain ⟨hClient, hResponse, -⟩ := h.waiting (text_none hTyped) (h.running hRequest)
  simpa [clientStep, hClient, hResponse] using hStep.symm

theorem ClientMove.frame (h : ClientMove s s') :
    ∃ request response client outputs, s' = { s with request, response, client, outputs } := by
  cases h with
  | goes | removesRequest | removesResponse | returns => exact ⟨_, _, _, _, rfl⟩

/-- With no request, the poller has found none yet, and may find any. -/
theorem Looking.of_none (h : s.Looking) (hRequest : s.request = none) (hPoller : s'.poller = s.poller) :
    s'.Looking := by
  unfold Looking at h ⊢
  rw [hPoller]
  cases hAt : s.poller <;> simp_all

theorem looking_idle (h : s.poller = .idle) : s.Looking := by
  rw [Looking, h]
  trivial

theorem looking_sizing (h : s.poller = .sizing) : s.Looking := by
  rw [Looking, h]
  trivial

theorem rechecking_rearming (h : s.poller = .rearming) (hFresh : s.Fresh) : s.Rechecking := by
  rw [Rechecking, h]
  exact hFresh

theorem Rechecking.of_fresh (h : s.Rechecking) (hPoller : s'.poller = s.poller) (hFresh : s.Fresh → s'.Fresh) :
    s'.Rechecking := by
  unfold Rechecking at h ⊢
  rw [hPoller]
  split <;> simp_all

theorem Stage.client (h : s.Stage) (hServing : s.Serving) (hMove : ClientMove s s')
    (hStep : s.clientStep = some s') : s'.Stage := by
  cases h with
  | prompting content h =>
    have hTyped := h.typed.trans h.shown
    rw [clientStep_unanswered hServing hTyped (Option.isSome_of_eq_some h.request) hStep]
    exact .prompting content h
  | asked h =>
    rw [clientStep_unanswered hServing h.typed h.request hStep]
    exact .asked h
  | unseen h =>
    cases hRequest : s.request with
    | some content =>
      have hThere := Option.isSome_of_eq_some hRequest
      rw [clientStep_unanswered hServing (h.typed.trans (h.fresh hThere)) hThere hStep]
      exact .unseen h
    | none =>
      have hFresh := h.fresh.client hMove
      obtain ⟨request, response, client, outputs, rfl⟩ := hMove.frame
      exact .unseen ⟨h.seen, h.answered, h.idle, hFresh, h.typed, h.place.of_none hRequest rfl⟩
  | answered h =>
    have hFresh := fun hFresh : s.Fresh => hFresh.client hMove
    have hGone : s'.response = none → s'.Fresh := by
      cases hMove with
      | goes | returns => exact fun hNone => hFresh (h.fresh hNone)
      | removesRequest => exact fun _ hRequest => nomatch hRequest
      | removesResponse content hRunning hRequest =>
        intro _ hThere
        exact absurd hThere (by simp [hRequest])
    obtain ⟨request, response, client, outputs, rfl⟩ := hMove.frame
    exact .answered ⟨h.seen, h.answering, h.typed, hGone, h.place.of_fresh rfl hFresh⟩

theorem Exchanged.client (h : s.Exchanged) (hStep : s.clientStep = some s') : s'.Exchanged := by
  obtain ⟨hMove, hServing⟩ := clientStep_serving h.serving h.matched hStep
  exact ⟨h.matched.client hMove, hServing, h.stage.client h.serving hMove hStep⟩

/-- A client is started where every prompt has been shown and answered. -/
theorem Exchanged.start (h : s.Exchanged) {prompt : Bytes} (hFits : prompt.length ≤ maxBytes)
    (hStep : s.start prompt = some s') : s'.Exchanged := by
  have hServing := h.serving
  unfold AskpassExchange.start at hStep
  unfold Serving at hServing
  cases hClient : s.client with
  | absent =>
    rw [hClient] at hStep hServing
    obtain ⟨hAll, hRequest, hResponse⟩ := hServing
    obtain rfl := Option.some.inj hStep
    have hMatched := h.matched
    have hLow := hMatched.outputs_le
    have hShown := hMatched.shown.length_le
    have hEqual : s.shown.length = s.outputs.length := by
      have hOrder := hMatched.order
      omega
    have hTyped : s.typed.length = s.shown.length := by
      have hOrder := hMatched.order
      omega
    refine ⟨⟨hMatched.shown.trans (List.prefix_append _ _), hMatched.typed, hMatched.tried, hMatched.outputs,
      hMatched.order, ?_, hMatched.fit, hMatched.writing⟩, ⟨?_, ?_, ?_⟩, ?_⟩
    · exact List.forall_mem_append.mpr ⟨hMatched.fits, List.forall_mem_singleton.mpr hFits⟩
    · show (s.prompts ++ [prompt]).length = s.outputs.length + 1
      rw [List.length_append, hAll, List.length_singleton]
    · show some prompt = (s.prompts ++ [prompt])[s.outputs.length]?
      rw [← hAll, List.getElem?_append_right (Nat.le_refl _), Nat.sub_self]
      rfl
    · exact hResponse.trans (text_none (hTyped.trans hEqual)).symm
    · cases h.stage with
      | prompting content h => exact absurd h.request (by simp [hRequest])
      | asked h => exact absurd h.request (by simp [hRequest])
      | unseen h =>
        exact .unseen ⟨h.seen, h.answered, h.idle, fun _ => hEqual, h.typed, h.place.of_none hRequest rfl⟩
      | answered h =>
        exact .answered ⟨h.seen, h.answering, h.typed, fun _ _ => hEqual, h.place.of_fresh rfl fun _ _ => hEqual⟩
  | _ =>
    rw [hClient] at hStep
    exact nomatch hStep

/-- Only the prompt that waits for its answer can be given one. -/
theorem Exchanged.answer (h : s.Exchanged) {prompt : Nat} {secret : Bytes} (hFits : secret.length ≤ maxBytes)
    (hStep : s.answer prompt secret = some s') : s'.Exchanged := by
  unfold AskpassExchange.answer at hStep
  split at hStep
  case isFalse => exact nomatch hStep
  case isTrue hMay =>
    obtain ⟨hIdle, hShown, hNew⟩ := hMay
    obtain rfl := Option.some.inj hStep
    have hMatched := h.matched
    have hLate : s.typed.length ≤ prompt := by
      by_contra hLow
      exact hNew (hMatched.tried prompt (Nat.lt_of_not_le hLow))
    refine ⟨⟨hMatched.shown, hMatched.typed, ?_, hMatched.outputs, hMatched.order, hMatched.fits, hMatched.fit, ?_⟩,
      h.serving, ?_⟩
    · exact fun i hLow => List.mem_append_left _ (hMatched.tried i hLow)
    · intro other text hWriting
      obtain ⟨rfl, rfl⟩ : prompt = other ∧ secret = text := by simpa using hWriting
      exact ⟨List.mem_append_right _ (List.mem_singleton_self _), hFits⟩
    · cases h.stage with
      | unseen h => exact absurd h.typed (by omega)
      | prompting content h => exact absurd h.typed (by omega)
      | answered h => exact absurd h.typed (by omega)
      | asked h =>
        obtain rfl : prompt = s.typed.length := by
          have hNow := h.shown
          have hTyped := h.typed
          omega
        exact .asked ⟨h.seen, h.answered, .inr ⟨secret, rfl⟩, h.request, h.shown, h.typed, h.place⟩

theorem Exchanged.write (h : s.Exchanged) {written : Bool} (hStep : s.write written = some s') : s'.Exchanged := by
  unfold AskpassExchange.write at hStep
  split at hStep
  case h_2 => exact nomatch hStep
  case h_1 prompt secret hWriting =>
    have hMatched := h.matched
    cases h.stage with
    | unseen h => exact absurd h.idle (by simp [hWriting])
    | prompting content h => exact absurd h.idle (by simp [hWriting])
    | answered hAnswered =>
      have hNot := hAnswered.answering
      rw [hWriting] at hNot
      split at hNot <;> exact nomatch hNot
    | asked hAsked =>
      obtain rfl : prompt = s.typed.length := by
        obtain hIdle | ⟨other, hOther⟩ := hAsked.answering
        · exact absurd hIdle (by simp [hWriting])
        · exact (AnswerAt.writing.inj (hWriting.symm.trans hOther)).1
      cases written with
      | false =>
        obtain rfl := Option.some.inj hStep
        refine ⟨⟨hMatched.shown, hMatched.typed, hMatched.tried, hMatched.outputs, hMatched.order, hMatched.fits,
          hMatched.fit, fun _ _ hNow => nomatch hNow⟩, h.serving, ?_⟩
        exact .asked ⟨hAsked.seen, hAsked.answered, .inl rfl, hAsked.request, hAsked.shown, hAsked.typed, hAsked.place⟩
      | true =>
        obtain rfl := Option.some.inj hStep
        obtain ⟨hTried, hFits⟩ := hMatched.writing _ _ hWriting
        have hRunning := h.serving.running hAsked.request
        obtain ⟨hClient, -, hRequest⟩ := h.serving.waiting (text_none hAsked.typed) hRunning
        have hLength : (s.typed ++ [(s.typed.length, secret)]).length = s.typed.length + 1 := List.length_append
        have hShown : (s.typed ++ [(s.typed.length, secret)]).length = s.shown.length := by
          rw [hLength, hAsked.typed, hAsked.shown]
        refine ⟨⟨hMatched.shown, ?_, ?_, ?_, Nat.le_of_eq hShown, hMatched.fits, ?_, fun _ _ hNow => nomatch hNow⟩,
          ?_, ?_⟩
        · rw [hLength, List.map_append, hMatched.typed, List.range_succ]
          rfl
        · intro i hLow
          obtain hBefore | rfl := Nat.lt_succ_iff_lt_or_eq.mp (lt_of_lt_of_eq hLow hLength)
          · exact hMatched.tried i hBefore
          · exact hTried
        · rw [List.map_append]
          exact hMatched.outputs.trans (List.prefix_append _ _)
        · exact List.forall_mem_append.mpr ⟨hMatched.fit, List.forall_mem_singleton.mpr hFits⟩
        · have hText : some secret = ((s.typed ++ [(s.typed.length, secret)])[s.outputs.length]?).map Prod.snd := by
            rw [← hAsked.typed, List.getElem?_append_right (Nat.le_refl _), Nat.sub_self]
            rfl
          rw [Serving, hClient]
          exact ⟨hRunning, hRequest, hText⟩
        · have hMark : AnswerAt.marking = if s.answered then .idle else .marking := by
            rw [hAsked.answered]
            rfl
          refine .answered ⟨hAsked.seen, hMark, hShown, (fun hNone => nomatch hNone), ?_⟩
          obtain hIdle | hChecking := hAsked.place
          · rw [Rechecking, hIdle]
            trivial
          · rw [Rechecking, hChecking]
            trivial

theorem Exchanged.mark (h : s.Exchanged) (hStep : s.mark = some s') : s'.Exchanged := by
  unfold AskpassExchange.mark at hStep
  split at hStep
  case h_2 => exact nomatch hStep
  case h_1 hMarking =>
    obtain rfl := Option.some.inj hStep
    have hMatched := h.matched
    refine ⟨⟨hMatched.shown, hMatched.typed, hMatched.tried, hMatched.outputs, hMatched.order, hMatched.fits,
      hMatched.fit, fun _ _ hNow => nomatch hNow⟩, h.serving, ?_⟩
    cases h.stage with
    | unseen h => exact absurd h.idle (by simp [hMarking])
    | prompting content h => exact absurd h.idle (by simp [hMarking])
    | asked h =>
      obtain hIdle | ⟨secret, hWriting⟩ := h.answering
      · exact absurd hIdle (by simp [hMarking])
      · exact absurd hWriting (by simp [hMarking])
    | answered h => exact .answered ⟨h.seen, rfl, h.typed, h.fresh, h.place⟩

theorem Matched.frame (h : s.Matched) (seen answered : Bool) (poller : PollerAt) :
    Matched { s with requestSeen := seen, answered, poller } :=
  ⟨h.shown, h.typed, h.tried, h.outputs, h.order, h.fits, h.fit, h.writing⟩

/-- How many steps the poller takes at most to show a request that has not been shown. -/
def left (s : AskpassExchange) : Nat :=
  match s.poller with
  | .prompting _ => 1
  | .marking _ => 2
  | .reading _ => 3
  | .sizing => 4
  | .idle => if s.requestSeen then 8 else 5
  | .rearming => 6
  | .checkResponse => 7
  | .checkRequest => 9

theorem poll_unseen (h : s.Unseen) (hStep : s.poll = some s') :
    ∃ seen poller, s' = { s with requestSeen := seen, poller } ∧ s'.Stage ∧
      ((smallFileSize s.request).isSome → s'.left < s.left) := by
  have hPlace := h.place
  unfold Looking at hPlace
  unfold poll at hStep
  cases hPoller : s.poller with
  | idle =>
    simp only [hPoller] at hStep
    rw [if_pos h.idle] at hStep
    obtain rfl := Option.some.inj hStep
    refine ⟨_, _, rfl, .unseen ⟨h.seen, h.answered, h.idle, h.fresh, h.typed, looking_sizing ?_⟩, fun _ => ?_⟩
    · exact if_neg (Bool.eq_false_iff.mp h.seen)
    · simp [left, hPoller, h.seen]
  | sizing =>
    simp only [hPoller] at hStep
    split at hStep
    case h_1 hNone =>
      obtain rfl := Option.some.inj hStep
      refine ⟨_, _, rfl, .unseen ⟨h.seen, h.answered, h.idle, h.fresh, h.typed, looking_idle rfl⟩, fun hSome => ?_⟩
      exact absurd hSome (by simp [hNone])
    case h_2 size hSize =>
      obtain rfl := Option.some.inj hStep
      have hFound := smallFileSize_eq_some hSize
      refine ⟨_, _, rfl, .unseen ⟨h.seen, h.answered, h.idle, h.fresh, h.typed, hFound⟩, fun _ => ?_⟩
      simp [left, hPoller]
  | reading size =>
    simp only [hPoller] at hPlace hStep
    obtain ⟨content, hRequest, rfl⟩ := hPlace
    have hRead : readSized s.request content.length = some content := by rw [hRequest, readSized_length]
    simp only [hRead] at hStep
    obtain rfl := Option.some.inj hStep
    refine ⟨_, _, rfl, .unseen ⟨h.seen, h.answered, h.idle, h.fresh, h.typed, hRequest⟩, fun _ => ?_⟩
    simp [left, hPoller]
  | marking content =>
    simp only [hPoller] at hPlace hStep
    rw [if_pos h.idle] at hStep
    obtain rfl := Option.some.inj hStep
    have hShown := h.fresh (Option.isSome_of_eq_some hPlace)
    refine ⟨_, _, rfl, .prompting content ⟨rfl, rfl, h.answered, h.idle, hPlace, hShown, h.typed⟩, fun _ => ?_⟩
    simp [left, hPoller]
  | _ =>
    rw [hPoller] at hPlace
    exact hPlace.elim

theorem poll_asked (h : s.Asked) (hStep : s.poll = some s') : ∃ poller, s' = { s with poller } ∧ s'.Stage := by
  unfold poll at hStep
  obtain hIdle | hChecking := h.place
  · simp only [hIdle] at hStep
    split at hStep
    case isFalse => exact nomatch hStep
    case isTrue =>
      obtain rfl := Option.some.inj hStep
      refine ⟨_, rfl, .asked ⟨h.seen, h.answered, h.answering, h.request, h.shown, h.typed, .inr ?_⟩⟩
      simp [h.seen, h.answered]
  · simp only [hChecking, h.request, if_true] at hStep
    obtain rfl := Option.some.inj hStep
    exact ⟨_, rfl, .asked ⟨h.seen, h.answered, h.answering, h.request, h.shown, h.typed, .inl rfl⟩⟩

theorem poll_answered (h : s.Answered) (hStep : s.poll = some s') :
    ∃ seen answered poller, s' = { s with requestSeen := seen, answered, poller } ∧ s'.Stage ∧
      (s.response = none → s'.left < s.left) := by
  have hPlace := h.place
  unfold Rechecking at hPlace
  unfold poll at hStep
  cases hPoller : s.poller with
  | idle =>
    simp only [hPoller] at hStep
    split at hStep
    case isFalse => exact nomatch hStep
    case isTrue hIdle =>
      obtain rfl := Option.some.inj hStep
      have hAnswered : s.answered = true := by
        have hMark := h.answering
        rw [hIdle] at hMark
        by_contra hNot
        exact absurd (hMark.trans (if_neg hNot)) (by decide)
      refine ⟨_, _, _, rfl, .answered ⟨h.seen, h.answering, h.typed, h.fresh, ?_⟩, fun _ => ?_⟩
      · simp [Rechecking, h.seen, hAnswered]
      · simp [left, hPoller, h.seen, hAnswered]
  | checkResponse =>
    simp only [hPoller] at hStep
    obtain rfl := Option.some.inj hStep
    refine ⟨_, _, _, rfl, .answered ⟨h.seen, h.answering, h.typed, h.fresh, ?_⟩, fun hNone => ?_⟩
    case refine_2 => simp [left, hPoller, hNone]
    cases hResponse : s.response with
    | none => exact rechecking_rearming rfl (h.fresh hResponse)
    | some content => exact trivial
  | checkRequest =>
    simp only [hPoller] at hStep
    obtain rfl := Option.some.inj hStep
    refine ⟨_, _, _, rfl, .answered ⟨h.seen, h.answering, h.typed, h.fresh, ?_⟩, fun _ => ?_⟩
    case refine_2 => cases s.request <;> simp [left, hPoller, h.seen]
    cases hRequest : s.request with
    | none => exact rechecking_rearming rfl fun hThere => nomatch hThere
    | some content => exact trivial
  | rearming =>
    simp only [hPoller] at hPlace hStep
    split at hStep
    case isFalse => exact nomatch hStep
    case isTrue hIdle =>
      obtain rfl := Option.some.inj hStep
      refine ⟨_, _, _, rfl, .unseen ⟨rfl, rfl, hIdle, hPlace, h.typed, looking_idle rfl⟩, fun _ => ?_⟩
      simp [left, hPoller]
  | _ =>
    rw [hPoller] at hPlace
    exact hPlace.elim

theorem Exchanged.poll (h : s.Exchanged) (hStep : s.poll = some s') : s'.Exchanged := by
  cases h.stage with
  | unseen hUnseen =>
    obtain ⟨seen, poller, rfl, hStage, -⟩ := poll_unseen hUnseen hStep
    exact ⟨h.matched.frame _ _ _, h.serving, hStage⟩
  | asked hAsked =>
    obtain ⟨poller, rfl, hStage⟩ := poll_asked hAsked hStep
    exact ⟨h.matched.frame _ _ _, h.serving, hStage⟩
  | answered hAnswered =>
    obtain ⟨seen, answered, poller, rfl, hStage, -⟩ := poll_answered hAnswered hStep
    exact ⟨h.matched.frame _ _ _, h.serving, hStage⟩
  | prompting content hPrompting =>
    have hMatched := h.matched
    have hTyped := hPrompting.typed.trans hPrompting.shown
    have hRequest := Option.isSome_of_eq_some hPrompting.request
    obtain ⟨-, -, hPrompt⟩ := h.serving.waiting (text_none hTyped) (h.serving.running hRequest)
    simp only [AskpassExchange.poll, hPrompting.place] at hStep
    obtain rfl := Option.some.inj hStep
    have hLength : (s.shown ++ [content]).length = s.shown.length + 1 := List.length_append
    refine ⟨⟨?_, hMatched.typed, hMatched.tried, hMatched.outputs, ?_, hMatched.fits, hMatched.fit, hMatched.writing⟩,
      h.serving, ?_⟩
    · apply append_prefix hMatched.shown
      rw [hPrompting.shown, ← hPrompt, hPrompting.request]
    · show s.typed.length ≤ (s.shown ++ [content]).length
      rw [hLength]
      exact Nat.le_succ_of_le hMatched.order
    · have hShown : (s.shown ++ [content]).length = s.outputs.length + 1 := by rw [hLength, hPrompting.shown]
      exact .asked ⟨hPrompting.seen, hPrompting.answered, .inl hPrompting.idle, hRequest, hShown, hTyped, .inl rfl⟩

theorem Exchanged.step (h : s.Exchanged) {event : AskpassStep} (hFits : Fits event)
    (hStep : s.step event = some s') : s'.Exchanged := by
  cases event with
  | poll => exact h.poll hStep
  | start prompt => exact h.start hFits hStep
  | client => exact h.client hStep
  | answer prompt secret => exact h.answer hFits hStep
  | write written => exact h.write hStep
  | mark => exact h.mark hStep

end AskpassExchange

end GitBranchManager
