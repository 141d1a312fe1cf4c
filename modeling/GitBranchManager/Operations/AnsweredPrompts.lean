import GitBranchManager.Operations.AskpassStages

/-! # Each answer reaches its own prompt

Clients are numbered in the order they are started, prompts in the order they are shown, and the
two agree. A prompt that is written is shown after nine steps of the poller at most, and a client
whose answer was written has returned after six steps of its own at most.
-/

namespace GitBranchManager

open Library

namespace AskpassExchange

variable {s s' : AskpassExchange}

/-- The prompts are shown in the order the clients are started, none twice, no prompt is answered
twice, and every client that has returned has printed what was typed for its own. -/
structure OwnAnswers (s : AskpassExchange) : Prop where
  shown : s.shown <+: s.prompts
  once : (s.typed.map Prod.fst).Nodup
  received : ∀ client output, s.outputs[client]? = some output →
    ∃ secret, (client, secret) ∈ s.typed ∧ output = some (printed secret)

/-- Whoever is not done can take a step, the poller once the lock is free. -/
structure Unblocked (s : AskpassExchange) : Prop where
  poller : s.answering = .idle → (s.step .poll).isSome
  answering : s.answering ≠ .idle → (s.step (.write true)).isSome ∨ (s.step .mark).isSome
  client : s.client ≠ .absent → (s.step .client).isSome

theorem unblocked (s : AskpassExchange) : s.Unblocked where
  poller hIdle := by
    show s.poll.isSome
    unfold poll
    cases s.poller with
    | sizing =>
      cases smallFileSize s.request <;> rfl
    | reading size =>
      cases hRead : readSized s.request size <;> simp [hRead]
    | _ => simp [hIdle]
  answering hBusy := by
    cases hAnswering : s.answering with
    | idle => exact absurd hAnswering hBusy
    | writing prompt secret =>
      left
      show (s.write true).isSome
      simp [write, hAnswering]
    | marking =>
      right
      show s.mark.isSome
      simp [mark, hAnswering]
  client hRunning := by
    show s.clientStep.isSome
    unfold clientStep
    cases hClient : s.client with
    | absent => exact absurd hClient hRunning
    | sizing =>
      cases smallFileSize s.response <;> rfl
    | _ => simp

theorem Matched.ownAnswers (h : s.Matched) : s.OwnAnswers where
  shown := h.shown
  once := by
    rw [h.typed]
    exact List.nodup_range
  received client output hOutput := by
    obtain ⟨rest, hRest⟩ := h.outputs
    obtain ⟨hLow, -⟩ := List.getElem?_eq_some_iff.mp hOutput
    have hPrinted : (s.typed.map fun entry => some (printed entry.2))[client]? = some output := by
      rw [← hRest, List.getElem?_append_left hLow, hOutput]
    rw [List.getElem?_map] at hPrinted
    obtain ⟨⟨prompt, secret⟩, hEntry, rfl⟩ := Option.map_eq_some_iff.mp hPrinted
    have hPrompt : (s.typed.map Prod.fst)[client]? = some prompt := by
      rw [List.getElem?_map, hEntry]
      rfl
    obtain ⟨hTyped, -⟩ := List.getElem?_eq_some_iff.mp hEntry
    rw [h.typed, List.getElem?_range hTyped] at hPrompt
    obtain rfl := Option.some.inj hPrompt
    exact ⟨secret, List.mem_of_getElem? hEntry, rfl⟩

/-- While a prompt has not been shown, the poller comes closer to showing it. -/
theorem Exchanged.poll_left (h : s.Exchanged) (hWaits : s.shown.length < s.prompts.length)
    (hStep : s.poll = some s') : s'.left < s.left ∨ s.prompts.length ≤ s'.shown.length := by
  have hMatched := h.matched
  have hReturned := hMatched.outputs_le
  have hOrder := hMatched.order
  have hRunning : s.prompts.length = s.outputs.length + 1 := by
    obtain hAll | hRunning := h.serving.one_at_a_time
    · omega
    · exact hRunning
  obtain ⟨-, hResponse, hRequest⟩ := h.serving.waiting (text_none (by omega)) hRunning
  cases h.stage with
  | unseen hUnseen =>
    obtain ⟨seen, poller, -, -, hLeft⟩ := poll_unseen hUnseen hStep
    have hLow : s.outputs.length < s.prompts.length := by omega
    have hFits := hMatched.fits _ (List.getElem_mem hLow)
    left
    apply hLeft
    rw [hRequest, List.getElem?_eq_getElem hLow, smallFileSize_some hFits]
    rfl
  | prompting content hPrompting =>
    simp only [AskpassExchange.poll, hPrompting.place] at hStep
    obtain rfl := Option.some.inj hStep
    right
    show s.prompts.length ≤ (s.shown ++ [content]).length
    rw [hRunning, List.length_append, hPrompting.shown, List.length_singleton]
  | asked hAsked => exact absurd hAsked.shown (by omega)
  | answered hAnswered =>
    obtain ⟨seen, answered, poller, -, -, hLeft⟩ := poll_answered hAnswered hStep
    exact .inl (hLeft hResponse)

/-- What the poller does is its own. -/
theorem poll_frame (h : s.Exchanged) (hStep : s.poll = some s') :
    s.shown <+: s'.shown ∧ s'.client = s.client ∧ s'.prompts = s.prompts ∧ s'.typed = s.typed ∧
      s'.outputs = s.outputs := by
  cases h.stage with
  | unseen hUnseen =>
    obtain ⟨seen, poller, rfl, -⟩ := poll_unseen hUnseen hStep
    exact ⟨List.prefix_rfl, rfl, rfl, rfl, rfl⟩
  | asked hAsked =>
    obtain ⟨poller, rfl, -⟩ := poll_asked hAsked hStep
    exact ⟨List.prefix_rfl, rfl, rfl, rfl, rfl⟩
  | answered hAnswered =>
    obtain ⟨seen, answered, poller, rfl, -⟩ := poll_answered hAnswered hStep
    exact ⟨List.prefix_rfl, rfl, rfl, rfl, rfl⟩
  | prompting content hPrompting =>
    simp only [AskpassExchange.poll, hPrompting.place] at hStep
    obtain rfl := Option.some.inj hStep
    exact ⟨List.prefix_append _ _, rfl, rfl, rfl, rfl⟩

/-- How many steps a client that is answered takes at most to return. -/
def clientLeft (s : AskpassExchange) : Nat :=
  match s.client with
  | .waiting => 6
  | .sizing => 5
  | .reading _ => 4
  | .removingRequest _ => 3
  | .removingResponse _ => 2
  | .returning _ => 1
  | .absent => 0

theorem clientStep_left (hAnswered : s.client = .waiting → s.response.isSome) (hStep : s.clientStep = some s') :
    s'.clientLeft < s.clientLeft := by
  unfold clientStep at hStep
  cases hClient : s.client with
  | absent =>
    rw [hClient] at hStep
    exact nomatch hStep
  | waiting =>
    simp only [hClient, hAnswered hClient, if_true] at hStep
    obtain rfl := Option.some.inj hStep
    simp [clientLeft, hClient]
  | sizing =>
    simp only [hClient] at hStep
    split at hStep
    all_goals
      obtain rfl := Option.some.inj hStep
      simp [clientLeft, hClient]
  | _ =>
    simp only [hClient] at hStep
    obtain rfl := Option.some.inj hStep
    simp [clientLeft, hClient]

/-- What a step leaves to the others. -/
structure Frame (s s' : AskpassExchange) (event : AskpassStep) : Prop where
  prompts : s.prompts <+: s'.prompts
  shown : s.shown <+: s'.shown
  typed : s.typed <+: s'.typed
  outputs : s.outputs <+: s'.outputs
  left : event ≠ .poll → s'.left = s.left
  client : event ≠ .client → s.client ≠ .absent → s'.client = s.client

theorem step_frame (h : s.Exchanged) {event : AskpassStep} (hStep : s.step event = some s') : Frame s s' event := by
  cases event with
  | poll =>
    obtain ⟨hShown, hClient, hPrompts, hTyped, hOutputs⟩ := poll_frame h hStep
    refine ⟨?_, hShown, ?_, ?_, fun hNot => absurd rfl hNot, fun _ _ => hClient⟩
    · exact hPrompts ▸ List.prefix_rfl
    · exact hTyped ▸ List.prefix_rfl
    · exact hOutputs ▸ List.prefix_rfl
  | client =>
    obtain ⟨hMove, -⟩ := clientStep_serving h.serving h.matched hStep
    cases hMove with
    | goes | removesRequest | removesResponse =>
      exact ⟨List.prefix_rfl, List.prefix_rfl, List.prefix_rfl, List.prefix_rfl, fun _ => rfl,
        fun hNot => absurd rfl hNot⟩
    | returns =>
      exact ⟨List.prefix_rfl, List.prefix_rfl, List.prefix_rfl, List.prefix_append _ _, fun _ => rfl,
        fun hNot => absurd rfl hNot⟩
  | start prompt =>
    simp only [step, start] at hStep
    split at hStep
    case h_2 => exact nomatch hStep
    case h_1 hAbsent =>
      obtain rfl := Option.some.inj hStep
      exact ⟨List.prefix_append _ _, List.prefix_rfl, List.prefix_rfl, List.prefix_rfl, fun _ => rfl,
        fun _ hNot => absurd hAbsent hNot⟩
  | answer prompt secret =>
    simp only [step, answer] at hStep
    split at hStep
    case isFalse => exact nomatch hStep
    case isTrue =>
      obtain rfl := Option.some.inj hStep
      exact ⟨List.prefix_rfl, List.prefix_rfl, List.prefix_rfl, List.prefix_rfl, fun _ => rfl, fun _ _ => rfl⟩
  | write written =>
    simp only [step, write] at hStep
    split at hStep
    case h_2 => exact nomatch hStep
    case h_1 =>
      split at hStep
      all_goals obtain rfl := Option.some.inj hStep
      · exact ⟨List.prefix_rfl, List.prefix_rfl, List.prefix_append _ _, List.prefix_rfl, fun _ => rfl, fun _ _ => rfl⟩
      · exact ⟨List.prefix_rfl, List.prefix_rfl, List.prefix_rfl, List.prefix_rfl, fun _ => rfl, fun _ _ => rfl⟩
  | mark =>
    simp only [step, mark] at hStep
    split at hStep
    case h_2 => exact nomatch hStep
    case h_1 =>
      obtain rfl := Option.some.inj hStep
      exact ⟨List.prefix_rfl, List.prefix_rfl, List.prefix_rfl, List.prefix_rfl, fun _ => rfl, fun _ _ => rfl⟩

/-- How many steps the poller takes at most until `n` prompts are shown, of which all are written. -/
def pollsLeft (n : Nat) (s : AskpassExchange) : Nat := if n ≤ s.shown.length then 0 else s.left

/-- How many steps of clients it takes at most until `n` have returned, all of them answered. -/
def repliesLeft (n : Nat) (s : AskpassExchange) : Nat := if n ≤ s.outputs.length then 0 else s.clientLeft

theorem left_bounds (s : AskpassExchange) : 0 < s.left ∧ s.left ≤ 9 := by
  unfold left
  split
  case h_5 => split <;> omega
  all_goals omega

theorem pollsLeft_le (n : Nat) (s : AskpassExchange) : pollsLeft n s ≤ 9 := by
  have hLeft := s.left_bounds
  unfold pollsLeft
  split <;> omega

theorem shown_of_pollsLeft {n : Nat} (h : pollsLeft n s = 0) : n ≤ s.shown.length := by
  by_contra hNot
  rw [pollsLeft, if_neg hNot] at h
  exact absurd h s.left_bounds.1.ne'

theorem pollsLeft_step (h : s.Exchanged) {n : Nat} (hWritten : n ≤ s.prompts.length) {event : AskpassStep}
    (hStep : s.step event = some s') : pollsLeft n s' ≤ pollsLeft n s - if event == .poll then 1 else 0 := by
  have hFrame := step_frame h hStep
  have hGrows := hFrame.shown.length_le
  by_cases hShown : n ≤ s.shown.length
  · rw [pollsLeft, if_pos (hShown.trans hGrows)]
    exact Nat.zero_le _
  · have hNow : pollsLeft n s = s.left := if_neg hShown
    have hNext : pollsLeft n s' ≤ s'.left := by
      unfold pollsLeft
      split <;> omega
    by_cases hPoll : event = .poll
    · subst hPoll
      have hOne : (if AskpassStep.poll == .poll then 1 else 0) = 1 := if_pos (beq_self_eq_true _)
      obtain hCloser | hLast := h.poll_left (by omega) hStep
      · omega
      · rw [pollsLeft, if_pos (hWritten.trans hLast)]
        exact Nat.zero_le _
    · have hSame := hFrame.left hPoll
      have hNone : (if event == .poll then 1 else 0) = 0 := if_neg (by simp [hPoll])
      omega

theorem clientLeft_bounds (hRunning : s.client ≠ .absent) : 0 < s.clientLeft := by
  unfold clientLeft
  split
  case h_7 hAbsent => exact absurd hAbsent hRunning
  all_goals omega

theorem repliesLeft_le (n : Nat) (s : AskpassExchange) : repliesLeft n s ≤ 6 := by
  unfold repliesLeft clientLeft
  split
  · omega
  · split <;> omega

/-- A client that has its answer is running, and finds the answer. -/
theorem Exchanged.replying (h : s.Exchanged) (hTyped : s.outputs.length < s.typed.length) :
    s.client ≠ .absent ∧ (s.client = .waiting → s.response.isSome) := by
  have hServing := h.serving
  have hShown := h.matched.shown.length_le
  have hOrder := h.matched.order
  unfold Serving at hServing
  constructor
  · intro hAbsent
    rw [hAbsent] at hServing
    have hAll := hServing.1
    omega
  · intro hWaiting
    rw [hWaiting] at hServing
    obtain ⟨-, -, hResponse⟩ := hServing
    rw [hResponse, text, List.getElem?_eq_getElem hTyped]
    rfl

theorem replied_of_repliesLeft (h : s.Exchanged) {n : Nat} (hTyped : n ≤ s.typed.length)
    (hNone : repliesLeft n s = 0) : n ≤ s.outputs.length := by
  by_contra hNot
  rw [repliesLeft, if_neg hNot] at hNone
  obtain ⟨hRunning, -⟩ := h.replying (by omega)
  exact absurd hNone (clientLeft_bounds hRunning).ne'

theorem repliesLeft_step (h : s.Exchanged) {n : Nat} (hTyped : n ≤ s.typed.length) {event : AskpassStep}
    (hStep : s.step event = some s') : repliesLeft n s' ≤ repliesLeft n s - if event == .client then 1 else 0 := by
  have hFrame := step_frame h hStep
  have hGrows := hFrame.outputs.length_le
  by_cases hReplied : n ≤ s.outputs.length
  · rw [repliesLeft, if_pos (hReplied.trans hGrows)]
    exact Nat.zero_le _
  · have hNow : repliesLeft n s = s.clientLeft := if_neg hReplied
    have hNext : repliesLeft n s' ≤ s'.clientLeft := by
      unfold repliesLeft
      split <;> omega
    obtain ⟨hRunning, hAnswered⟩ := h.replying (by omega)
    by_cases hClient : event = .client
    · subst hClient
      have hOne : (if AskpassStep.client == .client then 1 else 0) = 1 := if_pos (beq_self_eq_true _)
      have hCloser := clientStep_left hAnswered hStep
      omega
    · have hSame : s'.clientLeft = s.clientLeft := by rw [clientLeft, clientLeft, hFrame.client hClient hRunning]
      have hNone : (if event == .client then 1 else 0) = 0 := if_neg (by simp [hClient])
      omega

theorem exchanged_of_run {events : List AskpassStep} (h : Run step (fun _ => Fits) s events s')
    (hStart : s.Exchanged) : s'.Exchanged :=
  h.invariant hStart fun _ _ _ hBefore hFits hStep => hBefore.step hFits hStep

/-- The poller shows every prompt that is written. -/
theorem shows_prompts {more : List AskpassStep} (h : Run step (fun _ => Fits) s more s') (hStart : s.Exchanged)
    (hSteps : 9 ≤ more.count .poll) : s.prompts.length ≤ s'.shown.length := by
  have hSpent : pollsLeft s.prompts.length s' ≤ pollsLeft s.prompts.length s - more.count .poll := by
    apply h.spends (P := fun m => m.Exchanged ∧ s.prompts.length ≤ m.prompts.length)
    · exact ⟨hStart, Nat.le_refl _⟩
    · rintro m event m' ⟨hBefore, hWritten⟩ hFits hStep
      exact ⟨hBefore.step hFits hStep, hWritten.trans (step_frame hBefore hStep).prompts.length_le⟩
    · rintro m event m' ⟨hBefore, hWritten⟩ - hStep
      exact pollsLeft_step hBefore hWritten hStep
  have hLimit := pollsLeft_le s.prompts.length s
  exact shown_of_pollsLeft (by omega)

/-- Every client whose answer is written returns. -/
theorem takes_answers {more : List AskpassStep} (h : Run step (fun _ => Fits) s more s') (hStart : s.Exchanged)
    (hSteps : 6 ≤ more.count .client) : s.typed.length ≤ s'.outputs.length := by
  have hWhole : s'.Exchanged ∧ s.typed.length ≤ s'.typed.length := by
    apply h.invariant (P := fun m => m.Exchanged ∧ s.typed.length ≤ m.typed.length) ⟨hStart, Nat.le_refl _⟩
    rintro m event m' ⟨hBefore, hTyped⟩ hFits hStep
    exact ⟨hBefore.step hFits hStep, hTyped.trans (step_frame hBefore hStep).typed.length_le⟩
  have hSpent : repliesLeft s.typed.length s' ≤ repliesLeft s.typed.length s - more.count .client := by
    apply h.spends (P := fun m => m.Exchanged ∧ s.typed.length ≤ m.typed.length)
    · exact ⟨hStart, Nat.le_refl _⟩
    · rintro m event m' ⟨hBefore, hTyped⟩ hFits hStep
      exact ⟨hBefore.step hFits hStep, hTyped.trans (step_frame hBefore hStep).typed.length_le⟩
    · rintro m event m' ⟨hBefore, hTyped⟩ - hStep
      exact repliesLeft_step hBefore hTyped hStep
  have hLimit := repliesLeft_le s.typed.length s
  exact replied_of_repliesLeft hWhole.1 hWhole.2 (by omega)

/-- In every state reached from an empty directory by texts that fit, each answer has gone to its
own prompt, and what is written is shown and answered in a bounded number of steps. -/
theorem answers_reach_their_prompts {events : List AskpassStep} (h : Run step (fun _ => Fits) {} events s) :
    s.OwnAnswers ∧ s.Unblocked ∧
      ∀ more s', Run step (fun _ => Fits) s more s' →
        (9 ≤ more.count .poll → s.prompts.length ≤ s'.shown.length) ∧
        (6 ≤ more.count .client → s.typed.length ≤ s'.outputs.length) := by
  have hExchanged := exchanged_of_run h exchanged_start
  refine ⟨hExchanged.matched.ownAnswers, unblocked s, ?_⟩
  intro more s' hMore
  exact ⟨shows_prompts hMore hExchanged, takes_answers hMore hExchanged⟩

/-- A user name and a password, asked one after the other. -/
def login : List AskpassStep :=
  .start (ascii "Username: ") :: List.replicate 5 .poll ++
  .answer 0 (ascii "me") :: .write true :: .mark :: List.replicate 6 .client ++
  .start (ascii "Password: ") :: List.replicate 8 .poll ++
  .answer 1 (ascii "secret") :: .write true :: .mark :: List.replicate 6 .client

theorem login_answers_reach_their_prompts : ∃ s, Run step (fun _ => Fits) {} login s ∧
    s.prompts = [ascii "Username: ", ascii "Password: "] ∧ s.shown = s.prompts ∧
    s.outputs = [some (ascii "me\n"), some (ascii "secret\n")] ∧ s.OwnAnswers := by
  have hAll : ∀ event ∈ login, Fits event := by decide
  have h (s) (hs : login.foldlM step {} = some s) : Run step (fun _ => Fits) {} login s :=
    (Run.of_foldlM hs).admitted fun event hEvent _ => hAll event hEvent
  exact ⟨_, h _ rfl, rfl, rfl, rfl, (answers_reach_their_prompts (h _ rfl)).1⟩

/-- A client refuses an answer that does not fit, takes it away and fails. -/
theorem refuses_long_answer {secret : Bytes} (hClient : s.client = .sizing) (hResponse : s.response = some secret)
    (hLong : maxBytes < secret.length) :
    Run step (fun _ _ => True) s (List.replicate 4 .client)
      { s with request := none, response := none, client := .absent, outputs := s.outputs ++ [none] } := by
  have hRefused : s.step .client = some { s with client := .removingRequest none } := by
    have hSize : smallFileSize s.response = none := by
      rw [hResponse]
      exact if_neg (Nat.not_le_of_lt hLong)
    simp only [step, clientStep, hClient, hSize]
  have hRest : Run step (fun _ _ => True) { s with client := .removingRequest none } (List.replicate 3 .client)
      { s with request := none, response := none, client := .absent, outputs := s.outputs ++ [none] } :=
    .of_foldlM rfl
  exact ((Run.start s).next trivial hRefused).append hRest

/-- The client finds an answer of one byte more than what is read. -/
def longAnswer : List AskpassStep :=
  .start (ascii "Password: ") :: List.replicate 5 .poll ++
  [.answer 0 (List.replicate 65537 97), .write true, .mark, .client]

theorem long_answer_lost : ∃ s, Run step (fun _ _ => True) {} (longAnswer ++ List.replicate 4 .client) s ∧
    s.typed = [(0, List.replicate 65537 97)] ∧ s.outputs = [none] ∧ ¬ s.OwnAnswers := by
  have h (s) (hs : longAnswer.foldlM step {} = some s) : Run step (fun _ _ => True) {} longAnswer s := .of_foldlM hs
  have hLong : maxBytes < (List.replicate 65537 (97 : UInt8)).length := by
    rw [List.length_replicate]
    decide
  refine ⟨_, (h _ rfl).append (refuses_long_answer rfl rfl hLong), rfl, rfl, fun hOwn => ?_⟩
  obtain ⟨secret, -, hNone⟩ := hOwn.received 0 none rfl
  exact nomatch hNone

end AskpassExchange

end GitBranchManager
