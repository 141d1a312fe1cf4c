import GitBranchManager.Refs.UndoPoints

/-! # Where an undo leaves HEAD

An undo resets whatever HEAD is on. It refuses on a branch other than the recorded one; nothing
compares a branch with a detached HEAD, or with a branch that has no commit.
-/

namespace GitBranchManager

inductive Head
  | branch (name : Bytes)
  | detached (target : ObjectId)
  deriving DecidableEq

namespace Head

def resolve (branches : Bytes → Option ObjectId) : Head → Option ObjectId
  | .branch name => branches name
  | .detached target => some target

/-- The branch that HEAD is attached to, with or without a commit. -/
def branch? : Head → Option Bytes
  | .branch name => some name
  | .detached _ => none

/-- HEAD is attached to `branchBefore`, or detached when that is empty. -/
def IsAt (branchBefore : Bytes) : Head → Prop
  | .branch name => name = branchBefore
  | .detached _ => branchBefore = []

def reset (target : ObjectId) : Head → Head
  | .branch name => .branch name
  | .detached _ => .detached target

end Head

/-- HEAD and the commits of the local branches. -/
structure Checkout where
  head : Head
  branches : Bytes → Option ObjectId
  named : head ≠ .branch []
  real : ∀ id, head.resolve branches = some id → id.isNull = false

namespace Checkout

/-- What git prints for HEAD: its commit and its full name, or nothing without a commit. -/
def printed (c : Checkout) : Bytes :=
  match c.head with
  | .branch name =>
    match c.branches name with
    | none => []
    | some id => id.hex ++ LF :: (kHeads ++ name)
  | .detached id => id.hex ++ LF :: ascii "HEAD"

/-- What reading HEAD finds. -/
inductive Shows (c : Checkout) : HeadInfo → Prop
  | branch (name : Bytes) (id : ObjectId) (hHead : c.head = .branch name) (hTip : c.branches name = some id) :
      Shows c { kind := .branch, branchName := name, fullRef := kHeads ++ name, target := id }
  | detached (id : ObjectId) (hHead : c.head = .detached id) : Shows c { kind := .detached, target := id }
  | unborn (name : Bytes) (info : HeadInfo) (hHead : c.head = .branch name) (hTip : c.branches name = none)
      (hKind : info.kind = .unborn) (hTarget : info.target = .null) : Shows c info

end Checkout

variable {ρ : Type}

/-- The documented behaviour of git: a hard reset moves the branch that HEAD is attached to, which it
creates if need be, or a detached HEAD. -/
structure KeepsHead (git : ProcessRunner ρ) (checkout : ρ → Checkout) : Prop where
  reads : ∀ s command, command = headCommand ∨ command = symbolicRef → checkout (git s command).2 = checkout s
  prints : ∀ s out s', git s headCommand = (.ok out, s') → out = (checkout s).printed
  resets : ∀ s id out s', git s [ascii "reset", ascii "--hard", id.hex] = (.ok out, s') →
    (checkout s').head = (checkout s).head.reset id ∧
      ∀ name, (checkout s').branches name =
        if (checkout s).head = .branch name then some id else (checkout s).branches name

/-- HEAD is attached to the recorded branch, or detached as it was, at the recorded commit; and no
other branch has moved. -/
structure UndoRequest.PutsBack (request : UndoRequest) (before after : Checkout) : Prop where
  head : after.head.IsAt request.branchBefore
  target : after.head.resolve after.branches = some request.headBefore
  others : ∀ name, name ≠ request.branchBefore → after.branches name = before.branches name

theorem splitHead_hex (id : ObjectId) (symbolic : Bytes) :
    RefStore.splitHead (id.hex ++ LF :: symbolic) = (id.hex, symbolic) := by
  have hApart : LF ∉ id.hex := by
    intro hMem
    exact absurd (ObjectId.mem_kDigits_of_mem_hex hMem) (by decide)
  have hFind : find [LF] (id.hex ++ LF :: symbolic) = some id.hex.length := by
    rw [find_skip hApart, find_of_startsWith (by simp)]
    simp
  rw [RefStore.splitHead, hFind]
  simp

namespace Checkout

variable {c : Checkout}

theorem shows_resolved (h : c.printed ≠ []) : c.Shows (RefStore.resolvedHead c.printed) := by
  cases hHead : c.head with
  | branch name =>
    cases hTip : c.branches name with
    | none =>
      refine absurd ?_ h
      rw [printed, hHead]
      simp only [hTip]
    | some id =>
      have hReal : id.isNull = false := c.real id (by rw [hHead]; exact hTip)
      have hPrinted : c.printed = id.hex ++ LF :: (kHeads ++ name) := by
        rw [printed, hHead]
        simp only [hTip]
      have hNotHead : ((kHeads ++ name).isEmpty || (kHeads ++ name) == ascii "HEAD") = false := by
        rw [Bool.or_eq_false_iff]
        exact ⟨rfl, rfl⟩
      have hInfo : RefStore.resolvedHead c.printed =
          { kind := .branch, branchName := name, fullRef := kHeads ++ name, target := id } := by
        rw [hPrinted, RefStore.resolvedHead, splitHead_hex]
        simp only [hNotHead, Bool.false_eq_true, if_false, ObjectId.fromHex_hex hReal, shortNameFor,
          List.drop_left]
      rw [hInfo]
      exact .branch name id hHead hTip
  | detached id =>
    have hReal : id.isNull = false := c.real id (by rw [hHead]; rfl)
    have hPrinted : c.printed = id.hex ++ LF :: ascii "HEAD" := by rw [printed, hHead]
    have hInfo : RefStore.resolvedHead c.printed = { kind := .detached, target := id } := by
      rw [hPrinted, RefStore.resolvedHead, splitHead_hex]
      simp only [beq_self_eq_true, Bool.or_true, if_true, ObjectId.fromHex_hex hReal]
    rw [hInfo]
    exact .detached id hHead

theorem exists_unborn (h : c.printed = []) : ∃ name, c.head = .branch name ∧ c.branches name = none := by
  cases hHead : c.head with
  | branch name =>
    refine ⟨name, rfl, ?_⟩
    cases hTip : c.branches name with
    | none => rfl
    | some id =>
      rw [printed, hHead] at h
      simp [hTip] at h
  | detached id =>
    rw [printed, hHead] at h
    simp at h

end Checkout

theorem unbornHead_spec (symbolic : Bytes) :
    (RefStore.unbornHead symbolic).kind = .unborn ∧ (RefStore.unbornHead symbolic).target = .null := by
  rw [RefStore.unbornHead]
  split
  · exact ⟨rfl, rfl⟩
  · exact ⟨rfl, rfl⟩

section Reading

variable {git : ProcessRunner ρ} {checkout : ρ → Checkout}

/-- Reading HEAD changes nothing, and what it finds is so. -/
theorem KeepsHead.shows (hGit : KeepsHead git checkout) {s s' : ρ} {result : Except CommandError HeadInfo}
    (hRead : RefStore.readHead git s = (result, s')) :
    checkout s' = checkout s ∧ ∀ info, result = .ok info → (checkout s).Shows info := by
  rw [RefStore.readHead] at hRead
  rcases hAnswer : git s headCommand with ⟨answer, s₁⟩
  have hFirst : checkout s₁ = checkout s := by
    have hSame := hGit.reads s headCommand (.inl rfl)
    rwa [hAnswer] at hSame
  rw [hAnswer] at hRead
  cases answer with
  | error e =>
    obtain ⟨rfl, rfl⟩ := Prod.mk.inj hRead
    exact ⟨hFirst, fun info hInfo => absurd hInfo (by simp)⟩
  | ok out =>
    have hOut : out = (checkout s).printed := hGit.prints s out s₁ hAnswer
    cases hEmpty : out.isEmpty with
    | false =>
      simp only [hEmpty, Bool.not_false, if_true] at hRead
      obtain ⟨rfl, rfl⟩ := Prod.mk.inj hRead
      refine ⟨hFirst, fun info hInfo => ?_⟩
      obtain rfl := Except.ok.inj hInfo
      rw [hOut] at hEmpty ⊢
      exact Checkout.shows_resolved (List.isEmpty_eq_false_iff.mp hEmpty)
    | true =>
      simp only [hEmpty, Bool.not_true, Bool.false_eq_true, if_false] at hRead
      rw [hOut] at hEmpty
      obtain ⟨name, hHead, hTip⟩ := Checkout.exists_unborn (List.isEmpty_iff.mp hEmpty)
      rcases hSymbolic : git s₁ symbolicRef with ⟨named, s₂⟩
      have hSecond : checkout s₂ = checkout s₁ := by
        have hSame := hGit.reads s₁ symbolicRef (.inr rfl)
        rwa [hSymbolic] at hSame
      rw [hSymbolic] at hRead
      cases named with
      | error e =>
        obtain ⟨rfl, rfl⟩ := Prod.mk.inj hRead
        refine ⟨hSecond.trans hFirst, fun info hInfo => ?_⟩
        obtain rfl := Except.ok.inj hInfo
        exact .unborn name _ hHead hTip rfl rfl
      | ok symbolic =>
        obtain ⟨rfl, rfl⟩ := Prod.mk.inj hRead
        refine ⟨hSecond.trans hFirst, fun info hInfo => ?_⟩
        obtain rfl := Except.ok.inj hInfo
        obtain ⟨hKind, hTarget⟩ := unbornHead_spec symbolic
        exact .unborn name _ hHead hTip hKind hTarget

/-- An undo that succeeds was not refused, and has reset to a commit. -/
theorem KeepsHead.undone (hGit : KeepsHead git checkout) {request : UndoRequest} {s s' : ρ}
    {outcome : OperationOutcome} (hRun : request.run git s = (outcome, s')) (hSucceeded : outcome.succeeded = true) :
    request.headBefore.isNull = false ∧ (checkout s').head = (checkout s).head.reset request.headBefore ∧
      (∀ name, (checkout s').branches name =
        if (checkout s).head = .branch name then some request.headBefore else (checkout s).branches name) ∧
      ∃ info, (checkout s).Shows info ∧ ¬ (request.branchBefore ≠ [] ∧ info.kind = .branch ∧
        info.branchName ≠ request.branchBefore) := by
  rw [UndoRequest.run] at hRun
  cases hNull : request.headBefore.isNull with
  | true =>
    rw [if_pos hNull] at hRun
    obtain ⟨rfl, -⟩ := Prod.mk.inj hRun
    cases hSucceeded
  | false =>
    rw [hNull, if_neg Bool.false_ne_true] at hRun
    rcases hRead : RefStore.readHead git s with ⟨result, s₁⟩
    obtain ⟨hSame, hShows⟩ := hGit.shows hRead
    rw [hRead] at hRun
    cases result with
    | error e =>
      obtain ⟨rfl, -⟩ := Prod.mk.inj hRun
      cases hSucceeded
    | ok info =>
      dsimp only at hRun
      split at hRun
      · obtain ⟨rfl, -⟩ := Prod.mk.inj hRun
        cases hSucceeded
      · rename_i hAllowed
        rcases hReset : git s₁ request.resetCommand with ⟨answer, s₂⟩
        rw [hReset] at hRun
        cases answer with
        | error e =>
          obtain ⟨rfl, -⟩ := Prod.mk.inj hRun
          cases hSucceeded
        | ok out =>
          obtain ⟨rfl, rfl⟩ := Prod.mk.inj hRun
          obtain ⟨hHead, hBranches⟩ := hGit.resets s₁ request.headBefore out s₂ hReset
          rw [hSame] at hHead hBranches
          refine ⟨rfl, hHead, hBranches, info, hShows info rfl, ?_⟩
          rintro ⟨hRecorded, hKind, hOther⟩
          refine hAllowed ?_
          simpa [hKind] using ⟨hRecorded, hOther⟩

/-- What an undo point that can be undone says of HEAD. -/
theorem KeepsHead.recorded (hGit : KeepsHead git checkout) {operation : Operation} {timestamp : Int}
    {undoJournal : List UndoEntry} {s : ρ} {request : UndoRequest}
    (hRequest : undoLastOperation (OperationRunner.recordUndoPoint operation timestamp undoJournal git s).1 =
      some request) (hReal : request.headBefore.isNull = false) :
    (checkout s).head.IsAt request.branchBefore ∧
      (checkout s).head.resolve (checkout s).branches = some request.headBefore := by
  have hLast : (OperationRunner.recordUndoPoint operation timestamp undoJournal git s).1.getLast? =
      some (UndoEntry.of undoJournal operation timestamp (RefStore.readHead git s).1.toOption) :=
    UndoEntry.getLast?_push _ _
  rw [undoLastOperation, hLast] at hRequest
  obtain rfl := Option.some.inj hRequest
  rcases hRead : RefStore.readHead git s with ⟨result, s'⟩
  obtain ⟨-, hShows⟩ := hGit.shows hRead
  rw [hRead] at hReal
  cases result with
  | error e => cases hReal
  | ok info =>
    cases hShows info rfl with
    | branch name id hHead hTip =>
      rw [hHead]
      exact ⟨rfl, hTip⟩
    | detached id hHead =>
      rw [hHead]
      exact ⟨rfl, rfl⟩
    | unborn name info hHead hTip hKind hTarget =>
      change info.target.isNull = false at hReal
      rw [hTarget] at hReal
      cases hReal

/-- An undo that succeeds puts HEAD back exactly when HEAD is on the branch it was on, or detached
as it was. -/
theorem puts_back_iff_same_branch (hGit : KeepsHead git checkout) {operation : Operation} {timestamp : Int}
    {undoJournal : List UndoEntry} {s₀ s s' : ρ} {request : UndoRequest} {outcome : OperationOutcome}
    (hRequest : undoLastOperation (OperationRunner.recordUndoPoint operation timestamp undoJournal git s₀).1 =
      some request)
    (hRun : request.run git s = (outcome, s')) (hSucceeded : outcome.succeeded = true) :
    request.PutsBack (checkout s) (checkout s') ↔ (checkout s).head.branch? = (checkout s₀).head.branch? := by
  obtain ⟨hReal, hHead, hBranches, info, hShows, hAllowed⟩ := hGit.undone hRun hSucceeded
  obtain ⟨hAt, -⟩ := hGit.recorded hRequest hReal
  have hSame : (checkout s).head.branch? = (checkout s₀).head.branch? ↔
      (checkout s).head.IsAt request.branchBefore := by
    cases hBefore : (checkout s₀).head with
    | branch name =>
      rw [hBefore] at hAt
      obtain rfl : name = request.branchBefore := hAt
      cases hNow : (checkout s).head with
      | branch other => exact Option.some_inj
      | detached target =>
        refine iff_of_false (by simp [Head.branch?]) fun hNil : request.branchBefore = [] => ?_
        rw [hNil] at hBefore
        exact (checkout s₀).named hBefore
    | detached target =>
      rw [hBefore] at hAt
      have hNil : request.branchBefore = [] := hAt
      cases hNow : (checkout s).head with
      | branch other =>
        refine iff_of_false (by simp [Head.branch?]) fun hOther : other = request.branchBefore => ?_
        rw [hOther, hNil] at hNow
        exact (checkout s).named hNow
      | detached other => exact iff_of_true rfl hNil
  rw [hSame]
  constructor
  · intro hBack
    have hAfter := hBack.head
    rw [hHead] at hAfter
    cases hNow : (checkout s).head with
    | branch name =>
      rw [hNow] at hAfter
      exact hAfter
    | detached target =>
      rw [hNow] at hAfter
      exact hAfter
  · intro hIs
    constructor
    · rw [hHead]
      cases hNow : (checkout s).head with
      | branch name =>
        rw [hNow] at hIs
        exact hIs
      | detached target =>
        rw [hNow] at hIs
        exact hIs
    · rw [hHead]
      cases hNow : (checkout s).head with
      | branch name =>
        change (checkout s').branches name = some request.headBefore
        rw [hBranches, if_pos hNow]
      | detached target => rfl
    · intro name hOther
      rw [hBranches, if_neg]
      intro hNow
      rw [hNow] at hIs
      exact hOther hIs

end Reading

/-! ## A git of which only HEAD and the branches are seen -/

def Checkout.hardReset (c : Checkout) (id : ObjectId) (hId : id.isNull = false) : Checkout where
  head := c.head.reset id
  branches name := if c.head = .branch name then some id else c.branches name
  named := by
    cases hHead : c.head with
    | branch name =>
      have hNamed := c.named
      rwa [hHead] at hNamed
    | detached target => exact Head.noConfusion
  real := by
    intro other hOther
    cases hHead : c.head with
    | branch name =>
      rw [hHead, Head.reset, Head.resolve, if_pos rfl] at hOther
      exact Option.some.inj hOther ▸ hId
    | detached target =>
      rw [hHead] at hOther
      exact Option.some.inj hOther ▸ hId

def plainGit : ProcessRunner Checkout := fun c command =>
  if command = headCommand then (.ok c.printed, c)
  else if command = symbolicRef then
    match c.head with
    | .branch name => (.ok (kHeads ++ name), c)
    | .detached _ => (.error {}, c)
  else if command.take 2 = [ascii "reset", ascii "--hard"] then
    let id := ObjectId.fromHex (command.getD 2 [])
    if hId : id.isNull = false then (.ok [], c.hardReset id hId) else (.error {}, c)
  else (.error {}, c)

theorem keepsHead_plainGit : KeepsHead plainGit id where
  reads c command hCommand := by
    rcases hCommand with rfl | rfl
    · rfl
    · rw [plainGit, if_neg (by decide), if_pos rfl]
      split
      · rfl
      · rfl
  prints c out c' hAnswer := by
    rw [plainGit, if_pos rfl] at hAnswer
    obtain ⟨hOut, -⟩ := Prod.mk.inj hAnswer
    exact (Except.ok.inj hOut).symm
  resets c target out c' hAnswer := by
    have hSymbolic : [ascii "reset", ascii "--hard", target.hex] ≠ symbolicRef := by
      intro hSame
      exact absurd (List.head_eq_of_cons_eq hSame) (by decide)
    have hTaken : [ascii "reset", ascii "--hard", target.hex].take 2 = [ascii "reset", ascii "--hard"] := rfl
    rw [plainGit, if_neg (by simp [headCommand]), if_neg hSymbolic, if_pos hTaken] at hAnswer
    dsimp only [List.getD_cons_succ, List.getD_cons_zero] at hAnswer
    split at hAnswer
    · rename_i hId
      obtain ⟨-, rfl⟩ := Prod.mk.inj hAnswer
      have hTarget : ObjectId.fromHex ([ascii "reset", ascii "--hard", target.hex].getD 2 []) = target := by
        change ObjectId.fromHex target.hex = target
        cases hNull : target.isNull with
        | false => exact ObjectId.fromHex_hex hNull
        | true =>
          have hHex : target.hex = [] := by
            rw [ObjectId.hex, List.length_eq_zero_iff.mp (eq_of_beq hNull)]
            rfl
          change (ObjectId.fromHex target.hex).isNull = false at hId
          rw [hHex] at hId
          cases hId
      constructor
      · change c.head.reset _ = _
        rw [hTarget]
        rfl
      · intro name
        change (if c.head = .branch name then _ else _) = _
        rw [hTarget]
        rfl
    · obtain ⟨hOut, -⟩ := Prod.mk.inj hAnswer
      cases hOut

/-- On `main` at one commit. -/
def onMain (tip : ObjectId) (hTip : tip.isNull = false) : Checkout where
  head := .branch (ascii "main")
  branches name := if name = ascii "main" then some tip else none
  named := by decide
  real id hId := Option.some.inj hId ▸ hTip

/-- Detached at one commit, `main` being at another. -/
def besideMain (target tip : ObjectId) (hTarget : target.isNull = false) : Checkout where
  head := .detached target
  branches name := if name = ascii "main" then some tip else none
  named := Head.noConfusion
  real _ hId := Option.some.inj hId ▸ hTarget

def commitOnHead : Operation := { describe := ascii "Commit" }

theorem puts_back_iff_same_branch_onMain : ∃ (request : UndoRequest) (outcome : OperationOutcome) (c' : Checkout),
    request.run plainGit (onMain (.replicate 2) rfl) = (outcome, c') ∧
      (request.PutsBack (onMain (.replicate 2) rfl) c' ↔ some (ascii "main") = some (ascii "main")) :=
  ⟨_, _, _, rfl, puts_back_iff_same_branch keepsHead_plainGit
    (show undoLastOperation (OperationRunner.recordUndoPoint commitOnHead 0 [] plainGit (onMain (.replicate 1) rfl)).1 =
      some { headBefore := .replicate 1, branchBefore := ascii "main" } from rfl) rfl rfl⟩

/-- The commit was made on a detached HEAD; `main` is checked out, and the undo moves it. -/
theorem undo_moves_main : ¬ ∀ (git : ProcessRunner Checkout), KeepsHead git id →
    ∀ operation timestamp undoJournal c₀ c c' request outcome,
      undoLastOperation (OperationRunner.recordUndoPoint operation timestamp undoJournal git c₀).1 = some request →
      request.run git c = (outcome, c') → outcome.succeeded = true → request.PutsBack c c' := by
  intro h
  have hBack := h plainGit keepsHead_plainGit commitOnHead 0 [] (besideMain (.replicate 1) (.replicate 2) rfl)
    (onMain (.replicate 2) rfl) _ { headBefore := .replicate 1, branchBefore := [] } _ rfl rfl rfl
  have hAt : ascii "main" = [] := hBack.head
  cases hAt

end GitBranchManager
