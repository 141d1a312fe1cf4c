import GitBranchManager.Base.GitError
import GitBranchManager.Library.Joined
import GitBranchManager.Library.Lines
import Mathlib.Logic.Function.Basic

/-! # What git's error output says

The text is searched for one pattern after the other, names and messages alike. A name that
holds a pattern of a held lock comes before every message.
-/

namespace GitBranchManager

/-- `std::tolower` in the "C" locale. -/
def tolower (b : UInt8) : UInt8 := if 65 ≤ b && b ≤ 90 then b + 32 else b

/-- `std::search` answers the end where it finds nothing, and an empty needle at the start. -/
def containsInsensitive (haystack needle : Bytes) : Bool :=
  if needle.length > haystack.length then false
  else
    match find (needle.map tolower) (haystack.map tolower) with
    | some at_ => at_ != haystack.length
    | none => false

structure Pattern where
  needle : Bytes
  code : GitErrorCode
  summary : Bytes
  deriving DecidableEq, Repr

def kPatterns : List Pattern := [
  ⟨ascii "unable to create", .lockHeld, ascii "Could not create a Git lock file"⟩,
  ⟨ascii "index.lock", .lockHeld, ascii "Another Git process appears to be running in this repository"⟩,
  ⟨ascii "cannot lock ref", .lockHeld, ascii "Could not lock a Git reference"⟩,
  ⟨ascii "would be overwritten by", .dirtyWorkTree, ascii "Local changes would be overwritten"⟩,
  ⟨ascii "local changes to the following files", .dirtyWorkTree, ascii "Local changes would be overwritten"⟩,
  ⟨ascii "please commit your changes or stash them", .dirtyWorkTree,
    ascii "Commit or stash your changes first"⟩,
  ⟨ascii "you have unstaged changes", .dirtyWorkTree, ascii "You have unstaged changes"⟩,
  ⟨ascii "conflict", .conflict, ascii "The operation stopped with conflicts"⟩,
  ⟨ascii "after resolving the conflicts", .conflict, ascii "The operation stopped with conflicts"⟩,
  ⟨ascii "non-fast-forward", .nonFastForward, ascii "The remote has commits you do not have locally"⟩,
  ⟨ascii "fetch first", .nonFastForward, ascii "The remote has commits you do not have locally"⟩,
  ⟨ascii "not possible to fast-forward", .nonFastForward,
    ascii "Cannot fast-forward: the branches have diverged"⟩,
  ⟨ascii "stale info", .nonFastForward,
    ascii "The remote has moved since you last fetched; fetch and try again"⟩,
  ⟨ascii "host key verification failed", .hostKey, ascii "The server's host key could not be verified"⟩,
  ⟨ascii "authenticity of host", .hostKey, ascii "Unknown SSH host key"⟩,
  ⟨ascii "authentication failed", .auth, ascii "Authentication failed"⟩,
  ⟨ascii "could not read username", .auth, ascii "Git needs credentials"⟩,
  ⟨ascii "permission denied (publickey", .auth, ascii "SSH key was rejected"⟩,
  ⟨ascii "terminal prompts disabled", .auth, ascii "Git needs credentials"⟩,
  ⟨ascii "pre-commit hook", .hookRejected, ascii "A pre-commit hook rejected this"⟩,
  ⟨ascii "commit-msg hook", .hookRejected, ascii "A commit-msg hook rejected this"⟩,
  ⟨ascii "hook declined", .hookRejected, ascii "A Git hook rejected this"⟩,
  ⟨ascii "nothing to commit", .invalidArgument, ascii "There is nothing staged to commit"⟩,
  ⟨ascii "nothing added to commit", .invalidArgument, ascii "There is nothing staged to commit"⟩,
  ⟨ascii "patch does not apply", .conflict,
    ascii "This change no longer matches the file; refresh and try again"⟩,
  ⟨ascii "patch failed", .conflict, ascii "This change no longer matches the file; refresh and try again"⟩,
  ⟨ascii "did not match any file", .notFound, ascii "No matching ref or path"⟩,
  ⟨ascii "unknown revision", .notFound, ascii "Unknown revision"⟩,
  ⟨ascii "not a git repository", .notFound, ascii "Not a Git repository"⟩,
  ⟨ascii "bad object", .notFound, ascii "No such object"⟩,
  ⟨ascii "does not exist", .notFound, ascii "Not found"⟩,
  ⟨ascii "object file is empty", .corrupt, ascii "The repository has a corrupt object"⟩,
  ⟨ascii "loose object", .corrupt, ascii "The repository has a corrupt object"⟩,
  ⟨ascii "unknown option", .unsupported, ascii "This Git version does not support an option we used"⟩,
  ⟨ascii "timed out", .timeout, ascii "The operation timed out"⟩]

structure StderrError extends GitError where
  detail : Bytes := []
  exitCode : Int32 := 0
  deriving DecidableEq, Repr

def classifyGitStderr (stderrText : Bytes) (exitCode : Int32) : StderrError :=
  match kPatterns.find? fun pattern => containsInsensitive stderrText pattern.needle with
  | some pattern => { code := pattern.code, message := pattern.summary, detail := stderrText, exitCode }
  | none => { code := .processFailed, message := ascii "Git reported an error", detail := stderrText, exitCode }

/-! ## Texts that quote names -/

/-- A piece of git's message, or a place that quotes the name with this number. -/
inductive TextPart
  | fixed (text : Bytes)
  | name (slot : Nat)
  deriving DecidableEq, Repr

def TextPart.render (names : Nat → Bytes) : TextPart → Bytes
  | .fixed text => text
  | .name slot => names slot

def renderText (names : Nat → Bytes) (parts : List TextPart) : Bytes :=
  (parts.map (TextPart.render names)).flatten

inductive NameKind
  | branch
  | tag
  | remote
  | path
  | url
  deriving DecidableEq, Repr

def slashParts (name : Bytes) : List Bytes :=
  let (parts, rest) := Library.Lines.cut 47 name
  parts ++ [rest]

/-- The rules of `git check-ref-format` for what follows `refs/heads/` and the like. -/
def isRefName (name : Bytes) : Bool :=
  (slashParts name).all (fun part =>
      !part.isEmpty && !startsWith part (ascii ".") && !(ascii ".lock").isSuffixOf part) &&
    [ascii "..", ascii "@\x7b"].all (fun needle => (find needle name).isNone) &&
    !(ascii ".").isSuffixOf name && name != ascii "@" && !startsWith name (ascii "-") &&
    !name.any fun b => b < 0x20 || b == 0x7F || (ascii " ~^:?*[\\").contains b

/-- What git takes as a name of this kind. -/
def NameKind.allows : NameKind → Bytes → Bool
  | .branch, name => isRefName name && name != ascii "HEAD"
  | .tag, name => isRefName name && name != ascii "HEAD"
  | .remote, name => isRefName name
  | .path, name =>
    !name.contains 0 && (slashParts name).all fun part =>
      !part.isEmpty && part != ascii "." && part != ascii ".." && part.map tolower != ascii ".git"
  | .url, name => !name.isEmpty && !name.contains 0 && !name.contains LF

/-- What stands between the places that quote one name. -/
def pieces (names : Nat → Bytes) (slot : Nat) : List TextPart → List Bytes
  | [] => [[]]
  | part :: parts =>
    if part = .name slot then [] :: pieces names slot parts
    else (pieces names slot parts).modifyHead (part.render names ++ ·)

def lockNeedles : List Bytes := [ascii "unable to create", ascii "index.lock", ascii "cannot lock ref"]

theorem find_isSome_iff {needle view : Bytes} : (find needle view).isSome = true ↔ needle <:+: view := by
  induction view with
  | nil => cases needle <;> simp [find]
  | cons b view ih =>
    rw [find, List.infix_cons_iff, ← ih, ← startsWith_iff]
    split
    · simp [*]
    · simp [*]

theorem find_lt_length {needle view : Bytes} {at_ : Nat} (hNeedle : needle ≠ []) (h : find needle view = some at_) :
    at_ < view.length := by
  induction view generalizing at_ with
  | nil =>
    rw [find, if_neg (by simpa using hNeedle)] at h
    cases h
  | cons b view ih =>
    rw [find] at h
    split at h
    · cases h
      exact Nat.succ_pos _
    · obtain ⟨before, hBefore, rfl⟩ := Option.map_eq_some_iff.mp h
      exact Nat.succ_lt_succ (ih hBefore)

theorem containsInsensitive_iff {haystack needle : Bytes} (hNeedle : needle ≠ []) :
    containsInsensitive haystack needle = true ↔ needle.map tolower <:+: haystack.map tolower := by
  rw [containsInsensitive, ← find_isSome_iff]
  split
  · rename_i hLong
    have hNone : ¬ needle.map tolower <:+: haystack.map tolower := by
      intro hInfix
      have hLength := hInfix.length_le
      rw [List.length_map, List.length_map] at hLength
      omega
    rw [find_isSome_iff]
    simp [hNone]
  · cases hFind : find (needle.map tolower) (haystack.map tolower) with
    | none => simp
    | some at_ =>
      have hInside := find_lt_length (by simpa using hNeedle) hFind
      rw [List.length_map] at hInside
      simp [Nat.ne_of_lt hInside]

theorem pieces_ne_nil (names : Nat → Bytes) (slot : Nat) (parts : List TextPart) :
    pieces names slot parts ≠ [] := by
  induction parts with
  | nil => exact List.cons_ne_nil _ _
  | cons part parts ih =>
    rw [pieces]
    split
    · exact List.cons_ne_nil _ _
    · simpa using ih

theorem render_update {names : Nat → Bytes} {slot : Nat} {name : Bytes} {part : TextPart} (h : part ≠ .name slot) :
    part.render (Function.update names slot name) = part.render names := by
  cases part with
  | fixed text => rfl
  | name other =>
    have hOther : other ≠ slot := fun hSame => h (congrArg TextPart.name hSame)
    exact Function.update_of_ne hOther _ _

/-- The text with another name in one of its places. -/
theorem renderText_update (names : Nat → Bytes) (slot : Nat) (name : Bytes) (parts : List TextPart) :
    renderText (Function.update names slot name) parts = name.intercalate (pieces names slot parts) := by
  induction parts with
  | nil => rfl
  | cons part parts ih =>
    rw [renderText, List.map_cons, List.flatten_cons, ← renderText, ih, pieces]
    by_cases hPart : part = .name slot
    · rw [if_pos hPart, List.intercalate_cons_of_ne_nil (pieces_ne_nil _ _ _), hPart]
      simp [TextPart.render]
    · rw [if_neg hPart, render_update hPart]
      cases hPieces : pieces names slot parts with
      | nil => exact absurd hPieces (pieces_ne_nil _ _ _)
      | cons piece rest =>
        rw [List.modifyHead_cons]
        cases rest with
        | nil => rw [List.intercalate_singleton, List.intercalate_singleton]
        | cons next rest =>
          rw [List.intercalate_cons_cons, List.intercalate_cons_cons]
          simp

/-- The patterns of a held lock come first. -/
theorem code_eq_lockHeld_iff (stderrText : Bytes) (exitCode : Int32) :
    (classifyGitStderr stderrText exitCode).code = .lockHeld ↔
      ∃ needle ∈ lockNeedles, containsInsensitive stderrText needle = true := by
  constructor
  · intro hCode
    rw [classifyGitStderr] at hCode
    split at hCode
    · rename_i pattern hFound
      have hOnly : ∀ pattern ∈ kPatterns, pattern.code = .lockHeld → pattern.needle ∈ lockNeedles := by decide
      have hContains := List.find?_some hFound
      exact ⟨pattern.needle, hOnly pattern (List.mem_of_find?_eq_some hFound) hCode, hContains⟩
    · cases hCode
  · rintro ⟨needle, hNeedle, hContains⟩
    have hSplit : kPatterns = kPatterns.take 3 ++ kPatterns.drop 3 := (List.take_append_drop 3 _).symm
    have hFirst : ∀ needle ∈ lockNeedles, ∃ pattern ∈ kPatterns.take 3, pattern.needle = needle := by decide
    have hCodes : ∀ pattern ∈ kPatterns.take 3, pattern.code = .lockHeld := by decide
    obtain ⟨pattern, hMem, rfl⟩ := hFirst needle hNeedle
    cases hFound : (kPatterns.take 3).find? fun pattern => containsInsensitive stderrText pattern.needle with
    | none => exact absurd hContains (List.find?_eq_none.mp hFound pattern hMem)
    | some first =>
      have hCode := hCodes first (List.mem_of_find?_eq_some hFound)
      rw [classifyGitStderr, hSplit, List.find?_append, hFound, Option.some_or]
      exact hCode

theorem containsInsensitive_infix {haystack part needle : Bytes} (hNeedle : needle ≠ []) (hPart : part <:+: haystack)
    (h : containsInsensitive part needle = true) : containsInsensitive haystack needle = true := by
  rw [containsInsensitive_iff hNeedle] at h ⊢
  exact h.trans (hPart.map tolower)

/-- No pattern of a held lock has a zero in it, so that a zero keeps the pieces apart. -/
theorem contains_zero_join {needle : Bytes} (hNeedle : needle ∈ lockNeedles) {texts : List Bytes}
    (hSome : texts ≠ []) : containsInsensitive ((ascii "0").intercalate texts) needle = true ↔
      ∃ text ∈ texts, containsInsensitive text needle = true := by
  have hPlain : ∀ needle ∈ lockNeedles, needle ≠ [] ∧ tolower 48 ∉ needle.map tolower := by decide
  obtain ⟨hNonempty, hZero⟩ := hPlain needle hNeedle
  have hJoin : (ascii "0").map tolower = [tolower 48] := rfl
  rw [containsInsensitive_iff hNonempty, Library.Joined.map_join, hJoin,
    Library.Joined.infix_join hZero (by simpa using hSome)]
  simp only [List.mem_map, exists_exists_and_eq_and]
  refine exists_congr fun text => and_congr_right fun _ => ?_
  rw [containsInsensitive_iff hNonempty]

/-- A name leaves the code alone exactly when git's own text already tells of a held lock. -/
theorem name_keeps_code_iff (exitCode : Int32) (kind : NameKind) (names : Nat → Bytes) {slot : Nat}
    {parts : List TextPart} (hNamed : .name slot ∈ parts) :
    (∀ name, kind.allows name = true →
      (classifyGitStderr (renderText (Function.update names slot name) parts) exitCode).code =
        (classifyGitStderr (renderText names parts) exitCode).code) ↔
      ∃ piece ∈ pieces names slot parts, ∃ needle ∈ lockNeedles, containsInsensitive piece needle = true := by
  have hQuoted : ∀ name, name <:+: renderText (Function.update names slot name) parts := by
    intro name
    have hMem := List.mem_map_of_mem (f := TextPart.render (Function.update names slot name)) hNamed
    rw [TextPart.render, Function.update_self] at hMem
    exact List.infix_of_mem_flatten hMem
  constructor
  · intro hSame
    -- a name can look like a lock file, and a name can be free of every pattern
    have hLocked : kind.allows (ascii "index.locked") = true := by cases kind <;> decide
    have hFree : kind.allows (ascii "0") = true := by cases kind <;> decide
    have hNeedle : ascii "index.lock" ∈ lockNeedles := by decide
    have hHeld := (code_eq_lockHeld_iff _ exitCode).mpr ⟨_, hNeedle,
      containsInsensitive_infix (by decide) (hQuoted (ascii "index.locked")) (by decide)⟩
    have hStays := (hSame _ hFree).trans ((hSame _ hLocked).symm.trans hHeld)
    obtain ⟨needle, hIs, hContains⟩ := (code_eq_lockHeld_iff _ exitCode).mp hStays
    rw [renderText_update, contains_zero_join hIs (pieces_ne_nil _ _ _)] at hContains
    obtain ⟨piece, hMem, hPiece⟩ := hContains
    exact ⟨piece, hMem, needle, hIs, hPiece⟩
  · rintro ⟨piece, hMem, needle, hIs, hPiece⟩ name -
    have hNonempty : ∀ needle ∈ lockNeedles, needle ≠ [] := by decide
    have hHeld : ∀ other,
        (classifyGitStderr (renderText (Function.update names slot other) parts) exitCode).code = .lockHeld := by
      intro other
      apply (code_eq_lockHeld_iff _ exitCode).mpr
      refine ⟨needle, hIs, containsInsensitive_infix (hNonempty needle hIs) ?_ hPiece⟩
      rw [renderText_update]
      exact Library.Joined.infix_of_mem hMem
    have hOld := hHeld (names slot)
    rw [Function.update_eq_self] at hOld
    rw [hHeld name, hOld]

/-- What git says of a branch that is not there. -/
def unknownPathspec : List TextPart :=
  [.fixed (ascii "error: pathspec '"), .name 0, .fixed (ascii "' did not match any file(s) known to git\n")]

theorem conflict_fix_is_conflict :
    NameKind.branch.allows (ascii "main") = true ∧ NameKind.branch.allows (ascii "conflict-fix") = true ∧
    (classifyGitStderr (renderText (fun _ => ascii "main") unknownPathspec) 1).code = .notFound ∧
    ¬ ∀ name, NameKind.branch.allows name = true →
      (classifyGitStderr (renderText (Function.update (fun _ => ascii "main") 0 name) unknownPathspec) 1).code =
        (classifyGitStderr (renderText (fun _ => ascii "main") unknownPathspec) 1).code := by
  have hMissing : (classifyGitStderr (renderText (fun _ => ascii "main") unknownPathspec) 1).code = .notFound := by
    decide +kernel
  refine ⟨by decide, by decide, hMissing, ?_⟩
  intro hSame
  have hOther := hSame (ascii "conflict-fix") (by decide)
  rw [hMissing] at hOther
  revert hOther
  decide

theorem name_keeps_code_iff_pathspec :
    (∀ name, NameKind.branch.allows name = true →
      (classifyGitStderr (renderText (Function.update (fun _ => ascii "main") 0 name) unknownPathspec) 1).code =
        (classifyGitStderr (renderText (fun _ => ascii "main") unknownPathspec) 1).code) ↔
      ∃ piece ∈ pieces (fun _ => ascii "main") 0 unknownPathspec, ∃ needle ∈ lockNeedles,
        containsInsensitive piece needle = true :=
  name_keeps_code_iff 1 .branch (fun _ => ascii "main") (by decide)

end GitBranchManager
