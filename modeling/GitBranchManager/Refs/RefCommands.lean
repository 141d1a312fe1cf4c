import GitBranchManager.Base.GitError
import GitBranchManager.Library.Lines
import GitBranchManager.Library.Tracing

/-! # Git commands and the refs of a repository

Git answers a command and may change the repository; which commands fail is up to the
repository's state. What the operations rely on is `ReadsRefs`.
-/

namespace GitBranchManager

/-- The arguments of a command. -/
abbrev GitCommand := List Bytes

/-- `detail` is what git wrote to its error stream. -/
structure CommandError extends GitError where
  detail : Bytes := []
  deriving DecidableEq, Repr

abbrev ProcessRunner (ρ : Type) := Library.Runner ρ GitCommand CommandError Bytes

/-- The target of each full ref name. -/
abbrev Refs := Bytes → Option Bytes

def kHeads : Bytes := ascii "refs/heads/"

/-- The lines that `std::getline` reads. -/
def getlines (out : Bytes) : List Bytes :=
  let (lines, rest) := Library.Lines.cut LF out
  if rest.isEmpty then lines else lines ++ [rest]

def popCr (line : Bytes) : Bytes := if line.getLast? = some CR then line.dropLast else line

def isControl (b : UInt8) : Bool := b < 0x20 || b == 0x7F

namespace RefStore

def isValidBranchName (name : Bytes) : Bool :=
  if name.isEmpty || name == ascii "@" then false
  else if [ascii ".", ascii "/", ascii "-"].any (startsWith name) then false
  else if [ascii ".", ascii "/", ascii ".lock"].any (·.isSuffixOf name) then false
  else if [ascii "..", ascii "//", ascii "@\x7b"].any fun needle => (find needle name).isSome then false
  else !name.any fun b => isControl b || (ascii " ~^:?*[\\").contains b

end RefStore

def listCommand : GitCommand := [ascii "for-each-ref", ascii "--format=%(refname:short)", kHeads]

def branchNames (out : Bytes) : List Bytes := ((getlines out).map popCr).filter fun name => !name.isEmpty

def readsOnly (command : GitCommand) : Bool :=
  command.head? == some (ascii "for-each-ref") || command.head? == some (ascii "rev-parse") ||
    command == [ascii "symbolic-ref", ascii "--quiet", ascii "HEAD"]

theorem ne_branch_of_readsOnly {command : GitCommand} (h : readsOnly command = true) :
    command.head? ≠ some (ascii "branch") := by
  intro hBranch
  simp only [readsOnly, Bool.or_eq_true, beq_iff_eq] at h
  rcases h with (hEach | hParse) | rfl
  · exact absurd (hBranch.symm.trans hEach) (by decide)
  · exact absurd (hBranch.symm.trans hParse) (by decide)
  · exact absurd hBranch (by decide)

namespace Refs

def hasBranch (refs : Refs) (name : Bytes) : Prop := (refs (kHeads ++ name)).isSome = true

/-- The other refs that a branch's name could mean. -/
def otherReadings (name : Bytes) : List Bytes :=
  [name, ascii "refs/" ++ name, ascii "refs/tags/" ++ name, ascii "refs/remotes/" ++ name,
    ascii "refs/remotes/" ++ name ++ ascii "/HEAD"]

/-- Each local branch has a name that git takes for a branch's and for nothing else. -/
structure Ordinary (refs : Refs) : Prop where
  valid : ∀ name, refs.hasBranch name → RefStore.isValidBranchName name = true
  unambiguous : ∀ name, refs.hasBranch name → ∀ other ∈ otherReadings name, refs other = none

/-- Only branches of `names` are gone. -/
def Loses (refs : Refs) (names : List Bytes) (refs' : Refs) : Prop :=
  ∀ ref, refs' ref = refs ref ∨ (∃ name ∈ names, ref = kHeads ++ name) ∧ refs' ref = none

end Refs

/-- The documented behaviour of git. `branch -d` and `branch -D` delete the branches that they can,
whatever their exit code; a listing shows each branch whose name is not ambiguous by its name. -/
structure ReadsRefs {ρ : Type} (git : ProcessRunner ρ) (refs : ρ → Refs) : Prop where
  reads : ∀ s command, readsOnly command = true → refs (git s command).2 = refs s
  lists : ∀ s out s', git s listCommand = (.ok out, s') → (refs s).Ordinary →
    ∀ name, name ∈ branchNames out ↔ (refs s).hasBranch name
  deletes : ∀ s flag names, flag = ascii "-d" ∨ flag = ascii "-D" →
    (∀ name ∈ names, RefStore.isValidBranchName name = true) →
    (refs s).Loses names (refs (git s (ascii "branch" :: flag :: names)).2)

namespace Refs

variable {refs refs' refs'' : Refs} {names : List Bytes}

theorem Loses.refl (refs : Refs) (names : List Bytes) : refs.Loses names refs := fun _ => .inl rfl

theorem Loses.trans (h : refs.Loses names refs') (h' : refs'.Loses names refs'') : refs.Loses names refs'' := by
  intro ref
  rcases h' ref with hSame | hGone
  · rw [hSame]
    exact h ref
  · exact .inr hGone

theorem Loses.mono {more : List Bytes} (h : refs.Loses names refs') (hSubset : names ⊆ more) :
    refs.Loses more refs' := by
  intro ref
  refine (h ref).imp_right fun hGone => ⟨?_, hGone.2⟩
  obtain ⟨name, hName, hRef⟩ := hGone.1
  exact ⟨name, hSubset hName, hRef⟩

theorem Loses.ordinary (h : refs.Loses names refs') (hOrdinary : refs.Ordinary) : refs'.Ordinary := by
  have hBefore : ∀ name, refs'.hasBranch name → refs.hasBranch name := by
    intro name hBranch
    rcases h (kHeads ++ name) with hSame | ⟨-, hNone⟩
    · rwa [hasBranch, hSame] at hBranch
    · rw [hasBranch, hNone] at hBranch
      cases hBranch
  refine ⟨fun name hBranch => hOrdinary.valid name (hBefore name hBranch), fun name hBranch other hOther => ?_⟩
  rcases h other with hSame | ⟨-, hNone⟩
  · exact hSame.trans (hOrdinary.unambiguous name (hBefore name hBranch) other hOther)
  · exact hNone

/-- What changed is a branch that is gone. -/
theorem Loses.exists_gone (h : refs.Loses names refs') (hChanged : refs' ≠ refs) :
    ∃ name ∈ names, ¬ refs'.hasBranch name := by
  obtain ⟨ref, hRef⟩ := Function.ne_iff.mp hChanged
  rcases h ref with hSame | ⟨⟨name, hName, rfl⟩, hNone⟩
  · exact absurd hSame hRef
  · refine ⟨name, hName, ?_⟩
    rw [hasBranch, hNone]
    exact Bool.false_ne_true

end Refs

end GitBranchManager
