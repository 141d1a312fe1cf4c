import GitBranchManager.Base.Bytes
import GitBranchManager.Library.CommandLine
import Mathlib.Data.List.TakeDrop

/-! # The process of a git command

A command becomes an argument vector, and on Windows one line that git splits again.
-/

namespace GitBranchManager

open Library

namespace ProcessRunner

/-- The fields that the vector, the environment and the deadlines are made of; times are in milliseconds. -/
structure GitCommand where
  repoDir : Bytes := []
  args : List Bytes := []
  envOverrides : List (Bytes × Bytes) := []
  timeout : Nat := 0
  idleTimeout : Nat := 0
  deriving DecidableEq, Repr

def globalFlags : List Bytes :=
  [ascii "-c", ascii "core.quotepath=false", ascii "-c", ascii "color.ui=false", ascii "-c",
    ascii "advice.detachedHead=false", ascii "-c", ascii "diff.autoRefreshIndex=false", ascii "--no-pager",
    ascii "--no-optional-locks"]

def isNetworkCommand (command : GitCommand) : Bool :=
  match command.args with
  | [] => false
  | sub :: rest =>
    if sub = ascii "fetch" ∨ sub = ascii "pull" ∨ sub = ascii "push" ∨ sub = ascii "clone" then true
    else
      match rest with
      | [] => false
      | second :: _ =>
        if sub = ascii "submodule" then second = ascii "update" ∨ second = ascii "add"
        else if sub = ascii "lfs" then second = ascii "fetch" ∨ second = ascii "pull" ∨ second = ascii "push"
        else false

def withTransferProgress (command : GitCommand) : GitCommand :=
  if isNetworkCommand command = false then command
  else if command.args.head? = some (ascii "lfs") then
    { command with envOverrides := command.envOverrides ++ [(ascii "GIT_LFS_FORCE_PROGRESS", ascii "1")] }
  else
    let at_ := if command.args.head? = some (ascii "submodule") then 2 else 1
    { command with args := command.args.insertIdx at_ (ascii "--progress") }

def buildArgv (exe : Bytes) (command : GitCommand) : List Bytes :=
  exe :: (globalFlags ++ (if command.repoDir.isEmpty then [] else [ascii "-C", command.repoDir]) ++ command.args)

/-! ## Deadlines -/

def kNetworkIdle : Nat := 60000

def kLocalCeiling : Nat := 300000

structure EffectiveDeadlines where
  total : Nat
  idle : Nat
  deriving DecidableEq, Repr

def effectiveDeadlines (timeoutMultiplier : Nat) (command : GitCommand) : EffectiveDeadlines :=
  if isNetworkCommand command then { total := 0, idle := kNetworkIdle * timeoutMultiplier }
  else
    let declared := if command.timeout = 0 then kLocalCeiling else min command.timeout kLocalCeiling
    { total := declared * timeoutMultiplier, idle := command.idleTimeout }

/-- The option that makes a transfer report its progress leaves it a transfer. -/
theorem isNetworkCommand_withTransferProgress (command : GitCommand) :
    isNetworkCommand (withTransferProgress command) = isNetworkCommand command := by
  rw [withTransferProgress]
  split
  · rfl
  · next hNetwork =>
    split
    · rfl
    · next hLfs =>
      rw [Bool.not_eq_false] at hNetwork
      rw [hNetwork]
      unfold isNetworkCommand at hNetwork ⊢
      cases hArgs : command.args with
      | nil => simp [hArgs] at hNetwork
      | cons sub rest =>
        simp only [hArgs, List.head?_cons, Option.some_inj] at hNetwork hLfs ⊢
        by_cases hTransfer : sub = ascii "fetch" ∨ sub = ascii "pull" ∨ sub = ascii "push" ∨ sub = ascii "clone"
        · have hSubmodule : sub ≠ ascii "submodule" := by
            rintro rfl
            revert hTransfer
            decide
          simp [hSubmodule, List.insertIdx_succ_cons, hTransfer]
        · rw [if_neg hTransfer] at hNetwork
          cases rest with
          | nil => cases hNetwork
          | cons second rest =>
            dsimp only at hNetwork
            by_cases hSubmodule : sub = ascii "submodule"
            · rw [if_pos hSubmodule] at hNetwork
              have hSecond : second = ascii "update" ∨ second = ascii "add" := by simpa using hNetwork
              simp [hSubmodule, List.insertIdx_succ_cons, hSecond]
            · rw [if_neg hSubmodule, if_neg hLfs] at hNetwork
              cases hNetwork

/-- Every command has a limit: a transfer on the silence of its pipes, any other on its whole time. -/
theorem effectiveDeadlines_cases {timeoutMultiplier : Nat} (hScale : 1 ≤ timeoutMultiplier) (command : GitCommand) :
    effectiveDeadlines timeoutMultiplier (withTransferProgress command) = effectiveDeadlines timeoutMultiplier command ∧
      (isNetworkCommand command = true ∧ (effectiveDeadlines timeoutMultiplier command).total = 0 ∧
          0 < (effectiveDeadlines timeoutMultiplier command).idle ∨
        isNetworkCommand command = false ∧ 0 < (effectiveDeadlines timeoutMultiplier command).total ∧
          (effectiveDeadlines timeoutMultiplier command).total ≤ kLocalCeiling * timeoutMultiplier) := by
  constructor
  · cases hNetwork : isNetworkCommand command with
    | false => rw [withTransferProgress, if_pos hNetwork]
    | true =>
      rw [effectiveDeadlines, isNetworkCommand_withTransferProgress, effectiveDeadlines, hNetwork]
      rfl
  · rw [effectiveDeadlines]
    cases isNetworkCommand command with
    | true =>
      refine Or.inl ⟨rfl, rfl, ?_⟩
      exact Nat.mul_pos (by decide) hScale
    | false =>
      refine Or.inr ⟨rfl, ?_, ?_⟩
      · apply Nat.mul_pos _ hScale
        split
        · decide
        · next hSet => exact lt_min (Nat.pos_of_ne_zero hSet) (by decide)
      · apply Nat.mul_le_mul_right
        split
        · exact Nat.le_refl _
        · exact min_le_right _ _

/-! ## The line that git is given on Windows -/

def doubleQuote : UInt16 := 34
def backslash : UInt16 := 92
def blank : UInt16 := 32

/-- How git reads its line: white space is a blank or a tab. -/
def windowsSigns : CommandLine.Signs UInt16 where
  quote := doubleQuote
  backslash := backslash
  blank c := c == blank || c == 9
  quote_ne_backslash := by decide
  quote_not_blank := by decide
  backslash_not_blank := by decide

/-- `L" \t\n\v\""` -/
def needsQuotes (c : UInt16) : Bool := c == blank || c == 9 || c == 10 || c == 11 || c == doubleQuote

/-- The loop of `quoteArgument`; `backslashes` of them are counted and not yet written. -/
def quoteLoop (backslashes : Nat) : Utf16 → Utf16
  | [] => List.replicate (backslashes * 2) backslash
  | c :: rest =>
    if c = backslash then quoteLoop (backslashes + 1) rest
    else if c = doubleQuote then List.replicate (backslashes * 2 + 1) backslash ++ c :: quoteLoop 0 rest
    else List.replicate backslashes backslash ++ c :: quoteLoop 0 rest

def quoteArgument (arg : Utf16) : Utf16 :=
  if arg.isEmpty = false ∧ arg.any needsQuotes = false then arg
  else doubleQuote :: (quoteLoop 0 arg ++ [doubleQuote])

/-- `widen` is what the system makes of UTF-8. -/
def commandLine (widen : Bytes → Utf16) (argv : List Bytes) : Utf16 :=
  [blank].intercalate (argv.map fun arg => quoteArgument (widen arg))

/-- The line ends at its first NUL. -/
def childArguments (after : CommandLine.Mode) (line : Utf16) : List Utf16 :=
  CommandLine.arguments windowsSigns after (line.takeWhile (· != 0))

@[simp] theorem windowsSigns_quote : windowsSigns.quote = doubleQuote := rfl

@[simp] theorem windowsSigns_backslash : windowsSigns.backslash = backslash := rfl

theorem quoteLoop_eq (arg : Utf16) (k : Nat) :
    quoteLoop k arg = List.replicate k backslash ++ CommandLine.escaped windowsSigns k arg := by
  induction arg generalizing k with
  | nil =>
    have hTwice : k * 2 = k + k := by omega
    rw [quoteLoop, hTwice, List.replicate_add]
    rfl
  | cons c arg ih =>
    rw [quoteLoop, CommandLine.escaped, windowsSigns_backslash, windowsSigns_quote]
    split
    · next hBackslash =>
      rw [ih, List.replicate_succ', List.append_assoc, hBackslash]
      rfl
    · split
      · have hTwice : k * 2 + 1 = k + (k + 1) := by omega
        rw [ih, hTwice, List.replicate_add, List.append_assoc]
        rfl
      · rw [ih]
        rfl

theorem quoteArgument_cases (arg : Utf16) :
    (quoteArgument arg = arg ∧ arg ≠ [] ∧ ∀ c ∈ arg, c ≠ doubleQuote ∧ windowsSigns.blank c = false) ∨
      quoteArgument arg = CommandLine.quotedArgument windowsSigns arg := by
  rw [quoteArgument]
  split
  · next hPlain =>
    obtain ⟨hNonempty, hNone⟩ := hPlain
    refine Or.inl ⟨rfl, List.isEmpty_eq_false_iff.mp hNonempty, ?_⟩
    intro c hMem
    have hSpecial := List.any_eq_false.mp hNone c hMem
    simp only [needsQuotes, Bool.or_eq_true, beq_iff_eq, not_or] at hSpecial
    obtain ⟨⟨⟨⟨hBlank, hTab⟩, -⟩, -⟩, hQuote⟩ := hSpecial
    refine ⟨hQuote, ?_⟩
    simp [windowsSigns, hBlank, hTab]
  · refine Or.inr ?_
    rw [quoteLoop_eq]
    rfl

theorem written_quoteArgument (after : CommandLine.Mode) (arg : Utf16) :
    CommandLine.Written windowsSigns after (quoteArgument arg) arg := by
  obtain ⟨hSame, hNonempty, hPlain⟩ | hQuoted := quoteArgument_cases arg
  · rw [hSame]
    exact CommandLine.Written.plain hNonempty hPlain
  · rw [hQuoted]
    exact CommandLine.Written.quoted arg

theorem programName_quoteArgument {name : Utf16} (hQuote : doubleQuote ∉ name)
    (hEnd : name.getLast? ≠ some backslash) (rest : Utf16) :
    CommandLine.programName windowsSigns false (quoteArgument name ++ rest) =
      (name ++ (CommandLine.programName windowsSigns false rest).1,
        (CommandLine.programName windowsSigns false rest).2) := by
  obtain ⟨hSame, -, hPlain⟩ | hQuoted := quoteArgument_cases name
  · rw [hSame]
    exact CommandLine.programName_plain hPlain rest
  · rw [hQuoted]
    exact CommandLine.programName_quotedArgument hQuote (CommandLine.trailing_eq_nil hEnd) rest

theorem mem_quoteArgument {c : UInt16} (hQuote : c ≠ doubleQuote) (hBackslash : c ≠ backslash) (arg : Utf16) :
    c ∈ quoteArgument arg → c ∈ arg := by
  have hLoop (k : Nat) : c ∈ quoteLoop k arg → c ∈ arg := by
    induction arg generalizing k with
    | nil => exact fun hMem => absurd (List.eq_of_mem_replicate hMem) hBackslash
    | cons d arg ih =>
      intro hMem
      rw [quoteLoop] at hMem
      split at hMem
      · exact List.mem_cons_of_mem d (ih _ hMem)
      · split at hMem
        all_goals
          obtain hRun | hTail := List.mem_append.mp hMem
          · exact absurd (List.eq_of_mem_replicate hRun) hBackslash
          · obtain rfl | hLater := List.mem_cons.mp hTail
            · exact List.mem_cons_self
            · exact List.mem_cons_of_mem d (ih _ hLater)
  intro hMem
  rw [quoteArgument] at hMem
  split at hMem
  · exact hMem
  · obtain rfl | hRest := List.mem_cons.mp hMem
    · exact absurd rfl hQuote
    · obtain hBody | hLast := List.mem_append.mp hRest
      · exact hLoop 0 hBody
      · exact absurd (List.mem_singleton.mp hLast) hQuote

theorem not_mem_commandLine {widen : Bytes → Utf16} {argv : List Bytes} (h : ∀ arg ∈ argv, 0 ∉ widen arg) :
    0 ∉ commandLine widen argv := by
  intro hMem
  obtain hSeparator | ⟨written, hWritten, hIn⟩ := Joined.mem_join hMem
  · exact absurd hSeparator (by decide)
  · obtain ⟨arg, hArg, rfl⟩ := List.mem_map.mp hWritten
    exact h arg hArg (mem_quoteArgument (by decide) (by decide) _ hIn)

/-- Git is given the vector of its command, unless an argument holds a NUL. -/
theorem childArguments_commandLine (widen : Bytes → Utf16) (after : CommandLine.Mode) (exe : Bytes)
    (command : GitCommand) (hQuote : doubleQuote ∉ widen exe) (hEnd : (widen exe).getLast? ≠ some backslash) :
    childArguments after (commandLine widen (buildArgv exe command)) = (buildArgv exe command).map widen ↔
      ∀ arg ∈ buildArgv exe command, 0 ∉ widen arg := by
  have hWhole : CommandLine.arguments windowsSigns after (commandLine widen (buildArgv exe command)) =
      (buildArgv exe command).map widen := by
    have hBlank : windowsSigns.blank blank = true := by decide
    have hWritten : ∀ arg ∈ (buildArgv exe command).tail.map widen,
        CommandLine.Written windowsSigns after (quoteArgument arg) arg :=
      fun arg _ => written_quoteArgument after arg
    have hJoin := CommandLine.arguments_join hBlank quoteArgument (programName_quoteArgument hQuote hEnd) hWritten
    rw [← List.map_cons, List.map_map] at hJoin
    exact hJoin
  constructor
  · intro hSame arg hArg hNul
    have hRead : ∀ wide ∈ (buildArgv exe command).map widen, ∀ c ∈ wide, c ≠ 0 := by
      rw [← hSame, childArguments]
      apply CommandLine.arguments_forall (p := fun c => c ≠ 0) (by decide) (by decide)
      intro c hMem hZero
      have hKept := List.mem_takeWhile_imp hMem
      rw [hZero] at hKept
      exact Bool.false_ne_true hKept
    exact hRead (widen arg) (List.mem_map_of_mem hArg) 0 hNul rfl
  · intro hNone
    have hLine : (commandLine widen (buildArgv exe command)).takeWhile (· != 0) =
        commandLine widen (buildArgv exe command) := by
      rw [List.takeWhile_eq_self_iff]
      intro c hMem
      rw [bne_iff_ne]
      rintro rfl
      exact not_mem_commandLine hNone hMem
    rw [childArguments, hLine, hWhole]

theorem childArguments_commandLine_commit :
    let command : GitCommand := { repoDir := ascii "D:\\a b\\", args := [ascii "commit", ascii "-m", ascii "say \"x\" \\"] }
    let wide (text : Bytes) : Utf16 := text.map UInt8.toUInt16
    childArguments .plain (commandLine wide (buildArgv (ascii "C:\\Git\\git.exe") command)) =
        (buildArgv (ascii "C:\\Git\\git.exe") command).map wide ↔
      ∀ arg ∈ buildArgv (ascii "C:\\Git\\git.exe") command, 0 ∉ wide arg :=
  childArguments_commandLine _ .plain _ _ (by decide) (by decide)

/-! ## The environment -/

def equalsSign : UInt8 := 61

def NUL : UInt8 := 0

def upperCase (foldCase : Bool) (a : Nat) : Nat := if foldCase = true ∧ 97 ≤ a ∧ a ≤ 122 then a - 32 else a

/-- `GIT_TRACE*` and `GIT_CURL_VERBOSE`, over the codes of the characters of a name. -/
def isGitTraceEnvName (foldCase : Bool) (name : List Nat) : Bool :=
  let starts (text : Bytes) := (text.map UInt8.toNat).isPrefixOf (name.map (upperCase foldCase))
  starts (ascii "GIT_TRACE") || (name.length == (ascii "GIT_CURL_VERBOSE").length && starts (ascii "GIT_CURL_VERBOSE"))

def isTraceName (name : Bytes) : Bool := isGitTraceEnvName false (name.map UInt8.toNat)

/-- What the child is told in any case, and what the command adds. -/
def settings (command : GitCommand) : List (Bytes × Bytes) :=
  [(ascii "GIT_TERMINAL_PROMPT", ascii "0"), (ascii "GIT_PAGER", ascii "cat"), (ascii "LC_ALL", ascii "C")] ++
    command.envOverrides

def envName (entry : Bytes) : Bytes := entry.takeWhile (· != equalsSign)

def assignment (key value : Bytes) : Bytes := key ++ equalsSign :: value

def setVar (key value : Bytes) : List Bytes → List Bytes
  | [] => [assignment key value]
  | entry :: rest =>
    if startsWith entry (key ++ [equalsSign]) then assignment key value :: rest
    else entry :: setVar key value rest

def buildEnvironment (environ : List Bytes) (command : GitCommand) : List Bytes :=
  (settings command).foldl (fun entries setting => setVar setting.1 setting.2 entries)
    (environ.filter fun entry => !isTraceName (envName entry))

/-- The first entry for a name has its value. -/
def getenv (name : Bytes) : List Bytes → Option Bytes
  | [] => none
  | entry :: rest =>
    if startsWith entry (name ++ [equalsSign]) then some (entry.drop (name.length + 1)) else getenv name rest

/-- The last setting of a name. -/
def setting? (command : GitCommand) (name : Bytes) : Option Bytes :=
  ((settings command).reverse.find? fun setting => setting.1 == name).map Prod.snd

theorem startsWith_equals_iff {name : Bytes} (hName : equalsSign ∉ name) (entry : Bytes) :
    startsWith entry (name ++ [equalsSign]) = true ↔ envName entry = name ∧ equalsSign ∈ entry := by
  have hStop : ∀ b ∈ name, (b != equalsSign) = true := fun b hMem => bne_iff_ne.mpr fun hEq => hName (hEq ▸ hMem)
  constructor
  · intro hStarts
    obtain ⟨back, rfl⟩ := startsWith_iff.mp hStarts
    refine ⟨?_, by simp⟩
    rw [envName, List.append_assoc, List.takeWhile_append_of_pos hStop]
    simp
  · rintro ⟨rfl, hMem⟩
    have hDrop : entry.dropWhile (· != equalsSign) ≠ [] := by
      intro hNone
      have hAll := List.dropWhile_eq_nil_iff.mp hNone equalsSign hMem
      exact absurd hAll (by decide)
    obtain ⟨c, back, hBack⟩ := List.exists_cons_of_ne_nil hDrop
    have hHead := List.head?_dropWhile_not (· != equalsSign) entry
    rw [hBack] at hHead
    have hEquals : c = equalsSign := by simpa using hHead
    rw [startsWith_iff]
    refine ⟨back, ?_⟩
    rw [List.append_assoc, List.singleton_append, ← hEquals, ← hBack]
    exact List.takeWhile_append_dropWhile

theorem getenv_setVar {key name : Bytes} (hKey : equalsSign ∉ key) (hName : equalsSign ∉ name) (value : Bytes)
    (entries : List Bytes) :
    getenv name (setVar key value entries) = if key = name then some value else getenv name entries := by
  have hAssigned : getenv name [assignment key value] = if key = name then some value else none := by
    have hSelf : envName (assignment key value) = key :=
      ((startsWith_equals_iff hKey _).mp (startsWith_iff.mpr ⟨value, by simp [assignment]⟩)).1
    rw [getenv]
    split
    · next hStarts =>
      obtain ⟨hEq, -⟩ := (startsWith_equals_iff hName _).mp hStarts
      rw [hSelf] at hEq
      subst hEq
      rw [if_pos rfl, assignment, ← List.singleton_append, ← List.append_assoc]
      congr 1
      exact List.drop_left' (by simp)
    · next hStarts =>
      rw [if_neg, getenv]
      rintro rfl
      apply hStarts
      exact (startsWith_equals_iff hKey _).mpr ⟨hSelf, by simp [assignment]⟩
  have hHead (rest : List Bytes) : getenv name (assignment key value :: rest) =
      if key = name then some value else getenv name rest := by
    rw [getenv] at hAssigned ⊢
    split at hAssigned
    · next hStarts =>
      rw [if_pos hStarts, hAssigned]
      split at hAssigned
      · next hSame => rw [if_pos hSame, if_pos hSame]
      · cases hAssigned
    · next hStarts =>
      rw [if_neg hStarts]
      split at hAssigned
      · cases hAssigned
      · next hOther => rw [if_neg hOther]
  induction entries with
  | nil => rw [setVar, hAssigned, getenv]
  | cons entry rest ih =>
    rw [setVar]
    split
    · next hStarts =>
      rw [hHead, getenv]
      split
      · rfl
      · next hOther =>
        rw [if_neg]
        intro hAlso
        apply hOther
        exact ((startsWith_equals_iff hKey _).mp hStarts).1.symm.trans ((startsWith_equals_iff hName _).mp hAlso).1
    · next hStarts =>
      rw [getenv, ih, getenv]
      split
      · next hAlso =>
        rw [if_neg]
        rintro rfl
        exact hStarts hAlso
      · rfl

theorem getenv_filter {name : Bytes} (hName : equalsSign ∉ name) (entries : List Bytes) :
    getenv name (entries.filter fun entry => !isTraceName (envName entry)) =
      if isTraceName name then none else getenv name entries := by
  induction entries with
  | nil => exact (ite_self none).symm
  | cons entry rest ih =>
    have hWhich : startsWith entry (name ++ [equalsSign]) = true → envName entry = name :=
      fun hStarts => ((startsWith_equals_iff hName entry).mp hStarts).1
    rw [List.filter_cons, getenv]
    cases hTrace : isTraceName (envName entry) with
    | true =>
      rw [if_neg (by simp), ih]
      split
      · rfl
      · next hKept =>
        rw [if_neg]
        intro hStarts
        rw [hWhich hStarts] at hTrace
        exact hKept hTrace
    | false =>
      rw [if_pos (by simp), getenv, ih]
      split
      · next hStarts =>
        rw [hWhich hStarts] at hTrace
        rw [hTrace, if_neg Bool.false_ne_true]
      · rfl

/-- The child sees what it was told last, then what was inherited, and no tracing switch but one it was told. -/
theorem getenv_buildEnvironment (environ : List Bytes) {command : GitCommand}
    (hKeys : ∀ setting ∈ command.envOverrides, equalsSign ∉ setting.1) {name : Bytes} (hName : equalsSign ∉ name) :
    getenv name (buildEnvironment environ command) =
      (setting? command name).or (if isTraceName name then none else getenv name environ) := by
  have hAll : ∀ setting ∈ settings command, equalsSign ∉ setting.1 := by
    rw [settings]
    exact List.forall_mem_append.mpr ⟨by decide, hKeys⟩
  have hFold : ∀ (told : List (Bytes × Bytes)) (entries : List Bytes), (∀ setting ∈ told, equalsSign ∉ setting.1) →
      getenv name (told.foldl (fun entries setting => setVar setting.1 setting.2 entries) entries) =
        ((told.reverse.find? fun setting => setting.1 == name).map Prod.snd).or (getenv name entries) := by
    intro told
    induction told with
    | nil => exact fun _ _ => rfl
    | cons setting told ih =>
      intro entries hTold
      obtain ⟨hFirst, hRest⟩ := List.forall_mem_cons.mp hTold
      rw [List.foldl_cons, ih _ hRest, getenv_setVar hFirst hName, List.reverse_cons, List.find?_append, Option.map_or]
      rw [Option.or_assoc]
      congr 1
      by_cases hSame : setting.1 = name
      · simp [hSame]
      · simp [hSame]
  rw [buildEnvironment, hFold _ _ hAll, getenv_filter hName]
  rfl

theorem getenv_buildEnvironment_editor :
    let command : GitCommand := { envOverrides := [(ascii "GIT_EDITOR", ascii "true")] }
    let environ := [ascii "GIT_TRACE=1", ascii "GIT_EDITOR=vi"]
    getenv (ascii "GIT_EDITOR") (buildEnvironment environ command) =
      (setting? command (ascii "GIT_EDITOR")).or
        (if isTraceName (ascii "GIT_EDITOR") then none else getenv (ascii "GIT_EDITOR") environ) :=
  getenv_buildEnvironment _ (by decide) (by decide)

/-! ## The environment on Windows

There it is one text: entries that each end in a NUL, and another NUL. Names are the same in any case.
-/

def wideEquals : UInt16 := 61

/-- The entries of a block; `entry` is read so far. -/
def blockEntries (entry : Utf16) : Utf16 → List Utf16
  | [] => []
  | c :: rest =>
    if c = 0 then if entry.isEmpty then [] else entry :: blockEntries [] rest
    else blockEntries (entry ++ [c]) rest

def block (entries : List Utf16) : Utf16 := (entries.flatMap fun entry => entry ++ [0]) ++ [0]

def lowerCase (c : UInt16) : UInt16 := if 65 ≤ c ∧ c ≤ 90 then c + 32 else c

/-- `_wcsicmp(a, b) == 0` -/
def wcsicmp (a b : Utf16) : Bool := a.map lowerCase == b.map lowerCase

def wideName (entry : Utf16) : Utf16 := entry.takeWhile (· != wideEquals)

def isWideTraceName (name : Utf16) : Bool := isGitTraceEnvName true (name.map UInt16.toNat)

def wideSettings (widen : Bytes → Utf16) (command : GitCommand) : List (Utf16 × Utf16) :=
  [(utf16 "GIT_TERMINAL_PROMPT", utf16 "0"), (utf16 "GIT_PAGER", utf16 "cat"), (utf16 "LC_ALL", utf16 "C")] ++
    command.envOverrides.map fun setting => (widen setting.1, widen setting.2)

def isKept (overrides : List (Utf16 × Utf16)) (entry : Utf16) : Bool :=
  !entry.contains wideEquals ||
    (!isWideTraceName (wideName entry) && !overrides.any fun setting => wcsicmp setting.1 (wideName entry))

def wideAssignment (setting : Utf16 × Utf16) : Utf16 := setting.1 ++ wideEquals :: setting.2

def buildEnvironmentBlock (widen : Bytes → Utf16) (existing : Utf16) (command : GitCommand) : Utf16 :=
  let overrides := wideSettings widen command
  block ((blockEntries [] existing).filter (isKept overrides) ++ overrides.map wideAssignment)

/-- The first entry for a name, in any case, has its value. -/
def getEnvironmentVariable (name : Utf16) : List Utf16 → Option Utf16
  | [] => none
  | entry :: rest =>
    if entry.contains wideEquals = true ∧ wcsicmp (wideName entry) name = true then
      some (entry.drop ((wideName entry).length + 1))
    else getEnvironmentVariable name rest

theorem blockEntries_spec {text entry : Utf16} (hEntry : 0 ∉ entry) :
    ∀ read ∈ blockEntries entry text, read ≠ [] ∧ 0 ∉ read := by
  induction text generalizing entry with
  | nil => exact fun _ hMem => absurd hMem List.not_mem_nil
  | cons c text ih =>
    rw [blockEntries]
    split
    · split
      · exact fun _ hMem => absurd hMem List.not_mem_nil
      · next hSome =>
        refine List.forall_mem_cons.mpr ⟨⟨?_, hEntry⟩, ih List.not_mem_nil⟩
        rintro rfl
        exact hSome rfl
    · next hZero =>
      apply ih
      intro hMem
      obtain hOld | hNew := List.mem_append.mp hMem
      · exact hEntry hOld
      · exact hZero (List.mem_singleton.mp hNew).symm

theorem blockEntries_append {text : Utf16} (hText : 0 ∉ text) (entry rest : Utf16) :
    blockEntries entry (text ++ rest) = blockEntries (entry ++ text) rest := by
  induction text generalizing entry with
  | nil => rw [List.nil_append, List.append_nil]
  | cons c text ih =>
    have hFirst := List.ne_of_not_mem_cons hText
    rw [List.cons_append, blockEntries, if_neg (Ne.symm hFirst), ih (List.not_mem_of_not_mem_cons hText)]
    rw [List.append_assoc, List.singleton_append]

/-- A block has the entries that it was made of. -/
theorem blockEntries_block {entries : List Utf16} (h : ∀ entry ∈ entries, entry ≠ [] ∧ 0 ∉ entry) :
    blockEntries [] (block entries) = entries := by
  induction entries with
  | nil => rfl
  | cons entry entries ih =>
    obtain ⟨⟨hNonempty, hZero⟩, hRest⟩ := List.forall_mem_cons.mp h
    have hBlock : block (entry :: entries) = entry ++ 0 :: block entries := by simp [block]
    rw [hBlock, blockEntries_append hZero, blockEntries, if_pos rfl, List.nil_append]
    rw [if_neg (by rw [List.isEmpty_iff]; exact hNonempty), ih hRest]

theorem wcsicmp_iff {a b : Utf16} : wcsicmp a b = true ↔ a.map lowerCase = b.map lowerCase := by
  rw [wcsicmp, beq_iff_eq]

theorem upperCase_lowerCase (c : UInt16) : upperCase true (lowerCase c).toNat = upperCase true c.toNat := by
  rw [lowerCase]
  split
  · next hCapital =>
    have hLow : 65 ≤ c.toNat := UInt16.le_iff_toNat_le.mp hCapital.1
    have hHigh : c.toNat ≤ 90 := UInt16.le_iff_toNat_le.mp hCapital.2
    have hAdd : (c + 32).toNat = c.toNat + 32 := by
      have h32 : (32 : UInt16).toNat = 32 := rfl
      rw [UInt16.toNat_add, h32]
      apply Nat.mod_eq_of_lt
      omega
    rw [upperCase, upperCase, hAdd, if_pos ⟨rfl, by omega, by omega⟩, if_neg (by omega)]
    omega
  · rfl

theorem isWideTraceName_congr {a b : Utf16} (h : wcsicmp a b = true) : isWideTraceName a = isWideTraceName b := by
  have hMap (name : Utf16) : (name.map UInt16.toNat).map (upperCase true) =
      (name.map lowerCase).map fun c => upperCase true c.toNat := by
    rw [List.map_map, List.map_map]
    exact List.map_congr_left fun c _ => (upperCase_lowerCase c).symm
  have hLength : a.length = b.length := by
    have hSame := congrArg List.length (wcsicmp_iff.mp h)
    rwa [List.length_map, List.length_map] at hSame
  rw [isWideTraceName, isWideTraceName, isGitTraceEnvName, isGitTraceEnvName]
  simp only [hMap, wcsicmp_iff.mp h, List.length_map, hLength]

theorem wideName_assignment {key : Utf16} (hKey : wideEquals ∉ key) (value : Utf16) :
    wideName (wideAssignment (key, value)) = key := by
  have hStop : ∀ c ∈ key, (c != wideEquals) = true := fun c hMem => bne_iff_ne.mpr fun hEq => hKey (hEq ▸ hMem)
  rw [wideName, wideAssignment, List.takeWhile_append_of_pos hStop]
  simp

theorem getEnvironmentVariable_settings {told : List (Utf16 × Utf16)} (hKeys : ∀ setting ∈ told, wideEquals ∉ setting.1)
    (name : Utf16) : getEnvironmentVariable name (told.map wideAssignment) =
      (told.find? fun setting => wcsicmp setting.1 name).map Prod.snd := by
  induction told with
  | nil => rfl
  | cons setting told ih =>
    obtain ⟨hFirst, hRest⟩ := List.forall_mem_cons.mp hKeys
    have hName := wideName_assignment hFirst setting.2
    have hEquals : (wideAssignment setting).contains wideEquals = true := by simp [wideAssignment]
    rw [List.map_cons, getEnvironmentVariable, hName, List.find?_cons]
    cases hSame : wcsicmp setting.1 name with
    | true =>
      rw [if_pos ⟨hEquals, rfl⟩, wideAssignment, ← List.singleton_append, ← List.append_assoc, Option.map_some]
      congr 1
      exact List.drop_left' (by simp)
    | false =>
      rw [if_neg fun hBoth => Bool.false_ne_true hBoth.2]
      exact ih hRest

theorem getEnvironmentVariable_kept (overrides : List (Utf16 × Utf16)) (name : Utf16) (entries more : List Utf16) :
    getEnvironmentVariable name (entries.filter (isKept overrides) ++ more) =
      if isWideTraceName name = true ∨ overrides.any (fun setting => wcsicmp setting.1 name) = true then
        getEnvironmentVariable name more
      else (getEnvironmentVariable name entries).or (getEnvironmentVariable name more) := by
  induction entries with
  | nil => exact (ite_self _).symm
  | cons entry entries ih =>
    by_cases hFor : entry.contains wideEquals = true ∧ wcsicmp (wideName entry) name = true
    · have hSame := wcsicmp_iff.mp hFor.2
      have hTold : (overrides.any fun setting => wcsicmp setting.1 (wideName entry)) =
          overrides.any fun setting => wcsicmp setting.1 name := by
        simp only [wcsicmp, hSame]
      have hKept : isKept overrides entry =
          (!isWideTraceName name && !overrides.any fun setting => wcsicmp setting.1 name) := by
        rw [isKept, hFor.1, isWideTraceName_congr hFor.2, hTold]
        rfl
      rw [List.filter_cons, hKept, getEnvironmentVariable, if_pos hFor]
      split
      · next hStay =>
        simp only [Bool.and_eq_true, Bool.not_eq_true'] at hStay
        rw [List.cons_append, getEnvironmentVariable, if_pos hFor, if_neg (by rw [hStay.1, hStay.2]; simp)]
        rfl
      · next hGone =>
        rw [ih]
        have hEither : isWideTraceName name = true ∨ (overrides.any fun setting => wcsicmp setting.1 name) = true := by
          simpa [or_iff_not_imp_left] using hGone
        rw [if_pos hEither, if_pos hEither]
    · have hSkip (rest : List Utf16) : getEnvironmentVariable name (entry :: rest) =
          getEnvironmentVariable name rest := by rw [getEnvironmentVariable, if_neg hFor]
      rw [hSkip, ← ih, List.filter_cons]
      split
      · rw [List.cons_append, hSkip]
      · rfl

end ProcessRunner

end GitBranchManager
