import GitBranchManager.Launch.GitProcess
import Mathlib.Data.Bool.AllAny

/-! # Values in other programs' commands

A detached process on Windows is started by PowerShell, and an update is applied by a script. Each of them
reads values out of a text, by rules of its own.
-/

namespace GitBranchManager

open Library ProcessRunner

namespace DetachedProcess

def singleQuote : UInt16 := 39

/-! ## PowerShell -/

def isSingleQuote (c : UInt16) : Bool :=
  c == singleQuote || c == 0x2018 || c == 0x2019 || c == 0x201A || c == 0x201B

/-- Characters of the commands around the values, none of which starts a literal, a comment or an escape. -/
def isCommandUnit (c : UInt16) : Bool :=
  (65 ≤ c && c ≤ 90) || (97 ≤ c && c ≤ 122) || (utf16 "-()[]:$= \n").contains c

def powerShell : Literals.Signs UInt16 where
  quote := singleQuote
  isQuote := isSingleQuote
  plain := isCommandUnit
  quote_isQuote := by decide

def psQuote (value : Utf16) : Utf16 :=
  singleQuote :: ((value.flatMap fun c => if isSingleQuote c then [c, c] else [c]) ++ [singleQuote])

inductive RelayWindow
  | hidden
  | normal
  deriving DecidableEq, Repr

def RelayWindow.style : RelayWindow → Utf16
  | .hidden => utf16 "Hidden"
  | .normal => utf16 "Normal"

def relayQuote (a : Utf16) : Utf16 :=
  if a.isEmpty = false ∧ a.any windowsSigns.blank = false then a
  else doubleQuote :: (a ++ a.rtakeWhile (· == backslash) ++ [doubleQuote])

def joinedArguments (arguments : List Utf16) : Utf16 := [blank].intercalate (arguments.map relayQuote)

def relayCommand (executable : Utf16) (arguments : List Utf16) (workingDirectory : Utf16) (window : RelayWindow) :
    Utf16 :=
  utf16 "Start-Process -WindowStyle " ++ window.style ++ utf16 " -FilePath " ++ psQuote executable ++
    utf16 " -WorkingDirectory ([WildcardPattern]::Escape(" ++ psQuote workingDirectory ++ utf16 "))" ++
    if arguments.isEmpty then [] else utf16 " -ArgumentList " ++ psQuote (joinedArguments arguments)

def windowsRelayArguments (executable : Utf16) (arguments : List Utf16) (workingDirectory : Utf16)
    (window : RelayWindow) : List Utf16 :=
  [utf16 "-NoProfile", utf16 "-NonInteractive", utf16 "-ExecutionPolicy", utf16 "Bypass", utf16 "-Command",
    relayCommand executable arguments workingDirectory window]

/-- On Windows: what the relay is given, or why it is not started. -/
def startDetachedProcess (executable : Utf16) (arguments : List Utf16) (workingDirectory : Utf16)
    (window : RelayWindow) : Except Utf16 (List Utf16) :=
  if arguments.any (·.contains doubleQuote) then
    .error (utf16 "an argument contains a double quote, which the relay cannot carry")
  else .ok (windowsRelayArguments executable arguments workingDirectory window)

/-- The relay's command with its values still apart. -/
def relayPieces (executable : Utf16) (arguments : List Utf16) (workingDirectory : Utf16) (window : RelayWindow) :
    List (Literals.Piece UInt16) :=
  (utf16 "Start-Process -WindowStyle " ++ window.style ++ utf16 " -FilePath ").map .code ++
    .literal executable :: ((utf16 " -WorkingDirectory ([WildcardPattern]::Escape(").map .code ++
    .literal workingDirectory :: ((utf16 "))").map .code ++
    if arguments.isEmpty then [] else (utf16 " -ArgumentList ").map .code ++ [.literal (joinedArguments arguments)]))

theorem write_literal (value : Utf16) (pieces : List (Literals.Piece UInt16)) :
    Literals.write powerShell (.literal value :: pieces) = psQuote value ++ Literals.write powerShell pieces := rfl

theorem write_relayPieces (executable : Utf16) (arguments : List Utf16) (workingDirectory : Utf16)
    (window : RelayWindow) : Literals.write powerShell (relayPieces executable arguments workingDirectory window) =
      relayCommand executable arguments workingDirectory window := by
  rw [relayPieces, relayCommand, Literals.write_append, Literals.write_code, write_literal, Literals.write_append]
  rw [Literals.write_code, write_literal, Literals.write_append, Literals.write_code]
  split
  · simp only [Literals.write, List.append_assoc]
  · rw [Literals.write_append, Literals.write_code, write_literal]
    simp only [Literals.write, List.append_assoc, List.append_nil]

/-- Code is read where it stands. -/
theorem readable_code {text : Utf16} (hText : ∀ c ∈ text, isSingleQuote c = false ∧ isCommandUnit c = true)
    {pieces : List (Literals.Piece UInt16)} (hPieces : Literals.Readable powerShell pieces) :
    Literals.Readable powerShell (text.map .code ++ pieces) := by
  induction text with
  | nil => exact hPieces
  | cons c text ih =>
    obtain ⟨hFirst, hRest⟩ := List.forall_mem_cons.mp hText
    rw [List.map_cons, List.cons_append, Literals.Readable]
    exact ⟨hFirst.1, hFirst.2, ih hRest⟩

theorem readable_literal (value : Utf16) {c : UInt16} {text : Utf16}
    {pieces : List (Literals.Piece UInt16)}
    (h : Literals.Readable powerShell ((c :: text).map .code ++ pieces)) :
    Literals.Readable powerShell (.literal value :: ((c :: text).map .code ++ pieces)) := by
  rw [List.map_cons, List.cons_append] at h ⊢
  exact h

theorem readable_relayPieces (executable : Utf16) (arguments : List Utf16) (workingDirectory : Utf16)
    (window : RelayWindow) : Literals.Readable powerShell (relayPieces executable arguments workingDirectory window) := by
  have hEnd : Literals.Readable powerShell ((utf16 "))").map .code ++
      if arguments.isEmpty then []
      else (utf16 " -ArgumentList ").map .code ++ [.literal (joinedArguments arguments)]) := by
    apply readable_code (List.all_iff_forall_prop.mp (by decide))
    split
    · trivial
    · exact readable_code (List.all_iff_forall_prop.mp (by decide)) trivial
  have hFront : ∀ c ∈ utf16 "Start-Process -WindowStyle " ++ window.style ++ utf16 " -FilePath ",
      isSingleQuote c = false ∧ isCommandUnit c = true := by
    cases window with
    | hidden => exact List.all_iff_forall_prop.mp (by decide)
    | normal => exact List.all_iff_forall_prop.mp (by decide)
  rw [relayPieces]
  apply readable_code hFront
  apply readable_literal
  apply readable_code (List.all_iff_forall_prop.mp (by decide))
  exact readable_literal workingDirectory hEnd

theorem written_relayQuote (after : CommandLine.Mode) {a : Utf16} (hQuote : doubleQuote ∉ a) :
    CommandLine.Written windowsSigns after (relayQuote a) a := by
  rw [relayQuote]
  split
  · next hPlain =>
    apply CommandLine.Written.plain (List.isEmpty_eq_false_iff.mp hPlain.1)
    intro c hMem
    refine ⟨ne_of_mem_of_not_mem hMem hQuote, ?_⟩
    exact Bool.eq_false_iff.mpr (List.any_eq_false.mp hPlain.2 c hMem)
  · have hWritten : CommandLine.Written windowsSigns after _ a := CommandLine.Written.quoted a
    rw [CommandLine.quotedArgument, CommandLine.escaped_of_no_quote hQuote] at hWritten
    exact hWritten

/-- A relayed program gets its arguments, its name and its directory, whatever is in them. -/
theorem relayed_arguments (after : CommandLine.Mode) {executable : Utf16} {arguments : List Utf16}
    {workingDirectory : Utf16} {window : RelayWindow} {relay : List Utf16}
    (hStart : startDetachedProcess executable arguments workingDirectory window = .ok relay) :
    relay.getLast?.bind (Literals.scan powerShell .code) =
        some (relayPieces executable arguments workingDirectory window) ∧
      CommandLine.split windowsSigns after none (joinedArguments arguments) = arguments := by
  rw [startDetachedProcess] at hStart
  split at hStart
  · cases hStart
  · next hNone =>
    cases hStart
    constructor
    · change Literals.scan powerShell .code (relayCommand executable arguments workingDirectory window) = _
      rw [← write_relayPieces]
      exact Literals.scan_write (readable_relayPieces executable arguments workingDirectory window)
    · have hBlank : windowsSigns.blank blank = true := by decide
      apply CommandLine.split_join hBlank relayQuote
      intro a hMem
      apply written_relayQuote
      intro hQuote
      apply hNone
      exact List.any_eq_true.mpr ⟨a, hMem, List.contains_iff_mem.mpr hQuote⟩

theorem relayed_arguments_code :
    let arguments := [utf16 "--wait", [], utf16 "D:\\it's\\a b\\"]
    let relay := windowsRelayArguments (utf16 "code.cmd") arguments (utf16 "D:\\it's") .normal
    relay.getLast?.bind (Literals.scan powerShell .code) =
        some (relayPieces (utf16 "code.cmd") arguments (utf16 "D:\\it's") .normal) ∧
      CommandLine.split windowsSigns .plain none (joinedArguments arguments) = arguments :=
  relayed_arguments .plain rfl

end DetachedProcess

namespace UpdateScripts

open DetachedProcess

/-! ## The shell of a script -/

/-- Letters, digits and the few other characters of the words that a script has outside of quotes. -/
def isWordCode (code : Nat) : Bool :=
  (48 ≤ code && code ≤ 57) || (65 ≤ code && code ≤ 90) || (97 ≤ code && code ≤ 122) || code == 46 || code == 45

def isBlankCode (code : Nat) : Bool := code == 32 || code == 9 || code == 10

def shellSigns : ShellWords.Signs UInt16 where
  quote := singleQuote
  backslash := backslash
  blank c := isBlankCode c.toNat
  plain c := isWordCode c.toNat
  backslash_ne_quote := by decide

def shQuote (value : Utf16) : Utf16 :=
  singleQuote :: ((value.flatMap fun c =>
    if c = singleQuote then [singleQuote, backslash, singleQuote, singleQuote] else [c]) ++ [singleQuote])

def lineFeed : UInt16 := 10

def nameEnd : UInt16 := 61

def scriptLine (name value : Utf16) : Utf16 := name ++ nameEnd :: (value ++ [lineFeed])

/-- The names that `buildUnixUpdaterScript` assigns, and what it writes for their values. -/
def unixValues (pid attempts targetPath stagedPath : Utf16) : List (Utf16 × Utf16) :=
  [(utf16 "PID", pid), (utf16 "TARGET", shQuote targetPath), (utf16 "STAGED", shQuote stagedPath),
    (utf16 "BACKUP", shQuote (targetPath ++ utf16 ".gbm-old")), (utf16 "ATTEMPTS", attempts)]

def scriptLines (lines : List (Utf16 × Utf16)) : Utf16 := lines.flatMap fun line => scriptLine line.1 line.2

/-- One assignment, which is the whole of its line. -/
def readAssignment (text : Utf16) : Option ((Utf16 × Utf16) × Utf16) :=
  match text.dropWhile (· != nameEnd) with
  | [] => none
  | _ :: rest =>
    match ShellWords.word shellSigns .bare rest with
    | some (value, c :: more) => if c = lineFeed then some ((text.takeWhile (· != nameEnd), value), more) else none
    | _ => none

def readAssignments : Nat → Utf16 → Option (List (Utf16 × Utf16) × Utf16)
  | 0, text => some ([], text)
  | n + 1, text =>
    match readAssignment text with
    | none => none
    | some (assigned, rest) => (readAssignments n rest).map fun read => (assigned :: read.1, read.2)

theorem readAssignment_line {name value written : Utf16} (hName : nameEnd ∉ name)
    (hWord : ∀ rest, ShellWords.word shellSigns .bare (written ++ lineFeed :: rest) = some (value, lineFeed :: rest))
    (rest : Utf16) : readAssignment (scriptLine name written ++ rest) = some ((name, value), rest) := by
  have hStop : ∀ c ∈ name, (c != nameEnd) = true := fun c hMem => bne_iff_ne.mpr fun hEq => hName (hEq ▸ hMem)
  have hText : scriptLine name written ++ rest = name ++ nameEnd :: (written ++ lineFeed :: rest) := by
    simp [scriptLine]
  have hDrop : (name ++ nameEnd :: (written ++ lineFeed :: rest)).dropWhile (· != nameEnd) =
      nameEnd :: (written ++ lineFeed :: rest) := by
    rw [List.dropWhile_append_of_pos hStop]
    simp
  have hTake : (name ++ nameEnd :: (written ++ lineFeed :: rest)).takeWhile (· != nameEnd) = name := by
    rw [List.takeWhile_append_of_pos hStop]
    simp
  rw [readAssignment, hText, hDrop, hTake]
  dsimp only
  rw [hWord]
  rfl

theorem word_shQuote (value rest : Utf16) :
    ShellWords.word shellSigns .bare (shQuote value ++ lineFeed :: rest) = some (value, lineFeed :: rest) :=
  ShellWords.word_quotedWord_blank value (by decide) (by decide) (by decide) rest

theorem word_bare {text : Utf16} (hText : ∀ c ∈ text, isWordCode c.toNat = true) (rest : Utf16) :
    ShellWords.word shellSigns .bare (text ++ lineFeed :: rest) = some (text, lineFeed :: rest) := by
  apply ShellWords.word_plain _ (by decide) (by decide) (by decide)
  intro c hMem
  have hWord := hText c hMem
  refine ⟨?_, ?_, ?_, hWord⟩
  · rintro rfl
    exact absurd hWord (by decide)
  · rintro rfl
    exact absurd hWord (by decide)
  · change isBlankCode c.toNat = false
    simp only [isWordCode, isBlankCode, Bool.or_eq_true, Bool.and_eq_true, beq_iff_eq, decide_eq_true_eq,
      Bool.or_eq_false_iff, beq_eq_false_iff_ne] at hWord ⊢
    omega

/-- `written` is the text that a script has for a value. -/
def Writes (line : Utf16 × Utf16) (value : Utf16) : Prop :=
  nameEnd ∉ line.1 ∧
    ∀ rest, ShellWords.word shellSigns .bare (line.2 ++ lineFeed :: rest) = some (value, lineFeed :: rest)

theorem writes {name written value : Utf16} (hName : nameEnd ∉ name)
    (hWord : ∀ rest, ShellWords.word shellSigns .bare (written ++ lineFeed :: rest) = some (value, lineFeed :: rest)) :
    Writes (name, written) value := ⟨hName, hWord⟩

theorem readAssignments_lines {lines : List (Utf16 × Utf16)} {values : List Utf16}
    (h : List.Forall₂ Writes lines values) (rest : Utf16) :
    readAssignments lines.length (scriptLines lines ++ rest) = some ((lines.map Prod.fst).zip values, rest) := by
  induction h with
  | nil => rfl
  | @cons line value lines values hLine _ ih =>
    have hText : scriptLines (line :: lines) ++ rest = scriptLine line.1 line.2 ++ (scriptLines lines ++ rest) := by
      rw [scriptLines, List.flatMap_cons, List.append_assoc]
      rfl
    rw [List.length_cons, hText, readAssignments, readAssignment_line hLine.1 hLine.2]
    dsimp only
    rw [ih]
    rfl

/-- The script has the values that it was built from, whatever is in the two paths. -/
theorem readAssignments_unixValues {pid attempts : Utf16} (hPid : ∀ c ∈ pid, isWordCode c.toNat = true)
    (hAttempts : ∀ c ∈ attempts, isWordCode c.toNat = true) (targetPath stagedPath rest : Utf16) :
    readAssignments 5 (scriptLines (unixValues pid attempts targetPath stagedPath) ++ rest) =
      some ([(utf16 "PID", pid), (utf16 "TARGET", targetPath), (utf16 "STAGED", stagedPath),
        (utf16 "BACKUP", targetPath ++ utf16 ".gbm-old"), (utf16 "ATTEMPTS", attempts)], rest) := by
  have hWrites : List.Forall₂ Writes (unixValues pid attempts targetPath stagedPath)
      [pid, targetPath, stagedPath, targetPath ++ utf16 ".gbm-old", attempts] :=
    .cons (writes (by decide) (word_bare hPid)) <| .cons (writes (by decide) (word_shQuote _)) <|
      .cons (writes (by decide) (word_shQuote _)) <| .cons (writes (by decide) (word_shQuote _)) <|
      .cons (writes (by decide) (word_bare hAttempts)) .nil
  exact readAssignments_lines hWrites rest

theorem readAssignments_unixValues_apostrophe :
    readAssignments 5 (scriptLines (unixValues (utf16 "41") (utf16 "300") (utf16 "/Users/o'b/a b") []) ++ []) =
      some ([(utf16 "PID", utf16 "41"), (utf16 "TARGET", utf16 "/Users/o'b/a b"), (utf16 "STAGED", []),
        (utf16 "BACKUP", utf16 "/Users/o'b/a b" ++ utf16 ".gbm-old"), (utf16 "ATTEMPTS", utf16 "300")], []) :=
  readAssignments_unixValues (List.all_iff_forall_prop.mp (by decide)) (List.all_iff_forall_prop.mp (by decide)) _ _ _

/-! ## The script for Windows Installer -/

/-- An install folder without the separators at its end. -/
def installTarget (installFolder : Utf16) : Utf16 := installFolder.rdropWhile fun c => c == backslash || c == 47

/-- The values of `buildWindowsMsiUpdaterScript`. -/
def msiPieces (target packagePath sha256 : Utf16) : List (Literals.Piece UInt16) :=
  (utf16 "$target = ").map .code ++ .literal target :: ((utf16 "\n$package = ").map .code ++
    .literal packagePath :: ((utf16 "\n$expectedHash = ").map .code ++ .literal sha256 ::
      ((utf16 "\n").map .code ++ [])))

def msiValues (target packagePath sha256 : Utf16) : Utf16 :=
  utf16 "$target = " ++ psQuote target ++ utf16 "\n$package = " ++ psQuote packagePath ++
    utf16 "\n$expectedHash = " ++ psQuote sha256 ++ utf16 "\n"

/-- What the script makes of its variables for `msiexec`. -/
def msiArguments (target packagePath msiLog : Utf16) : Utf16 :=
  utf16 "/i \"" ++ packagePath ++ utf16 "\" /passive /norestart INSTALLFOLDER=\"" ++ target ++ utf16 "\" /l*v \"" ++
    msiLog ++ utf16 "\""

theorem write_msiPieces (target packagePath sha256 : Utf16) :
    Literals.write powerShell (msiPieces target packagePath sha256) = msiValues target packagePath sha256 := by
  rw [msiPieces, msiValues, Literals.write_append, Literals.write_code, write_literal, Literals.write_append]
  rw [Literals.write_code, write_literal, Literals.write_append, Literals.write_code, write_literal]
  rw [Literals.write_append, Literals.write_code]
  simp only [Literals.write, List.append_assoc, List.append_nil]

theorem readable_msiPieces (target packagePath sha256 : Utf16) :
    Literals.Readable powerShell (msiPieces target packagePath sha256) := by
  rw [msiPieces]
  apply readable_code (List.all_iff_forall_prop.mp (by decide))
  apply readable_literal
  apply readable_code (List.all_iff_forall_prop.mp (by decide))
  apply readable_literal
  apply readable_code (List.all_iff_forall_prop.mp (by decide))
  apply readable_literal
  exact readable_code (List.all_iff_forall_prop.mp (by decide)) trivial

theorem installTarget_end (installFolder : Utf16) : (installTarget installFolder).getLast? ≠ some backslash := by
  intro hLast
  have hSome : installTarget installFolder ≠ [] := by
    intro hNone
    rw [hNone] at hLast
    cases hLast
  have hNot := List.rdropWhile_last_not (fun c => c == backslash || c == 47) installFolder hSome
  rw [List.getLast?_eq_some_getLast hSome, Option.some_inj] at hLast
  apply hNot
  change ((installTarget installFolder).getLast hSome == backslash || _) = true
  rw [hLast]
  rfl

/-- `front` and a value between quotes are one argument. -/
theorem written_quotedPath (after : CommandLine.Mode) {front value : Utf16} (hSome : front ≠ [])
    (hFront : ∀ c ∈ front, c ≠ backslash ∧ c ≠ doubleQuote ∧ windowsSigns.blank c = false)
    (hQuote : doubleQuote ∉ value) (hEnd : value.getLast? ≠ some backslash) :
    CommandLine.Written windowsSigns after (front ++ doubleQuote :: (value ++ [doubleQuote])) (front ++ value) := by
  have hWritten : CommandLine.Written windowsSigns after _ (front ++ value) :=
    CommandLine.Written.joined hSome hFront value
  rw [CommandLine.quotedArgument, CommandLine.escaped_of_no_quote hQuote, List.replicate_zero, List.nil_append,
    CommandLine.trailing_eq_nil hEnd, List.append_nil] at hWritten
  exact hWritten

theorem written_path (after : CommandLine.Mode) {value : Utf16} (hQuote : doubleQuote ∉ value)
    (hEnd : value.getLast? ≠ some backslash) :
    CommandLine.Written windowsSigns after (doubleQuote :: (value ++ [doubleQuote])) value := by
  have hWritten : CommandLine.Written windowsSigns after _ value := CommandLine.Written.quoted value
  rw [CommandLine.quotedArgument, CommandLine.escaped_of_no_quote hQuote, List.replicate_zero, List.nil_append,
    CommandLine.trailing_eq_nil hEnd, List.append_nil] at hWritten
  exact hWritten

/-- The script has its values, and `msiexec` has the folder, the package and the log as one argument each: the
folder may end in a separator, since that is cut off. -/
theorem split_msiArguments (after : CommandLine.Mode) {installFolder packagePath msiLog : Utf16} (sha256 : Utf16)
    (hFolder : doubleQuote ∉ installFolder) (hPackage : doubleQuote ∉ packagePath) (hLog : doubleQuote ∉ msiLog)
    (hPackageEnd : packagePath.getLast? ≠ some backslash) (hLogEnd : msiLog.getLast? ≠ some backslash) :
    Literals.scan powerShell .code (msiValues (installTarget installFolder) packagePath sha256) =
        some (msiPieces (installTarget installFolder) packagePath sha256) ∧
      CommandLine.split windowsSigns after none (msiArguments (installTarget installFolder) packagePath msiLog) =
        [utf16 "/i", packagePath, utf16 "/passive", utf16 "/norestart",
          utf16 "INSTALLFOLDER=" ++ installTarget installFolder, utf16 "/l*v", msiLog] := by
  constructor
  · rw [← write_msiPieces]
    exact Literals.scan_write (readable_msiPieces _ _ _)
  · have hTarget : doubleQuote ∉ installTarget installFolder :=
      fun hMem => hFolder ((List.rdropWhile_prefix _ _).subset hMem)
    have hBlank : windowsSigns.blank blank = true := by decide
    have hPlain {option : Utf16} (hSome : option ≠ [])
        (hOption : (option.all fun c => decide (c ≠ doubleQuote ∧ windowsSigns.blank c = false)) = true) :
        CommandLine.Written windowsSigns after option option :=
      CommandLine.Written.plain hSome (List.all_iff_forall_prop.mp hOption)
    have hFront : ∀ c ∈ utf16 "INSTALLFOLDER=", c ≠ backslash ∧ c ≠ doubleQuote ∧ windowsSigns.blank c = false :=
      List.all_iff_forall_prop.mp (by decide)
    have hText : msiArguments (installTarget installFolder) packagePath msiLog = [blank].intercalate
        [utf16 "/i", doubleQuote :: (packagePath ++ [doubleQuote]), utf16 "/passive", utf16 "/norestart",
          utf16 "INSTALLFOLDER=" ++ doubleQuote :: (installTarget installFolder ++ [doubleQuote]), utf16 "/l*v",
          doubleQuote :: (msiLog ++ [doubleQuote])] := by
      simp only [msiArguments, List.intercalate, List.intersperse, List.flatten_cons, List.flatten_nil,
        List.append_assoc, List.append_nil, List.cons_append, List.nil_append]
      rfl
    rw [hText]
    apply CommandLine.split_intercalate hBlank
    exact .cons (hPlain (by decide) (by decide)) <| .cons (written_path after hPackage hPackageEnd) <|
      .cons (hPlain (by decide) (by decide)) <| .cons (hPlain (by decide) (by decide)) <|
      .cons (written_quotedPath after (by decide) hFront hTarget (installTarget_end installFolder)) <|
      .cons (hPlain (by decide) (by decide)) <| .cons (written_path after hLog hLogEnd) .nil

theorem split_msiArguments_programFiles :
    let installFolder := utf16 "C:\\Program Files\\GBM\\"
    Literals.scan powerShell .code (msiValues (installTarget installFolder) (utf16 "C:\\o'b\\gbm.msi") (utf16 "ab")) =
        some (msiPieces (installTarget installFolder) (utf16 "C:\\o'b\\gbm.msi") (utf16 "ab")) ∧
      CommandLine.split windowsSigns .plain none
          (msiArguments (installTarget installFolder) (utf16 "C:\\o'b\\gbm.msi") (utf16 "C:\\a.log")) =
        [utf16 "/i", utf16 "C:\\o'b\\gbm.msi", utf16 "/passive", utf16 "/norestart",
          utf16 "INSTALLFOLDER=" ++ installTarget installFolder, utf16 "/l*v", utf16 "C:\\a.log"] :=
  split_msiArguments .plain _ (by decide) (by decide) (by decide) (by decide) (by decide)

end UpdateScripts

namespace RebaseInteractive

open UpdateScripts

/-! ## The editor of an interactive rebase -/

def byteSigns : ShellWords.Signs UInt8 where
  quote := 39
  backslash := 92
  blank b := isBlankCode b.toNat
  plain b := isWordCode b.toNat
  backslash_ne_quote := by decide

/-- The loop of `shellQuote`. -/
def shellQuoteLoop : Bytes → Bytes
  | [] => []
  | c :: path => (if c = 39 then ascii "'\\''" else [c]) ++ shellQuoteLoop path

def shellQuote (path : Bytes) : Bytes := ascii "'" ++ shellQuoteLoop path ++ ascii "'"

def sequenceEditor (todoFile : Bytes) : Bytes := ascii "cp " ++ shellQuote todoFile

/-- Git has a shell run the editor with the file it wrote. -/
def editorCommand (editor : Bytes) : Bytes := editor ++ ascii " \"$@\""

theorem shellQuote_eq (path : Bytes) : shellQuote path = ShellWords.quotedWord byteSigns path := by
  have hLoop : shellQuoteLoop path = ShellWords.reopened byteSigns path := by
    induction path with
    | nil => rfl
    | cons c path ih =>
      rw [shellQuoteLoop, ih]
      rfl
  rw [shellQuote, hLoop]
  rfl

/-- The file is copied from one path, whatever is in it, to the one that git adds. -/
theorem word_sequenceEditor (todoFile : Bytes) :
    ShellWords.word byteSigns .bare (editorCommand (sequenceEditor todoFile)) =
        some (ascii "cp", space :: (shellQuote todoFile ++ ascii " \"$@\"")) ∧
      ShellWords.word byteSigns .bare (shellQuote todoFile ++ ascii " \"$@\"") = some (todoFile, ascii " \"$@\"") := by
  constructor
  · have hText : editorCommand (sequenceEditor todoFile) =
        ascii "cp" ++ space :: (shellQuote todoFile ++ ascii " \"$@\"") := by
      rw [editorCommand, sequenceEditor, List.append_assoc]
      rfl
    rw [hText]
    exact ShellWords.word_plain (List.all_iff_forall_prop.mp (by decide)) (by decide) (by decide) (by decide) _
  · rw [shellQuote_eq]
    exact ShellWords.word_quotedWord_blank todoFile (by decide) (by decide) (by decide) _

end RebaseInteractive

end GitBranchManager
