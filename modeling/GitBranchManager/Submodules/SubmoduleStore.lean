import GitBranchManager.Base.BufferedOutput
import GitBranchManager.Refs.RefCommands
import Mathlib.Logic.Function.Basic

/-! # The list of submodules

The settings of `.gitmodules` come keyed by name and the status of each submodule by path. A status
line hides the end of its path: only an initialised submodule has a description behind it.
-/

namespace GitBranchManager

open Library LineSplitter

inductive SubmoduleState
  | notInitialized
  | upToDate
  | modified
  | conflicted
  deriving DecidableEq, Repr

structure SubmoduleInfo where
  name : Bytes := []
  path : Bytes := []
  url : Bytes := []
  branch : Bytes := []
  headOid : Bytes := []
  state : SubmoduleState := .upToDate
  deriving DecidableEq, Repr

namespace SubmoduleStore

structure Declared where
  name : Bytes := []
  url : Bytes := []
  branch : Bytes := []
  deriving DecidableEq, Repr

structure DeclaredMaps where
  byName : Bytes → Option Declared := fun _ => none
  byPath : Bytes → Option Declared := fun _ => none

def Declared.write (entry : Declared) (attr value : Bytes) : Declared :=
  if attr = ascii "url" then { entry with url := value }
  else if attr = ascii "branch" then { entry with branch := value }
  else entry

/-- A path gets what its section declares so far. -/
def DeclaredMaps.set (maps : DeclaredMaps) (name attr value : Bytes) : DeclaredMaps :=
  let entry := Declared.write { (maps.byName name).getD {} with name } attr value
  { byName := Function.update maps.byName name (some entry)
    byPath := if attr = ascii "path" then Function.update maps.byPath value (some entry) else maps.byPath }

def kPrefix : Bytes := ascii "submodule."

/-- `submodule.<name>.<key> <value>`; a name may have dots, so the key is split from the right. -/
def readSetting (maps : DeclaredMaps) (line : Bytes) : DeclaredMaps :=
  match find [space] line with
  | none => maps
  | some sp =>
    if startsWith line kPrefix then
      let withoutPrefix := (line.take sp).drop kPrefix.length
      match rfind (ascii ".") withoutPrefix with
      | none => maps
      | some lastDot =>
        maps.set (withoutPrefix.take lastDot) (withoutPrefix.drop (lastDot + 1)) (line.drop (sp + 1))
    else maps

/-- The second pass brings the settings that come after the path. -/
def DeclaredMaps.refreshed (maps : DeclaredMaps) (path : Bytes) : Option Declared :=
  (maps.byPath path).map fun declared =>
    match maps.byName declared.name with
    | some found => { declared with url := found.url, branch := found.branch }
    | none => declared

def stateOf (statusChar : UInt8) : SubmoduleState :=
  if statusChar = 45 then .notInitialized
  else if statusChar = 43 then .modified
  else if statusChar = 85 then .conflicted
  else .upToDate

/-- `<state><oid> <path>`, and ` (<describe>)` behind some paths. -/
def readStatus (byPath : Bytes → Option Declared) (infos : List SubmoduleInfo) (line : Bytes) : List SubmoduleInfo :=
  match line with
  | [] => infos
  | [_] => infos
  | statusChar :: rest =>
    match find [space] rest with
    | none => infos
    | some sp =>
      let pathAndDescribe := rest.drop (sp + 1)
      let path := match rfind (ascii " (") pathAndDescribe with
        | none => pathAndDescribe
        | some paren => pathAndDescribe.take paren
      let info : SubmoduleInfo := { path, headOid := rest.take sp, state := stateOf statusChar }
      infos ++ [match byPath path with
        | some found => { info with name := found.name, url := found.url, branch := found.branch }
        | none => { info with name := path }]

def configCommand : GitCommand :=
  [ascii "config", ascii "--file", ascii ".gitmodules", ascii "--get-regexp", ascii "^submodule\\."]

def statusCommand : GitCommand := [ascii "submodule", ascii "status"]

variable {ρ : Type}

/-- A `.gitmodules` that git cannot read leaves the submodules without settings. -/
def readModules (git : ProcessRunner ρ) (s : ρ) (hasGitmodules : Bool) : (Bytes → Option Declared) × ρ :=
  if hasGitmodules then
    match git s configCommand with
    | (.error _, s) => (fun _ => none, s)
    | (.ok out, s) => (((out.splitOn LF).foldl readSetting {}).refreshed, s)
  else (fun _ => none, s)

def list (git : ProcessRunner ρ) (s : ρ) (hasGitmodules : Bool) : GitResult (List SubmoduleInfo) × ρ :=
  let (byPath, s) := readModules git s hasGitmodules
  match git s statusCommand with
  | (.error e, s) => (.error e.toGitError, s)
  | (.ok out, s) => (.ok ((out.splitOn LF).foldl (readStatus byPath) []), s)

end SubmoduleStore

/-! ## What git prints -/

/-- A text that a line can end with. -/
def EndsLine (text : Bytes) : Prop := LF ∉ text ∧ text.getLast? ≠ some CR

/-- A section of `.gitmodules`: its attributes in any order, each at most once. -/
structure ModuleSection where
  name : Bytes
  attrs : List (Bytes × Bytes)
  nameFree : space ∉ name ∧ LF ∉ name
  attrsFree : ∀ attr ∈ attrs, (space ∉ attr.1 ∧ 46 ∉ attr.1 ∧ LF ∉ attr.1) ∧ EndsLine attr.2
  attrsNodup : (attrs.map Prod.fst).Nodup

namespace ModuleSection

def value (section_ : ModuleSection) (attr : String) : Option Bytes := section_.attrs.lookup (ascii attr)

def line (name : Bytes) (attr : Bytes × Bytes) : Bytes :=
  SubmoduleStore.kPrefix ++ (name ++ 46 :: attr.1) ++ space :: attr.2

end ModuleSection

/-- No two sections have one name or declare one path. -/
structure ModuleFile where
  sections : List ModuleSection
  names : ∀ first ∈ sections, ∀ second ∈ sections, first.name = second.name → first = second
  paths : ∀ first ∈ sections, ∀ second ∈ sections, ∀ path, first.value "path" = some path →
    second.value "path" = some path → first = second

def ModuleFile.text (file : ModuleFile) : Bytes :=
  Lines.join LF (file.sections.flatMap fun section_ => section_.attrs.map (ModuleSection.line section_.name))

structure StatusLine where
  state : SubmoduleState
  oid : Bytes
  path : Bytes
  describe : Option Bytes := none
  oidFree : oid ≠ [] ∧ space ∉ oid ∧ LF ∉ oid
  pathFree : EndsLine path
  describeFree : ∀ text ∈ describe, space ∉ text ∧ LF ∉ text
  initialized : state = .notInitialized → describe = none

namespace StatusLine

def statusChar (line : StatusLine) : UInt8 :=
  match line.state with
  | .notInitialized => 45
  | .upToDate => space
  | .modified => 43
  | .conflicted => 85

def suffix (line : StatusLine) : Bytes :=
  match line.describe with
  | none => []
  | some text => ascii " (" ++ text ++ ascii ")"

def text (line : StatusLine) : Bytes := line.statusChar :: (line.oid ++ space :: (line.path ++ line.suffix))

end StatusLine

namespace ModuleFile

/-- The settings of the section that declares a path. -/
def declared (file : ModuleFile) (path : Bytes) : Option SubmoduleStore.Declared :=
  (file.sections.find? fun section_ => section_.value "path" == some path).map fun found =>
    { name := found.name, url := (found.value "url").getD [], branch := (found.value "branch").getD [] }

def infoAt (file : ModuleFile) (line : StatusLine) (path : Bytes) : SubmoduleInfo :=
  let declared := (file.declared path).getD { name := path }
  { name := declared.name
    path
    url := declared.url
    branch := declared.branch
    headOid := line.oid
    state := line.state }

/-- The submodule of a status line as it is. -/
def info (file : ModuleFile) (line : StatusLine) : SubmoduleInfo := file.infoAt line line.path

end ModuleFile

/-! ## The settings -/

namespace SubmoduleStore

abbrev Setting := Bytes × Bytes × Bytes

def Declared.get (declared : Declared) (attr : Bytes) : Bytes :=
  if attr = ascii "url" then declared.url else if attr = ascii "branch" then declared.branch else []

/-- What the maps hold is one of the settings read so far, or the default where there is none. -/
structure Holds (settings : List Setting) (maps : DeclaredMaps) : Prop where
  known : ∀ path declared, maps.byPath path = some declared →
    (declared.name, ascii "path", path) ∈ settings ∧ (maps.byName declared.name).isSome = true
  missing : ∀ path, maps.byPath path = none → ∀ name, (name, ascii "path", path) ∉ settings
  kept : ∀ name attr, attr = ascii "url" ∨ attr = ascii "branch" →
    (name, attr, ((maps.byName name).getD {}).get attr) ∈ settings ∨
      (∀ value, (name, attr, value) ∉ settings) ∧ ((maps.byName name).getD {}).get attr = []

theorem get_write (entry : Declared) (attr value : Bytes) {field : Bytes}
    (hField : field = ascii "url" ∨ field = ascii "branch") :
    (entry.write attr value).get field = if attr = field then value else entry.get field := by
  have hOther : ascii "url" ≠ ascii "branch" := by decide
  rw [Declared.write]
  rcases hField with rfl | rfl
  · by_cases hUrl : attr = ascii "url"
    · simp [hUrl, Declared.get]
    · by_cases hBranch : attr = ascii "branch" <;> simp [hUrl, hBranch, Declared.get, hOther.symm]
  · by_cases hUrl : attr = ascii "url"
    · simp [hUrl, Declared.get, hOther, hOther.symm]
    · by_cases hBranch : attr = ascii "branch" <;> simp [hUrl, hBranch, Declared.get, hOther.symm]

theorem name_write (entry : Declared) (attr value : Bytes) : (entry.write attr value).name = entry.name := by
  rw [Declared.write]
  split
  · rfl
  · split <;> rfl

/-- What a setting makes of the entry of its section. -/
def DeclaredMaps.written (maps : DeclaredMaps) (name attr value : Bytes) : Declared :=
  Declared.write { (maps.byName name).getD {} with name } attr value

section Set

variable (maps : DeclaredMaps) (name attr value : Bytes)

theorem name_written : (maps.written name attr value).name = name :=
  name_write _ attr value

theorem byName_set (other : Bytes) : (maps.set name attr value).byName other =
    if other = name then some (maps.written name attr value) else maps.byName other :=
  Function.update_apply ..

theorem byPath_set (path : Bytes) : (maps.set name attr value).byPath path =
    if attr = ascii "path" ∧ path = value then some (maps.written name attr value) else maps.byPath path := by
  rw [DeclaredMaps.set]
  dsimp only
  by_cases hAttr : attr = ascii "path"
  · rw [if_pos hAttr, Function.update_apply, DeclaredMaps.written]
    simp only [hAttr, true_and]
  · rw [if_neg hAttr, if_neg fun hBoth => hAttr hBoth.1]

theorem get_set (other : Bytes) {field : Bytes} (hField : field = ascii "url" ∨ field = ascii "branch") :
    (((maps.set name attr value).byName other).getD {}).get field =
      if other = name ∧ attr = field then value else ((maps.byName other).getD {}).get field := by
  rw [byName_set]
  by_cases hSame : other = name
  · rw [if_pos hSame, Option.getD_some, DeclaredMaps.written, get_write _ _ _ hField, hSame]
    simp only [true_and]
    rfl
  · rw [if_neg hSame, if_neg fun hBoth => hSame hBoth.1]

end Set

theorem Holds.set {settings : List Setting} {maps : DeclaredMaps} (h : Holds settings maps)
    (name attr value : Bytes) : Holds (settings ++ [(name, attr, value)]) (maps.set name attr value) := by
  constructor
  · intro path declared hPath
    rw [byPath_set] at hPath
    rw [byName_set]
    split at hPath
    next hThis =>
      obtain rfl := Option.some.inj hPath
      rw [name_written, if_pos rfl, ← hThis.1, hThis.2]
      exact ⟨List.mem_concat_self, rfl⟩
    next =>
      obtain ⟨hMem, hSome⟩ := h.known path declared hPath
      refine ⟨List.mem_append_left _ hMem, ?_⟩
      split
      · rfl
      · exact hSome
  · intro path hPath other hMem
    rw [byPath_set] at hPath
    split at hPath
    next => cases hPath
    next hOther =>
      rcases List.mem_append.mp hMem with hOld | hNew
      · exact h.missing path hPath other hOld
      · obtain ⟨-, hRest⟩ := Prod.mk.inj (List.mem_singleton.mp hNew)
        obtain ⟨hAttr, hValue⟩ := Prod.mk.inj hRest
        exact hOther ⟨hAttr.symm, hValue⟩
  · intro other field hField
    rw [get_set _ _ _ _ _ hField]
    split
    next hThis =>
      rw [hThis.1, ← hThis.2]
      exact Or.inl List.mem_concat_self
    next hOther =>
      refine (h.kept other field hField).imp (List.mem_append_left _) (And.imp_left fun hNone v hMem => ?_)
      rcases List.mem_append.mp hMem with hOld | hNew
      · exact hNone v hOld
      · obtain ⟨hName, hRest⟩ := Prod.mk.inj (List.mem_singleton.mp hNew)
        exact hOther ⟨hName, (Prod.mk.inj hRest).1.symm⟩

theorem holds_foldl (settings : List Setting) :
    Holds settings (settings.foldl (fun maps setting => maps.set setting.1 setting.2.1 setting.2.2) {}) := by
  induction settings using List.reverseRecOn with
  | nil =>
    refine ⟨nofun, fun _ _ _ => List.not_mem_nil, fun name attr hAttr => Or.inr ⟨fun _ => List.not_mem_nil, ?_⟩⟩
    rcases hAttr with rfl | rfl <;> rfl
  | append_singleton settings setting ih =>
    rw [List.foldl_append]
    exact ih.set setting.1 setting.2.1 setting.2.2

theorem readSetting_line {name : Bytes} {attr : Bytes × Bytes} (hName : space ∉ name)
    (hAttr : space ∉ attr.1 ∧ 46 ∉ attr.1) (hValue : EndsLine attr.2) (maps : DeclaredMaps) :
    readSetting maps (trimmed LF (ModuleSection.line name attr)) = maps.set name attr.1 attr.2 := by
  obtain ⟨key, hKey⟩ : ∃ key, kPrefix ++ (name ++ 46 :: attr.1) = key := ⟨_, rfl⟩
  have hSpace : space ∉ key := by
    rw [← hKey, List.mem_append, List.mem_append, List.mem_cons, not_or, not_or, not_or]
    exact ⟨by decide, hName, by decide, hAttr.1⟩
  have hLine : trimmed LF (ModuleSection.line name attr) = key ++ space :: attr.2 := by
    have hFront : (key ++ [space]).getLast? ≠ some CR := by
      rw [List.getLast?_concat]
      decide
    have hKept : trimmed LF attr.2 = attr.2 := if_neg fun hTrim => hValue.2 hTrim.2
    rw [ModuleSection.line, hKey, List.append_cons, trimmed_append hFront, hKept]
  have hStarts : startsWith (key ++ space :: attr.2) kPrefix = true := by
    rw [← hKey, List.append_assoc]
    exact startsWith_append _ _
  have hDrop : key.drop kPrefix.length = name ++ 46 :: attr.1 := by rw [← hKey, List.drop_left]
  rw [hLine, readSetting, find_byte hSpace]
  dsimp only
  rw [hStarts, if_pos rfl, List.take_left, hDrop]
  have hDot : rfind (ascii ".") (name ++ 46 :: attr.1) = some name.length := rfind_last hAttr.2 name
  rw [hDot]
  dsimp only
  rw [List.take_left, drop_field, drop_field]

theorem lookup_eq_some_iff {attrs : List (Bytes × Bytes)} (hNodup : (attrs.map Prod.fst).Nodup) {key value : Bytes} :
    attrs.lookup key = some value ↔ (key, value) ∈ attrs := by
  induction attrs with
  | nil => simp
  | cons attr attrs ih =>
    obtain ⟨hFirst, hRest⟩ := List.nodup_cons.mp hNodup
    rw [List.lookup_cons, List.mem_cons]
    by_cases hKey : key = attr.1
    · have hNone : (key, value) ∉ attrs := fun hMem => hFirst (hKey ▸ List.mem_map_of_mem hMem)
      rw [beq_iff_eq.mpr hKey, or_iff_left hNone]
      dsimp only
      rw [Option.some.injEq, Prod.ext_iff]
      exact ⟨fun hValue => ⟨hKey, hValue.symm⟩, fun hBoth => hBoth.2.symm⟩
    · rw [beq_eq_false_iff_ne.mpr hKey, or_iff_right (fun hSame => hKey (congrArg Prod.fst hSame))]
      exact ih hRest

end SubmoduleStore

open SubmoduleStore

namespace ModuleFile

def settings (file : ModuleFile) : List Setting :=
  file.sections.flatMap fun section_ => section_.attrs.map fun attr => (section_.name, attr)

theorem mem_settings {file : ModuleFile} {name attr value : Bytes} : (name, attr, value) ∈ file.settings ↔
    ∃ section_ ∈ file.sections, section_.name = name ∧ section_.attrs.lookup attr = some value := by
  rw [settings, List.mem_flatMap]
  refine exists_congr fun section_ => and_congr_right fun _ => ?_
  rw [List.mem_map, lookup_eq_some_iff section_.attrsNodup]
  constructor
  · rintro ⟨pair, hPair, hSame⟩
    obtain ⟨hName, rfl⟩ := Prod.mk.inj hSame
    exact ⟨hName, hPair⟩
  · rintro ⟨rfl, hPair⟩
    exact ⟨_, hPair, rfl⟩

/-- What is kept of a section is what it declares. -/
theorem get_eq {file : ModuleFile} {maps : DeclaredMaps} (h : Holds file.settings maps) {section_ : ModuleSection}
    (hSection : section_ ∈ file.sections) {attr : Bytes} (hAttr : attr = ascii "url" ∨ attr = ascii "branch") :
    ((maps.byName section_.name).getD {}).get attr = (section_.attrs.lookup attr).getD [] := by
  rcases h.kept section_.name attr hAttr with hSome | ⟨hNone, hEmpty⟩
  · obtain ⟨other, hOther, hName, hValue⟩ := mem_settings.mp hSome
    rw [← hName] at hValue ⊢
    obtain rfl := file.names other hOther section_ hSection hName
    rw [hValue, Option.getD_some]
  · rw [hEmpty]
    cases hLookup : section_.attrs.lookup attr with
    | none => rfl
    | some value => exact absurd (mem_settings.mpr ⟨section_, hSection, rfl, hLookup⟩) (hNone value)

/-- In whatever order the settings come, a path ends up with its own section's. -/
theorem refreshed_eq {file : ModuleFile} {maps : DeclaredMaps} (h : Holds file.settings maps) (path : Bytes) :
    maps.refreshed path = file.declared path := by
  rw [DeclaredMaps.refreshed, declared]
  cases hPath : maps.byPath path with
  | none =>
    have hNone : file.sections.find? (fun section_ => section_.value "path" == some path) = none := by
      rw [List.find?_eq_none]
      intro section_ hSection hDeclares
      exact h.missing path hPath section_.name
        (mem_settings.mpr ⟨section_, hSection, rfl, beq_iff_eq.mp hDeclares⟩)
    rw [hNone]
    rfl
  | some declared =>
    obtain ⟨hMem, hSome⟩ := h.known path declared hPath
    obtain ⟨section_, hSection, hName, hDeclares⟩ := mem_settings.mp hMem
    have hFind : file.sections.find? (fun section_ => section_.value "path" == some path) = some section_ := by
      have hThis : (section_.value "path" == some path) = true := beq_iff_eq.mpr hDeclares
      cases hFound : file.sections.find? (fun section_ => section_.value "path" == some path) with
      | none => exact absurd hThis (List.find?_eq_none.mp hFound section_ hSection)
      | some other =>
        have hOther := List.find?_some hFound
        rw [file.paths other (List.mem_of_find?_eq_some hFound) section_ hSection path (beq_iff_eq.mp hOther) hDeclares]
    obtain ⟨found, hFound⟩ := Option.isSome_iff_exists.mp hSome
    have hUrl := get_eq h hSection (Or.inl rfl)
    have hBranch := get_eq h hSection (Or.inr rfl)
    rw [hName, hFound, Option.getD_some] at hUrl hBranch
    have hUrl' : found.url = (section_.value "url").getD [] := hUrl
    have hBranch' : found.branch = (section_.value "branch").getD [] := hBranch
    rw [hFind, Option.map_some, Option.map_some, hFound]
    dsimp only
    rw [hUrl', hBranch', hName]

end ModuleFile

/-! ## The listing -/

theorem rfind_eq_none_iff {needle : Bytes} (hNeedle : needle ≠ []) {view : Bytes} :
    rfind needle view = none ↔ ¬ needle <:+: view := by
  induction view with
  | nil =>
    rw [rfind, if_neg (fun hEmpty => hNeedle (List.isEmpty_iff.mp hEmpty)), List.infix_nil]
    exact iff_of_true rfl hNeedle
  | cons b view ih =>
    rw [rfind, List.infix_cons_iff, not_or, ← ih, ← startsWith_iff]
    cases rfind needle view with
    | some at_ => simp
    | none => simp

theorem rfind_lt {needle : Bytes} (hNeedle : needle ≠ []) {view : Bytes} {at_ : Nat}
    (h : rfind needle view = some at_) : at_ < view.length := by
  induction view generalizing at_ with
  | nil =>
    rw [rfind, if_neg (fun hEmpty => hNeedle (List.isEmpty_iff.mp hEmpty))] at h
    cases h
  | cons b view ih =>
    rw [rfind] at h
    rw [List.length_cons]
    cases hLater : rfind needle view with
    | some later =>
      rw [hLater] at h
      obtain rfl : later + 1 = at_ := Option.some.inj h
      exact Nat.succ_lt_succ (ih hLater)
    | none =>
      rw [hLater] at h
      dsimp only at h
      split at h
      · obtain rfl : 0 = at_ := Option.some.inj h
        exact Nat.succ_pos _
      · cases h

namespace StatusLine

/-- The path that the code takes from the line. -/
def cutPath (line : StatusLine) : Bytes :=
  match line.describe, rfind (ascii " (") line.path with
  | none, some paren => line.path.take paren
  | _, _ => line.path

theorem cutPath_eq_iff (line : StatusLine) :
    line.cutPath = line.path ↔ (line.describe = none → ¬ ascii " (" <:+: line.path) := by
  have hNeedle : ascii " (" ≠ [] := by decide
  rw [cutPath, ← rfind_eq_none_iff hNeedle]
  cases line.describe with
  | some text => simp
  | none =>
    cases hParen : rfind (ascii " (") line.path with
    | none => simp
    | some paren =>
      have hShort := rfind_lt hNeedle hParen
      refine iff_of_false (fun hSame => ?_) (by simp)
      have hLength := congrArg List.length hSame
      rw [List.length_take] at hLength
      omega

end StatusLine

theorem trimmed_text (line : StatusLine) : trimmed LF line.text = line.text := by
  have hFront : line.text = line.statusChar :: line.oid ++ [space] ++ (line.path ++ line.suffix) := by
    simp [StatusLine.text]
  have hSpace : (line.statusChar :: line.oid ++ [space]).getLast? ≠ some CR := by
    rw [List.getLast?_concat]
    decide
  have hKept : trimmed LF (line.path ++ line.suffix) = line.path ++ line.suffix := by
    rw [StatusLine.suffix]
    cases line.describe with
    | none =>
      dsimp only
      rw [List.append_nil, trimmed, if_neg fun hTrim => line.pathFree.2 hTrim.2]
    | some text =>
      have hClose : (line.path ++ (ascii " (" ++ text ++ ascii ")")).getLast? ≠ some CR := by
        have hLast : ascii ")" = [41] := by decide
        rw [hLast, ← List.append_assoc, List.getLast?_concat]
        decide
      dsimp only
      rw [trimmed, if_neg fun hTrim => hClose hTrim.2]
  rw [hFront, trimmed_append hSpace, hKept]

/-- A description has no blank, so the last ` (` is the one in front of it. -/
theorem rfind_describe (path : Bytes) {text : Bytes} (h : space ∉ text) :
    rfind (ascii " (") (path ++ (ascii " (" ++ text ++ ascii ")")) = some path.length := by
  have hInside : space ∉ 40 :: (text ++ [41]) := by
    rw [List.mem_cons, List.mem_append, not_or, not_or]
    exact ⟨by decide, h, by decide⟩
  have hHere : rfind (space :: [40]) (space :: 40 :: (text ++ [41])) = some 0 := by
    rw [rfind, rfind_eq_none hInside, startsWith_cons_cons, startsWith_cons_cons, startsWith_nil_right,
      beq_self_eq_true, beq_self_eq_true]
    rfl
  exact rfind_skip hHere

theorem stateOf_statusChar (line : StatusLine) : stateOf line.statusChar = line.state := by
  rw [StatusLine.statusChar]
  cases line.state <;> rfl

theorem readStatus_line (file : ModuleFile) (infos : List SubmoduleInfo) (line : StatusLine) :
    readStatus file.declared infos (trimmed LF line.text) = infos ++ [file.infoAt line line.cutPath] := by
  obtain ⟨hOid, hSpace, -⟩ := line.oidFree
  have hPath : (match rfind (ascii " (") (line.path ++ line.suffix) with
      | none => line.path ++ line.suffix
      | some paren => (line.path ++ line.suffix).take paren) = line.cutPath := by
    rw [StatusLine.cutPath, StatusLine.suffix]
    cases hDescribe : line.describe with
    | none =>
      dsimp only
      rw [List.append_nil]
      cases rfind (ascii " (") line.path <;> rfl
    | some text =>
      have hText := (line.describeFree text hDescribe).1
      dsimp only
      rw [rfind_describe line.path hText]
      exact List.take_left
  have hText : readStatus file.declared infos line.text = infos ++ [
      match file.declared line.cutPath with
      | some found =>
        { name := found.name, path := line.cutPath, url := found.url, branch := found.branch, headOid := line.oid,
          state := stateOf line.statusChar }
      | none =>
        { name := line.cutPath, path := line.cutPath, headOid := line.oid, state := stateOf line.statusChar }] := by
    rw [StatusLine.text]
    cases hFirst : line.oid with
    | nil => exact absurd hFirst hOid
    | cons b oid =>
      rw [hFirst] at hSpace
      rw [List.cons_append, readStatus, ← List.cons_append, find_byte hSpace]
      · dsimp only
        rw [drop_field, List.take_left, hPath]
      · simp
  rw [trimmed_text, hText, stateOf_statusChar, ModuleFile.infoAt]
  cases file.declared line.cutPath <;> rfl

variable {ρ : Type}

/-- What git prints of a `.gitmodules`; where there is no setting, it finds none and fails. -/
def ModuleFile.Answers (file : ModuleFile) : Except CommandError Bytes → Prop
  | .ok out => ∃ chunks, chunks.flatten = file.text ∧ out = ProcessRunner.buffered (records LF chunks)
  | .error _ => file.settings = []

namespace ModuleFile

theorem lines_eq (file : ModuleFile) :
    (file.sections.flatMap fun section_ => section_.attrs.map (ModuleSection.line section_.name)) =
      file.settings.map fun setting => ModuleSection.line setting.1 setting.2 := by
  rw [settings, List.map_flatMap]
  refine List.flatMap_congr fun section_ _ => ?_
  rw [List.map_map]
  rfl

theorem settings_plain {file : ModuleFile} {setting : Setting} (h : setting ∈ file.settings) :
    (space ∉ setting.1 ∧ LF ∉ setting.1) ∧
      (space ∉ setting.2.1 ∧ 46 ∉ setting.2.1 ∧ LF ∉ setting.2.1) ∧ EndsLine setting.2.2 := by
  obtain ⟨section_, -, hMem⟩ := List.mem_flatMap.mp h
  obtain ⟨attr, hAttr, rfl⟩ := List.mem_map.mp hMem
  exact ⟨section_.nameFree, section_.attrsFree attr hAttr⟩

theorem not_mem_line {file : ModuleFile} : ∀ line ∈ file.settings.map fun setting =>
    ModuleSection.line setting.1 setting.2, LF ∉ line := by
  rw [List.forall_mem_map]
  intro setting hSetting
  obtain ⟨⟨-, hName⟩, ⟨-, -, hAttr⟩, hValue, -⟩ := settings_plain hSetting
  have hPrefix : LF ∉ kPrefix := by decide
  have hDot : LF ≠ 46 := by decide
  have hSpace : LF ≠ space := by decide
  simp [ModuleSection.line, hPrefix, hName, hAttr, hValue, hDot, hSpace]

theorem foldl_readSetting {settings : List Setting} (maps : DeclaredMaps)
    (h : ∀ setting ∈ settings, (space ∉ setting.1 ∧ LF ∉ setting.1) ∧
      (space ∉ setting.2.1 ∧ 46 ∉ setting.2.1 ∧ LF ∉ setting.2.1) ∧ EndsLine setting.2.2) :
    (settings.map fun setting => ModuleSection.line setting.1 setting.2).foldl
        (fun maps line => readSetting maps (trimmed LF line)) maps =
      settings.foldl (fun maps setting => maps.set setting.1 setting.2.1 setting.2.2) maps := by
  induction settings generalizing maps with
  | nil => rfl
  | cons setting settings ih =>
    obtain ⟨⟨⟨hName, -⟩, ⟨hSpace, hDot, -⟩, hValue⟩, hMore⟩ := List.forall_mem_cons.mp h
    rw [List.map_cons, List.foldl_cons, List.foldl_cons, readSetting_line hName ⟨hSpace, hDot⟩ hValue]
    exact ih _ hMore

end ModuleFile

theorem readModules_eq {git : ProcessRunner ρ} {s : ρ} {file : ModuleFile}
    (hConfig : file.Answers (git s configCommand).1) :
    readModules git s true = (file.declared, (git s configCommand).2) := by
  have hHolds := holds_foldl file.settings
  rw [readModules, if_pos rfl]
  generalize git s configCommand = answered at hConfig ⊢
  obtain ⟨answer, s₁⟩ := answered
  cases answer with
  | error e =>
    have hNone : file.settings = [] := hConfig
    have hEmpty : Holds file.settings {} := by
      rw [hNone] at hHolds ⊢
      exact hHolds
    dsimp only
    rw [← funext fun path => ModuleFile.refreshed_eq hEmpty path]
    rfl
  | ok out =>
    obtain ⟨chunks, hChunks, rfl⟩ := hConfig
    rw [ModuleFile.text, ModuleFile.lines_eq] at hChunks
    dsimp only
    rw [foldl_buffered (fun _ => rfl) ModuleFile.not_mem_line hChunks,
      ModuleFile.foldl_readSetting _ fun _ => ModuleFile.settings_plain]
    exact congrArg (fun byPath => (byPath, s₁)) (funext (ModuleFile.refreshed_eq hHolds))

theorem not_mem_text (line : StatusLine) : LF ∉ line.text := by
  have hOid := line.oidFree.2.2
  have hPath := line.pathFree.1
  have hState : LF ≠ line.statusChar := by
    rw [StatusLine.statusChar]
    cases line.state <;> decide
  have hSpace : LF ≠ space := by decide
  have hSuffix : LF ∉ line.suffix := by
    have hOpen : LF ∉ ascii " (" := by decide
    have hClose : LF ∉ ascii ")" := by decide
    rw [StatusLine.suffix]
    cases hDescribe : line.describe with
    | none => exact List.not_mem_nil
    | some text =>
      have hText := (line.describeFree text hDescribe).2
      simp [hText, hOpen, hClose]
  simp [StatusLine.text, hState, hOid, hSpace, hPath, hSuffix]

/-- Every submodule is listed as it is exactly when no path without a description holds ` (`. -/
theorem submodules_exact_iff {git : ProcessRunner ρ} {s s' : ρ} (file : ModuleFile)
    (hConfig : file.Answers (git s configCommand).1) (status : List StatusLine) {chunks : List Bytes}
    (hChunks : chunks.flatten = Lines.join LF (status.map StatusLine.text))
    (hStatus : git (git s configCommand).2 statusCommand = (.ok (ProcessRunner.buffered (records LF chunks)), s')) :
    SubmoduleStore.list git s true = (.ok (status.map file.info), s') ↔
      ∀ line ∈ status, line.describe = none → ¬ ascii " (" <:+: line.path := by
  have hRead : ((ProcessRunner.buffered (records LF chunks)).splitOn LF).foldl (readStatus file.declared) [] =
      status.map fun line => file.infoAt line line.cutPath := by
    refine read_buffered (fun _ => rfl) (fun line _ => List.forall_mem_singleton.mpr (not_mem_text line)) ?_
      (hChunks.trans (congrArg _ List.map_eq_flatMap))
    exact fun line _ infos => readStatus_line file infos line
  have hListed : SubmoduleStore.list git s true = (.ok (status.map fun line => file.infoAt line line.cutPath), s') := by
    rw [SubmoduleStore.list, readModules_eq hConfig]
    dsimp only
    rw [hStatus]
    dsimp only
    rw [hRead]
  have hSame (line : StatusLine) : file.infoAt line line.cutPath = file.info line ↔ line.cutPath = line.path :=
    ⟨fun hInfo => congrArg SubmoduleInfo.path hInfo, fun hPath => by rw [hPath, ModuleFile.info]⟩
  rw [hListed, Prod.mk.injEq, Except.ok.injEq, List.map_inj_left, and_iff_left rfl]
  refine forall₂_congr fun line _ => ?_
  rw [hSame, StatusLine.cutPath_eq_iff]

def oldModule : ModuleFile where
  sections := [{
    name := ascii "old.lib"
    attrs := [(ascii "url", ascii "u"), (ascii "path", ascii "lib (old)")]
    nameFree := by decide
    attrsFree := by simp only [List.forall_mem_cons, EndsLine]; decide
    attrsNodup := by decide }]
  names := by simp
  paths := by simp

def oldLine : StatusLine where
  state := .notInitialized
  oid := ascii "1"
  path := ascii "lib (old)"
  oidFree := by decide
  pathFree := by rw [EndsLine]; decide
  describeFree := by simp
  initialized := fun _ => rfl

def oldModuleGit : ProcessRunner Unit := fun s command =>
  let text := if command = configCommand then oldModule.text else Lines.join LF [oldLine.text]
  (.ok (ProcessRunner.buffered (records LF [text])), s)

theorem submodules_exact_iff_old :
    SubmoduleStore.list oldModuleGit () true = (.ok ([oldLine].map oldModule.info), ()) ↔
      ∀ line ∈ [oldLine], line.describe = none → ¬ ascii " (" <:+: line.path := by
  have hConfig : oldModule.Answers (oldModuleGit () configCommand).1 := ⟨[oldModule.text], List.append_nil _, rfl⟩
  exact submodules_exact_iff oldModule hConfig [oldLine] (List.append_nil _) rfl

/-- A submodule that is not initialised has no description: its own parenthesis is cut off. -/
theorem submodules_cut_path :
    SubmoduleStore.list oldModuleGit () true ≠ (.ok ([oldLine].map oldModule.info), ()) := by
  decide +kernel

end GitBranchManager
