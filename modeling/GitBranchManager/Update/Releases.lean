import GitBranchManager.Base.Bytes
import GitBranchManager.Library.Decimal
import GitBranchManager.Library.InsertionMap
import GitBranchManager.Library.Pieces
import Mathlib.Algebra.Ring.Nat
import Mathlib.Data.Bool.AllAny

/-! # Releases: versions, assets and the checksum manifest -/

namespace GitBranchManager

open Library

/-! ## Texts without white space around them -/

theorem trim_eq_self {text : Utf16} (hFirst : ∀ c ∈ text.head?, isWhiteSpace c = false)
    (hLast : ∀ c ∈ text.getLast?, isWhiteSpace c = false) : trim text = text := by
  have hDrop {units : Utf16} (h : ∀ c ∈ units.head?, isWhiteSpace c = false) : units.dropWhile isWhiteSpace = units := by
    cases units with
    | nil => rfl
    | cons c units => exact List.dropWhile_cons_of_neg (Bool.eq_false_iff.mp (h c rfl))
  rw [trim, hDrop hFirst, hDrop, List.reverse_reverse]
  rw [List.head?_reverse]
  exact hLast

theorem getLast?_trim (text : Utf16) : ∀ c ∈ (trim text).getLast?, isWhiteSpace c = false := by
  intro c hLast
  rw [trim, List.getLast?_reverse] at hLast
  have hNot := List.head?_dropWhile_not isWhiteSpace (text.dropWhile isWhiteSpace).reverse
  rw [hLast] at hNot
  simpa using hNot

/-! ## Versions -/

structure AppVersion where
  major : Nat
  minor : Nat
  patch : Nat
  preRelease : Utf16 := []
  deriving DecidableEq, Repr

namespace AppVersion

def dot : UInt16 := 46
def dash : UInt16 := 45
def vPrefix : UInt16 := 118

def isAsciiDigit (c : UInt16) : Bool := 0x30 ≤ c && c ≤ 0x39

/-- `int.tryParse` of digits: a number that does not fit is none. -/
def tryInt (digits : Utf16) : Option Nat :=
  let value := digits.foldl (fun v c => 10 * v + (c.toNat - 48)) 0
  if value < 2 ^ 63 then some value else none

def tryPart (part : Utf16) : Option Nat :=
  if part.isEmpty || !part.all isAsciiDigit then none else tryInt part

def tryCore (core preRelease : Utf16) : Option AppVersion :=
  match core.splitOn dot with
  | [major, minor, patch] =>
    match tryPart major, tryPart minor, tryPart patch with
    | some major, some minor, some patch => some { major, minor, patch, preRelease }
    | _, _, _ => none
  | _ => none

def withoutPrefix (trimmed : Utf16) : Utf16 := if trimmed.head? = some vPrefix then trimmed.tail else trimmed

def tryTrimmed (text : Utf16) : Option AppVersion :=
  if dash ∈ text then
    let preRelease := (text.dropWhile (· != dash)).tail
    if preRelease.isEmpty then none else tryCore (text.takeWhile (· != dash)) preRelease
  else tryCore text []

def tryParse (raw : Utf16) : Option AppVersion :=
  let trimmed := trim raw
  if trimmed.isEmpty then none else tryTrimmed (withoutPrefix trimmed)

def isPreRelease (version : AppVersion) : Bool := !version.preRelease.isEmpty

def compareTo (version other : AppVersion) : Ordering :=
  if version.major ≠ other.major then compare version.major other.major
  else if version.minor ≠ other.minor then compare version.minor other.minor
  else if version.patch ≠ other.patch then compare version.patch other.patch
  else if version.isPreRelease ≠ other.isPreRelease then if version.isPreRelease then .lt else .gt
  else compare version.preRelease other.preRelease

def numeral (n : Nat) : Utf16 := (Decimal.numeral n).map UInt8.toUInt16

def core (version : AppVersion) : Utf16 :=
  numeral version.major ++ dot :: (numeral version.minor ++ dot :: numeral version.patch)

def toString (version : AppVersion) : Utf16 :=
  if version.isPreRelease then version.core ++ dash :: version.preRelease else version.core

/-! ### The order of versions -/

theorem compareTo_eq : compareTo =
    compareLex (compareOn major) (compareLex (compareOn minor) (compareLex (compareOn patch)
      (compareLex (compareOn fun version => !version.isPreRelease) (compareOn preRelease)))) := by
  have hStep {α : Type} [Ord α] [DecidableEq α] [Std.LawfulEqOrd α] (x y : α) (rest : Ordering) :
      (compare x y).then rest = if x ≠ y then compare x y else rest := by
    by_cases hSame : x = y
    · rw [if_neg (not_not_intro hSame), hSame, Std.ReflOrd.compare_self]
      rfl
    · rw [if_pos hSame]
      cases hCompare : compare x y with
      | eq => exact absurd (Std.LawfulEqOrd.eq_of_compare hCompare) hSame
      | lt => rfl
      | gt => rfl
  funext version other
  simp only [compareTo, compareLex, compareOn, hStep]
  cases hVersion : version.isPreRelease with
  | false => cases hOther : other.isPreRelease <;> rfl
  | true => cases hOther : other.isPreRelease <;> rfl

instance : Std.TransCmp compareTo := by
  rw [compareTo_eq]
  infer_instance

instance : Std.LawfulEqCmp compareTo where
  eq_of_compare {version other} h := by
    rw [compareTo_eq] at h
    simp only [compareLex, compareOn, Ordering.then_eq_eq, Std.LawfulEqOrd.compare_eq_iff_eq] at h
    obtain ⟨hMajor, hMinor, hPatch, -, hPreRelease⟩ := h
    cases version
    cases other
    simp only at hMajor hMinor hPatch hPreRelease
    rw [hMajor, hMinor, hPatch, hPreRelease]

/-- Between a release and one of its pre-releases there are only pre-releases of it. -/
theorem between_preRelease {early middle release : AppVersion} (hEarly : early.isPreRelease = true)
    (hRelease : release.isPreRelease = false) (hMajor : early.major = release.major)
    (hMinor : early.minor = release.minor) (hPatch : early.patch = release.patch) :
    early.compareTo release = .lt ∧
      (early.compareTo middle = .lt → middle.compareTo release = .lt →
        middle.major = release.major ∧ middle.minor = release.minor ∧ middle.patch = release.patch ∧
          middle.isPreRelease = true) := by
  constructor
  · rw [compareTo, if_neg (not_not_intro hMajor), if_neg (not_not_intro hMinor), if_neg (not_not_intro hPatch)]
    rw [hEarly, hRelease]
    rfl
  · intro hAfter hBefore
    rw [compareTo_eq] at hAfter hBefore
    simp only [compareLex, compareOn, Ordering.then_eq_lt, Nat.compare_eq_lt, Nat.compare_eq_eq, hMajor, hMinor,
      hPatch, hEarly, hRelease] at hAfter hBefore
    have hWeaken {a b c d e f : Nat} {p : Prop} (h : a < b ∨ a = b ∧ (c < d ∨ c = d ∧ (e < f ∨ e = f ∧ p))) :
        a < b ∨ a = b ∧ (c < d ∨ c = d ∧ e ≤ f) := by
      refine h.imp_right (And.imp_right (Or.imp_right (And.imp_right ?_)))
      exact fun hLast => hLast.elim Nat.le_of_lt fun hSame => Nat.le_of_eq hSame.1
    have hSame : middle.major = release.major ∧ middle.minor = release.minor ∧ middle.patch = release.patch := by
      have hAbove := hWeaken hAfter
      have hBelow := hWeaken hBefore
      omega
    refine ⟨hSame.1, hSame.2.1, hSame.2.2, ?_⟩
    have hPlain {version : AppVersion} (h : version.isPreRelease = false) : version.preRelease = [] := by
      simpa [isPreRelease] using h
    cases hMiddle : middle.isPreRelease with
    | true => rfl
    | false =>
      simp [hSame, hMiddle, hPlain hMiddle, hPlain hRelease] at hBefore

/-! ### Printing and parsing -/

theorem toNat_toUInt16 (b : UInt8) : b.toUInt16.toNat = b.toNat := UInt8.toNat_toUInt16 b

theorem isAsciiDigit_of_mem {n : Nat} {c : UInt16} (h : c ∈ numeral n) : isAsciiDigit c = true := by
  obtain ⟨b, hMem, rfl⟩ := List.mem_map.mp h
  have hDigit := Decimal.isDigit_of_mem_numeral hMem
  simp only [Decimal.isDigit, Bool.and_eq_true, decide_eq_true_eq, UInt8.le_iff_toNat_le] at hDigit
  simp only [isAsciiDigit, Bool.and_eq_true, decide_eq_true_eq, UInt16.le_iff_toNat_le, toNat_toUInt16]
  exact hDigit

theorem not_mem_numeral {c : UInt16} (h : isAsciiDigit c = false) (n : Nat) : c ∉ numeral n := by
  intro hMem
  rw [isAsciiDigit_of_mem hMem] at h
  cases h

theorem numeral_cons (n : Nat) : ∃ c digits, numeral n = c :: digits ∧ isAsciiDigit c = true := by
  obtain ⟨b, digits, hNumeral, -⟩ := Decimal.numeral_cons n
  have hCons : numeral n = b.toUInt16 :: digits.map UInt8.toUInt16 := by rw [numeral, hNumeral, List.map_cons]
  exact ⟨_, _, hCons, isAsciiDigit_of_mem (hCons ▸ List.mem_cons_self)⟩

theorem tryPart_numeral {n : Nat} (hFits : n < 2 ^ 63) : tryPart (numeral n) = some n := by
  have hValue : (numeral n).foldl (fun v c => 10 * v + (c.toNat - 48)) 0 = n := by
    have hFold : (numeral n).foldl (fun v c => 10 * v + (c.toNat - 48)) 0 = Decimal.value (Decimal.numeral n) := by
      rw [numeral, List.foldl_map, Decimal.value]
      simp only [toNat_toUInt16]
    rw [hFold, Decimal.value_numeral]
  have hSome : (numeral n).isEmpty = false := by
    obtain ⟨c, digits, hCons, -⟩ := numeral_cons n
    rw [hCons]
    rfl
  have hDigits : (numeral n).all isAsciiDigit = true := List.all_eq_true.mpr fun c hMem => isAsciiDigit_of_mem hMem
  rw [tryPart, hSome, hDigits, if_neg (by decide), tryInt, hValue, if_pos hFits]

theorem lt_of_tryPart {part : Utf16} {n : Nat} (h : tryPart part = some n) : n < 2 ^ 63 := by
  rw [tryPart] at h
  split at h
  · cases h
  · rw [tryInt] at h
    split at h
    · next hFits =>
      cases h
      exact hFits
    · cases h

def Fits (version : AppVersion) : Prop := version.major < 2 ^ 63 ∧ version.minor < 2 ^ 63 ∧ version.patch < 2 ^ 63

theorem tryCore_core {version : AppVersion} (hFits : version.Fits) (preRelease : Utf16) :
    tryCore version.core preRelease = some { version with preRelease } := by
  have hDot (n : Nat) : dot ∉ numeral n := not_mem_numeral (by decide) n
  have hLines : version.core = Lines.join dot [numeral version.major, numeral version.minor] ++ numeral version.patch := by
    simp [core, Lines.join]
  have hSplit : version.core.splitOn dot = [numeral version.major, numeral version.minor, numeral version.patch] := by
    rw [hLines, Pieces.splitOn_join _ (hDot _)]
    · rfl
    · simp [hDot]
  rw [tryCore, hSplit]
  dsimp only
  rw [tryPart_numeral hFits.1, tryPart_numeral hFits.2.1, tryPart_numeral hFits.2.2]

theorem tryCore_some {text preRelease : Utf16} {version : AppVersion} (h : tryCore text preRelease = some version) :
    version.Fits ∧ version.preRelease = preRelease := by
  rw [tryCore] at h
  split at h
  · split at h
    · next hMajor hMinor hPatch =>
      cases h
      exact ⟨⟨lt_of_tryPart hMajor, lt_of_tryPart hMinor, lt_of_tryPart hPatch⟩, rfl⟩
    · cases h
  · cases h

/-- What a version that was read keeps of its text. -/
theorem tryTrimmed_some {text : Utf16} {version : AppVersion} (h : tryTrimmed text = some version) :
    version.Fits ∧ (version.preRelease = [] ∨ version.preRelease.getLast? = text.getLast?) := by
  rw [tryTrimmed] at h
  split at h
  · next hDash =>
    dsimp only at h
    split at h
    · cases h
    · next hSome =>
      obtain ⟨hFits, hPre⟩ := tryCore_some h
      refine ⟨hFits, Or.inr ?_⟩
      have hText : text = text.takeWhile (· != dash) ++ text.dropWhile (· != dash) :=
        List.takeWhile_append_dropWhile.symm
      cases hRest : text.dropWhile (· != dash) with
      | nil => simp [hRest] at hSome
      | cons c rest =>
        rw [hRest, List.tail_cons] at hSome hPre
        have hNonempty : rest ≠ [] := fun hNil => hSome (List.isEmpty_iff.mpr hNil)
        obtain ⟨d, more, rfl⟩ := List.exists_cons_of_ne_nil hNonempty
        rw [hPre, hText, hRest, List.getLast?_append_cons, List.getLast?_cons_cons]
  · obtain ⟨hFits, hPre⟩ := tryCore_some h
    exact ⟨hFits, Or.inl hPre⟩

theorem dash_not_mem_core (version : AppVersion) : dash ∉ version.core := by
  have hDash (n : Nat) : dash ∉ numeral n := not_mem_numeral (by decide) n
  have hDot : dash ≠ dot := by decide
  simp [core, hDash, hDot]

theorem tryTrimmed_toString {version : AppVersion} (hFits : version.Fits) :
    tryTrimmed version.toString = some version := by
  have hDash := dash_not_mem_core version
  rw [toString]
  split
  · next hPre =>
    have hStop : ∀ c ∈ version.core, (c != dash) = true := fun c hMem => bne_iff_ne.mpr (ne_of_mem_of_not_mem hMem hDash)
    have hSome : version.preRelease.isEmpty = false := by
      rw [isPreRelease, Bool.not_eq_true'] at hPre
      exact hPre
    have hDrop : (version.core ++ dash :: version.preRelease).dropWhile (· != dash) = dash :: version.preRelease := by
      rw [List.dropWhile_append_of_pos hStop]
      simp
    have hTake : (version.core ++ dash :: version.preRelease).takeWhile (· != dash) = version.core := by
      rw [List.takeWhile_append_of_pos hStop]
      simp
    rw [tryTrimmed, if_pos (by simp), hDrop, hTake]
    simp only [List.tail_cons, hSome, Bool.false_eq_true, if_false]
    exact tryCore_core hFits version.preRelease
  · next hPre =>
    have hNone : version.preRelease = [] := by
      rw [isPreRelease, Bool.not_eq_true'] at hPre
      simpa using hPre
    rw [tryTrimmed, if_neg hDash, tryCore_core hFits, ← hNone]

theorem isWhiteSpace_digit {c : UInt16} (h : isAsciiDigit c = true) : isWhiteSpace c = false := by
  rw [← Bool.not_eq_true]
  intro hBlank
  simp only [isAsciiDigit, isWhiteSpace, Bool.or_eq_true, Bool.and_eq_true, decide_eq_true_eq, beq_iff_eq,
    UInt16.le_iff_toNat_le, ← UInt16.toNat_inj, UInt16.reduceToNat] at h hBlank
  omega

theorem exists_core (version : AppVersion) : ∃ c front d, version.core = c :: (front ++ [d]) ∧
    isAsciiDigit c = true ∧ isAsciiDigit d = true := by
  obtain ⟨c, digits, hMajor, hFirst⟩ := numeral_cons version.major
  have hSome : numeral version.patch ≠ [] := by
    obtain ⟨d, more, hPatch, -⟩ := numeral_cons version.patch
    rw [hPatch]
    exact List.cons_ne_nil d more
  obtain ⟨front, d, hPatch⟩ := (List.eq_nil_or_concat' _).resolve_left hSome
  refine ⟨c, digits ++ dot :: (numeral version.minor ++ dot :: front), d, ?_, hFirst, ?_⟩
  · rw [core, hMajor, hPatch]
    simp
  · apply isAsciiDigit_of_mem (n := version.patch)
    rw [hPatch]
    simp

/-- A version that was read is printed as a text that is read as the same version, and so is its tag. -/
theorem tryParse_toString {raw : Utf16} {version : AppVersion} (h : tryParse raw = some version) :
    tryParse version.toString = some version ∧ tryParse (vPrefix :: version.toString) = some version := by
  have hRead : tryTrimmed (withoutPrefix (trim raw)) = some version := by
    rw [tryParse] at h
    split at h
    · cases h
    · exact h
  obtain ⟨hFits, hEnd⟩ := tryTrimmed_some hRead
  have hBlank : ∀ c ∈ version.preRelease.getLast?, isWhiteSpace c = false := by
    obtain hNone | hLast := hEnd
    · rw [hNone]
      exact fun _ hMem => absurd hMem (Option.not_mem_none _)
    · intro c hMem
      apply getLast?_trim raw
      rw [hLast, withoutPrefix] at hMem
      split at hMem
      · cases hTrim : trim raw with
        | nil =>
          rw [hTrim] at hMem
          cases hMem
        | cons d rest =>
          rw [hTrim, List.tail_cons] at hMem
          cases rest with
          | nil => cases hMem
          | cons e more => rwa [List.getLast?_cons_cons]
      · exact hMem
  obtain ⟨c, front, d, hCore, hFirst, hDigit⟩ := exists_core version
  have hHead : ∃ rest, version.toString = c :: rest := by
    rw [toString, hCore]
    split
    · exact ⟨_, rfl⟩
    · exact ⟨_, rfl⟩
  have hLast : ∀ e ∈ version.toString.getLast?, isWhiteSpace e = false := by
    rw [toString]
    split
    · next hPre =>
      cases hText : version.preRelease with
      | nil => simp [isPreRelease, hText] at hPre
      | cons e rest =>
        rw [hText] at hBlank
        rw [List.getLast?_append_cons, List.getLast?_cons_cons]
        exact hBlank
    · rw [hCore, ← List.cons_append, List.getLast?_concat]
      rintro e ⟨⟩
      exact isWhiteSpace_digit hDigit
  obtain ⟨rest, hText⟩ := hHead
  have hPrefix : c ≠ vPrefix := by
    rintro rfl
    exact absurd hFirst (by decide)
  constructor
  · have hTrim : trim version.toString = version.toString := by
      apply trim_eq_self _ hLast
      rw [hText]
      rintro e ⟨⟩
      exact isWhiteSpace_digit hFirst
    have hBare : withoutPrefix version.toString = version.toString := by
      rw [withoutPrefix, hText, List.head?_cons, if_neg fun hSame => hPrefix (Option.some.inj hSame)]
    rw [tryParse, hTrim, hBare, tryTrimmed_toString hFits, hText]
    rfl
  · have hTrim : trim (vPrefix :: version.toString) = vPrefix :: version.toString := by
      apply trim_eq_self
      · rintro e ⟨⟩
        rfl
      · rw [hText, List.getLast?_cons_cons, ← hText]
        exact hLast
    rw [tryParse, hTrim]
    exact tryTrimmed_toString hFits

theorem tryParse_toString_tag :
    tryParse (toString { major := 0, minor := 30, patch := 7, preRelease := utf16 "rc-1" }) =
        some { major := 0, minor := 30, patch := 7, preRelease := utf16 "rc-1" } ∧
      tryParse (vPrefix :: toString { major := 0, minor := 30, patch := 7, preRelease := utf16 "rc-1" }) =
        some { major := 0, minor := 30, patch := 7, preRelease := utf16 "rc-1" } :=
  tryParse_toString (by decide : tryParse (utf16 " v00.30.07-rc-1\n") = some _)

end AppVersion

/-! ## Assets -/

structure ReleaseAsset where
  name : Utf16
  downloadUrl : Utf16
  sizeBytes : Nat
  deriving DecidableEq, Repr

structure LatestRelease where
  version : AppVersion
  tagName : Utf16
  htmlUrl : Utf16
  notes : Utf16
  assets : List ReleaseAsset
  deriving DecidableEq, Repr

/-- The platforms that have a bundle, and any other. -/
inductive Abi
  | macosArm64
  | windowsX64
  | linuxX64
  | other
  deriving DecidableEq, Repr

def assetSuffixForAbi : Abi → Option Utf16
  | .macosArm64 => some (utf16 "-macos-arm64.dmg")
  | .windowsX64 => some (utf16 "-windows-x64.msi")
  | .linuxX64 => some (utf16 "-linux-x86_64.tar.gz")
  | .other => none

def selectAssetFor (assets : List ReleaseAsset) (abi : Abi) : Option ReleaseAsset :=
  match assetSuffixForAbi abi with
  | none => none
  | some suffix => assets.find? fun asset => suffix.isSuffixOf asset.name

def kChecksumManifestName : Utf16 := utf16 "sha256sums.txt"

def selectChecksumManifest (assets : List ReleaseAsset) : Option ReleaseAsset :=
  assets.find? fun asset => asset.name == kChecksumManifestName

/-! ## The checksum manifest -/

namespace ChecksumManifest

def carriageReturn : UInt16 := 13
def lineFeed : UInt16 := 10
def space : UInt16 := 32
def star : UInt16 := 42

/-- The lines of a text; a line feed after a carriage return ends no line of its own. -/
def lines (line : Utf16) (afterReturn : Bool) : Utf16 → List Utf16
  | [] => if line.isEmpty then [] else [line]
  | c :: rest =>
    if c = carriageReturn then line :: lines [] true rest
    else if c = lineFeed then if afterReturn then lines [] false rest else line :: lines [] false rest
    else lines (line ++ [c]) false rest

variable (toLowerCase : Utf16 → Utf16)

def entry (line : Utf16) : Option (Utf16 × Utf16) :=
  let trimmed := trim line
  if trimmed.isEmpty then none
  else if space ∉ trimmed ∨ trimmed.head? = some space then none
  else
    let digest := trimmed.takeWhile (· != space)
    let rest := trim (trimmed.dropWhile (· != space)).tail
    let name := if rest.head? = some star then rest.tail else rest
    if digest.length ≠ 64 ∨ name.isEmpty then none else some (name, toLowerCase digest)

def add (digests : InsertionMap Utf16 Utf16) (line : Utf16) : InsertionMap Utf16 Utf16 :=
  match entry toLowerCase line with
  | some (name, digest) => digests.put name digest
  | none => digests

def parseChecksumManifest (text : Utf16) : InsertionMap Utf16 Utf16 :=
  (lines [] false text).foldl (add toLowerCase) .empty

/-- A line as `sha256sum` writes it. -/
structure ManifestLine where
  digest : Utf16
  binary : Bool
  name : Utf16
  crlf : Bool
  deriving DecidableEq, Repr

def ManifestLine.text (line : ManifestLine) : Utf16 :=
  line.digest ++ space :: (if line.binary then star else space) :: line.name

def ManifestLine.terminator (line : ManifestLine) : Utf16 :=
  if line.crlf then [carriageReturn, lineFeed] else [lineFeed]

structure ManifestLine.WellFormed (line : ManifestLine) : Prop where
  digest_length : line.digest.length = 64
  digest_not_blank : ∀ c ∈ line.digest, isWhiteSpace c = false
  name_some : line.name ≠ []
  name_first : ∀ c ∈ line.name.head?, isWhiteSpace c = false
  name_last : ∀ c ∈ line.name.getLast?, isWhiteSpace c = false
  name_star : line.binary = false → line.name.head? ≠ some star
  name_line : carriageReturn ∉ line.name ∧ lineFeed ∉ line.name

def render (manifest : List ManifestLine) : Utf16 := manifest.flatMap fun line => line.text ++ line.terminator

section

variable {toLowerCase}

theorem lines_append {text : Utf16} (hText : carriageReturn ∉ text ∧ lineFeed ∉ text) (line rest : Utf16) :
    lines line false (text ++ rest) = lines (line ++ text) false rest := by
  induction text generalizing line with
  | nil => rw [List.nil_append, List.append_nil]
  | cons c text ih =>
    have hReturn := List.ne_of_not_mem_cons hText.1
    have hFeed := List.ne_of_not_mem_cons hText.2
    rw [List.cons_append, lines, if_neg (Ne.symm hReturn), if_neg (Ne.symm hFeed)]
    rw [ih ⟨List.not_mem_of_not_mem_cons hText.1, List.not_mem_of_not_mem_cons hText.2⟩, List.append_assoc]
    rfl

theorem lines_terminator (line : Utf16) (printed : ManifestLine) (rest : Utf16) :
    lines line false (printed.terminator ++ rest) = line :: lines [] false rest := by
  rw [ManifestLine.terminator]
  split
  · rfl
  · rfl

theorem ManifestLine.WellFormed.lines_text {line : ManifestLine} (h : line.WellFormed) :
    carriageReturn ∉ line.text ∧ lineFeed ∉ line.text := by
  have hDigest {c : UInt16} (hBlank : isWhiteSpace c = true) : c ∉ line.digest := by
    intro hMem
    rw [h.digest_not_blank c hMem] at hBlank
    cases hBlank
  have hMark {c : UInt16} (hSpace : c ≠ space) (hStar : c ≠ star) : c ≠ if line.binary then star else space := by
    split
    · exact hStar
    · exact hSpace
  constructor
  · simp only [ManifestLine.text, List.mem_append, List.mem_cons, not_or]
    exact ⟨hDigest (by decide), by decide, hMark (by decide) (by decide), h.name_line.1⟩
  · simp only [ManifestLine.text, List.mem_append, List.mem_cons, not_or]
    exact ⟨hDigest (by decide), by decide, hMark (by decide) (by decide), h.name_line.2⟩

theorem lines_render {manifest : List ManifestLine} (h : ∀ line ∈ manifest, line.WellFormed) :
    lines [] false (render manifest) = manifest.map ManifestLine.text := by
  induction manifest with
  | nil => rfl
  | cons line manifest ih =>
    obtain ⟨hLine, hRest⟩ := List.forall_mem_cons.mp h
    have hText : render (line :: manifest) = line.text ++ (line.terminator ++ render manifest) := by
      rw [render, List.flatMap_cons, List.append_assoc]
      rfl
    rw [hText, lines_append hLine.lines_text, List.nil_append, lines_terminator, ih hRest, List.map_cons]

theorem getLast?_cons_of_some {c d : UInt16} {text : Utf16} (h : text.getLast? = some d) :
    (c :: text).getLast? = some d := by
  cases text with
  | nil => cases h
  | cons e text => rwa [List.getLast?_cons_cons]

/-- A line that was written is read as its name and its digest. -/
theorem entry_text {line : ManifestLine} (h : line.WellFormed) :
    entry toLowerCase line.text = some (line.name, toLowerCase line.digest) := by
  obtain ⟨d, digest, hDigest⟩ : ∃ d digest, line.digest = d :: digest := by
    apply List.exists_cons_of_ne_nil
    intro hNone
    have hLength := h.digest_length
    rw [hNone] at hLength
    cases hLength
  obtain ⟨last, hLast⟩ : ∃ last, line.name.getLast? = some last :=
    Option.isSome_iff_exists.mp (List.getLast?_isSome.mpr h.name_some)
  have hSpaceOut : space ∉ line.digest := by
    intro hMem
    have hBlank := h.digest_not_blank space hMem
    revert hBlank
    decide
  have hFirst : isWhiteSpace d = false := h.digest_not_blank d (hDigest ▸ List.mem_cons_self)
  have hTrim : trim line.text = line.text := by
    apply trim_eq_self
    · rw [ManifestLine.text, hDigest]
      rintro e ⟨⟩
      exact hFirst
    · rw [ManifestLine.text, List.getLast?_append_cons, getLast?_cons_of_some (getLast?_cons_of_some hLast), ← hLast]
      exact h.name_last
  have hStop : ∀ c ∈ line.digest, (c != space) = true := fun c hMem => bne_iff_ne.mpr (ne_of_mem_of_not_mem hMem hSpaceOut)
  have hTake : line.text.takeWhile (· != space) = line.digest := by
    rw [ManifestLine.text, List.takeWhile_append_of_pos hStop]
    simp
  have hDrop : (line.text.dropWhile (· != space)).tail = (if line.binary then star else space) :: line.name := by
    rw [ManifestLine.text, List.dropWhile_append_of_pos hStop]
    simp
  have hName : (let rest := trim ((if line.binary then star else space) :: line.name)
      if rest.head? = some star then rest.tail else rest) = line.name := by
    cases hBinary : line.binary with
    | true =>
      have hKept : trim (star :: line.name) = star :: line.name := by
        apply trim_eq_self
        · rintro e ⟨⟩
          decide
        · rw [getLast?_cons_of_some hLast, ← hLast]
          exact h.name_last
      simp [hKept]
    | false =>
      have hKept : trim (space :: line.name) = line.name := by
        have hBlank : isWhiteSpace space = true := by decide
        have hSame : trim (space :: line.name) = trim line.name := by
          rw [trim, List.dropWhile_cons_of_pos hBlank]
          rfl
        rw [hSame]
        exact trim_eq_self h.name_first h.name_last
      simp [hKept, h.name_star hBinary]
  have hHasSpace : space ∈ line.text := by simp [ManifestLine.text]
  have hHead : line.text.head? ≠ some space := by
    rw [ManifestLine.text, hDigest, List.cons_append, List.head?_cons]
    rintro ⟨⟩
    revert hFirst
    decide
  have hNonempty : line.text.isEmpty = false := by simp [ManifestLine.text]
  have hSome : line.name.isEmpty = false := by simpa using h.name_some
  rw [entry, hTrim, hNonempty, if_neg Bool.false_ne_true, if_neg (by simp [hHasSpace, hHead]), hTake, hDrop]
  simp only [hName, h.digest_length, hSome]
  rfl

end

end ChecksumManifest

end GitBranchManager
