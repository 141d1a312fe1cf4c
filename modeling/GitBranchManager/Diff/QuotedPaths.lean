import GitBranchManager.Diff.UnifiedDiffParser
import Mathlib.Data.List.Flatten

/-! # Quoted paths

Git writes a path with unusual bytes between double quotes, in the escapes of C. The parser
reads the octal ones and five of the nine letters; `\a`, `\b`, `\v` and `\f` lose their
backslash only.
-/

namespace GitBranchManager.UnifiedDiffParser

def escapeLetter (b : UInt8) : Option UInt8 :=
  if b = 7 then some 97
  else if b = 8 then some 98
  else if b = 9 then some 116
  else if b = 10 then some 110
  else if b = 11 then some 118
  else if b = 12 then some 102
  else if b = 13 then some 114
  else if b = 34 ∨ b = 92 then some b
  else none

def octalDigits (b : UInt8) : Bytes := [48 + b / 64, 48 + b / 8 % 8, 48 + b % 8]

/-- A byte without a letter is written in octal where git does so, and as it is elsewhere. -/
def quoteByte (octalFor : UInt8 → Bool) (b : UInt8) : Bytes :=
  match escapeLetter b with
  | some letter => [92, letter]
  | none => if octalFor b then 92 :: octalDigits b else [b]

/-- The bytes git writes in octal, with `core.quotepath` on or off. -/
def gitOctal (quotepath : Bool) (b : UInt8) : Bool := b < 32 || b == 127 || (quotepath && 128 ≤ b)

def quotePath (octalFor : UInt8 → Bool) (path : Bytes) : Bytes :=
  34 :: path.flatMap (quoteByte octalFor) ++ [34]

/-- What the parser makes of a quoted byte. -/
def unquoted (b : UInt8) : UInt8 := ((escapeLetter b).map unescapeLetter).getD b

theorem isOctal_escapeLetter {b letter : UInt8} (h : escapeLetter b = some letter) : isOctal letter = false := by
  have hAll : ∀ n : Fin 256, (escapeLetter (UInt8.ofFin n)).all (fun letter => !isOctal letter) = true := by
    decide +kernel
  have hLetter := hAll b.toFin
  rw [UInt8.ofFin_toFin, h] at hLetter
  simpa using hLetter

theorem octal_octalDigits (b : UInt8) :
    (∀ digit ∈ octalDigits b, isOctal digit = true) ∧ octal (octalDigits b) = b := by
  have hDigits : ∀ n : Fin 256, (octalDigits (UInt8.ofFin n)).all isOctal = true := by decide +kernel
  have hValue : ∀ n : Fin 256, octal (octalDigits (UInt8.ofFin n)) = UInt8.ofFin n := by decide +kernel
  exact ⟨List.all_eq_true.mp (hDigits b.toFin), hValue b.toFin⟩

theorem unescape_letter {letter : UInt8} (h : isOctal letter = false) (rest : Bytes) :
    unescape (92 :: letter :: rest) = unescapeLetter letter :: unescape rest := by
  rw [unescape.eq_def]
  simp [h]

theorem unescape_octalDigits (b : UInt8) (rest : Bytes) :
    unescape (92 :: (octalDigits b ++ rest)) = b :: unescape rest := by
  obtain ⟨hDigits, hValue⟩ := octal_octalDigits b
  have hFirst := hDigits (48 + b / 64) (by simp [octalDigits])
  have hSecond := hDigits (48 + b / 8 % 8) (by simp [octalDigits])
  have hThird := hDigits (48 + b % 8) (by simp [octalDigits])
  rw [octalDigits, List.cons_append, List.cons_append, List.cons_append, List.nil_append, unescape,
    if_neg (fun hNe => hNe rfl)]
  simp only [hFirst, hSecond, hThird, Bool.not_true, Bool.false_eq_true, if_false]
  rw [← octalDigits, hValue]

theorem unescape_quoteByte (octalFor : UInt8 → Bool) (b : UInt8) (rest : Bytes) :
    unescape (quoteByte octalFor b ++ rest) = unquoted b :: unescape rest := by
  rw [quoteByte, unquoted]
  cases hLetter : escapeLetter b with
  | some letter => exact unescape_letter (isOctal_escapeLetter hLetter) rest
  | none =>
    have hPlain : b ≠ 92 := by
      rintro rfl
      cases hLetter
    dsimp only
    split
    · exact unescape_octalDigits b rest
    · rw [List.singleton_append, unescape.eq_def]
      simp only [if_pos hPlain]
      rfl

theorem unescape_quoted (octalFor : UInt8 → Bool) (path : Bytes) :
    unescape (path.flatMap (quoteByte octalFor)) = path.map unquoted := by
  induction path with
  | nil => rfl
  | cons b path ih => rw [List.flatMap_cons, unescape_quoteByte, ih, List.map_cons]

theorem unquotePath_quotePath (octalFor : UInt8 → Bool) (path : Bytes) :
    unquotePath (quotePath octalFor path) = path.map unquoted := by
  have hLength : ¬ (quotePath octalFor path).length < 2 := by
    simp [quotePath]
  have hHead : (quotePath octalFor path).head? = some 34 := rfl
  have hLast : (quotePath octalFor path).getLast? = some 34 := by
    rw [quotePath, List.cons_append, List.getLast?_cons, List.getLast?_concat]
    rfl
  have hInner : ((quotePath octalFor path).drop 1).dropLast = path.flatMap (quoteByte octalFor) := by
    rw [quotePath, List.cons_append, List.drop_one, List.tail_cons, List.dropLast_concat]
  rw [unquotePath, hHead, hLast, if_neg (by simp [hLength]), hInner, unescape_quoted]

theorem unquoted_eq_iff (b : UInt8) : unquoted b = b ↔ b ∉ [7, 8, 11, 12] := by
  have hAll : ∀ n : Fin 256, unquoted (UInt8.ofFin n) = UInt8.ofFin n ↔ UInt8.ofFin n ∉ [7, 8, 11, 12] := by
    decide +kernel
  exact hAll b.toFin

/-- A quoted path is read back exactly when it has no bell, backspace, vertical tab or form feed. -/
theorem quoted_path_read_back_iff (octalFor : UInt8 → Bool) (path : Bytes) :
    unquotePath (quotePath octalFor path) = path ↔ ∀ b ∈ path, b ∉ [7, 8, 11, 12] := by
  rw [unquotePath_quotePath]
  constructor
  · intro hPath b hMem
    rw [← unquoted_eq_iff]
    have hSame : path.map unquoted = path.map id := hPath.trans (List.map_id path).symm
    exact List.map_inj_left.mp hSame b hMem
  · intro hPlain
    calc
      path.map unquoted = path.map id :=
        List.map_congr_left fun b hMem => (unquoted_eq_iff b).mpr (hPlain b hMem)
      _ = path := List.map_id path

/-- `core.quotepath=false` does not keep git from quoting a bell. -/
theorem bell_path_misread :
    quotePath (gitOctal false) [98, 7, 99] = ascii "\"b\\ac\"" ∧
      unquotePath (quotePath (gitOctal false) [98, 7, 99]) = ascii "bac" ∧
      unquotePath (quotePath (gitOctal false) [98, 7, 99]) ≠ [98, 7, 99] := by
  decide

end GitBranchManager.UnifiedDiffParser
