import GitBranchManager.Library.Decimal
import Mathlib.Algebra.Ring.Nat
import Mathlib.Data.List.Infix

/-! # Byte strings and the `std::string_view` operations the core uses

A `std::string` is a list of bytes. A position that `find` or `rfind` answers with
`npos` is `none` here.
-/

namespace GitBranchManager

abbrev Bytes := List UInt8

def ascii (s : String) : Bytes := s.toList.map fun c => c.toNat.toUInt8

def TAB : UInt8 := 9
def LF : UInt8 := 10
def CR : UInt8 := 13
def space : UInt8 := 32
def plus : UInt8 := 43
def comma : UInt8 := 44
def minus : UInt8 := 45

def startsWith (view pre : Bytes) : Bool := pre.isPrefixOf view

def find (needle : Bytes) : Bytes → Option Nat
  | [] => if needle.isEmpty then some 0 else none
  | b :: view => if startsWith (b :: view) needle then some 0 else (find needle view).map (· + 1)

/-- `view.rfind(needle)`. -/
def rfind (needle : Bytes) : Bytes → Option Nat
  | [] => if needle.isEmpty then some 0 else none
  | b :: view =>
    match rfind needle view with
    | some at_ => some (at_ + 1)
    | none => if startsWith (b :: view) needle then some 0 else none

def uintToString (n : UInt32) : Bytes := Library.Decimal.numeral n.toNat

def intToString (n : Int32) : Bytes :=
  if n.toInt < 0 then ascii "-" ++ Library.Decimal.numeral n.toInt.natAbs
  else Library.Decimal.numeral n.toInt.natAbs

/-- `std::from_chars` into a zeroed `std::uint32_t`: a number that does not fit
leaves the zero in place. -/
def parseUint (text : Bytes) : UInt32 :=
  let value := Library.Decimal.read text
  if value < 2 ^ 32 then UInt32.ofNat value else 0

/-- `std::from_chars` into a zeroed signed integer, before its range is checked. -/
def signedValue : Bytes → Int
  | 45 :: digits => -(Library.Decimal.read digits : Int)
  | digits => Library.Decimal.read digits

def parseInt32 (text : Bytes) : Int32 :=
  let value := signedValue text
  if Int32.minValue.toInt ≤ value ∧ value ≤ Int32.maxValue.toInt then Int32.ofInt value else 0

def parseInt64 (text : Bytes) : Int64 :=
  let value := signedValue text
  if Int64.minValue.toInt ≤ value ∧ value ≤ Int64.maxValue.toInt then Int64.ofInt value else 0

theorem startsWith_iff {view pre : Bytes} : startsWith view pre = true ↔ pre <+: view := by
  rw [startsWith, List.isPrefixOf_iff_prefix]

@[simp] theorem startsWith_append (pre view : Bytes) : startsWith (pre ++ view) pre = true :=
  startsWith_iff.mpr (List.prefix_append pre view)

/-- Of two prefixes of one text, one starts with the other. -/
theorem startsWith_apart {head needle : Bytes} (hHead : startsWith needle head = false)
    (hNeedle : startsWith head needle = false) (text : Bytes) : startsWith (head ++ text) needle = false := by
  rw [Bool.eq_false_iff] at hHead hNeedle ⊢
  intro hStarts
  rcases List.prefix_or_prefix_of_prefix (startsWith_iff.mp hStarts) (List.prefix_append head text) with hPre | hPre
  · exact hNeedle (startsWith_iff.mpr hPre)
  · exact hHead (startsWith_iff.mpr hPre)

@[simp] theorem startsWith_nil_right (view : Bytes) : startsWith view [] = true := by
  simp [startsWith]

@[simp] theorem startsWith_cons_cons (b p : UInt8) (view pre : Bytes) :
    startsWith (b :: view) (p :: pre) = (p == b && startsWith view pre) := rfl

theorem find_of_startsWith {needle view : Bytes} (h : startsWith view needle = true) :
    find needle view = some 0 := by
  cases view with
  | nil =>
    cases needle with
    | nil => rfl
    | cons p pre => cases h
  | cons b view => rw [find, if_pos h]

theorem find_skip {p : UInt8} {needle front view : Bytes} (h : p ∉ front) :
    find (p :: needle) (front ++ view) =
      (find (p :: needle) view).map (· + front.length) := by
  induction front with
  | nil => simp
  | cons b front ih =>
    have hb : (p == b) = false := beq_eq_false_iff_ne.mpr fun he => h (he ▸ List.mem_cons_self)
    rw [List.cons_append, find, startsWith_cons_cons, hb, Bool.false_and,
      ih (fun hm => h (List.mem_cons_of_mem _ hm)), Option.map_map]
    simp only [Bool.false_eq_true, if_false, List.length_cons]
    congr 1

theorem rfind_eq_none {p : UInt8} {needle view : Bytes} (h : p ∉ view) :
    rfind (p :: needle) view = none := by
  induction view with
  | nil => rfl
  | cons b view ih =>
    have hb : (p == b) = false := beq_eq_false_iff_ne.mpr fun he => h (he ▸ List.mem_cons_self)
    simp only [rfind, ih (fun hm => h (List.mem_cons_of_mem _ hm)), startsWith_cons_cons, hb,
      Bool.false_and, Bool.false_eq_true, if_false]

theorem rfind_skip {needle front view : Bytes} {at_ : Nat} (h : rfind needle view = some at_) :
    rfind needle (front ++ view) = some (front.length + at_) := by
  induction front with
  | nil => simpa using h
  | cons b front ih =>
    simp only [List.cons_append, rfind, ih, List.length_cons, Option.some.injEq]
    omega

/-- The last of the bytes that `rfind` looks for. -/
theorem rfind_last {c : UInt8} {back : Bytes} (h : c ∉ back) (front : Bytes) :
    rfind [c] (front ++ c :: back) = some front.length := by
  have hHere : rfind [c] (c :: back) = some 0 := by
    rw [rfind, rfind_eq_none h, startsWith_cons_cons, startsWith_nil_right, beq_self_eq_true]
    rfl
  exact rfind_skip hHere

theorem find_byte {c : UInt8} {front : Bytes} (h : c ∉ front) (view : Bytes) :
    find [c] (front ++ c :: view) = some front.length := by
  rw [find_skip h, find_of_startsWith (by simp), Option.map_some, Nat.zero_add]

theorem drop_field (sep : UInt8) (front rest : Bytes) : (front ++ sep :: rest).drop (front.length + 1) = rest := by
  rw [← List.drop_drop, List.drop_left]
  rfl

theorem find_eq_none {needle view : Bytes} {b : UInt8} (hNeedle : b ∈ needle) (hView : b ∉ view) :
    find needle view = none := by
  have hNot (view : Bytes) (hView : b ∉ view) : startsWith view needle = false := by
    refine Bool.eq_false_iff.mpr fun hStarts => hView ?_
    exact (startsWith_iff.mp hStarts).subset hNeedle
  induction view with
  | nil =>
    have hSome : needle.isEmpty = false := by
      cases needle with
      | nil => cases hNeedle
      | cons p needle => rfl
    rw [find, hSome]
    rfl
  | cons c view ih =>
    rw [find, hNot _ hView, ih fun hMem => hView (List.mem_cons_of_mem _ hMem)]
    rfl

theorem signedValue_numeral (n : Nat) {rest : Bytes}
    (h : ∀ b ∈ rest.head?, Library.Decimal.isDigit b = false) :
    signedValue (Library.Decimal.numeral n ++ rest) = n := by
  obtain ⟨b, digits, hNumeral, hDigit⟩ := Library.Decimal.numeral_cons n
  have hRead := Library.Decimal.read_numeral n h
  rw [hNumeral, List.cons_append] at hRead ⊢
  rw [signedValue, hRead]
  rintro _ hSame
  rw [(List.cons.inj hSame).1] at hDigit
  cases hDigit

theorem parseInt64_numeral {n : Nat} (hFits : n < 2 ^ 63) {rest : Bytes}
    (h : ∀ b ∈ rest.head?, Library.Decimal.isDigit b = false) :
    parseInt64 (Library.Decimal.numeral n ++ rest) = Int64.ofInt n := by
  have hMin : Int64.minValue.toInt ≤ n := by
    have hNeg : Int64.minValue.toInt ≤ 0 := by decide
    omega
  have hMax : (n : Int) ≤ Int64.maxValue.toInt := by
    have hTop : Int64.maxValue.toInt = 2 ^ 63 - 1 := by decide
    omega
  rw [parseInt64, signedValue_numeral n h]
  exact if_pos ⟨hMin, hMax⟩

theorem parseUint_numeral (n : Nat) {rest : Bytes}
    (h : ∀ b ∈ rest.head?, Library.Decimal.isDigit b = false) :
    parseUint (Library.Decimal.numeral n ++ rest) = if n < 2 ^ 32 then UInt32.ofNat n else 0 := by
  simp only [parseUint, Library.Decimal.read_numeral n h]

/-! ## Dart strings

A `String` is the list of its code units.
-/

abbrev Utf16 := List UInt16

def utf16 (s : String) : Utf16 := s.toList.map fun c => c.toNat.toUInt16

/-- The code units that `trim` removes. -/
def isWhiteSpace (unit : UInt16) : Bool :=
  (9 ≤ unit && unit ≤ 13) || unit == 0x20 || unit == 0x85 || unit == 0xA0 || unit == 0x1680 ||
    (0x2000 ≤ unit && unit ≤ 0x200A) || unit == 0x2028 || unit == 0x2029 || unit == 0x202F || unit == 0x205F ||
    unit == 0x3000 || unit == 0xFEFF

def trim (text : Utf16) : Utf16 :=
  ((text.dropWhile isWhiteSpace).reverse.dropWhile isWhiteSpace).reverse

end GitBranchManager
