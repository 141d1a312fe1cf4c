import GitBranchManager.Diff.ParserSteps

/-! # Range lines

The line `@@ -a,b +c,d @@ heading` that opens a hunk, and what `hunkHeader` reads from
it: each number through `parseUint`, the heading without the spaces in front of it.
-/

namespace GitBranchManager.UnifiedDiffParser

/-- One side of a range line. A count of one may be left out. -/
structure Range where
  start : Nat
  count : Nat
  omitted : Bool
  omitted_one : omitted = true → count = 1

def Range.full (start count : Nat) : Range := ⟨start, count, false, fun h => by cases h⟩

def Range.bytes (range : Range) : Bytes :=
  Library.Decimal.numeral range.start ++
    if range.omitted then [] else comma :: Library.Decimal.numeral range.count

/-- `@@ -a,b +c,d @@`, and what follows on the line. -/
structure RangeLine where
  old : Range
  new : Range
  tail : Bytes

def RangeLine.bytes (line : RangeLine) : Bytes :=
  ascii "@@ -" ++ (line.old.bytes ++ (ascii " +" ++ (line.new.bytes ++ (ascii " @@" ++ line.tail))))

def number (n : Nat) : UInt32 := if n < 2 ^ 32 then UInt32.ofNat n else 0

def RangeLine.parsed (line : RangeLine) : DiffHunk where
  oldStart := number line.old.start
  oldCount := number line.old.count
  newStart := number line.new.start
  newCount := number line.new.count
  heading := line.tail.dropWhile (· = space)

theorem parseUint_range (n : Nat) {rest : Bytes}
    (h : ∀ b ∈ rest.head?, Library.Decimal.isDigit b = false) :
    parseUint (Library.Decimal.numeral n ++ rest) = number n :=
  parseUint_numeral n h

theorem not_mem_range {range : Range} {b : UInt8} (hDigit : Library.Decimal.isDigit b = false)
    (hComma : b ≠ comma) : b ∉ range.bytes := by
  rw [Range.bytes, List.mem_append, not_or]
  refine ⟨Library.Decimal.not_mem_numeral _ hDigit, ?_⟩
  split
  · exact List.not_mem_nil
  · simp only [List.mem_cons, not_or]
    exact ⟨hComma, Library.Decimal.not_mem_numeral _ hDigit⟩

theorem idxOf?_skip {b : UInt8} {front rest : Bytes} (h : b ∉ front) :
    (front ++ b :: rest).idxOf? b = some front.length := by
  induction front with
  | nil => simp [List.idxOf?_cons]
  | cons c front ih =>
    simp only [List.mem_cons, not_or] at h
    rw [List.cons_append, List.idxOf?_cons, ih h.2]
    simp [Ne.symm h.1]

theorem takeWhile_range (range : Range) (rest : Bytes) :
    (range.bytes ++ space :: rest).takeWhile (· ≠ space) = range.bytes := by
  rw [List.takeWhile_append_of_pos]
  · simp
  · intro b hb
    simp only [ne_eq, decide_not, Bool.not_eq_true', decide_eq_false_iff_not]
    rintro rfl
    exact not_mem_range (by decide) (by decide) hb

theorem parseUint_whole (n : Nat) : parseUint (Library.Decimal.numeral n) = number n := by
  have hNumeral : parseUint (Library.Decimal.numeral n ++ []) = number n :=
    parseUint_range n (by simp)
  rwa [List.append_nil] at hNumeral

theorem drop_skip (front rest : Bytes) (b : UInt8) :
    (front ++ b :: rest).drop (front.length + 1) = rest := by
  rw [← List.singleton_append, ← List.append_assoc]
  exact List.drop_left' (by simp)

theorem readRange_bytes (sign : UInt8) {front rest : Bytes} (hFront : sign ∉ front) (range : Range) :
    readRange sign (front ++ sign :: (range.bytes ++ space :: rest)) =
      some ((number range.start, number range.count), space :: rest) := by
  have hTail : (range.bytes ++ space :: rest).drop range.bytes.length = space :: rest :=
    List.drop_left
  rw [readRange, idxOf?_skip hFront]
  simp only [drop_skip, takeWhile_range, hTail, Option.some.injEq, Prod.mk.injEq, and_true]
  cases hOmitted : range.omitted with
  | true =>
    have hBytes : range.bytes = Library.Decimal.numeral range.start := by
      simp [Range.bytes, hOmitted]
    have hComma : range.bytes.idxOf? comma = none := by
      rw [List.idxOf?_eq_none_iff, hBytes]
      exact Library.Decimal.not_mem_numeral _ (by decide)
    rw [hComma, hBytes]
    dsimp only
    rw [parseUint_whole, range.omitted_one hOmitted]
    rfl
  | false =>
    have hBytes : range.bytes =
        Library.Decimal.numeral range.start ++ comma :: Library.Decimal.numeral range.count := by
      simp [Range.bytes, hOmitted]
    have hComma : range.bytes.idxOf? comma = some (Library.Decimal.numeral range.start).length := by
      rw [hBytes]
      exact idxOf?_skip (Library.Decimal.not_mem_numeral _ (by decide))
    rw [hComma, hBytes]
    dsimp only
    rw [drop_skip, List.take_left, parseUint_whole, parseUint_whole]

theorem readRange_none {sign : UInt8} {ranges : Bytes} (h : sign ∉ ranges) :
    readRange sign ranges = none := by
  rw [readRange, List.idxOf?_eq_none_iff.mpr h]

def RangeLine.ranges (line : RangeLine) : Bytes :=
  [space] ++ minus :: (line.old.bytes ++ space :: ([plus] ++ (line.new.bytes ++ [space])))

theorem bytes_eq_ranges (line : RangeLine) :
    line.bytes = ascii "@@" ++ (line.ranges ++ (ascii "@@" ++ line.tail)) := by
  simp [RangeLine.bytes, RangeLine.ranges, ascii, space, minus, plus]

theorem find_closing (line : RangeLine) :
    find (ascii "@@") (line.ranges ++ (ascii "@@" ++ line.tail)) =
      some line.ranges.length := by
  have hNotAt : (64 : UInt8) ∉ line.ranges := by
    have hOld : (64 : UInt8) ∉ line.old.bytes := not_mem_range (by decide) (by decide)
    have hNew : (64 : UInt8) ∉ line.new.bytes := not_mem_range (by decide) (by decide)
    simp [RangeLine.ranges, hOld, hNew, space, minus, plus]
  have hSkip : find (64 :: [64]) (line.ranges ++ (ascii "@@" ++ line.tail)) =
      (find (64 :: [64]) (ascii "@@" ++ line.tail)).map (· + line.ranges.length) := find_skip hNotAt
  have hHere : find [64, 64] (ascii "@@" ++ line.tail) = some 0 :=
    find_of_startsWith (startsWith_append (ascii "@@") _)
  rw [hHere] at hSkip
  exact hSkip.trans (by simp)

theorem lastRange_old (line : RangeLine) :
    lastRange minus (line.ranges.length + 1) line.ranges (0, 0) =
      (number line.old.start, number line.old.count) := by
  have hFirst : readRange minus line.ranges =
      some ((number line.old.start, number line.old.count),
        space :: ([plus] ++ (line.new.bytes ++ [space]))) :=
    readRange_bytes minus (by decide) line.old
  have hSecond : readRange minus (space :: ([plus] ++ (line.new.bytes ++ [space]))) = none := by
    have hNew : minus ∉ line.new.bytes := not_mem_range (by decide) (by decide)
    have hSpace : minus ≠ space := by decide
    have hPlus : minus ≠ plus := by decide
    exact readRange_none (by simp [hNew, hSpace, hPlus])
  obtain ⟨n, hn⟩ : ∃ n, line.ranges.length + 1 = n + 2 :=
    ⟨line.ranges.length - 1, by simp [RangeLine.ranges]⟩
  rw [hn, lastRange, hFirst]
  dsimp only
  rw [lastRange, hSecond]

theorem readRange_new (line : RangeLine) :
    readRange plus line.ranges = some ((number line.new.start, number line.new.count), [space]) := by
  have hFront : plus ∉ [space] ++ minus :: (line.old.bytes ++ [space]) := by
    have hOld : plus ∉ line.old.bytes := not_mem_range (by decide) (by decide)
    have hSpace : plus ≠ space := by decide
    have hMinus : plus ≠ minus := by decide
    simp [hOld, hSpace, hMinus]
  have hRanges : line.ranges = ([space] ++ minus :: (line.old.bytes ++ [space])) ++
      plus :: (line.new.bytes ++ [space]) := by
    simp [RangeLine.ranges]
  rw [hRanges]
  exact readRange_bytes plus hFront line.new

theorem hunkHeader_bytes (line : RangeLine) :
    hunkHeader line.bytes = some line.parsed := by
  have hDrop : line.bytes.drop 2 = line.ranges ++ (ascii "@@" ++ line.tail) := by
    rw [bytes_eq_ranges]
    rfl
  have hRest : line.bytes.drop (2 + line.ranges.length + 2) = line.tail := by
    have hLine : line.bytes = (ascii "@@" ++ line.ranges ++ ascii "@@") ++ line.tail := by
      rw [bytes_eq_ranges]
      simp only [List.append_assoc]
    rw [hLine]
    exact List.drop_left' (by simp [ascii]; omega)
  rw [hunkHeader, hDrop, find_closing]
  simp only [List.take_left, lastRange_old, readRange_new, hRest, Option.map_some, Option.getD_some, RangeLine.parsed]

end GitBranchManager.UnifiedDiffParser
