import GitBranchManager.Base.LineSplitter
import GitBranchManager.Library.Pieces

/-! # Output that is buffered whole

The process runner reads lines even of a command that ends its records in NUL, and puts them
together again. A carriage return before a line feed is gone then.
-/

namespace GitBranchManager

namespace ProcessRunner

/-- What `run` makes of the lines; the separator it added to the last one is taken away. -/
def buffered (lines : List Bytes) : Bytes :=
  let output := Library.Lines.join LF lines
  if output.getLast? = some LF then output.dropLast else output

end ProcessRunner

/-- The text without the carriage returns that line feeds follow. -/
def unixLines : Bytes → Bytes
  | [] => []
  | b :: text => if b = CR ∧ text.head? = some LF then unixLines text else b :: unixLines text

theorem unixLines_sublist (text : Bytes) : (unixLines text).Sublist text := by
  induction text with
  | nil => exact List.Sublist.refl []
  | cons b text ih =>
    rw [unixLines]
    split
    · exact ih.trans (List.sublist_cons_self b text)
    · exact ih.cons_cons b

theorem unixLines_kept {b : UInt8} {text : Bytes} (h : ¬ (b = CR ∧ text.head? = some LF)) :
    unixLines (b :: text) = b :: unixLines text := by
  rw [unixLines, if_neg h]

theorem unixLines_of_not_mem {text : Bytes} (h : LF ∉ text) : unixLines text = text := by
  induction text with
  | nil => rfl
  | cons b text ih =>
    obtain ⟨-, hText⟩ := not_or.mp (List.mem_cons.not.mp h)
    rw [unixLines_kept (fun hDrop => hText (List.mem_of_head? hDrop.2)), ih hText]

theorem unixLines_ne_nil {text : Bytes} (h : text ≠ []) : unixLines text ≠ [] := by
  induction text with
  | nil => exact absurd rfl h
  | cons b text ih =>
    rw [unixLines]
    split
    · rename_i hDrop
      apply ih
      rintro rfl
      cases hDrop.2
    · exact List.cons_ne_nil _ _

theorem unixLines_append {front : Bytes} (h : CR ∉ front) (text : Bytes) :
    unixLines (front ++ text) = front ++ unixLines text := by
  induction front with
  | nil => rfl
  | cons b front ih =>
    obtain ⟨hFirst, hFront⟩ := not_or.mp (List.mem_cons.not.mp h)
    rw [List.cons_append, unixLines_kept (fun hDrop => hFirst hDrop.1.symm), ih hFront, List.cons_append]

/-- What is not a line feed does not take a carriage return away. -/
theorem unixLines_sep {sep : UInt8} (hSep : sep ≠ LF) (hPlain : sep ≠ CR) (front text : Bytes) :
    unixLines (front ++ sep :: text) = unixLines front ++ sep :: unixLines text := by
  induction front with
  | nil => exact unixLines_kept fun hDrop => hPlain hDrop.1
  | cons b front ih =>
    have hHead : (front ++ sep :: text).head? = some LF ↔ front.head? = some LF := by
      cases front with
      | nil => simp [hSep]
      | cons c front => rfl
    by_cases hDrop : b = CR ∧ front.head? = some LF
    · rw [List.cons_append, unixLines, if_pos ⟨hDrop.1, hHead.mpr hDrop.2⟩, unixLines, if_pos hDrop]
      exact ih
    · rw [List.cons_append, unixLines_kept hDrop, unixLines_kept (fun h => hDrop ⟨h.1, hHead.mp h.2⟩), ih]
      rfl

theorem unixLines_join {sep : UInt8} (hSep : sep ≠ LF) (hPlain : sep ≠ CR) (fields : List Bytes) :
    unixLines (Library.Lines.join sep fields) = Library.Lines.join sep (fields.map unixLines) := by
  induction fields with
  | nil => rfl
  | cons field fields ih =>
    rw [Library.Lines.join_cons, unixLines_sep hSep hPlain, ih, List.map_cons, Library.Lines.join_cons]

theorem unixLines_line {line : Bytes} (h : LF ∉ line) (text : Bytes) :
    unixLines (line ++ LF :: text) = LineSplitter.trimmed LF line ++ LF :: unixLines text := by
  induction line with
  | nil => exact unixLines_kept fun hDrop => absurd hDrop.1 (by decide)
  | cons b line ih =>
    obtain ⟨-, hLine⟩ := not_or.mp (List.mem_cons.not.mp h)
    have hRest := ih hLine
    cases line with
    | nil =>
      by_cases hReturn : b = CR
      · subst hReturn
        exact hRest
      · have hKept : LineSplitter.trimmed LF [b] = [b] :=
          if_neg fun hTrim => hReturn (Option.some.inj hTrim.2)
        rw [List.cons_append, unixLines_kept (fun hDrop => hReturn hDrop.1), hRest, hKept]
        rfl
    | cons c line =>
      have hKept : ¬ (b = CR ∧ (c :: line ++ LF :: text).head? = some LF) := by
        rintro ⟨-, hHead⟩
        exact hLine (Option.some.inj hHead ▸ List.mem_cons_self)
      have hTrim : LineSplitter.trimmed LF (b :: c :: line) = b :: LineSplitter.trimmed LF (c :: line) := by
        rw [LineSplitter.trimmed, LineSplitter.trimmed, List.getLast?_cons_cons]
        split
        · rw [List.dropLast_cons_cons]
        · rfl
      rw [List.cons_append, unixLines_kept hKept, hRest, hTrim, List.cons_append]

theorem unixLines_lines {lines : List Bytes} (h : ∀ line ∈ lines, LF ∉ line) (rest : Bytes) :
    unixLines (Library.Lines.join LF lines ++ rest) =
      Library.Lines.join LF (lines.map (LineSplitter.trimmed LF)) ++ unixLines rest := by
  induction lines with
  | nil => rfl
  | cons line lines ih =>
    obtain ⟨hLine, hLines⟩ := List.forall_mem_cons.mp h
    rw [Library.Lines.join_cons, List.append_assoc, List.cons_append, unixLines_line hLine, ih hLines,
      List.map_cons, Library.Lines.join_cons, List.append_assoc, List.cons_append]

/-- Records that end in NUL lose these carriage returns, in whatever chunks they come. -/
theorem buffered_join {fields chunks : List Bytes} (hChunks : chunks.flatten = Library.Lines.join NUL fields) :
    ProcessRunner.buffered (LineSplitter.records LF chunks) = Library.Lines.join NUL (fields.map unixLines) := by
  have hLast : ∀ b ∈ (Library.Lines.join NUL fields).getLast?, b = NUL := by
    rcases List.eq_nil_or_concat' fields with rfl | ⟨front, field, rfl⟩
    · rintro b ⟨⟩
    · intro b hLast
      rw [Library.Lines.join_append, Library.Lines.join_cons, Library.Lines.join_nil] at hLast
      simpa using hLast.symm
  rw [← unixLines_join (by decide) (by decide), ← hChunks]
  rw [← hChunks] at hLast
  obtain ⟨hLines, hRest⟩ := Library.Lines.sep_not_mem_cut LF chunks.flatten
  have hText := Library.Lines.join_cut LF chunks.flatten
  rw [LineSplitter.records, LineSplitter.feedAll_eq _ List.not_mem_nil, List.nil_append]
  generalize Library.Lines.cut LF chunks.flatten = cut at hLines hRest hText
  obtain ⟨lines, rest⟩ := cut
  rw [← hText] at hLast ⊢
  rw [unixLines_lines hLines, unixLines_of_not_mem hRest, LineSplitter.finish]
  cases rest with
  | nil =>
    -- nothing was written then: the last byte would be a line feed
    rcases List.eq_nil_or_concat' lines with rfl | ⟨front, line, rfl⟩
    · rfl
    · have hEnd := hLast LF (by simp)
      cases hEnd
  | cons b rest =>
    have hEnd : (b :: rest).getLast? ≠ some CR := by
      intro hReturn
      have hSame := hLast CR (by simp [hReturn])
      cases hSame
    have hKept : LineSplitter.trimmed LF (b :: rest) = b :: rest := if_neg fun hTrim => hEnd hTrim.2
    have hOutput : Library.Lines.join LF (lines.map (LineSplitter.trimmed LF) ++ [b :: rest]) =
        Library.Lines.join LF (lines.map (LineSplitter.trimmed LF)) ++ (b :: rest) ++ [LF] := by
      rw [Library.Lines.join_append, Library.Lines.join_cons, Library.Lines.join_nil, List.append_assoc]
    simp only [List.isEmpty_cons, Bool.false_eq_true, if_false, hKept, ProcessRunner.buffered]
    rw [hOutput, List.getLast?_concat, if_pos rfl, List.dropLast_concat]

namespace LineSplitter

theorem trimmed_of_not_mem {line : Bytes} (h : CR ∉ line) : trimmed LF line = line :=
  if_neg fun hLine => h (List.mem_of_getLast? hLine.2)

/-- Only what a line ends with is cut. -/
theorem trimmed_append {front : Bytes} (h : front.getLast? ≠ some CR) (text : Bytes) :
    trimmed LF (front ++ text) = front ++ trimmed LF text := by
  rcases List.eq_nil_or_concat' text with rfl | ⟨text, b, rfl⟩
  · rw [trimmed_of_not_mem List.not_mem_nil, List.append_nil, trimmed, if_neg (fun hLine => h hLine.2)]
  · rw [trimmed, trimmed, ← List.append_assoc, List.getLast?_concat, List.getLast?_concat, List.dropLast_concat,
      List.dropLast_concat]
    split
    · rfl
    · rw [List.append_assoc]

theorem not_mem_trimmed {b : UInt8} {line : Bytes} (h : b ∉ line) : b ∉ trimmed LF line := by
  rw [trimmed]
  split
  · exact fun hMem => h (List.mem_of_mem_dropLast hMem)
  · exact h

end LineSplitter

/-- A parser that passes over blank lines sees each line without the carriage return at its end. -/
theorem foldl_buffered {σ : Type} {f : σ → Bytes → σ} (hBlank : ∀ s, f s [] = s) {lines chunks : List Bytes}
    (hLines : ∀ line ∈ lines, LF ∉ line) (hChunks : chunks.flatten = Library.Lines.join LF lines) (s : σ) :
    ((ProcessRunner.buffered (LineSplitter.records LF chunks)).splitOn LF).foldl f s =
      lines.foldl (fun s line => f s (LineSplitter.trimmed LF line)) s := by
  have hTrimmed : lines.foldl (fun s line => f s (LineSplitter.trimmed LF line)) s =
      (lines.map (LineSplitter.trimmed LF)).foldl f s := List.foldl_map.symm
  rw [LineSplitter.records_join hLines hChunks, hTrimmed]
  have hFree : ∀ line ∈ lines.map (LineSplitter.trimmed LF), LF ∉ line := by
    rw [List.forall_mem_map]
    exact fun line hLine => LineSplitter.not_mem_trimmed (hLines line hLine)
  generalize lines.map (LineSplitter.trimmed LF) = kept at hFree ⊢
  rcases List.eq_nil_or_concat' kept with rfl | ⟨front, last, rfl⟩
  · exact hBlank s
  · have hOutput : Library.Lines.join LF (front ++ [last]) = Library.Lines.join LF front ++ last ++ [LF] := by
      rw [Library.Lines.join_append, Library.Lines.join_cons, Library.Lines.join_nil, List.append_assoc]
    obtain ⟨hFront, hLast⟩ := List.forall_mem_append.mp hFree
    rw [ProcessRunner.buffered, hOutput, List.getLast?_concat, if_pos rfl, List.dropLast_concat,
      Library.Pieces.splitOn_join hFront (hLast last List.mem_cons_self)]

/-- A parser that adds each item when it has read the lines that show it reads all of them. -/
theorem read_buffered {α β : Type} {f : List β → Bytes → List β} (hBlank : ∀ out, f out [] = out)
    {lines : α → List Bytes} {item : α → β} {shown : List α} {chunks : List Bytes}
    (hLines : ∀ a ∈ shown, ∀ line ∈ lines a, LF ∉ line)
    (hItem : ∀ a ∈ shown, ∀ out, (lines a).foldl (fun out line => f out (LineSplitter.trimmed LF line)) out =
      out ++ [item a])
    (hChunks : chunks.flatten = Library.Lines.join LF (shown.flatMap lines)) :
    ((ProcessRunner.buffered (LineSplitter.records LF chunks)).splitOn LF).foldl f [] = shown.map item := by
  have hItems (out : List β) : (shown.flatMap lines).foldl (fun out line => f out (LineSplitter.trimmed LF line)) out =
      out ++ shown.map item := by
    clear hChunks hLines
    induction shown generalizing out with
    | nil => exact (List.append_nil out).symm
    | cons a shown ih =>
      obtain ⟨hFirst, hMore⟩ := List.forall_mem_cons.mp hItem
      rw [List.flatMap_cons, List.foldl_append, hFirst, ih hMore, List.map_cons, List.append_assoc,
        List.singleton_append]
  have hFree : ∀ line ∈ shown.flatMap lines, LF ∉ line := by
    intro line hLine
    obtain ⟨a, hShown, hMem⟩ := List.mem_flatMap.mp hLine
    exact hLines a hShown line hMem
  rw [foldl_buffered hBlank hFree hChunks, hItems, List.nil_append]

end GitBranchManager
