import Mathlib.Data.List.Basic

/-! # Streams that arrive in chunks

What is left of a stream is a list of chunks, none of them empty; a read takes no more than
the first chunk holds, and the end of the list is the end of the stream. Lines and counted
blocks come out the same however the stream was chopped.
-/

namespace Library.Chunks

variable {α : Type*}

def Live (chunks : List (List α)) : Prop := ∀ chunk ∈ chunks, chunk ≠ []

def readSome (count : Nat) : List (List α) → List α × List (List α)
  | [] => ([], [])
  | chunk :: chunks => (chunk.take count, if chunk.length ≤ count then chunks else chunk.drop count :: chunks)

/-- Reads until a separator; `left` bounds how much may be read. -/
def readLine [DecidableEq α] (sep : α) : Nat → List (List α) → Option (List α) × List (List α)
  | 0, chunks => (none, chunks)
  | left + 1, chunks =>
    match readSome 1 chunks with
    | ([], rest) => (none, rest)
    | (a :: _, rest) =>
      if a = sep then (some [], rest)
      else match readLine sep left rest with
        | (some line, rest) => (some (a :: line), rest)
        | (none, rest) => (none, rest)

/-- Reads `count` in pieces of at most `most`; every turn reads something, so that the count
is enough fuel. -/
def collect (most : Nat) : Nat → Nat → List (List α) → Option (List α) × List (List α)
  | fuel + 1, count + 1, chunks =>
    match readSome (min (count + 1) most) chunks with
    | ([], rest) => (none, rest)
    | (a :: got, rest) =>
      match collect most fuel (count - got.length) rest with
      | (some more, rest) => (some (a :: got ++ more), rest)
      | (none, rest) => (none, rest)
  | 0, _ + 1, chunks => (none, chunks)
  | _, 0, chunks => (some [], chunks)

theorem Live.eq_nil {chunks : List (List α)} (h : Live chunks) (hEnd : chunks.flatten = []) : chunks = [] := by
  cases chunks with
  | nil => rfl
  | cons chunk chunks =>
    rw [List.flatten_cons, List.append_eq_nil_iff] at hEnd
    exact absurd hEnd.1 (h chunk List.mem_cons_self)

/-- A read that finds something takes a front of the stream and leaves the rest. -/
theorem readSome_live {chunks : List (List α)} (h : Live chunks) (hSome : chunks ≠ []) {count : Nat}
    (hCount : 0 < count) :
    ∃ (a : α) (got : List α) (rest : List (List α)), readSome count chunks = (a :: got, rest) ∧
      Live rest ∧ chunks.flatten = a :: got ++ rest.flatten ∧ (a :: got).length ≤ count := by
  cases chunks with
  | nil => exact absurd rfl hSome
  | cons chunk chunks =>
    have hRest : Live chunks := fun other hOther => h other (List.mem_cons_of_mem _ hOther)
    cases chunk with
    | nil => exact absurd rfl (h [] List.mem_cons_self)
    | cons a chunk =>
      obtain ⟨count, rfl⟩ := Nat.exists_eq_add_of_lt hCount
      rw [Nat.zero_add] at *
      rw [readSome]
      by_cases hWhole : (a :: chunk).length ≤ count + 1
      · refine ⟨a, chunk, chunks, ?_, hRest, rfl, hWhole⟩
        rw [if_pos hWhole, List.take_of_length_le hWhole]
      · refine ⟨a, chunk.take count, chunk.drop count :: chunks, ?_, ?_, ?_, ?_⟩
        · rw [if_neg hWhole]
          rfl
        · refine List.forall_mem_cons.mpr ⟨?_, hRest⟩
          intro hNil
          have hLength := congrArg List.length hNil
          simp only [List.length_cons, List.length_drop, List.length_nil] at hWhole hLength
          omega
        · rw [List.flatten_cons, List.flatten_cons, List.cons_append, List.cons_append, ← List.append_assoc,
            List.take_append_drop]
        · simp only [List.length_cons, List.length_take]
          omega

section Lines

variable [DecidableEq α] {sep : α}

theorem readLine_line {left : Nat} {chunks : List (List α)} (h : Live chunks) {line rest : List α}
    (hLine : sep ∉ line) (hFlatten : chunks.flatten = line ++ sep :: rest) (hLength : line.length < left) :
    ∃ chunks', readLine sep left chunks = (some line, chunks') ∧ Live chunks' ∧ chunks'.flatten = rest := by
  induction left generalizing chunks line with
  | zero => exact absurd hLength (Nat.not_lt_zero _)
  | succ left ih =>
    have hSome : chunks ≠ [] := by
      rintro rfl
      simp at hFlatten
    obtain ⟨a, got, after, hRead, hAfter, hCut, hOne⟩ := readSome_live h hSome Nat.one_pos
    obtain rfl : got = [] := List.length_eq_zero_iff.mp (by simp only [List.length_cons] at hOne; omega)
    rw [hFlatten, List.singleton_append] at hCut
    rw [readLine, hRead]
    cases line with
    | nil =>
      obtain ⟨rfl, hRest⟩ := List.cons.inj hCut
      exact ⟨after, if_pos rfl, hAfter, hRest.symm⟩
    | cons b line =>
      obtain ⟨rfl, hTail⟩ := List.cons.inj hCut
      have hNot : b ≠ sep := fun hSep => hLine (hSep ▸ List.mem_cons_self)
      obtain ⟨chunks', hNext, hLive, hRest⟩ := ih hAfter (fun hMem => hLine (List.mem_cons_of_mem _ hMem))
        hTail.symm (Nat.lt_of_succ_lt_succ hLength)
      refine ⟨chunks', ?_, hLive, hRest⟩
      simp only [if_neg hNot, hNext]

/-- No line comes out of a stream that ends, or goes on past the bound, without a separator. -/
theorem readLine_none {left : Nat} {chunks : List (List α)} (h : Live chunks)
    (hNone : sep ∉ chunks.flatten.take left) : (readLine sep left chunks).1 = none := by
  induction left generalizing chunks with
  | zero => rfl
  | succ left ih =>
    by_cases hEnd : chunks = []
    · subst hEnd
      rfl
    · obtain ⟨a, got, after, hRead, hAfter, hCut, hOne⟩ := readSome_live h hEnd Nat.one_pos
      obtain rfl : got = [] := List.length_eq_zero_iff.mp (by simp only [List.length_cons] at hOne; omega)
      rw [hCut, List.singleton_append, List.take_succ_cons, List.mem_cons, not_or] at hNone
      have hNext := ih hAfter hNone.2
      rw [readLine, hRead]
      simp only [if_neg (Ne.symm hNone.1)]
      rcases hLine : readLine sep left after with ⟨_ | line, rest⟩
      · rfl
      · rw [hLine] at hNext
        cases hNext

end Lines

theorem collect_enough {most : Nat} (hMost : 0 < most) {fuel count : Nat} (hFuel : count ≤ fuel)
    {chunks : List (List α)} (h : Live chunks) {block rest : List α} (hBlock : block.length = count)
    (hFlatten : chunks.flatten = block ++ rest) :
    ∃ chunks', collect most fuel count chunks = (some block, chunks') ∧ Live chunks' ∧
      chunks'.flatten = rest := by
  induction fuel generalizing chunks count block with
  | zero =>
    obtain rfl := Nat.le_zero.mp hFuel
    obtain rfl := List.length_eq_zero_iff.mp hBlock
    exact ⟨chunks, rfl, h, hFlatten⟩
  | succ fuel ih =>
    cases count with
    | zero =>
      obtain rfl := List.length_eq_zero_iff.mp hBlock
      exact ⟨chunks, rfl, h, hFlatten⟩
    | succ count =>
      have hSome : chunks ≠ [] := by
        rintro rfl
        have hLength := congrArg List.length hFlatten
        simp only [List.flatten_nil, List.length_nil, List.length_append] at hLength
        omega
      obtain ⟨a, got, after, hRead, hAfter, hCut, hMany⟩ :=
        readSome_live h hSome (show 0 < min (count + 1) most by omega)
      have hGot : (a :: got).length ≤ block.length := by
        rw [hBlock]
        exact Nat.le_trans hMany (Nat.min_le_left _ _)
      rw [hFlatten] at hCut
      obtain ⟨left, rfl⟩ : a :: got <+: block :=
        List.prefix_of_prefix_length_le ⟨after.flatten, hCut.symm⟩ (List.prefix_append block rest) hGot
      have hLeft : left ++ rest = after.flatten := by
        rw [List.append_assoc] at hCut
        exact List.append_cancel_left hCut
      have hCount : left.length = count - got.length := by
        simp only [List.length_append, List.length_cons] at hBlock
        omega
      obtain ⟨chunks', hNext, hLive, hRest⟩ :=
        ih (by omega) hAfter hCount hLeft.symm
      refine ⟨chunks', ?_, hLive, hRest⟩
      rw [collect, hRead]
      simp only [hNext]

theorem collect_short {most fuel count : Nat} {chunks : List (List α)} (h : Live chunks)
    (hMost : 0 < most) (hShort : chunks.flatten.length < count) : (collect most fuel count chunks).1 = none := by
  induction fuel generalizing chunks count with
  | zero =>
    cases count with
    | zero => exact absurd hShort (Nat.not_lt_zero _)
    | succ count => rfl
  | succ fuel ih =>
    cases count with
    | zero => exact absurd hShort (Nat.not_lt_zero _)
    | succ count =>
      by_cases hEnd : chunks = []
      · subst hEnd
        rfl
      · obtain ⟨a, got, after, hRead, hAfter, hCut, hMany⟩ :=
          readSome_live h hEnd (show 0 < min (count + 1) most by omega)
        have hNext : (collect most fuel (count - got.length) after).1 = none := by
          refine ih hAfter ?_
          have hLength := congrArg List.length hCut
          simp only [List.length_append, List.length_cons] at hLength
          omega
        rw [collect, hRead]
        rcases hMore : collect most fuel (count - got.length) after with ⟨_ | more, rest⟩
        · simp only [hMore]
        · rw [hMore] at hNext
          cases hNext

end Library.Chunks
