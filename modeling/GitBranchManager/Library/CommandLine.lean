import GitBranchManager.Library.Joined
import Mathlib.Data.List.DropRight
import Mathlib.Data.List.Forall2
import Mathlib.Data.Nat.Basic

/-! # Command lines that are split into arguments

A program that is given one line reads its arguments back from it. White space ends an argument outside of
quotes, and backslashes count only before a quote: two stand for one there, and an odd one makes the quote a
character. Two quotes at the end of a quoted part are a character too; whether the part goes on after them is
where readers differ.
-/

namespace Library.CommandLine

structure Signs (α : Type*) where
  quote : α
  backslash : α
  blank : α → Bool
  quote_ne_backslash : quote ≠ backslash
  quote_not_blank : blank quote = false
  backslash_not_blank : blank backslash = false

inductive Mode
  | plain
  | quoted
  | closed
  deriving DecidableEq, Repr

/-- An argument that is being read: backslashes are held back until what follows them is seen. -/
structure Reading (α : Type*) where
  mode : Mode
  backslashes : Nat
  text : List α
  deriving DecidableEq, Repr

variable {α : Type*} [DecidableEq α] (s : Signs α)

def Reading.start : Reading α := { mode := .plain, backslashes := 0, text := [] }

def Reading.taken (reading : Reading α) : List α :=
  reading.text ++ List.replicate reading.backslashes s.backslash

/-- A quote, with the backslashes before it; `after` is the mode after two quotes. -/
def Reading.takeQuote (after : Mode) (reading : Reading α) : Reading α :=
  let text := reading.text ++ List.replicate (reading.backslashes / 2) s.backslash
  if reading.backslashes % 2 = 1 then { mode := reading.mode, backslashes := 0, text := text ++ [s.quote] }
  else
    match reading.mode with
    | .plain => { mode := .quoted, backslashes := 0, text }
    | .quoted => { mode := .closed, backslashes := 0, text }
    | .closed => { mode := after, backslashes := 0, text := text ++ [s.quote] }

def Mode.afterCharacter : Mode → Mode
  | .quoted => .quoted
  | _ => .plain

def Reading.step (after : Mode) (reading : Reading α) (c : α) : Reading α :=
  if c = s.backslash then
    { mode := reading.mode.afterCharacter, backslashes := reading.backslashes + 1, text := reading.text }
  else if c = s.quote then reading.takeQuote s after
  else { mode := reading.mode.afterCharacter, backslashes := 0, text := reading.taken s ++ [c] }

/-- The arguments of a line; `none` is between two of them. -/
def split (after : Mode) : Option (Reading α) → List α → List (List α)
  | none, [] => []
  | some reading, [] => [reading.taken s]
  | none, c :: rest =>
    if s.blank c then split after none rest else split after (some (Reading.start.step s after c)) rest
  | some reading, c :: rest =>
    if s.blank c = true ∧ reading.mode ≠ .quoted then reading.taken s :: split after none rest
    else split after (some (reading.step s after c)) rest

/-- The name of the program, where backslashes mean nothing, and the line after it. -/
def programName (inQuotes : Bool) : List α → List α × List α
  | [] => ([], [])
  | c :: rest =>
    if c = s.quote then programName (!inQuotes) rest
    else if s.blank c = true ∧ inQuotes = false then ([], c :: rest)
    else ((c :: (programName inQuotes rest).1), (programName inQuotes rest).2)

/-- The program's own arguments, its name first. -/
def arguments (after : Mode) (line : List α) : List (List α) :=
  (programName s false line).1 :: split s after none (programName s false line).2

/-! ## Writing an argument -/

/-- An argument between quotes; `k` backslashes are written just before it. -/
def escaped (k : Nat) : List α → List α
  | [] => List.replicate k s.backslash
  | c :: rest =>
    if c = s.backslash then c :: escaped (k + 1) rest
    else if c = s.quote then List.replicate (k + 1) s.backslash ++ c :: escaped 0 rest
    else c :: escaped 0 rest

def quotedArgument (argument : List α) : List α := s.quote :: escaped s 0 argument ++ [s.quote]

/-- What is written is read as one argument, at the end of a line and before white space. -/
structure Written (after : Mode) (written argument : List α) : Prop where
  at_end : split s after none written = [argument]
  before_blank : ∀ c rest, s.blank c = true →
    split s after none (written ++ c :: rest) = argument :: split s after none rest

/-! ## Reading -/

section

variable {s} {after : Mode}

@[simp] theorem afterCharacter_quoted : Mode.quoted.afterCharacter = .quoted := rfl

@[simp] theorem afterCharacter_plain : Mode.plain.afterCharacter = .plain := rfl

theorem split_none_blank {c : α} (hBlank : s.blank c = true) (rest : List α) :
    split s after none (c :: rest) = split s after none rest := by
  rw [split, if_pos hBlank]

theorem split_none_of_not_blank {c : α} (hBlank : s.blank c = false) (rest : List α) :
    split s after none (c :: rest) = split s after (some (Reading.start.step s after c)) rest := by
  rw [split, if_neg (by rw [hBlank]; exact Bool.false_ne_true)]

theorem split_some_of_not_blank {c : α} (hBlank : s.blank c = false) (reading : Reading α) (rest : List α) :
    split s after (some reading) (c :: rest) = split s after (some (reading.step s after c)) rest := by
  rw [split, if_neg]
  intro h
  rw [hBlank] at h
  exact Bool.false_ne_true h.1

theorem split_quoted {reading : Reading α} (hMode : reading.mode = .quoted) (c : α) (rest : List α) :
    split s after (some reading) (c :: rest) = split s after (some (reading.step s after c)) rest := by
  rw [split, if_neg]
  intro h
  exact h.2 hMode

theorem split_ends {c : α} (hBlank : s.blank c = true) {reading : Reading α} (hMode : reading.mode ≠ .quoted)
    (rest : List α) : split s after (some reading) (c :: rest) = reading.taken s :: split s after none rest := by
  rw [split, if_pos ⟨hBlank, hMode⟩]

theorem step_backslash (reading : Reading α) : reading.step s after s.backslash =
    { mode := reading.mode.afterCharacter, backslashes := reading.backslashes + 1, text := reading.text } := by
  rw [Reading.step, if_pos rfl]

theorem step_quote (reading : Reading α) : reading.step s after s.quote = reading.takeQuote s after := by
  rw [Reading.step, if_neg s.quote_ne_backslash, if_pos rfl]

theorem step_character {c : α} (hBackslash : c ≠ s.backslash) (hQuote : c ≠ s.quote) (reading : Reading α) :
    reading.step s after c =
      { mode := reading.mode.afterCharacter, backslashes := 0, text := reading.taken s ++ [c] } := by
  rw [Reading.step, if_neg hBackslash, if_neg hQuote]

theorem split_backslashes (k j : Nat) (text rest : List α) :
    split s after (some { mode := .quoted, backslashes := j, text })
        (List.replicate k s.backslash ++ rest) =
      split s after (some { mode := .quoted, backslashes := j + k, text }) rest := by
  induction k generalizing j with
  | zero => rfl
  | succ k ih =>
    rw [List.replicate_succ, List.cons_append, split_quoted rfl, step_backslash]
    rw [afterCharacter_quoted, ih]
    have hCount : j + 1 + k = j + (k + 1) := by omega
    rw [hCount]

/-- A quoted part is read back, and the quote after it closes it. -/
theorem split_escaped (argument : List α) (k : Nat) (text rest : List α) :
    split s after (some { mode := .quoted, backslashes := k, text })
        (escaped s k argument ++ s.quote :: rest) =
      split s after (some { mode := .closed, backslashes := 0
                            text := text ++ List.replicate k s.backslash ++ argument }) rest := by
  induction argument generalizing k text with
  | nil =>
    have hEven : (k + k) % 2 ≠ 1 := by omega
    have hHalf : (k + k) / 2 = k := by omega
    rw [escaped, split_backslashes, split_quoted rfl, step_quote]
    simp only [Reading.takeQuote, if_neg hEven, hHalf, List.append_nil]
  | cons c argument ih =>
    rw [escaped]
    by_cases hBackslash : c = s.backslash
    · subst hBackslash
      rw [if_pos rfl, List.cons_append, split_quoted rfl, step_backslash, afterCharacter_quoted, ih]
      rw [List.replicate_succ', List.append_assoc, List.append_assoc, List.append_assoc]
      rfl
    · rw [if_neg hBackslash]
      by_cases hQuote : c = s.quote
      · subst hQuote
        have hOdd : (k + (k + 1)) % 2 = 1 := by omega
        have hHalf : (k + (k + 1)) / 2 = k := by omega
        rw [if_pos rfl, List.append_assoc, split_backslashes, List.cons_append, split_quoted rfl, step_quote]
        simp only [Reading.takeQuote, if_pos hOdd, hHalf]
        rw [ih, List.replicate_zero, List.append_nil, List.append_assoc]
        rfl
      · rw [if_neg hQuote, List.cons_append, split_quoted rfl, step_character hBackslash hQuote]
        rw [afterCharacter_quoted, ih, List.replicate_zero, List.append_nil, List.append_assoc]
        rfl

variable (after) in
theorem split_quotedArgument (argument rest : List α) :
    split s after none (quotedArgument s argument ++ rest) =
      split s after (some { mode := .closed, backslashes := 0, text := argument }) rest := by
  have hOpen : Reading.start.step s after s.quote = { mode := .quoted, backslashes := 0, text := [] } := by
    simp [step_quote, Reading.takeQuote, Reading.start]
  rw [quotedArgument, List.cons_append, List.cons_append, split_none_of_not_blank s.quote_not_blank, hOpen]
  rw [List.append_assoc, List.singleton_append, split_escaped]
  rfl

variable (after) in
/-- Characters that are neither quotes nor white space are read as they are. -/
theorem split_plain {argument : List α} (hPlain : ∀ c ∈ argument, c ≠ s.quote ∧ s.blank c = false)
    (k : Nat) (text rest : List α) :
    ∃ reading : Reading α, reading.mode = .plain ∧
      reading.taken s = text ++ List.replicate k s.backslash ++ argument ∧
      split s after (some { mode := .plain, backslashes := k, text }) (argument ++ rest) =
        split s after (some reading) rest := by
  induction argument generalizing k text with
  | nil => exact ⟨_, rfl, (List.append_nil _).symm, rfl⟩
  | cons c argument ih =>
    obtain ⟨⟨hQuote, hBlank⟩, hRest⟩ := List.forall_mem_cons.mp hPlain
    by_cases hBackslash : c = s.backslash
    · subst hBackslash
      obtain ⟨reading, hMode, hTaken, hSplit⟩ := ih hRest (k + 1) text
      refine ⟨reading, hMode, ?_, ?_⟩
      · rw [hTaken, List.replicate_succ', List.append_assoc, List.append_assoc, List.append_assoc]
        rfl
      · rw [List.cons_append, split_some_of_not_blank hBlank, step_backslash, afterCharacter_plain, hSplit]
    · obtain ⟨reading, hMode, hTaken, hSplit⟩ := ih hRest 0 (text ++ List.replicate k s.backslash ++ [c])
      refine ⟨reading, hMode, ?_, ?_⟩
      · rw [hTaken, List.replicate_zero, List.append_nil, List.append_assoc _ [c]]
        rfl
      · rw [List.cons_append, split_some_of_not_blank hBlank, step_character hBackslash hQuote]
        rw [afterCharacter_plain, ← hSplit]
        rfl

/-! ## Written arguments -/

theorem Written.quoted (argument : List α) : Written s after (quotedArgument s argument) argument where
  at_end := by
    have hQuoted := split_quotedArgument after (s := s) argument []
    rw [List.append_nil] at hQuoted
    rw [hQuoted, split, Reading.taken, List.replicate_zero, List.append_nil]
  before_blank := by
    intro c rest hBlank
    have hMode : Mode.closed ≠ Mode.quoted := by decide
    rw [split_quotedArgument, split_ends hBlank hMode, Reading.taken, List.replicate_zero, List.append_nil]

theorem Written.plain {argument : List α} (hNonempty : argument ≠ [])
    (hPlain : ∀ c ∈ argument, c ≠ s.quote ∧ s.blank c = false) : Written s after argument argument := by
  have hStart (rest : List α) : ∃ reading : Reading α, reading.mode = .plain ∧ reading.taken s = argument ∧
      split s after none (argument ++ rest) = split s after (some reading) rest := by
    obtain ⟨reading, hMode, hTaken, hSplit⟩ := split_plain after hPlain 0 [] rest
    refine ⟨reading, hMode, hTaken, ?_⟩
    rw [← hSplit]
    cases argument with
    | nil => exact absurd rfl hNonempty
    | cons c argument =>
      have hBlank := (hPlain c (List.mem_cons_self ..)).2
      rw [List.cons_append, split_none_of_not_blank hBlank, split_some_of_not_blank hBlank]
      rfl
  constructor
  · obtain ⟨reading, -, hTaken, hSplit⟩ := hStart []
    rw [List.append_nil] at hSplit
    rw [hSplit, split, hTaken]
  · intro c rest hBlank
    obtain ⟨reading, hMode, hTaken, hSplit⟩ := hStart (c :: rest)
    have hOutside : reading.mode ≠ .quoted := by
      rw [hMode]
      decide
    rw [hSplit, split_ends hBlank hOutside, hTaken]

variable (after) in
theorem split_letters {front : List α}
    (hFront : ∀ c ∈ front, c ≠ s.backslash ∧ c ≠ s.quote ∧ s.blank c = false) (text rest : List α) :
    split s after (some { mode := .plain, backslashes := 0, text }) (front ++ rest) =
      split s after (some { mode := .plain, backslashes := 0, text := text ++ front }) rest := by
  induction front generalizing text with
  | nil => rw [List.nil_append, List.append_nil]
  | cons c front ih =>
    obtain ⟨⟨hBackslash, hQuote, hBlank⟩, hRest⟩ := List.forall_mem_cons.mp hFront
    rw [List.cons_append, split_some_of_not_blank hBlank, step_character hBackslash hQuote, afterCharacter_plain]
    rw [ih hRest, Reading.taken, List.replicate_zero, List.append_nil, List.append_assoc, List.singleton_append]

/-- An argument may go on between quotes. -/
theorem Written.joined {front : List α} (hSome : front ≠ [])
    (hFront : ∀ c ∈ front, c ≠ s.backslash ∧ c ≠ s.quote ∧ s.blank c = false) (argument : List α) :
    Written s after (front ++ quotedArgument s argument) (front ++ argument) := by
  have hRead (rest : List α) : split s after none (front ++ quotedArgument s argument ++ rest) =
      split s after (some { mode := .closed, backslashes := 0, text := front ++ argument }) rest := by
    have hStart (more : List α) : split s after none (front ++ more) =
        split s after (some { mode := .plain, backslashes := 0, text := front }) more := by
      cases front with
      | nil => exact absurd rfl hSome
      | cons c front =>
        have hBlank := (hFront c List.mem_cons_self).2.2
        have hFirst := split_letters after hFront [] more
        rw [List.cons_append, split_some_of_not_blank hBlank] at hFirst
        rw [List.cons_append, split_none_of_not_blank hBlank]
        exact hFirst
    have hOpen : ({ mode := .plain, backslashes := 0, text := front } : Reading α).step s after s.quote =
        { mode := .quoted, backslashes := 0, text := front } := by
      simp [step_quote, Reading.takeQuote]
    rw [List.append_assoc, hStart, quotedArgument, List.cons_append, List.cons_append]
    rw [split_some_of_not_blank s.quote_not_blank, hOpen, List.append_assoc, List.singleton_append, split_escaped]
    rw [List.replicate_zero, List.append_nil]
  constructor
  · have hEnd := hRead []
    rw [List.append_nil] at hEnd
    rw [hEnd, split, Reading.taken, List.replicate_zero, List.append_nil]
  · intro c rest hBlank
    have hMode : Mode.closed ≠ Mode.quoted := by decide
    rw [hRead, split_ends hBlank hMode, Reading.taken, List.replicate_zero, List.append_nil]

/-- Arguments that are written one by one, with one blank between them, are read back. -/
theorem split_intercalate {blank : α} (hBlank : s.blank blank = true) {written args : List (List α)}
    (hWritten : List.Forall₂ (Written s after) written args) :
    split s after none ([blank].intercalate written) = args := by
  induction hWritten with
  | nil => rfl
  | @cons first arg written args hFirst hRest ih =>
    cases hRest with
    | nil =>
      rw [List.intercalate_singleton]
      exact hFirst.at_end
    | cons hNext hMore => rw [Library.Joined.join_cons _ (by simp), hFirst.before_blank _ _ hBlank, ih]

theorem split_join {blank : α} (hBlank : s.blank blank = true) (write : List α → List α)
    {args : List (List α)} (hWritten : ∀ arg ∈ args, Written s after (write arg) arg) :
    split s after none ([blank].intercalate (args.map write)) = args := by
  apply split_intercalate hBlank
  rw [List.forall₂_map_left_iff, List.forall₂_same]
  exact hWritten

/-! ## The name of the program -/

theorem programName_quoted {name : List α} (hQuote : s.quote ∉ name) (rest : List α) :
    programName s true (name ++ s.quote :: rest) =
      (name ++ (programName s false rest).1, (programName s false rest).2) := by
  induction name with
  | nil => rw [List.nil_append, programName, if_pos rfl, Bool.not_true, List.nil_append]
  | cons c name ih =>
    have hFirst := List.ne_of_not_mem_cons hQuote
    have hRest := List.not_mem_of_not_mem_cons hQuote
    have hCharacter : ¬(s.blank c = true ∧ true = false) := fun h => Bool.noConfusion h.2
    rw [List.cons_append, programName, if_neg (Ne.symm hFirst), if_neg hCharacter, ih hRest]
    rfl

theorem programName_plain {name : List α} (hPlain : ∀ c ∈ name, c ≠ s.quote ∧ s.blank c = false)
    (rest : List α) : programName s false (name ++ rest) =
      (name ++ (programName s false rest).1, (programName s false rest).2) := by
  induction name with
  | nil => rfl
  | cons c name ih =>
    obtain ⟨⟨hQuote, hBlank⟩, hRest⟩ := List.forall_mem_cons.mp hPlain
    have hCharacter : ¬(s.blank c = true ∧ false = false) := by
      rw [hBlank]
      exact fun h => Bool.noConfusion h.1
    rw [List.cons_append, programName, if_neg hQuote, if_neg hCharacter, ih hRest]
    rfl

/-! ## Texts without quotes -/

/-- The backslashes that a text ends in. -/
def trailing (s : Signs α) (text : List α) : List α := text.rtakeWhile (· == s.backslash)

theorem trailing_replicate (k : Nat) : trailing s (List.replicate k s.backslash) = List.replicate k s.backslash := by
  rw [trailing, List.rtakeWhile_eq_self_iff]
  intro c hMem
  rw [List.eq_of_mem_replicate hMem]
  exact beq_self_eq_true _

theorem trailing_append_cons {c : α} (hBackslash : c ≠ s.backslash) (front back : List α) :
    trailing s (front ++ c :: back) = trailing s back := by
  have hStop : (c == s.backslash) = false := beq_eq_false_iff_ne.mpr hBackslash
  rw [trailing, trailing, List.rtakeWhile, List.rtakeWhile, List.reverse_append, List.reverse_cons]
  rw [List.append_assoc, List.singleton_append, List.takeWhile_append, List.takeWhile_cons_of_neg (by simp [hStop])]
  rw [List.append_nil]
  split
  · next hAll => rw [(List.takeWhile_sublist _).eq_of_length hAll]
  · rfl

/-- Without quotes nothing but the backslashes at the end is doubled. -/
theorem escaped_of_no_quote {argument : List α} (hQuote : s.quote ∉ argument) (k : Nat) :
    escaped s k argument = argument ++ trailing s (List.replicate k s.backslash ++ argument) := by
  induction argument generalizing k with
  | nil => rw [escaped, List.nil_append, List.append_nil, trailing_replicate]
  | cons c argument ih =>
    have hFirst := List.ne_of_not_mem_cons hQuote
    have hRest := List.not_mem_of_not_mem_cons hQuote
    rw [escaped]
    by_cases hBackslash : c = s.backslash
    · subst hBackslash
      rw [if_pos rfl, ih hRest, List.replicate_succ', List.append_assoc]
      rfl
    · rw [if_neg hBackslash, if_neg (Ne.symm hFirst), ih hRest, trailing_append_cons hBackslash]
      rfl

theorem trailing_eq_nil {text : List α} (hEnd : text.getLast? ≠ some s.backslash) : trailing s text = [] := by
  rw [trailing, List.rtakeWhile_eq_nil_iff]
  intro hNonempty hLast
  apply hEnd
  rw [List.getLast?_eq_some_getLast hNonempty, beq_iff_eq.mp hLast]

theorem programName_quotedArgument {name : List α} (hQuote : s.quote ∉ name) (hEnd : trailing s name = [])
    (rest : List α) : programName s false (quotedArgument s name ++ rest) =
      (name ++ (programName s false rest).1, (programName s false rest).2) := by
  have hEscaped : escaped s 0 name = name := by
    rw [escaped_of_no_quote hQuote, List.replicate_zero, List.nil_append, hEnd, List.append_nil]
  rw [quotedArgument, hEscaped, List.cons_append, List.cons_append, List.append_assoc, programName, if_pos rfl]
  exact programName_quoted hQuote rest

/-- A program is given its name and its arguments as they were written. -/
theorem arguments_join {blank : α} (hBlank : s.blank blank = true) (write : List α → List α) {name : List α}
    (hName : ∀ rest, programName s false (write name ++ rest) =
      (name ++ (programName s false rest).1, (programName s false rest).2))
    {args : List (List α)} (hWritten : ∀ arg ∈ args, Written s after (write arg) arg) :
    arguments s after ([blank].intercalate ((name :: args).map write)) = name :: args := by
  have hBlankQuote : blank ≠ s.quote := by
    rintro rfl
    exact Bool.false_ne_true (s.quote_not_blank.symm.trans hBlank)
  cases args with
  | nil =>
    have hAlone := hName []
    rw [List.append_nil] at hAlone
    rw [List.map_singleton, List.intercalate_singleton, arguments, hAlone]
    simp [programName, split]
  | cons arg args =>
    have hEnds (rest : List α) : programName s false (blank :: rest) = ([], blank :: rest) := by
      rw [programName, if_neg hBlankQuote, if_pos ⟨hBlank, rfl⟩]
    rw [List.map_cons, Library.Joined.join_cons _ (by simp), arguments, hName, hEnds]
    rw [List.append_nil, split_none_blank hBlank, split_join hBlank write hWritten]

/-! ## The characters of arguments -/

/-- What holds of every character of a line, and of the two signs, holds of what is read from it. -/
theorem split_forall {p : α → Prop} (hQuote : p s.quote) (hBackslash : p s.backslash) {line : List α}
    (hLine : ∀ c ∈ line, p c) {reading : Option (Reading α)} (hText : ∀ r ∈ reading, ∀ c ∈ r.text, p c) :
    ∀ argument ∈ split s after reading line, ∀ c ∈ argument, p c := by
  have hTaken {r : Reading α} (h : ∀ c ∈ r.text, p c) : ∀ c ∈ r.taken s, p c := by
    intro c hMem
    obtain hOld | hNew := List.mem_append.mp hMem
    · exact h c hOld
    · rw [List.eq_of_mem_replicate hNew]
      exact hBackslash
  have hRun {text : List α} (h : ∀ c ∈ text, p c) (k : Nat) :
      ∀ c ∈ text ++ List.replicate k s.backslash, p c := hTaken (r := { mode := .plain, backslashes := k, text }) h
  have hAdd {text : List α} {d : α} (h : ∀ c ∈ text, p c) (hd : p d) : ∀ c ∈ text ++ [d], p c :=
    List.forall_mem_append.mpr ⟨h, fun c hMem => List.mem_singleton.mp hMem ▸ hd⟩
  have hStep {r : Reading α} {d : α} (h : ∀ c ∈ r.text, p c) (hd : p d) : ∀ c ∈ (r.step s after d).text, p c := by
    rw [Reading.step]
    split
    · exact h
    · split
      · rw [Reading.takeQuote]
        split
        · exact hAdd (hRun h _) hQuote
        · split
          · exact hRun h _
          · exact hRun h _
          · exact hAdd (hRun h _) hQuote
      · exact hAdd (hTaken h) hd
  induction line generalizing reading with
  | nil =>
    cases reading with
    | none => exact fun _ hMem => absurd hMem List.not_mem_nil
    | some r =>
      intro argument hMem
      rw [List.mem_singleton.mp hMem]
      exact hTaken (hText r rfl)
  | cons d line ih =>
    obtain ⟨hd, hRest⟩ := List.forall_mem_cons.mp hLine
    have hNone : ∀ r ∈ (none : Option (Reading α)), ∀ c ∈ r.text, p c := fun _ hMem => absurd hMem (Option.not_mem_none _)
    cases reading with
    | none =>
      rw [split]
      split
      · exact ih hRest hNone
      · refine ih hRest ?_
        rintro r ⟨⟩
        exact hStep (fun _ hMem => absurd hMem List.not_mem_nil) hd
    | some r =>
      rw [split]
      split
      · exact List.forall_mem_cons.mpr ⟨hTaken (hText r rfl), ih hRest hNone⟩
      · refine ih hRest ?_
        rintro _ ⟨⟩
        exact hStep (hText r rfl) hd

theorem programName_forall {p : α → Prop} {line : List α} (hLine : ∀ c ∈ line, p c) (inQuotes : Bool) :
    (∀ c ∈ (programName s inQuotes line).1, p c) ∧ ∀ c ∈ (programName s inQuotes line).2, p c := by
  induction line generalizing inQuotes with
  | nil => exact ⟨hLine, hLine⟩
  | cons d line ih =>
    obtain ⟨hd, hRest⟩ := List.forall_mem_cons.mp hLine
    rw [programName]
    split
    · exact ih hRest _
    · split
      · exact ⟨fun _ hMem => absurd hMem List.not_mem_nil, hLine⟩
      · exact ⟨List.forall_mem_cons.mpr ⟨hd, (ih hRest _).1⟩, (ih hRest _).2⟩

theorem arguments_forall {p : α → Prop} (hQuote : p s.quote) (hBackslash : p s.backslash) {line : List α}
    (hLine : ∀ c ∈ line, p c) : ∀ argument ∈ arguments s after line, ∀ c ∈ argument, p c := by
  obtain ⟨hName, hRest⟩ := programName_forall (s := s) hLine false
  refine List.forall_mem_cons.mpr ⟨hName, ?_⟩
  apply split_forall hQuote hBackslash hRest
  exact fun _ hMem => absurd hMem (Option.not_mem_none _)

end

end Library.CommandLine

/-! ## Quoted literals

A command in which a literal is written between quotes, and a quote in it twice. The reader knows nothing of
the code around the literals but the characters it may have.
-/

namespace Library.Literals

inductive Piece (α : Type*)
  | code (c : α)
  | literal (value : List α)
  deriving DecidableEq, Repr

/-- Where a reader is: `seen` is after a quote in a literal, which may be the first of two. -/
inductive Scan (α : Type*)
  | code
  | inside (value : List α)
  | seen (value : List α)
  deriving DecidableEq, Repr

structure Signs (α : Type*) where
  quote : α
  isQuote : α → Bool
  plain : α → Bool
  quote_isQuote : isQuote quote = true

variable {α : Type*} (s : Signs α)

def scan : Scan α → List α → Option (List (Piece α))
  | .code, [] => some []
  | .inside _, [] => none
  | .seen value, [] => some [.literal value]
  | .code, c :: rest =>
    if s.isQuote c then scan (.inside []) rest
    else if s.plain c then (scan .code rest).map (.code c :: ·)
    else none
  | .inside value, c :: rest =>
    if s.isQuote c then scan (.seen value) rest else scan (.inside (value ++ [c])) rest
  | .seen value, c :: rest =>
    if s.isQuote c then scan (.inside (value ++ [c])) rest
    else if s.plain c then (scan .code rest).map fun pieces => .literal value :: .code c :: pieces
    else none

def doubled (value : List α) : List α := value.flatMap fun c => if s.isQuote c then [c, c] else [c]

def literal (value : List α) : List α := s.quote :: (doubled s value ++ [s.quote])

def write : List (Piece α) → List α
  | [] => []
  | .code c :: pieces => c :: write pieces
  | .literal value :: pieces => literal s value ++ write pieces

/-- No two literals stand side by side, and the code is of characters that the reader knows. -/
def Readable : List (Piece α) → Prop
  | [] => True
  | [.literal _] => True
  | .literal _ :: .literal _ :: _ => False
  | .literal _ :: .code c :: pieces => s.isQuote c = false ∧ s.plain c = true ∧ Readable pieces
  | .code c :: pieces => s.isQuote c = false ∧ s.plain c = true ∧ Readable pieces

section

variable {s}

theorem scan_doubled (value front rest : List α) :
    scan s (.inside front) (doubled s value ++ rest) = scan s (.inside (front ++ value)) rest := by
  induction value generalizing front with
  | nil => rw [doubled, List.flatMap_nil, List.nil_append, List.append_nil]
  | cons c value ih =>
    have hNext : scan s (.inside front) (doubled s (c :: value) ++ rest) =
        scan s (.inside (front ++ [c])) (doubled s value ++ rest) := by
      cases hQuote : s.isQuote c with
      | true => simp [doubled, scan, hQuote]
      | false => simp [doubled, scan, hQuote]
    rw [hNext, ih, List.append_assoc, List.singleton_append]

theorem scan_literal (value rest : List α) :
    scan s .code (literal s value ++ rest) = scan s (.seen value) rest := by
  have hQuote := s.quote_isQuote
  rw [literal, List.cons_append, scan, if_pos hQuote, List.append_assoc, scan_doubled, List.nil_append]
  rw [List.singleton_append, scan, if_pos hQuote]

/-- What is written from pieces is read as these pieces. -/
theorem scan_write {pieces : List (Piece α)} (hReadable : Readable s pieces) :
    scan s .code (write s pieces) = some pieces := by
  induction pieces using Readable.induct with
  | case1 => rfl
  | case2 value =>
    rw [write, scan_literal]
    rfl
  | case3 => exact absurd hReadable id
  | case4 value c pieces ih =>
    obtain ⟨hQuote, hPlain, hRest⟩ := hReadable
    rw [write, scan_literal, write, scan, hQuote, if_neg Bool.false_ne_true, if_pos hPlain, ih hRest]
    rfl
  | case5 c pieces ih =>
    rw [Readable] at hReadable
    obtain ⟨hQuote, hPlain, hRest⟩ := hReadable
    rw [write, scan, hQuote, if_neg Bool.false_ne_true, if_pos hPlain, ih hRest]
    rfl

theorem write_append (pieces more : List (Piece α)) : write s (pieces ++ more) = write s pieces ++ write s more := by
  induction pieces with
  | nil => rfl
  | cons piece pieces ih =>
    cases piece with
    | code c => rw [List.cons_append, write, ih, write, List.cons_append]
    | literal value => rw [List.cons_append, write, ih, write, List.append_assoc]

theorem write_code (text : List α) : write s (text.map .code) = text := by
  induction text with
  | nil => rfl
  | cons c text ih => rw [List.map_cons, write, ih]

end

end Library.Literals

/-! ## Words of a shell

Between two quotes every character stands for itself; outside of them a backslash takes the next character as
it is. A word ends at white space, and other characters that mean something to a shell are not read.
-/

namespace Library.ShellWords

structure Signs (α : Type*) where
  quote : α
  backslash : α
  blank : α → Bool
  plain : α → Bool
  backslash_ne_quote : backslash ≠ quote

inductive Mode
  | bare
  | quoted
  | escaped
  deriving DecidableEq, Repr

variable {α : Type*} [DecidableEq α] (s : Signs α)

/-- The first word of a text, and the text after it. -/
def word : Mode → List α → Option (List α × List α)
  | .bare, [] => some ([], [])
  | .quoted, [] => none
  | .escaped, [] => none
  | .bare, c :: rest =>
    if c = s.quote then word .quoted rest
    else if c = s.backslash then word .escaped rest
    else if s.blank c then some ([], c :: rest)
    else if s.plain c then (word .bare rest).map fun read => (c :: read.1, read.2)
    else none
  | .quoted, c :: rest =>
    if c = s.quote then word .bare rest else (word .quoted rest).map fun read => (c :: read.1, read.2)
  | .escaped, c :: rest => (word .bare rest).map fun read => (c :: read.1, read.2)

/-- A quote in a quoted word closes it, stands alone behind a backslash, and opens it again. -/
def reopened (value : List α) : List α :=
  value.flatMap fun c => if c = s.quote then [s.quote, s.backslash, s.quote, s.quote] else [c]

def quotedWord (value : List α) : List α := s.quote :: (reopened s value ++ [s.quote])

section

variable {s}

theorem word_reopened (value rest : List α) : word s .quoted (reopened s value ++ rest) =
    (word s .quoted rest).map fun read => (value ++ read.1, read.2) := by
  induction value with
  | nil =>
    rw [reopened, List.flatMap_nil, List.nil_append]
    exact Option.map_id'.symm
  | cons c value ih =>
    have hNext : word s .quoted (reopened s (c :: value) ++ rest) =
        (word s .quoted (reopened s value ++ rest)).map fun read => (c :: read.1, read.2) := by
      by_cases hQuote : c = s.quote
      · subst hQuote
        simp [reopened, word, s.backslash_ne_quote]
      · simp [reopened, word, hQuote]
    rw [hNext, ih, Option.map_map]
    rfl

theorem word_quotedWord (value rest : List α) : word s .bare (quotedWord s value ++ rest) =
    (word s .bare rest).map fun read => (value ++ read.1, read.2) := by
  rw [quotedWord, List.cons_append, word, if_pos rfl, List.append_assoc, word_reopened]
  rw [List.singleton_append, word, if_pos rfl]

/-- A quoted word is the whole word when white space follows. -/
theorem word_quotedWord_blank (value : List α) {c : α} (hBlank : s.blank c = true) (hQuote : c ≠ s.quote)
    (hBackslash : c ≠ s.backslash) (rest : List α) :
    word s .bare (quotedWord s value ++ c :: rest) = some (value, c :: rest) := by
  rw [word_quotedWord, word, if_neg hQuote, if_neg hBackslash, if_pos hBlank, Option.map_some, List.append_nil]

/-- Other words are read as they stand. -/
theorem word_plain {text : List α}
    (hText : ∀ c ∈ text, c ≠ s.quote ∧ c ≠ s.backslash ∧ s.blank c = false ∧ s.plain c = true) {c : α}
    (hBlank : s.blank c = true) (hQuote : c ≠ s.quote) (hBackslash : c ≠ s.backslash) (rest : List α) :
    word s .bare (text ++ c :: rest) = some (text, c :: rest) := by
  induction text with
  | nil => rw [List.nil_append, word, if_neg hQuote, if_neg hBackslash, if_pos hBlank]
  | cons d text ih =>
    obtain ⟨⟨hFirst, hSecond, hInside, hPlain⟩, hRest⟩ := List.forall_mem_cons.mp hText
    rw [List.cons_append, word, if_neg hFirst, if_neg hSecond, if_neg (Bool.eq_false_iff.mp hInside), if_pos hPlain]
    rw [ih hRest]
    rfl

end

end Library.ShellWords
