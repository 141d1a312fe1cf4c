import GitBranchManager.Base.ObjectId
import GitBranchManager.Library.Lines
import Mathlib.Data.List.DropRight

/-! # Raw commit objects

Headers run to the first blank line. A line that starts with a space goes on with the header before
it, so what a signature or a merged tag holds is never read as a header.
-/

namespace GitBranchManager

open Library

structure Signature where
  name : Bytes := []
  email : Bytes := []
  when : Int64 := 0
  tzOffsetMinutes : Int := 0
  deriving DecidableEq, Repr

/-- A zone such as `+0200`; one that is too short is UTC. -/
def zoneOffset (zone : Bytes) : Int :=
  if 5 ≤ zone.length then
    let sign : Int := if startsWith zone (ascii "-") then -1 else 1
    let hours := (parseInt64 ((zone.drop 1).take 2)).toInt
    let minutes := (parseInt64 ((zone.drop 3).take 2)).toInt
    sign * (hours * 60 + minutes)
  else 0

/-- Names contain `<`, so the delimiters of the email are looked for from the right. -/
def parseSignature (text : Bytes) : Signature :=
  match rfind (ascii ">") text with
  | none => { name := text }
  | some emailEnd =>
    match rfind (ascii "<") (text.take (emailEnd + 1)) with
    | none => { name := text }
    | some emailStart =>
      let name := (text.take emailStart).rdropWhile (· == space)
      let email := (text.drop (emailStart + 1)).take (emailEnd - emailStart - 1)
      let rest := (text.drop (emailEnd + 1)).dropWhile (· == space)
      match find [space] rest with
      | none => { name, email, when := parseInt64 rest }
      | some at_ =>
        { name, email, when := parseInt64 (rest.take at_), tzOffsetMinutes := zoneOffset (rest.drop (at_ + 1)) }

structure CommitMeta where
  oid : ObjectId := .null
  tree : ObjectId := .null
  parents : List ObjectId := []
  author : Signature := {}
  committer : Signature := {}
  subject : Bytes := []
  body : Bytes := []
  signedCommit : Bool := false
  deriving DecidableEq

namespace CommitMeta

/-- A header that is not known leaves everything as it is. -/
def readHeader (commit : CommitMeta) (line : Bytes) : CommitMeta :=
  if startsWith line (ascii "tree ") then { commit with tree := ObjectId.fromHex (line.drop 5) }
  else if startsWith line (ascii "parent ") then
    let parent := ObjectId.fromHex (line.drop 7)
    if parent.isNull then commit else { commit with parents := commit.parents ++ [parent] }
  else if startsWith line (ascii "author ") then { commit with author := parseSignature (line.drop 7) }
  else if startsWith line (ascii "committer ") then { commit with committer := parseSignature (line.drop 10) }
  else if startsWith line (ascii "gpgsig") then { commit with signedCommit := true }
  else commit

/-- The headers, and what stands after them. Every line but the first may continue the one before
it; a last line that no `\n` ends leaves no message. -/
def readHeaders (commit : CommitMeta) (continued : Bool) : List Bytes → Bytes → CommitMeta × Bytes
  | [], rest =>
    if rest.isEmpty || (continued && startsWith rest [space]) then (commit, []) else (commit.readHeader rest, [])
  | line :: lines, rest =>
    if continued && startsWith line [space] then readHeaders commit true lines rest
    else if line.isEmpty then (commit, Lines.join LF lines ++ rest)
    else readHeaders (commit.readHeader line) true lines rest

def isNewline (b : UInt8) : Bool := b == LF || b == CR

def stripNewlines (text : Bytes) : Bytes := (text.dropWhile isNewline).rdropWhile isNewline

def parseRawCommit (oid : ObjectId) (raw : Bytes) : CommitMeta :=
  let (lines, rest) := Lines.cut LF raw
  let (commit, message) := readHeaders { oid } false lines rest
  match find [LF] message with
  | none => { commit with subject := message }
  | some subjectEnd =>
    { commit with subject := message.take subjectEnd, body := stripNewlines (message.drop (subjectEnd + 1)) }

end CommitMeta

/-! ## Commits as git writes them -/

/-- A name holds no `>`, and git takes the angle brackets out of an email. -/
structure GitIdentity where
  name : Bytes
  email : Bytes
  seconds : Nat
  west : Bool := false
  hours : Fin 100 := 0
  minutes : Fin 100 := 0
  nameFree : 62 ∉ name ∧ LF ∉ name
  emailFree : 60 ∉ email ∧ 62 ∉ email ∧ LF ∉ email
  fits : seconds < 2 ^ 63

def twoDigits (n : Fin 100) : Bytes := [UInt8.ofNat (48 + n.val / 10), UInt8.ofNat (48 + n.val % 10)]

namespace GitIdentity

def zone (identity : GitIdentity) : Bytes :=
  (if identity.west then 45 else 43) :: (twoDigits identity.hours ++ twoDigits identity.minutes)

def text (identity : GitIdentity) : Bytes :=
  identity.name ++ [space] ++ 60 :: (identity.email ++ 62 :: space ::
    (Decimal.numeral identity.seconds ++ space :: identity.zone))

def tzOffsetMinutes (identity : GitIdentity) : Int :=
  (if identity.west then -1 else 1) * ((identity.hours.val : Int) * 60 + identity.minutes.val)

/-- The spaces at the end of a name are not told from the one that git puts behind it. -/
def signature (identity : GitIdentity) : Signature where
  name := identity.name.rdropWhile (· == space)
  email := identity.email
  when := Int64.ofInt identity.seconds
  tzOffsetMinutes := identity.tzOffsetMinutes

end GitIdentity

/-- A header beyond those that every commit has. -/
structure ExtraHeader where
  line : Bytes
  more : List Bytes := []
  plain : LF ∉ line ∧ ∀ next ∈ more, LF ∉ next
  other : line ≠ [] ∧ startsWith line [space] = false ∧
    ∀ key ∈ [ascii "tree ", ascii "parent ", ascii "author ", ascii "committer "], startsWith line key = false

def ExtraHeader.lines (header : ExtraHeader) : List Bytes :=
  header.line :: header.more.map (space :: ·)

structure GitCommit where
  tree : ObjectId
  parents : List ObjectId := []
  author : GitIdentity
  committer : GitIdentity
  headers : List ExtraHeader := []
  message : Bytes := []
  treeSome : tree.isNull = false
  parentsSome : ∀ parent ∈ parents, parent.isNull = false

namespace GitCommit

def headerLines (commit : GitCommit) : List Bytes :=
  [ascii "tree " ++ commit.tree.hex] ++ commit.parents.map (fun parent => ascii "parent " ++ parent.hex) ++
    [ascii "author " ++ commit.author.text, ascii "committer " ++ commit.committer.text] ++
    commit.headers.flatMap ExtraHeader.lines

def raw (commit : GitCommit) : Bytes := Lines.join LF commit.headerLines ++ LF :: commit.message

end GitCommit

/-! ## Reading them back -/

theorem parseInt64_twoDigits (n : Fin 100) : (parseInt64 (twoDigits n)).toInt = n.val := by
  revert n
  decide +kernel

theorem isDigit_twoDigits {n : Fin 100} {b : UInt8} (h : b ∈ twoDigits n) : Decimal.isDigit b = true := by
  have hAll : ∀ n : Fin 100, (twoDigits n).all Decimal.isDigit = true := by decide +kernel
  exact List.all_eq_true.mp (hAll n) b h

theorem zoneOffset_zone (identity : GitIdentity) : zoneOffset identity.zone = identity.tzOffsetMinutes := by
  have hHours := parseInt64_twoDigits identity.hours
  have hMinutes := parseInt64_twoDigits identity.minutes
  rw [GitIdentity.tzOffsetMinutes, ← hHours, ← hMinutes, GitIdentity.zone]
  cases identity.west <;> rfl

theorem not_mem_zone (identity : GitIdentity) {b : UInt8} (hSign : b ≠ 43 ∧ b ≠ 45)
    (hDigit : Decimal.isDigit b = false) : b ∉ identity.zone := by
  have hDigits : ∀ n : Fin 100, b ∉ twoDigits n := by
    intro n hMem
    rw [isDigit_twoDigits hMem] at hDigit
    cases hDigit
  rw [GitIdentity.zone, List.mem_cons, List.mem_append, not_or, not_or]
  refine ⟨?_, hDigits _, hDigits _⟩
  split
  · exact hSign.2
  · exact hSign.1

/-- The last `>` ends the email and the last `<` before it starts it, whatever stands in front. -/
theorem email_delimited {front email tail text : Bytes} {emailEnd : Nat} (hOpen : 60 ∉ email) (hTail : 62 ∉ tail)
    (hText : text = (front ++ 60 :: email) ++ 62 :: tail) (hEnd : emailEnd = (front ++ 60 :: email).length) :
    rfind (ascii ">") text = some emailEnd ∧
      rfind (ascii "<") (text.take (emailEnd + 1)) = some front.length ∧
      text.take front.length = front ∧
      (text.drop (front.length + 1)).take (emailEnd - front.length - 1) = email ∧
      text.drop (emailEnd + 1) = tail := by
  subst hText hEnd
  have hTake : ((front ++ 60 :: email) ++ 62 :: tail).take ((front ++ 60 :: email).length + 1) =
      front ++ 60 :: (email ++ [62]) := by
    rw [List.take_length_add_append]
    simp
  refine ⟨rfind_last hTail _, ?_, ?_, ?_, ?_⟩
  · rw [hTake]
    apply rfind_last
    rw [List.mem_append, not_or]
    exact ⟨hOpen, by decide⟩
  · rw [List.append_assoc, List.take_left]
  · rw [List.append_assoc, ← List.drop_drop, List.drop_left, List.cons_append, List.drop_one, List.tail_cons,
      List.length_append, Nat.add_sub_cancel_left, List.length_cons, Nat.add_sub_cancel, List.take_left]
  · exact drop_field _ _ _

theorem parseSignature_text (identity : GitIdentity) : parseSignature identity.text = identity.signature := by
  obtain ⟨stamp, hStamp⟩ : ∃ stamp, Decimal.numeral identity.seconds ++ space :: identity.zone = stamp := ⟨_, rfl⟩
  have hText : identity.text = ((identity.name ++ [space]) ++ 60 :: identity.email) ++ 62 :: space :: stamp := by
    rw [GitIdentity.text, hStamp, List.append_assoc (identity.name ++ [space]), List.cons_append]
  have hTail : 62 ∉ space :: stamp := by
    rw [← hStamp, List.mem_cons, List.mem_append, List.mem_cons, not_or, not_or, not_or]
    exact ⟨by decide, Decimal.not_mem_numeral _ (by decide), by decide,
      not_mem_zone identity (by decide) (by decide)⟩
  obtain ⟨hEnd, hStart, hName, hEmail, hRest⟩ := email_delimited identity.emailFree.1 hTail hText rfl
  have hDigit : ∀ b, Decimal.isDigit b = true → (b == space) = false := by
    intro b hIs
    rw [beq_eq_false_iff_ne]
    rintro rfl
    cases hIs
  have hAfter : (space :: stamp).dropWhile (· == space) = stamp := by
    rw [List.dropWhile_cons_of_pos (p := (· == space)) (beq_self_eq_true space), ← hStamp,
      Decimal.dropWhile_numeral hDigit]
  have hSpace : find [space] stamp = some (Decimal.numeral identity.seconds).length := by
    rw [← hStamp]
    exact find_byte (Decimal.not_mem_numeral _ (by decide)) _
  have hWhen : parseInt64 (stamp.take (Decimal.numeral identity.seconds).length) = Int64.ofInt identity.seconds := by
    have hRead : parseInt64 (Decimal.numeral identity.seconds ++ []) = Int64.ofInt identity.seconds :=
      parseInt64_numeral identity.fits fun _ => nofun
    rw [← hStamp, List.take_left]
    rwa [List.append_nil] at hRead
  have hZone : stamp.drop ((Decimal.numeral identity.seconds).length + 1) = identity.zone := by
    rw [← hStamp]
    exact drop_field _ _ _
  rw [parseSignature, hEnd]
  dsimp only
  rw [hStart]
  dsimp only
  rw [hName, hEmail, hRest, hAfter, hSpace, List.rdropWhile_concat_pos (· == space) _ _ (beq_self_eq_true space)]
  dsimp only
  rw [hWhen, hZone, zoneOffset_zone]
  rfl

namespace CommitMeta

theorem readHeaders_line {line : Bytes} (hSome : line ≠ []) (hStart : startsWith line [space] = false)
    (commit : CommitMeta) (continued : Bool) (lines : List Bytes) (rest : Bytes) :
    readHeaders commit continued (line :: lines) rest = readHeaders (commit.readHeader line) true lines rest := by
  rw [readHeaders, hStart, Bool.and_false, if_neg Bool.false_ne_true,
    if_neg (fun hEmpty => hSome (List.isEmpty_iff.mp hEmpty))]

theorem readHeaders_blank (commit : CommitMeta) (continued : Bool) (lines : List Bytes) (rest : Bytes) :
    readHeaders commit continued ([] :: lines) rest = (commit, Lines.join LF lines ++ rest) := by
  cases continued <;> rfl

/-- Whatever a continuation holds, it is no header. -/
theorem readHeaders_more (commit : CommitMeta) (more lines : List Bytes) (rest : Bytes) :
    readHeaders commit true (more.map (space :: ·) ++ lines) rest = readHeaders commit true lines rest := by
  induction more with
  | nil => rfl
  | cons next more ih =>
    rw [List.map_cons, List.cons_append, readHeaders, startsWith_cons_cons, beq_self_eq_true,
      startsWith_nil_right]
    exact ih

theorem readHeader_parent (commit : CommitMeta) {parent : ObjectId} (h : parent.isNull = false) :
    commit.readHeader (ascii "parent " ++ parent.hex) = { commit with parents := commit.parents ++ [parent] } := by
  have hTree : startsWith (ascii "parent " ++ parent.hex) (ascii "tree ") = false := rfl
  have hDrop : (ascii "parent " ++ parent.hex).drop 7 = parent.hex := rfl
  rw [readHeader, hTree, if_neg Bool.false_ne_true, if_pos (startsWith_append _ _), hDrop, ObjectId.fromHex_hex h]
  dsimp only
  rw [h, if_neg Bool.false_ne_true]

theorem readHeaders_parents (commit : CommitMeta) {parents : List ObjectId}
    (h : ∀ parent ∈ parents, parent.isNull = false) (lines : List Bytes) (rest : Bytes) :
    readHeaders commit true (parents.map (fun parent => ascii "parent " ++ parent.hex) ++ lines) rest =
      readHeaders { commit with parents := commit.parents ++ parents } true lines rest := by
  induction parents generalizing commit with
  | nil => rw [List.append_nil, List.map_nil, List.nil_append]
  | cons parent parents ih =>
    obtain ⟨hParent, hMore⟩ := List.forall_mem_cons.mp h
    have hSome : ascii "parent " ++ parent.hex ≠ [] := by simp [ascii]
    rw [List.map_cons, List.cons_append, readHeaders_line hSome rfl, readHeader_parent commit hParent, ih _ hMore,
      List.append_assoc]
    rfl

theorem readHeader_extra (commit : CommitMeta) (header : ExtraHeader) : commit.readHeader header.line =
    { commit with signedCommit := commit.signedCommit || startsWith header.line (ascii "gpgsig") } := by
  obtain ⟨-, -, hOther⟩ := header.other
  simp only [List.forall_mem_cons, List.not_mem_nil, false_imp_iff, implies_true, and_true] at hOther
  obtain ⟨hTree, hParent, hAuthor, hCommitter⟩ := hOther
  simp only [readHeader, hTree, hParent, hAuthor, hCommitter, if_neg Bool.false_ne_true]
  cases startsWith header.line (ascii "gpgsig") with
  | false => rw [Bool.or_false, if_neg Bool.false_ne_true]
  | true => rw [Bool.or_true, if_pos rfl]

theorem readHeaders_extras (commit : CommitMeta) (headers : List ExtraHeader) (lines : List Bytes) (rest : Bytes) :
    readHeaders commit true (headers.flatMap ExtraHeader.lines ++ lines) rest =
      readHeaders { commit with signedCommit := commit.signedCommit ||
        (headers.any fun header => startsWith header.line (ascii "gpgsig")) } true lines rest := by
  induction headers generalizing commit with
  | nil => rw [List.any_nil, Bool.or_false, List.flatMap_nil, List.nil_append]
  | cons header headers ih =>
    obtain ⟨hSome, hStart, -⟩ := header.other
    rw [List.flatMap_cons, List.append_assoc, ExtraHeader.lines, List.cons_append, readHeaders_line hSome hStart,
      readHeaders_more, readHeader_extra, ih, List.any_cons, Bool.or_assoc]

theorem readHeaders_headerLines (oid : ObjectId) (commit : GitCommit) (lines : List Bytes) (rest : Bytes) :
    readHeaders { oid } false (commit.headerLines ++ [] :: lines) rest =
      ({
          oid
          tree := commit.tree
          parents := commit.parents
          author := commit.author.signature
          committer := commit.committer.signature
          signedCommit := commit.headers.any fun header => startsWith header.line (ascii "gpgsig") },
        Lines.join LF lines ++ rest) := by
  have hTree : ({ oid } : CommitMeta).readHeader (ascii "tree " ++ commit.tree.hex) = { oid, tree := commit.tree } := by
    have hDrop : (ascii "tree " ++ commit.tree.hex).drop 5 = commit.tree.hex := rfl
    rw [readHeader, if_pos (startsWith_append _ _), hDrop, ObjectId.fromHex_hex commit.treeSome]
  have hAuthor (c : CommitMeta) : c.readHeader (ascii "author " ++ commit.author.text) =
      { c with author := commit.author.signature } := by
    have hDrop : (ascii "author " ++ commit.author.text).drop 7 = commit.author.text := rfl
    have hFirst : startsWith (ascii "author " ++ commit.author.text) (ascii "tree ") = false := rfl
    have hSecond : startsWith (ascii "author " ++ commit.author.text) (ascii "parent ") = false := rfl
    rw [readHeader, hFirst, if_neg Bool.false_ne_true, hSecond, if_neg Bool.false_ne_true,
      if_pos (startsWith_append _ _), hDrop, parseSignature_text]
  have hCommitter (c : CommitMeta) : c.readHeader (ascii "committer " ++ commit.committer.text) =
      { c with committer := commit.committer.signature } := by
    have hDrop : (ascii "committer " ++ commit.committer.text).drop 10 = commit.committer.text := rfl
    have hFirst : startsWith (ascii "committer " ++ commit.committer.text) (ascii "tree ") = false := rfl
    have hSecond : startsWith (ascii "committer " ++ commit.committer.text) (ascii "parent ") = false := rfl
    have hThird : startsWith (ascii "committer " ++ commit.committer.text) (ascii "author ") = false := rfl
    rw [readHeader, hFirst, if_neg Bool.false_ne_true, hSecond, if_neg Bool.false_ne_true, hThird,
      if_neg Bool.false_ne_true, if_pos (startsWith_append _ _), hDrop, parseSignature_text]
  have hKeyed {key : Bytes} (hKey : key ≠ []) (text : Bytes) : key ++ text ≠ [] :=
    List.append_ne_nil_of_left_ne_nil hKey text
  rw [GitCommit.headerLines, List.append_assoc, List.append_assoc, List.append_assoc, List.singleton_append,
    readHeaders_line (hKeyed (by decide) _) rfl, hTree, readHeaders_parents _ commit.parentsSome,
    List.cons_append, readHeaders_line (hKeyed (by decide) _) rfl, hAuthor, List.singleton_append,
    readHeaders_line (hKeyed (by decide) _) rfl, hCommitter, readHeaders_extras, readHeaders_blank]
  rfl

theorem not_mem_text (identity : GitIdentity) : LF ∉ identity.text := by
  have hZone := not_mem_zone identity (b := LF) (by decide) (by decide)
  have hSeconds : LF ∉ Decimal.numeral identity.seconds := Decimal.not_mem_numeral _ (by decide)
  have hSpace : LF ≠ space := by decide
  have hOpen : LF ≠ 60 := by decide
  have hClose : LF ≠ 62 := by decide
  simp [GitIdentity.text, identity.nameFree.2, identity.emailFree.2.2, hZone, hSeconds, hSpace, hOpen, hClose]

theorem not_mem_headerLines (commit : GitCommit) : ∀ line ∈ commit.headerLines, LF ∉ line := by
  have hHex (oid : ObjectId) : LF ∉ oid.hex := fun hMem =>
    absurd (ObjectId.mem_kDigits_of_mem_hex hMem) (by decide)
  have hJoined {key text : Bytes} (hKey : LF ∉ key) (hText : LF ∉ text) : LF ∉ key ++ text := by
    rw [List.mem_append, not_or]
    exact ⟨hKey, hText⟩
  intro line hLine
  simp only [GitCommit.headerLines, List.mem_append, List.mem_map, List.mem_cons, List.mem_flatMap,
    List.not_mem_nil, or_false] at hLine
  rcases hLine with ((rfl | ⟨parent, -, rfl⟩) | rfl | rfl) | ⟨header, -, hLine⟩
  · exact hJoined (by decide) (hHex _)
  · exact hJoined (by decide) (hHex _)
  · exact hJoined (by decide) (not_mem_text _)
  · exact hJoined (by decide) (not_mem_text _)
  · obtain ⟨hFirst, hMore⟩ := header.plain
    rw [ExtraHeader.lines, List.mem_cons, List.mem_map] at hLine
    rcases hLine with rfl | ⟨next, hNext, rfl⟩
    · exact hFirst
    · rw [List.mem_cons, not_or]
      exact ⟨by decide, hMore next hNext⟩

/-- A commit that git wrote is read back, but for the spaces at the end of a name. -/
theorem parseRawCommit_raw (oid : ObjectId) (commit : GitCommit) :
    parseRawCommit oid commit.raw =
      { oid
        tree := commit.tree
        parents := commit.parents
        author := commit.author.signature
        committer := commit.committer.signature
        subject := commit.message.takeWhile (· != LF)
        body := stripNewlines ((commit.message.dropWhile (· != LF)).drop 1)
        signedCommit := commit.headers.any fun header => startsWith header.line (ascii "gpgsig") } := by
  have hCut : Lines.cut LF commit.raw =
      (commit.headerLines ++ [] :: (Lines.cut LF commit.message).1, (Lines.cut LF commit.message).2) := by
    rw [GitCommit.raw, Lines.cut_join_append LF (not_mem_headerLines commit), Lines.cut_sep]
  rw [parseRawCommit, hCut]
  dsimp only
  rw [readHeaders_headerLines, Lines.join_cut]
  dsimp only
  by_cases hLine : LF ∈ commit.message
  · obtain ⟨subject, body, hMessage, hSubject⟩ := List.eq_append_cons_of_mem hLine
    have hFirst : ∀ b ∈ subject, (b != LF) = true := by
      intro b hb
      rw [bne_iff_ne]
      rintro rfl
      exact hSubject hb
    have hTake : (subject ++ LF :: body).takeWhile (· != LF) = subject := by
      rw [List.takeWhile_append_of_pos hFirst, List.takeWhile_cons_of_neg (by simp), List.append_nil]
    have hDrop : (subject ++ LF :: body).dropWhile (· != LF) = LF :: body := by
      rw [List.dropWhile_append_of_pos hFirst, List.dropWhile_cons_of_neg (by simp)]
    rw [hMessage, find_byte hSubject]
    dsimp only
    rw [List.take_left, drop_field, hTake, hDrop, List.drop_one, List.tail_cons]
  · have hAll : ∀ b ∈ commit.message, (b != LF) = true := by
      intro b hb
      rw [bne_iff_ne]
      rintro rfl
      exact hLine hb
    rw [find_eq_none List.mem_cons_self hLine, List.takeWhile_eq_self_iff.mpr hAll,
      List.dropWhile_eq_nil_iff.mpr hAll]
    rfl

/-- An author whose name ends in a space. -/
def spacedCommit : GitCommit where
  tree := .replicate 1
  author := { name := ascii "A ", email := ascii "a@b", seconds := 1, nameFree := by decide, emailFree := by decide,
              fits := by decide }
  committer := { name := ascii "A", email := ascii "a@b", seconds := 1, nameFree := by decide,
                 emailFree := by decide, fits := by decide }
  treeSome := rfl
  parentsSome := by simp

theorem parseRawCommit_trims_name :
    (parseRawCommit .null spacedCommit.raw).author.name ≠ spacedCommit.author.name := by
  decide +kernel

end CommitMeta

end GitBranchManager
