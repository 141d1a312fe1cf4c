import GitBranchManager.Base.BufferedOutput
import GitBranchManager.Library.InsertionMap
import GitBranchManager.Library.Pieces
import GitBranchManager.Refs.UndoPoints
import Mathlib.Data.Bool.AllAny
import Mathlib.Data.List.Sort

/-! # The listing of refs

One `for-each-ref` says what refs there are. A snapshot holds them in a fixed order, with an index by target; what
seeds the history walk and whether a fetch moved anything are read off snapshots.
-/

namespace GitBranchManager

open Library

namespace RefStore

/-- In the order in which a snapshot lists them. -/
inductive RefKind
  | localBranch
  | remoteBranch
  | tag
  | note
  | stash
  | other
  deriving DecidableEq, Repr

structure RefInfo where
  fullName : Bytes := []
  shortName : Bytes := []
  kind : RefKind := .other
  target : ObjectId := .null
  tagObject : ObjectId := .null
  upstream : Bytes := []
  ahead : Int32 := 0
  behind : Int32 := 0
  hasTrackingInfo : Bool := false
  isGone : Bool := false
  isHead : Bool := false
  isSymbolic : Bool := false
  worktreePath : Bytes := []
  deriving DecidableEq

structure RefSnapshot where
  refs : List RefInfo
  head : HeadInfo
  byTarget : InsertionMap ObjectId (List RefInfo)
  refCountGuardTripped : Bool
  totalRefCount : Nat

def kFieldSeparator : UInt8 := 0x1f

def kHeadsPrefix : Bytes := ascii "refs/heads/"
def kRemotesPrefix : Bytes := ascii "refs/remotes/"
def kTagsPrefix : Bytes := ascii "refs/tags/"

def kindForRef (fullName : Bytes) : RefKind :=
  if startsWith fullName kHeadsPrefix then .localBranch
  else if startsWith fullName kRemotesPrefix then .remoteBranch
  else if startsWith fullName kTagsPrefix then .tag
  else if startsWith fullName (ascii "refs/notes/") then .note
  else if fullName = ascii "refs/stash" then .stash
  else .other

def shortNameFor (fullName : Bytes) : RefKind → Bytes
  | .localBranch => fullName.drop kHeadsPrefix.length
  | .remoteBranch => fullName.drop kRemotesPrefix.length
  | .tag => fullName.drop kTagsPrefix.length
  | _ => fullName

def readNumberAfter (track keyword : Bytes) : Int32 :=
  match find keyword track with
  | none => 0
  | some at_ => parseInt32 ((track.drop (at_ + keyword.length)).dropWhile (· == space))

def parseTrack (track : Bytes) (info : RefInfo) : RefInfo :=
  if track.isEmpty then info
  else if (find (ascii "[gone]") track).isSome then { info with hasTrackingInfo := true, isGone := true }
  else
    { info with
      hasTrackingInfo := true
      ahead := readNumberAfter track (ascii "ahead ")
      behind := readNumberAfter track (ascii "behind ") }

/-- The sink of the listing; a line of another shape is skipped. -/
def readRef (line : Bytes) : Option RefInfo :=
  if line.isEmpty then none
  else
    match line.splitOn kFieldSeparator with
    | fullName :: objectType :: objectName :: peeled :: upstream :: track :: head :: more =>
      let kind := kindForRef fullName
      let named : RefInfo := { fullName, kind, shortName := shortNameFor fullName kind }
      let placed :=
        if objectType = ascii "tag" ∧ peeled ≠ [] then
          { named with tagObject := ObjectId.fromHex objectName, target := ObjectId.fromHex peeled }
        else { named with target := ObjectId.fromHex objectName }
      some { parseTrack track { placed with upstream } with
             isHead := head == ascii "*"
             worktreePath := more.getD 0 []
             isSymbolic := !(more.getD 1 []).isEmpty }
    | _ => none

/-- `std::string`'s order: the first bytes that differ decide, and a prefix comes first. -/
def stringLess : Bytes → Bytes → Bool
  | _, [] => false
  | [], _ :: _ => true
  | a :: as, b :: bs => if a = b then stringLess as bs else a < b

def kindIndex : RefKind → Nat
  | .localBranch => 0
  | .remoteBranch => 1
  | .tag => 2
  | .note => 3
  | .stash => 4
  | .other => 5

def refLess (a b : RefInfo) : Bool :=
  if a.kind ≠ b.kind then kindIndex a.kind < kindIndex b.kind else stringLess a.shortName b.shortName

/-- `std::sort` by a comparison of what comes strictly first. -/
def sortBy {α : Type} (less : α → α → Bool) (items : List α) : List α := items.mergeSort fun a b => !less b a

def indexRef (byTarget : InsertionMap ObjectId (List RefInfo)) (ref : RefInfo) : InsertionMap ObjectId (List RefInfo) :=
  if ref.target.isNull then byTarget else byTarget.put ref.target (((byTarget.get? ref.target).getD []) ++ [ref])

def buildIndex (refs : List RefInfo) : InsertionMap ObjectId (List RefInfo) := refs.foldl indexRef .empty

def refsAt (snapshot : RefSnapshot) (oid : ObjectId) : Option (List RefInfo) := snapshot.byTarget.get? oid

def kRefCountGuard : Nat := 2000

/-- What `load` makes of HEAD and of the listing, which comes in chunks. -/
def load (head : HeadInfo) (chunks : List Bytes) : RefSnapshot :=
  let refs := (LineSplitter.records LF chunks).filterMap readRef
  { refs := sortBy refLess refs
    head
    byTarget := buildIndex (sortBy refLess refs)
    refCountGuardTripped := kRefCountGuard < refs.length
    totalRefCount := refs.length }

def refExists (refs : RefSnapshot) (fullName : Bytes) : Bool := refs.refs.any fun ref => ref.fullName == fullName

def sameTips : List RefInfo → List RefInfo → Bool
  | left :: lefts, right :: rights =>
    if left.fullName ≠ right.fullName ∨ left.target ≠ right.target then false else sameTips lefts rights
  | _, _ => true

def byName (refs : List RefInfo) : List RefInfo := sortBy (fun x y => stringLess x.fullName y.fullName) refs

def sameRefTips (a b : RefSnapshot) : Bool :=
  if a.refs.length ≠ b.refs.length then false else sameTips (byName a.refs) (byName b.refs)

/-- Of a fetch in the background: no snapshot to compare with, or none that can be read, counts as moved. -/
def refsMovedSinceLastRefresh (refsBefore : Option RefSnapshot) (after : Option RefSnapshot) : Bool :=
  match refsBefore, after with
  | some before, some after => !sameRefTips before after
  | _, _ => true

def push (seeds : List Bytes) (value : Bytes) : List Bytes :=
  if value.isEmpty || seeds.contains value then seeds else seeds ++ [value]

def trunks : List Bytes :=
  [ascii "refs/heads/main", ascii "refs/heads/master", ascii "refs/heads/develop", ascii "refs/heads/trunk"]

def headSeeds (head : HeadInfo) : List Bytes :=
  if head.kind = .branch ∧ head.fullRef ≠ [] then push [] head.fullRef
  else if head.kind = .detached then push [] (ascii "HEAD")
  else []

/-- A ref whose upstream is a seed. -/
def seedsUpstream (refs : RefSnapshot) (ref : RefInfo) : Bool :=
  ref.isHead && !ref.upstream.isEmpty && !ref.isGone && refExists refs ref.upstream

def historySeedRefs (refs : RefSnapshot) : List Bytes :=
  let upstreams := refs.refs.foldl (fun seeds ref => if seedsUpstream refs ref then push seeds ref.upstream else seeds)
    (headSeeds refs.head)
  trunks.foldl (fun seeds trunk => if refExists refs trunk then push seeds trunk else seeds) upstreams

/-! ## The order of a snapshot -/

theorem stringLess_iff (as bs : Bytes) : stringLess as bs = true ↔ as.map UInt8.toNat < bs.map UInt8.toNat := by
  induction as generalizing bs with
  | nil => cases bs <;> simp [stringLess]
  | cons a as ih =>
    cases bs with
    | nil => simp [stringLess]
    | cons b bs =>
      rw [stringLess, List.map_cons, List.map_cons, List.cons_lt_cons_iff, UInt8.toNat_inj]
      split
      next hEq =>
        subst hEq
        rw [ih]
        simp
      next hNe =>
        rw [decide_eq_true_eq, UInt8.lt_iff_toNat_lt]
        simp [hNe]

/-- What a snapshot is ordered by. -/
def sortKey (ref : RefInfo) : Nat ×ₗ List Nat := toLex (kindIndex ref.kind, ref.shortName.map UInt8.toNat)

theorem kindIndex_injective : Function.Injective kindIndex := by
  intro a b
  cases a <;> cases b <;> simp [kindIndex]

theorem refLess_iff (a b : RefInfo) : refLess a b = true ↔ sortKey a < sortKey b := by
  rw [sortKey, sortKey, Prod.Lex.toLex_lt_toLex, refLess]
  split
  next hKind =>
    rw [decide_eq_true_eq]
    exact ⟨Or.inl, fun h => h.resolve_right fun hSame => hKind (kindIndex_injective hSame.1)⟩
  next hKind =>
    have hSame : kindIndex a.kind = kindIndex b.kind := congrArg kindIndex (not_not.mp hKind)
    rw [stringLess_iff]
    exact ⟨fun h => Or.inr ⟨hSame, h⟩, fun h => (h.resolve_left hSame.not_lt).2⟩

/-- Sorting puts what comes first first. -/
theorem pairwise_sortBy {α κ : Type} [LinearOrder κ] {less : α → α → Bool} {key : α → κ}
    (hLess : ∀ a b, less a b = true ↔ key a < key b) (items : List α) :
    (sortBy less items).Pairwise fun a b => key a ≤ key b := by
  have hLe (a b : α) : (!less b a) = true ↔ key a ≤ key b := by
    rw [Bool.not_eq_true', ← Bool.not_eq_true, hLess, not_lt]
  have hTrans (a b c : α) : (!less b a) = true → (!less c b) = true → (!less c a) = true := by
    rw [hLe, hLe, hLe]
    exact le_trans
  have hTotal (a b : α) : ((!less b a) || !less a b) = true := by
    rw [Bool.or_eq_true, hLe, hLe]
    exact le_total (key a) (key b)
  exact (List.pairwise_mergeSort hTrans hTotal items).imp fun h => (hLe _ _).mp h

theorem sortBy_perm {α : Type} (less : α → α → Bool) (items : List α) : (sortBy less items).Perm items :=
  List.mergeSort_perm items _

theorem mem_sortBy {α : Type} {less : α → α → Bool} {items : List α} {a : α} : a ∈ sortBy less items ↔ a ∈ items :=
  (sortBy_perm less items).mem_iff

/-- No two items with one key: the order is strict, and the list of items is in it once. -/
theorem pairwise_lt_sortBy {α κ : Type} [LinearOrder κ] {less : α → α → Bool} {key : α → κ}
    (hLess : ∀ a b, less a b = true ↔ key a < key b) {items : List α} (hNodup : (items.map key).Nodup) :
    (sortBy less items).Pairwise fun a b => key a < key b := by
  have hApart : ((sortBy less items).map key).Nodup := ((sortBy_perm less items).map key).nodup_iff.mpr hNodup
  have hPairwise := (pairwise_sortBy hLess items).and (List.pairwise_map.mp hApart)
  exact hPairwise.imp fun h => lt_of_le_of_ne h.1 h.2

/-! ## The index by target -/

theorem buildIndex_concat (refs : List RefInfo) (ref : RefInfo) :
    buildIndex (refs ++ [ref]) = indexRef (buildIndex refs) ref := by
  rw [buildIndex, List.foldl_append]
  rfl

/-- The refs at a commit, in the order in which they are listed. -/
def pointingAt (refs : List RefInfo) (oid : ObjectId) : List RefInfo := refs.filter fun ref => ref.target = oid

theorem pointingAt_concat (refs : List RefInfo) (ref : RefInfo) (oid : ObjectId) :
    pointingAt (refs ++ [ref]) oid = pointingAt refs oid ++ if ref.target = oid then [ref] else [] := by
  rw [pointingAt, pointingAt, List.filter_append]
  apply congrArg
  split <;> simp [*]

theorem get?_buildIndex (refs : List RefInfo) (oid : ObjectId) :
    (buildIndex refs).get? oid =
      if oid.isNull = true ∨ pointingAt refs oid = [] then none else some (pointingAt refs oid) := by
  induction refs using List.reverseRecOn with
  | nil => exact (if_pos (Or.inr rfl)).symm
  | append_singleton refs ref ih =>
    rw [buildIndex_concat, indexRef, pointingAt_concat]
    obtain rfl | hTarget := eq_or_ne ref.target oid
    · rw [if_pos (Eq.refl ref.target)]
      split
      next hNull => rw [ih, if_pos (Or.inl hNull), if_pos (Or.inl hNull)]
      next hReal =>
        have hSome : ¬ (ref.target.isNull = true ∨ pointingAt refs ref.target ++ [ref] = []) := by simp [hReal]
        rw [InsertionMap.get?_put, if_pos rfl, if_neg hSome, ih]
        split
        next hNone => rw [hNone.resolve_left hReal, Option.getD_none]
        next => rfl
    · rw [if_neg hTarget, List.append_nil, ← ih]
      split
      next => rfl
      next => rw [InsertionMap.get?_put, if_neg (Ne.symm hTarget)]

/-! ## What git lists -/

/-- The counts of `%(upstream:track)`. -/
inductive Track
  | gone
  | counts (ahead behind : Fin (2 ^ 31))

namespace Track

def aheadText (n : Nat) : Bytes := ascii "ahead " ++ Decimal.numeral n

def behindText (n : Nat) : Bytes := ascii "behind " ++ Decimal.numeral n

/-- The field of a branch that is neither ahead nor behind is empty. -/
def text : Track → Bytes
  | gone => ascii "[gone]"
  | counts ahead behind =>
    if ahead = 0 ∧ behind = 0 then []
    else if behind = 0 then ascii "[" ++ (aheadText ahead ++ ascii "]")
    else if ahead = 0 then ascii "[" ++ (behindText behind ++ ascii "]")
    else ascii "[" ++ (aheadText ahead ++ (ascii ", " ++ (behindText behind ++ ascii "]")))

/-- What the field says of a branch. -/
def marked (info : RefInfo) : Track → RefInfo
  | gone => { info with hasTrackingInfo := true, isGone := true }
  | counts ahead behind =>
    if ahead = 0 ∧ behind = 0 then info
    else { info with hasTrackingInfo := true, ahead := Int32.ofNat ahead, behind := Int32.ofNat behind }

/-- The field says nothing of a branch but how it tracks. -/
theorem exists_marked (track : Track) (info : RefInfo) :
    ∃ hasTrackingInfo isGone ahead behind,
      track.marked info = { info with hasTrackingInfo, isGone, ahead, behind } := by
  cases track with
  | gone => exact ⟨true, true, info.ahead, info.behind, rfl⟩
  | counts ahead behind =>
    rw [marked]
    split
    next => exact ⟨info.hasTrackingInfo, info.isGone, info.ahead, info.behind, rfl⟩
    next => exact ⟨true, info.isGone, Int32.ofNat ahead, Int32.ofNat behind, rfl⟩

theorem marked_placed (track : Track) (info : RefInfo) (isHead isSymbolic : Bool) (worktreePath : Bytes) :
    { track.marked info with isHead, worktreePath, isSymbolic } =
      track.marked { info with isHead, worktreePath, isSymbolic } := by
  cases track with
  | gone => rfl
  | counts ahead behind =>
    rw [marked, marked]
    split <;> rfl

theorem not_mem_aheadText {b : UInt8} (hWord : b ∉ ascii "ahead ") (hDigit : Decimal.isDigit b = false) (n : Nat) :
    b ∉ aheadText n := by
  rw [aheadText, List.mem_append]
  exact fun h => h.elim hWord (Decimal.not_mem_numeral n hDigit)

theorem not_mem_behindText {b : UInt8} (hWord : b ∉ ascii "behind ") (hDigit : Decimal.isDigit b = false) (n : Nat) :
    b ∉ behindText n := by
  rw [behindText, List.mem_append]
  exact fun h => h.elim hWord (Decimal.not_mem_numeral n hDigit)

theorem parseInt32_numeral {n : Nat} (hFits : n < 2 ^ 31) {rest : Bytes}
    (h : ∀ b ∈ rest.head?, Decimal.isDigit b = false) : parseInt32 (Decimal.numeral n ++ rest) = Int32.ofNat n := by
  have hMin : Int32.minValue.toInt ≤ n := by
    have hNeg : Int32.minValue.toInt ≤ 0 := by decide
    omega
  have hMax : (n : Int) ≤ Int32.maxValue.toInt := by
    have hTop : Int32.maxValue.toInt = 2 ^ 31 - 1 := by decide
    omega
  rw [parseInt32, signedValue_numeral n h]
  exact if_pos ⟨hMin, hMax⟩

theorem find_word {b : UInt8} {front needle : Bytes} (hFirst : needle.head? = some b) (hFront : b ∉ front)
    (view : Bytes) : find needle (front ++ (needle ++ view)) = some front.length := by
  obtain ⟨needle, rfl⟩ := List.head?_eq_some_iff.mp hFirst
  rw [find_skip hFront, find_of_startsWith (startsWith_append _ _), Option.map_some, Nat.zero_add]

theorem readNumberAfter_numeral {b : UInt8} {front rest keyword : Bytes} {n : Nat} (hFirst : keyword.head? = some b)
    (hFront : b ∉ front) (hFits : n < 2 ^ 31) (hRest : ∀ b ∈ rest.head?, Decimal.isDigit b = false) :
    readNumberAfter (front ++ (keyword ++ Decimal.numeral n ++ rest)) keyword = Int32.ofNat n := by
  have hDigit (b : UInt8) (hb : Decimal.isDigit b = true) : (b == space) = false := by
    rw [beq_eq_false_iff_ne]
    rintro rfl
    cases hb
  rw [readNumberAfter, List.append_assoc, find_word hFirst hFront]
  simp only
  rw [← List.drop_drop, List.drop_left, List.drop_left, Decimal.dropWhile_numeral hDigit,
    parseInt32_numeral hFits hRest]

theorem readNumberAfter_absent {track keyword : Bytes} {b : UInt8} (hKeyword : b ∈ keyword) (hTrack : b ∉ track) :
    readNumberAfter track keyword = 0 := by
  rw [readNumberAfter, find_eq_none hKeyword hTrack]

theorem readNumberAfter_ahead (ahead : Fin (2 ^ 31)) {rest : Bytes}
    (hRest : ∀ b ∈ rest.head?, Decimal.isDigit b = false) :
    readNumberAfter (ascii "[" ++ (aheadText ahead ++ rest)) (ascii "ahead ") = Int32.ofNat ahead :=
  readNumberAfter_numeral (b := 97) rfl (by decide) ahead.isLt hRest

theorem readNumberAfter_behind {front rest : Bytes} (hFront : 98 ∉ front) (behind : Fin (2 ^ 31))
    (hRest : ∀ b ∈ rest.head?, Decimal.isDigit b = false) :
    readNumberAfter (front ++ (behindText behind ++ rest)) (ascii "behind ") = Int32.ofNat behind :=
  readNumberAfter_numeral (b := 98) rfl hFront behind.isLt hRest

theorem parseTrack_counts {track : Bytes} (hSome : track ≠ []) (hGone : 103 ∉ track) (info : RefInfo) :
    parseTrack track info =
      { info with
        hasTrackingInfo := true
        ahead := readNumberAfter track (ascii "ahead ")
        behind := readNumberAfter track (ascii "behind ") } := by
  have hEmpty : track.isEmpty = false := List.isEmpty_eq_false_iff.mpr hSome
  have hMark : find (ascii "[gone]") track = none := find_eq_none (b := 103) (by decide) hGone
  rw [parseTrack, hEmpty, hMark]
  rfl

theorem parseTrack_text (track : Track) (info : RefInfo) : parseTrack track.text info = track.marked info := by
  cases track with
  | gone => rfl
  | counts ahead behind =>
    have hClose : ∀ b ∈ (ascii "]").head?, Decimal.isDigit b = false := by
      rintro _ ⟨⟩
      decide
    have hComma (text : Bytes) : ∀ b ∈ (ascii ", " ++ text).head?, Decimal.isDigit b = false := by
      rintro _ ⟨⟩
      decide
    rw [text, marked]
    split
    next => rfl
    next hSome =>
      split
      next hBehind =>
        have hGone : 103 ∉ ascii "[" ++ (aheadText ahead ++ ascii "]") := by
          simp [not_mem_aheadText, ascii, Decimal.isDigit]
        have hAbsent : 98 ∉ ascii "[" ++ (aheadText ahead ++ ascii "]") := by
          simp [not_mem_aheadText, ascii, Decimal.isDigit]
        rw [parseTrack_counts (by simp [ascii]) hGone, readNumberAfter_ahead ahead hClose,
          readNumberAfter_absent (b := 98) (by decide) hAbsent, hBehind]
        rfl
      next hBehind =>
        split
        next hAhead =>
          have hGone : 103 ∉ ascii "[" ++ (behindText behind ++ ascii "]") := by
            simp [not_mem_behindText, ascii, Decimal.isDigit]
          have hAbsent : 97 ∉ ascii "[" ++ (behindText behind ++ ascii "]") := by
            simp [not_mem_behindText, ascii, Decimal.isDigit]
          rw [parseTrack_counts (by simp [ascii]) hGone, readNumberAfter_behind (by decide) behind hClose,
            readNumberAfter_absent (b := 97) (by decide) hAbsent, hAhead]
          rfl
        next hAhead =>
          have hText : ascii "[" ++ (aheadText ahead ++ (ascii ", " ++ (behindText behind ++ ascii "]"))) =
              (ascii "[" ++ (aheadText ahead ++ ascii ", ")) ++ (behindText behind ++ ascii "]") := by
            simp only [List.append_assoc]
          have hGone : 103 ∉ ascii "[" ++ (aheadText ahead ++ (ascii ", " ++ (behindText behind ++ ascii "]"))) := by
            simp [not_mem_aheadText, not_mem_behindText, ascii, Decimal.isDigit]
          have hFront : 98 ∉ ascii "[" ++ (aheadText ahead ++ ascii ", ") := by
            simp [not_mem_aheadText, ascii, Decimal.isDigit]
          rw [parseTrack_counts (by simp [ascii]) hGone, readNumberAfter_ahead ahead (hComma _)]
          rw [hText, readNumberAfter_behind hFront behind hClose]

end Track

/-- What a ref is: a tag object says what it peels to, any other object is the target itself. -/
inductive Pointee
  | object (objectType : Bytes) (id : ObjectId)
  | tag (id peeled : ObjectId)

namespace Pointee

/-- The type, the name and the peeled name. -/
def fields : Pointee → List Bytes
  | object objectType id => [objectType, id.hex, []]
  | tag id peeled => [ascii "tag", id.hex, peeled.hex]

def target : Pointee → ObjectId
  | object _ id => id
  | tag _ peeled => peeled

def tagObject : Pointee → ObjectId
  | object .. => .null
  | tag id _ => id

end Pointee

structure ListedRef where
  name : Bytes
  pointee : Pointee
  upstream : Bytes := []
  track : Track := .counts 0 0
  isHead : Bool := false
  worktreePath : Bytes := []
  symref : Bytes := []

namespace ListedRef

def fields (ref : ListedRef) : List Bytes :=
  ref.name :: (ref.pointee.fields ++
    [ref.upstream, ref.track.text, if ref.isHead then ascii "*" else ascii " ", ref.worktreePath])

def line (ref : ListedRef) : Bytes := Lines.join kFieldSeparator ref.fields ++ ref.symref

def placed (ref : ListedRef) : RefInfo where
  fullName := ref.name
  shortName := shortNameFor ref.name (kindForRef ref.name)
  kind := kindForRef ref.name
  target := ref.pointee.target
  tagObject := ref.pointee.tagObject
  upstream := ref.upstream
  isHead := ref.isHead
  isSymbolic := !ref.symref.isEmpty
  worktreePath := ref.worktreePath

/-- What is to be read from the line. -/
def info (ref : ListedRef) : RefInfo := ref.track.marked ref.placed

/-- The names that git allows have no control characters, and a path that has none of these two is listed as it is. -/
structure WellFormed (ref : ListedRef) : Prop where
  line_free : LF ∉ ref.line
  field_free : ∀ field ∈ ref.fields, kFieldSeparator ∉ field
  symref_free : kFieldSeparator ∉ ref.symref
  symref_return : CR ∉ ref.symref
  target_real : ref.pointee.target.isNull = false
  object_type : ∀ objectType id, ref.pointee = .object objectType id → objectType ≠ ascii "tag"
  tag_real : ∀ id peeled, ref.pointee = .tag id peeled → id.isNull = false

theorem trimmed_line {ref : ListedRef} (h : ref.WellFormed) : LineSplitter.trimmed LF ref.line = ref.line := by
  have hFront : (Lines.join kFieldSeparator ref.fields).getLast? ≠ some CR := by
    have hFields : ref.fields ≠ [] := List.cons_ne_nil _ _
    obtain ⟨front, last, hLast⟩ := (List.eq_nil_or_concat' ref.fields).resolve_left hFields
    rw [hLast, Lines.join_append, Lines.join_cons, Lines.join_nil, ← List.append_assoc, List.getLast?_concat]
    decide
  rw [line, LineSplitter.trimmed_append hFront, LineSplitter.trimmed_of_not_mem h.symref_return]

theorem ne_nil_of_real {id : ObjectId} (h : id.isNull = false) : id.hex ≠ [] := by
  intro hNil
  have hId := ObjectId.fromHex_hex h
  rw [hNil] at hId
  rw [← hId] at h
  cases h

theorem readRef_line {ref : ListedRef} (h : ref.WellFormed) : readRef ref.line = some ref.info := by
  have hSplit : ref.line.splitOn kFieldSeparator = ref.fields ++ [ref.symref] :=
    Pieces.splitOn_join h.field_free h.symref_free
  have hSome : ref.line.isEmpty = false := by simp [line, fields]
  have hHead : ((if ref.isHead then ascii "*" else ascii " ") == ascii "*") = ref.isHead := by
    cases ref.isHead <;> decide
  obtain ⟨name, pointee, upstream, track, isHead, worktreePath, symref⟩ := ref
  rw [readRef, hSome, hSplit]
  cases pointee with
  | object objectType id =>
    have hType : ¬ (objectType = ascii "tag" ∧ ([] : Bytes) ≠ []) := fun hTag => hTag.2 rfl
    have hId : ObjectId.fromHex id.hex = id := ObjectId.fromHex_hex h.target_real
    simp only [fields, Pointee.fields, List.cons_append, List.nil_append, Bool.false_eq_true, if_false, if_neg hType]
    rw [Track.parseTrack_text, hId, hHead, Track.marked_placed]
    rfl
  | tag id peeled =>
    have hType : True ∧ peeled.hex ≠ [] := ⟨trivial, ne_nil_of_real h.target_real⟩
    have hId : ObjectId.fromHex id.hex = id := ObjectId.fromHex_hex (h.tag_real id peeled rfl)
    have hPeeled : ObjectId.fromHex peeled.hex = peeled := ObjectId.fromHex_hex h.target_real
    simp only [fields, Pointee.fields, List.cons_append, List.nil_append, Bool.false_eq_true, if_false, if_pos hType]
    rw [Track.parseTrack_text, hId, hPeeled, hHead, Track.marked_placed]
    rfl

theorem info_fixed (ref : ListedRef) :
    ref.info.fullName = ref.name ∧ ref.info.kind = kindForRef ref.name ∧
      ref.info.shortName = shortNameFor ref.name (kindForRef ref.name) ∧ ref.info.target = ref.pointee.target := by
  obtain ⟨hasTrackingInfo, isGone, ahead, behind, hMarked⟩ := ref.track.exists_marked ref.placed
  rw [info, hMarked]
  exact ⟨rfl, rfl, rfl, rfl⟩

end ListedRef

/-- The kind says what the short name lacks of the name. -/
def kindPrefix : RefKind → Bytes
  | .localBranch => kHeadsPrefix
  | .remoteBranch => kRemotesPrefix
  | .tag => kTagsPrefix
  | _ => []

theorem kindPrefix_shortName (name : Bytes) :
    kindPrefix (kindForRef name) ++ shortNameFor name (kindForRef name) = name := by
  have hPrefix {pre : Bytes} (h : startsWith name pre = true) : pre ++ name.drop pre.length = name := by
    obtain ⟨rest, rfl⟩ := startsWith_iff.mp h
    rw [List.drop_left]
  rw [kindForRef]
  split
  next h => exact hPrefix h
  next =>
    split
    next h => exact hPrefix h
    next =>
      split
      next h => exact hPrefix h
      next =>
        split
        next => rfl
        next => split <;> rfl

theorem name_of_key {left right : ListedRef} (h : sortKey left.info = sortKey right.info) : left.name = right.name := by
  obtain ⟨-, hLeftKind, hLeftShort, -⟩ := left.info_fixed
  obtain ⟨-, hRightKind, hRightShort, -⟩ := right.info_fixed
  rw [sortKey, sortKey, toLex_inj, Prod.mk.injEq, hLeftKind, hLeftShort, hRightKind, hRightShort] at h
  have hShort := List.map_injective_iff.mpr (fun a b => UInt8.toNat_inj.mp) h.2
  rw [← kindPrefix_shortName left.name, ← kindPrefix_shortName right.name, hShort, kindIndex_injective h.1]

/-- Git lists a ref once. -/
structure Listing where
  refs : List ListedRef
  wellFormed : ∀ ref ∈ refs, ref.WellFormed
  distinct : (refs.map ListedRef.name).Nodup

namespace Listing

def text (listing : Listing) : Bytes := Lines.join LF (listing.refs.map ListedRef.line)

def infos (listing : Listing) : List RefInfo := listing.refs.map ListedRef.info

theorem nodup_keys (listing : Listing) : (listing.infos.map sortKey).Nodup := by
  rw [infos, List.Nodup, List.pairwise_map, List.pairwise_map]
  exact (List.pairwise_map.mp listing.distinct).imp fun hApart hKey => hApart (name_of_key hKey)

theorem filterMap_readRef (listing : Listing) :
    (listing.refs.map ListedRef.line).filterMap readRef = listing.infos := by
  have hRead {refs : List ListedRef} (h : ∀ ref ∈ refs, ref.WellFormed) :
      refs.filterMap (readRef ∘ ListedRef.line) = refs.map ListedRef.info := by
    induction refs with
    | nil => rfl
    | cons ref refs ih =>
      obtain ⟨hFirst, hRest⟩ := List.forall_mem_cons.mp h
      have hLine : (readRef ∘ ListedRef.line) ref = some ref.info := ListedRef.readRef_line hFirst
      rw [List.filterMap_cons_some hLine, ih hRest, List.map_cons]
  rw [List.filterMap_map]
  exact hRead listing.wellFormed

theorem read_chunks (listing : Listing) {chunks : List Bytes} (hChunks : chunks.flatten = listing.text) :
    (LineSplitter.records LF chunks).filterMap readRef = listing.infos := by
  have hFree : ∀ line ∈ listing.refs.map ListedRef.line, LF ∉ line := by
    intro line hMem
    obtain ⟨ref, hRef, rfl⟩ := List.mem_map.mp hMem
    exact (listing.wellFormed ref hRef).line_free
  have hTrimmed : (listing.refs.map ListedRef.line).map (LineSplitter.trimmed LF) =
      listing.refs.map ListedRef.line := by
    rw [List.map_map]
    exact List.map_congr_left fun ref hMem => ListedRef.trimmed_line (listing.wellFormed ref hMem)
  rw [LineSplitter.records_join hFree hChunks, hTrimmed, filterMap_readRef]

theorem refs_load (listing : Listing) {chunks : List Bytes} (hChunks : chunks.flatten = listing.text)
    (head : HeadInfo) : (load head chunks).refs = sortBy refLess listing.infos := by
  rw [load, listing.read_chunks hChunks]

end Listing

/-- However git's output is chopped, a snapshot has the listed refs once each and in order, and under each commit those
that point at it. -/
theorem load_listing (listing : Listing) {chunks : List Bytes} (hChunks : chunks.flatten = listing.text)
    (head : HeadInfo) :
    (load head chunks).refs.Perm listing.infos ∧
      (load head chunks).refs.Pairwise (fun a b => sortKey a < sortKey b) ∧
      (load head chunks).totalRefCount = listing.refs.length ∧
      ∀ oid, refsAt (load head chunks) oid =
        if ∃ ref ∈ listing.refs, ref.pointee.target = oid then
          some ((load head chunks).refs.filter fun ref => ref.target = oid)
        else none := by
  have hRefs := listing.refs_load hChunks head
  refine ⟨?_, ?_, ?_, fun oid => ?_⟩
  · rw [hRefs]
    exact sortBy_perm _ _
  · rw [hRefs]
    exact pairwise_lt_sortBy refLess_iff listing.nodup_keys
  · change ((LineSplitter.records LF chunks).filterMap readRef).length = _
    rw [listing.read_chunks hChunks, Listing.infos, List.length_map]
  · have hListed (ref : RefInfo) : ref ∈ (load head chunks).refs ↔ ref ∈ listing.infos := by rw [hRefs, mem_sortBy]
    have hIndex : refsAt (load head chunks) oid = _ := get?_buildIndex (load head chunks).refs oid
    rw [hIndex]
    split
    next hNone =>
      have hAbsent : ¬ ∃ ref ∈ listing.refs, ref.pointee.target = oid := by
        rintro ⟨ref, hMem, rfl⟩
        have hReal := (listing.wellFormed ref hMem).target_real
        have hPointing : ref.info ∈ pointingAt (load head chunks).refs ref.pointee.target :=
          List.mem_filter.mpr ⟨(hListed _).mpr (List.mem_map_of_mem hMem), decide_eq_true ref.info_fixed.2.2.2⟩
        rw [hReal] at hNone
        rw [hNone.resolve_left Bool.false_ne_true] at hPointing
        cases hPointing
      exact (if_neg hAbsent).symm
    next hSome =>
      obtain ⟨ref, hPointing⟩ := List.exists_mem_of_ne_nil _ (not_or.mp hSome).2
      obtain ⟨hMem, hTarget⟩ := List.mem_filter.mp hPointing
      obtain ⟨listed, hPlace, rfl⟩ := List.mem_map.mp ((hListed ref).mp hMem)
      have hPresent : ∃ ref ∈ listing.refs, ref.pointee.target = oid :=
        ⟨listed, hPlace, listed.info_fixed.2.2.2 ▸ of_decide_eq_true hTarget⟩
      exact (if_pos hPresent).symm

def mainRef : ListedRef where
  name := ascii "refs/heads/main"
  pointee := .object (ascii "commit") (ObjectId.replicate 17)
  upstream := ascii "refs/remotes/origin/main"
  track := .counts 2 0
  isHead := true

def releaseTag : ListedRef where
  name := ascii "refs/tags/v1"
  pointee := .tag (ObjectId.replicate 5) (ObjectId.replicate 17)

/-- A branch and an annotated tag at one commit. -/
def tagged : Listing where
  refs := [releaseTag, mainRef]
  wellFormed := by
    have hTag : releaseTag.WellFormed :=
      { line_free := by decide
        field_free := List.all_iff_forall_prop.mp (by decide)
        symref_free := by decide
        symref_return := by decide
        target_real := by decide
        object_type := nofun
        tag_real := by
          rintro _ _ ⟨⟩
          decide }
    have hMain : mainRef.WellFormed :=
      { line_free := by decide
        field_free := List.all_iff_forall_prop.mp (by decide)
        symref_free := by decide
        symref_return := by decide
        target_real := by decide
        object_type := by
          rintro _ _ ⟨⟩
          decide
        tag_real := nofun }
    exact List.forall_mem_cons.mpr ⟨hTag, List.forall_mem_singleton.mpr hMain⟩
  distinct := by decide

theorem load_listing_tagged :
    let snapshot := load {} [tagged.text.take 7, tagged.text.drop 7]
    snapshot.refs.Perm tagged.infos ∧ snapshot.refs.Pairwise (fun a b => sortKey a < sortKey b) ∧
      snapshot.totalRefCount = 2 ∧
      ∀ oid, refsAt snapshot oid =
        if ∃ ref ∈ tagged.refs, ref.pointee.target = oid then some (snapshot.refs.filter fun ref => ref.target = oid)
        else none :=
  load_listing tagged (by rw [List.flatten_cons, List.flatten_singleton, List.take_append_drop]) {}

/-! ## Whether a fetch moved anything -/

/-- What is compared of a ref. -/
def tip (ref : RefInfo) : Bytes × ObjectId := (ref.fullName, ref.target)

theorem sameTips_iff {lefts rights : List RefInfo} (hLength : lefts.length = rights.length) :
    sameTips lefts rights = true ↔ lefts.map tip = rights.map tip := by
  induction lefts generalizing rights with
  | nil =>
    obtain rfl := List.length_eq_zero_iff.mp hLength.symm
    simp [sameTips]
  | cons left lefts ih =>
    cases rights with
    | nil => cases hLength
    | cons right rights =>
      rw [sameTips, List.map_cons, List.map_cons, List.cons.injEq, tip, tip, Prod.mk.injEq]
      split
      next hDiffer =>
        exact ⟨fun h => absurd h Bool.false_ne_true, fun h => absurd h.1 (not_and_or.mpr hDiffer)⟩
      next hSame =>
        obtain ⟨hName, hTarget⟩ := not_or.mp hSame
        rw [ih (Nat.succ.inj hLength), and_iff_right ⟨not_not.mp hName, not_not.mp hTarget⟩]

theorem byName_perm (refs : List RefInfo) : (byName refs).Perm refs := sortBy_perm _ refs

/-- What the refs are sorted by to be compared. -/
def nameKey (ref : RefInfo) : List Nat := ref.fullName.map UInt8.toNat

theorem nodup_nameKey {refs : List RefInfo} (h : (refs.map RefInfo.fullName).Nodup) : (refs.map nameKey).Nodup := by
  have hKeys := h.map (List.map_injective_iff.mpr fun a b => UInt8.toNat_inj.mp)
  rwa [List.map_map] at hKeys

theorem map_tip_eq_iff {a b : List RefInfo} (ha : (a.map RefInfo.fullName).Nodup)
    (hb : (b.map RefInfo.fullName).Nodup) :
    (byName a).map tip = (byName b).map tip ↔ ∀ t, t ∈ a.map tip ↔ t ∈ b.map tip := by
  have hPerm (refs : List RefInfo) : ((byName refs).map tip).Perm (refs.map tip) := (byName_perm refs).map tip
  have hLess (x y : RefInfo) : stringLess x.fullName y.fullName = true ↔ nameKey x < nameKey y := stringLess_iff _ _
  have hOrder {refs : List RefInfo} (h : (refs.map RefInfo.fullName).Nodup) :
      ((byName refs).map tip).Pairwise fun t u => t.1.map UInt8.toNat < u.1.map UInt8.toNat :=
    List.pairwise_map.mpr (pairwise_lt_sortBy hLess (nodup_nameKey h))
  have hNodup {refs : List RefInfo} (h : (refs.map RefInfo.fullName).Nodup) : (refs.map tip).Nodup := by
    apply List.Nodup.of_map Prod.fst
    rwa [List.map_map]
  constructor
  · intro h t
    rw [← (hPerm a).mem_iff, h, (hPerm b).mem_iff]
  · intro h
    have hSame : (a.map tip).Perm (b.map tip) := (List.perm_ext_iff_of_nodup (hNodup ha) (hNodup hb)).mpr h
    have hSorted : ((byName a).map tip).Perm ((byName b).map tip) := (hPerm a).trans (hSame.trans (hPerm b).symm)
    exact hSorted.eq_of_pairwise (fun t u _ _ hLess hMore => absurd hMore hLess.asymm) (hOrder ha) (hOrder hb)

theorem sameRefTips_iff {a b : RefSnapshot} (ha : (a.refs.map RefInfo.fullName).Nodup)
    (hb : (b.refs.map RefInfo.fullName).Nodup) :
    sameRefTips a b = true ↔ ∀ t, t ∈ a.refs.map tip ↔ t ∈ b.refs.map tip := by
  have hLength (refs : List RefInfo) : ((byName refs).map tip).length = refs.length := by
    rw [List.length_map, (byName_perm refs).length_eq]
  rw [sameRefTips, ← map_tip_eq_iff ha hb]
  split
  next hDiffer =>
    refine ⟨fun h => absurd h Bool.false_ne_true, fun h => absurd ?_ hDiffer⟩
    rw [← hLength a.refs, ← hLength b.refs, h]
  next hSame =>
    apply sameTips_iff
    rw [(byName_perm a.refs).length_eq, (byName_perm b.refs).length_eq, not_not.mp hSame]

namespace Listing

theorem nodup_names (listing : Listing) {chunks : List Bytes} (hChunks : chunks.flatten = listing.text)
    (head : HeadInfo) : ((load head chunks).refs.map RefInfo.fullName).Nodup := by
  have hNames : listing.infos.map RefInfo.fullName = listing.refs.map ListedRef.name := by
    rw [infos, List.map_map]
    exact List.map_congr_left fun ref _ => ref.info_fixed.1
  rw [listing.refs_load hChunks, ((sortBy_perm _ listing.infos).map RefInfo.fullName).nodup_iff, hNames]
  exact listing.distinct

theorem mem_tips (listing : Listing) {chunks : List Bytes} (hChunks : chunks.flatten = listing.text)
    (head : HeadInfo) (t : Bytes × ObjectId) :
    t ∈ (load head chunks).refs.map tip ↔ ∃ ref ∈ listing.refs, (ref.name, ref.pointee.target) = t := by
  have hTips : listing.infos.map tip = listing.refs.map fun ref => (ref.name, ref.pointee.target) := by
    rw [infos, List.map_map]
    refine List.map_congr_left fun ref _ => ?_
    rw [Function.comp_apply, tip, ref.info_fixed.1, ref.info_fixed.2.2.2]
  rw [listing.refs_load hChunks, ((sortBy_perm _ listing.infos).map tip).mem_iff, hTips, List.mem_map]

end Listing

/-- A fetch in the background moved nothing if and only if git lists the names at the commits at which it listed
them. -/
theorem refsMoved_listing (before after : Listing) {chunks later : List Bytes}
    (hBefore : chunks.flatten = before.text) (hAfter : later.flatten = after.text) (head moved : HeadInfo) :
    refsMovedSinceLastRefresh (some (load head chunks)) (some (load moved later)) = false ↔
      ∀ name target,
        (∃ ref ∈ before.refs, ref.name = name ∧ ref.pointee.target = target) ↔
          ∃ ref ∈ after.refs, ref.name = name ∧ ref.pointee.target = target := by
  have hSame := sameRefTips_iff (before.nodup_names hBefore head) (after.nodup_names hAfter moved)
  rw [refsMovedSinceLastRefresh, Bool.not_eq_false', hSame, Prod.forall]
  simp only [before.mem_tips hBefore, after.mem_tips hAfter, Prod.mk.injEq]

theorem refsMoved_listing_tagged :
    refsMovedSinceLastRefresh (some (load {} [tagged.text])) (some (load {} [tagged.text, []])) = false ↔
      ∀ name target,
        (∃ ref ∈ tagged.refs, ref.name = name ∧ ref.pointee.target = target) ↔
          ∃ ref ∈ tagged.refs, ref.name = name ∧ ref.pointee.target = target :=
  refsMoved_listing tagged tagged List.flatten_singleton (by simp) {} {}

/-! ## The seeds of the history walk -/

def candidates (refs : RefSnapshot) : List Bytes :=
  headSeeds refs.head ++ ((refs.refs.filter (seedsUpstream refs)).map RefInfo.upstream ++
    trunks.filter (refExists refs))

theorem push_eq {seeds : List Bytes} {value : Bytes} (h : value ≠ []) :
    push seeds value = if seeds.contains value then seeds else seeds ++ [value] := by
  rw [push, List.isEmpty_eq_false_iff.mpr h, Bool.false_or]

/-- Pushing what passes a test keeps of each value the first. -/
theorem foldl_push {α : Type} {p : α → Bool} {f : α → Bytes} {items : List α}
    (hSome : ∀ a ∈ items, p a = true → f a ≠ []) (front : List Bytes) :
    items.foldl (fun seeds a => if p a then push seeds (f a) else seeds) front.eraseDups =
      (front ++ (items.filter p).map f).eraseDups := by
  induction items using List.reverseRecOn with
  | nil => simp
  | append_singleton items last ih =>
    have hItems : ∀ a ∈ items, p a = true → f a ≠ [] := fun a hMem => hSome a (List.mem_append_left _ hMem)
    rw [List.foldl_append, ih hItems, List.foldl_cons, List.foldl_nil, List.filter_append]
    split
    next hLast =>
      have hValue : f last ≠ [] := hSome last (List.mem_append_right _ List.mem_cons_self) hLast
      have hContains (seeds : List Bytes) (value : Bytes) : seeds.eraseDups.contains value = seeds.contains value := by
        rw [Bool.eq_iff_iff, List.contains_iff_mem, List.contains_iff_mem, List.mem_eraseDups]
      rw [push_eq hValue, List.filter_cons_of_pos hLast, List.filter_nil, List.map_append,
        List.map_singleton, ← List.append_assoc, eraseDups_concat, hContains]
    next hLast => rw [List.filter_cons_of_neg hLast, List.filter_nil, List.append_nil]

theorem eraseDups_headSeeds (head : HeadInfo) : (headSeeds head).eraseDups = headSeeds head := by
  rw [headSeeds]
  split
  next hBranch =>
    rw [push_eq hBranch.2]
    rfl
  next =>
    split
    next => rfl
    next => rfl

theorem historySeedRefs_eq (refs : RefSnapshot) : historySeedRefs refs = (candidates refs).eraseDups := by
  have hUpstream (ref : RefInfo) (_ : ref ∈ refs.refs) (hSeeds : seedsUpstream refs ref = true) :
      ref.upstream ≠ [] := by
    intro hNone
    rw [seedsUpstream, hNone] at hSeeds
    simp at hSeeds
  have hTrunk (trunk : Bytes) (hMem : trunk ∈ trunks) (_ : refExists refs trunk = true) : trunk ≠ [] := by
    rintro rfl
    exact absurd hMem (by decide)
  have hUpstreams := foldl_push hUpstream (headSeeds refs.head)
  rw [eraseDups_headSeeds] at hUpstreams
  rw [historySeedRefs, hUpstreams, candidates, ← List.append_assoc]
  exact (foldl_push hTrunk _).trans (by rw [List.map_id'])

theorem historySeedRefs_spec (refs : RefSnapshot) :
    (historySeedRefs refs).Nodup ∧ headSeeds refs.head <+: historySeedRefs refs ∧
      ∀ seed, seed ∈ historySeedRefs refs ↔
        seed ∈ headSeeds refs.head ∨ (∃ ref ∈ refs.refs, seedsUpstream refs ref = true ∧ ref.upstream = seed) ∨
          (seed ∈ trunks ∧ refExists refs seed = true) := by
  rw [historySeedRefs_eq]
  refine ⟨nodup_eraseDups _, ?_, fun seed => ?_⟩
  · rw [candidates, List.eraseDups_append, eraseDups_headSeeds]
    exact List.prefix_append _ _
  · rw [List.mem_eraseDups, candidates, List.mem_append, List.mem_append, List.mem_map, List.mem_filter]
    simp only [List.mem_filter, and_assoc]

end RefStore

end GitBranchManager
