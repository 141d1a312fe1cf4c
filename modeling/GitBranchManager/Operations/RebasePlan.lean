import GitBranchManager.Base.BufferedOutput
import GitBranchManager.Base.ObjectId
import GitBranchManager.Library.DateWalk
import GitBranchManager.Refs.RefCommands

/-! # The plan of an interactive rebase

The plan is read from a log and is then copied over the list that git made for the rebase. The log
shows merges, and commits that the other side has as well; git's list leaves both out.
-/

namespace GitBranchManager

open Library Relation LineSplitter

inductive RebaseAction
  | pick
  | edit
  | squash
  | fixup
  | drop
  deriving DecidableEq, Repr

structure RebaseTodoEntry where
  action : RebaseAction := .pick
  oid : ObjectId := .null
  shortOid : Bytes := []
  subject : Bytes := []
  deriving DecidableEq

def actionVerb : RebaseAction → Bytes
  | .pick => ascii "pick"
  | .edit => ascii "edit"
  | .squash => ascii "squash"
  | .fixup => ascii "fixup"
  | .drop => ascii "drop"

def todoLine (entry : RebaseTodoEntry) : Bytes :=
  actionVerb entry.action ++ space ::
    ((if entry.shortOid.isEmpty then entry.oid.hex else entry.shortOid) ++ space :: entry.subject)

def serializeTodo (todo : List RebaseTodoEntry) : Bytes := todo.flatMap fun entry => todoLine entry ++ [LF]

namespace RebasePlanner

def readLine (entries : List RebaseTodoEntry) (line : Bytes) : List RebaseTodoEntry :=
  match find [TAB] line with
  | none => entries
  | some firstTab =>
    let rest := line.drop (firstTab + 1)
    match find [TAB] rest with
    | none => entries
    | some length =>
      entries ++ [{
        oid := ObjectId.fromHex (line.take firstTab)
        shortOid := rest.take length
        subject := rest.drop (length + 1) }]

def command (upstream : Bytes) : GitCommand :=
  [ascii "log", ascii "--format=%H%x09%h%x09%s", ascii "--reverse", upstream ++ ascii "..HEAD"]

def plan {ρ : Type} (git : ProcessRunner ρ) (s : ρ) (upstream : Bytes) : GitResult (List RebaseTodoEntry) × ρ :=
  if upstream.isEmpty then
    (.error { code := .invalidArgument, message := ascii "No base commit selected to rebase onto" }, s)
  else match git s (command upstream) with
    | (.error e, s) => (.error e.toGitError, s)
    | (.ok out, s) => (.ok ((out.splitOn LF).foldl readLine []), s)

end RebasePlanner

/-! ## What git lists -/

/-- Commits with any dates, also a parent's later than its child's. -/
structure CommitGraph where
  parents : ObjectId → List ObjectId
  date : ObjectId → Int
  subject : ObjectId → Bytes
  shortLength : ObjectId → Nat
  acyclic : ∀ c, ¬ TransGen (fun c p => p ∈ parents c) c c
  parentsSome : ∀ c, ∀ p ∈ parents c, p.isNull = false
  subjectLine : ∀ c, LF ∉ subject c
  shortSome : ∀ c, 0 < shortLength c

namespace CommitGraph

def Parent (graph : CommitGraph) (c p : ObjectId) : Prop := p ∈ graph.parents c

def IsMerge (graph : CommitGraph) (c : ObjectId) : Prop := 2 ≤ (graph.parents c).length

instance (graph : CommitGraph) (c : ObjectId) : Decidable (graph.IsMerge c) := Nat.decLe _ _

def short (graph : CommitGraph) (c : ObjectId) : Bytes := c.hex.take (graph.shortLength c)

/-- `base..head` -/
def range (graph : CommitGraph) (base head : ObjectId) : Set ObjectId :=
  {c | ReflTransGen graph.Parent head c ∧ ¬ ReflTransGen graph.Parent base c}

def Within (graph : CommitGraph) (base head c p : ObjectId) : Prop :=
  c ∈ graph.range base head ∧ p ∈ graph.range base head ∧ graph.Parent c p

/-- What `git log base..head` shows: a queue by commit date, ties in any order. -/
def Logged (graph : CommitGraph) (base head : ObjectId) (commits : List ObjectId) : Prop :=
  let start := {c | c = head ∧ c ∈ graph.range base head}
  DateWalk (graph.Within base head) graph.date start start commits

def logLine (graph : CommitGraph) (c : ObjectId) : Bytes :=
  c.hex ++ TAB :: (graph.short c ++ TAB :: graph.subject c)

/-- The commits that a rebase replays. -/
def Replayed (graph : CommitGraph) (base head : ObjectId) : Set ObjectId :=
  {c | c ∈ graph.range base head ∧ ¬ graph.IsMerge c}

end CommitGraph

/-- The commits that git picks from a todo list: the name ends at a blank. -/
def pickedName (line : Bytes) : Option Bytes :=
  if startsWith line (ascii "pick ") then
    some ((line.drop (ascii "pick ").length).takeWhile fun b => b != space && b != TAB)
  else none

def pickedCommits (resolve : Bytes → Option ObjectId) (todo : Bytes) : List ObjectId :=
  (todo.splitOn LF).filterMap fun line => (pickedName line).bind resolve

namespace CommitGraph

variable {graph : CommitGraph} {base head : ObjectId} {commits : List ObjectId}

theorem range_of_parent {c p : ObjectId} (hParent : graph.Parent c p) (hRange : p ∈ graph.range base head)
    (hReached : ReflTransGen graph.Parent head c) : c ∈ graph.range base head :=
  ⟨hReached, fun hBase => hRange.2 (hBase.tail hParent)⟩

/-- The log has every commit of the range. -/
theorem mem_logged (h : graph.Logged base head commits) {c : ObjectId} :
    c ∈ commits ↔ c ∈ graph.range base head := by
  rw [DateWalk.mem_iff h]
  constructor
  · rintro ⟨w, ⟨-, hStart⟩, hPath⟩
    induction hPath with
    | refl => exact hStart
    | tail _ hStep _ => exact hStep.2.1
  · rintro ⟨hReached, hBase⟩
    induction hReached with
    | refl => exact ⟨head, ⟨rfl, .refl, hBase⟩, .refl⟩
    | @tail c p hReached hParent ih =>
      have hRange := range_of_parent hParent ⟨hReached.tail hParent, hBase⟩ hReached
      obtain ⟨w, hStart, hPath⟩ := ih hRange.2
      exact ⟨w, hStart, hPath.tail ⟨hRange, ⟨hReached.tail hParent, hBase⟩, hParent⟩⟩

theorem isNull_of_range (hHead : head.isNull = false) {c : ObjectId} (hRange : c ∈ graph.range base head) :
    c.isNull = false := by
  rcases hRange.1.cases_tail with rfl | ⟨child, -, hParent⟩
  · exact hHead
  · exact graph.parentsSome child c hParent

theorem eq_of_not_merge {c p q : ObjectId} (hMerge : ¬ graph.IsMerge c) (hFirst : graph.Parent c p)
    (hSecond : graph.Parent c q) : p = q := by
  rw [IsMerge] at hMerge
  rw [Parent] at hFirst hSecond
  match hParents : graph.parents c with
  | [] =>
    rw [hParents] at hFirst
    cases hFirst
  | [only] =>
    rw [hParents, List.mem_singleton] at hFirst hSecond
    rw [hFirst, hSecond]
  | _ :: _ :: _ =>
    rw [hParents] at hMerge
    simp at hMerge

/-- Without merges the range is one line of commits, whatever their dates. -/
theorem isChain_logged (h : graph.Logged base head commits)
    (hMerges : ∀ c ∈ graph.range base head, ¬ graph.IsMerge c) : commits.IsChain graph.Parent := by
  have hChain : commits.IsChain (graph.Within base head) := by
    refine DateWalk.isChain h ?_ ?_
    · rintro a b c ⟨hRange, -, hFirst⟩ ⟨-, -, hSecond⟩
      exact eq_of_not_merge (hMerges a hRange) hFirst hSecond
    · rintro a ⟨rfl, -⟩ b ⟨rfl, -⟩
      rfl
  exact hChain.imp fun _ _ hStep => hStep.2.2

end CommitGraph

namespace RebasePlanner

variable {ρ : Type} {git : ProcessRunner ρ} {s s' : ρ} {graph : CommitGraph} {base head : ObjectId}
  {commits : List ObjectId} {chunks : List Bytes} {upstream : Bytes}

/-- The entry of a commit: the subject comes without a carriage return at its end. -/
def entryOf (graph : CommitGraph) (c : ObjectId) : RebaseTodoEntry :=
  { oid := c, shortOid := graph.short c, subject := trimmed LF (graph.subject c) }

theorem not_mem_hex {b : UInt8} (hDigit : b ∉ ObjectId.kDigits) (c : ObjectId) : b ∉ c.hex :=
  fun hMem => hDigit (ObjectId.mem_kDigits_of_mem_hex hMem)

theorem not_mem_short {b : UInt8} (hDigit : b ∉ ObjectId.kDigits) (c : ObjectId) : b ∉ graph.short c :=
  fun hMem => not_mem_hex hDigit c (List.mem_of_mem_take hMem)

theorem readLine_logLine {c : ObjectId} (hSome : c.isNull = false) (entries : List RebaseTodoEntry) :
    readLine entries (trimmed LF (graph.logLine c)) = entries ++ [entryOf graph c] := by
  have hHex : TAB ∉ c.hex := not_mem_hex (by decide) c
  have hShort : TAB ∉ graph.short c := not_mem_short (by decide) c
  have hLine : trimmed LF (graph.logLine c) =
      c.hex ++ TAB :: (graph.short c ++ TAB :: trimmed LF (graph.subject c)) := by
    have hFront : (c.hex ++ TAB :: (graph.short c ++ [TAB])).getLast? ≠ some CR := by
      rw [← List.cons_append, ← List.append_assoc, List.getLast?_concat]
      decide
    have hSplit : graph.logLine c = c.hex ++ TAB :: (graph.short c ++ [TAB]) ++ graph.subject c := by
      simp [CommitGraph.logLine]
    rw [hSplit, trimmed_append hFront]
    simp
  rw [hLine, readLine, find_byte hHex]
  dsimp only
  rw [drop_field, find_byte hShort]
  dsimp only
  rw [drop_field, List.take_left, List.take_left, ObjectId.fromHex_hex hSome]
  rfl

theorem not_mem_logLine (c : ObjectId) : LF ∉ graph.logLine c := by
  have hHex : LF ∉ c.hex := not_mem_hex (by decide) c
  have hShort : LF ∉ graph.short c := not_mem_short (by decide) c
  have hTab : LF ≠ TAB := by decide
  simp [CommitGraph.logLine, hHex, hShort, hTab, graph.subjectLine c]

theorem plan_logged (hUpstream : upstream ≠ []) (hSome : ∀ c ∈ commits, c.isNull = false)
    (hChunks : chunks.flatten = Lines.join LF (commits.map graph.logLine))
    (hLog : git s (command upstream) = (.ok (ProcessRunner.buffered (records LF chunks)), s')) :
    plan git s upstream = (.ok (commits.map (entryOf graph)), s') := by
  have hRead : ((ProcessRunner.buffered (records LF chunks)).splitOn LF).foldl readLine [] =
      commits.map (entryOf graph) := by
    refine read_buffered (fun _ => rfl) (fun c _ => List.forall_mem_singleton.mpr (not_mem_logLine c)) ?_
      (hChunks.trans (congrArg _ List.map_eq_flatMap))
    exact fun c hMem entries => readLine_logLine (hSome c hMem) entries
  rw [plan, if_neg (fun hEmpty => hUpstream (List.isEmpty_iff.mp hEmpty)), hLog]
  dsimp only
  rw [hRead]

theorem short_ne_nil {c : ObjectId} (hSome : c.isNull = false) : graph.short c ≠ [] := by
  intro hEmpty
  have hLength := congrArg List.length hEmpty
  have hPositive := graph.shortSome c
  rw [CommitGraph.short, List.length_take, ObjectId.length_hex, List.length_nil] at hLength
  have hBytes : c.bytes.length ≠ 0 := by
    rw [ObjectId.isNull] at hSome
    simpa using hSome
  omega

theorem pickedName_todoLine {c : ObjectId} (hSome : c.isNull = false) :
    pickedName (todoLine (entryOf graph c)) = some (graph.short c) := by
  have hShort : (entryOf graph c).shortOid.isEmpty = false :=
    Bool.eq_false_iff.mpr fun hEmpty => short_ne_nil hSome (List.isEmpty_iff.mp hEmpty)
  have hLine : todoLine (entryOf graph c) =
      ascii "pick " ++ (graph.short c ++ space :: trimmed LF (graph.subject c)) := by
    rw [todoLine, hShort, if_neg Bool.false_ne_true]
    rfl
  have hName : ∀ b ∈ graph.short c, (b != space && b != TAB) = true := by
    intro b hMem
    have hSpace : b ≠ space := fun hSame => not_mem_short (by decide) c (hSame ▸ hMem)
    have hTab : b ≠ TAB := fun hSame => not_mem_short (by decide) c (hSame ▸ hMem)
    simp [hSpace, hTab]
  rw [hLine, pickedName, startsWith_append, if_pos rfl, List.drop_left, List.takeWhile_append_of_pos hName]
  simp

theorem not_mem_todoLine (c : ObjectId) : LF ∉ todoLine (entryOf graph c) := by
  have hHex : LF ∉ c.hex := not_mem_hex (by decide) c
  have hShort : LF ∉ graph.short c := not_mem_short (by decide) c
  have hSubject : LF ∉ trimmed LF (graph.subject c) := not_mem_trimmed (graph.subjectLine c)
  have hVerb : LF ∉ ascii "pick" := by decide
  have hSpace : LF ≠ space := by decide
  rw [todoLine]
  split <;> simp [entryOf, actionVerb, hHex, hShort, hSubject, hVerb, hSpace]

/-- Git reads the commits of the plan back from its text. -/
theorem pickedCommits_plan {resolve : Bytes → Option ObjectId} (hSome : ∀ c ∈ commits, c.isNull = false)
    (hResolve : ∀ c ∈ commits, resolve (graph.short c) = some c) :
    pickedCommits resolve (serializeTodo (commits.map (entryOf graph))) = commits := by
  have hText : serializeTodo (commits.map (entryOf graph)) =
      Lines.join LF (commits.map fun c => todoLine (entryOf graph c)) ++ [] := by
    rw [serializeTodo, Lines.join, List.flatMap_map, List.flatMap_map, List.append_nil]
  have hLines : ∀ line ∈ commits.map fun c => todoLine (entryOf graph c), LF ∉ line := by
    rw [List.forall_mem_map]
    exact fun c _ => not_mem_todoLine c
  have hRead : ∀ c ∈ commits, (pickedName (todoLine (entryOf graph c))).bind resolve = some c := by
    intro c hMem
    rw [pickedName_todoLine (hSome c hMem), Option.bind_some, hResolve c hMem]
  have hEmpty : (pickedName []).bind resolve = none := rfl
  rw [pickedCommits, hText, Pieces.splitOn_join hLines List.not_mem_nil, List.filterMap_append, List.filterMap_map]
  simp only [List.filterMap_cons, hEmpty, List.filterMap_nil, List.append_nil]
  calc commits.filterMap ((fun line => (pickedName line).bind resolve) ∘ fun c => todoLine (entryOf graph c))
      = commits.filterMap some := List.filterMap_congr hRead
    _ = commits := List.filterMap_some

/-- The plan replays what git would have replayed exactly when the range has no merge and no commit
that git leaves out because the other side has it. -/
theorem rebasePlan_exact_iff (graph : CommitGraph) (hUpstream : upstream ≠ []) (hHead : head.isNull = false)
    (hLogged : graph.Logged base head commits)
    (hChunks : chunks.flatten = Lines.join LF (commits.reverse.map graph.logLine))
    (hLog : git s (command upstream) = (.ok (ProcessRunner.buffered (records LF chunks)), s'))
    {resolve : Bytes → Option ObjectId} (hResolve : ∀ c ∈ graph.range base head, resolve (graph.short c) = some c)
    {applied : Set ObjectId} {picks : List ObjectId}
    (hPicks : TargetsFirst graph.Parent {c | c ∈ graph.Replayed base head ∧ c ∉ applied} picks) :
    (∃ entries, plan git s upstream = (.ok entries, s') ∧
        TargetsFirst graph.Parent (graph.Replayed base head) (entries.map RebaseTodoEntry.oid) ∧
        pickedCommits resolve (serializeTodo entries) = picks) ↔
      ∀ c ∈ graph.range base head, ¬ graph.IsMerge c ∧ c ∉ applied := by
  have hMem (c : ObjectId) : c ∈ commits.reverse ↔ c ∈ graph.range base head :=
    List.mem_reverse.trans (CommitGraph.mem_logged hLogged)
  have hSome : ∀ c ∈ commits.reverse, c.isNull = false :=
    fun c hC => CommitGraph.isNull_of_range hHead ((hMem c).mp hC)
  have hPlan := plan_logged hUpstream hSome hChunks hLog
  have hPicked := pickedCommits_plan hSome fun c hC => hResolve c ((hMem c).mp hC)
  have hOids : (commits.reverse.map (entryOf graph)).map RebaseTodoEntry.oid = commits.reverse := by
    rw [List.map_map]
    exact List.map_id _
  constructor
  · rintro ⟨entries, hEntries, hExact, hSame⟩ c hRange
    obtain rfl : commits.reverse.map (entryOf graph) = entries :=
      Except.ok.inj (Prod.mk.inj (hPlan.symm.trans hEntries)).1
    rw [hPicked] at hSame
    exact ⟨((hOids ▸ hExact).mem_iff c |>.mp ((hMem c).mpr hRange)).2,
      ((hSame ▸ hPicks).mem_iff c |>.mp ((hMem c).mpr hRange)).2⟩
  · intro hNone
    have hChain := CommitGraph.isChain_logged hLogged fun c hRange => (hNone c hRange).1
    have hReplayed : graph.Replayed base head = {c | c ∈ commits} := by
      ext c
      exact (and_iff_left_of_imp fun hRange => (hNone c hRange).1).trans (CommitGraph.mem_logged hLogged).symm
    have hOwn : {c | c ∈ graph.Replayed base head ∧ c ∉ applied} = {c | c ∈ commits} := by
      ext c
      rw [← hReplayed]
      exact and_iff_left_of_imp fun hC => (hNone c hC.1).2
    refine ⟨commits.reverse.map (entryOf graph), hPlan, ?_, ?_⟩
    · rw [hOids, hReplayed]
      exact TargetsFirst.reverse hChain graph.acyclic
    · rw [hOwn] at hPicks
      rw [hPicked, TargetsFirst.eq_reverse hChain graph.acyclic hPicks]

/-! ### A topic that was merged

Commit 3 merges commit 2 into their common parent 1, which is the upstream. -/

def topicParents (c : ObjectId) : List ObjectId :=
  if c = .replicate 3 then [.replicate 1, .replicate 2] else if c = .replicate 2 then [.replicate 1] else []

theorem mem_topicParents {c p : ObjectId} : p ∈ topicParents c ↔
    c = .replicate 3 ∧ (p = .replicate 1 ∨ p = .replicate 2) ∨ c = .replicate 2 ∧ p = .replicate 1 := by
  have hDistinct : ObjectId.replicate 2 ≠ .replicate 3 := by decide
  rw [topicParents]
  by_cases hMerge : c = .replicate 3
  · simp [hMerge, hDistinct.symm]
  · by_cases hTopic : c = .replicate 2 <;> simp [hMerge, hTopic, hDistinct]

def topicGraph : CommitGraph where
  parents := topicParents
  date := fun _ => 0
  subject := fun _ => ascii "s"
  shortLength := fun _ => 7
  acyclic := by
    refine acyclic_of_rank (fun c => (c.bytes.headD 0).toNat) fun c p hParent => ?_
    rcases mem_topicParents.mp hParent with ⟨rfl, rfl | rfl⟩ | ⟨rfl, rfl⟩ <;> decide
  parentsSome := by
    intro c p hParent
    rcases mem_topicParents.mp hParent with ⟨-, rfl | rfl⟩ | ⟨-, rfl⟩ <;> rfl
  subjectLine := fun _ => by decide
  shortSome := fun _ => by decide

def topicGit : ProcessRunner Unit := fun s _ =>
  (.ok (ProcessRunner.buffered (records LF
    [Lines.join LF ([.replicate 2, .replicate 3].map topicGraph.logLine)])), s)

def topicResolve (name : Bytes) : Option ObjectId :=
  [.replicate 2, .replicate 3].find? fun c => topicGraph.short c == name

theorem mem_topicRange {c : ObjectId} :
    c ∈ topicGraph.range (.replicate 1) (.replicate 3) ↔ c = .replicate 2 ∨ c = .replicate 3 := by
  have hRoot {p : ObjectId} (hPath : ReflTransGen topicGraph.Parent (.replicate 1) p) : p = .replicate 1 := by
    rcases hPath.cases_head with hSame | ⟨q, hParent, -⟩
    · exact hSame.symm
    · exact absurd hParent List.not_mem_nil
  have hMerge : topicGraph.Parent (.replicate 3) (.replicate 2) := mem_topicParents.mpr (Or.inl ⟨rfl, Or.inr rfl⟩)
  constructor
  · rintro ⟨hHead, hBase⟩
    rcases hHead.cases_tail with hSame | ⟨q, -, hParent⟩
    · exact Or.inr hSame
    · rcases mem_topicParents.mp hParent with ⟨-, rfl | rfl⟩ | ⟨-, rfl⟩
      · exact absurd .refl hBase
      · exact Or.inl rfl
      · exact absurd .refl hBase
  · rintro (rfl | rfl)
    · exact ⟨.single hMerge, fun hBase => absurd (hRoot hBase) (by decide)⟩
    · exact ⟨.refl, fun hBase => absurd (hRoot hBase) (by decide)⟩

theorem topic_logged : topicGraph.Logged (.replicate 1) (.replicate 3) [.replicate 3, .replicate 2] := by
  have hStart : {c | c = .replicate 3 ∧ c ∈ topicGraph.range (.replicate 1) (.replicate 3)} = {.replicate 3} := by
    ext c
    exact and_iff_left_of_imp fun hSame => mem_topicRange.mpr (Or.inr hSame)
  have hStep {c p : ObjectId} : topicGraph.Within (.replicate 1) (.replicate 3) c p ↔
      c = .replicate 3 ∧ p = .replicate 2 := by
    have hParent : topicGraph.Parent c p ↔ p ∈ topicParents c := Iff.rfl
    have hBase : ¬ (ObjectId.replicate 1 = .replicate 2 ∨ ObjectId.replicate 1 = .replicate 3) := by decide
    rw [CommitGraph.Within, mem_topicRange, mem_topicRange, hParent, mem_topicParents]
    constructor
    · rintro ⟨-, hRange, ⟨hMerge, rfl | hTopic⟩ | ⟨-, rfl⟩⟩
      · exact absurd hRange hBase
      · exact ⟨hMerge, hTopic⟩
      · exact absurd hRange hBase
    · rintro ⟨rfl, rfl⟩
      exact ⟨Or.inr rfl, Or.inl rfl, Or.inl ⟨rfl, Or.inr rfl⟩⟩
  have hDistinct : ObjectId.replicate 2 ≠ .replicate 3 := by decide
  have hTopic : ({.replicate 3} \ {.replicate 3} ∪
      {b | topicGraph.Within (.replicate 1) (.replicate 3) (.replicate 3) b ∧ b ∉ ({.replicate 3} : Set _)}) =
        {ObjectId.replicate 2} := by
    ext c
    simp +contextual [hStep, hDistinct]
  rw [CommitGraph.Logged, hStart]
  refine .take rfl (fun _ _ => le_rfl) ?_
  rw [hTopic]
  refine .take rfl (fun _ _ => le_rfl) ?_
  have hEnd (met : Set ObjectId) : ({.replicate 2} \ {.replicate 2} ∪
      {b | topicGraph.Within (.replicate 1) (.replicate 3) (.replicate 2) b ∧ b ∉ met}) = (∅ : Set ObjectId) := by
    ext c
    simp [hStep, hDistinct]
  rw [hEnd]
  exact .done _

theorem topic_picks : TargetsFirst topicGraph.Parent
    {c | c ∈ topicGraph.Replayed (.replicate 1) (.replicate 3) ∧ c ∉ (∅ : Set ObjectId)} [.replicate 2] := by
  refine ⟨List.nodup_singleton _, fun c => ?_, List.pairwise_singleton _ _⟩
  rw [List.mem_singleton]
  constructor
  · rintro rfl
    exact ⟨⟨mem_topicRange.mpr (Or.inl rfl), by decide⟩, id⟩
  · rintro ⟨⟨hRange, hMerge⟩, -⟩
    rcases mem_topicRange.mp hRange with hTopic | rfl
    · exact hTopic
    · exact absurd (by decide) hMerge

theorem rebasePlan_exact_iff_topic :
    (∃ entries, plan topicGit () (ascii "main") = (.ok entries, ()) ∧
        TargetsFirst topicGraph.Parent (topicGraph.Replayed (.replicate 1) (.replicate 3))
          (entries.map RebaseTodoEntry.oid) ∧
        pickedCommits topicResolve (serializeTodo entries) = [.replicate 2]) ↔
      ∀ c ∈ topicGraph.range (.replicate 1) (.replicate 3),
        ¬ topicGraph.IsMerge c ∧ c ∉ (∅ : Set ObjectId) := by
  refine rebasePlan_exact_iff topicGraph (by decide) rfl topic_logged (List.append_nil _) rfl ?_ topic_picks
  intro c hRange
  rcases mem_topicRange.mp hRange with rfl | rfl <;> decide +kernel

/-- The plan has the merge, which git's own list has not. -/
theorem rebasePlan_keeps_merge : ¬ ∃ entries, plan topicGit () (ascii "main") = (.ok entries, ()) ∧
    TargetsFirst topicGraph.Parent (topicGraph.Replayed (.replicate 1) (.replicate 3))
      (entries.map RebaseTodoEntry.oid) ∧
    pickedCommits topicResolve (serializeTodo entries) = [.replicate 2] := by
  rintro ⟨entries, hPlan, -, hPicked⟩
  have hEntries : (plan topicGit () (ascii "main")).1.toOption =
      some ([.replicate 2, .replicate 3].map (entryOf topicGraph)) := by
    decide +kernel
  rw [hPlan] at hEntries
  obtain rfl := Option.some.inj hEntries
  revert hPicked
  decide +kernel

end RebasePlanner

end GitBranchManager
