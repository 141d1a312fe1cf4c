import GitBranchManager.Refs.RefOperations

/-! # The names of local branches that git lists

A listing gives each branch the shortest name that means no other ref, and so may give it a name
that another branch could have.
-/

namespace GitBranchManager

open Library

namespace Refs

instance (refs : Refs) (name : Bytes) : Decidable (refs.hasBranch name) :=
  inferInstanceAs (Decidable ((refs (kHeads ++ name)).isSome = true))

/-- The other refs that `heads/` and a branch's name could mean. -/
def otherHeadsReadings (name : Bytes) : List Bytes :=
  let long := ascii "heads/" ++ name
  [long, ascii "refs/tags/" ++ long, kHeads ++ long, ascii "refs/remotes/" ++ long,
    ascii "refs/remotes/" ++ long ++ ascii "/HEAD"]

/-- A local branch as `%(refname:short)` prints it. -/
def shortName (refs : Refs) (name : Bytes) : Bytes :=
  if (otherReadings name).all fun other => (refs other).isNone then name
  else if (otherHeadsReadings name).all fun other => (refs other).isNone then ascii "heads/" ++ name
  else kHeads ++ name

def Lists (refs : Refs) (short : Bytes) : Prop := ∃ name, refs.hasBranch name ∧ refs.shortName name = short

theorem shortName_cases (refs : Refs) (name : Bytes) :
    refs.shortName name = name ∨ refs.shortName name = ascii "heads/" ++ name ∨
      refs.shortName name = kHeads ++ name := by
  rw [shortName]
  split
  · exact .inl rfl
  · split
    · exact .inr (.inl rfl)
    · exact .inr (.inr rfl)

end Refs

/-- The documented behaviour of git. A `branch -d` or `branch -D` that exits with zero has deleted
every name. -/
structure NamesRefs {ρ : Type} (git : ProcessRunner ρ) (refs : ρ → Refs) : Prop where
  reads : ∀ s command, readsOnly command = true → refs (git s command).2 = refs s
  lists : ∀ s out s', git s listCommand = (.ok out, s') → ∀ short, short ∈ branchNames out ↔ (refs s).Lists short
  tips : ∀ s out s', git s DeleteBranchRequest.tipsCommand = (.ok out, s') →
    ∀ name, DeleteBranchRequest.tipOf out name = refs s (kHeads ++ name)
  loses : ∀ s flag names, flag = ascii "-d" ∨ flag = ascii "-D" →
    (refs s).Loses names (refs (git s (ascii "branch" :: flag :: names)).2)
  deletes : ∀ s flag names out s', flag = ascii "-d" ∨ flag = ascii "-D" →
    git s (ascii "branch" :: flag :: names) = (.ok out, s') →
    ∀ name ∈ names, (refs s).hasBranch name ∧ ¬ (refs s').hasBranch name

/-- A name that git accepts has neither a control character nor a slash at its end. -/
structure RefTable where
  entries : List (Bytes × Bytes)
  named : ∀ entry ∈ entries, entry.1.any isControl = false ∧ entry.1.getLast? ≠ some 0x2F
  valued : ∀ entry ∈ entries, entry.2.any isControl = false

namespace RefTable

def refs (table : RefTable) : Refs := fun ref => table.entries.lookup ref

def readBranch (entry : Bytes × Bytes) : Option (Bytes × Bytes) :=
  if startsWith entry.1 kHeads then some (entry.1.drop kHeads.length, entry.2) else none

def branches (table : RefTable) : List (Bytes × Bytes) := table.entries.filterMap readBranch

def without (table : RefTable) (names : List Bytes) : RefTable where
  entries := table.entries.filter fun entry => !names.any fun name => entry.1 == kHeads ++ name
  named entry hEntry := table.named entry (List.mem_of_mem_filter hEntry)
  valued entry hEntry := table.valued entry (List.mem_of_mem_filter hEntry)

def tipLine (branch : Bytes × Bytes) : Bytes := kHeads ++ (branch.1 ++ 9 :: branch.2)

/-- A git that refuses nothing but names that are no branches. -/
def git : ProcessRunner RefTable := fun table command =>
  if command = listCommand then
    (.ok (Lines.join LF (table.branches.map fun branch => table.refs.shortName branch.1)), table)
  else if command = DeleteBranchRequest.tipsCommand then
    (.ok (Lines.join LF (table.branches.reverse.map tipLine)), table)
  else if command.head? = some (ascii "branch") then
    (if (command.drop 2).all fun name => (table.refs (kHeads ++ name)).isSome then .ok []
      else .error { message := ascii "Git reported an error" },
      table.without (command.drop 2))
  else (.error { message := ascii "Git reported an error" }, table)

section Lookup

variable {table : RefTable} {names : List Bytes} {name ref : Bytes}

theorem refs_without (table : RefTable) (names : List Bytes) (ref : Bytes) :
    (table.without names).refs ref = if ∃ name ∈ names, ref = kHeads ++ name then none else table.refs ref := by
  have hFilter (entries : List (Bytes × Bytes)) :
      (entries.filter fun entry => !names.any fun name => entry.1 == kHeads ++ name).lookup ref =
        if ∃ name ∈ names, ref = kHeads ++ name then none else entries.lookup ref := by
    induction entries with
    | nil => simp
    | cons entry entries ih =>
      rw [List.filter_cons, List.lookup_cons]
      by_cases hGone : ∃ name ∈ names, entry.1 = kHeads ++ name
      · have hAny : (names.any fun name => entry.1 == kHeads ++ name) = true := by simpa using hGone
        rw [hAny, Bool.not_true, if_neg Bool.false_ne_true, ih]
        by_cases hSame : ref = entry.1
        · rw [if_pos (hSame ▸ hGone), if_pos (hSame ▸ hGone)]
        · rw [beq_eq_false_iff_ne.mpr hSame]
      · have hAny : (names.any fun name => entry.1 == kHeads ++ name) = false := by simpa using hGone
        rw [hAny, Bool.not_false, if_pos rfl, List.lookup_cons, ih]
        by_cases hSame : ref = entry.1
        · have hKept : ¬ ∃ name ∈ names, ref = kHeads ++ name := hSame ▸ hGone
          rw [beq_iff_eq.mpr hSame, if_neg hKept, if_neg hKept]
        · rw [beq_eq_false_iff_ne.mpr hSame]
  exact hFilter table.entries

theorem lookup_branches (table : RefTable) (name : Bytes) :
    table.branches.lookup name = table.refs (kHeads ++ name) := by
  rw [branches, refs]
  induction table.entries with
  | nil => rfl
  | cons entry entries ih =>
    rw [List.filterMap_cons, List.lookup_cons]
    by_cases hStarts : startsWith entry.1 kHeads = true
    · obtain ⟨rest, hRest⟩ := startsWith_iff.mp hStarts
      have hRead : readBranch entry = some (rest, entry.2) := by
        rw [readBranch, if_pos hStarts, ← hRest, List.drop_left]
      have hKey : (kHeads ++ name == entry.1) = (name == rest) := by
        rw [← hRest, Bool.eq_iff_iff, beq_iff_eq, beq_iff_eq, List.append_cancel_left_eq]
      rw [hRead, List.lookup_cons, ih, hKey]
    · have hRead : readBranch entry = none := by rw [readBranch, if_neg hStarts]
      have hKey : (kHeads ++ name == entry.1) = false := by
        rw [beq_eq_false_iff_ne]
        exact fun hSame => hStarts (hSame ▸ startsWith_append _ _)
      rw [hRead, ih, hKey]

theorem hasBranch_iff : table.refs.hasBranch name ↔ ∃ branch ∈ table.branches, branch.1 = name := by
  rw [Refs.hasBranch, ← lookup_branches, List.lookup_isSome_iff]
  refine exists_congr fun branch => and_congr_right fun _ => ?_
  rw [beq_iff_eq, eq_comm]

end Lookup

section Answers

variable {table : RefTable}

theorem getlines_join {lines : List Bytes} (h : ∀ line ∈ lines, LF ∉ line) :
    getlines (Lines.join LF lines) = lines := by
  have hCut : Lines.cut LF (Lines.join LF lines ++ []) = (lines, []) := Lines.cut_join LF h List.not_mem_nil
  rw [List.append_nil] at hCut
  rw [getlines, hCut]
  rfl

theorem popCr_of_not_mem {line : Bytes} (h : CR ∉ line) : popCr line = line := by
  rw [popCr, if_neg]
  exact fun hLast => h (List.mem_of_getLast? hLast)

theorem not_mem_of_isControl {text : Bytes} {b : UInt8} (h : text.any isControl = false)
    (hControl : isControl b = true) :
    b ∉ text := by
  intro hMem
  rw [List.any_eq_false] at h
  exact h b hMem hControl

/-- A branch of the table has a name and a target of one line each. -/
theorem mem_branches {branch : Bytes × Bytes} (h : branch ∈ table.branches) :
    branch.1 ≠ [] ∧ branch.1.any isControl = false ∧ branch.2.any isControl = false := by
  obtain ⟨entry, hEntry, hRead⟩ := List.mem_filterMap.mp h
  rw [readBranch] at hRead
  split at hRead
  · rename_i hStarts
    obtain rfl := Option.some.inj hRead
    obtain ⟨rest, hRest⟩ := startsWith_iff.mp hStarts
    obtain ⟨hNamed, hSlash⟩ := table.named entry hEntry
    rw [← hRest] at hNamed hSlash
    rw [← hRest, List.drop_left]
    refine ⟨?_, ?_, table.valued entry hEntry⟩
    · rintro rfl
      exact hSlash rfl
    · rw [List.any_append, Bool.or_eq_false_iff] at hNamed
      exact hNamed.2
  · cases hRead

theorem shortName_plain {branch : Bytes × Bytes} (h : branch ∈ table.branches) :
    table.refs.shortName branch.1 ≠ [] ∧ (table.refs.shortName branch.1).any isControl = false := by
  obtain ⟨hName, hPlain, -⟩ := mem_branches h
  rcases table.refs.shortName_cases branch.1 with hShort | hShort | hShort
  · rw [hShort]
    exact ⟨hName, hPlain⟩
  · rw [hShort, List.any_append, hPlain]
    exact ⟨by simp [ascii], rfl⟩
  · rw [hShort, List.any_append, hPlain]
    exact ⟨by simp [kHeads, ascii], rfl⟩

theorem mem_listing (short : Bytes) :
    short ∈ branchNames (Lines.join LF (table.branches.map fun branch => table.refs.shortName branch.1)) ↔
      table.refs.Lists short := by
  have hPlain : ∀ line ∈ table.branches.map fun branch => table.refs.shortName branch.1,
      line ≠ [] ∧ line.any isControl = false := by
    intro line hLine
    obtain ⟨branch, hBranch, rfl⟩ := List.mem_map.mp hLine
    exact shortName_plain hBranch
  have hPop : (table.branches.map fun branch => table.refs.shortName branch.1).map popCr =
      table.branches.map fun branch => table.refs.shortName branch.1 := by
    refine (List.map_congr_left fun line hLine => ?_).trans (List.map_id _)
    exact popCr_of_not_mem (not_mem_of_isControl (hPlain line hLine).2 rfl)
  rw [branchNames, getlines_join fun line hLine => not_mem_of_isControl (hPlain line hLine).2 rfl, hPop,
    List.mem_filter, List.mem_map, Refs.Lists]
  constructor
  · rintro ⟨⟨branch, hBranch, rfl⟩, -⟩
    exact ⟨branch.1, hasBranch_iff.mpr ⟨branch, hBranch, rfl⟩, rfl⟩
  · rintro ⟨name, hHas, rfl⟩
    obtain ⟨branch, hBranch, rfl⟩ := hasBranch_iff.mp hHas
    refine ⟨⟨branch, hBranch, rfl⟩, ?_⟩
    rw [Bool.not_eq_true', List.isEmpty_eq_false_iff]
    exact (shortName_plain hBranch).1

theorem readTip_tipLine {branch : Bytes × Bytes} (h : branch ∈ table.branches) :
    DeleteBranchRequest.readTip (tipLine branch) = some branch := by
  obtain ⟨-, hName, hOid⟩ := mem_branches h
  have hTab : (9 : UInt8) ∉ kHeads ++ branch.1 := by
    rw [List.mem_append, not_or]
    exact ⟨by decide, not_mem_of_isControl hName rfl⟩
  have hFind : find [9] (tipLine branch) = some (kHeads ++ branch.1).length := by
    rw [tipLine, ← List.append_assoc, find_skip hTab, find_of_startsWith (by simp)]
    simp
  have hDrop : (tipLine branch).drop ((kHeads ++ branch.1).length + 1) = branch.2 := by
    rw [tipLine, ← List.append_assoc, ← List.drop_drop, List.drop_left]
    rfl
  have hTake : (tipLine branch).take (kHeads ++ branch.1).length = kHeads ++ branch.1 := by
    rw [tipLine, ← List.append_assoc, List.take_left]
  have hStarts : startsWith (tipLine branch) kHeads = true := startsWith_append _ _
  rw [DeleteBranchRequest.readTip, hFind]
  dsimp only
  rw [hStarts, hDrop, hTake, List.drop_left, popCr_of_not_mem (not_mem_of_isControl hOid rfl)]
  rfl

theorem tipOf_tips (name : Bytes) :
    DeleteBranchRequest.tipOf (Lines.join LF (table.branches.reverse.map tipLine)) name =
      table.refs (kHeads ++ name) := by
  have hLines : ∀ line ∈ table.branches.reverse.map tipLine, LF ∉ line := by
    intro line hLine
    obtain ⟨branch, hBranch, rfl⟩ := List.mem_map.mp hLine
    obtain ⟨-, hName, hOid⟩ := mem_branches (List.mem_reverse.mp hBranch)
    rw [tipLine, List.mem_append, List.mem_append, List.mem_cons, not_or, not_or, not_or]
    exact ⟨by decide, not_mem_of_isControl hName rfl, by decide, not_mem_of_isControl hOid rfl⟩
  have hRead : (table.branches.reverse.map tipLine).filterMap DeleteBranchRequest.readTip = table.branches.reverse := by
    rw [List.filterMap_map]
    refine (List.filterMap_congr fun branch hBranch => ?_).trans List.filterMap_some
    exact readTip_tipLine (List.mem_reverse.mp hBranch)
  rw [DeleteBranchRequest.tipOf, getlines_join hLines, hRead, List.reverse_reverse, lookup_branches]

theorem git_branch (table : RefTable) (flag : Bytes) (names : List Bytes) :
    git table (ascii "branch" :: flag :: names) =
      (if names.all fun name => (table.refs (kHeads ++ name)).isSome then .ok []
        else .error { message := ascii "Git reported an error" }, table.without names) := by
  have hList : ascii "branch" :: flag :: names ≠ listCommand := fun hSame =>
    absurd (List.cons.inj hSame).1 (by decide)
  have hTips : ascii "branch" :: flag :: names ≠ DeleteBranchRequest.tipsCommand := fun hSame =>
    absurd (List.cons.inj hSame).1 (by decide)
  rw [git, if_neg hList, if_neg hTips, if_pos List.head?_cons]
  rfl

theorem namesRefs_git : NamesRefs git refs where
  reads table command hReads := by
    rw [git]
    split
    · rfl
    · split
      · rfl
      · split
        · rename_i hBranch
          exact absurd hBranch (ne_branch_of_readsOnly hReads)
        · rfl
  lists table out table' hRun short := by
    rw [git, if_pos rfl] at hRun
    obtain rfl := Except.ok.inj (Prod.mk.inj hRun).1
    exact mem_listing short
  tips table out table' hRun name := by
    rw [git, if_neg (by decide), if_pos rfl] at hRun
    obtain rfl := Except.ok.inj (Prod.mk.inj hRun).1
    exact tipOf_tips name
  loses table flag names _ ref := by
    rw [git_branch]
    dsimp only
    rw [refs_without]
    split
    · rename_i hGone
      exact .inr ⟨hGone, rfl⟩
    · exact .inl rfl
  deletes table flag names out table' _ hRun name hName := by
    rw [git_branch] at hRun
    obtain ⟨hAnswer, rfl⟩ := Prod.mk.inj hRun
    split at hAnswer
    · rename_i hAll
      refine ⟨List.all_eq_true.mp hAll name hName, ?_⟩
      rw [Refs.hasBranch, refs_without, if_pos ⟨name, hName, rfl⟩]
      exact Bool.false_ne_true
    · cases hAnswer

end Answers

end RefTable

end GitBranchManager
