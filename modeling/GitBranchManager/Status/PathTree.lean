import GitBranchManager.Sidebar.TreeLeaves
import Mathlib.Data.List.Infix
import Mathlib.Data.List.Pairwise

/-! # The tree of changed files

Paths are inserted segment by segment into maps, and a folder whose only child is a folder is drawn
together with it. A path below a file, or a file where a folder is, has no row.
-/

namespace GitBranchManager

namespace PathTree

/-- An entry of the source's map, with its key. Entries are in insertion order. -/
inductive TreeNodeData
  | mk (name : Utf16) (leafPath : Option Utf16) (children : List TreeNodeData)

namespace TreeNodeData

def name : TreeNodeData → Utf16
  | .mk name _ _ => name

/-- What the path of a file is kept for: a folder has none. -/
def leafPath : TreeNodeData → Option Utf16
  | .mk _ leafPath _ => leafPath

def children : TreeNodeData → List TreeNodeData
  | .mk _ _ children => children

def withChildren (data : TreeNodeData) (children : List TreeNodeData) : TreeNodeData :=
  .mk data.name data.leafPath children

end TreeNodeData

/-- An entry is made where there is none; what is there already stays. -/
def insertPath : List Utf16 → Utf16 → List TreeNodeData → List TreeNodeData
  | [], _, nodes => nodes
  | segment :: rest, fullPath, nodes =>
    let nodes :=
      if nodes.any fun data => data.name = segment then nodes
      else nodes ++ [.mk segment (if rest.isEmpty then some fullPath else none) []]
    if rest.isEmpty then nodes
    else nodes.map fun data =>
      if data.name = segment then data.withChildren (insertPath rest fullPath data.children) else data

inductive FileTreeNode
  | mk (name displayPath : Utf16) (isDirectory : Bool) (children : List FileTreeNode)

/-- A file, or the folder that its chain collapses to. -/
def buildDisplayNode (data : TreeNodeData) (collapsed : FileTreeNode) : FileTreeNode :=
  match data.leafPath with
  | some path => .mk data.name path false []
  | none => collapsed

def joinPath (parentPath label : Utf16) : Utf16 :=
  if parentPath.isEmpty then label else parentPath ++ slash :: label

mutual

def collapseIfSingleChild (label parentPath : Utf16) : TreeNodeData → FileTreeNode
  | .mk _ none [.mk name none children] =>
    collapseIfSingleChild (label ++ slash :: name) parentPath (.mk name none children)
  | .mk _ _ children =>
    .mk label (joinPath parentPath label) true (buildDisplayNodes (joinPath parentPath label) children)

def buildDisplayNodes (parentPath : Utf16) : List TreeNodeData → List FileTreeNode
  | [] => []
  | data :: nodes =>
    buildDisplayNode data (collapseIfSingleChild data.name parentPath data) :: buildDisplayNodes parentPath nodes

end

namespace FileTreeNode

mutual

def getAllLeafPaths : FileTreeNode → List Utf16
  | .mk _ displayPath false _ => [displayPath]
  | .mk _ _ true children => getAllLeafPathsOf children

def getAllLeafPathsOf : List FileTreeNode → List Utf16
  | [] => []
  | node :: nodes => node.getAllLeafPaths ++ getAllLeafPathsOf nodes

end

mutual

/-- Of the node and of all below it. -/
def displayPaths : FileTreeNode → List Utf16
  | .mk _ displayPath _ children => displayPath :: displayPathsOf children

def displayPathsOf : List FileTreeNode → List Utf16
  | [] => []
  | node :: nodes => node.displayPaths ++ displayPathsOf nodes

end

end FileTreeNode

structure FileTree where
  children : List FileTreeNode := []

namespace FileTree

def fromPaths (paths : List Utf16) : FileTree :=
  if paths.isEmpty then {}
  else ⟨buildDisplayNodes [] (paths.foldl (fun nodes path => insertPath (splitSlash path) path nodes) [])⟩

def getAllLeafPaths (tree : FileTree) : List Utf16 := FileTreeNode.getAllLeafPathsOf tree.children

def displayPaths (tree : FileTree) : List Utf16 := FileTreeNode.displayPathsOf tree.children

end FileTree

/-! ## Paths as segments -/

section Segments

theorem splitSlash_append (front rest : Utf16) :
    splitSlash (front ++ slash :: rest) = splitSlash front ++ splitSlash rest := by
  have hFree := (Library.Lines.sep_not_mem_cut slash front).2
  rw [splitSlash, Library.Lines.cut_append, Library.Lines.cut_line slash hFree, splitSlash, splitSlash]
  simp

theorem splitSlash_inj {a b : Utf16} (h : splitSlash a = splitSlash b) : a = b := by
  obtain ⟨hLines, hLast⟩ := List.append_inj' h rfl
  rw [← Library.Lines.join_cut slash a, ← Library.Lines.join_cut slash b, hLines, (List.cons.inj hLast).1]

theorem exists_splitSlash {segments : List Utf16} (hSome : segments ≠ []) (hFree : ∀ s ∈ segments, slash ∉ s) :
    ∃ path, splitSlash path = segments := by
  obtain ⟨lines, last, rfl⟩ := (List.eq_nil_or_concat' segments).resolve_left hSome
  refine ⟨Library.Lines.join slash lines ++ last, ?_⟩
  rw [splitSlash, Library.Lines.cut_join slash (fun line hLine => hFree line (List.mem_append_left _ hLine))
    (hFree last (List.mem_append_right _ (List.mem_singleton_self last)))]

/-- The segments of a path begin those of the paths below it, and of no other. -/
theorem splitSlash_prefix_iff {a b : Utf16} :
    splitSlash a <+: splitSlash b ↔ a = b ∨ a ++ [slash] <+: b := by
  constructor
  · rintro ⟨more, hMore⟩
    cases more with
    | nil => exact Or.inl (splitSlash_inj (by rwa [List.append_nil] at hMore))
    | cons segment more =>
      obtain ⟨rest, hRest⟩ := exists_splitSlash (List.cons_ne_nil segment more) fun s hs =>
        slash_not_mem b s (hMore ▸ List.mem_append_right _ hs)
      rw [← hRest, ← splitSlash_append] at hMore
      exact Or.inr ⟨rest, by rw [← splitSlash_inj hMore]; simp⟩
  · rintro (rfl | ⟨rest, rfl⟩)
    · exact List.prefix_rfl
    · rw [List.append_assoc, List.singleton_append, splitSlash_append]
      exact List.prefix_append _ _

end Segments

/-! ## Insertion -/

mutual

/-- The files below an entry; what is below a file is not drawn. -/
def leafPaths : TreeNodeData → List Utf16
  | .mk _ (some path) _ => [path]
  | .mk _ none children => leafPathsOf children

def leafPathsOf : List TreeNodeData → List Utf16
  | [] => []
  | data :: nodes => leafPaths data ++ leafPathsOf nodes

end

theorem leafPathsOf_eq_flatMap (nodes : List TreeNodeData) : leafPathsOf nodes = nodes.flatMap leafPaths := by
  induction nodes with
  | nil => rfl
  | cons data nodes ih => rw [leafPathsOf, ih, List.flatMap_cons]

/-- What is below `front`: no two entries share a name, a file is where its path says, and no folder is empty. -/
inductive Laid : List Utf16 → List TreeNodeData → Prop
  | intro {front : List Utf16} {nodes : List TreeNodeData} (names : (nodes.map TreeNodeData.name).Nodup)
    (plain : ∀ data ∈ nodes, slash ∉ data.name)
    (file : ∀ data ∈ nodes, ∀ path, data.leafPath = some path → splitSlash path = front ++ [data.name])
    (folder : ∀ data ∈ nodes, data.leafPath = none → data.children ≠ [])
    (below : ∀ data ∈ nodes, data.leafPath = none → Laid (front ++ [data.name]) data.children) :
    Laid front nodes

namespace Laid

variable {front : List Utf16} {nodes : List TreeNodeData}

theorem names (h : Laid front nodes) : (nodes.map TreeNodeData.name).Nodup := by
  cases h
  assumption

theorem mem (h : Laid front nodes) {data : TreeNodeData} (hMem : data ∈ nodes) : slash ∉ data.name ∧
    (∀ path, data.leafPath = some path → splitSlash path = front ++ [data.name]) ∧
    (data.leafPath = none → data.children ≠ [] ∧ Laid (front ++ [data.name]) data.children) := by
  cases h with
  | intro _ plain file folder below =>
    exact ⟨plain data hMem, file data hMem, fun hFolder => ⟨folder data hMem hFolder, below data hMem hFolder⟩⟩

theorem of_mem (hNames : (nodes.map TreeNodeData.name).Nodup)
    (h : ∀ data ∈ nodes, slash ∉ data.name ∧
      (∀ path, data.leafPath = some path → splitSlash path = front ++ [data.name]) ∧
      (data.leafPath = none → data.children ≠ [] ∧ Laid (front ++ [data.name]) data.children)) :
    Laid front nodes :=
  .intro hNames (fun data hMem => (h data hMem).1) (fun data hMem => (h data hMem).2.1)
    (fun data hMem hFolder => ((h data hMem).2.2 hFolder).1) fun data hMem hFolder => ((h data hMem).2.2 hFolder).2

theorem nil (front : List Utf16) : Laid front [] := of_mem List.nodup_nil (List.forall_mem_nil _)

/-- A file is drawn below the entries that its segments name, and every folder has one. -/
theorem leaves (h : Laid front nodes) : ∀ data ∈ nodes, leafPaths data ≠ [] ∧
    ∀ path ∈ leafPaths data, front ++ [data.name] <+: splitSlash path := by
  induction h with
  | intro names plain file folder below ih =>
    rintro ⟨name, leafPath, children⟩ hMem
    cases leafPath with
    | some path =>
      rw [leafPaths]
      refine ⟨List.cons_ne_nil _ _, fun other hOther => ?_⟩
      rw [List.mem_singleton.mp hOther, file _ hMem path rfl]
    | none =>
      rw [leafPaths, leafPathsOf_eq_flatMap]
      constructor
      · obtain ⟨child, others, hChildren⟩ := List.exists_cons_of_ne_nil (folder _ hMem rfl)
        intro hNone
        have hFirst : child ∈ (TreeNodeData.mk name none children).children := hChildren ▸ List.mem_cons_self
        exact (ih _ hMem rfl child hFirst).1 (List.flatMap_eq_nil_iff.mp hNone child hFirst)
      · intro path hPath
        obtain ⟨child, hChild, hPath⟩ := List.mem_flatMap.mp hPath
        exact (List.prefix_append _ _).trans ((ih _ hMem rfl child hChild).2 path hPath)

end Laid

/-- One path is the other or an ancestor of it. -/
def Clash (a b : Utf16) : Prop := splitSlash a <+: splitSlash b ∨ splitSlash b <+: splitSlash a

section Insert

variable {front rest : List Utf16} {nodes before after : List TreeNodeData} {data : TreeNodeData}
  {segment path : Utf16}

theorem map_named_of_not_mem (h : segment ∉ nodes.map TreeNodeData.name) (f : TreeNodeData → TreeNodeData) :
    (nodes.map fun data => if data.name = segment then f data else data) = nodes :=
  (List.map_congr_left fun data hMem => if_neg fun hName => h (List.mem_map.mpr ⟨data, hMem, hName⟩)).trans
    (List.map_id _)

theorem any_named (nodes : List TreeNodeData) (segment : Utf16) :
    (nodes.any fun data => data.name = segment) = true ↔ segment ∈ nodes.map TreeNodeData.name := by
  simp only [List.any_eq_true, decide_eq_true_eq, List.mem_map]

theorem insertPath_new (h : segment ∉ nodes.map TreeNodeData.name) : insertPath (segment :: rest) path nodes =
    nodes ++ [if rest.isEmpty then .mk segment (some path) [] else .mk segment none (insertPath rest path [])] := by
  rw [insertPath, if_neg fun hAny => h ((any_named nodes segment).mp hAny)]
  cases hRest : rest.isEmpty with
  | true => rfl
  | false =>
    simp only [Bool.false_eq_true, if_false]
    rw [List.map_append, map_named_of_not_mem h]
    exact congrArg (nodes ++ [·]) (if_pos rfl)

theorem insertPath_present (h : ((before ++ data :: after).map TreeNodeData.name).Nodup) :
    insertPath (data.name :: rest) path (before ++ data :: after) = before ++
      (if rest.isEmpty then data else data.withChildren (insertPath rest path data.children)) :: after := by
  have hAny : ((before ++ data :: after).any fun other => other.name = data.name) = true :=
    (any_named _ _).mpr (List.mem_map_of_mem (List.mem_append_right _ List.mem_cons_self))
  rw [List.map_append, List.map_cons, List.nodup_middle, List.nodup_cons, List.mem_append, not_or] at h
  rw [insertPath, if_pos hAny]
  cases hRest : rest.isEmpty with
  | true => rfl
  | false =>
    simp only [Bool.false_eq_true, if_false]
    rw [List.map_append, List.map_cons, map_named_of_not_mem h.1.1, map_named_of_not_mem h.1.2, if_pos rfl]

/-- Files under another name do not clash. -/
theorem Laid.name_of_clash (h : Laid front nodes) (hMem : data ∈ nodes) {other : Utf16}
    (hOther : other ∈ leafPaths data) (hPath : splitSlash path = front ++ segment :: rest)
    (hClash : Clash other path) : data.name = segment := by
  obtain ⟨more, hMore⟩ := (h.leaves data hMem).2 other hOther
  rw [List.append_assoc, List.singleton_append] at hMore
  rw [Clash, ← hMore, hPath, List.prefix_append_right_inj, List.prefix_append_right_inj, List.cons_prefix_cons,
    List.cons_prefix_cons] at hClash
  exact hClash.elim And.left fun h => h.1.symm

/-- What one insertion does: the path is below the others, or one of them is in its way. -/
def Inserted (nodes nodes' : List TreeNodeData) (path : Utf16) : Prop :=
  (∃ other ∈ leafPathsOf nodes, Clash other path) ∧ leafPathsOf nodes' = leafPathsOf nodes ∨
    (∀ other ∈ leafPathsOf nodes, ¬ Clash other path) ∧ (leafPathsOf nodes').Perm (path :: leafPathsOf nodes)

theorem mem_leafPathsOf {other : Utf16} :
    other ∈ leafPathsOf nodes ↔ ∃ data ∈ nodes, other ∈ leafPaths data := by
  rw [leafPathsOf_eq_flatMap, List.mem_flatMap]

theorem leafPathsOf_append (before after : List TreeNodeData) :
    leafPathsOf (before ++ after) = leafPathsOf before ++ leafPathsOf after := by
  rw [leafPathsOf_eq_flatMap, List.flatMap_append, ← leafPathsOf_eq_flatMap, ← leafPathsOf_eq_flatMap]

theorem leafPathsOf_middle (before after : List TreeNodeData) (data : TreeNodeData) :
    leafPathsOf (before ++ data :: after) = leafPathsOf before ++ (leafPaths data ++ leafPathsOf after) :=
  leafPathsOf_append before (data :: after)

/-- The others stay where they are. -/
theorem Laid.replace (h : Laid front (before ++ data :: after)) {data' : TreeNodeData} (hName : data'.name = data.name)
    (hFile : data'.leafPath = data.leafPath)
    (hBelow : data.leafPath = none → data'.children ≠ [] ∧ Laid (front ++ [data.name]) data'.children) :
    Laid front (before ++ data' :: after) := by
  have hNames := h.names
  rw [List.map_append, List.map_cons] at hNames
  refine of_mem (by rwa [List.map_append, List.map_cons, hName]) fun other hMem => ?_
  rw [List.mem_append, List.mem_cons] at hMem
  obtain hMem | rfl | hMem := hMem
  · exact h.mem (List.mem_append_left _ hMem)
  · rw [hName, hFile]
    obtain ⟨hPlain, hPath, -⟩ := h.mem (List.mem_append_right before (List.mem_cons_self (a := data) (l := after)))
    exact ⟨hPlain, hPath, hBelow⟩
  · exact h.mem (List.mem_append_right _ (List.mem_cons_of_mem _ hMem))

theorem insertPath_ne_nil (segment : Utf16) (rest : List Utf16) (path : Utf16) (nodes : List TreeNodeData) :
    insertPath (segment :: rest) path nodes ≠ [] := by
  by_cases hMem : segment ∈ nodes.map TreeNodeData.name
  · have hAny := (any_named nodes segment).mpr hMem
    have hSome : nodes ≠ [] := List.ne_nil_of_mem (List.exists_of_mem_map hMem).choose_spec.1
    rw [insertPath, if_pos hAny]
    split
    · exact hSome
    · exact fun hNone => hSome (List.map_eq_nil_iff.mp hNone)
  · rw [insertPath_new hMem]
    exact List.append_ne_nil_of_right_ne_nil _ (List.cons_ne_nil _ _)

theorem Laid.append (h : Laid front nodes) (hNew : data.name ∉ nodes.map TreeNodeData.name)
    (hPlain : slash ∉ data.name) (hFile : ∀ file, data.leafPath = some file → splitSlash file = front ++ [data.name])
    (hBelow : data.leafPath = none → data.children ≠ [] ∧ Laid (front ++ [data.name]) data.children) :
    Laid front (nodes ++ [data]) := by
  refine of_mem ?_ fun other hMem => ?_
  · rw [List.map_append, List.map_singleton]
    exact h.names.append (List.nodup_singleton _) (List.disjoint_singleton.mpr hNew)
  · obtain hMem | hMem := List.mem_append.mp hMem
    · exact h.mem hMem
    · rw [List.mem_singleton.mp hMem]
      exact ⟨hPlain, hFile, hBelow⟩

theorem leafPaths_of_folder (h : data.leafPath = none) : leafPaths data = leafPathsOf data.children := by
  obtain ⟨name, leafPath, children⟩ := data
  obtain rfl : leafPath = none := h
  rfl

theorem leafPaths_of_file {file : Utf16} (h : data.leafPath = some file) : leafPaths data = [file] := by
  obtain ⟨name, leafPath, children⟩ := data
  obtain rfl : leafPath = some file := h
  rfl

/-- A new entry is the only one of its name, so that nothing is in its way. -/
theorem Laid.insertPath_new (h : Laid front nodes) (hNew : segment ∉ nodes.map TreeNodeData.name)
    (hPath : splitSlash path = front ++ segment :: rest)
    (hBelow : rest ≠ [] → insertPath rest path [] ≠ [] ∧ Laid (front ++ [segment]) (insertPath rest path []) ∧
      Inserted [] (insertPath rest path []) path) :
    Laid front (insertPath (segment :: rest) path nodes) ∧
      Inserted nodes (insertPath (segment :: rest) path nodes) path := by
  have hPlain : slash ∉ segment := slash_not_mem path segment (hPath ▸ List.mem_append_right _ List.mem_cons_self)
  have hFree : ∀ other ∈ leafPathsOf nodes, ¬ Clash other path := by
    intro other hOther hClash
    obtain ⟨data, hMem, hLeaf⟩ := mem_leafPathsOf.mp hOther
    exact hNew (h.name_of_clash hMem hLeaf hPath hClash ▸ List.mem_map_of_mem hMem)
  rw [PathTree.insertPath_new hNew]
  cases rest with
  | nil =>
    refine ⟨h.append hNew hPlain (fun file hFile => ?_) (fun hFolder => absurd hFolder (Option.some_ne_none _)),
      Or.inr ⟨hFree, ?_⟩⟩
    · obtain rfl := Option.some.inj hFile
      exact hPath
    · rw [leafPathsOf_append]
      exact List.perm_append_singleton path _
  | cons next rest =>
    obtain ⟨hSome, hLaid, hInserted⟩ := hBelow (List.cons_ne_nil _ _)
    obtain ⟨⟨other, hNone, -⟩, -⟩ | ⟨-, hOnly⟩ := hInserted
    · exact absurd hNone List.not_mem_nil
    refine ⟨h.append hNew hPlain (fun file hFile => absurd hFile.symm (Option.some_ne_none _))
      fun _ => ⟨hSome, hLaid⟩, Or.inr ⟨hFree, ?_⟩⟩
    rw [leafPathsOf_append]
    refine (List.Perm.append_left _ ?_).trans (List.perm_append_singleton path _)
    rw [leafPathsOf_eq_flatMap, List.flatMap_singleton, leafPaths_of_folder rfl]
    exact hOnly

/-- A file is in the way of what is below it. -/
theorem Laid.insert_below_file (h : Laid front (before ++ data :: after)) {file : Utf16}
    (hFile : data.leafPath = some file) (hPath : splitSlash path = front ++ data.name :: rest)
    (children : List TreeNodeData) :
    Laid front (before ++ data.withChildren children :: after) ∧
      Inserted (before ++ data :: after) (before ++ data.withChildren children :: after) path := by
  have hMem : data ∈ before ++ data :: after := List.mem_append_right _ List.mem_cons_self
  refine ⟨h.replace rfl rfl fun hNone => absurd (hFile.symm.trans hNone) (Option.some_ne_none _),
    Or.inl ⟨⟨file, mem_leafPathsOf.mpr ⟨data, hMem, ?_⟩, ?_⟩, ?_⟩⟩
  · rw [leafPaths_of_file hFile]
    exact List.mem_singleton_self file
  · rw [Clash, (h.mem hMem).2.1 file hFile, hPath]
    exact Or.inl ⟨rest, by rw [List.append_assoc, List.singleton_append]⟩
  · have hSame : leafPaths (data.withChildren children) = [file] := leafPaths_of_file hFile
    rw [leafPathsOf_middle, leafPathsOf_middle, hSame, leafPaths_of_file hFile]

/-- Below a folder, nothing else is in the way. -/
theorem Laid.insert_below_folder (h : Laid front (before ++ data :: after)) (hFolder : data.leafPath = none)
    (hPath : splitSlash path = front ++ data.name :: rest) {children : List TreeNodeData} (hSome : children ≠ [])
    (hLaid : Laid (front ++ [data.name]) children) (hInserted : Inserted data.children children path) :
    Laid front (before ++ data.withChildren children :: after) ∧
      Inserted (before ++ data :: after) (before ++ data.withChildren children :: after) path := by
  have hMem : data ∈ before ++ data :: after := List.mem_append_right _ List.mem_cons_self
  refine ⟨h.replace rfl rfl fun _ => ⟨hSome, hLaid⟩, ?_⟩
  have hBefore := leafPaths_of_folder hFolder
  have hAfter : leafPaths (data.withChildren children) = leafPathsOf children := leafPaths_of_folder hFolder
  rw [Inserted, leafPathsOf_middle before after (data.withChildren _), hAfter]
  obtain ⟨⟨other, hOther, hClash⟩, hSame⟩ | ⟨hFree, hPerm⟩ := hInserted
  · refine Or.inl ⟨⟨other, mem_leafPathsOf.mpr ⟨data, hMem, hBefore ▸ hOther⟩, hClash⟩, ?_⟩
    rw [leafPathsOf_middle, hBefore, ← hSame]
  · refine Or.inr ⟨fun other hOther hClash => ?_, ?_⟩
    · obtain ⟨holder, hHolder, hOther⟩ := mem_leafPathsOf.mp hOther
      have hName := h.name_of_clash hHolder hOther hPath hClash
      rw [List.inj_on_of_nodup_map h.names hHolder hMem hName, hBefore] at hOther
      exact hFree other hOther hClash
    · rw [leafPathsOf_middle, hBefore]
      exact ((hPerm.append_right _).append_left _).trans List.perm_middle

theorem Laid.insertPath_present (h : Laid front (before ++ data :: after))
    (hPath : splitSlash path = front ++ data.name :: rest)
    (hBelow : rest ≠ [] → data.leafPath = none → insertPath rest path data.children ≠ [] ∧
      Laid (front ++ [data.name]) (insertPath rest path data.children) ∧
        Inserted data.children (insertPath rest path data.children) path) :
    Laid front (insertPath (data.name :: rest) path (before ++ data :: after)) ∧
      Inserted (before ++ data :: after) (insertPath (data.name :: rest) path (before ++ data :: after)) path := by
  rw [PathTree.insertPath_present h.names]
  cases rest with
  | nil =>
    have hMem : data ∈ before ++ data :: after := List.mem_append_right _ List.mem_cons_self
    obtain ⟨hSome, hBelow⟩ := h.leaves data hMem
    obtain ⟨other, hOther⟩ := List.exists_mem_of_ne_nil _ hSome
    exact ⟨h, Or.inl ⟨⟨other, mem_leafPathsOf.mpr ⟨data, hMem, hOther⟩, Or.inr (hPath ▸ hBelow other hOther)⟩, rfl⟩⟩
  | cons next rest =>
    rw [if_neg (by simp)]
    cases hFile : data.leafPath with
    | some file => exact h.insert_below_file hFile hPath _
    | none =>
      obtain ⟨hSome, hLaid, hInserted⟩ := hBelow (List.cons_ne_nil _ _) hFile
      exact h.insert_below_folder hFile hPath hSome hLaid hInserted

theorem Laid.insertPath (h : Laid front nodes) (hPath : splitSlash path = front ++ segment :: rest) :
    Laid front (insertPath (segment :: rest) path nodes) ∧
      Inserted nodes (PathTree.insertPath (segment :: rest) path nodes) path := by
  induction rest generalizing front nodes segment with
  | nil =>
    by_cases hMem : segment ∈ nodes.map TreeNodeData.name
    · obtain ⟨data, hData, rfl⟩ := List.mem_map.mp hMem
      obtain ⟨before, after, rfl⟩ := List.append_of_mem hData
      exact h.insertPath_present hPath fun hNone => absurd rfl hNone
    · exact h.insertPath_new hMem hPath fun hNone => absurd rfl hNone
  | cons next rest ih =>
    have hBelow : splitSlash path = (front ++ [segment]) ++ next :: rest := by
      rw [hPath, List.append_assoc, List.singleton_append]
    by_cases hMem : segment ∈ nodes.map TreeNodeData.name
    · obtain ⟨data, hData, rfl⟩ := List.mem_map.mp hMem
      obtain ⟨before, after, rfl⟩ := List.append_of_mem hData
      exact h.insertPath_present hPath fun _ hFolder =>
        ⟨insertPath_ne_nil _ _ _ _, ih ((h.mem hData).2.2 hFolder).2 hBelow⟩
    · exact h.insertPath_new hMem hPath fun _ => ⟨insertPath_ne_nil _ _ _ _, ih (Laid.nil _) hBelow⟩

end Insert

/-! ## What is drawn -/

section Drawn

open FileTreeNode

variable {front : List Utf16} {nodes : List TreeNodeData}

/-- A chain goes on through a folder, and else its children are drawn below it. -/
theorem collapse_cases (label parentPath name : Utf16) (nodes : List TreeNodeData) :
    (∃ next children, nodes = [.mk next none children] ∧
      collapseIfSingleChild label parentPath (.mk name none nodes) =
        collapseIfSingleChild (label ++ slash :: next) parentPath (.mk next none children)) ∨
    collapseIfSingleChild label parentPath (.mk name none nodes) = .mk label (joinPath parentPath label) true
      (buildDisplayNodes (joinPath parentPath label) nodes) := by
  obtain _ | ⟨⟨next, _ | path, children⟩, _ | ⟨data, nodes⟩⟩ := nodes
  · exact Or.inr rfl
  · exact Or.inl ⟨next, children, rfl, rfl⟩
  · exact Or.inr rfl
  · exact Or.inr rfl
  · exact Or.inr rfl

theorem buildDisplayNodes_eq_map (parentPath : Utf16) (nodes : List TreeNodeData) :
    buildDisplayNodes parentPath nodes =
      nodes.map fun data => buildDisplayNode data (collapseIfSingleChild data.name parentPath data) := by
  induction nodes with
  | nil => rfl
  | cons data nodes ih => rw [buildDisplayNodes, ih, List.map_cons]

theorem getAllLeafPathsOf_eq_flatMap (nodes : List FileTreeNode) :
    getAllLeafPathsOf nodes = nodes.flatMap getAllLeafPaths := by
  induction nodes with
  | nil => rfl
  | cons node nodes ih => rw [getAllLeafPathsOf, ih, List.flatMap_cons]

theorem displayPathsOf_eq_flatMap (nodes : List FileTreeNode) :
    displayPathsOf nodes = nodes.flatMap displayPaths := by
  induction nodes with
  | nil => rfl
  | cons node nodes ih => rw [displayPathsOf, ih, List.flatMap_cons]

/-- Drawing keeps the files. -/
theorem Laid.getAllLeafPaths (h : Laid front nodes) :
    (∀ parentPath, getAllLeafPathsOf (buildDisplayNodes parentPath nodes) = leafPathsOf nodes) ∧
      ∀ label parentPath name,
        (collapseIfSingleChild label parentPath (.mk name none nodes)).getAllLeafPaths = leafPathsOf nodes := by
  induction h with
  | @intro front nodes _ _ _ folder below ih =>
    have hNodes : ∀ parentPath, getAllLeafPathsOf (buildDisplayNodes parentPath nodes) = leafPathsOf nodes := by
      intro parentPath
      rw [buildDisplayNodes_eq_map, getAllLeafPathsOf_eq_flatMap, List.flatMap_map, leafPathsOf_eq_flatMap]
      refine List.flatMap_congr fun data hMem => ?_
      obtain ⟨name, leafPath, children⟩ := data
      cases leafPath with
      | some path => rfl
      | none => exact (ih _ hMem rfl).2 name parentPath name
    refine ⟨hNodes, fun label parentPath name => ?_⟩
    obtain ⟨next, children, rfl, hChain⟩ | hEnd := collapse_cases label parentPath name nodes
    · rw [hChain]
      exact ((ih _ List.mem_cons_self rfl).2 _ parentPath next).trans (List.append_nil _).symm
    · rw [hEnd]
      exact hNodes _

/-- The folder of the entries below `front`. -/
def At (front : List Utf16) (parentPath : Utf16) : Prop :=
  parentPath = [] ∧ front = [] ∨ parentPath ≠ [] ∧ splitSlash parentPath = front

theorem At.joinPath {parentPath label : Utf16} (h : At front parentPath) (hLabel : front = [] → label ≠ []) :
    joinPath parentPath label ≠ [] ∧ splitSlash (joinPath parentPath label) = front ++ splitSlash label := by
  rw [PathTree.joinPath]
  obtain ⟨rfl, rfl⟩ | ⟨hSome, rfl⟩ := h
  · exact ⟨hLabel rfl, rfl⟩
  · rw [if_neg (by simpa using hSome)]
    exact ⟨List.append_ne_nil_of_left_ne_nil hSome _, splitSlash_append parentPath label⟩

/-- Rows below entries of different names are different. -/
theorem nodup_flatMap_named (hNames : (nodes.map TreeNodeData.name).Nodup) {rows : TreeNodeData → List Utf16}
    (hRows : ∀ data ∈ nodes, (rows data).Nodup ∧ ∀ shown ∈ rows data, front ++ [data.name] <+: splitSlash shown) :
    (nodes.flatMap rows).Nodup := by
  refine List.nodup_flatMap.mpr ⟨fun data hMem => (hRows data hMem).1, ?_⟩
  refine (List.pairwise_map.mp hNames).imp_of_mem fun {a b} ha hb hOther shown hFirst hSecond => hOther ?_
  have hLength : (front ++ [a.name]).length = (front ++ [b.name]).length := by
    rw [List.length_append, List.length_append]
    rfl
  have hSame := List.prefix_of_prefix_length_le ((hRows a ha).2 shown hFirst) ((hRows b hb).2 shown hSecond)
    hLength.le
  exact (List.cons.inj (List.append_cancel_left (hSame.eq_of_length hLength))).1

/-- The rows of the entries of a folder, given those of each entry. -/
theorem displayPaths_nodes {parentPath : Utf16} (hNames : (nodes.map TreeNodeData.name).Nodup)
    (hEntry : ∀ data ∈ nodes,
      (buildDisplayNode data (collapseIfSingleChild data.name parentPath data)).displayPaths.Nodup ∧
        ∀ shown ∈ (buildDisplayNode data (collapseIfSingleChild data.name parentPath data)).displayPaths,
          front ++ [data.name] <+: splitSlash shown) :
    (displayPathsOf (buildDisplayNodes parentPath nodes)).Nodup ∧
      ∀ shown ∈ displayPathsOf (buildDisplayNodes parentPath nodes),
        ∃ data ∈ nodes, front ++ [data.name] <+: splitSlash shown := by
  rw [buildDisplayNodes_eq_map, displayPathsOf_eq_flatMap, List.flatMap_map]
  constructor
  · exact nodup_flatMap_named hNames hEntry
  · intro shown hShown
    obtain ⟨data, hMem, hRow⟩ := List.mem_flatMap.mp hShown
    exact ⟨data, hMem, (hEntry data hMem).2 shown hRow⟩

/-- A folder's own row is above those of its entries. -/
theorem displayPaths_folder {label folderPath : Utf16} {children : List FileTreeNode}
    (hFolder : splitSlash folderPath = front) (hNodup : (displayPathsOf children).Nodup)
    (hRows : ∀ shown ∈ displayPathsOf children, ∃ data ∈ nodes, front ++ [data.name] <+: splitSlash shown) :
    (FileTreeNode.mk label folderPath true children).displayPaths.Nodup ∧
      ∀ shown ∈ (FileTreeNode.mk label folderPath true children).displayPaths, front <+: splitSlash shown := by
  refine ⟨List.nodup_cons.mpr ⟨fun hMem => ?_, hNodup⟩, List.forall_mem_cons.mpr ⟨?_, fun shown hShown => ?_⟩⟩
  · obtain ⟨data, -, hPrefix⟩ := hRows _ hMem
    have hLength := hPrefix.length_le
    rw [hFolder, List.length_append, List.length_singleton] at hLength
    omega
  · rw [hFolder]
  · obtain ⟨data, -, hPrefix⟩ := hRows shown hShown
    exact (List.prefix_append _ _).trans hPrefix

/-- Each row has a path of its own, below the entry it is drawn for. -/
theorem Laid.displayPaths (h : Laid front nodes) :
    (∀ parentPath, At front parentPath → (front = [] → ∀ data ∈ nodes, data.name ≠ []) →
      (displayPathsOf (buildDisplayNodes parentPath nodes)).Nodup ∧
        ∀ shown ∈ displayPathsOf (buildDisplayNodes parentPath nodes),
          ∃ data ∈ nodes, front ++ [data.name] <+: splitSlash shown) ∧
    ∀ base parentPath label name, At base parentPath → (base = [] → label ≠ []) →
      base ++ splitSlash label = front →
      (collapseIfSingleChild label parentPath (.mk name none nodes)).displayPaths.Nodup ∧
        ∀ shown ∈ (collapseIfSingleChild label parentPath (.mk name none nodes)).displayPaths,
          front <+: splitSlash shown := by
  induction h with
  | @intro front nodes names plain file folder below ih =>
    have hNodes : ∀ parentPath, At front parentPath → (front = [] → ∀ data ∈ nodes, data.name ≠ []) →
        (displayPathsOf (buildDisplayNodes parentPath nodes)).Nodup ∧
          ∀ shown ∈ displayPathsOf (buildDisplayNodes parentPath nodes),
            ∃ data ∈ nodes, front ++ [data.name] <+: splitSlash shown := by
      intro parentPath hAt hSome
      refine displayPaths_nodes names fun data hMem => ?_
      have hFile := file data hMem
      have hFolder := ih data hMem
      have hPlain := splitSlash_plain (plain data hMem)
      have hLabel : front = [] → data.name ≠ [] := fun hFront => hSome hFront data hMem
      obtain ⟨name, leafPath, children⟩ := data
      cases leafPath with
      | some path =>
        refine ⟨List.nodup_singleton path, fun shown hShown => ?_⟩
        rw [List.mem_singleton.mp hShown, hFile path rfl]
      | none => exact (hFolder rfl).2 front parentPath name name hAt hLabel (congrArg (front ++ ·) hPlain)
    refine ⟨hNodes, fun base parentPath label name hAt hLabel hFront => ?_⟩
    obtain ⟨next, children, rfl, hChain⟩ | hEnd := collapse_cases label parentPath name nodes
    · have hNext := splitSlash_plain (plain _ List.mem_cons_self)
      rw [hChain]
      obtain ⟨hNodup, hRows⟩ := (ih _ List.mem_cons_self rfl).2 base parentPath (label ++ slash :: next) next hAt
        (fun _ => List.append_ne_nil_of_right_ne_nil _ (List.cons_ne_nil _ _)) (by
          rw [splitSlash_append, ← List.append_assoc, hFront]
          exact congrArg (front ++ ·) hNext)
      exact ⟨hNodup, fun shown hShown => (List.prefix_append _ _).trans (hRows shown hShown)⟩
    · rw [hEnd]
      obtain ⟨hSome, hSplit⟩ := hAt.joinPath hLabel
      rw [hFront] at hSplit
      have hBelow : front ≠ [] := by
        rw [← hFront]
        exact List.append_ne_nil_of_right_ne_nil _ (splitSlash_ne_nil label)
      obtain ⟨hNodup, hRows⟩ := hNodes _ (Or.inr ⟨hSome, hSplit⟩) fun hNone => absurd hNone hBelow
      exact displayPaths_folder hSplit hNodup hRows

end Drawn

/-! ## Which files are lost -/

section Lost

variable {paths : List Utf16}

/-- The map that the paths are inserted into. -/
def rawTree (paths : List Utf16) : List TreeNodeData :=
  paths.foldl (fun nodes path => insertPath (splitSlash path) path nodes) []

theorem mem_names_insertPath {segment : Utf16} {rest : List Utf16} {path name : Utf16} {nodes : List TreeNodeData}
    (h : name ∈ (insertPath (segment :: rest) path nodes).map TreeNodeData.name) :
    name = segment ∨ name ∈ nodes.map TreeNodeData.name := by
  have hKept (nodes : List TreeNodeData) : (nodes.map fun data => if data.name = segment then
      data.withChildren (insertPath rest path data.children) else data).map TreeNodeData.name =
        nodes.map TreeNodeData.name := by
    rw [List.map_map]
    refine List.map_congr_left fun data _ => ?_
    rw [Function.comp_apply]
    split
    · rfl
    · rfl
  rw [insertPath, apply_ite (List.map TreeNodeData.name), hKept, ite_self] at h
  split at h
  · exact Or.inr h
  · rw [List.map_append, List.map_singleton, List.mem_append, List.mem_singleton] at h
    exact h.symm

/-- A file is in the tree unless one before it is in its way. -/
theorem rawTree_spec (hRelative : ∀ path ∈ paths, path ≠ [] ∧ path.head? ≠ some slash) :
    Laid [] (rawTree paths) ∧ (∀ data ∈ rawTree paths, data.name ≠ []) ∧
      ∃ kept : List Utf16, kept.Sublist paths ∧ (leafPathsOf (rawTree paths)).Perm kept ∧
        (kept = paths ↔ paths.Pairwise fun a b => ¬ Clash a b) := by
  induction paths using List.reverseRecOn with
  | nil => exact ⟨.nil _, List.forall_mem_nil _, [], List.nil_sublist _, .refl _, iff_of_true rfl .nil⟩
  | append_singleton paths path ih =>
    rw [List.forall_mem_append, List.forall_mem_singleton] at hRelative
    obtain ⟨hLaid, hSome, kept, hKept, hPerm, hAll⟩ := ih hRelative.1
    obtain ⟨segment, rest, hSplit, -, hFirst⟩ := splitSlash_first path
    have hTree : rawTree (paths ++ [path]) = insertPath (segment :: rest) path (rawTree paths) := by
      rw [rawTree, List.foldl_append, List.foldl_cons, List.foldl_nil, hSplit]
      rfl
    have hSegment : segment ≠ [] := by
      rintro rfl
      obtain ⟨-, rfl⟩ | ⟨-, more, rfl⟩ := hFirst
      · exact hRelative.2.1 rfl
      · exact hRelative.2.2 rfl
    rw [hTree]
    obtain ⟨hInserted, hLeaves⟩ := Laid.insertPath hLaid hSplit
    refine ⟨hInserted, fun data hMem => ?_, ?_⟩
    · obtain hName | hName := mem_names_insertPath (List.mem_map_of_mem hMem)
      · rwa [hName]
      · obtain ⟨other, hOther, hName⟩ := List.mem_map.mp hName
        exact hName ▸ hSome other hOther
    have hPairwise : (paths ++ [path]).Pairwise (fun a b => ¬ Clash a b) ↔
        paths.Pairwise (fun a b => ¬ Clash a b) ∧ ∀ other ∈ paths, ¬ Clash other path := by
      simp [List.pairwise_append]
    obtain ⟨⟨other, hOther, hClash⟩, hSame⟩ | ⟨hFree, hNew⟩ := hLeaves
    · refine ⟨kept, hKept.trans (List.sublist_append_left _ _), hSame ▸ hPerm, iff_of_false (fun hEq => ?_) fun h => ?_⟩
      · have hLength := hKept.length_le
        rw [hEq, List.length_append, List.length_singleton] at hLength
        omega
      · exact (hPairwise.mp h).2 other (hKept.subset (hPerm.subset hOther)) hClash
    · refine ⟨kept ++ [path], hKept.append (.refl _), ?_, ?_⟩
      · exact hNew.trans ((hPerm.cons path).trans (List.perm_append_singleton path kept).symm)
      · rw [List.append_left_inj, hAll, hPairwise]
        refine (and_iff_left_of_imp fun h other hOther => hFree other ?_).symm
        exact hPerm.symm.subset (hAll.mpr h ▸ hOther)

theorem fromPaths_eq (paths : List Utf16) :
    (FileTree.fromPaths paths).children = buildDisplayNodes [] (rawTree paths) := by
  cases paths with
  | nil => rfl
  | cons path paths => rfl

/-- Distinct paths clash when one is an ancestor of the other. -/
theorem pairwise_clash_iff (h : paths.Nodup) :
    (paths.Pairwise fun a b => ¬ Clash a b) ↔ ∀ a ∈ paths, ∀ b ∈ paths, ¬ a ++ [slash] <+: b := by
  have : Std.Symm fun a b => ¬ Clash a b := ⟨fun a b hApart hClash => hApart hClash.symm⟩
  constructor
  · intro hApart a ha b hb hBelow
    have hOther : a ≠ b := by
      rintro rfl
      have hLength := hBelow.length_le
      rw [List.length_append, List.length_singleton] at hLength
      omega
    exact hApart.forall ha hb hOther (Or.inl (splitSlash_prefix_iff.mpr (Or.inr hBelow)))
  · intro hApart
    refine h.pairwise_of_forall_ne fun a ha b hb hOther hClash => ?_
    rw [Clash, splitSlash_prefix_iff, splitSlash_prefix_iff] at hClash
    obtain (hSame | hBelow) | hSame | hBelow := hClash
    · exact hOther hSame
    · exact hApart a ha b hb hBelow
    · exact hOther hSame.symm
    · exact hApart b hb a ha hBelow

/-- Every file is in the tree exactly when none is an ancestor of another. -/
theorem fromPaths_loses_nothing_iff (hDistinct : paths.Nodup)
    (hRelative : ∀ path ∈ paths, path ≠ [] ∧ path.head? ≠ some slash) :
    ((FileTree.fromPaths paths).getAllLeafPaths.Perm paths ∧ (FileTree.fromPaths paths).displayPaths.Nodup) ↔
      ∀ a ∈ paths, ∀ b ∈ paths, ¬ a ++ [slash] <+: b := by
  obtain ⟨hLaid, hSome, kept, hKept, hPerm, hAll⟩ := rawTree_spec hRelative
  have hLeaves : (FileTree.fromPaths paths).getAllLeafPaths = leafPathsOf (rawTree paths) := by
    rw [FileTree.getAllLeafPaths, fromPaths_eq]
    exact hLaid.getAllLeafPaths.1 []
  have hRows : (FileTree.fromPaths paths).displayPaths.Nodup := by
    rw [FileTree.displayPaths, fromPaths_eq]
    exact (hLaid.displayPaths.1 [] (Or.inl ⟨rfl, rfl⟩) fun _ => hSome).1
  rw [and_iff_left hRows, hLeaves, ← pairwise_clash_iff hDistinct, ← hAll]
  constructor
  · intro hWhole
    exact hKept.eq_of_length (hPerm.symm.trans hWhole).length_eq
  · rintro rfl
    exact hPerm

section Examples

/-- A file `a` is deleted and a file `a/b` is new. -/
def deletedAndBelow : List Utf16 := [utf16 "a", utf16 "a/b"]

theorem below_a_deleted_file_is_lost : ¬ ∀ paths : List Utf16, paths.Nodup →
    (∀ path ∈ paths, path ≠ [] ∧ path.head? ≠ some slash) →
    (FileTree.fromPaths paths).getAllLeafPaths.Perm paths ∧ (FileTree.fromPaths paths).displayPaths.Nodup := by
  intro h
  have hLost : (FileTree.fromPaths deletedAndBelow).getAllLeafPaths = [utf16 "a"] := by decide
  have hLength := (h deletedAndBelow (by decide) (by decide)).1.length_eq
  rw [hLost] at hLength
  exact absurd hLength (by decide)

theorem fromPaths_loses_nothing_iff_deletedAndBelow :
    ((FileTree.fromPaths deletedAndBelow).getAllLeafPaths.Perm deletedAndBelow ∧
      (FileTree.fromPaths deletedAndBelow).displayPaths.Nodup) ↔
      ∀ a ∈ deletedAndBelow, ∀ b ∈ deletedAndBelow, ¬ a ++ [slash] <+: b :=
  fromPaths_loses_nothing_iff (by decide) (by decide)

end Examples

end Lost

end PathTree

end GitBranchManager
