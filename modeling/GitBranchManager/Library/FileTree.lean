import Mathlib.Data.List.Basic
import Mathlib.Data.List.Nodup
import Mathlib.Data.List.Perm.Subperm
import Mathlib.Data.List.TakeWhile
import Mathlib.Logic.Relation

/-! # File trees

A node is a file, a directory or a link, and knows the directory it is in. Numbers are never used
again. Anybody may create, move and delete nodes; who made a node stays with it.
-/

namespace Library

universe u v

inductive PathPart (ν : Type u)
  | up
  | entry (name : ν)
  deriving DecidableEq

/-- A link is followed from the root, or from the directory it is in. -/
inductive FileKind (ν : Type u)
  | file
  | dir
  | link (absolute : Bool) (target : List (PathPart ν))
  deriving DecidableEq

structure FileNode (ν : Type u) (μ : Type v) where
  id : Nat
  parent : Nat
  name : ν
  kind : FileKind ν
  maker : μ
  deriving DecidableEq

/-- The root directory has number 0 and is not among the nodes. -/
structure FileTree (ν : Type u) (μ : Type v) where
  nodes : List (FileNode ν μ) := []
  next : Nat := 1
  deriving DecidableEq

inductive FileChange (ν : Type u) (μ : Type v)
  | create (author : μ) (parent : Nat) (name : ν) (kind : FileKind ν)
  | move (author : μ) (id parent : Nat) (name : ν)
  | delete (author : μ) (id : Nat)

namespace FileTree

variable {ν : Type u} {μ : Type v}

section Lookup

variable [DecidableEq ν] (tree : FileTree ν μ)

def lookup (dir : Nat) (name : ν) : Option (FileNode ν μ) :=
  tree.nodes.find? fun node => node.parent = dir ∧ node.name = name

def find (id : Nat) : Option (FileNode ν μ) := tree.nodes.find? (·.id = id)

def isDir (id : Nat) : Bool := id == 0 || tree.nodes.any fun node => node.id = id ∧ node.kind = .dir

def children (dir : Nat) : List Nat := (tree.nodes.filter (·.parent = dir)).map FileNode.id

/-- Along a path; `jump` goes on behind a link. A link at the end is followed only if asked. -/
def walk (follow : Bool) (jump : Nat → List (PathPart ν) → Option Nat) :
    Nat → List (PathPart ν) → Option Nat
  | dir, [] => some dir
  | dir, .up :: rest => walk follow jump ((tree.find dir).elim 0 FileNode.parent) rest
  | dir, .entry name :: rest =>
    match tree.lookup dir name with
    | none => none
    | some node =>
      match node.kind with
      | .dir => walk follow jump node.id rest
      | .file => if rest.isEmpty then some node.id else none
      | .link absolute target =>
        if rest.isEmpty && !follow then some node.id
        else jump (if absolute then 0 else dir) (target ++ rest)

/-- What the path leads to, with at most so many links on the way. -/
def resolve (follow : Bool) : Nat → Nat → List (PathPart ν) → Option Nat
  | 0 => tree.walk follow fun _ _ => none
  | links + 1 => tree.walk follow (resolve follow links)

/-- A node and everything in it, the contents before the directory; links are not followed. -/
def postorder : Nat → Nat → List Nat
  | 0, id => [id]
  | depth + 1, id => (tree.children id).flatMap (postorder depth) ++ [id]

end Lookup

def Holds (tree : FileTree ν μ) (dir id : Nat) : Prop := ∃ node ∈ tree.nodes, node.parent = dir ∧ node.id = id

/-- The node is in the directory at any depth, or is the directory. -/
abbrev Reaches (tree : FileTree ν μ) : Nat → Nat → Prop := Relation.ReflTransGen tree.Holds

structure WellFormed [DecidableEq ν] (tree : FileTree ν μ) : Prop where
  ids : (tree.nodes.map FileNode.id).Nodup
  fresh : 0 < tree.next
  numbered : ∀ node ∈ tree.nodes, 0 < node.id ∧ node.id < tree.next
  entries : ∀ a ∈ tree.nodes, ∀ b ∈ tree.nodes, a.parent = b.parent → a.name = b.name → a = b
  parents : ∀ node ∈ tree.nodes, tree.isDir node.parent = true
  acyclic : ∀ id, ¬ Relation.TransGen tree.Holds id id

/-! ## Changes -/

section Changes

variable (tree : FileTree ν μ)

def add (maker : μ) (parent : Nat) (name : ν) (kind : FileKind ν) : FileTree ν μ where
  nodes := tree.nodes ++ [{ id := tree.next, parent, name, kind, maker }]
  next := tree.next + 1

def relocate (id parent : Nat) (name : ν) : FileTree ν μ :=
  { tree with nodes := tree.nodes.map fun node => if node.id = id then { node with parent, name } else node }

def without (ids : List Nat) : FileTree ν μ := { tree with nodes := tree.nodes.filter fun node => node.id ∉ ids }

end Changes

/-- A move does not end inside of what is moved, and only what is empty is deleted. -/
inductive Step [DecidableEq ν] : FileTree ν μ → FileChange ν μ → FileTree ν μ → Prop
  | create {tree : FileTree ν μ} {author : μ} {parent : Nat} {name : ν} {kind : FileKind ν}
      (hParent : tree.isDir parent = true) (hFree : tree.lookup parent name = none) :
      Step tree (.create author parent name kind) (tree.add author parent name kind)
  | move {tree : FileTree ν μ} {author : μ} {id parent : Nat} {name : ν}
      (hParent : tree.isDir parent = true) (hFree : tree.lookup parent name = none)
      (hOutside : ¬ tree.Reaches id parent) :
      Step tree (.move author id parent name) (tree.relocate id parent name)
  | delete {tree : FileTree ν μ} {author : μ} {id : Nat} (hEmpty : tree.children id = []) :
      Step tree (.delete author id) (tree.without [id])

/-- Changes one after another, by anybody. -/
abbrev Run [DecidableEq ν] : FileTree ν μ → FileTree ν μ → Prop :=
  Relation.ReflTransGen fun before after => ∃ change, Step before change after

/-- The node is the entry of the directory, or is in it at any depth. -/
def InEntry (tree : FileTree ν μ) (dir : Nat) (name : ν) (id : Nat) : Prop :=
  ∃ top ∈ tree.nodes, top.parent = dir ∧ top.name = name ∧ tree.Reaches top.id id

/-- The change is one of the run, and by it the node gets into the entry. -/
def EntersBy [DecidableEq ν] (first : FileTree ν μ) (dir : Nat) (name : ν) (id : Nat) (last : FileTree ν μ)
    (change : FileChange ν μ) : Prop :=
  ∃ before after, Run first before ∧ Step before change after ∧ Run after last ∧
    ¬ before.InEntry dir name id ∧ after.InEntry dir name id

/-! ## What is in what -/

section Moved

variable {α : Type*} {R R' : α → α → Prop} {moved dir : α}

/-- Below the moved node nothing changes. -/
theorem below_moved (hOld : ∀ a b, R' a b → b ≠ moved → R a b) {b : α}
    (h : Relation.ReflTransGen R' moved b) : Relation.ReflTransGen R moved b := by
  induction h with
  | refl => exact .refl
  | @tail a b _ hLast ih =>
    by_cases hMoved : b = moved
    · rw [hMoved]
    · exact ih.tail (hOld a b hLast hMoved)

/-- A way down is an old one, or leads to the new directory and on from the moved node. -/
theorem reaches_moved (hOld : ∀ a b, R' a b → b ≠ moved → R a b) (hNew : ∀ a, R' a moved → a = dir)
    {a b : α} (h : Relation.ReflTransGen R' a b) :
    Relation.ReflTransGen R a b ∨ Relation.ReflTransGen R' a dir ∧ Relation.ReflTransGen R moved b := by
  induction h with
  | refl => exact .inl .refl
  | @tail c d hFront hLast ih =>
    by_cases hMoved : d = moved
    · rw [hMoved] at hLast
      rw [hNew c hLast] at hFront
      rw [hMoved]
      exact .inr ⟨hFront, .refl⟩
    · have hStep := hOld c d hLast hMoved
      rcases ih with hWay | ⟨hDir, hBelow⟩
      · exact .inl (hWay.tail hStep)
      · exact .inr ⟨hDir, hBelow.tail hStep⟩

/-- A way to the new directory does not lead over the moved node. -/
theorem reaches_dir (hOld : ∀ a b, R' a b → b ≠ moved → R a b) (hNew : ∀ a, R' a moved → a = dir)
    (hOutside : ¬ Relation.ReflTransGen R moved dir) {a : α} (h : Relation.ReflTransGen R' a dir) :
    Relation.ReflTransGen R a dir := by
  rcases reaches_moved hOld hNew h with hWay | ⟨-, hBelow⟩
  · exact hWay
  · exact absurd hBelow hOutside

theorem acyclic_moved (hOld : ∀ a b, R' a b → b ≠ moved → R a b) (hNew : ∀ a, R' a moved → a = dir)
    (hOutside : ¬ Relation.ReflTransGen R moved dir) (hAcyclic : ∀ a, ¬ Relation.TransGen R a a) (a : α) :
    ¬ Relation.TransGen R' a a := by
  intro hCycle
  obtain ⟨b, hFront, hLast⟩ := Relation.TransGen.tail'_iff.mp hCycle
  by_cases hMoved : a = moved
  · subst hMoved
    rw [hNew b hLast] at hFront
    exact hOutside (below_moved hOld hFront)
  · have hStep := hOld b a hLast hMoved
    rcases reaches_moved hOld hNew hFront with hWay | ⟨hDir, hBelow⟩
    · exact hAcyclic a (Relation.TransGen.tail' hWay hStep)
    · exact hOutside ((hBelow.tail hStep).trans (reaches_dir hOld hNew hOutside hDir))

end Moved

theorem mem_children {tree : FileTree ν μ} {dir id : Nat} : id ∈ tree.children dir ↔ tree.Holds dir id := by
  simp [children, Holds, and_assoc]

section Nodes

variable [DecidableEq ν] {tree : FileTree ν μ}

theorem mem_of_lookup {dir : Nat} {name : ν} {node : FileNode ν μ} (h : tree.lookup dir name = some node) :
    node ∈ tree.nodes ∧ node.parent = dir ∧ node.name = name :=
  ⟨List.mem_of_find?_eq_some h, by simpa using List.find?_some h⟩

theorem not_entry_of_lookup {dir : Nat} {name : ν} (h : tree.lookup dir name = none) {node : FileNode ν μ}
    (hNode : node ∈ tree.nodes) (hDir : node.parent = dir) : node.name ≠ name := by
  intro hName
  exact List.find?_eq_none.mp h node hNode (by simp [hDir, hName])

theorem isDir_iff {id : Nat} :
    tree.isDir id = true ↔ id = 0 ∨ ∃ node ∈ tree.nodes, node.id = id ∧ node.kind = .dir := by
  simp [isDir]

theorem isDir_mono (before : FileTree ν μ) {after : FileTree ν μ} {id : Nat}
    (hSub : ∀ node ∈ before.nodes, ∃ same ∈ after.nodes, same.id = node.id ∧ same.kind = node.kind)
    (h : before.isDir id = true) : after.isDir id = true := by
  rcases isDir_iff.mp h with hRoot | ⟨node, hNode, hId, hKind⟩
  · exact isDir_iff.mpr (.inl hRoot)
  · obtain ⟨same, hSame, hSameId, hSameKind⟩ := hSub node hNode
    exact isDir_iff.mpr (.inr ⟨same, hSame, hSameId.trans hId, hSameKind.trans hKind⟩)

namespace WellFormed

variable (h : tree.WellFormed)
include h

theorem eq_of_id {a b : FileNode ν μ} (ha : a ∈ tree.nodes) (hb : b ∈ tree.nodes) (hId : a.id = b.id) : a = b :=
  List.inj_on_of_nodup_map h.ids ha hb hId

theorem lookup_eq {node : FileNode ν μ} (hNode : node ∈ tree.nodes) :
    tree.lookup node.parent node.name = some node := by
  cases hLookup : tree.lookup node.parent node.name with
  | none => exact absurd rfl (not_entry_of_lookup hLookup hNode rfl)
  | some other =>
    obtain ⟨hOther, hParent, hName⟩ := mem_of_lookup hLookup
    rw [h.entries other hOther node hNode hParent hName]

theorem kind_of_isDir {node : FileNode ν μ} (hNode : node ∈ tree.nodes) (hDir : tree.isDir node.id = true) :
    node.kind = .dir := by
  rcases isDir_iff.mp hDir with hRoot | ⟨other, hOther, hId, hKind⟩
  · exact absurd hRoot (Nat.pos_iff_ne_zero.mp (h.numbered node hNode).1)
  · rwa [h.eq_of_id hNode hOther hId.symm]

theorem isDir_of_holds {dir id : Nat} (hHolds : tree.Holds dir id) : tree.isDir dir = true := by
  obtain ⟨node, hNode, rfl, -⟩ := hHolds
  exact h.parents node hNode

theorem lt_next_of_isDir {dir : Nat} (hDir : tree.isDir dir = true) : dir < tree.next := by
  rcases isDir_iff.mp hDir with rfl | ⟨node, hNode, rfl, -⟩
  · exact h.fresh
  · exact (h.numbered node hNode).2

/-- Nothing is in what is no directory. -/
theorem lookup_of_not_dir {node : FileNode ν μ} (hNode : node ∈ tree.nodes) (hKind : node.kind ≠ .dir)
    (name : ν) : tree.lookup node.id name = none := by
  cases hLookup : tree.lookup node.id name with
  | none => rfl
  | some child =>
    obtain ⟨hChild, hParent, -⟩ := mem_of_lookup hLookup
    exact absurd (h.kind_of_isDir hNode (hParent ▸ h.parents child hChild)) hKind

/-- The number of a new node is in nothing and holds nothing. -/
theorem reaches_next {id : Nat} (hWay : tree.Reaches tree.next id) : id = tree.next := by
  rcases Relation.ReflTransGen.cases_head hWay with hEq | ⟨child, hFirst, -⟩
  · exact hEq.symm
  · exact absurd (h.lt_next_of_isDir (h.isDir_of_holds hFirst)) (Nat.lt_irrefl _)

end WellFormed

end Nodes

/-! ## Paths -/

section Paths

variable [DecidableEq ν] {tree : FileTree ν μ}

/-- What the last part of a path names, from where the parts before it lead. -/
theorem walk_child (h : tree.WellFormed) (name : ν) {near far : Nat → List (PathPart ν) → Option Nat}
    (hJump : ∀ dir path, near dir (path ++ [.entry name]) =
      (far dir path).bind fun folder => (tree.lookup folder name).map FileNode.id)
    (front : List (PathPart ν)) (dir : Nat) :
    tree.walk false near dir (front ++ [.entry name]) =
      (tree.walk true far dir front).bind fun folder => (tree.lookup folder name).map FileNode.id := by
  induction front generalizing dir with
  | nil =>
    cases hLookup : tree.lookup dir name with
    | none => simp [walk, hLookup]
    | some node => cases hKind : node.kind <;> simp [walk, hLookup, hKind]
  | cons part rest ih =>
    cases part with
    | up => exact ih _
    | entry first =>
      cases hLookup : tree.lookup dir first with
      | none => simp [walk, hLookup]
      | some node =>
        cases hKind : node.kind with
        | dir => simpa [walk, hLookup, hKind] using ih node.id
        | link absolute target =>
          simpa [walk, hLookup, hKind] using hJump (if absolute then 0 else dir) (target ++ rest)
        | file =>
          -- A file at the end of the folder's path is no folder.
          have hNone := h.lookup_of_not_dir (mem_of_lookup hLookup).1 (by simp [hKind]) name
          cases rest <;> simp [walk, hLookup, hKind, hNone]

theorem resolve_child (h : tree.WellFormed) (name : ν) (links : Nat) (dir : Nat) (front : List (PathPart ν)) :
    tree.resolve false links dir (front ++ [.entry name]) =
      (tree.resolve true links dir front).bind fun folder => (tree.lookup folder name).map FileNode.id := by
  induction links generalizing dir front with
  | zero => exact walk_child h name (fun _ _ => rfl) front dir
  | succ links ih => exact walk_child h name ih front dir

end Paths

/-! ## What a change leaves as it is -/

section Steps

variable {tree : FileTree ν μ}

section Add

variable {maker : μ} {parent : Nat} {name : ν} {kind : FileKind ν}

theorem holds_add {dir id : Nat} :
    (tree.add maker parent name kind).Holds dir id ↔ tree.Holds dir id ∨ dir = parent ∧ id = tree.next := by
  simp only [Holds, add, List.mem_append, List.mem_singleton, or_and_right, exists_or, exists_eq_left]
  exact or_congr_right (and_congr eq_comm eq_comm)

theorem holds_of_add {dir id : Nat} (h : (tree.add maker parent name kind).Holds dir id) (hOld : id ≠ tree.next) :
    tree.Holds dir id :=
  (holds_add.mp h).resolve_right fun hNew => hOld hNew.2

variable [DecidableEq ν]

theorem WellFormed.holder_of_next (h : tree.WellFormed) {dir : Nat}
    (hHolds : (tree.add maker parent name kind).Holds dir tree.next) : dir = parent := by
  rcases holds_add.mp hHolds with ⟨node, hNode, -, hId⟩ | hNew
  · exact absurd (hId ▸ (h.numbered node hNode).2) (Nat.lt_irrefl _)
  · exact hNew.1

theorem WellFormed.add (h : tree.WellFormed) (hParent : tree.isDir parent = true)
    (hFree : tree.lookup parent name = none) : (tree.add maker parent name kind).WellFormed where
  ids := by
    simp only [FileTree.add, List.map_append, List.map_cons, List.map_nil]
    refine List.nodup_append.mpr ⟨h.ids, List.nodup_singleton _, ?_⟩
    intro id hId other hOther
    obtain ⟨node, hNode, rfl⟩ := List.mem_map.mp hId
    rw [List.mem_singleton.mp hOther]
    exact Nat.ne_of_lt (h.numbered node hNode).2
  fresh := Nat.succ_pos _
  numbered := by
    intro node hNode
    rcases List.mem_append.mp hNode with hOld | hNew
    · exact ⟨(h.numbered node hOld).1, Nat.lt_succ_of_lt (h.numbered node hOld).2⟩
    · rw [List.mem_singleton.mp hNew]
      exact ⟨h.fresh, Nat.lt_succ_self _⟩
  entries := by
    intro a ha b hb hParents hNames
    rcases List.mem_append.mp ha with hOldA | hNewA <;> rcases List.mem_append.mp hb with hOldB | hNewB
    · exact h.entries a hOldA b hOldB hParents hNames
    · rw [List.mem_singleton.mp hNewB] at hParents hNames
      exact absurd hNames (not_entry_of_lookup hFree hOldA hParents)
    · rw [List.mem_singleton.mp hNewA] at hParents hNames
      exact absurd hNames.symm (not_entry_of_lookup hFree hOldB hParents.symm)
    · rw [List.mem_singleton.mp hNewA, List.mem_singleton.mp hNewB]
  parents := by
    intro node hNode
    refine isDir_mono tree (fun old hOld => ⟨old, List.mem_append_left _ hOld, rfl, rfl⟩) ?_
    rcases List.mem_append.mp hNode with hOld | hNew
    · exact h.parents node hOld
    · rwa [List.mem_singleton.mp hNew]
  acyclic := by
    have hOutside : ¬ tree.Reaches tree.next parent := fun hWay =>
      absurd (h.reaches_next hWay) (Nat.ne_of_lt (h.lt_next_of_isDir hParent))
    exact acyclic_moved (fun _ _ => holds_of_add) (fun _ => h.holder_of_next) hOutside h.acyclic

end Add

section Relocate

variable {moved dir : Nat} {name : ν}

/-- What `relocate` does to one node. -/
def relocated (moved dir : Nat) (name : ν) (node : FileNode ν μ) : FileNode ν μ :=
  if node.id = moved then { node with parent := dir, name } else node

@[simp] theorem relocated_id (node : FileNode ν μ) : (relocated moved dir name node).id = node.id := by
  unfold relocated
  split <;> rfl

@[simp] theorem relocated_kind (node : FileNode ν μ) : (relocated moved dir name node).kind = node.kind := by
  unfold relocated
  split <;> rfl

@[simp] theorem relocated_maker (node : FileNode ν μ) : (relocated moved dir name node).maker = node.maker := by
  unfold relocated
  split <;> rfl

theorem relocated_of_ne {node : FileNode ν μ} (h : node.id ≠ moved) : relocated moved dir name node = node :=
  if_neg h

theorem nodes_relocate : (tree.relocate moved dir name).nodes = tree.nodes.map (relocated moved dir name) := rfl

theorem holds_of_relocate {holder id : Nat} (h : (tree.relocate moved dir name).Holds holder id)
    (hOther : id ≠ moved) : tree.Holds holder id := by
  obtain ⟨node, hNode, hHolder, hId⟩ := h
  rw [nodes_relocate] at hNode
  obtain ⟨old, hOld, rfl⟩ := List.mem_map.mp hNode
  rw [relocated_id] at hId
  rw [relocated_of_ne (hId ▸ hOther)] at hHolder
  exact ⟨old, hOld, hHolder, hId⟩

theorem holder_of_moved {holder : Nat} (h : (tree.relocate moved dir name).Holds holder moved) : holder = dir := by
  obtain ⟨node, hNode, hHolder, hId⟩ := h
  rw [nodes_relocate] at hNode
  obtain ⟨old, -, rfl⟩ := List.mem_map.mp hNode
  rw [relocated_id] at hId
  rw [← hHolder, relocated, if_pos hId]

theorem WellFormed.relocate [DecidableEq ν] (h : tree.WellFormed) (hDir : tree.isDir dir = true)
    (hFree : tree.lookup dir name = none) (hOutside : ¬ tree.Reaches moved dir) :
    (tree.relocate moved dir name).WellFormed where
  ids := by
    have hSame : (tree.relocate moved dir name).nodes.map FileNode.id = tree.nodes.map FileNode.id := by
      simp [nodes_relocate]
    exact hSame ▸ h.ids
  fresh := h.fresh
  numbered := by
    intro node hNode
    rw [nodes_relocate] at hNode
    obtain ⟨old, hOld, rfl⟩ := List.mem_map.mp hNode
    rw [relocated_id]
    exact h.numbered old hOld
  entries := by
    intro a ha b hb hParents hNames
    rw [nodes_relocate] at ha hb
    obtain ⟨oldA, hOldA, rfl⟩ := List.mem_map.mp ha
    obtain ⟨oldB, hOldB, rfl⟩ := List.mem_map.mp hb
    by_cases hA : oldA.id = moved <;> by_cases hB : oldB.id = moved
    · rw [h.eq_of_id hOldA hOldB (hA.trans hB.symm)]
    · rw [relocated, if_pos hA, relocated_of_ne hB] at hParents hNames
      exact absurd hNames.symm (not_entry_of_lookup hFree hOldB hParents.symm)
    · rw [relocated_of_ne hA, relocated, if_pos hB] at hParents hNames
      exact absurd hNames (not_entry_of_lookup hFree hOldA hParents)
    · rw [relocated_of_ne hA, relocated_of_ne hB] at hParents hNames
      rw [h.entries oldA hOldA oldB hOldB hParents hNames]
  parents := by
    intro node hNode
    refine isDir_mono tree (fun old hOld => ?_) ?_
    · exact ⟨relocated moved dir name old, List.mem_map_of_mem hOld, relocated_id old, relocated_kind old⟩
    · rw [nodes_relocate] at hNode
      obtain ⟨old, hOld, rfl⟩ := List.mem_map.mp hNode
      by_cases hId : old.id = moved
      · rwa [relocated, if_pos hId]
      · rw [relocated_of_ne hId]
        exact h.parents old hOld
  acyclic := acyclic_moved (fun _ _ => holds_of_relocate) (fun _ => holder_of_moved) hOutside h.acyclic

end Relocate

section Without

variable {ids : List Nat}

theorem mem_without {node : FileNode ν μ} :
    node ∈ (tree.without ids).nodes ↔ node ∈ tree.nodes ∧ node.id ∉ ids := by
  simp [without]

theorem holds_of_without {dir id : Nat} (h : (tree.without ids).Holds dir id) : tree.Holds dir id := by
  obtain ⟨node, hNode, hHolds⟩ := h
  exact ⟨node, (mem_without.mp hNode).1, hHolds⟩

theorem reaches_of_without {top id : Nat} (h : (tree.without ids).Reaches top id) : tree.Reaches top id :=
  Relation.ReflTransGen.mono (fun _ _ => holds_of_without) _ _ h

theorem WellFormed.delete [DecidableEq ν] (h : tree.WellFormed) {id : Nat} (hEmpty : tree.children id = []) :
    (tree.without [id]).WellFormed where
  ids := h.ids.sublist (List.filter_sublist.map _)
  fresh := h.fresh
  numbered := fun node hNode => h.numbered node (mem_without.mp hNode).1
  entries := fun a ha b hb => h.entries a (mem_without.mp ha).1 b (mem_without.mp hb).1
  parents := by
    intro node hNode
    obtain ⟨hOld, -⟩ := mem_without.mp hNode
    rcases isDir_iff.mp (h.parents node hOld) with hRoot | ⟨dir, hDir, hId, hKind⟩
    · exact isDir_iff.mpr (.inl hRoot)
    · refine isDir_iff.mpr (.inr ⟨dir, mem_without.mpr ⟨hDir, ?_⟩, hId, hKind⟩)
      intro hDeleted
      have hChild : node.id ∈ tree.children id :=
        mem_children.mpr ⟨node, hOld, hId.symm.trans (List.mem_singleton.mp hDeleted), rfl⟩
      rw [hEmpty] at hChild
      exact List.not_mem_nil hChild
  acyclic := fun id hCycle => 
    h.acyclic id (Relation.TransGen.mono (fun _ _ => holds_of_without) _ _ hCycle)

end Without

section Runs

variable [DecidableEq ν]

theorem wellFormed_empty : ({} : FileTree ν μ).WellFormed where
  ids := List.nodup_nil
  fresh := Nat.one_pos
  numbered := by simp
  entries := by simp
  parents := by simp
  acyclic := by
    intro id hCycle
    obtain ⟨_, -, node, hNode, -⟩ := Relation.TransGen.tail'_iff.mp hCycle
    exact List.not_mem_nil hNode

theorem Step.wellFormed {before after : FileTree ν μ} {change : FileChange ν μ} (hStep : Step before change after)
    (h : before.WellFormed) : after.WellFormed := by
  cases hStep with
  | create hParent hFree => exact h.add hParent hFree
  | move hParent hFree hOutside => exact h.relocate hParent hFree hOutside
  | delete hEmpty => exact h.delete hEmpty

theorem Run.wellFormed {before after : FileTree ν μ} (hRun : Run before after) (h : before.WellFormed) :
    after.WellFormed := by
  induction hRun with
  | refl => exact h
  | tail _ hLast ih =>
    obtain ⟨change, hStep⟩ := hLast
    exact hStep.wellFormed ih

theorem Step.next_le {before after : FileTree ν μ} {change : FileChange ν μ} (hStep : Step before change after) :
    before.next ≤ after.next := by
  cases hStep with
  | create => exact Nat.le_succ _
  | move => exact Nat.le_refl _
  | delete => exact Nat.le_refl _

/-- A node that is no new one was there, made by the same. -/
theorem Step.made {before after : FileTree ν μ} {change : FileChange ν μ} (hStep : Step before change after)
    {node : FileNode ν μ} (hNode : node ∈ after.nodes) (hOld : node.id < before.next) :
    ∃ old ∈ before.nodes, old.id = node.id ∧ old.maker = node.maker := by
  cases hStep with
  | create =>
    rcases List.mem_append.mp hNode with hBefore | hNew
    · exact ⟨node, hBefore, rfl, rfl⟩
    · rw [List.mem_singleton.mp hNew] at hOld
      exact absurd hOld (Nat.lt_irrefl _)
  | move =>
    rw [nodes_relocate] at hNode
    obtain ⟨old, hBefore, rfl⟩ := List.mem_map.mp hNode
    exact ⟨old, hBefore, (relocated_id old).symm, (relocated_maker old).symm⟩
  | delete => exact ⟨node, (mem_without.mp hNode).1, rfl, rfl⟩

theorem Run.made {first last : FileTree ν μ} (hRun : Run first last) {node : FileNode ν μ}
    (hNode : node ∈ last.nodes) (hOld : node.id < first.next) :
    ∃ old ∈ first.nodes, old.id = node.id ∧ old.maker = node.maker := by
  induction hRun using Relation.ReflTransGen.head_induction_on with
  | refl => exact ⟨node, hNode, rfl, rfl⟩
  | head hFirst _ ih =>
    obtain ⟨change, hStep⟩ := hFirst
    obtain ⟨between, hBetween, hId, hMaker⟩ := ih (Nat.lt_of_lt_of_le hOld hStep.next_le)
    obtain ⟨old, hBefore, hOldId, hOldMaker⟩ := hStep.made hBetween (hId ▸ hOld)
    exact ⟨old, hBefore, hOldId.trans hId, hOldMaker.trans hMaker⟩

/-- Into an entry leads being created there or being moved. -/
theorem Step.enters {before after : FileTree ν μ} {change : FileChange ν μ} (hStep : Step before change after)
    (h : before.WellFormed) {dir id : Nat} {name : ν} (hOut : ¬ before.InEntry dir name id)
    (hIn : after.InEntry dir name id) :
    (∃ maker parent own kind, change = .create maker parent own kind ∧ id = before.next ∧
      after = before.add maker parent own kind) ∨
    ∃ mover moved parent own, change = .move mover moved parent own := by
  cases hStep with
  | @move mover moved parent own => exact .inr ⟨mover, moved, parent, own, rfl⟩
  | delete =>
    obtain ⟨top, hTop, hAt, hName, hWay⟩ := hIn
    exact absurd ⟨top, (mem_without.mp hTop).1, hAt, hName, reaches_of_without hWay⟩ hOut
  | @create maker parent own kind =>
    refine .inl ⟨maker, parent, own, kind, rfl, ?_, rfl⟩
    by_contra hOld
    obtain ⟨top, hTop, hAt, hName, hWay⟩ := hIn
    have hBefore : before.Reaches top.id id := by
      rcases reaches_moved (fun _ _ => holds_of_add) (fun _ => h.holder_of_next) hWay with hBefore | ⟨-, hBelow⟩
      · exact hBefore
      · exact absurd (h.reaches_next hBelow) hOld
    rcases List.mem_append.mp hTop with hTopOld | hTopNew
    · exact hOut ⟨top, hTopOld, hAt, hName, hBefore⟩
    · rw [List.mem_singleton.mp hTopNew] at hBefore
      exact hOld (h.reaches_next hBefore)

theorem exists_entersBy {first last : FileTree ν μ} (hRun : Run first last) {dir id : Nat} {name : ν}
    (hOut : ¬ first.InEntry dir name id) (hIn : last.InEntry dir name id) :
    ∃ change, EntersBy first dir name id last change := by
  induction hRun with
  | refl => exact absurd hIn hOut
  | @tail between last hFront hLast ih =>
    by_cases hBetween : between.InEntry dir name id
    · obtain ⟨change, before, after, hBefore, hStep, hAfter, hEnters⟩ := ih hBetween
      exact ⟨change, before, after, hBefore, hStep, hAfter.tail hLast, hEnters⟩
    · obtain ⟨change, hStep⟩ := hLast
      exact ⟨change, between, last, hFront, hStep, .refl, hBetween, hIn⟩

/-- What was not in the entry and is now was created in it by its maker, or moved into it. -/
theorem entersBy_create_or_move {first last : FileTree ν μ} (h : first.WellFormed) (hRun : Run first last)
    {dir : Nat} {name : ν} {node : FileNode ν μ} (hNode : node ∈ last.nodes)
    (hOut : ¬ first.InEntry dir name node.id) (hIn : last.InEntry dir name node.id) :
    (∃ parent own kind, EntersBy first dir name node.id last (.create node.maker parent own kind)) ∨
    ∃ mover moved parent own, EntersBy first dir name node.id last (.move mover moved parent own) := by
  obtain ⟨change, hEnters⟩ := exists_entersBy hRun hOut hIn
  obtain ⟨before, after, hBefore, hStep, hAfter, hOutside, hInside⟩ := hEnters
  have hWf := Run.wellFormed hBefore h
  have hEnters : EntersBy first dir name node.id last change :=
    ⟨before, after, hBefore, hStep, hAfter, hOutside, hInside⟩
  rcases hStep.enters hWf hOutside hInside with ⟨maker, parent, own, kind, rfl, hNew, rfl⟩ | ⟨_, _, _, _, rfl⟩
  · -- The node with the new number is the one that is there in the end.
    obtain ⟨made, hMade, hId, hMaker⟩ := Run.made hAfter hNode (hNew ▸ Nat.lt_succ_self _)
    have hWfAfter := hStep.wellFormed hWf
    have hSame : made.maker = maker := by
      rw [hWfAfter.eq_of_id hMade (List.mem_append_right _ (List.mem_singleton_self _)) (hId.trans hNew)]
    rw [← hMaker, hSame]
    exact .inl ⟨parent, own, kind, hEnters⟩
  · exact .inr ⟨_, _, _, _, hEnters⟩

end Runs

end Steps

/-! ## Removing a node with everything in it -/

section RemoveAll

variable {tree : FileTree ν μ}

theorem reaches_of_mem_postorder {depth top id : Nat} (h : id ∈ tree.postorder depth top) : tree.Reaches top id := by
  induction depth generalizing top with
  | zero => rw [List.mem_singleton.mp h]
  | succ depth ih =>
    rcases List.mem_append.mp h with hBelow | hSelf
    · obtain ⟨child, hChild, hId⟩ := List.mem_flatMap.mp hBelow
      exact (ih hId).head (mem_children.mp hChild)
    · rw [List.mem_singleton.mp hSelf]

theorem mem_postorder_succ {depth top id : Nat} (h : id ∈ tree.postorder depth top) :
    id ∈ tree.postorder (depth + 1) top := by
  induction depth generalizing top with
  | zero => exact List.mem_append_right _ h
  | succ depth ih =>
    rcases List.mem_append.mp h with hBelow | hSelf
    · obtain ⟨child, hChild, hId⟩ := List.mem_flatMap.mp hBelow
      exact List.mem_append_left _ (List.mem_flatMap.mpr ⟨child, hChild, ih hId⟩)
    · exact List.mem_append_right _ hSelf

theorem mem_postorder_of_le {shallow deep top id : Nat} (hLe : shallow ≤ deep)
    (h : id ∈ tree.postorder shallow top) : id ∈ tree.postorder deep top := by
  induction hLe with
  | refl => exact h
  | step _ ih => exact mem_postorder_succ ih

/-- The way down passes no node twice, and is as long as the depth that is needed. -/
theorem exists_way (hAcyclic : ∀ id, ¬ Relation.TransGen tree.Holds id id) {top id : Nat} (h : tree.Reaches top id) :
    ∃ way : List Nat, way.Nodup ∧ (∀ passed ∈ way, Relation.TransGen tree.Holds top passed) ∧
      id ∈ tree.postorder way.length top := by
  induction h using Relation.ReflTransGen.head_induction_on with
  | refl => exact ⟨[], List.nodup_nil, by simp, List.mem_singleton_self _⟩
  | @head top child hFirst _ ih =>
    obtain ⟨way, hNodup, hPassed, hId⟩ := ih
    have hNew : child ∉ way := fun hAgain => hAcyclic child (hPassed child hAgain)
    refine ⟨child :: way, List.nodup_cons.mpr ⟨hNew, hNodup⟩, ?_, ?_⟩
    · intro passed hMem
      rcases List.mem_cons.mp hMem with rfl | hLater
      · exact .single hFirst
      · exact (hPassed passed hLater).head hFirst
    · exact List.mem_append_left _ (List.mem_flatMap.mpr ⟨child, mem_children.mpr hFirst, hId⟩)

theorem mem_postorder (hAcyclic : ∀ id, ¬ Relation.TransGen tree.Holds id id) {top id : Nat} :
    id ∈ tree.postorder tree.nodes.length top ↔ tree.Reaches top id := by
  refine ⟨reaches_of_mem_postorder, fun hWay => ?_⟩
  obtain ⟨way, hNodup, hPassed, hId⟩ := exists_way hAcyclic hWay
  have hNodes : way ⊆ tree.nodes.map FileNode.id := by
    intro passed hMem
    obtain ⟨_, -, node, hNode, -, rfl⟩ := Relation.TransGen.tail'_iff.mp (hPassed passed hMem)
    exact List.mem_map_of_mem hNode
  have hLength := (hNodup.subperm hNodes).length_le
  rw [List.length_map] at hLength
  exact mem_postorder_of_le hLength hId

variable {ε : Type*} (fails : Nat → Option ε)

/-- One after another, up to the first that cannot be removed. -/
def removeAll (tree : FileTree ν μ) (id : Nat) : FileTree ν μ × Option ε :=
  let order := tree.postorder tree.nodes.length id
  (tree.without (order.takeWhile fun removed => (fails removed).isNone), order.findSome? fails)

variable {fails}

theorem nodes_removeAll (id : Nat) : (tree.removeAll fails id).1.nodes.Sublist tree.nodes := List.filter_sublist

theorem reaches_of_removed {id : Nat} {node : FileNode ν μ} (hNode : node ∈ tree.nodes)
    (hGone : node ∉ (tree.removeAll fails id).1.nodes) : tree.Reaches id node.id := by
  have hRemoved : node.id ∈
      (tree.postorder tree.nodes.length id).takeWhile fun removed => (fails removed).isNone := by
    by_contra hKept
    exact hGone (mem_without.mpr ⟨hNode, hKept⟩)
  exact reaches_of_mem_postorder ((List.takeWhile_sublist _).subset hRemoved)

section Whole

variable (hAcyclic : ∀ id, ¬ Relation.TransGen tree.Holds id id) (hFine : ∀ id, fails id = none)
include hAcyclic hFine

/-- Where nothing fails, what is left is what was not in it. -/
theorem mem_removeAll {id : Nat} {node : FileNode ν μ} :
    node ∈ (tree.removeAll fails id).1.nodes ↔ node ∈ tree.nodes ∧ ¬ tree.Reaches id node.id := by
  have hAll : ((tree.postorder tree.nodes.length id).takeWhile fun removed => (fails removed).isNone) =
      tree.postorder tree.nodes.length id := by
    refine List.takeWhile_eq_self_iff.mpr fun removed _ => ?_
    rw [hFine removed]
    rfl
  rw [removeAll, mem_without, hAll, mem_postorder hAcyclic]

/-- A way that ends in what is left leads over nothing that is removed. -/
theorem reaches_removeAll {id top last : Nat} (hKept : ¬ tree.Reaches id last) (hWay : tree.Reaches top last) :
    (tree.removeAll fails id).1.Reaches top last := by
  induction hWay with
  | refl => exact .refl
  | tail _ hLast ih =>
    obtain ⟨node, hNode, rfl, rfl⟩ := hLast
    have hFolder : ¬ tree.Reaches id node.parent := fun hIn => hKept (hIn.tail ⟨node, hNode, rfl, rfl⟩)
    exact (ih hFolder).tail ⟨node, (mem_removeAll hAcyclic hFine).mpr ⟨hNode, hKept⟩, rfl, rfl⟩

end Whole

end RemoveAll

end FileTree

end Library
