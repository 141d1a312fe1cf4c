import Mathlib.Data.List.Chain
import Mathlib.Data.List.Nodup
import Mathlib.Data.Set.Subsingleton
import Mathlib.Logic.Relation

/-! # Walks that take the newest first

A walk takes a newest of the elements that wait, any where there are several, and then those wait
that it leads to and the walk has not met. What waits has been met.
-/

namespace Library

open Relation

variable {α δ : Type*} [LE δ] {leads : α → α → Prop} {date : α → δ}

inductive DateWalk (leads : α → α → Prop) (date : α → δ) : Set α → Set α → List α → Prop
  | done (met : Set α) : DateWalk leads date ∅ met []
  | take {waiting met : Set α} {a : α} {rest : List α} (waits : a ∈ waiting)
      (newest : ∀ b ∈ waiting, date b ≤ date a)
      (walk : DateWalk leads date (waiting \ {a} ∪ {b | leads a b ∧ b ∉ met}) (met ∪ {b | leads a b}) rest) :
      DateWalk leads date waiting met (a :: rest)

namespace DateWalk

variable {waiting met start : Set α} {taken : List α}

theorem mem_of_waits (h : DateWalk leads date waiting met taken) {a : α} (hWaits : a ∈ waiting) : a ∈ taken := by
  induction h with
  | done => cases hWaits
  | @take waiting met b rest hFirst _ _ ih =>
    rw [List.mem_cons]
    by_cases hSame : a = b
    · exact Or.inl hSame
    · exact Or.inr (ih (Or.inl ⟨hWaits, hSame⟩))

theorem reached (h : DateWalk leads date waiting met taken) {a : α} (hTaken : a ∈ taken) :
    ∃ w ∈ waiting, ReflTransGen leads w a := by
  induction h with
  | done => cases hTaken
  | @take waiting met b rest hFirst _ _ ih =>
    rcases List.mem_cons.mp hTaken with rfl | hRest
    · exact ⟨a, hFirst, .refl⟩
    · obtain ⟨w, hWaits | ⟨hLeads, -⟩, hPath⟩ := ih hRest
      · exact ⟨w, hWaits.1, hPath⟩
      · exact ⟨b, hFirst, hPath.head hLeads⟩

theorem closed (h : DateWalk leads date waiting met taken) {a b : α} (hTaken : a ∈ taken) (hLeads : leads a b) :
    b ∈ met ∨ b ∈ taken := by
  induction h with
  | done => cases hTaken
  | @take waiting met c rest _ _ hWalk ih =>
    rw [List.mem_cons]
    by_cases hMet : b ∈ met
    · exact Or.inl hMet
    · have hWaits (hFrom : leads c b) : b ∈ rest := hWalk.mem_of_waits (Or.inr ⟨hFrom, hMet⟩)
      refine Or.inr (Or.inr ?_)
      rcases List.mem_cons.mp hTaken with rfl | hRest
      · exact hWaits hLeads
      · rcases ih hRest with (hOld | hFrom) | hLater
        · exact absurd hOld hMet
        · exact hWaits hFrom
        · exact hLater

/-- A walk takes what can be reached from its start. -/
theorem mem_iff (h : DateWalk leads date start start taken) {a : α} :
    a ∈ taken ↔ ∃ w ∈ start, ReflTransGen leads w a := by
  refine ⟨h.reached, ?_⟩
  rintro ⟨w, hStart, hPath⟩
  induction hPath with
  | refl => exact h.mem_of_waits hStart
  | tail _ hLeads ih => exact (h.closed ih hLeads).elim h.mem_of_waits id

/-- What has been met and waits no more does not come again. -/
theorem not_mem (h : DateWalk leads date waiting met taken) {a : α} (hMet : a ∈ met) (hGone : a ∉ waiting) :
    a ∉ taken := by
  induction h with
  | done => exact List.not_mem_nil
  | @take waiting met b rest hFirst _ _ ih =>
    rw [List.mem_cons, not_or]
    refine ⟨fun hSame => hGone (hSame ▸ hFirst), ih (Or.inl hMet) ?_⟩
    rintro (hOld | hNew)
    · exact hGone hOld.1
    · exact hNew.2 hMet

theorem nodup (h : DateWalk leads date waiting met taken) (hMet : waiting ⊆ met) : taken.Nodup := by
  induction h with
  | done => exact List.nodup_nil
  | @take waiting met a rest hFirst _ hWalk ih =>
    refine List.nodup_cons.mpr ⟨hWalk.not_mem (Or.inl (hMet hFirst)) ?_, ih ?_⟩
    · rintro (hOld | hNew)
      · exact hOld.2 rfl
      · exact hNew.2 (hMet hFirst)
    · rintro b (hOld | hNew)
      · exact Or.inl (hMet hOld.1)
      · exact Or.inr hNew.1

theorem head_waits {a : α} (h : DateWalk leads date waiting met (a :: taken)) : a ∈ waiting := by
  cases h with
  | take hWaits => exact hWaits

/-- Where each element leads to one at most, dates do not matter: the walk follows the only path. -/
theorem isChain (h : DateWalk leads date waiting met taken) (hNext : ∀ a b c, leads a b → leads a c → b = c)
    (hOne : waiting.Subsingleton) : taken.IsChain leads := by
  induction h with
  | done => exact .nil
  | @take waiting met a rest hFirst _ hWalk ih =>
    have hFrom {b : α} (hWaits : b ∈ waiting \ {a} ∪ {b | leads a b ∧ b ∉ met}) : leads a b := by
      rcases hWaits with hOld | hNew
      · exact absurd (hOne hOld.1 hFirst) hOld.2
      · exact hNew.1
    have hChain := ih fun b hB c hC => hNext a b c (hFrom hB) (hFrom hC)
    cases rest with
    | nil => exact .singleton a
    | cons b rest => exact .cons_cons (hFrom hWalk.head_waits) hChain

end DateWalk

theorem acyclic_of_rank (rank : α → Nat) (hRank : ∀ a b, leads a b → rank b < rank a) (a : α) :
    ¬ TransGen leads a a := by
  intro hCycle
  have hLower {b : α} (hPath : TransGen leads a b) : rank b < rank a := by
    induction hPath with
    | single hLeads => exact hRank _ _ hLeads
    | tail _ hLeads ih => exact (hRank _ _ hLeads).trans ih
  exact (hLower hCycle).false

/-- The elements of a set, each once and after all that it leads to. -/
structure TargetsFirst (leads : α → α → Prop) (elements : Set α) (list : List α) : Prop where
  nodup : list.Nodup
  mem_iff : ∀ a, a ∈ list ↔ a ∈ elements
  after : list.Pairwise fun a b => ¬ ReflTransGen leads a b

namespace TargetsFirst

variable {elements : Set α} {path : List α}

theorem pairwise_path (h : path.IsChain leads) : path.Pairwise (TransGen leads) :=
  (h.imp fun _ _ => TransGen.single).pairwise

theorem reverse (h : path.IsChain leads) (hAcyclic : ∀ a, ¬ TransGen leads a a) :
    TargetsFirst leads {a | a ∈ path} path.reverse := by
  have hPath := pairwise_path h
  have hDistinct : path.Pairwise (· ≠ ·) := by
    refine hPath.imp ?_
    rintro a _ hThere rfl
    exact hAcyclic a hThere
  have hAfter : path.Pairwise fun a b => ¬ ReflTransGen leads b a := by
    refine hPath.imp ?_
    intro a b hThere hBack
    exact hAcyclic a (hThere.trans_left hBack)
  exact ⟨List.nodup_reverse.mpr hDistinct, fun _ => List.mem_reverse, List.pairwise_reverse.mpr hAfter⟩

/-- The elements of a path have one order only. -/
theorem eq_reverse (h : path.IsChain leads) (hAcyclic : ∀ a, ¬ TransGen leads a a) {list : List α}
    (hList : TargetsFirst leads {a | a ∈ path} list) : list = path.reverse := by
  have hReverse := reverse h hAcyclic
  have hPerm : list.Perm path.reverse :=
    (List.perm_ext_iff_of_nodup hList.nodup hReverse.nodup).mpr fun a =>
      (hList.mem_iff a).trans (hReverse.mem_iff a).symm
  have hComparable : path.Pairwise fun a b => ReflTransGen leads a b ∨ ReflTransGen leads b a :=
    (pairwise_path h).imp fun hThere => Or.inl hThere.to_reflTransGen
  refine hPerm.eq_of_pairwise (fun a b hA hB hNotThere hNotBack => ?_) hList.after hReverse.after
  have hBoth : Std.Symm fun a b => ReflTransGen leads a b ∨ ReflTransGen leads b a := ⟨fun _ _ => Or.symm⟩
  by_contra hDistinct
  rcases hComparable.forall ((hList.mem_iff a).mp hA) (List.mem_reverse.mp hB) hDistinct with hThere | hBack
  · exact hNotThere hThere
  · exact hNotBack hBack

end TargetsFirst

end Library
