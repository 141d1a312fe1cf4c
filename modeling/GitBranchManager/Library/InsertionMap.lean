import Mathlib.Data.List.Basic
import Mathlib.Data.List.Induction
import Mathlib.Data.List.Nodup

/-! # Maps that list their entries in insertion order

Putting a key that is present keeps its place; a new key goes to the end.
-/

namespace Library

theorem nodup_eraseDups {α : Type} [BEq α] [LawfulBEq α] (l : List α) : l.eraseDups.Nodup := by
  induction hLength : l.length using Nat.strongRecOn generalizing l with
  | ind n ih =>
    cases l with
    | nil => exact List.nodup_nil
    | cons a rest =>
      have hShorter : (rest.filter fun b => !b == a).length < n := by
        rw [← hLength, List.length_cons]
        exact Nat.lt_succ_of_le (List.length_filter_le _ _)
      rw [List.eraseDups_cons, List.nodup_cons]
      refine ⟨fun hMem => ?_, ih _ hShorter _ rfl⟩
      have hOther := (List.mem_filter.mp (List.mem_eraseDups.mp hMem)).2
      rw [beq_self_eq_true] at hOther
      cases hOther

theorem eraseDups_concat {α : Type*} [BEq α] [LawfulBEq α] (l : List α) (a : α) :
    (l ++ [a]).eraseDups = if l.contains a then l.eraseDups else l.eraseDups ++ [a] := by
  rw [List.eraseDups_append, List.cons_removeAll, List.nil_removeAll]
  cases hMem : l.contains a with
  | true => exact List.append_nil _
  | false => rfl

structure InsertionMap (κ ν : Type) where
  entries : List (κ × ν)
  nodup : (entries.map Prod.fst).Nodup

namespace InsertionMap

variable {κ ν : Type}

def empty : InsertionMap κ ν := ⟨[], List.nodup_nil⟩

def keepLast (bound : Nat) (m : InsertionMap κ ν) : InsertionMap κ ν :=
  ⟨m.entries.drop (m.entries.length - bound), m.nodup.sublist ((List.drop_sublist _ _).map _)⟩

def filter (keep : κ → ν → Bool) (m : InsertionMap κ ν) : InsertionMap κ ν :=
  ⟨m.entries.filter fun entry => keep entry.1 entry.2, m.nodup.sublist (List.filter_sublist.map _)⟩

theorem entries_keepLast (bound : Nat) (m : InsertionMap κ ν) :
    (m.keepLast bound).entries = m.entries.drop (m.entries.length - bound) := rfl

variable [DecidableEq κ]

def get? (m : InsertionMap κ ν) (key : κ) : Option ν :=
  (m.entries.find? fun entry => entry.1 = key).map Prod.snd

def remove (m : InsertionMap κ ν) (key : κ) : InsertionMap κ ν :=
  m.filter fun k _ => k ≠ key

theorem get?_eq_some {m : InsertionMap κ ν} {key : κ} {value : ν} :
    m.get? key = some value ↔ (key, value) ∈ m.entries := by
  constructor
  · intro h
    obtain ⟨⟨k, v⟩, hFind, rfl⟩ := Option.map_eq_some_iff.mp h
    obtain rfl : k = key := by simpa using List.find?_some hFind
    exact List.mem_of_find?_eq_some hFind
  · intro h
    cases hFind : m.entries.find? fun entry => entry.1 = key with
    | none => simpa using List.find?_eq_none.mp hFind _ h
    | some entry =>
      have hKey : entry.1 = key := by simpa using List.find?_some hFind
      have hEq := List.inj_on_of_nodup_map m.nodup (List.mem_of_find?_eq_some hFind) h hKey
      rw [get?, hFind, hEq, Option.map_some]

theorem get?_eq_none {m : InsertionMap κ ν} {key : κ} :
    m.get? key = none ↔ key ∉ m.entries.map Prod.fst := by
  rw [get?, Option.map_eq_none_iff, List.find?_eq_none, List.mem_map]
  constructor
  · rintro h ⟨entry, hMem, rfl⟩
    simpa using h entry hMem
  · intro h entry hMem hKey
    exact h ⟨entry, hMem, of_decide_eq_true hKey⟩

/-- The entry of a key is set where it stands, or appended. -/
def put (m : InsertionMap κ ν) (key : κ) (value : ν) : InsertionMap κ ν :=
  if h : key ∈ m.entries.map Prod.fst then
    ⟨m.entries.map fun entry => if entry.1 = key then (key, value) else entry, by
      have hKeys : (m.entries.map fun entry => if entry.1 = key then (key, value) else entry).map
          Prod.fst = m.entries.map Prod.fst := by
        rw [List.map_map]
        refine List.map_congr_left fun entry _ => ?_
        by_cases he : entry.1 = key <;> simp [he]
      exact hKeys ▸ m.nodup⟩
  else
    ⟨m.entries ++ [(key, value)], by
      rw [List.map_append, List.nodup_append]
      refine ⟨m.nodup, List.nodup_singleton _, ?_⟩
      rintro k hk k' hMem rfl
      have hKey : k = key := by simpa using hMem
      exact h (hKey ▸ hk)⟩

@[simp] theorem get?_empty (key : κ) : (empty : InsertionMap κ ν).get? key = none := rfl

theorem get?_put (m : InsertionMap κ ν) (key : κ) (value : ν) (other : κ) :
    (m.put key value).get? other = if other = key then some value else m.get? other := by
  apply Option.ext
  intro v
  rw [get?_eq_some, put]
  split
  next hKey =>
    obtain ⟨entry, hEntry, hFst⟩ := List.mem_map.mp hKey
    simp only [List.mem_map]
    by_cases he : other = key
    · subst he
      rw [if_pos rfl]
      constructor
      · rintro ⟨e, -, h⟩
        by_cases hk : e.1 = other
        · rw [if_pos hk, Prod.mk.injEq] at h
          rw [h.2]
        · rw [if_neg hk] at h
          exact absurd (by rw [h]) hk
      · intro h
        exact ⟨entry, hEntry, by rw [if_pos hFst, Option.some.inj h]⟩
    · rw [if_neg he, get?_eq_some]
      constructor
      · rintro ⟨e, hMem, h⟩
        by_cases hk : e.1 = key
        · rw [if_pos hk, Prod.mk.injEq] at h
          exact absurd h.1.symm he
        · rw [if_neg hk] at h
          exact h ▸ hMem
      · intro h
        exact ⟨_, h, by rw [if_neg he]⟩
  next hKey =>
    simp only [List.mem_append, List.mem_singleton, Prod.mk.injEq]
    by_cases he : other = key
    · subst he
      rw [if_pos rfl]
      constructor
      · rintro (hMem | ⟨-, rfl⟩)
        · exact absurd (List.mem_map_of_mem hMem) hKey
        · rfl
      · intro h
        exact Or.inr ⟨rfl, (Option.some.inj h).symm⟩
    · rw [if_neg he, get?_eq_some]
      simp [he]

/-- A table of where each key stands: of distinct keys it is the inverse of the list. -/
theorem get?_foldl_put_zipIdx {keys : List κ} (hNodup : keys.Nodup) {key : κ} {r : Nat} :
    (keys.zipIdx.foldl (fun index row => index.put row.1 row.2) (.empty : InsertionMap κ Nat)).get? key = some r ↔
      keys[r]? = some key := by
  induction keys using List.reverseRecOn with
  | nil => exact ⟨nofun, nofun⟩
  | append_singleton keys last ih =>
    obtain ⟨hKeys, -, hApart⟩ := List.nodup_append.mp hNodup
    rw [List.zipIdx_append, List.foldl_append, List.zipIdx_singleton, List.foldl_cons, List.foldl_nil, get?_put,
      Nat.zero_add]
    constructor
    · intro h
      split at h
      next hKey =>
        obtain rfl := Option.some.inj h
        rw [hKey]
        exact List.getElem?_concat_length
      next =>
        have hAt := (ih hKeys).mp h
        rw [List.getElem?_append_left (List.getElem?_eq_some_iff.mp hAt).1]
        exact hAt
    · intro h
      obtain hLess | hLast := Nat.lt_or_ge r keys.length
      · rw [List.getElem?_append_left hLess] at h
        rw [if_neg (hApart key (List.mem_of_getElem? h) last List.mem_cons_self)]
        exact (ih hKeys).mpr h
      · rw [List.getElem?_append_right hLast, List.getElem?_singleton] at h
        split at h
        next hZero =>
          rw [if_pos (Option.some.inj h).symm]
          exact congrArg some (by omega)
        next => exact nomatch h

theorem get?_filter (keep : κ → ν → Bool) (m : InsertionMap κ ν) (key : κ) :
    (m.filter keep).get? key = (m.get? key).filter (keep key) := by
  apply Option.ext
  intro v
  rw [get?_eq_some, Option.filter_eq_some_iff, get?_eq_some, filter, List.mem_filter]

theorem get?_remove (m : InsertionMap κ ν) (key other : κ) :
    (m.remove key).get? other = if other = key then none else m.get? other := by
  rw [remove, get?_filter]
  by_cases he : other = key
  · rw [if_pos he]
    cases m.get? other <;> simp [he]
  · rw [if_neg he]
    cases m.get? other <;> simp [he]

theorem entries_put {m : InsertionMap κ ν} {key : κ} (h : m.get? key = none) (value : ν) :
    (m.put key value).entries = m.entries ++ [(key, value)] := by
  rw [put, dif_neg (get?_eq_none.mp h)]

theorem get?_keepLast_put {m : InsertionMap κ ν} {key : κ} (h : m.get? key = none) (value : ν)
    {bound : Nat} (hBound : 0 < bound) : ((m.put key value).keepLast bound).get? key = some value := by
  rw [get?_eq_some, entries_keepLast, entries_put h, List.length_append, List.length_singleton,
    List.drop_append_of_le_length (by omega)]
  exact List.mem_append_right _ (List.mem_singleton_self _)

end InsertionMap

end Library
