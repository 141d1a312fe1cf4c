import GitBranchManager.Library.Recent

/-! # The cache of parsed diffs

A map from keys to entries, a list of the keys in the order of their last use, and the bytes used. An
entry knows its node of the list.
-/

namespace GitBranchManager

open Library (RecencyList.Use RecencyList.find)
open Library.RecencyList (without touch total fit Follows)

structure LruEntry (Value : Type*) where
  value : Value
  bytes : UInt64 := 0
  position : Nat
  deriving DecidableEq, Repr

/-- `size_t` has 64 bits. An iterator of the list stays at its node whatever is moved or erased around it:
the nodes of `order` are numbered, from `nextNode` on. -/
structure LruByBytes (Key Value : Type*) where
  budget : UInt64
  used : UInt64 := 0
  order : List (Nat × Key) := []
  map : List (Key × LruEntry Value) := []
  nextNode : Nat := 0

namespace LruByBytes

variable {Key Value : Type*} [DecidableEq Key]

def get (cache : LruByBytes Key Value) (key : Key) : Option Value × LruByBytes Key Value :=
  match RecencyList.find key cache.map with
  | none => (none, cache)
  | some (_, entry) =>
    (some entry.value, { cache with order := touch entry.position cache.order })

/-- The loop that evicts. The oldest nodes come first in its list, which is the order from the back. -/
def evict : List (Nat × Key) → LruByBytes Key Value → LruByBytes Key Value
  | [], cache => cache
  | (_, oldest) :: newer, cache =>
    if cache.used ≤ cache.budget then cache
    else
      let cache := match RecencyList.find oldest cache.map with
        | some (_, victim) =>
          { cache with used := cache.used - victim.bytes, map := without oldest cache.map }
        | none => cache
      evict newer { cache with order := cache.order.dropLast }

/-- What the key held before goes first, whatever its size. -/
def dropExisting (cache : LruByBytes Key Value) (key : Key) : LruByBytes Key Value :=
  match RecencyList.find key cache.map with
  | some (_, existing) =>
    { cache with
      used := cache.used - existing.bytes
      order := without existing.position cache.order
      map := without key cache.map }
  | none => cache

def pushFront (cache : LruByBytes Key Value) (key : Key) (value : Value) (bytes : UInt64) : LruByBytes Key Value :=
  { cache with
    order := (cache.nextNode, key) :: cache.order
    map := (key, { value, bytes, position := cache.nextNode }) :: cache.map
    used := cache.used + bytes
    nextNode := cache.nextNode + 1 }

def put (cache : LruByBytes Key Value) (key : Key) (value : Value) (bytes : UInt64) : LruByBytes Key Value :=
  let cache := (cache.dropExisting key).pushFront key value bytes
  evict cache.order.reverse cache

def clear (cache : LruByBytes Key Value) : LruByBytes Key Value := { cache with map := [], order := [], used := 0 }

def usedBytes (cache : LruByBytes Key Value) : UInt64 := cache.used

/-- The values with their sizes are what a use carries. -/
def step (cache : LruByBytes Key Value) : RecencyList.Use Key (Value × UInt64) → LruByBytes Key Value
  | .get key => (cache.get key).2
  | .put key (value, bytes) => cache.put key value bytes
  | .clear => cache.clear

def run (budget : UInt64) (uses : List (RecencyList.Use Key (Value × UInt64))) : LruByBytes Key Value :=
  uses.foldl step { budget }

/-! ## What the cache holds -/

def weight (entry : LruEntry Value) : Nat := entry.bytes.toNat

def node (item : Key × LruEntry Value) : Nat × Key := (item.2.position, item.1)

/-- The entries in the order of their keys, each at its own node. -/
structure Holds (cache : LruByBytes Key Value) (held : List (Key × LruEntry Value)) : Prop where
  order : cache.order = held.map node
  map : cache.map.Perm held
  keys : (held.map Prod.fst).Nodup
  nodes : ((held.map node).map Prod.fst).Nodup
  fresh : ∀ item ∈ held, item.2.position < cache.nextNode
  used : cache.used.toNat = total weight held

namespace Holds

variable {cache : LruByBytes Key Value} {held : List (Key × LruEntry Value)} {key : Key}

theorem find_map (h : Holds cache held) (key : Key) : RecencyList.find key cache.map = RecencyList.find key held := by
  have hKeys : (cache.map.map Prod.fst).Nodup := (h.map.map Prod.fst).nodup_iff.mpr h.keys
  ext item
  rw [Library.RecencyList.find_eq_some_iff hKeys, Library.RecencyList.find_eq_some_iff h.keys, h.map.mem_iff]

omit [DecidableEq Key] in
theorem find_node (h : Holds cache held) {item : Key × LruEntry Value} (hMem : item ∈ held) :
    RecencyList.find item.2.position (held.map node) = some (node item) :=
  (Library.RecencyList.find_eq_some_iff h.nodes).mpr ⟨List.mem_map_of_mem hMem, rfl⟩

/-- The node of an entry is that of its key. -/
theorem without_node (h : Holds cache held) {item : Key × LruEntry Value} (hMem : item ∈ held) :
    without item.2.position (held.map node) = (without item.1 held).map node := by
  rw [without, without, List.filter_map]
  congr 1
  refine List.filter_congr fun other hOther => ?_
  rw [Function.comp_apply, decide_eq_decide]
  apply not_congr
  constructor
  · intro hNode
    have hNodes := h.nodes
    rw [List.map_map] at hNodes
    exact congrArg Prod.fst (List.inj_on_of_nodup_map hNodes hOther hMem hNode)
  · intro hKey
    rw [List.inj_on_of_nodup_map h.keys hOther hMem hKey]
    rfl

theorem get (h : Holds cache held) (key : Key) :
    Holds (cache.get key).2 (touch key held) ∧
      (cache.get key).1 = (RecencyList.find key held).map fun item => item.2.value := by
  rw [LruByBytes.get, h.find_map, touch]
  cases hFind : RecencyList.find key held with
  | none => exact ⟨h, rfl⟩
  | some item =>
    obtain ⟨hMem, rfl⟩ := (Library.RecencyList.find_eq_some_iff h.keys).mp hFind
    have hPerm := Library.RecencyList.cons_without_perm h.keys hFind
    refine ⟨⟨?_, h.map.trans hPerm.symm, ?_, ?_, ?_, ?_⟩, rfl⟩
    · dsimp only
      rw [h.order, touch, h.find_node hMem, h.without_node hMem]
      rfl
    · exact (hPerm.map _).nodup_iff.mpr h.keys
    · exact ((hPerm.map _).map _).nodup_iff.mpr h.nodes
    · exact fun other hOther => h.fresh other (hPerm.mem_iff.mp hOther)
    · exact h.used.trans (Library.RecencyList.total_perm hPerm.symm)

/-- An entry leaves the map, the list and the bytes. -/
theorem remove (h : Holds cache held) {item : Key × LruEntry Value} (hFind : RecencyList.find key held = some item)
    {order : List (Nat × Key)} (hOrder : order = (without key held).map node) :
    Holds { cache with used := cache.used - item.2.bytes, order, map := without key cache.map }
      (without key held) := by
  have hPart : (without key held).Sublist held := List.filter_sublist
  have hTotal : total weight held = item.2.bytes.toNat + total weight (without key held) :=
    (Library.RecencyList.total_perm (Library.RecencyList.cons_without_perm h.keys hFind)).symm
  refine ⟨hOrder, h.map.filter _, h.keys.sublist (hPart.map _), h.nodes.sublist ((hPart.map _).map _),
    fun other hOther => h.fresh other (hPart.subset hOther), ?_⟩
  have hUsed := h.used
  dsimp only
  rw [UInt64.toNat_sub_of_le _ _ (UInt64.le_iff_toNat_le.mpr (by omega))]
  omega

theorem dropExisting (h : Holds cache held) (key : Key) : Holds (cache.dropExisting key) (without key held) := by
  rw [LruByBytes.dropExisting, h.find_map]
  cases hFind : RecencyList.find key held with
  | none =>
    rw [Library.RecencyList.without_eq_self hFind]
    exact h
  | some item =>
    obtain ⟨hMem, rfl⟩ := (Library.RecencyList.find_eq_some_iff h.keys).mp hFind
    refine h.remove hFind ?_
    rw [h.order, h.without_node hMem]

theorem evict (h : Holds cache held) :
    Holds (evict cache.order.reverse cache) (fit weight cache.budget.toNat held) := by
  induction held using List.reverseRecOn generalizing cache with
  | nil =>
    rw [h.order]
    exact h
  | append_singleton held last ih =>
    have hOrder : cache.order.reverse = node last :: (held.map node).reverse := by
      rw [h.order, List.map_append, List.reverse_append]
      rfl
    rw [hOrder, LruByBytes.evict]
    split
    next hRoom =>
      rw [Library.RecencyList.fit_eq_self (h.used ▸ UInt64.le_iff_toNat_le.mp hRoom)]
      exact h
    next hOver =>
      have hTotal : cache.budget.toNat < total weight (held ++ [last]) := by
        rw [← h.used]
        exact Nat.lt_of_not_le fun hRoom => hOver (UInt64.le_iff_toNat_le.mpr hRoom)
      have hMem : last ∈ held ++ [last] := List.mem_append_right _ List.mem_cons_self
      have hFind : RecencyList.find (node last).2 (held ++ [last]) = some last :=
        (Library.RecencyList.find_eq_some_iff h.keys).mpr ⟨hMem, rfl⟩
      have hRest : without (node last).2 (held ++ [last]) = held := Library.RecencyList.without_concat h.keys
      have hDropped : cache.order.dropLast = held.map node := by
        rw [h.order, List.map_append]
        exact List.dropLast_concat
      have hNext := h.remove hFind (hDropped.trans (by rw [hRest]))
      rw [hRest] at hNext
      rw [Library.RecencyList.fit_concat hTotal, h.find_map, hFind]
      dsimp only
      have hAll := ih hNext
      dsimp only at hAll
      rw [hDropped] at hAll ⊢
      exact hAll

omit [DecidableEq Key] in
theorem pushFront (h : Holds cache held) {key : Key} (hKey : key ∉ held.map Prod.fst) (value : Value)
    {bytes : UInt64} (hFits : total weight held + bytes.toNat < 2 ^ 64) :
    Holds (cache.pushFront key value bytes) ((key, { value, bytes, position := cache.nextNode }) :: held) := by
  constructor
  case order => exact congrArg _ h.order
  case map => exact h.map.cons _
  case keys => exact List.nodup_cons.mpr ⟨hKey, h.keys⟩
  case nodes =>
    refine List.nodup_cons.mpr ⟨fun hMem => ?_, h.nodes⟩
    rw [List.map_map] at hMem
    obtain ⟨item, hItem, hNode⟩ := List.mem_map.mp hMem
    exact Nat.ne_of_lt (h.fresh item hItem) hNode
  case fresh =>
    refine List.forall_mem_cons.mpr ⟨Nat.lt_succ_self _, fun item hItem => ?_⟩
    exact Nat.lt_succ_of_lt (h.fresh item hItem)
  case used =>
    have hUsed := h.used
    rw [LruByBytes.pushFront, Library.RecencyList.total_cons, weight]
    dsimp only
    rw [UInt64.toNat_add]
    omega

theorem put (h : Holds cache held) (key : Key) (value : Value) {bytes : UInt64}
    (hFits : total weight (without key held) + bytes.toNat < 2 ^ 64) :
    Holds (cache.put key value bytes) (fit weight cache.budget.toNat
      ((key, { value, bytes, position := cache.nextNode }) :: without key held)) := by
  have hSame : (cache.dropExisting key).budget = cache.budget ∧
      (cache.dropExisting key).nextNode = cache.nextNode := by
    rw [LruByBytes.dropExisting]
    split <;> exact ⟨rfl, rfl⟩
  have hKey : key ∉ (without key held).map Prod.fst := by
    rw [Library.RecencyList.map_fst_without]
    exact fun hMem => of_decide_eq_true (List.mem_filter.mp hMem).2 rfl
  have hPushed := ((h.dropExisting key).pushFront hKey value hFits).evict
  rw [hSame.2] at hPushed
  rw [← hSame.1]
  exact hPushed

end Holds

/-! ## Runs -/

/-- What a put says of a key. -/
def contents (entry : LruEntry Value) : Value × UInt64 := (entry.value, entry.bytes)

/-- The bytes in use after a put can be counted. Sizes of what is in memory always can be. -/
def Counts (cache : LruByBytes Key Value) : RecencyList.Use Key (Value × UInt64) → Prop
  | .put key (_, bytes) => total weight (without key cache.map) + bytes.toNat < 2 ^ 64
  | _ => True

def Counted (cache : LruByBytes Key Value) : List (RecencyList.Use Key (Value × UInt64)) → Prop
  | [] => True
  | use :: uses => cache.Counts use ∧ (cache.step use).Counted uses

instance (cache : LruByBytes Key Value) (use : RecencyList.Use Key (Value × UInt64)) : Decidable (cache.Counts use) :=
  match use with
  | .get _ => inferInstanceAs (Decidable True)
  | .put key (_, bytes) => inferInstanceAs (Decidable (total weight (without key cache.map) + bytes.toNat < 2 ^ 64))
  | .clear => inferInstanceAs (Decidable True)

instance decidableCounted (cache : LruByBytes Key Value) :
    (uses : List (RecencyList.Use Key (Value × UInt64))) → Decidable (cache.Counted uses)
  | [] => inferInstanceAs (Decidable True)
  | use :: uses =>
    have := decidableCounted (cache.step use) uses
    inferInstanceAs (Decidable (cache.Counts use ∧ (cache.step use).Counted uses))

theorem budget_evict (nodes : List (Nat × Key)) (cache : LruByBytes Key Value) :
    (evict nodes cache).budget = cache.budget := by
  induction nodes generalizing cache with
  | nil => rfl
  | cons oldest newer ih =>
    rw [evict]
    split
    · rfl
    · rw [ih]
      dsimp only
      split <;> rfl

theorem budget_step (cache : LruByBytes Key Value) (use : RecencyList.Use Key (Value × UInt64)) :
    (cache.step use).budget = cache.budget := by
  cases use with
  | get key =>
    rw [step, get]
    split <;> rfl
  | put key item =>
    rw [step, put, budget_evict, pushFront, dropExisting]
    dsimp only
    split <;> rfl
  | clear => rfl

/-- A step of the cache is a step of the recency list. -/
theorem Holds.step {cache : LruByBytes Key Value} {held : List (Key × LruEntry Value)} (h : Holds cache held)
    {use : RecencyList.Use Key (Value × UInt64)} (hCounts : cache.Counts use) :
    ∃ held', Holds (cache.step use) held' ∧ held'.map (Prod.map id contents) =
      Library.RecencyList.apply (fun item => item.2.toNat) cache.budget.toNat
        (held.map (Prod.map id contents)) use := by
  cases use with
  | get key => exact ⟨_, (h.get key).1, (Library.RecencyList.touch_map contents key held).symm⟩
  | put key item =>
    obtain ⟨value, bytes⟩ := item
    have hOthers : (without key cache.map).Perm (without key held) := h.map.filter _
    have hFits : total weight (without key held) + bytes.toNat < 2 ^ 64 := by
      rw [← Library.RecencyList.total_perm hOthers]
      exact hCounts
    refine ⟨_, h.put key value hFits, ?_⟩
    rw [Library.RecencyList.apply, Library.RecencyList.without_map]
    symm
    exact Library.RecencyList.fit_map contents cache.budget.toNat
      ((key, { value, bytes, position := cache.nextNode }) :: without key held)
  | clear => exact ⟨[], ⟨rfl, .nil, List.nodup_nil, List.nodup_nil, List.forall_mem_nil _, rfl⟩, rfl⟩

omit [DecidableEq Key] in
theorem total_contents (held : List (Key × LruEntry Value)) :
    total (fun item => item.2.toNat) (held.map (Prod.map id contents)) = total weight held := by
  rw [total, List.map_map]
  rfl

theorem holds_foldl {cache : LruByBytes Key Value} {held : List (Key × LruEntry Value)}
    {done uses : List (RecencyList.Use Key (Value × UInt64))} (h : Holds cache held)
    (hDone : Follows done (held.map (Prod.map id contents))) (hRoom : total weight held ≤ cache.budget.toNat)
    (hCounted : cache.Counted uses) :
    ∃ held', Holds (uses.foldl step cache) held' ∧ Follows (done ++ uses) (held'.map (Prod.map id contents)) ∧
      total weight held' ≤ (uses.foldl step cache).budget.toNat := by
  induction uses generalizing cache held done with
  | nil => exact ⟨held, h, by rwa [List.append_nil], hRoom⟩
  | cons use uses ih =>
    obtain ⟨held', hHolds, hSame⟩ := h.step hCounted.1
    have hStep : Follows (done ++ [use]) (held'.map (Prod.map id contents)) := hSame ▸ hDone.apply use
    have hNext := ih hHolds hStep ?_ hCounted.2
    · rwa [List.append_assoc] at hNext
    · rw [budget_step, ← total_contents held', hSame]
      exact Library.RecencyList.total_apply_le hDone.nodup (by rwa [total_contents]) use

/-! ## The books -/

/-- The size that a key has once an entry is put. -/
def sizeWith (cache : LruByBytes Key Value) (key : Key) (bytes : UInt64) (key' : Key) : Nat :=
  if key' = key then bytes.toNat else ((RecencyList.find key' cache.map).map fun item => weight item.2).getD 0

/-- A put leaves the most recently used keys, and with one more the budget would be passed. -/
def EvictsOldest (cache : LruByBytes Key Value) (key : Key) (value : Value) (bytes : UInt64) : Prop :=
  let before := key :: (cache.order.map Prod.snd).filter (· ≠ key)
  let after := (cache.put key value bytes).order.map Prod.snd
  after <+: before ∧ ∀ n, after.length < n → n ≤ before.length →
    cache.budget.toNat < ((before.take n).map (cache.sizeWith key bytes)).sum

structure Books (uses : List (RecencyList.Use Key (Value × UInt64))) (cache : LruByBytes Key Value) : Prop where
  used : cache.usedBytes.toNat = total weight cache.map
  room : cache.usedBytes ≤ cache.budget
  keys : (cache.order.map Prod.snd).Perm (cache.map.map Prod.fst)
  once : (cache.order.map Prod.snd).Nodup
  recent : (cache.order.map Prod.snd).Pairwise fun key key' =>
    RecencyList.Use.since uses key < RecencyList.Use.since uses key'
  sizes : ∀ item ∈ cache.map, RecencyList.Use.lastPut uses item.1 = some (contents item.2)
  got : ∀ key, (cache.get key).1 = if key ∈ cache.map.map Prod.fst
    then (RecencyList.Use.lastPut uses key).map Prod.fst else none
  evicted : ∀ key value bytes, cache.Counts (.put key (value, bytes)) → cache.EvictsOldest key value bytes

theorem Holds.evictsOldest {cache : LruByBytes Key Value} {held : List (Key × LruEntry Value)}
    (h : Holds cache held) (key : Key) (value : Value) {bytes : UInt64}
    (hCounts : cache.Counts (.put key (value, bytes))) : cache.EvictsOldest key value bytes := by
  have hOthers : (without key cache.map).Perm (without key held) := h.map.filter _
  have hFits : total weight (without key held) + bytes.toNat < 2 ^ 64 := by
    rw [← Library.RecencyList.total_perm hOthers]
    exact hCounts
  have hPut := h.put key value hFits
  generalize hPushed : (key, ({ value, bytes, position := cache.nextNode } : LruEntry Value)) :: without key held =
    pushed at hPut
  have hKeys : ∀ items : List (Key × LruEntry Value), (items.map node).map Prod.snd = items.map Prod.fst := by
    intro items
    rw [List.map_map]
    rfl
  have hBefore : key :: (cache.order.map Prod.snd).filter (· ≠ key) = pushed.map Prod.fst := by
    rw [h.order, hKeys, ← Library.RecencyList.map_fst_without, ← hPushed]
    rfl
  have hSizes : ∀ item ∈ pushed, cache.sizeWith key bytes item.1 = weight item.2 := by
    rw [← hPushed, List.forall_mem_cons]
    refine ⟨if_pos rfl, fun item hMem => ?_⟩
    obtain ⟨hIn, hOther⟩ := Library.RecencyList.mem_without.mp hMem
    rw [sizeWith, if_neg hOther, h.find_map, (Library.RecencyList.find_eq_some_iff h.keys).mpr ⟨hIn, rfl⟩]
    rfl
  rw [EvictsOldest, hBefore, hPut.order, hKeys]
  refine ⟨(Library.RecencyList.fit_starts _ _ _).map _, fun n hMore hIn => ?_⟩
  rw [List.length_map] at hMore hIn
  have hTotal : ((pushed.take n).map (cache.sizeWith key bytes ∘ Prod.fst)).sum = total weight (pushed.take n) :=
    congrArg List.sum (List.map_congr_left fun item hMem => hSizes item (List.mem_of_mem_take hMem))
  rw [← List.map_take, List.map_map, hTotal]
  exact Library.RecencyList.lt_total_take hMore hIn

/-- Whatever is got, put and cleared, as long as the bytes can be counted. -/
theorem books_run (budget : UInt64) (uses : List (RecencyList.Use Key (Value × UInt64)))
    (hCounted : Counted { budget } uses) : Books uses (run budget uses) := by
  have hEmpty : Holds ({ budget } : LruByBytes Key Value) [] :=
    ⟨rfl, .nil, List.nodup_nil, List.nodup_nil, nofun, rfl⟩
  obtain ⟨held, hHolds, hFollows, hRoom⟩ := holds_foldl hEmpty (Follows.nil []) (Nat.zero_le _) hCounted
  rw [List.nil_append] at hFollows
  change Holds (run budget uses) held at hHolds
  change total weight held ≤ (run budget uses).budget.toNat at hRoom
  generalize run budget uses = cache at hHolds hRoom ⊢
  have hOrder : cache.order.map Prod.snd = held.map Prod.fst := by
    rw [hHolds.order, List.map_map]
    rfl
  have hContents : (held.map (Prod.map id contents)).map Prod.fst = held.map Prod.fst := by
    rw [List.map_map]
    rfl
  have hLatest : ∀ item ∈ held, RecencyList.Use.lastPut uses item.1 = some (contents item.2) :=
    fun item hMem => hFollows.latest _ (List.mem_map_of_mem hMem)
  constructor
  case used => exact hHolds.used.trans (Library.RecencyList.total_perm hHolds.map.symm)
  case room =>
    rw [← hHolds.used] at hRoom
    exact UInt64.le_iff_toNat_le.mpr hRoom
  case keys =>
    rw [hOrder]
    exact (hHolds.map.map _).symm
  case once => exact hOrder ▸ hHolds.keys
  case recent =>
    have hRecent := hFollows.recent
    rwa [hContents, ← hOrder] at hRecent
  case sizes => exact fun item hMem => hLatest item (hHolds.map.mem_iff.mp hMem)
  case got =>
    intro key
    rw [(hHolds.get key).2]
    have hIn : key ∈ cache.map.map Prod.fst ↔ key ∈ held.map Prod.fst := (hHolds.map.map _).mem_iff
    cases hFind : RecencyList.find key held with
    | none => exact (if_neg fun hMem => Library.RecencyList.find_eq_none_iff.mp hFind (hIn.mp hMem)).symm
    | some item =>
      obtain ⟨hMem, rfl⟩ := (Library.RecencyList.find_eq_some_iff hHolds.keys).mp hFind
      rw [if_pos (hIn.mpr (List.mem_map_of_mem hMem)), hLatest item hMem]
      rfl
  case evicted => exact fun key value bytes hCounts => hHolds.evictsOldest key value hCounts

/-- Three diffs where two fit. The first is read again before the third comes. -/
def viewed : List (RecencyList.Use Nat (Char × UInt64)) :=
  [.put 1 ('a', 4), .put 2 ('b', 5), .get 1, .put 3 ('c', 6)]

theorem books_run_viewed : Books viewed (run 12 viewed) := books_run 12 viewed (by decide +kernel)

/-- An entry that is as large as all memory: its size wraps the total around, and nothing is evicted. -/
def wrapping : List (RecencyList.Use Nat (Char × UInt64)) := [.put 1 ('a', 10), .put 2 ('b', 18446744073709551611)]

theorem wrapping_loses_the_books : (run 10 wrapping).usedBytes = 5 ∧ (run 10 wrapping).map.length = 2 ∧
    ¬ Books wrapping (run 10 wrapping) := by
  refine ⟨by decide +kernel, by decide +kernel, fun h => ?_⟩
  exact absurd h.used (by decide +kernel)

end LruByBytes

end GitBranchManager
