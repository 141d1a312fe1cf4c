import Mathlib.Data.UInt
import GitBranchManager.Base.Bytes
import Mathlib.Data.List.Infix
import Mathlib.Data.List.Lex
import Mathlib.Data.Prod.Lex
import Mathlib.Order.Nat

/-! # Packed git object ids -/

namespace GitBranchManager

/-- The significant bytes of an object id: none for the null id, 20 for SHA-1 and 32 for
SHA-256. -/
structure ObjectId where
  bytes : List UInt8 := []
  length_mem : bytes.length ∈ [0, 20, 32] := by decide
  deriving DecidableEq

namespace ObjectId

def null : ObjectId := {}

instance : Inhabited ObjectId := ⟨null⟩

def isNull (id : ObjectId) : Bool := id.bytes.length == 0

def hash (id : ObjectId) : UInt64 :=
  id.bytes.foldl (fun h b => (h ^^^ b.toUInt64) * 0x100000001b3) 0xcbf29ce484222325

def replicate (b : UInt8) : ObjectId where
  bytes := List.replicate 20 b
  length_mem := by simp

end ObjectId

end GitBranchManager

/-! ## Object ids in hexadecimal -/

namespace GitBranchManager

namespace ObjectId

def hexValue (c : UInt8) : Option UInt8 :=
  if 48 ≤ c ∧ c ≤ 57 then some (c - 48)
  else if 97 ≤ c ∧ c ≤ 102 then some (c - 97 + 10)
  else if 65 ≤ c ∧ c ≤ 70 then some (c - 65 + 10)
  else none

def parsePairs : Bytes → Option (List UInt8)
  | hi :: lo :: rest => do
    let high ← hexValue hi
    let low ← hexValue lo
    let bytes ← parsePairs rest
    some ((high <<< 4 ||| low) :: bytes)
  | [] => some []
  | [_] => none

/-- Anything but 40 or 64 digits is the null id. -/
def fromHex (hex : Bytes) : ObjectId :=
  if hex.length ≠ 40 ∧ hex.length ≠ 64 then null
  else match parsePairs hex with
    | none => null
    | some bytes => if h : bytes.length ∈ [0, 20, 32] then ⟨bytes, h⟩ else null

def kDigits : Bytes := ascii "0123456789abcdef"

def hexPair (b : UInt8) : Bytes :=
  [kDigits.getD (b >>> 4).toNat 0, kDigits.getD (b &&& 0x0F).toNat 0]

def hex (id : ObjectId) : Bytes := id.bytes.flatMap hexPair

theorem hexPair_spec (b : UInt8) :
    (∀ c ∈ hexPair b, c ∈ kDigits) ∧
    ∃ high low, hexPair b = [high, low] ∧
      (hexValue high).bind (fun h => (hexValue low).map fun l => h <<< 4 ||| l) = some b := by
  have hDigits : ∀ n : Fin 256, (hexPair (UInt8.ofFin n)).all (kDigits.contains ·) = true := by decide +kernel
  have hValue : ∀ n : Fin 256, (hexValue ((hexPair (UInt8.ofFin n)).getD 0 0)).bind (fun h =>
      (hexValue ((hexPair (UInt8.ofFin n)).getD 1 0)).map fun l => h <<< 4 ||| l) = some (UInt8.ofFin n) := by
    decide +kernel
  refine ⟨fun c hMem => ?_, _, _, rfl, hValue b.toFin⟩
  exact List.contains_iff_mem.mp (List.all_eq_true.mp (hDigits b.toFin) c hMem)

theorem mem_kDigits_of_mem_hex {id : ObjectId} {c : UInt8} (h : c ∈ hex id) : c ∈ kDigits := by
  obtain ⟨b, -, hc⟩ := List.mem_flatMap.mp h
  exact (hexPair_spec b).1 c hc

theorem length_hex (id : ObjectId) : (hex id).length = 2 * id.bytes.length := by
  rw [hex]
  induction id.bytes with
  | nil => rfl
  | cons b bytes ih =>
    rw [List.flatMap_cons, List.length_append, ih, List.length_cons, Nat.mul_succ, Nat.add_comm]
    rfl

theorem parsePairs_hex (bytes : List UInt8) : parsePairs (bytes.flatMap hexPair) = some bytes := by
  induction bytes with
  | nil => rfl
  | cons b bytes ih =>
    obtain ⟨-, high, low, hPair, hValue⟩ := hexPair_spec b
    obtain ⟨h, hHigh, hLow⟩ := Option.bind_eq_some_iff.mp hValue
    obtain ⟨l, hLow, hByte⟩ := Option.map_eq_some_iff.mp hLow
    rw [List.flatMap_cons, hPair]
    simp only [List.cons_append, List.nil_append, parsePairs, hHigh, hLow, ih, ← hByte]
    rfl

theorem fromHex_hex {id : ObjectId} (h : id.isNull = false) : fromHex (hex id) = id := by
  obtain ⟨bytes, hLength⟩ := id
  have hSome : bytes.length ≠ 0 := by simpa [isNull] using h
  have hCases : bytes.length = 20 ∨ bytes.length = 32 := by
    simp only [List.mem_cons, List.not_mem_nil, or_false] at hLength
    omega
  have hDigits : ¬ ((hex ⟨bytes, hLength⟩).length ≠ 40 ∧ (hex ⟨bytes, hLength⟩).length ≠ 64) := by
    rw [length_hex]
    change ¬ (2 * bytes.length ≠ 40 ∧ 2 * bytes.length ≠ 64)
    omega
  rw [fromHex, if_neg hDigits, hex, parsePairs_hex]
  exact dif_pos hLength

end ObjectId

end GitBranchManager

/-! ## The order of object ids -/

namespace GitBranchManager

namespace ObjectId

/-- `memcmp` of two runs of the same length: the first bytes that differ decide. -/
def bytesLess : List UInt8 → List UInt8 → Bool
  | a :: as, b :: bs => if a = b then bytesLess as bs else a < b
  | _, _ => false

/-- `operator<`: shorter hashes come first. -/
def less (a b : ObjectId) : Bool :=
  if a.bytes.length ≠ b.bytes.length then a.bytes.length < b.bytes.length else bytesLess a.bytes b.bytes

/-- What the comparison goes by. -/
def sortKey (id : ObjectId) : Nat ×ₗ List Nat := toLex (id.bytes.length, id.bytes.map UInt8.toNat)

theorem bytesLess_iff {as bs : List UInt8} (h : as.length = bs.length) :
    bytesLess as bs = true ↔ as.map UInt8.toNat < bs.map UInt8.toNat := by
  induction as generalizing bs with
  | nil =>
    obtain rfl := List.length_eq_zero_iff.mp h.symm
    simp [bytesLess]
  | cons a as ih =>
    cases bs with
    | nil => cases h
    | cons b bs =>
      rw [bytesLess, List.map_cons, List.map_cons, List.cons_lt_cons_iff, UInt8.toNat_inj]
      split
      next hEq =>
        subst hEq
        rw [ih (Nat.succ.inj h)]
        simp
      next hNe =>
        rw [decide_eq_true_eq, UInt8.lt_iff_toNat_lt]
        simp [hNe]

theorem less_iff (a b : ObjectId) : a.less b = true ↔ a.sortKey < b.sortKey := by
  rw [sortKey, sortKey, Prod.Lex.toLex_lt_toLex, less]
  split
  next hLength =>
    rw [decide_eq_true_eq]
    exact ⟨Or.inl, fun h => h.resolve_right fun hSame => hLength hSame.1⟩
  next hLength =>
    have hSame : a.bytes.length = b.bytes.length := not_not.mp hLength
    rw [bytesLess_iff hSame]
    exact ⟨fun h => Or.inr ⟨hSame, h⟩, fun h => (h.resolve_left hSame.not_lt).2⟩

/-- Ids of which neither comes first are the same. -/
theorem sortKey_inj {a b : ObjectId} : a.sortKey = b.sortKey ↔ a = b := by
  constructor
  · intro h
    obtain ⟨-, hBytes⟩ := Prod.mk.inj (toLex.injective h)
    have hInjective : Function.Injective UInt8.toNat := fun _ _ => UInt8.toNat_inj.mp
    cases a
    cases b
    cases List.map_injective_iff.mpr hInjective hBytes
    rfl
  · rintro rfl
    rfl

end ObjectId

end GitBranchManager
