import Mathlib.Data.List.Sort
import Mathlib.Logic.Function.Basic

namespace LuaTable

open Function

/-- The values at the positive integer keys. -/
abbrev Table (α : Type) := Nat → Option α

variable {α β : Type}

/-- What the length operator may return: a key with a value whose successor has none, or zero
where the first key has none. -/
def IsBorder (t : Table α) (len : Nat) : Prop :=
  (len = 0 ∨ (t len).isSome = true) ∧ (t (len + 1)).isNone = true

/-- The keys as `pairs` may deliver them. -/
def Enumerates (t : Table α) (keys : List Nat) : Prop := keys.Nodup ∧ ∀ k, k ∈ keys ↔ (t k).isSome = true

/-- The loop of `table.insert` that moves the values from a key on up. -/
def moveUp (pos : Nat) : Nat → Table α → Table α
  | 0, t => t
  | i + 1, t => if pos < i + 1 then moveUp pos i (update t (i + 1) (t i)) else t

/-- `table.insert(t, pos, v)` where the length of the table is reported as `len`. -/
def insert (t : Table α) (len pos : Nat) (v : α) : Table α :=
  update (moveUp pos (max (len + 1) pos) t) pos (some v)

theorem moveUp_self (pos : Nat) (t : Table α) : moveUp pos pos t = t := by
  cases pos with
  | zero => rfl
  | succ i => rw [moveUp, if_neg (by omega)]

/-- Nothing moves where the key is above the reported length. -/
theorem insert_of_lt {t : Table α} {len pos : Nat} (h : len < pos) (v : α) :
    insert t len pos v = update t pos (some v) := by
  rw [insert, max_eq_right (by omega), moveUp_self]

/-- Keys that are delivered in ascending order are all keys up to a bound. -/
theorem Enumerates.ascending {t : Table α} {keys : List Nat} (h : Enumerates t keys)
    (hsorted : keys.Pairwise (· < ·)) {n : Nat} (hbound : ∀ k, (t k).isSome = true → k < n) :
    keys = (List.range n).filter fun k => (t k).isSome := by
  refine hsorted.eq_of_mem_iff (List.pairwise_lt_range.filter _) ?_
  intro k
  rw [h.2 k, List.mem_filter, List.mem_range]
  exact ⟨fun hk => ⟨hbound k hk, hk⟩, fun hk => hk.2⟩

theorem flatMap_filter {p : Nat → Bool} {f : Nat → List β} {keys : List Nat}
    (h : ∀ k, p k = false → f k = []) : (keys.filter p).flatMap f = keys.flatMap f := by
  induction keys with
  | nil => rfl
  | cons k keys ih =>
    cases hk : p k with
    | true => rw [List.filter_cons_of_pos hk, List.flatMap_cons, List.flatMap_cons, ih]
    | false =>
      rw [List.filter_cons_of_neg (by simp [hk]), List.flatMap_cons, h k hk, ih]
      rfl

end LuaTable
