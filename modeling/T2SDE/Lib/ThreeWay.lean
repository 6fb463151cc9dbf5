import Mathlib.Data.Set.CoeSort
import Mathlib.Order.Defs.Unbundled
import Mathlib.Tactic.ByContra
import Mathlib.Tactic.SplitIfs
import Mathlib.Order.Defs.LinearOrder
import Mathlib.Order.Basic
import Mathlib.Order.Lattice

namespace ThreeWay

section Sign

variable {α : Type} [LinearOrder α] {x y : α}

/-- The three-way comparison of a linear order. -/
def sign (x y : α) : Int := if x < y then -1 else if y < x then 1 else 0

theorem sign_eq_neg : sign x y = -1 ↔ x < y := by
  rcases lt_trichotomy x y with h | rfl | h
  · simp [sign, h]
  · simp [sign]
  · simp [sign, h, h.not_gt]

theorem sign_eq_pos : sign x y = 1 ↔ y < x := by
  rcases lt_trichotomy x y with h | rfl | h
  · simp [sign, h, h.not_gt]
  · simp [sign]
  · simp [sign, h, h.not_gt]

theorem sign_eq_zero : sign x y = 0 ↔ x = y := by
  rcases lt_trichotomy x y with h | rfl | h
  · simp [sign, h, h.ne]
  · simp [sign]
  · simp [sign, h, h.not_gt, h.ne']

theorem sign_nonpos : sign x y ≤ 0 ↔ x ≤ y := by
  rcases lt_trichotomy x y with h | rfl | h
  · simp [sign, h, h.le]
  · simp [sign]
  · simp [sign, h, h.not_gt]

theorem sign_trans {z : α} (h : sign x y ≤ 0) (h' : sign y z ≤ 0) :
    sign x z ≤ 0 ∧ (sign x z = 0 → sign x y = 0 ∧ sign y z = 0) := by
  rw [sign_nonpos] at h h'
  simp only [sign_nonpos, sign_eq_zero]
  refine ⟨h.trans h', ?_⟩
  rintro rfl
  exact ⟨h.antisymm h', h'.antisymm h⟩

theorem sign_swap (x y : α) : sign y x = -sign x y := by
  rcases lt_trichotomy x y with h | rfl | h
  · simp [sign, h, h.not_gt]
  · simp [sign]
  · simp [sign, h, h.not_gt]

end Sign

variable {α : Type} {compare : α → α → Int} {S : Set α}

theorem le_of_not_lt (hswap : ∀ a ∈ S, ∀ b ∈ S, compare b a = -compare a b) {a b : α} (ha : a ∈ S)
    (hb : b ∈ S) (h : ¬compare a b < 0) : compare b a ≤ 0 := by
  have := hswap a ha b hb
  omega

/-- A three-way comparison sorts a set if swapping its arguments changes the sign and "not
greater" is transitive. -/
theorem isStrictWeakOrder (hswap : ∀ a ∈ S, ∀ b ∈ S, compare b a = -compare a b)
    (htrans : ∀ a ∈ S, ∀ b ∈ S, ∀ c ∈ S, compare a b ≤ 0 → compare b c ≤ 0 → compare a c ≤ 0) :
    IsStrictWeakOrder S (fun a b => compare a.1 b.1 < 0) where
  irrefl := by
    rintro ⟨a, ha⟩ (h : compare a a < 0)
    have := hswap a ha a ha
    omega
  trans := by
    rintro ⟨a, ha⟩ ⟨b, hb⟩ ⟨c, hc⟩ (hab : compare a b < 0) (hbc : compare b c < 0)
    show compare a c < 0
    have hle := htrans a ha b hb c hc (by omega) (by omega)
    by_contra hnot
    -- with `a` and `c` equal, `b` would not be above `a`
    have hca := le_of_not_lt hswap ha hc hnot
    have hba := htrans b hb c hc a ha (by omega) hca
    have := hswap a ha b hb
    omega
  incomp_trans := by
    rintro ⟨a, ha⟩ ⟨b, hb⟩ ⟨c, hc⟩ ⟨hab, hba⟩ ⟨hbc, hcb⟩
    have hac := htrans a ha b hb c hc (le_of_not_lt hswap hb ha hba) (le_of_not_lt hswap hc hb hcb)
    have hca := htrans c hc b hb a ha (le_of_not_lt hswap hb hc hbc) (le_of_not_lt hswap ha hb hab)
    have := hswap a ha c hc
    show ¬compare a c < 0 ∧ ¬compare c a < 0
    omega

end ThreeWay
