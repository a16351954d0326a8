import Mathlib.Data.Rat.Floor

/-!
# Rounded arithmetic

What is relied on of the rounding of a floating-point format, and the rounding of a number to the
nearest integer.
-/

namespace LightRAG

/-- The rounding of results to the numbers of a format: an order-preserving retraction that keeps
zero and one. -/
structure Rounding where
  round : ℚ → ℚ
  mono : Monotone round
  round_round : ∀ q, round (round q) = round q
  round_zero : round 0 = 0
  round_one : round 1 = 1

namespace Rounding

instance : CoeFun Rounding fun _ => ℚ → ℚ := ⟨round⟩

def exact : Rounding where
  round := id
  mono := monotone_id
  round_round := fun _ => rfl
  round_zero := rfl
  round_one := rfl

variable (fl : Rounding) {a b : ℚ}

theorem nonneg (ha : 0 ≤ a) : 0 ≤ fl a := by
  have h := fl.mono ha
  rwa [fl.round_zero] at h

theorem le_one (ha : a ≤ 1) : fl a ≤ 1 := by
  have h := fl.mono ha
  rwa [fl.round_one] at h

theorem le_of_le (h : a ≤ fl b) : fl a ≤ fl b := by
  have hround := fl.mono h
  rwa [fl.round_round] at hround

end Rounding

/-- `round`: the nearest integer, the even one of two that are as near. -/
def roundHalfEven (q : ℚ) : ℤ :=
  if q - ⌊q⌋ < 1 / 2 then ⌊q⌋
  else if 1 / 2 < q - ⌊q⌋ then ⌊q⌋ + 1
  else if ⌊q⌋ % 2 = 0 then ⌊q⌋ else ⌊q⌋ + 1

theorem roundHalfEven_nonneg {q : ℚ} (hq : 0 ≤ q) : 0 ≤ roundHalfEven q := by
  have hfloor : 0 ≤ ⌊q⌋ := Int.floor_nonneg.mpr hq
  unfold roundHalfEven
  split
  · exact hfloor
  · split
    · omega
    · split <;> omega

theorem roundHalfEven_div (a : ℕ) {d : ℕ} (hd : 0 < d) :
    roundHalfEven ((a : ℚ) / d) =
      ((if 2 * (a % d) < d then a / d
        else if d < 2 * (a % d) then a / d + 1
        else if a / d % 2 = 0 then a / d else a / d + 1 : ℕ) : ℤ) := by
  have hdq : (0 : ℚ) < d := by exact_mod_cast hd
  have hfloor : ⌊(a : ℚ) / d⌋ = ((a / d : ℕ) : ℤ) := by
    rw [Rat.floor_natCast_div_natCast]
    rfl
  have hrest : (a : ℚ) / d - (((a / d : ℕ) : ℤ) : ℚ) = ((a % d : ℕ) : ℚ) / d := by
    have hsplit : (a : ℚ) = d * (a / d : ℕ) + (a % d : ℕ) := by
      exact_mod_cast (Nat.div_add_mod a d).symm
    rw [eq_div_iff hdq.ne',sub_mul,div_mul_cancel₀ _ hdq.ne',Int.cast_natCast]
    linarith
  have hlow : ((a % d : ℕ) : ℚ) / d < 1 / 2 ↔ 2 * (a % d) < d := by
    rw [div_lt_div_iff₀ hdq two_pos,one_mul,mul_comm]
    exact_mod_cast Iff.rfl
  have hhigh : 1 / 2 < ((a % d : ℕ) : ℚ) / d ↔ d < 2 * (a % d) := by
    rw [div_lt_div_iff₀ two_pos hdq,one_mul,mul_comm _ (2 : ℚ)]
    exact_mod_cast Iff.rfl
  have heven : ((a / d : ℕ) : ℤ) % 2 = 0 ↔ a / d % 2 = 0 := by omega
  unfold roundHalfEven
  rw [hfloor,hrest]
  simp only [hlow,hhigh,heven]
  push_cast
  rfl

end LightRAG
