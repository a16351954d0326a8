import LightRAG.Framework.Text
import Mathlib.Tactic.IntervalCases

/-!
# Letters and digits

The characters that lower-casing changes, and the digits, as lists.
-/

namespace LightRAG.Text

def upperLetters : List Char := "ABCDEFGHIJKLMNOPQRSTUVWXYZ".toList

theorem toLower_cases (c : Char) : c.toLower = c ∨ c ∈ upperLetters := by
  unfold Char.toLower
  split
  · right
    rename_i h
    have hlow : 65 ≤ c.toNat := h.1
    have hhigh : c.toNat ≤ 90 := h.2
    rw [← Char.ofNat_toNat c]
    generalize c.toNat = n at hlow hhigh
    interval_cases n <;> decide
  · exact .inl rfl

theorem mem_digits {c : Char} (h : isDigit c = true) : c ∈ "0123456789".toList := by
  rw [isDigit,Bool.and_eq_true,decide_eq_true_eq,decide_eq_true_eq] at h
  have hlow : 48 ≤ c.toNat := h.1
  have hhigh : c.toNat ≤ 57 := h.2
  rw [← Char.ofNat_toNat c]
  generalize c.toNat = n at hlow hhigh
  interval_cases n <;> decide

theorem toLower_eq_iff {a c : Char} (hc : c ∉ "abcdefghijklmnopqrstuvwxyz".toList)
    (hupper : c ∉ upperLetters) : a.toLower = c ↔ a = c := by
  rcases toLower_cases a with hsame | ha
  · rw [hsame]
  · have hsmall : ∀ a ∈ upperLetters, a.toLower ∈ "abcdefghijklmnopqrstuvwxyz".toList :=
      forall_mem (by decide)
    constructor
    · rintro rfl
      exact absurd (hsmall a ha) hc
    · rintro rfl
      exact absurd ha hupper

end LightRAG.Text
