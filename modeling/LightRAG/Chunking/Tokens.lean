import LightRAG.Framework.Text
import Mathlib.Algebra.BigOperators.Group.List.Basic
import Mathlib.Algebra.GroupWithZero.Nat
import Mathlib.Data.List.TakeWhile

/-!
# Texts and their tokens

A text is the list of its code points.
-/

namespace LightRAG.Chunking
open List

open Text (isSpace)

abbrev Str := List Char

def isBlank (s : Str) : Bool := s.all isSpace

def rstrip (s : Str) : Str := (s.reverse.dropWhile isSpace).reverse

def strip (s : Str) : Str := rstrip (s.dropWhile isSpace)

def joinLines (lines : List Str) : Str := ['\n'].intercalate lines

def solid (s : Str) : Str := s.filter fun c => !isSpace c

structure Tokenizer (τ : Type) where
  encode : Str → List τ
  decode : List τ → Str

namespace Tokenizer

variable {τ : Type}

def length (t : Tokenizer τ) (text : Str) : ℕ := (t.encode text).length

def countTokens (t : Tokenizer τ) (text : Str) : ℕ := if text = [] then 0 else t.length text

/-- Token counts add up along a text and no text but the empty one is free. -/
structure Additive (t : Tokenizer τ) : Prop where
  append : ∀ a b, t.length (a ++ b) = t.length a + t.length b
  pos : ∀ s, s ≠ [] → 0 < t.length s

namespace Additive

variable {t : Tokenizer τ} (h : t.Additive)

include h

theorem nil : t.length [] = 0 := by
  have hadd := h.append [] []
  rw [append_nil] at hadd
  omega

theorem countTokens_eq (s : Str) : t.countTokens s = t.length s := by
  rw [countTokens]
  split
  · next hnil => rw [hnil,h.nil]
  · rfl

theorem sublist {a b : Str} (hsub : a.Sublist b) : t.length a ≤ t.length b := by
  induction hsub with
  | slnil => exact Nat.le_refl _
  | @cons a b c _ ih =>
    have hb := h.append [c] b
    rw [singleton_append] at hb
    omega
  | @cons_cons a b c _ ih =>
    have ha := h.append [c] a
    have hb := h.append [c] b
    rw [singleton_append] at ha hb
    omega

theorem char_le {c : Char} {s : Str} (hc : c ∈ s) : t.length [c] ≤ t.length s :=
  h.sublist (singleton_sublist.mpr hc)

end Additive

end Tokenizer

section

variable {s a b : Str}

theorem isBlank_iff : isBlank s = true ↔ solid s = [] := by
  simp [isBlank,solid]

theorem isBlank_eq_false : isBlank s = false ↔ solid s ≠ [] := by
  rw [← not_iff_not,Bool.not_eq_false,isBlank_iff,not_not]

@[simp] theorem solid_nil : solid [] = [] := rfl

@[simp] theorem solid_append : solid (a ++ b) = solid a ++ solid b := filter_append a b

theorem solid_cons (c : Char) (s : Str) : solid (c :: s) = solid [c] ++ solid s := by
  rw [← singleton_append,solid_append]

theorem solid_dropWhile (s : Str) : solid (s.dropWhile isSpace) = solid s := by
  induction s with
  | nil => rfl
  | cons c s ih =>
    rw [dropWhile_cons]
    split
    · next hc => rw [ih,solid,solid,filter_cons_of_neg (by simp [hc])]
    · rfl

theorem solid_reverse (s : Str) : solid s.reverse = (solid s).reverse := filter_reverse

@[simp] theorem solid_rstrip (s : Str) : solid (rstrip s) = solid s := by
  rw [rstrip,solid_reverse,solid_dropWhile,solid_reverse,reverse_reverse]

@[simp] theorem solid_strip (s : Str) : solid (strip s) = solid s := by
  rw [strip,solid_rstrip,solid_dropWhile]

theorem rstrip_sublist (s : Str) : (rstrip s).Sublist s := by
  have hsub := (dropWhile_sublist (l := s.reverse) isSpace).reverse
  rwa [reverse_reverse] at hsub

theorem strip_sublist (s : Str) : (strip s).Sublist s :=
  (rstrip_sublist _).trans (dropWhile_sublist _)

theorem strip_eq_nil : strip s = [] ↔ solid s = [] := by
  constructor
  · intro h
    rw [← solid_strip,h,solid_nil]
  · intro h
    have hdrop : s.dropWhile isSpace = [] := by
      apply dropWhile_eq_nil_iff.mpr
      intro c hc
      simpa using (filter_eq_nil_iff.mp h) c hc
    rw [strip,hdrop]
    rfl

@[simp] theorem joinLines_nil : joinLines [] = [] := rfl

@[simp] theorem joinLines_singleton (s : Str) : joinLines [s] = s := by
  simp [joinLines]

theorem joinLines_cons (s : Str) {lines : List Str} (h : lines ≠ []) :
    joinLines (s :: lines) = s ++ '\n' :: joinLines lines := by
  cases lines with
  | nil => exact absurd rfl h
  | cons l lines => simp [joinLines]

theorem sublist_joinLines {lines : List Str} (h : s ∈ lines) : s.Sublist (joinLines lines) := by
  induction lines with
  | nil => exact nomatch h
  | cons line lines ih =>
    by_cases hnil : lines = []
    · rw [hnil,joinLines_singleton]
      rw [hnil,mem_singleton] at h
      rw [h]
    · rw [joinLines_cons line hnil]
      rcases mem_cons.mp h with rfl | h
      · exact sublist_append_left _ _
      · exact ((ih h).cons '\n').trans (sublist_append_right _ _)

theorem joinLines_append {xs ys : List Str} (hxs : xs ≠ []) (hys : ys ≠ []) :
    joinLines (xs ++ ys) = joinLines xs ++ '\n' :: joinLines ys := by
  induction xs with
  | nil => exact absurd rfl hxs
  | cons s xs ih =>
    by_cases h : xs = []
    · rw [h,joinLines_singleton,singleton_append,joinLines_cons s hys]
    · rw [cons_append,joinLines_cons s (by simp [h]),ih h,joinLines_cons s h,
        append_assoc,cons_append]

theorem solid_newline : solid ['\n'] = [] := by decide

theorem solid_joinLines (lines : List Str) : solid (joinLines lines) = (lines.map solid).flatten := by
  induction lines with
  | nil => rfl
  | cons s lines ih =>
    by_cases h : lines = []
    · subst h
      simp
    · rw [joinLines_cons s h,← singleton_append,solid_append,solid_append,solid_newline,
        nil_append,ih,map_cons,flatten_cons]

end

end LightRAG.Chunking
