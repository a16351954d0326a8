import Mathlib.Data.List.Infix

/-!
# Texts with a separator

Splitting at a separator of several characters gives the parts of a join back, when no part holds
the separator and no end of the separator is a beginning of it.
-/

namespace LightRAG.Separated
open List

variable {α : Type} [DecidableEq α]

/-- The parts between the separators, from the left; the number is what is left of a separator. -/
def split (sep : List α) : ℕ → List α → List (List α)
  | _, [] => [[]]
  | k + 1, _ :: cs => split sep k cs
  | 0, c :: cs =>
    if sep <+: c :: cs then [] :: split sep (sep.length - 1) cs
    else
      match split sep 0 cs with
      | [] => [[c]]
      | part :: parts => (c :: part) :: parts

def join (sep : List α) : List (List α) → List α
  | [] => []
  | part :: parts => if parts = [] then part else part ++ (sep ++ join sep parts)

/-- No end of the separator is a beginning of it. -/
def Borderless (sep : List α) : Prop :=
  ∀ k < sep.length, 0 < k → sep.drop k ≠ sep.take (sep.length - k)

instance (sep : List α) : Decidable (Borderless sep) :=
  inferInstanceAs (Decidable (∀ k < sep.length, 0 < k → sep.drop k ≠ sep.take (sep.length - k)))

variable {sep part rest : List α} {parts : List (List α)}

theorem split_skip (xs : List α) : split sep xs.length (xs ++ rest) = split sep 0 rest := by
  induction xs with
  | nil => rfl
  | cons x xs ih => exact ih

omit [DecidableEq α] in
theorem not_prefix_append (hborder : Borderless sep) (hpart : part ≠ []) (hfree : ¬ sep <:+: part) :
    ¬ sep <+: part ++ (sep ++ rest) := by
  intro hprefix
  rcases Nat.lt_or_ge part.length sep.length with hshort | hlong
  · obtain ⟨u,hu⟩ := prefix_of_prefix_length_le (prefix_append part _) hprefix hshort.le
    have hbegins : u <+: sep ++ rest := by
      apply (prefix_append_right_inj part).mp
      rwa [hu]
    have hlength : u.length = sep.length - part.length := by
      rw [← hu,length_append]
      omega
    have hdrop : sep.drop part.length = u := by
      rw [← hu,drop_left]
    have htake : u = sep.take (sep.length - part.length) := by
      have hle : u.length ≤ sep.length := by omega
      have hin : u <+: sep :=
        prefix_of_prefix_length_le hbegins (prefix_append sep rest) hle
      rw [← hlength]
      exact prefix_iff_eq_take.mp hin
    have hpos : 0 < part.length := length_pos_iff.mpr hpart
    exact hborder part.length hshort hpos (hdrop.trans htake)
  · have hin : sep <+: part :=
      prefix_of_prefix_length_le hprefix (prefix_append part _) hlong
    exact hfree hin.isInfix

omit [DecidableEq α] in
theorem not_infix_tail {c : α} (hfree : ¬ sep <:+: c :: part) : ¬ sep <:+: part :=
  fun h => hfree (h.trans (suffix_cons c part).isInfix)

theorem split_ne_nil (k : ℕ) (s : List α) : split sep k s ≠ [] := by
  induction s generalizing k with
  | nil => exact cons_ne_nil _ _
  | cons c s ih =>
    cases k with
    | succ k => exact ih k
    | zero =>
      rw [split]
      split
      · exact cons_ne_nil _ _
      · split <;> exact cons_ne_nil _ _

theorem join_split (hsep : sep ≠ []) (k : ℕ) (s : List α) :
    join sep (split sep k s) = s.drop k := by
  induction s generalizing k with
  | nil =>
    cases k <;> rfl
  | cons c s ih =>
    cases k with
    | succ k => exact ih k
    | zero =>
      rw [split]
      split
      · next hprefix =>
        have hlength := length_pos_of_ne_nil hsep
        rw [join,if_neg (split_ne_nil _ s),ih,nil_append,drop_zero]
        obtain ⟨rest,hrest⟩ := hprefix
        have hdrop := congrArg (List.drop sep.length) hrest
        rw [drop_left,← Nat.sub_add_cancel hlength,drop_succ_cons] at hdrop
        rw [← hdrop,hrest]
      · have hjoin := ih 0
        split
        · next hnil => exact absurd hnil (split_ne_nil 0 s)
        · next part parts hparts =>
          rw [hparts,drop_zero,join] at hjoin
          rw [join,← hjoin]
          split <;> rfl

theorem split_part (hsep : sep ≠ []) (hborder : Borderless sep) (hfree : ¬ sep <:+: part) :
    split sep 0 (part ++ (sep ++ rest)) = part :: split sep 0 rest := by
  induction part with
  | nil =>
    cases sep with
    | nil => exact absurd rfl hsep
    | cons c cs =>
      have hprefix : c :: cs <+: c :: (cs ++ rest) := prefix_append (c :: cs) rest
      rw [nil_append,cons_append,split,if_pos hprefix]
      exact congrArg ([] :: ·) (split_skip cs)
  | cons c part ih =>
    have hnot : ¬ sep <+: (c :: part) ++ (sep ++ rest) :=
      not_prefix_append hborder (cons_ne_nil c part) hfree
    rw [cons_append] at hnot ⊢
    rw [split,if_neg hnot,ih (not_infix_tail hfree)]

theorem split_last (hfree : ¬ sep <:+: part) : split sep 0 part = [part] := by
  induction part with
  | nil => rfl
  | cons c part ih =>
    have hnot : ¬ sep <+: c :: part := fun h => hfree h.isInfix
    rw [split,if_neg hnot,ih (not_infix_tail hfree)]

theorem split_join (hsep : sep ≠ []) (hborder : Borderless sep) (hparts : parts ≠ [])
    (hfree : ∀ part ∈ parts, ¬ sep <:+: part) : split sep 0 (join sep parts) = parts := by
  induction parts with
  | nil => exact absurd rfl hparts
  | cons part parts ih =>
    rw [join]
    split
    · rename_i hlast
      rw [split_last (hfree part mem_cons_self),hlast]
    · rename_i hmore
      rw [split_part hsep hborder (hfree part mem_cons_self),
        ih hmore fun part hpart => hfree part (mem_cons_of_mem _ hpart)]

/-- One pair of texts arises from another by moving the text beside a separator over it. -/
def Regrouped (sep x y u v : List α) : Prop :=
  (∃ t, u = x ++ (sep ++ t) ∧ y = t ++ (sep ++ v)) ∨ ∃ t, x = u ++ (sep ++ t) ∧ v = t ++ (sep ++ y)

omit [DecidableEq α] in
theorem regrouped_of_length_lt {x y u v : List α} (hborder : Borderless sep)
    (h : x ++ (sep ++ y) = u ++ (sep ++ v)) (hlt : x.length < u.length) :
    ∃ t, u = x ++ (sep ++ t) ∧ y = t ++ (sep ++ v) := by
  obtain ⟨moved,hu,hrest⟩ : ∃ moved, u = x ++ moved ∧ sep ++ y = moved ++ (sep ++ v) := by
    rcases append_eq_append_iff.mp h with ⟨moved,hu,hrest⟩ | ⟨moved,hx,hrest⟩
    · exact ⟨moved,hu,hrest⟩
    · rw [hx,length_append] at hlt
      omega
  have hmoved : 0 < moved.length := by
    rw [hu,length_append] at hlt
    omega
  rcases append_eq_append_iff.mp hrest with ⟨t,ht,hy⟩ | ⟨t,hsep,hv⟩
  · exact ⟨t,by rw [hu,ht],hy⟩
  · -- the separator would begin inside itself
    rcases Nat.eq_zero_or_pos t.length with hnil | hpos
    · rw [length_eq_zero_iff] at hnil
      subst hnil
      rw [append_nil] at hsep
      exact ⟨[],by rw [hu,hsep,append_nil],by simpa using hv.symm⟩
    · have hlength : sep.length - moved.length = t.length := by
        rw [hsep,length_append]
        omega
      have hin : t <+: sep ++ v := by
        rw [hv]
        exact prefix_append t y
      have hbegins : t <+: sep := by
        apply prefix_of_prefix_length_le hin (prefix_append sep v)
        omega
      have hshort : moved.length < sep.length := by
        omega
      refine absurd ?_ (hborder moved.length hshort hmoved)
      rw [hlength,← prefix_iff_eq_take.mp hbegins,hsep,drop_left]

omit [DecidableEq α] in
theorem append_append_eq_iff {x y u v : List α} (hborder : Borderless sep) :
    x ++ (sep ++ y) = u ++ (sep ++ v) ↔ (x = u ∧ y = v) ∨ Regrouped sep x y u v := by
  constructor
  · intro h
    rcases Nat.lt_trichotomy x.length u.length with hlt | heq | hgt
    · exact .inr (.inl (regrouped_of_length_lt hborder h hlt))
    · obtain ⟨hxu,hrest⟩ := append_inj h heq
      exact .inl ⟨hxu,append_cancel_left hrest⟩
    · exact .inr (.inr (regrouped_of_length_lt hborder h.symm hgt))
  · rintro (⟨rfl,rfl⟩ | ⟨t,rfl,rfl⟩ | ⟨t,rfl,rfl⟩)
    · rfl
    · simp only [append_assoc]
    · simp only [append_assoc]

end LightRAG.Separated

/-!
## Framed texts

A text that is preceded by its length can be told from what follows it, so a sequence of texts can
be recovered from the concatenation of their frames.
-/

namespace LightRAG.Framing
open List

variable {α : Type}

theorem append_cons_inj {c : α} {as as' bs bs' : List α} (has : c ∉ as) (has' : c ∉ as')
    (heq : as ++ c :: bs = as' ++ c :: bs') : as = as' ∧ bs = bs' := by
  induction as generalizing as' with
  | nil =>
    cases as' with
    | nil => exact ⟨rfl,tail_eq_of_cons_eq heq⟩
    | cons a as' =>
      have hhead : c = a := head_eq_of_cons_eq heq
      exact absurd (hhead ▸ mem_cons_self) has'
  | cons a as ih =>
    cases as' with
    | nil =>
      have hhead : a = c := head_eq_of_cons_eq heq
      exact absurd (hhead ▸ mem_cons_self) has
    | cons a' as' =>
      obtain ⟨rfl,htail⟩ := List.cons.inj heq
      rw [mem_cons,not_or] at has has'
      obtain ⟨rfl,hbs⟩ := ih has.2 has'.2 htail
      exact ⟨rfl,hbs⟩

theorem append_cons_inj_right {c : α} {as as' bs bs' : List α} (hbs : c ∉ bs) (hbs' : c ∉ bs')
    (heq : as ++ c :: bs = as' ++ c :: bs') : as = as' ∧ bs = bs' := by
  have hreverse : bs.reverse ++ c :: as.reverse = bs'.reverse ++ c :: as'.reverse := by
    simpa using congrArg List.reverse heq
  obtain ⟨hb,ha⟩ := append_cons_inj (by simpa using hbs) (by simpa using hbs') hreverse
  exact ⟨reverse_injective ha,reverse_injective hb⟩

theorem repr_injective {m n : ℕ} (heq : Nat.repr m = Nat.repr n) : m = n := by
  have hdigits : Nat.toDigits 10 m = Nat.toDigits 10 n := by
    have hlist : (Nat.repr m).toList = (Nat.repr n).toList := congrArg String.toList heq
    simpa [Nat.repr] using hlist
  have hvalue := congrArg (fun ds => Nat.ofDigitChars 10 ds 0) hdigits
  rwa [Nat.ofDigitChars_toDigits (by decide) (by decide),
    Nat.ofDigitChars_toDigits (by decide) (by decide)] at hvalue

theorem colon_not_mem_repr (n : ℕ) : ':' ∉ (Nat.repr n).toList := by
  intro hin
  have hdigits : ':' ∈ Nat.toDigits 10 n := by
    simpa [Nat.repr] using hin
  have hdigit := Nat.isDigit_of_mem_toDigits (by decide) (by decide) hdigits
  cases hdigit

/-- `f"{len(s)}:{s}"`. -/
def frame (s : String) : String := Nat.repr s.length ++ (":" ++ s)

def frames : List String → String
  | [] => ""
  | s :: ss => frame s ++ frames ss

theorem frames_injective {ss ss' : List String} (heq : frames ss = frames ss') : ss = ss' := by
  have hne : ∀ (s : String) ss, frames (s :: ss) ≠ "" := by
    intro s ss hempty
    have hlist := congrArg String.toList hempty
    simp [frames,frame] at hlist
  induction ss generalizing ss' with
  | nil =>
    cases ss' with
    | nil => rfl
    | cons s' ss' => exact absurd heq.symm (hne s' ss')
  | cons s ss ih =>
    cases ss' with
    | nil => exact absurd heq (hne s ss)
    | cons s' ss' =>
      have hlist : (Nat.repr s.length).toList ++ ':' :: (s.toList ++ (frames ss).toList) =
          (Nat.repr s'.length).toList ++ ':' :: (s'.toList ++ (frames ss').toList) := by
        have hlists := congrArg String.toList heq
        simpa [frames,frame] using hlists
      obtain ⟨hlength,htexts⟩ := append_cons_inj (colon_not_mem_repr _) (colon_not_mem_repr _) hlist
      have hlengths : s.toList.length = s'.toList.length := by
        exact repr_injective (String.toList_injective hlength)
      obtain ⟨hs,hss⟩ := append_inj htexts hlengths
      rw [String.toList_injective hs,ih (String.toList_injective hss)]

end LightRAG.Framing
