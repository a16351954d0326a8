import LightRAG.Pipeline.EngineParams
import Mathlib.Data.List.TakeWhile

/-!
# Texts of engine parameters

What the splitting, the trimming and the registry do on the texts that are written for parameters.
-/

namespace LightRAG.EngineParams
open List Option

open FilenameHints (Str strip takeParenBlock)
open Text (forall_mem isSpace)

variable {a b s : Str} {c : Char}

theorem split_join {parts : List Str} (hne : parts ≠ []) (h : ∀ part ∈ parts, c ∉ part) :
    Text.split c (Separated.join [c] parts) = parts := by
  induction parts with
  | nil => exact absurd rfl hne
  | cons part parts ih =>
    have hpart := h part mem_cons_self
    rw [Separated.join]
    split
    · rename_i hlast
      rw [Text.split_of_not_mem hpart,hlast]
    · rename_i hmore
      rw [singleton_append,Text.split_append hpart,ih hmore fun p hp => h p (mem_cons_of_mem _ hp)]

theorem mem_join {sep : Str} {parts : List Str} (h : c ∈ Separated.join sep parts) :
    c ∈ sep ∨ ∃ part ∈ parts, c ∈ part := by
  induction parts with
  | nil => cases h
  | cons part parts ih =>
    rw [Separated.join] at h
    split at h
    · exact .inr ⟨part,mem_cons_self,h⟩
    · rcases mem_append.mp h with h | h
      · exact .inr ⟨part,mem_cons_self,h⟩
      · rcases mem_append.mp h with h | h
        · exact .inl h
        · rcases ih h with h | ⟨p,hp,hc⟩
          · exact .inl h
          · exact .inr ⟨p,mem_cons_of_mem _ hp,hc⟩

theorem join_ne_nil {sep : Str} {parts : List Str} (hne : parts ≠ []) (h : ∀ p ∈ parts, p ≠ []) :
    Separated.join sep parts ≠ [] := by
  cases parts with
  | nil => exact absurd rfl hne
  | cons part parts =>
    have hpart := h part mem_cons_self
    rw [Separated.join]
    split
    · exact hpart
    · simp [hpart]

theorem splitTopLevel_flat (h : ∀ c ∈ s, c ∉ ['(', ')']) :
    splitTopLevel [','] 0 s = Text.split ',' s := by
  induction s with
  | nil => rfl
  | cons d s ih =>
    have hd := h d mem_cons_self
    have htail := ih fun c hc => h c (mem_cons_of_mem _ hc)
    have hopen : d ≠ '(' := fun heq => hd (by simp [heq])
    have hclose : d ≠ ')' := fun heq => hd (by simp [heq])
    obtain ⟨field,fields,heq⟩ := exists_cons_of_ne_nil (Text.split_ne_nil ',' s)
    rw [splitTopLevel,Text.split]
    by_cases hcomma : d = ','
    · rw [if_pos ⟨hd,rfl,by simp [hcomma]⟩,htail,heq]
      exact (if_pos hcomma).symm
    · rw [if_neg (by simp [hcomma]),if_neg hopen,if_neg hclose]
      dsimp only
      rw [htail,heq]
      exact (if_neg hcomma).symm

theorem takeParenBlock_flat {rest : Str} (h : ∀ c ∈ s, c ∉ ['(', ')']) :
    takeParenBlock 0 (s ++ ')' :: rest) = some (s, rest) := by
  induction s with
  | nil => rfl
  | cons d s ih =>
    have hd := h d mem_cons_self
    have hopen : d ≠ '(' := fun heq => hd (by simp [heq])
    have hclose : d ≠ ')' := fun heq => hd (by simp [heq])
    rw [cons_append,takeParenBlock,if_neg hopen,if_neg hclose,
      ih fun c hc => h c (mem_cons_of_mem _ hc)]
    rfl

theorem strip_strip (s : Str) : strip (strip s) = strip s := Trim.trim_trim s

theorem strip_unblank (h : ∀ c ∈ s, isSpace c = false) : strip s = s := by
  have hstart : s.dropWhile isSpace = s :=
    Trim.dropWhile_self fun d hd => h d (mem_of_mem_head? hd)
  have hend : s.reverse.dropWhile isSpace = s.reverse :=
    Trim.dropWhile_self fun d hd => h d (mem_reverse.mp (mem_of_mem_head? hd))
  rw [strip,Trim.trim,hstart,Trim.rtrim,hend,reverse_reverse]

theorem dropWhile_of_strip (h : strip s = s) : s.dropWhile isSpace = s := by
  have hle : (Trim.rtrim isSpace (s.dropWhile isSpace)).length ≤ (s.dropWhile isSpace).length :=
    (Trim.rtrim_sublist _).length_le
  have hlength : (strip s).length = s.length := congrArg List.length h
  rw [strip,Trim.trim] at hlength
  exact (dropWhile_sublist isSpace).eq_of_length_le (by omega)

theorem rtrim_of_strip (h : strip s = s) : Trim.rtrim isSpace s = s := by
  have htrim : Trim.rtrim isSpace (s.dropWhile isSpace) = s := h
  rwa [dropWhile_of_strip h] at htrim

theorem strip_append_cons (hc : isSpace c = false) (ha : strip a = a) (hb : strip b = b) :
    strip (a ++ c :: b) = a ++ c :: b := by
  rw [strip,Trim.trim_append_cons hc,dropWhile_of_strip ha,rtrim_of_strip hb]

theorem takeWhile_append_cons (h : c ∉ a) : (a ++ c :: b).takeWhile (· ≠ c) = a := by
  rw [takeWhile_append_of_pos]
  · simp
  · intro d hd
    simp only [decide_not,Bool.not_eq_eq_eq_not,Bool.not_true,decide_eq_false_iff_not]
    rintro rfl
    exact h hd

theorem dropWhile_append_cons (h : c ∉ a) : (a ++ c :: b).dropWhile (· ≠ c) = c :: b := by
  rw [dropWhile_append_of_pos]
  · simp
  · intro d hd
    simp only [decide_not,Bool.not_eq_eq_eq_not,Bool.not_true,decide_eq_false_iff_not]
    rintro rfl
    exact h hd

theorem not_mem_takeWhile (c : Char) (s : Str) : c ∉ s.takeWhile (· ≠ c) := by
  intro hc
  simpa using mem_takeWhile_imp hc

theorem takeWhile_none (h : c ∉ s) : s.takeWhile (· ≠ c) = s := by
  rw [takeWhile_eq_self_iff]
  intro d hd
  simp only [decide_not,Bool.not_eq_eq_eq_not,Bool.not_true,decide_eq_false_iff_not]
  rintro rfl
  exact h hd

structure WellFormed (specs : List EngineParamSpec) (spec : EngineParamSpec) : Prop where
  found : specByName specs spec.canonical = some spec
  plain : ∀ c ∈ spec.canonical, c ∉ [',', '(', ')', ']', '=']
  stripped : strip spec.canonical = spec.canonical
  list : spec.isList = true → spec.canonical = pageRange.canonical ∧ spec.kind = .str
  values : ∀ vs, spec.kind = .enum vs → ∀ v ∈ vs, strip v = v ∧ ∀ c ∈ v, c ∉ valueForbidden

theorem wellFormed {engine : Str} {specs : List EngineParamSpec}
    (h : engineParamSpecs engine = some specs) {spec : EngineParamSpec} (hspec : spec ∈ specs) :
    WellFormed specs spec := by
  unfold engineParamSpecs at h
  split at h
  · obtain rfl := some.inj h
    simp only [mem_cons,not_mem_nil,or_false] at hspec
    rcases hspec with rfl | rfl | rfl
    · exact ⟨by decide,forall_mem (by decide),by decide,by decide,fun _ hkind => nomatch hkind⟩
    · exact ⟨by decide,forall_mem (by decide),by decide,by decide,fun _ hkind => nomatch hkind⟩
    · refine ⟨by decide,forall_mem (by decide),by decide,by decide,fun vs hkind => ?_⟩
      obtain rfl := Kind.enum.inj hkind
      simp only [forall_mem_cons,not_mem_nil,false_imp_iff,implies_true,and_true]
      exact ⟨⟨by decide,forall_mem (by decide)⟩,⟨by decide,forall_mem (by decide)⟩,by decide,
        forall_mem (by decide)⟩
  · split at h
    · obtain rfl := some.inj h
      obtain rfl := mem_singleton.mp hspec
      exact ⟨by decide,forall_mem (by decide),by decide,by decide,fun _ hkind => nomatch hkind⟩
    · split at h
      · obtain rfl := some.inj h
        obtain rfl := mem_singleton.mp hspec
        exact ⟨by decide,forall_mem (by decide),by decide,by decide,fun _ hkind => nomatch hkind⟩
      · cases h

theorem mem_of_specByName {specs : List EngineParamSpec} {key : Str} {spec : EngineParamSpec}
    (h : specByName specs key = some spec) : spec ∈ specs := mem_of_find?_eq_some h

end LightRAG.EngineParams
