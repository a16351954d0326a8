import LightRAG.Pipeline.EngineParamValues

/-!
# The stored directive is read back

The segments of a rendered block put the checked values into the result one after the other, and
whatever a block is read as is a fixed point of the check without a character that separates.
-/

namespace LightRAG
open List

namespace Dict

variable {α β : Type} [DecidableEq α] {d d' : Dict α β}

theorem get_update_congr (h : ∀ k, d.get k = d'.get k) (es : List (α × β)) (k : α) :
    (d.update es).get k = (d'.update es).get k := by
  induction es generalizing d d' with
  | nil => exact h k
  | cons e es ih =>
    apply ih
    intro k
    rw [get_set,get_set,h k]

theorem get_update_eq (es : List (α × β)) (k : α) :
    (d.update es).get k = (((es.filter fun e => e.1 = k).getLast?).map Prod.snd).or (d.get k) := by
  induction es generalizing d with
  | nil => rfl
  | cons e es ih =>
    rw [update_cons,ih,get_set]
    by_cases hk : k = e.1
    · rw [if_pos hk,filter_cons_of_pos (by simpa using hk.symm),List.getLast?_cons]
      cases (es.filter fun e => e.1 = k).getLast? <;> rfl
    · rw [if_neg hk,filter_cons_of_neg (by simpa using Ne.symm hk)]

end Dict

namespace EngineParams

open FilenameHints (Str strip takeParenBlock)
open Text (isSpace)

variable {mode : Mode} {engine : Str} {spec : EngineParamSpec} {specs : List EngineParamSpec}
  {st : ParseState} {e : Str × Coerced} {w : Str}

structure Renderable (mode : Mode) (specs : List EngineParamSpec) (spec : EngineParamSpec)
    (e : Str × Coerced) : Prop where
  wf : WellFormed specs spec
  key : spec.canonical = e.1
  fixed : Fixed mode spec e.2
  free : spec.kind = .str → spec.isList = false → Free e.2.str

namespace Renderable

theorem found (h : Renderable mode specs spec e) : specByName specs e.1 = some spec := by
  rw [← h.key]
  exact h.wf.found

theorem plain (h : Renderable mode specs spec e) : ∀ c ∈ e.1, c ∉ [',', '(', ')', ']', '='] := by
  rw [← h.key]
  exact h.wf.plain

theorem renderParam_eq (h : Renderable mode specs spec e) :
    renderParam specs e = (renderedValues spec e.2).map fun value => e.1 ++ '=' :: value := by
  rw [renderParam,h.found]

end Renderable

theorem parseSegment_part (h : Renderable mode specs spec e) (hw : strip w = w) :
    parseSegment mode engine specs st (e.1 ++ '=' :: w) = st.take mode spec w := by
  have hkey : '=' ∉ e.1 := fun hc => h.plain '=' hc (by decide)
  have hstripped : strip e.1 = e.1 := by
    rw [← h.key]
    exact h.wf.stripped
  have hsegment : strip (e.1 ++ '=' :: w) = e.1 ++ '=' :: w :=
    strip_append_cons (by decide) hstripped hw
  rw [parseSegment,hsegment]
  dsimp only
  rw [if_neg (by simp),if_pos (by simp),takeWhile_append_cons hkey,dropWhile_append_cons hkey,
    hstripped,h.found]
  rw [drop_one,tail_cons,hw]

theorem take_list (hlist : spec.isList = true) (hfree : Free w) :
    st.take mode spec w = { st with
      listValues := st.listValues.set spec.canonical
        ((st.listValues.get spec.canonical).getD [] ++ [w]) } := by
  have hnone : ¬ w.any (· ∈ valueForbidden) = true := by
    simpa [Free] using hfree
  rw [ParseState.take,if_neg hnone,if_pos hlist]

theorem take_plain {c : Coerced} (hlist : spec.isList = false) (hfree : Free w)
    (hseen : spec.canonical ∉ st.seen) (hcoerced : coerceEngineValue mode spec w = .ok c) :
    st.take mode spec w = { st with
      result := st.result.set spec.canonical c, seen := st.seen ++ [spec.canonical] } := by
  have hnone : ¬ w.any (· ∈ valueForbidden) = true := by
    simpa [Free] using hfree
  rw [ParseState.take,if_neg hnone,if_neg (by simp [hlist]),if_neg hseen,hcoerced]
  rfl

theorem parse_plain (h : Renderable mode specs spec e) (hlist : spec.isList = false)
    (hseen : e.1 ∉ st.seen) :
    (renderParam specs e).foldl (parseSegment mode engine specs) st =
      { st with result := st.result.set e.1 e.2, seen := st.seen ++ [e.1] } := by
  obtain ⟨w,hw,hstrip,hfree,hcoerced⟩ :=
    rendered_plain h.fixed h.wf hlist fun hkind => h.free hkind hlist
  rw [h.renderParam_eq,hw,map_singleton,foldl_cons,foldl_nil,
    parseSegment_part h hstrip,take_plain hlist hfree (by rw [h.key]; exact hseen) hcoerced,h.key]

theorem parse_values (engine : Str) (st : ParseState) (h : Renderable mode specs spec e)
    (hlist : spec.isList = true) (w : Str) (ws : List Str) (hws : ∀ v ∈ w :: ws, strip v = v ∧ Free v) :
    ∃ lists, ((w :: ws).map fun value => e.1 ++ '=' :: value).foldl
        (parseSegment mode engine specs) st = { st with listValues := lists } ∧
      ∀ k, lists.get k = if k = e.1 then some ((st.listValues.get e.1).getD [] ++ w :: ws)
        else st.listValues.get k := by
  induction ws generalizing w st with
  | nil =>
    have hw := hws w mem_cons_self
    refine ⟨_,?_,fun k => Dict.get_set⟩
    rw [map_singleton,foldl_cons,foldl_nil,parseSegment_part h hw.1,take_list hlist hw.2,h.key]
  | cons v ws ih =>
    have hw := hws w mem_cons_self
    obtain ⟨lists,hfold,hget⟩ := ih
      { st with listValues := st.listValues.set e.1 ((st.listValues.get e.1).getD [] ++ [w]) } v
      fun u hu => hws u (mem_cons_of_mem _ hu)
    refine ⟨lists,?_,?_⟩
    · rw [map_cons,foldl_cons,parseSegment_part h hw.1,take_list hlist hw.2,h.key]
      exact hfold
    · intro k
      rw [hget,Dict.get_set,Dict.get_set]
      by_cases hk : k = e.1
      · simp [hk]
      · simp [hk]

/-- Whether an entry is collected first. -/
def isListEntry (specs : List EngineParamSpec) (key : Str) : Bool :=
  ((specByName specs key).map EngineParamSpec.isList).getD false

def listPairs (specs : List EngineParamSpec) (es : List (Str × Coerced)) :
    List (Str × List Str) :=
  (es.filter fun e => isListEntry specs e.1).map fun e => (e.1, Text.split ',' e.2.str)

def plainPairs (specs : List EngineParamSpec) (es : List (Str × Coerced)) : List (Str × Coerced) :=
  es.filter fun e => !isListEntry specs e.1

theorem Renderable.isListEntry_eq (h : Renderable mode specs spec e) :
    isListEntry specs e.1 = spec.isList := by
  rw [isListEntry,h.found]
  rfl

theorem parse_entries (engine : Str) (st : ParseState) (es : List (Str × Coerced))
    (hes : ∀ e ∈ es, ∃ spec, Renderable mode specs spec e) (hnodup : (es.map Prod.fst).Nodup)
    (hfresh : ∀ e ∈ es, e.1 ∉ st.seen ∧ st.listValues.get e.1 = none) :
    ∃ lists seen, (es.flatMap (renderParam specs)).foldl (parseSegment mode engine specs) st =
        { st with result := st.result.update (plainPairs specs es), listValues := lists,
                  seen := seen } ∧
      ∀ k, lists.get k = (st.listValues.update (listPairs specs es)).get k := by
  induction es generalizing st with
  | nil => exact ⟨st.listValues,st.seen,rfl,fun k => rfl⟩
  | cons e es ih =>
    rw [map_cons,nodup_cons] at hnodup
    obtain ⟨spec,hspec⟩ := hes e mem_cons_self
    obtain ⟨hseen,hnone⟩ := hfresh e mem_cons_self
    have hother : ∀ e' ∈ es, e'.1 ≠ e.1 := fun e' he' heq =>
      hnodup.1 (mem_map.mpr ⟨e',he',heq⟩)
    have hrest := fun e' he' => hes e' (mem_cons_of_mem e he')
    rw [flatMap_cons,foldl_append]
    cases hlist : spec.isList with
    | false =>
      have hentry : isListEntry specs e.1 = false := hspec.isListEntry_eq.trans hlist
      rw [parse_plain hspec hlist hseen,plainPairs,listPairs,
        filter_cons_of_pos (by simp [hentry]),filter_cons_of_neg (by simp [hentry])]
      apply ih _ hrest hnodup.2
      intro e' he'
      refine ⟨?_,(hfresh e' (mem_cons_of_mem _ he')).2⟩
      rw [mem_append,mem_singleton,not_or]
      exact ⟨(hfresh e' (mem_cons_of_mem _ he')).1,hother e' he'⟩
    | true =>
      have hentry : isListEntry specs e.1 = true := hspec.isListEntry_eq.trans hlist
      obtain ⟨hvalues,-,hfree⟩ := rendered_list hspec.fixed hspec.wf hlist
      obtain ⟨w,ws,hsplit⟩ := exists_cons_of_ne_nil (Text.split_ne_nil ',' e.2.str)
      rw [hsplit] at hfree
      obtain ⟨lists,hfold,hget⟩ := parse_values engine st hspec hlist w ws hfree
      rw [hspec.renderParam_eq,hvalues,hsplit,hfold,plainPairs,listPairs,
        filter_cons_of_neg (by simp [hentry]),filter_cons_of_pos (by simp [hentry])]
      obtain ⟨lists',seen',hfold',hget'⟩ := ih { st with listValues := lists } hrest
        hnodup.2 (by
          intro e' he'
          refine ⟨(hfresh e' (mem_cons_of_mem _ he')).1,?_⟩
          rw [hget,if_neg (hother e' he')]
          exact (hfresh e' (mem_cons_of_mem _ he')).2)
      refine ⟨lists',seen',hfold',fun k => ?_⟩
      rw [hget' k,map_cons]
      apply Dict.get_update_congr
      intro k
      rw [hget,Dict.get_set,hnone,hsplit]
      rfl

theorem join_entries (es : List (Str × List Str))
    (hes : ∀ e ∈ es, ∃ spec, specByName specs e.1 = some spec ∧
      coerceEngineValue mode spec (Separated.join [','] e.2) =
        .ok (.text (Separated.join [','] e.2))) :
    es.foldl (joinListValues mode specs) st = { st with
      result := st.result.update (es.map fun e => (e.1, .text (Separated.join [','] e.2))) } := by
  induction es generalizing st with
  | nil => rfl
  | cons e es ih =>
    obtain ⟨spec,hfound,hcoerced⟩ := hes e mem_cons_self
    have hstep : joinListValues mode specs st e = { st with
        result := st.result.set e.1 (.text (Separated.join [','] e.2)) } := by
      rw [joinListValues,hfound]
      dsimp only
      rw [hcoerced]
      rfl
    rw [foldl_cons,hstep,ih fun e' he' => hes e' (mem_cons_of_mem _ he')]
    rfl

theorem keys_listPairs {es : List (Str × Coerced)} {k : Str}
    (h : k ∈ (listPairs specs es).map Prod.fst) : ∃ v, (k, v) ∈ es ∧ isListEntry specs k = true := by
  rw [listPairs,map_map,mem_map] at h
  obtain ⟨e,he,rfl⟩ := h
  obtain ⟨hin,hlist⟩ := mem_filter.mp he
  exact ⟨e.2,hin,hlist⟩

theorem Renderable.str_eq (h : Renderable mode specs spec e) (hlist : spec.isList = true) :
    e.2 = .text e.2.str := by
  have hcoerced := h.fixed.coerced
  rw [coerceEngineValue_eq_ok] at hcoerced
  obtain ⟨hpage,hstr⟩ := h.wf.list hlist
  generalize hs : e.2.str = s at hcoerced
  generalize hv : e.2 = v at hcoerced
  cases hcoerced.2 with
  | bool hkind hb => exact absurd (hstr.symm.trans hkind) (by simp)
  | enum hkind hin => rfl
  | text hkind hne hl => rfl
  | pages hkind hne hl hvalid =>
    rw [hv] at hs
    exact congrArg Coerced.text hs

section Pairs

variable {es : List (Str × Coerced)} {k : Str} {v : Coerced}

theorem get_listPairs (hnodup : (es.map Prod.fst).Nodup) (h : (k, v) ∈ es)
    (hlist : isListEntry specs k = true) :
    ((Dict.empty : Dict Str (List Str)).update (listPairs specs es)).get k =
      some (Text.split ',' v.str) := by
  apply Dict.get_update_of_mem
  · rw [listPairs,map_map]
    exact hnodup.sublist (filter_sublist.map Prod.fst)
  · exact mem_map.mpr ⟨(k, v),mem_filter.mpr ⟨h,hlist⟩,rfl⟩

theorem get_listPairs_none (h : ∀ v, (k, v) ∈ es → isListEntry specs k = false) :
    ((Dict.empty : Dict Str (List Str)).update (listPairs specs es)).get k = none := by
  rw [Dict.get_update_of_not_mem]
  · rfl
  · intro hkey
    obtain ⟨v,hv,hlist⟩ := keys_listPairs hkey
    rw [h v hv] at hlist
    cases hlist

theorem get_plainPairs (hnodup : (es.map Prod.fst).Nodup) (h : (k, v) ∈ es)
    (hlist : isListEntry specs k = false) :
    ((Dict.empty : Params).update (plainPairs specs es)).get k = some v := by
  apply Dict.get_update_of_mem
  · exact hnodup.sublist (filter_sublist.map Prod.fst)
  · exact mem_filter.mpr ⟨h,by simp [hlist]⟩

theorem get_plainPairs_none (h : ∀ v, (k, v) ∉ es) :
    ((Dict.empty : Params).update (plainPairs specs es)).get k = none := by
  rw [Dict.get_update_of_not_mem]
  · rfl
  · intro hkey
    obtain ⟨e,he,rfl⟩ := mem_map.mp hkey
    exact h e.2 (mem_of_mem_filter he)

end Pairs

theorem chars_of_part (h : Renderable mode specs spec e) {part : Str}
    (hpart : part ∈ renderParam specs e) : part ≠ [] ∧ ∀ c ∈ part, c ∉ [',', '(', ')'] := by
  have hplain : ∀ c ∈ e.1, c ∉ [',', '(', ')'] := by
    intro c hc hin
    apply h.plain c hc
    simp only [mem_cons] at hin ⊢
    tauto
  have hfree : ∀ w ∈ renderedValues spec e.2, Free w := by
    cases hlist : spec.isList with
    | false =>
      obtain ⟨w,hw,-,hfree,-⟩ :=
        rendered_plain h.fixed h.wf hlist fun hkind => h.free hkind hlist
      rw [hw]
      intro u hu
      rwa [mem_singleton.mp hu]
    | true =>
      obtain ⟨hvalues,-,hsegments⟩ := rendered_list h.fixed h.wf hlist
      rw [hvalues]
      intro u hu
      exact (hsegments u hu).2
  rw [h.renderParam_eq,mem_map] at hpart
  obtain ⟨w,hw,rfl⟩ := hpart
  constructor
  · simp
  · intro c hc
    rcases mem_append.mp hc with hc | hc
    · exact hplain c hc
    · rcases mem_cons.mp hc with rfl | hc
      · decide
      · intro hin
        apply hfree w hw c hc
        simp only [valueForbidden,mem_cons] at hin ⊢
        tauto

theorem renderParam_ne_nil (hfound : specByName specs e.1 = some spec) :
    renderParam specs e ≠ [] := by
  have hvalues : renderedValues spec e.2 ≠ [] := by
    unfold renderedValues
    split
    · exact Text.split_ne_nil _ _
    · split <;> simp
  rw [renderParam,hfound]
  simpa using hvalues

section Rendered

variable {params : Params}

theorem perm_sortedParams : (sortedParams params).Perm params.entries := perm_insertionSort _ _

theorem nodup_sortedParams : ((sortedParams params).map Prod.fst).Nodup :=
  (perm_sortedParams.map Prod.fst).nodup_iff.mpr params.nodup

theorem parts_of_entries (hparams : ∀ e ∈ params.entries, ∃ spec, Renderable mode specs spec e) :
    ∀ part ∈ (sortedParams params).flatMap (renderParam specs),
      part ≠ [] ∧ ∀ c ∈ part, c ∉ [',', '(', ')'] := by
  intro part hpart
  obtain ⟨e,he,hin⟩ := mem_flatMap.mp hpart
  obtain ⟨spec,hspec⟩ := hparams e (perm_sortedParams.mem_iff.mp he)
  exact chars_of_part hspec hin

theorem parts_ne_nil (hparams : ∀ e ∈ params.entries, ∃ spec, Renderable mode specs spec e)
    (hne : params.entries ≠ []) : (sortedParams params).flatMap (renderParam specs) ≠ [] := by
  obtain ⟨e,he⟩ := exists_mem_of_ne_nil _ hne
  obtain ⟨spec,hspec⟩ := hparams e he
  obtain ⟨part,hpart⟩ := exists_mem_of_ne_nil _ (renderParam_ne_nil hspec.found)
  exact ne_nil_of_mem
    (mem_flatMap.mpr ⟨e,perm_sortedParams.mem_iff.mpr he,hpart⟩)

def block (specs : List EngineParamSpec) (params : Params) : Str :=
  Separated.join [','] ((sortedParams params).flatMap (renderParam specs))

theorem block_flat (hparams : ∀ e ∈ params.entries, ∃ spec, Renderable mode specs spec e) :
    ∀ c ∈ block specs params, c ∉ ['(', ')'] := by
  intro c hc
  rcases mem_join hc with hc | ⟨part,hpart,hc⟩
  · obtain rfl := mem_singleton.mp hc
    decide
  · intro hin
    apply (parts_of_entries hparams part hpart).2 c hc
    tauto

theorem parse_block (hspecs : engineParamSpecs engine = some specs)
    (hparams : ∀ e ∈ params.entries, ∃ spec, Renderable mode specs spec e)
    (hne : params.entries ≠ []) :
    (∀ k, (parseEngineParams mode (block specs params) engine).1.get k = params.get k) ∧
      (parseEngineParams mode (block specs params) engine).2 = [] := by
  have hnodup : ((sortedParams params).map Prod.fst).Nodup := nodup_sortedParams
  have hwritten : ∀ e ∈ sortedParams params, ∃ spec, Renderable mode specs spec e :=
    fun e he => hparams e (perm_sortedParams.mem_iff.mp he)
  have hsegments : splitTopLevel [','] 0 (block specs params) =
      (sortedParams params).flatMap (renderParam specs) := by
    rw [splitTopLevel_flat (block_flat hparams),block,
      split_join (parts_ne_nil hparams hne) fun part hpart hc =>
        (parts_of_entries hparams part hpart).2 ',' hc (by decide)]
  obtain ⟨lists,seen,hfold,hlists⟩ := parse_entries engine .init
    (sortedParams params) hwritten hnodup fun e he => ⟨not_mem_nil,rfl⟩
  have hlists : ∀ k, lists.get k =
      ((Dict.empty : Dict Str (List Str)).update (listPairs specs (sortedParams params))).get k :=
    hlists
  have hjoined : ∀ e ∈ lists.entries, ∃ spec, specByName specs e.1 = some spec ∧
      coerceEngineValue mode spec (Separated.join [','] e.2) =
        .ok (.text (Separated.join [','] e.2)) := by
    intro e he
    have hget := Dict.get_eq_some.mpr he
    rw [hlists] at hget
    have hkey : e.1 ∈ (listPairs specs (sortedParams params)).map Prod.fst := by
      by_contra hnot
      rw [Dict.get_update_of_not_mem hnot] at hget
      cases hget
    obtain ⟨v,hv,hlist⟩ := keys_listPairs hkey
    obtain ⟨spec,hspec⟩ := hwritten _ hv
    have hvalues : e.2 = Text.split ',' v.str :=
      (Option.some.inj ((get_listPairs hnodup hv hlist).symm.trans hget)).symm
    have hislist : spec.isList = true := hspec.isListEntry_eq.symm.trans hlist
    refine ⟨spec,hspec.found,?_⟩
    rw [hvalues,(rendered_list hspec.fixed hspec.wf hislist).2.1,hspec.fixed.coerced]
    exact congrArg Except.ok (hspec.str_eq hislist)
  unfold parseEngineParams
  rw [hspecs]
  dsimp only
  rw [hsegments,hfold]
  rw [join_entries lists.entries hjoined]
  refine ⟨fun k => ?_,rfl⟩
  have hresult := Dict.get_update_entries (k := k)
    (d := (Dict.empty : Params).update (plainPairs specs (sortedParams params))) lists
    fun vs => .text (Separated.join [','] vs)
  refine hresult.trans ?_
  rw [hlists]
  cases hget : params.get k with
  | none =>
    have hnot : ∀ v, (k, v) ∉ sortedParams params := by
      intro v hv
      rw [Dict.get_eq_some.mpr (perm_sortedParams.mem_iff.mp hv)] at hget
      cases hget
    rw [get_listPairs_none fun v hv => absurd hv (hnot v),get_plainPairs_none hnot]
    rfl
  | some v =>
    have hv : (k, v) ∈ sortedParams params :=
      perm_sortedParams.mem_iff.mpr (Dict.get_eq_some.mp hget)
    obtain ⟨spec,hspec⟩ := hwritten _ hv
    cases hislist : spec.isList with
    | true =>
      rw [get_listPairs hnodup hv (hspec.isListEntry_eq.trans hislist),Option.map_some,
        (rendered_list hspec.fixed hspec.wf hislist).2.1]
      exact congrArg some (hspec.str_eq hislist).symm
    | false =>
      have hlist : isListEntry specs k = false := hspec.isListEntry_eq.trans hislist
      rw [get_listPairs_none fun _ _ => hlist,get_plainPairs hnodup hv hlist]
      rfl

end Rendered

end EngineParams

end LightRAG
