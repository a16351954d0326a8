import LightRAG.Storage.SchedulingSweeps

/-!
# Pages of the two scheduling sweeps

Both pages consume the rows with the smallest keys among those that the sweep has ahead.
-/

namespace LightRAG.SchedulingSweeps
open List Function

open RedisSidecar (DocId splitMember)
open Smallest (Ascending smallest)

instance (cursor : Cursor Key) (key : Key) : Decidable (cursor.JsonAhead key) :=
  match cursor with
  | .start => isTrue trivial
  | .after last => inferInstanceAs (Decidable (Before (some last) key))
  | .finish => isFalse id

instance (cursor : Cursor Positions) (status : DocStatus) (member : String) :
    Decidable (cursor.RedisAhead status member) :=
  match cursor with
  | .start => isTrue trivial
  | .after positions => inferInstanceAs (Decidable (Before (positions status) member))
  | .finish => isFalse id

def entryKey (e : DocId × Row) : Key := sortKey e.1 e.2

def aheadRows (data : Dict DocId Row) (statuses : List DocStatus) (cursor : Cursor Key) :
    List (DocId × Row) :=
  data.entries.filter fun e => e.2.status ∈ statuses ∧ cursor.JsonAhead (entryKey e)

def chosen (data : Dict DocId Row) (statuses : List DocStatus) (cursor : Cursor Key) (limit : ℕ) :
    List (DocId × Row) :=
  smallest entryKey limit (aheadRows data statuses cursor)

def jsonNext (limit : ℕ) (rows : List (DocId × Row)) : Cursor Key :=
  if rows.length < limit then .finish
  else
    match rows.getLast? with
    | some e => .after (entryKey e)
    | none => .finish

section

variable {data : Dict DocId Row} {statuses : List DocStatus} {cursor : Cursor Key}
  {key key' : Key} {limit : ℕ} {e e' : DocId × Row} {docs : Dict DocId DocSchedulingRecord}

theorem entry_eq_of_key (he : e ∈ data.entries) (he' : e' ∈ data.entries)
    (h : entryKey e = entryKey e') : e = e' := by
  have hid : e.1 = e'.1 := (Prod.mk.inj (toLex.injective h)).2
  have hrow := Dict.get_eq_some.mpr (show (e.1, e.2) ∈ data.entries from he)
  have hrow' := Dict.get_eq_some.mpr (show (e'.1, e'.2) ∈ data.entries from he')
  rw [hid,hrow'] at hrow
  exact Prod.ext hid (Option.some.inj hrow).symm

theorem mem_aheadRows : e ∈ aheadRows data statuses cursor ↔
    e ∈ data.entries ∧ e.2.status ∈ statuses ∧ cursor.JsonAhead (entryKey e) := by
  rw [aheadRows,mem_filter,decide_eq_true_eq]

theorem aheadRows_nil (h : statuses = [] ∨ cursor = .finish) :
    aheadRows data statuses cursor = [] := by
  obtain rfl | rfl := h
  · simp [aheadRows]
  · simp [aheadRows,Cursor.JsonAhead]

theorem nodup_keys_aheadRows : ((aheadRows data statuses cursor).map entryKey).Nodup := by
  have hentries : data.entries.Nodup := List.Nodup.of_map _ data.nodup
  apply List.Nodup.map_on _ (hentries.filter _)
  intro e he e' he' heq
  exact entry_eq_of_key (mem_aheadRows.mp he).1 (mem_aheadRows.mp he').1 heq

theorem chosen_nil (h : statuses = [] ∨ cursor = .finish) :
    chosen data statuses cursor limit = [] := by
  rw [chosen,aheadRows_nil h]
  simp [smallest,Smallest.sorted]

theorem mem_chosen_aheadRows (h : e ∈ chosen data statuses cursor limit) :
    e ∈ aheadRows data statuses cursor := Smallest.mem_of_mem_smallest h

theorem ascending_chosen : Ascending entryKey (chosen data statuses cursor limit) :=
  Smallest.ascending_smallest nodup_keys_aheadRows limit

theorem lt_of_not_mem_chosen (h : e ∈ chosen data statuses cursor limit)
    (he' : e' ∈ aheadRows data statuses cursor) (hnot : e' ∉ chosen data statuses cursor limit) :
    entryKey e < entryKey e' := by
  by_contra hge
  obtain hlt | heq := lt_or_eq_of_le (not_lt.mp hge)
  · exact hnot (Smallest.mem_smallest_of_lt nodup_keys_aheadRows h he' hlt)
  · have hin := mem_aheadRows.mp (mem_chosen_aheadRows h)
    have hsame := entry_eq_of_key (mem_aheadRows.mp he').1 hin.1 heq
    exact hnot (hsame ▸ h)

theorem nodup_ids_chosen : ((chosen data statuses cursor limit).map Prod.fst).Nodup := by
  apply List.Nodup.map_on _ ascending_chosen.nodup
  intro e he e' he' heq
  have hin := (mem_aheadRows.mp (mem_chosen_aheadRows he)).1
  have hin' := (mem_aheadRows.mp (mem_chosen_aheadRows he')).1
  have hrow := Dict.get_eq_some.mpr (show (e.1, e.2) ∈ data.entries from hin)
  have hrow' := Dict.get_eq_some.mpr (show (e'.1, e'.2) ∈ data.entries from hin')
  rw [heq,hrow'] at hrow
  exact Prod.ext heq (Option.some.inj hrow).symm

theorem entries_collectDocs {rows : List (DocId × Row)}
    (hrows : ∀ e ∈ rows, data.get e.1 = some e.2) (hnd : (rows.map Prod.fst).Nodup)
    (hnew : ∀ e ∈ rows, e.1 ∉ docs.keys) :
    (collectDocs data docs (rows.map Prod.fst)).entries =
      docs.entries ++ rows.map fun e => (e.1, schedulingRecord e.1 e.2) := by
  induction rows generalizing docs with
  | nil => simp [collectDocs]
  | cons e rows ih =>
    rw [map_cons,nodup_cons] at hnd
    have hkey : e.1 ∉ docs.keys := hnew e mem_cons_self
    have hentries : (docs.set e.1 (schedulingRecord e.1 e.2)).entries =
        docs.entries ++ [(e.1, schedulingRecord e.1 e.2)] := by
      rw [Dict.set,dif_neg hkey]
    rw [map_cons,collectDocs,hrows e mem_cons_self]
    rw [ih (fun e he => hrows e (mem_cons_of_mem _ he)) hnd.2,hentries]
    · simp
    · intro e' he'
      rw [Dict.keys_set,if_neg hkey,mem_append,mem_singleton,not_or]
      refine ⟨hnew e' (mem_cons_of_mem _ he'),?_⟩
      intro heq
      exact hnd.1 (heq ▸ mem_map_of_mem he')

theorem docs_chosen : ((collectDocs data .empty
    ((chosen data statuses cursor limit).map Prod.fst)).entries.map Prod.snd) =
      (chosen data statuses cursor limit).map fun e => schedulingRecord e.1 e.2 := by
  rw [entries_collectDocs _ nodup_ids_chosen]
  · simp [Dict.empty]
  · simp [Dict.empty,Dict.keys]
  · intro e he
    exact Dict.get_eq_some.mpr (mem_aheadRows.mp (mem_chosen_aheadRows he)).1

theorem jsonPage_eq (hlimit : limit ≠ 0) : jsonPage data statuses limit cursor =
    some ⟨collectDocs data .empty ((chosen data statuses cursor limit).map Prod.fst),
      jsonNext limit (chosen data statuses cursor limit)⟩ := by
  have hnothing : statuses = [] ∨ cursor = .finish →
      some ⟨.empty,.finish⟩ = some (Page.mk (collectDocs data .empty
        ((chosen data statuses cursor limit).map Prod.fst))
        (jsonNext limit (chosen data statuses cursor limit))) := by
    intro hnil
    rw [chosen_nil hnil,jsonNext,length_nil,if_pos (Nat.pos_of_ne_zero hlimit)]
    rfl
  unfold jsonPage
  rw [if_neg hlimit]
  by_cases hempty : statuses = []
  · rw [if_pos (.inl hempty)]
    exact hnothing (.inl hempty)
  · cases cursor with
    | start =>
      rw [if_neg (by simp [hempty,Cursor.isFinish])]
      simp only [jsonSelected,jsonCandidates,chosen,aheadRows,Before,Cursor.JsonAhead,
        reduceCtorEq,false_implies,implies_true]
      rfl
    | after last =>
      rw [if_neg (by simp [hempty,Cursor.isFinish])]
      rfl
    | finish =>
      rw [if_pos (.inr rfl)]
      exact hnothing (.inr rfl)

theorem jsonNext_chosen (hlimit : limit ≠ 0) :
    (jsonNext limit (chosen data statuses cursor limit) = .finish ∧
      (chosen data statuses cursor limit).length < limit) ∨
    ∃ last ∈ chosen data statuses cursor limit,
      (∀ e ∈ chosen data statuses cursor limit, entryKey e ≤ entryKey last) ∧
      jsonNext limit (chosen data statuses cursor limit) = .after (entryKey last) := by
  unfold jsonNext
  by_cases hshort : (chosen data statuses cursor limit).length < limit
  · rw [if_pos hshort]
    exact .inl ⟨rfl,hshort⟩
  · rw [if_neg hshort]
    right
    have hasc := @ascending_chosen data statuses cursor limit
    cases hlast : (chosen data statuses cursor limit).getLast? with
    | none =>
      rw [List.getLast?_eq_none_iff] at hlast
      rw [hlast,length_nil] at hshort
      omega
    | some last =>
      obtain ⟨front,hfront⟩ := List.getLast?_eq_some_iff.mp hlast
      refine ⟨last,by simp [hfront],?_,rfl⟩
      rw [hfront,Ascending,pairwise_append] at hasc
      intro e he
      rw [hfront,mem_append,mem_singleton] at he
      obtain he | rfl := he
      · exact (hasc.2.2 e he last (by simp)).le
      · exact le_rfl

theorem jsonAhead_of_next (hlimit : limit ≠ 0)
    (h : (jsonNext limit (chosen data statuses cursor limit)).JsonAhead key) :
    cursor.JsonAhead key := by
  obtain ⟨hnext,-⟩ | ⟨last,hlast,-,hnext⟩ :=
    @jsonNext_chosen data statuses cursor limit hlimit
  · rw [hnext] at h
    exact h.elim
  · rw [hnext] at h
    have hlt : entryKey last < key := h _ rfl
    have hahead := (mem_aheadRows.mp (mem_chosen_aheadRows hlast)).2.2
    cases cursor with
    | start => trivial
    | after position =>
      rintro _ ⟨⟩
      exact (hahead position rfl).trans hlt
    | finish => exact hahead

theorem jsonNext_ahead (hlimit : limit ≠ 0) (he : e ∈ data.entries)
    (hstatus : e.2.status ∈ statuses) :
    (jsonNext limit (chosen data statuses cursor limit)).JsonAhead (entryKey e) ↔
      cursor.JsonAhead (entryKey e) ∧ e ∉ chosen data statuses cursor limit := by
  constructor
  · intro h
    refine ⟨jsonAhead_of_next hlimit h,?_⟩
    intro hin
    obtain ⟨hnext,-⟩ | ⟨last,hlast,hmax,hnext⟩ :=
      @jsonNext_chosen data statuses cursor limit hlimit
    · rw [hnext] at h
      exact h
    · rw [hnext] at h
      exact absurd (h _ rfl) (not_lt.mpr (hmax e hin))
  · rintro ⟨hahead,hnot⟩
    have hrow : e ∈ aheadRows data statuses cursor := mem_aheadRows.mpr ⟨he,hstatus,hahead⟩
    obtain ⟨-,hshort⟩ | ⟨last,hlast,-,hnext⟩ :=
      @jsonNext_chosen data statuses cursor limit hlimit
    · exact absurd (Smallest.smallest_of_length_lt hshort hrow) hnot
    · rw [hnext]
      rintro _ ⟨⟩
      exact lt_of_not_mem_chosen hlast hrow hnot

end

section

variable {timestamps : Set String} {data : Dict DocId Row} {r : RedisStore}
  {statuses : List DocStatus} {positions : Positions} {cursor : Cursor Key} {limit : ℕ}
  {status : DocStatus} {member : String} {x : String × DocStatus}
  {window : List (String × DocStatus)}

def streamEntry (e : DocId × Row) : String × DocStatus := (e.2.member e.1, e.2.status)

def RedisStore.stream (r : RedisStore) (positions : Positions) (status : DocStatus) :
    List (String × DocStatus) :=
  ((r.zset status).filter fun m => Before (positions status) m).map fun m => (m, status)

namespace RedisStore

theorem Indexed.ascending_stream (h : r.Indexed timestamps) :
    Ascending Prod.fst (r.stream positions status) := by
  rw [Ascending,stream,pairwise_map]
  exact (h.ascending status).filter _

theorem Indexed.prefetch_eq (h : r.Indexed timestamps) :
    r.prefetch positions limit status = smallest Prod.fst limit (r.stream positions status) := by
  rw [smallest,Smallest.sorted_of_ascending h.ascending_stream,prefetch,zrangebylex,stream,map_take]

theorem mem_stream : x ∈ r.stream positions status ↔
    x.2 = status ∧ x.1 ∈ r.zset status ∧ Before (positions status) x.1 := by
  simp only [stream,mem_map,mem_filter,decide_eq_true_eq]
  constructor
  · rintro ⟨m,⟨hmem,hbefore⟩,rfl⟩
    exact ⟨rfl,hmem,hbefore⟩
  · rintro ⟨rfl,hmem,hbefore⟩
    exact ⟨x.1,⟨hmem,hbefore⟩,rfl⟩

theorem Indexed.mem_streams (h : r.Indexed timestamps)
    (hahead : ∀ e ∈ r.rows.entries, e.2.status ∈ statuses →
      (cursor.JsonAhead (entryKey e) ↔ Before (positions e.2.status) (e.2.member e.1))) :
    x ∈ statuses.dedup.flatMap (r.stream positions) ↔
      x ∈ (aheadRows r.rows statuses cursor).map streamEntry := by
  simp only [mem_flatMap,List.mem_dedup,mem_stream,h.mirror,mem_map,mem_aheadRows]
  constructor
  · rintro ⟨status,hstatus,rfl,⟨id,row,hrow,hrow',hmember⟩,hbefore⟩
    have hin := Dict.get_eq_some.mp hrow
    rw [← hrow'] at hstatus hbefore
    rw [← hmember] at hbefore
    exact ⟨(id, row),⟨hin,hstatus,(hahead _ hin hstatus).mpr hbefore⟩,Prod.ext hmember hrow'⟩
  · rintro ⟨e,⟨hin,hstatus,hkey⟩,rfl⟩
    exact ⟨e.2.status,hstatus,rfl,⟨e.1,e.2,Dict.get_eq_some.mpr hin,rfl,rfl⟩,
      (hahead e hin hstatus).mp hkey⟩

theorem Indexed.member_lt (hf : Format timestamps) (h : r.Indexed timestamps)
    {e e' : DocId × Row} (he : e ∈ r.rows.entries) (he' : e' ∈ r.rows.entries)
    (hlt : entryKey e < entryKey e') : e.2.member e.1 < e'.2.member e'.1 :=
  hf.member_lt (h.format _ _ (Dict.get_eq_some.mpr he)) (h.format _ _ (Dict.get_eq_some.mpr he'))
    hlt

theorem Indexed.nodup_streams (hf : Format timestamps) (h : r.Indexed timestamps) :
    ((statuses.dedup.flatMap (r.stream positions)).map Prod.fst).Nodup := by
  rw [map_flatMap,nodup_flatMap]
  constructor
  · intro status _
    exact pairwise_map.mpr (h.ascending_stream.imp fun hlt => hlt.ne)
  · apply (List.nodup_dedup statuses).imp
    intro status status' hne member hmem hmem'
    simp only [mem_map,mem_stream] at hmem hmem'
    obtain ⟨x,⟨-,hx,-⟩,rfl⟩ := hmem
    obtain ⟨x',⟨-,hx',-⟩,heq⟩ := hmem'
    obtain ⟨id,row,hrow,hstatus,hmember⟩ := (h.mirror _ _).mp hx
    obtain ⟨id',row',hrow',hstatus',hmember'⟩ := (h.mirror _ _).mp hx'
    have hid := hf.member_inj (h.format _ _ hrow) (h.format _ _ hrow')
      ((hmember.trans heq.symm).trans hmember'.symm)
    subst hid
    rw [hrow] at hrow'
    obtain rfl := Option.some.inj hrow'
    exact hne (hstatus.symm.trans hstatus')

theorem Indexed.window_eq (hf : Format timestamps) (h : r.Indexed timestamps)
    (hahead : ∀ e ∈ r.rows.entries, e.2.status ∈ statuses →
      (cursor.JsonAhead (entryKey e) ↔ Before (positions e.2.status) (e.2.member e.1))) :
    r.window statuses positions limit =
      (chosen r.rows statuses cursor limit).map streamEntry := by
  have horder : ∀ e ∈ aheadRows r.rows statuses cursor,
      ∀ e' ∈ aheadRows r.rows statuses cursor, entryKey e < entryKey e' →
      (streamEntry e).1 < (streamEntry e').1 := by
    intro e he e' he' hlt
    exact h.member_lt hf (mem_aheadRows.mp he).1 (mem_aheadRows.mp he').1 hlt
  have hnd : (((aheadRows r.rows statuses cursor).map streamEntry).map Prod.fst).Nodup := by
    rw [map_map]
    have hentries : (aheadRows r.rows statuses cursor).Nodup :=
      List.Nodup.of_map _ nodup_keys_aheadRows
    apply List.Nodup.map_on _ hentries
    intro e he e' he' heq
    by_contra hne
    have hkey : entryKey e ≠ entryKey e' := fun hkey =>
      hne (entry_eq_of_key (mem_aheadRows.mp he).1 (mem_aheadRows.mp he').1 hkey)
    obtain hlt | hlt := lt_or_gt_of_ne hkey
    · exact (horder e he e' he' hlt).ne heq
    · exact (horder e' he' e he hlt).ne heq.symm
  have hprefetch : r.prefetch positions limit =
      fun status => smallest Prod.fst limit (r.stream positions status) :=
    funext fun _ => h.prefetch_eq
  rw [window,hprefetch,Smallest.smallest_flatMap (h.nodup_streams hf),
    Smallest.smallest_congr (h.nodup_streams hf) hnd (fun x => h.mem_streams hahead),
    Smallest.smallest_map nodup_keys_aheadRows horder]
  rfl

theorem before_advance (hasc : Ascending Prod.fst window)
    (hafter : ∀ x ∈ window, Before (positions x.2) x.1) :
    Before (advance positions window status) member ↔
      Before (positions status) member ∧ ∀ x ∈ window, x.2 = status → x.1 < member := by
  induction window generalizing positions with
  | nil => simp [advance]
  | cons x window ih =>
    obtain ⟨hfirst,hrest⟩ := pairwise_cons.mp hasc
    have hafter' : ∀ y ∈ window, Before (Function.update positions x.2 (some x.1) y.2) y.1 := by
      intro y hy
      by_cases hstatus : y.2 = x.2
      · rw [hstatus,update_self]
        rintro _ ⟨⟩
        exact hfirst y hy
      · rw [update_of_ne hstatus]
        exact hafter y (mem_cons_of_mem _ hy)
    rw [advance,ih hrest hafter',forall_mem_cons]
    by_cases hstatus : status = x.2
    · subst hstatus
      rw [update_self]
      constructor
      · rintro ⟨hlt,hall⟩
        have hlt : x.1 < member := hlt _ rfl
        refine ⟨?_,fun _ => hlt,hall⟩
        intro last hlast
        exact (hafter x mem_cons_self last hlast).trans hlt
      · rintro ⟨-,hlt,hall⟩
        refine ⟨?_,hall⟩
        rintro _ ⟨⟩
        exact hlt rfl
    · rw [update_of_ne hstatus]
      constructor
      · rintro ⟨hbefore,hall⟩
        exact ⟨hbefore,fun heq => absurd heq.symm hstatus,hall⟩
      · rintro ⟨hbefore,-,hall⟩
        exact ⟨hbefore,hall⟩

theorem Indexed.mem_window_status (h : r.Indexed timestamps)
    (hx : x ∈ r.window statuses positions limit) :
    x.2 ∈ statuses ∧ x ∈ r.prefetch positions limit x.2 := by
  have hin := Smallest.mem_of_mem_smallest hx
  rw [mem_flatMap] at hin
  obtain ⟨status,hstatus,hmem⟩ := hin
  have hsame : x.2 = status := by
    rw [h.prefetch_eq] at hmem
    exact (mem_stream.mp (Smallest.mem_of_mem_smallest hmem)).1
  subst hsame
  exact ⟨List.mem_dedup.mp hstatus,hmem⟩

theorem Indexed.nodup_prefetch (h : r.Indexed timestamps) :
    (r.prefetch positions limit status).Nodup := by
  rw [h.prefetch_eq]
  apply @Ascending.nodup _ _ _ Prod.fst
  apply Smallest.ascending_smallest
  exact pairwise_map.mpr (h.ascending_stream.imp fun hlt => hlt.ne)

theorem Indexed.nodup_window (hf : Format timestamps) (h : r.Indexed timestamps) :
    (r.window statuses positions limit).Nodup := by
  have hprefetch : r.prefetch positions limit =
      fun status => smallest Prod.fst limit (r.stream positions status) :=
    funext fun _ => h.prefetch_eq
  rw [window,hprefetch]
  apply @Ascending.nodup _ _ _ Prod.fst
  exact Smallest.ascending_smallest (Smallest.nodup_flatMap_smallest (h.nodup_streams hf) limit) _

theorem Indexed.exhausted_iff (hf : Format timestamps) (h : r.Indexed timestamps) :
    r.exhausted statuses positions limit = true ↔ ∀ status ∈ statuses,
      (r.prefetch positions limit status).length < limit ∧
        ∀ x ∈ r.prefetch positions limit status, x ∈ r.window statuses positions limit := by
  unfold exhausted
  rw [all_eq_true]
  apply forall₂_congr
  intro status hstatus
  rw [Bool.and_eq_true,decide_eq_true_eq,decide_eq_true_eq,countP_eq_length_filter]
  apply and_congr_right
  intro _
  have hsub : ∀ x ∈ (r.window statuses positions limit).filter fun e => e.2 = status,
      x ∈ r.prefetch positions limit status := by
    intro x hx
    rw [mem_filter,decide_eq_true_eq] at hx
    exact hx.2 ▸ (h.mem_window_status hx.1).2
  have hwindow : (r.window statuses positions limit).Nodup := h.nodup_window hf
  have hnd := hwindow.filter fun e => decide (e.2 = status)
  have hperm := subperm_of_subset hnd hsub
  constructor
  · intro heq x hx
    rw [← (hperm.perm_of_length_le heq.ge).mem_iff,mem_filter] at hx
    exact hx.1
  · intro hall
    apply Nat.le_antisymm hperm.length_le
    apply (subperm_of_subset h.nodup_prefetch _).length_le
    intro x hx
    rw [h.prefetch_eq] at hx
    have hsame := (mem_stream.mp (Smallest.mem_of_mem_smallest hx)).1
    rw [← h.prefetch_eq] at hx
    rw [mem_filter,decide_eq_true_eq]
    exact ⟨hall x hx,hsame⟩

def next (r : RedisStore) (statuses : List DocStatus) (positions : Positions) (limit : ℕ) :
    Cursor Positions :=
  if r.exhausted statuses positions limit then .finish
  else .after (advance positions (r.window statuses positions limit))

theorem Indexed.next_ahead (hf : Format timestamps) (h : r.Indexed timestamps)
    (hahead : ∀ e ∈ r.rows.entries, e.2.status ∈ statuses →
      (cursor.JsonAhead (entryKey e) ↔ Before (positions e.2.status) (e.2.member e.1)))
    {e : DocId × Row} (he : e ∈ r.rows.entries) (hstatus : e.2.status ∈ statuses) :
    (r.next statuses positions limit).RedisAhead e.2.status (e.2.member e.1) ↔
      cursor.JsonAhead (entryKey e) ∧ e ∉ chosen r.rows statuses cursor limit := by
  have hwindow : r.window statuses positions limit =
      (chosen r.rows statuses cursor limit).map streamEntry := h.window_eq hf hahead
  have hrow : ∀ e' ∈ chosen r.rows statuses cursor limit, e' ∈ r.rows.entries :=
    fun e' he' => (mem_aheadRows.mp (mem_chosen_aheadRows he')).1
  unfold next
  split
  · rename_i hexhausted
    rw [h.exhausted_iff hf] at hexhausted
    obtain ⟨hshort,hall⟩ := hexhausted e.2.status hstatus
    simp only [Cursor.RedisAhead,false_iff,not_and,not_not]
    intro hkey
    have hstream : streamEntry e ∈ r.stream positions e.2.status :=
      mem_stream.mpr ⟨rfl,(h.mirror _ _).mpr ⟨e.1,e.2,Dict.get_eq_some.mpr he,rfl,rfl⟩,
        (hahead e he hstatus).mp hkey⟩
    rw [h.prefetch_eq] at hshort hall
    have hin := hall _ (Smallest.smallest_of_length_lt hshort hstream)
    rw [hwindow] at hin
    obtain ⟨e',he',heq⟩ := mem_map.mp hin
    have hid := hf.member_inj (h.format _ _ (Dict.get_eq_some.mpr (hrow e' he')))
      (h.format _ _ (Dict.get_eq_some.mpr he)) (Prod.mk.inj heq).1
    have hget := Dict.get_eq_some.mpr (show (e'.1, e'.2) ∈ r.rows.entries from hrow e' he')
    rw [hid,Dict.get_eq_some.mpr (show (e.1, e.2) ∈ r.rows.entries from he)] at hget
    have hsame : e' = e := Prod.ext hid (Option.some.inj hget).symm
    exact hsame ▸ he'
  · have hasc : Ascending Prod.fst (r.window statuses positions limit) := by
      rw [hwindow,Ascending,pairwise_map]
      apply ascending_chosen.imp_of_mem
      intro a b ha hb hlt
      exact h.member_lt hf (hrow a ha) (hrow b hb) hlt
    have hafter : ∀ x ∈ r.window statuses positions limit, Before (positions x.2) x.1 := by
      rw [hwindow,forall_mem_map]
      intro e' he'
      obtain ⟨hin,hswept,hkey⟩ := mem_aheadRows.mp (mem_chosen_aheadRows he')
      exact (hahead e' hin hswept).mp hkey
    simp only [Cursor.RedisAhead]
    rw [before_advance hasc hafter,hahead e he hstatus,hwindow,forall_mem_map]
    apply and_congr_right
    intro hbefore
    constructor
    · intro hall hin
      exact lt_irrefl _ (hall e hin rfl)
    · intro hnot e' he' _
      have hahead' : e ∈ aheadRows r.rows statuses cursor :=
        mem_aheadRows.mpr ⟨he,hstatus,(hahead e he hstatus).mpr hbefore⟩
      exact h.member_lt hf (hrow e' he') he (lt_of_not_mem_chosen he' hahead' hnot)

theorem Indexed.next_finish (hf : Format timestamps) (h : r.Indexed timestamps)
    (hahead : ∀ e ∈ r.rows.entries, e.2.status ∈ statuses →
      (cursor.JsonAhead (entryKey e) ↔ Before (positions e.2.status) (e.2.member e.1)))
    (hshort : (chosen r.rows statuses cursor limit).length < limit) :
    r.next statuses positions limit = .finish := by
  unfold next
  rw [if_pos]
  rw [h.exhausted_iff hf]
  have hlength : (r.window statuses positions limit).length < limit := by
    rw [h.window_eq hf hahead,length_map]
    exact hshort
  intro status hstatus
  have hsub : ∀ x ∈ r.prefetch positions limit status, x ∈ r.window statuses positions limit := by
    intro x hx
    apply Smallest.smallest_of_length_lt hlength
    exact mem_flatMap.mpr ⟨status,List.mem_dedup.mpr hstatus,hx⟩
  refine ⟨?_,hsub⟩
  exact Nat.lt_of_le_of_lt (subperm_of_subset h.nodup_prefetch hsub).length_le hlength

theorem Indexed.ids_window (hf : Format timestamps) (h : r.Indexed timestamps)
    (hahead : ∀ e ∈ r.rows.entries, e.2.status ∈ statuses →
      (cursor.JsonAhead (entryKey e) ↔ Before (positions e.2.status) (e.2.member e.1))) :
    (r.window statuses positions limit).map (fun e => (splitMember e.1).2) =
      (chosen r.rows statuses cursor limit).map Prod.fst := by
  rw [h.window_eq hf hahead,map_map]
  apply map_congr_left
  intro e he
  have hget := Dict.get_eq_some.mpr (mem_aheadRows.mp (mem_chosen_aheadRows he)).1
  have hsplit : splitMember (e.2.member e.1) = (e.2.createdAt, e.1) :=
    hf.split (h.format _ _ hget)
  simp only [comp_apply,streamEntry,hsplit]

theorem Indexed.page (hf : Format timestamps) (h : r.Indexed timestamps) (hlimit : limit ≠ 0)
    {position : Cursor Positions} (strict : Bool)
    (hahead : ∀ e ∈ r.rows.entries, e.2.status ∈ statuses →
      (cursor.JsonAhead (entryKey e) ↔ position.RedisAhead e.2.status (e.2.member e.1))) :
    ∃ page, r.getDocsByStatusesPage statuses limit position strict = some page ∧
      page.docs.entries.map Prod.snd =
        (chosen r.rows statuses cursor limit).map (fun e => schedulingRecord e.1 e.2) ∧
      (∀ e ∈ r.rows.entries, e.2.status ∈ statuses →
        (page.next.RedisAhead e.2.status (e.2.member e.1) ↔
          cursor.JsonAhead (entryKey e) ∧ e ∉ chosen r.rows statuses cursor limit)) ∧
      ((chosen r.rows statuses cursor limit).length < limit → page.next.isFinish = true) := by
  by_cases hend : statuses = [] ∨ position.isFinish = true
  · have hnothing : ∀ e ∈ r.rows.entries, e.2.status ∈ statuses →
        ¬ cursor.JsonAhead (entryKey e) := by
      intro e he hstatus hkey
      obtain rfl | hfinish := hend
      · cases hstatus
      · have hfalse := (hahead e he hstatus).mp hkey
        cases position with
        | start => cases hfinish
        | after positions => cases hfinish
        | finish => exact hfalse
    refine ⟨⟨.empty,.finish⟩,?_,?_,?_,fun _ => rfl⟩
    · unfold getDocsByStatusesPage
      rw [if_neg hlimit,if_pos hend]
    · have hnil : aheadRows r.rows statuses cursor = [] := by
        rw [eq_nil_iff_forall_not_mem]
        intro e he
        obtain ⟨hin,hstatus,hkey⟩ := mem_aheadRows.mp he
        exact hnothing e hin hstatus hkey
      rw [chosen,hnil]
      simp [smallest,Smallest.sorted,Dict.empty]
    · intro e he hstatus
      simp only [Cursor.RedisAhead,hnothing e he hstatus,false_and]
  · have hgo : ∃ positions : Positions,
        (∀ e ∈ r.rows.entries, e.2.status ∈ statuses →
          (cursor.JsonAhead (entryKey e) ↔ Before (positions e.2.status) (e.2.member e.1))) ∧
        r.getDocsByStatusesPage statuses limit position strict =
          let ids := (r.window statuses positions limit).map fun e => (splitMember e.1).2
          if strict ∧ ∃ id ∈ ids, r.rows.get id = none then none
          else some ⟨collectDocs r.rows .empty ids,r.next statuses positions limit⟩ := by
      unfold getDocsByStatusesPage
      rw [if_neg hlimit,if_neg hend]
      cases position with
      | start =>
        refine ⟨fun _ => none,?_,rfl⟩
        intro e he hstatus
        rw [hahead e he hstatus]
        simp [Cursor.RedisAhead,Before]
      | after positions => exact ⟨positions,hahead,rfl⟩
      | finish => exact absurd (.inr rfl) hend
    obtain ⟨positions,hbefore,hpage⟩ := hgo
    simp only [h.ids_window hf hbefore] at hpage
    rw [if_neg] at hpage
    · refine ⟨_,hpage,docs_chosen,fun e he hstatus => h.next_ahead hf hbefore he hstatus,?_⟩
      intro hshort
      simp only [h.next_finish hf hbefore hshort,Cursor.isFinish]
    · rintro ⟨-,id,hid,hnone⟩
      obtain ⟨e,he,rfl⟩ := mem_map.mp hid
      rw [Dict.get_eq_some.mpr (mem_aheadRows.mp (mem_chosen_aheadRows he)).1] at hnone
      cases hnone

end RedisStore

end

end LightRAG.SchedulingSweeps
