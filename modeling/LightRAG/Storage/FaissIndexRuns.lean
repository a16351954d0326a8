import LightRAG.Storage.FaissIndex

/-!
# The numbers of the rows

Whatever a flush or a deletion does, and wherever it raises, the rows and the vectors stay numbered
in the same way.
-/

namespace LightRAG.FaissIndex
open List

open VectorStores (Row Fields)
open VectorStores.Storage (Redo)

variable {V F : Type}

namespace Storage

variable {s : Storage V F} {ms added : List (Metadata V)} {m : Metadata V} {x : String}

/-- `_index` and `_id_to_meta` belong together. -/
structure Paired (s : Storage V F) : Prop where
  keys : ∀ fid, fid ∈ s.idToMeta.keys ↔ fid < s.index.length
  vectors : ∀ fid m, s.idToMeta.get fid = some m → m.vector = s.index[fid]?
  ids : ∀ fid fid' m m', s.idToMeta.get fid = some m → s.idToMeta.get fid' = some m' →
    m.id = m'.id → fid = fid'

def rows (s : Storage V F) : List (Metadata V) := s.idToMeta.entries.map Prod.snd

def rowsOf (s : Storage V F) (x : String) : List (Metadata V) := s.rows.filter fun m => m.id = x

theorem Paired.vector_ne_none (h : Paired s) (hm : m ∈ s.rows) : m.vector ≠ none := by
  obtain ⟨⟨fid,m⟩,he,rfl⟩ := mem_map.mp hm
  have hget := Dict.get_eq_some.mpr he
  have hlt : fid < s.index.length := (h.keys fid).mp (mem_map.mpr ⟨(fid, m),he,rfl⟩)
  rw [h.vectors fid m hget,List.getElem?_eq_getElem hlt]
  simp

theorem Paired.nodup_ids (h : Paired s) : (s.rows.map Metadata.id).Nodup := by
  rw [rows,map_map]
  apply List.Nodup.map_on
  · rintro ⟨fid,m⟩ he ⟨fid',m'⟩ he' heq
    have hget := Dict.get_eq_some.mpr he
    have hget' := Dict.get_eq_some.mpr he'
    obtain rfl := h.ids fid fid' m m' hget hget' heq
    rw [hget] at hget'
    rw [Option.some.inj hget']
  · exact s.idToMeta.nodup.of_map

theorem getElem?_vectors (h : ∀ m ∈ ms, m.vector ≠ none) (i : ℕ) :
    (ms.filterMap Metadata.vector)[i]? = ms[i]?.bind Metadata.vector := by
  induction ms generalizing i with
  | nil => simp
  | cons m ms ih =>
    obtain ⟨v,hv⟩ := Option.ne_none_iff_exists'.mp (h m mem_cons_self)
    have hrest : ∀ m ∈ ms, m.vector ≠ none := fun m' hm' => h m' (mem_cons_of_mem _ hm')
    rw [filterMap_cons_some hv]
    cases i with
    | zero => simp [hv]
    | succ i => simp [ih hrest i]

theorem length_vectors (h : ∀ m ∈ ms, m.vector ≠ none) :
    (ms.filterMap Metadata.vector).length = ms.length := by
  induction ms with
  | nil => rfl
  | cons m ms ih =>
    obtain ⟨v,hv⟩ := Option.ne_none_iff_exists'.mp (h m mem_cons_self)
    rw [filterMap_cons_some hv,length_cons,length_cons,
      ih fun m' hm' => h m' (mem_cons_of_mem _ hm')]

theorem eq_of_same_id (hnodup : (ms.map Metadata.id).Nodup) {i j : ℕ} {m m' : Metadata V}
    (hi : ms[i]? = some m) (hj : ms[j]? = some m') (hid : m.id = m'.id) : i = j := by
  have hlt : i < (ms.map Metadata.id).length := by
    rw [length_map]
    exact (List.getElem?_eq_some_iff.mp hi).1
  apply (List.getElem?_inj hlt hnodup).mp
  rw [List.getElem?_map,List.getElem?_map,hi,hj,Option.map_some,Option.map_some,hid]

theorem paired_numbered (h : ∀ m ∈ ms, m.vector ≠ none)
    (hnodup : (ms.map Metadata.id).Nodup) :
    Paired { s with index := ms.filterMap Metadata.vector, idToMeta := .numbered ms } where
  keys fid := by rw [Dict.get_isSome_numbered,length_vectors h]
  vectors fid m hget := by
    rw [Dict.get_numbered] at hget
    rw [getElem?_vectors h,hget,Option.bind_some]
  ids fid fid' m m' hget hget' hid := by
    rw [Dict.get_numbered] at hget hget'
    exact eq_of_same_id hnodup hget hget' hid

theorem rows_numbered (index : List V) :
    Storage.rows { s with index := index, idToMeta := .numbered added } = added := by
  rw [rows,Dict.numbered,positions_snd]

theorem Paired.attach_eq (h : Paired s) (dropFids : List ℕ) : s.attach dropFids = s.idToMeta := by
  have hentries : (s.attach dropFids).entries = s.idToMeta.entries := by
    conv_rhs => rw [← filterMap_some (l := s.idToMeta.entries)]
    apply filterMap_congr
    rintro ⟨fid,m⟩ he
    have hne : m.vector ≠ none := h.vector_ne_none (mem_map.mpr ⟨(fid, m),he,rfl⟩)
    have hor : m.vector.or s.index[fid]? = m.vector := by
      obtain ⟨v,hv⟩ := Option.ne_none_iff_exists'.mp hne
      rw [hv,Option.some_or]
    simp [hor]
  cases hattach : s.attach dropFids with
  | mk entries nodup =>
    rw [hattach] at hentries
    cases hmeta : s.idToMeta with
    | mk entries' nodup' =>
      rw [hmeta] at hentries
      obtain rfl := hentries
      rfl

variable {dropFids : List ℕ}

theorem filterMap_rows {entries : List (ℕ × Metadata V)}
    {p : Metadata V → Bool} (hdrop : ∀ e ∈ entries, e.1 ∈ dropFids ↔ p e.2 = true)
    (hvectors : ∀ e ∈ entries, e.2.vector ≠ none) :
    (entries.filterMap fun e => if e.1 ∈ dropFids ∨ e.2.vector = none then none else some e.2) =
      (entries.map Prod.snd).filter fun m => ! p m := by
  induction entries with
  | nil => rfl
  | cons e entries ih =>
    have hrest := ih (fun e' he' => hdrop e' (mem_cons_of_mem _ he'))
      (fun e' he' => hvectors e' (mem_cons_of_mem _ he'))
    have hne := hvectors e mem_cons_self
    have hmem := hdrop e mem_cons_self
    rw [filterMap_cons,hrest,map_cons,filter_cons]
    cases hp : p e.2 with
    | true => simp [hmem.mpr hp]
    | false =>
      have hnot : e.1 ∉ dropFids := fun hin => Bool.false_ne_true (hp.symm.trans (hmem.mp hin))
      simp [hnot,hne]

theorem Paired.rebuilt_eq (h : Paired s) {p : Metadata V → Bool}
    (hdrop : ∀ e ∈ s.idToMeta.entries, e.1 ∈ dropFids ↔ p e.2 = true) :
    s.rebuilt dropFids added = (s.rows.filter fun m => ! p m) ++ added := by
  rw [rebuilt,h.attach_eq,rows,filterMap_rows hdrop]
  intro e he
  exact h.vector_ne_none (mem_map.mpr ⟨e,he,rfl⟩)

theorem Paired.rebuildIndexLocked (h : Paired s) {p : Metadata V → Bool}
    (hdrop : ∀ e ∈ s.idToMeta.entries, e.1 ∈ dropFids ↔ p e.2 = true)
    (hadded : ∀ m ∈ added, m.vector ≠ none)
    (hnodup : (((s.rows.filter fun m => ! p m) ++ added).map Metadata.id).Nodup) (fails : Bool) :
    s.rebuildIndexLocked fails dropFids added = ⟨s, false⟩ ∨
      ∃ index idToMeta,
        s.rebuildIndexLocked fails dropFids added = ⟨{ s with index, idToMeta }, true⟩ ∧
        Paired { s with index, idToMeta } ∧
        Storage.rows { s with index, idToMeta } = (s.rows.filter fun m => ! p m) ++ added := by
  rw [Storage.rebuildIndexLocked]
  split
  · rename_i hnone
    right
    refine ⟨s.index,s.idToMeta,rfl,h,?_⟩
    rw [hnone.2,append_nil,eq_comm,filter_eq_self]
    intro m hm
    obtain ⟨e,he,rfl⟩ := mem_map.mp hm
    have hp := mt (hdrop e he).mpr
    rw [hnone.1] at hp
    simpa using hp not_mem_nil
  · cases fails with
    | true =>
      left
      rw [if_pos rfl,h.attach_eq]
    | false =>
      right
      refine ⟨_,_,if_neg (by simp),?_,?_⟩
      · rw [h.rebuilt_eq hdrop]
        apply paired_numbered _ hnodup
        intro m hm
        rw [mem_append] at hm
        cases hm with
        | inl hm => exact h.vector_ne_none (mem_filter.mp hm).1
        | inr hm => exact hadded m hm
      · rw [rows_numbered,h.rebuilt_eq hdrop]

theorem eq_of_same_fid {e e' : ℕ × Metadata V} (he : e ∈ s.idToMeta.entries)
    (he' : e' ∈ s.idToMeta.entries) (h : e.1 = e'.1) : e = e' :=
  inj_on_of_nodup_map s.idToMeta.nodup he he' h

theorem mem_findFaissIds {xs : List String} {e : ℕ × Metadata V}
    (he : e ∈ s.idToMeta.entries) : e.1 ∈ xs.flatMap s.findFaissIds ↔ e.2.id ∈ xs := by
  rw [mem_flatMap]
  constructor
  · rintro ⟨x,hx,hin⟩
    obtain ⟨e',he',hsome⟩ := mem_filterMap.mp hin
    split at hsome
    · rename_i hid
      obtain rfl := eq_of_same_fid he' he (Option.some.inj hsome)
      rw [hid]
      exact hx
    · cases hsome
  · intro hx
    exact ⟨e.2.id,hx,mem_filterMap.mpr ⟨e,he,if_pos rfl⟩⟩

theorem mem_removals {rowFingerprint : String → Row → F} {p : Metadata V → Bool}
    {e : ℕ × Metadata V} (he : e ∈ s.idToMeta.entries) :
    e.1 ∈ (s.removals rowFingerprint p).map Removal.fid ↔ p e.2 = true := by
  rw [mem_map]
  constructor
  · rintro ⟨r,hr,hfid⟩
    obtain ⟨e',he',hsome⟩ := mem_filterMap.mp hr
    split at hsome
    · rename_i hp
      rw [← Option.some.inj hsome] at hfid
      obtain rfl := eq_of_same_fid he' he hfid
      exact hp
    · cases hsome
  · intro hp
    exact ⟨_,mem_filterMap.mpr ⟨e,he,if_pos hp⟩,rfl⟩

theorem filter_rowsOf (s : Storage V F) {p : Metadata V → Bool} {added : List (Metadata V)}
    (hp : ∀ m, m.id = x → p m = false) (hadded : ∀ m ∈ added, m.id ≠ x) :
    (((s.rows.filter fun m => ! p m) ++ added).filter fun m => m.id = x) = s.rowsOf x := by
  have hnone : (added.filter fun m => m.id = x) = [] := by
    rw [filter_eq_nil_iff]
    intro m hm
    simpa using hadded m hm
  rw [filter_append,hnone,append_nil,filter_filter]
  apply filter_congr
  intro m _
  by_cases hid : m.id = x
  · simp [hp m hid]
  · simp [hid]

/-- A method that leaves the rows of all ids alone but for those with `p`. -/
structure Keeps (s : Storage V F) (p : String → Prop) (r : Outcome V F) : Prop where
  paired : Paired r.storage
  rowsOf : ∀ x, ¬ p x → r.storage.rowsOf x = s.rowsOf x

variable {p : String → Prop} {r : Outcome V F}

theorem Paired.keeps (h : Paired s) (p : String → Prop) (returns : Bool) :
    Keeps s p ⟨s, returns⟩ := ⟨h,fun _ _ => rfl⟩

theorem Keeps.next {k : Storage V F → Outcome V F} (h : Keeps s p r)
    (hk : ∀ t, r = ⟨t, true⟩ → Paired t → Keeps t p (k t)) : Keeps s p (r.next k) := by
  rw [Outcome.next]
  split
  · rename_i hreturns
    have hnext := hk r.storage (by rw [← hreturns]) h.paired
    exact ⟨hnext.paired,fun x hx => (hnext.rowsOf x hx).trans (h.rowsOf x hx)⟩
  · exact h

theorem Paired.buffers {t : Storage V F} (h : Paired s) (hindex : t.index = s.index)
    (hmeta : t.idToMeta = s.idToMeta) : Keeps s p ⟨t, true⟩ := by
  constructor
  · constructor
    · rw [hindex,hmeta]
      exact h.keys
    · rw [hindex,hmeta]
      exact h.vectors
    · rw [hmeta]
      exact h.ids
  · intro x _
    rw [Storage.rowsOf,Storage.rowsOf,rows,rows,hmeta]

theorem Paired.rebuild_keeps (h : Paired s) {q : Metadata V → Bool}
    (hdrop : ∀ e ∈ s.idToMeta.entries, e.1 ∈ dropFids ↔ q e.2 = true)
    (hadded : ∀ m ∈ added, m.vector ≠ none)
    (hnodup : (((s.rows.filter fun m => ! q m) ++ added).map Metadata.id).Nodup)
    (hq : ∀ m, q m = true → p m.id) (hp : ∀ m ∈ added, p m.id) (fails : Bool) :
    Keeps s p (s.rebuildIndexLocked fails dropFids added) := by
  rcases h.rebuildIndexLocked hdrop hadded hnodup fails with
    hraise | ⟨index,idToMeta,hdone,hpaired,hrows⟩
  · rw [hraise]
    exact h.keeps p false
  · rw [hdone]
    constructor
    · exact hpaired
    · intro x hx
      rw [← filter_rowsOf s (p := q),← hrows]
      · rfl
      · intro m hid
        rw [← Bool.not_eq_true]
        intro hm
        rw [← hid] at hx
        exact hx (hq m hm)
      · intro m hm hid
        rw [← hid] at hx
        exact hx (hp m hm)

theorem Paired.removeFaissIdsLocked (h : Paired s) {fids : List ℕ} {q : Metadata V → Bool}
    (hfids : ∀ e ∈ s.idToMeta.entries, e.1 ∈ fids ↔ q e.2 = true)
    (hq : ∀ m, q m = true → p m.id) (fails : Bool) :
    Keeps s p (s.removeFaissIdsLocked fails fids) := by
  rw [Storage.removeFaissIdsLocked]
  split
  · exact h.keeps p true
  · apply h.rebuild_keeps hfids (fun _ hm => absurd hm not_mem_nil) _ hq
      (fun _ hm => absurd hm not_mem_nil)
    rw [append_nil]
    exact h.nodup_ids.sublist (filter_sublist.map _)

variable {docs : List (String × FlushedDoc V)}

theorem Paired.replaced (h : Paired s) (hdocs : (docs.map Prod.fst).Nodup) :
    (((s.rows.filter fun m => ! decide (m.id ∈ docs.map Prod.fst)) ++
      docs.map fun e => e.2.record e.1).map Metadata.id).Nodup := by
  have hids : (docs.map fun e => e.2.record e.1).map Metadata.id = docs.map Prod.fst := by
    rw [map_map]
    rfl
  rw [map_append,hids]
  apply List.Nodup.append (h.nodup_ids.sublist (filter_sublist.map _)) hdocs
  intro x hx
  obtain ⟨m,hm,rfl⟩ := mem_map.mp hx
  simpa using (mem_filter.mp hm).2

theorem record_vector :
    ∀ m ∈ docs.map fun e => e.2.record e.1, m.vector ≠ none := by
  intro m hm
  obtain ⟨e,-,rfl⟩ := mem_map.mp hm
  exact Option.some_ne_none _

theorem Paired.replace (h : Paired s)
    (hdocs : (docs.map Prod.fst).Nodup) (hp : ∀ x ∈ docs.map Prod.fst, p x) (fails : Bool) :
    Keeps s p (s.rebuildIndexLocked fails ((docs.map Prod.fst).flatMap s.findFaissIds)
      (docs.map fun e => e.2.record e.1)) := by
  apply h.rebuild_keeps _ record_vector (h.replaced hdocs)
  · intro m hm
    exact hp m.id (of_decide_eq_true hm)
  · intro m hm
    obtain ⟨e,he,rfl⟩ := mem_map.mp hm
    exact hp e.1 (mem_map.mpr ⟨e,he,rfl⟩)
  · intro e he
    rw [mem_findFaissIds he,decide_eq_true_iff]

theorem Paired.addRecords (h : Paired s) (hdocs : (docs.map Prod.fst).Nodup)
    (hnew : ∀ e ∈ s.idToMeta.entries, e.2.id ∉ docs.map Prod.fst)
    (hp : ∀ x ∈ docs.map Prod.fst, p x) (fails : Bool) :
    Keeps s p (s.addRecords fails (docs.map fun e => e.2.record e.1)) := by
  generalize hadded : (docs.map fun e => e.2.record e.1) = added
  have hvectors : ∀ m ∈ added, m.vector ≠ none := by
    rw [← hadded]
    exact record_vector
  have hids : added.map Metadata.id = docs.map Prod.fst := by
    rw [← hadded,map_map]
    rfl
  rw [Storage.addRecords]
  split
  · exact h.keeps p false
  have hfull : s.idToMeta.Full s.index.length := h.keys
  have hget : ∀ fid m, (s.idToMeta.update (positions s.index.length added)).get fid = some m →
      (fid < s.index.length ∧ s.idToMeta.get fid = some m) ∨
        (s.index.length ≤ fid ∧ added[fid - s.index.length]? = some m) := by
    intro fid m hm
    rw [hfull.get_append] at hm
    split at hm
    · rename_i hlt
      exact .inl ⟨hlt,hm⟩
    · exact .inr ⟨by omega,hm⟩
  have hother : ∀ {fid fid' : ℕ} {m m' : Metadata V}, s.idToMeta.get fid = some m →
      added[fid']? = some m' → m.id ≠ m'.id := by
    intro fid fid' m m' hm hm' hid
    apply hnew (fid, m) (Dict.get_eq_some.mp hm)
    rw [← hids,hid]
    exact mem_map.mpr ⟨m',mem_of_getElem? hm',rfl⟩
  constructor
  · constructor
    · intro fid
      have hkeys := hfull.append added fid
      rw [hkeys,length_append,length_vectors hvectors]
    · intro fid m hm
      rcases hget fid m hm with ⟨hlt,hold⟩ | ⟨hge,hnew⟩
      · rw [List.getElem?_append_left hlt]
        exact h.vectors fid m hold
      · rw [List.getElem?_append_right hge,getElem?_vectors hvectors,hnew,Option.bind_some]
    · intro fid fid' m m' hm hm' hid
      rcases hget fid m hm with ⟨-,hold⟩ | ⟨hge,hnew⟩
      · rcases hget fid' m' hm' with ⟨-,hold'⟩ | ⟨-,hnew'⟩
        · exact h.ids fid fid' m m' hold hold' hid
        · exact absurd hid (hother hold hnew')
      · rcases hget fid' m' hm' with ⟨-,hold'⟩ | ⟨hge',hnew'⟩
        · exact absurd hid.symm (hother hold' hnew)
        · have hpos := eq_of_same_id (by rw [hids]; exact hdocs) hnew hnew' hid
          omega
  · intro x hx
    have hrows : Storage.rows { s with
        index := s.index ++ added.filterMap Metadata.vector
        idToMeta := s.idToMeta.update (positions s.index.length added) } = s.rows ++ added := by
      rw [rows,hfull.entries_append,map_append,positions_snd]
      rfl
    have hnone : (added.filter fun m => m.id = x) = [] := by
      rw [filter_eq_nil_iff]
      intro m hm hid
      apply hx
      rw [← of_decide_eq_true hid]
      apply hp
      rw [← hids]
      exact mem_map.mpr ⟨m,hm,rfl⟩
    rw [Storage.rowsOf,Storage.rowsOf,hrows,filter_append,hnone,append_nil]

theorem Paired.materialize (h : Paired s) (p : String → Prop)
    (hdocs : (docs.map Prod.fst).Nodup) (hp : ∀ x ∈ docs.map Prod.fst, p x) (fails : Bool) :
    Keeps s p (s.materialize fails docs) := by
  rw [Storage.materialize]
  apply Keeps.next
  · have hfids : docs.flatMap (fun e => s.findFaissIds e.1) =
        (docs.map Prod.fst).flatMap s.findFaissIds := by
      rw [flatMap_map]
    rw [hfids]
    split
    · exact h.replace hdocs hp fails
    · rename_i hnone
      apply h.addRecords hdocs _ hp fails
      intro e he hid
      rw [not_not] at hnone
      have hin := (mem_findFaissIds he).mpr hid
      rw [hnone] at hin
      exact absurd hin not_mem_nil
  · intro t _ ht
    exact ht.buffers rfl rfl

theorem embedded_fst {pending : List (String × PendingDoc V)} {vs : List V}
    (h : embedded pending vs = some docs) :
    docs.map Prod.fst = pending.map Prod.fst := by
  fun_induction embedded pending vs generalizing docs with
  | case1 =>
    obtain rfl := Option.some.inj h
    rfl
  | case2 => cases h
  | case3 x row v pending vs ih =>
    obtain ⟨rest,hrest,rfl⟩ := Option.map_eq_some_iff.mp h
    rw [map_cons,map_cons,ih hrest]
  | case4 => cases h
  | case5 x row pending v vs ih =>
    obtain ⟨rest,hrest,rfl⟩ := Option.map_eq_some_iff.mp h
    rw [map_cons,map_cons,ih hrest]

theorem embed_fst {embeddings : Option (List V)} {pending : List (String × PendingDoc V)}
    (h : embed embeddings pending = some docs) :
    docs.map Prod.fst = pending.map Prod.fst := by
  rw [embed] at h
  split at h
  · exact embedded_fst h
  · obtain ⟨vs,-,hdocs⟩ := Option.bind_eq_some_iff.mp h
    exact embedded_fst hdocs

theorem Paired.writePending (h : Paired s) (hp : ∀ x ∈ s.pendingUpserts.keys, p x)
    (faults : Faults V) : Keeps s p (s.writePending faults) := by
  rw [Storage.writePending]
  split
  · exact h.keeps p true
  · split
    · exact h.keeps p false
    · rename_i docs hdocs
      have hkeys : docs.map Prod.fst = s.pendingUpserts.keys := embed_fst hdocs
      have hcached : Keeps s p ⟨s.cache docs,true⟩ := h.buffers rfl rfl
      have hwritten := hcached.paired.materialize p
        (by rw [hkeys]; exact s.pendingUpserts.nodup) (by rw [hkeys]; exact hp) faults.writeFails
      exact ⟨hwritten.paired,fun x hx => (hwritten.rowsOf x hx).trans (hcached.rowsOf x hx)⟩

theorem next_raises {k : Storage V F → Outcome V F} (hk : ∀ t, (k t).returns = true)
    (hraise : (r.next k).returns = false) : r.next k = r ∧ r.returns = false := by
  rw [Outcome.next] at hraise ⊢
  split
  · rename_i hreturns
    rw [if_pos hreturns,hk] at hraise
    cases hraise
  · rename_i hnot
    exact ⟨rfl,Bool.not_eq_true _ ▸ hnot⟩

theorem Paired.materialize_raises (h : Paired s)
    {fails : Bool} (hraise : (s.materialize fails docs).returns = false) :
    (s.materialize fails docs).storage = s := by
  have hrebuild : ∀ fids records, (s.rebuildIndexLocked fails fids records).returns = false →
      (s.rebuildIndexLocked fails fids records).storage = s := by
    intro fids records hr
    rw [Storage.rebuildIndexLocked] at hr ⊢
    split
    · rfl
    · rename_i hsome
      rw [if_neg hsome] at hr
      split
      · rw [h.attach_eq]
      · rename_i hok
        rw [if_neg hok] at hr
        cases hr
  have hadd : ∀ records, (s.addRecords fails records).returns = false →
      (s.addRecords fails records).storage = s := by
    intro records hr
    rw [Storage.addRecords] at hr ⊢
    split
    · rfl
    · rename_i hok
      rw [if_neg hok] at hr
      cases hr
  obtain ⟨hsame,hnot⟩ := next_raises (fun _ => rfl) hraise
  rw [Storage.materialize,hsame]
  split
  · rename_i hexisting
    rw [if_pos hexisting] at hnot
    exact hrebuild _ _ hnot
  · rename_i hexisting
    rw [if_neg hexisting] at hnot
    exact hadd _ hnot

theorem Paired.writePending_raises (h : Paired s) {faults : Faults V}
    (hraise : (s.writePending faults).returns = false) :
    (s.writePending faults).storage.rows = s.rows := by
  rw [Storage.writePending] at hraise ⊢
  split
  · rfl
  · rename_i hsome
    rw [if_neg hsome] at hraise
    split
    · rfl
    · rename_i docs hdocs
      rw [hdocs] at hraise
      have hcached : Keeps s (fun _ => True) ⟨s.cache docs,true⟩ := h.buffers rfl rfl
      rw [hcached.paired.materialize_raises hraise]
      rfl

section

variable [DecidableEq F] {rowFingerprint : String → Row → F}

theorem Paired.applyDeletes (h : Paired s)
    (hp : ∀ x, x ∈ s.pendingDeletes ∨ x ∈ s.unsavedDeletes.keys → p x) (fails : Bool) :
    Keeps s p (s.applyDeletes rowFingerprint fails) := by
  rw [Storage.applyDeletes]
  split
  · exact h.keeps p true
  · apply Keeps.next
    · apply h.removeFaissIdsLocked fun e he => mem_removals he
      intro m hm
      apply hp
      rw [isDeleted,Bool.or_eq_true,decide_eq_true_iff,decide_eq_true_iff] at hm
      cases hm with
      | inl hqueued => exact .inl hqueued
      | inr hlogged =>
        right
        rw [Dict.mem_keys]
        intro hnone
        rw [hnone] at hlogged
        exact absurd hlogged not_mem_nil
    · intro t _ ht
      exact ht.buffers rfl rfl

theorem Paired.replayUpserts (h : Paired s) (hp : ∀ x ∈ s.unsavedUpserts.keys, p x) (fails : Bool) :
    Keeps s p (s.replayUpserts rowFingerprint fails) := by
  rw [Storage.replayUpserts]
  split
  · exact h.buffers rfl rfl
  · generalize hreplayed : (s.unsavedUpserts.entries.filter fun e =>
      decide (s.redo rowFingerprint e.1 e.2 = .replay)) = replayed
    have hsub : (replayed.map Prod.fst).Sublist s.unsavedUpserts.keys := by
      rw [← hreplayed]
      exact filter_sublist.map _
    have hkept : Keeps s p ⟨{ s with
        unsavedUpserts := s.unsavedUpserts.filterMap fun x doc =>
          if s.redo rowFingerprint x doc = .superseded then none else some doc },true⟩ :=
      h.buffers rfl rfl
    apply Keeps.next
    · have hrebuild := hkept.paired.replace (s.unsavedUpserts.nodup.sublist hsub)
        (fun x hx => hp x (hsub.subset hx)) fails
      rw [flatMap_map] at hrebuild
      exact ⟨hrebuild.paired,fun x hx => (hrebuild.rowsOf x hx).trans (hkept.rowsOf x hx)⟩
    · intro t _ ht
      exact ht.buffers rfl rfl

theorem Paired.deleteEntityRelation (h : Paired s) (fails : Bool) (entityName : String) :
    Paired (s.deleteEntityRelation rowFingerprint fails entityName).storage := by
  have hkeeps : Keeps s (fun _ => True) (s.deleteEntityRelation rowFingerprint fails entityName) := by
    rw [Storage.deleteEntityRelation]
    apply Keeps.next
    · split
      · exact h.keeps _ true
      · apply Keeps.next
        · exact h.removeFaissIdsLocked (fun e he => mem_removals he) (fun _ _ => trivial) fails
        · intro t _ ht
          exact ht.buffers rfl rfl
    · intro t _ ht
      exact ht.buffers rfl rfl
  exact hkeeps.paired

theorem unsavedUpserts_applyDeletes (rowFingerprint : String → Row → F) (s : Storage V F)
    (fails : Bool) :
    (s.applyDeletes rowFingerprint fails).storage.unsavedUpserts = s.unsavedUpserts := by
  have hrebuild : ∀ fids, (s.rebuildIndexLocked fails fids []).storage.unsavedUpserts =
      s.unsavedUpserts := by
    intro fids
    rw [Storage.rebuildIndexLocked]
    split
    · rfl
    · split <;> rfl
  rw [Storage.applyDeletes]
  split
  · rfl
  · rw [Outcome.next]
    split
    all_goals
      rw [Storage.removeFaissIdsLocked]
      split
      · rfl
      · exact hrebuild _

/-- The ids a flush reads from its delete queue and its logs. -/
def Named (s : Storage V F) (x : String) : Prop :=
  x ∈ s.pendingDeletes ∨ x ∈ s.unsavedDeletes.keys ∨ x ∈ s.unsavedUpserts.keys

theorem Paired.flush (h : Paired s) (faults : Faults V) :
    Paired (s.flushPendingLocked rowFingerprint faults).storage ∧
      ((s.flushPendingLocked rowFingerprint faults).returns = false → ∀ x, ¬ s.Named x →
        (s.flushPendingLocked rowFingerprint faults).storage.rowsOf x = s.rowsOf x) := by
  have hreplayed : Keeps s s.Named ((s.applyDeletes rowFingerprint faults.deletesFail).next
      (Storage.replayUpserts rowFingerprint faults.replayFails)) := by
    apply Keeps.next
    · apply h.applyDeletes
      intro x hx
      cases hx with
      | inl hqueued => exact .inl hqueued
      | inr hlogged => exact .inr (.inl hlogged)
    · intro t ht hpaired
      apply hpaired.replayUpserts
      intro x hx
      have hsame := unsavedUpserts_applyDeletes rowFingerprint s faults.deletesFail
      rw [ht] at hsame
      rw [hsame] at hx
      exact .inr (.inr hx)
  rw [flushPendingLocked]
  split
  · rw [Outcome.next]
    split
    · have hwritten := hreplayed.paired.writePending (p := fun _ => True) (fun _ _ => trivial) faults
      refine ⟨hwritten.paired,?_⟩
      intro hraise x hx
      have hrows := hreplayed.paired.writePending_raises hraise
      rw [Storage.rowsOf,hrows]
      exact hreplayed.rowsOf x hx
    · exact ⟨hreplayed.paired,fun _ => hreplayed.rowsOf⟩
  · exact ⟨h,fun _ _ _ => rfl⟩

end

end Storage

inductive Action (V : Type)
  | upsert (currentTime writeSeq : ℕ) (data : Dict String Fields)
  | delete (ids : List String)
  | dropPendingIndexOps
  | cacheVectors (vectors : Dict String V)
  | reload (files : Files V)
  | flush (faults : Faults V)
  | deleteEntityRelation (fails : Bool) (entityName : String)
  | committed

/-- The metadata has exactly the positions of the vectors, and pairwise distinct ids. -/
structure Files.Complete (files : Files V) : Prop where
  keys : files.metadata.Full files.index.length
  ids : ∀ fid fid' e e', files.metadata.get fid = some e → files.metadata.get fid' = some e' →
    e.1 = e'.1 → fid = fid'

/-- Every pair that is loaded is complete. -/
def Allowed : Action V → Prop
  | .reload files => files.Complete
  | _ => True

section

variable [DecidableEq F] (rowFingerprint : String → Row → F)

def exec (s : Storage V F) : Action V → Outcome V F
  | .upsert currentTime writeSeq data => ⟨s.upsert currentTime writeSeq data, true⟩
  | .delete ids => ⟨s.delete ids, true⟩
  | .dropPendingIndexOps => ⟨s.dropPendingIndexOps, true⟩
  | .cacheVectors vectors => ⟨s.cacheVectors vectors, true⟩
  | .reload files => ⟨s.loadFaissIndex files, true⟩
  | .flush faults => s.flushPendingLocked rowFingerprint faults
  | .deleteEntityRelation fails entityName =>
    s.deleteEntityRelation rowFingerprint fails entityName
  | .committed => ⟨s.committed, true⟩

def Step (s : Storage V F) (a : Action V) (s' : Storage V F) : Prop :=
  Allowed a ∧ s' = (exec rowFingerprint s a).storage

end

namespace Storage

variable {s s' : Storage V F} {pair : Files V} {a : Action V}

theorem paired_load (h : pair.Complete) : Paired (s.loadFaissIndex pair) := by
  have hget : ∀ fid m, (s.loadFaissIndex pair).idToMeta.get fid = some m →
      ∃ e, pair.metadata.get fid = some e ∧ m.id = e.1 ∧ m.vector = pair.index[fid]? := by
    intro fid m hm
    rw [loadFaissIndex,Dict.get_filterMap] at hm
    obtain ⟨e,he,hrow⟩ := Option.bind_eq_some_iff.mp hm
    obtain ⟨v,hv,rfl⟩ := Option.map_eq_some_iff.mp hrow
    exact ⟨e,he,rfl,hv.symm⟩
  constructor
  · intro fid
    have hkeys := h.keys fid
    rw [Dict.mem_keys] at hkeys
    rw [Dict.mem_keys,loadFaissIndex,Dict.get_filterMap,← hkeys]
    cases hfid : pair.metadata.get fid with
    | none => simp
    | some e =>
      have hlt : fid < pair.index.length := by
        rw [← hkeys,hfid]
        simp
      simp [List.getElem?_eq_getElem hlt]
  · intro fid m hm
    obtain ⟨-,-,-,hv⟩ := hget fid m hm
    exact hv
  · intro fid fid' m m' hm hm' hid
    obtain ⟨e,he,hme,-⟩ := hget fid m hm
    obtain ⟨e',he',hme',-⟩ := hget fid' m' hm'
    apply h.ids fid fid' e e' he he'
    rw [← hme,← hme',hid]

theorem Paired.files (h : Paired s) : s.files.Complete := by
  have hget : ∀ fid e, s.files.metadata.get fid = some e →
      ∃ m, s.idToMeta.get fid = some m ∧ e.1 = m.id := by
    intro fid e he
    rw [Storage.files,Dict.get_filterMap] at he
    obtain ⟨m,hm,hrow⟩ := Option.bind_eq_some_iff.mp he
    obtain rfl := Option.some.inj hrow
    exact ⟨m,hm,rfl⟩
  constructor
  · intro fid
    rw [Storage.files,← h.keys fid,Dict.mem_keys,Dict.mem_keys,Dict.get_filterMap]
    cases s.idToMeta.get fid <;> simp
  · intro fid fid' e e' he he' hid
    obtain ⟨m,hm,hme⟩ := hget fid e he
    obtain ⟨m',hm',hme'⟩ := hget fid' e' he'
    apply h.ids fid fid' m m' hm hm'
    rw [← hme,← hme',hid]

theorem Paired.load_files (h : Paired s) (fid : ℕ) :
    (s'.loadFaissIndex s.files).idToMeta.get fid = s.idToMeta.get fid := by
  rw [loadFaissIndex,Storage.files,Dict.get_filterMap,Dict.get_filterMap]
  cases hm : s.idToMeta.get fid with
  | none => rfl
  | some m =>
    have hv := h.vectors fid m hm
    have hlt : fid < s.index.length := by
      rw [← h.keys fid,Dict.mem_keys,hm]
      exact Option.some_ne_none m
    rw [List.getElem?_eq_getElem hlt] at hv
    have hrow : m = ⟨m.id,m.row,some s.index[fid]⟩ := by rw [← hv]
    simp [List.getElem?_eq_getElem hlt,← hrow]

variable [DecidableEq F] {rowFingerprint : String → Row → F}

theorem Paired.step (h : Paired s) (hstep : Step rowFingerprint s a s') : Paired s' := by
  obtain ⟨hallowed,rfl⟩ := hstep
  have hbuffers : ∀ {t : Storage V F}, t.index = s.index → t.idToMeta = s.idToMeta → Paired t :=
    fun hindex hmeta => (h.buffers (p := fun _ => True) hindex hmeta).paired
  cases a with
  | upsert currentTime writeSeq data => exact hbuffers rfl rfl
  | delete ids => exact hbuffers rfl rfl
  | dropPendingIndexOps => exact hbuffers rfl rfl
  | cacheVectors vectors => exact hbuffers rfl rfl
  | reload files => exact paired_load hallowed
  | flush faults => exact (h.flush faults).1
  | deleteEntityRelation fails entityName => exact h.deleteEntityRelation fails entityName
  | committed => exact hbuffers rfl rfl

/-- After every operation, also one that raises, rows and vectors are numbered in the same way, and
a flush that raises then has left the rows alone that it does not name. -/
theorem paired_of_run (hload : pair.Complete) {as : List (Action V)}
    (hrun : Run (Step rowFingerprint) (start pair) as s) :
    Paired s ∧ ∀ faults, (s.flushPendingLocked rowFingerprint faults).returns = false →
      ∀ x, ¬ s.Named x →
        (s.flushPendingLocked rowFingerprint faults).storage.rowsOf x = s.rowsOf x := by
  have hpaired : Paired s :=
    hrun.preserves (fun _ _ _ hstep hs => hs.step hstep) (paired_load hload)
  exact ⟨hpaired,fun faults => (hpaired.flush faults).2⟩

/-- What a save would write in any state of a run is loaded as the rows of that state. -/
theorem files_of_run (hload : pair.Complete) {as : List (Action V)}
    (hrun : Run (Step rowFingerprint) (start pair) as s) : s.files.Complete ∧
      ∀ (s' : Storage V F) fid, (s'.loadFaissIndex s.files).idToMeta.get fid = s.idToMeta.get fid := by
  have hpaired : Paired s :=
    hrun.preserves (fun _ _ _ hstep hs => hs.step hstep) (paired_load hload)
  exact ⟨hpaired.files,fun _ => hpaired.load_files⟩

def sampleRow : Row := ⟨some 1, 0, ⟨none, none, "text"⟩⟩

theorem files_of_run_delete :
    let s : Storage ℕ Row := (start ⟨[10], .numbered [("a", sampleRow)]⟩).delete ["a"]
    s.files.Complete ∧ ∀ (s' : Storage ℕ Row) fid,
      (s'.loadFaissIndex s.files).idToMeta.get fid = s.idToMeta.get fid := by
  have hcomplete : Files.Complete ⟨[10], .numbered [("a", sampleRow)]⟩ := by
    refine ⟨Dict.Full.numbered,?_⟩
    intro fid fid' e e' he he' hid
    rw [Dict.get_numbered] at he he'
    exact (Nat.lt_one_iff.mp (List.getElem?_eq_some_iff.mp he).1).trans
      (Nat.lt_one_iff.mp (List.getElem?_eq_some_iff.mp he').1).symm
  have hrun : Run (Step fun _ row => row) (start ⟨[10], .numbered [("a", sampleRow)]⟩)
      [.delete ["a"]] ((start ⟨[10], .numbered [("a", sampleRow)]⟩ : Storage ℕ Row).delete ["a"]) :=
    .cons ⟨trivial,rfl⟩ (.nil _)
  exact files_of_run hcomplete hrun

def samplePair : Files ℕ where
  index := [10, 20]
  metadata := .numbered [("a", sampleRow), ("b", sampleRow)]

def sampleActions : List (Action ℕ) :=
  [.delete ["a"], .upsert 0 2 ⟨[("c", ⟨none, none, "text"⟩)], nodup_singleton _⟩]

def sampleFaults : Faults ℕ := ⟨some [30], false, false, true⟩

def ran : Storage ℕ Row := (start samplePair : Storage ℕ Row)
  |>.delete ["a"] |>.upsert 0 2 ⟨[("c", ⟨none, none, "text"⟩)], nodup_singleton _⟩

theorem paired_sample : Run (Step fun _ row => row) (start samplePair) sampleActions ran ∧
    Paired ran ∧ ((ran.flushPendingLocked (fun _ row => row) sampleFaults).storage.rowsOf "a" = [] ∧
      (ran.flushPendingLocked (fun _ row => row) sampleFaults).storage.rowsOf "b" =
        [⟨"b", sampleRow, some 20⟩]) := by
  have hcomplete : samplePair.Complete := by
    constructor
    · exact Dict.Full.numbered
    · intro fid fid' e e' he he' hid
      rw [samplePair,Dict.get_numbered] at he he'
      have hnodup : ([("a", sampleRow), ("b", sampleRow)].map Prod.fst).Nodup := by decide
      have hlt : fid < ([("a", sampleRow), ("b", sampleRow)].map Prod.fst).length := by
        rw [length_map]
        exact (List.getElem?_eq_some_iff.mp he).1
      apply (List.getElem?_inj hlt hnodup).mp
      rw [List.getElem?_map,List.getElem?_map,he,he',Option.map_some,Option.map_some,hid]
  have hrun : Run (Step fun _ row => row) (start samplePair) sampleActions ran :=
    .cons ⟨trivial,rfl⟩ (.cons ⟨trivial,rfl⟩ (.nil _))
  obtain ⟨hpaired,hraised⟩ := paired_of_run hcomplete hrun
  refine ⟨hrun,hpaired,by decide +kernel,?_⟩
  rw [hraised sampleFaults (by decide +kernel) "b" (by rw [Named]; decide +kernel)]
  decide +kernel

end Storage
end LightRAG.FaissIndex
