import LightRAG.Framework.Results
import LightRAG.Knowledge.Refeed

/-!
# Tracking rows ahead of the graph

A merge writes the tracking row of an object before the object, so a row may stand without one.
-/

namespace LightRAG.Knowledge
open List Except

inductive MergeError
  | alreadyNodeMissing (o : Object)
  | noEntityType (name : Name)
  | noDescription (p : Pair)
deriving DecidableEq

namespace DescribedStore

section

/-! `summary` is what becomes of the descriptions of an object, with or without the model. -/

variable (cfg : MergeConfig) (summary : Object → List String → String)

/-- `_merge_nodes_then_upsert` -/
def mergeNodeOrRaise (name : Name) (data : List Extracted) (s : DescribedStore) :
    Except MergeError DescribedStore :=
  let ids := data.map Extracted.sourceId
  let existingFull := existingEntityIds s.store name
  let sourceIds := s.keptEntityIds cfg name ids
  match mergeNodesThenUpsert cfg.kg name ids s.store with
  | none => .error (.alreadyNodeMissing (.entity name))
  | some store =>
    if skipsMerge cfg.kg cfg.kg.maxSourceIdsPerEntity existingFull sourceIds ids then
      .ok { s with store := store }
    else if (s.store.getNode name).isNone ∧
        keptData cfg.kg Extracted.sourceId existingFull sourceIds data = [] then
      .error (.noEntityType name)
    else
      let description := summary (.entity name) (s.nodeDescriptions cfg name data)
      .ok { s with
        store := store
        nodeDescription := Function.update s.nodeDescription name description }

/-- `_merge_edges_then_upsert` -/
def mergeEdgeOrRaise (p : Pair) (data : List ExtractedRelation) (s : DescribedStore) :
    Except MergeError DescribedStore :=
  if p.inf = p.sup then .ok s
  else
    let ids := data.map fun dp => dp.sourceId
    match mergeEdgesThenUpsert cfg.kg p ids s.store with
    | none => .error (.alreadyNodeMissing (.relation p))
    | some store =>
      if skipsMerge cfg.kg cfg.kg.maxSourceIdsPerRelation (existingRelationIds s.store p)
          (keptRelationIds cfg.kg s.store p ids) ids then
        .ok { s with store := store }
      else if s.edgeDescriptions cfg p data = [] then .error (.noDescription p)
      else
        let description := summary (.relation p) (s.edgeDescriptions cfg p data)
        .ok
          { store := store
            nodeDescription := fun e =>
              if e ∈ p ∧ s.store.getNode e = none then description else s.nodeDescription e
            edgeDescription := Function.update s.edgeDescription p description
            edgeWeight := Function.update s.edgeWeight p (s.mergedWeight cfg p data) }

/-- The two phases of `merge_nodes_and_edges`. -/
def mergeBatchOrRaise (b : Batch) (s : DescribedStore) : Except MergeError DescribedStore :=
  (b.nodes.foldlM (fun s e => mergeNodeOrRaise cfg summary e.1 e.2 s) s).bind fun s =>
    b.edges.foldlM (fun s e => mergeEdgeOrRaise cfg summary e.1 e.2 s) s

theorem mergeEdgeOrRaise_of_mergeEdge {p : Pair} {data : List ExtractedRelation}
    {s s' : DescribedStore}
    (hsummary : ∀ o ds d, handleEntityRelationSummary cfg.descriptions ds = some d →
      summary o ds = d) (h : s.mergeEdge cfg p data = some s') :
    s.mergeEdgeOrRaise cfg summary p data = .ok s' := by
  rw [mergeEdge] at h
  rw [mergeEdgeOrRaise]
  split at h
  · rename_i hloop
    rw [if_pos hloop,Option.some.inj h]
  · rename_i hloop
    rw [if_neg hloop]
    dsimp only at h ⊢
    obtain ⟨store,hstore,h⟩ := Option.bind_eq_some_iff.mp h
    rw [hstore]
    dsimp only
    split at h
    · rename_i hskip
      rw [if_pos hskip,Option.some.inj h]
    · rename_i hskip
      rw [if_neg hskip]
      split at h
      · cases h
      · rename_i hfragments
        obtain ⟨description,hdescription,rfl⟩ := Option.map_eq_some_iff.mp h
        rw [if_neg hfragments,hsummary _ _ _ hdescription]

end

end DescribedStore

/-- Under KEEP, nothing but chunks for which a full row has no room. -/
def Blocked (method : LimitMethod) (limit : ℕ) (tracked new : List ChunkId) : Prop :=
  method = .keep ∧ limit ≤ tracked.length ∧
    ∀ c ∈ new, c ≠ "" ∧ c ∉ tracked ∧ c ∉ (mergeSourceIds tracked (truthy new)).take limit

section

variable {cfg : KgConfig} {limit : ℕ} {tracked new ids : List ChunkId} {e : Name} {p : Pair}
  {data full sourceIds : List ChunkId} {s s' : Store}

theorem applySourceIdsLimit_keep :
    applySourceIdsLimit ids limit .keep = ids.take limit := by
  rw [applySourceIdsLimit]
  split
  · rename_i hzero
    rw [hzero,take_zero]
  · split
    · rename_i hfits
      rw [take_of_length_le hfits]
    · rfl

theorem skipsMerge_iff :
    skipsMerge cfg limit tracked
        (applySourceIdsLimit (mergeSourceIds tracked (truthy new)) limit cfg.sourceIdsLimitMethod)
        new = true ↔ Blocked cfg.sourceIdsLimitMethod limit tracked new := by
  rw [skipsMerge,decide_eq_true_eq]
  apply and_congr_right
  intro hkeep
  apply and_congr_right
  intro _
  rw [keptRecords,hkeep]
  simp only [applySourceIdsLimit_keep,filter_eq_nil_iff,decide_eq_true_eq,not_not]
  exact forall₂_congr fun c _ => and_congr_right fun _ => and_comm

theorem length_foldl_appendNew (ids merged : List ChunkId) :
    (ids.foldl appendNew merged).length ≤ merged.length + ids.length := by
  induction ids generalizing merged with
  | nil => simp
  | cons c ids ih =>
    rw [foldl_cons,length_cons]
    have hstep : (appendNew merged c).length ≤ merged.length + 1 := by
      unfold appendNew
      split
      · omega
      · simp
    have := ih (appendNew merged c)
    omega

theorem keptRecords_ne_nil (hnew : new ≠ [])
    (h : cfg.sourceIdsLimitMethod = .keep → tracked.length < limit) :
    keptRecords cfg tracked
      (applySourceIdsLimit (mergeSourceIds tracked (truthy new)) limit cfg.sourceIdsLimitMethod)
      new ≠ [] := by
  unfold keptRecords
  cases hmethod : cfg.sourceIdsLimitMethod with
  | fifo => exact hnew
  | keep =>
    obtain ⟨c,rest,rfl⟩ := exists_cons_of_ne_nil hnew
    simp only [applySourceIdsLimit_keep]
    intro hnil
    rw [filter_eq_nil_iff] at hnil
    have hfirst := hnil c mem_cons_self
    simp only [decide_eq_true_eq,not_not] at hfirst
    obtain ⟨hne,hout,hold⟩ := hfirst
    apply hout
    -- the first chunk comes right behind the row
    have htruthy : truthy (c :: rest) = c :: truthy rest := by
      rw [truthy,filter_cons_of_pos (by simpa using hne)]
      rfl
    have hfresh : c ∉ tracked.foldl appendNew [] := by
      rw [mem_foldl_appendNew]
      simp [hold]
    have hmerged : mergeSourceIds tracked (truthy (c :: rest)) =
        (truthy rest).foldl appendNew (tracked.foldl appendNew [] ++ [c]) := by
      rw [mergeSourceIds,htruthy,foldl_append,foldl_cons]
      congr 1
      exact if_neg (not_or.mpr ⟨hne,hfresh⟩)
    have hbehind : tracked.foldl appendNew [] ++ [c] <+:
        (truthy rest).foldl appendNew (tracked.foldl appendNew [] ++ [c]) := prefix_foldl_appendNew
    obtain ⟨later,hlater⟩ := hbehind
    have hlength := length_foldl_appendNew tracked []
    have hroom := h hmethod
    rw [length_nil] at hlength
    have hfits : (tracked.foldl appendNew [] ++ [c]).length ≤ limit := by
      rw [length_append,length_singleton]
      omega
    rw [hmerged,← hlater,take_append]
    rw [take_of_length_le hfits]
    simp

theorem mergeNodes_frame (h : mergeNodesThenUpsert cfg e data s = some s') :
    s'.getNode e ≠ none ∧
      (∀ e', e' ≠ e → s'.entityRow e' = s.entityRow e' ∧ s'.getNode e' = s.getNode e') ∧
      ∀ p, s'.relationRow p = s.relationRow p ∧ s'.getEdge p = s.getEdge p := by
  unfold mergeNodesThenUpsert at h
  dsimp only at h
  split at h
  · cases hnode : s.getNode e with
    | none =>
      rw [hnode] at h
      cases h
    | some n =>
      rw [hnode] at h
      obtain rfl := Option.some.inj h
      simp [entityRow_trackEntityIds,hnode]
      exact fun e' hne hsame => absurd hsame hne
  · obtain rfl := Option.some.inj h
    simp [entityRow_trackEntityIds]
    exact fun e' hne => ⟨fun hsame => absurd hsame hne,fun hsame => absurd hsame hne⟩

theorem mergeNodes_isSome : (∃ s', mergeNodesThenUpsert cfg e data s = some s') ↔
    s.getNode e ≠ none ∨ ¬ Blocked cfg.sourceIdsLimitMethod cfg.maxSourceIdsPerEntity
      (existingEntityIds s e) data := by
  rw [← skipsMerge_iff]
  unfold mergeNodesThenUpsert
  dsimp only
  split
  · rename_i hskip
    cases s.getNode e with
    | none => simp [hskip]
    | some n => simp
  · rename_i hskip
    exact ⟨fun _ => .inr hskip,fun _ => ⟨_,rfl⟩⟩

theorem mergeEndpoints_frame (cfg : KgConfig) (full sourceIds : List ChunkId) (s : Store)
    (es : List Name) :
    (∀ e, s.getNode e ≠ none →
      (es.foldl (mergeEndpoint cfg full sourceIds) s).getNode e ≠ none) ∧
      ∀ q, (es.foldl (mergeEndpoint cfg full sourceIds) s).getEdge q = s.getEdge q ∧
        (es.foldl (mergeEndpoint cfg full sourceIds) s).relationRow q = s.relationRow q := by
  induction es generalizing s with
  | nil => exact ⟨fun _ h => h,fun _ => ⟨rfl,rfl⟩⟩
  | cons e es ih =>
    obtain ⟨hnode,hother,hedges⟩ := mergeEndpoint_frame cfg full sourceIds s e
    obtain ⟨hnodes,hrest⟩ := ih (mergeEndpoint cfg full sourceIds s e)
    rw [foldl_cons]
    constructor
    · intro e' he'
      apply hnodes
      by_cases hsame : e' = e
      · rw [hsame]
        exact hnode
      · rw [(hother e' hsame).1]
        exact he'
    · intro q
      rw [(hrest q).1,(hrest q).2]
      exact hedges q

theorem getNode_upsertEdge_ne_none {edge : Edge} (h : s.getNode e ≠ none) :
    (s.upsertEdge p edge).getNode e ≠ none := by
  have hkeys : e ∈ ((s.graph.ensureNode p.inf).ensureNode p.sup).nodes.keys := by
    rw [Graph.mem_keys_ensureNode,Graph.mem_keys_ensureNode]
    exact .inr (.inr (Dict.mem_keys.mpr h))
  exact Dict.mem_keys.mp hkeys

theorem mergeEdges_frame (hp : p.inf ≠ p.sup) (h : mergeEdgesThenUpsert cfg p data s = some s') :
    s'.getEdge p ≠ none ∧ (∀ e, s.getNode e ≠ none → s'.getNode e ≠ none) ∧
      ∀ q, q ≠ p → s'.relationRow q = s.relationRow q ∧ s'.getEdge q = s.getEdge q := by
  unfold mergeEdgesThenUpsert at h
  rw [if_neg hp] at h
  dsimp only at h
  split at h
  · cases hedge : s.getEdge p with
    | none =>
      rw [hedge] at h
      cases h
    | some d =>
      rw [hedge] at h
      obtain rfl := Option.some.inj h
      simp [relationRow_trackRelationIds,hedge]
      exact fun q hne hsame => absurd hsame hne
  · obtain rfl := Option.some.inj h
    generalize htracked : trackRelationIds p (fullRelationIds s p data) s = tracked
    obtain ⟨hnodes,hedges⟩ := mergeEndpoints_frame cfg (fullRelationIds s p data)
      (keptRelationIds cfg s p data) tracked [p.inf, p.sup]
    refine ⟨?_,?_,?_⟩
    · rw [Store.getEdge_upsertEdge,if_pos rfl]
      exact Option.some_ne_none _
    · intro e he
      apply getNode_upsertEdge_ne_none
      apply hnodes
      rw [← htracked,getNode_trackRelationIds]
      exact he
    · intro q hne
      rw [Store.relationRow_upsertEdge,Store.getEdge_upsertEdge,if_neg hne,(hedges q).1,
        (hedges q).2,← htracked,relationRow_trackRelationIds,if_neg hne,
        getEdge_trackRelationIds]
      exact ⟨rfl,rfl⟩

theorem mergeEdges_isSome (hp : p.inf ≠ p.sup) :
    (∃ s', mergeEdgesThenUpsert cfg p data s = some s') ↔
      s.getEdge p ≠ none ∨ ¬ Blocked cfg.sourceIdsLimitMethod cfg.maxSourceIdsPerRelation
        (existingRelationIds s p) data := by
  rw [← skipsMerge_iff]
  unfold mergeEdgesThenUpsert
  rw [if_neg hp]
  change (∃ s', (if skipsMerge cfg _ _ (keptRelationIds cfg s p data) data = true then _ else _) =
    some s') ↔ _ ∨ ¬ skipsMerge cfg _ _ (keptRelationIds cfg s p data) data = true
  split
  · rename_i hskip
    cases s.getEdge p with
    | none => simp [hskip]
    | some d => simp
  · rename_i hskip
    exact ⟨fun _ => .inr hskip,fun _ => ⟨_,rfl⟩⟩

theorem map_keptData {α : Type} (cfg : KgConfig) (sourceId : α → ChunkId)
    (tracked sourceIds : List ChunkId) (xs : List α) :
    (keptData cfg sourceId tracked sourceIds xs).map sourceId =
      keptRecords cfg tracked sourceIds (xs.map sourceId) := by
  unfold keptData keptRecords
  cases cfg.sourceIdsLimitMethod with
  | fifo => rfl
  | keep =>
    rw [filter_map]
    rfl

end

namespace DescribedStore

section

variable {cfg : MergeConfig} {summary : Object → List String → String} {s s' : DescribedStore}
  {name : Name} {p : Pair} {data : List Extracted} {relations : List ExtractedRelation}

def NodeReady (cfg : MergeConfig) (e : Name × List Extracted) (s : DescribedStore) : Prop :=
  s.store.getNode e.1 ≠ none ∨ ¬ Blocked cfg.kg.sourceIdsLimitMethod
    cfg.kg.maxSourceIdsPerEntity (existingEntityIds s.store e.1) (e.2.map Extracted.sourceId)

def EdgeReady (cfg : MergeConfig) (e : Pair × List ExtractedRelation) (s : DescribedStore) : Prop :=
  s.store.getEdge e.1 ≠ none ∨ (e.1.inf ≠ e.1.sup ∧ ¬ Blocked cfg.kg.sourceIdsLimitMethod
    cfg.kg.maxSourceIdsPerRelation (existingRelationIds s.store e.1)
      (e.2.map fun dp => dp.sourceId))

theorem mergeNodeOrRaise_ok (h : s.mergeNodeOrRaise cfg summary name data = .ok s') :
    mergeNodesThenUpsert cfg.kg name (data.map Extracted.sourceId) s.store = some s'.store := by
  unfold mergeNodeOrRaise at h
  dsimp only at h
  cases hstore : mergeNodesThenUpsert cfg.kg name (data.map Extracted.sourceId) s.store with
  | none =>
    rw [hstore] at h
    cases h
  | some store =>
    rw [hstore] at h
    dsimp only at h
    split at h
    · rw [← ok.inj h]
    · split at h
      · cases h
      · rw [← ok.inj h]

theorem mergeEdgeOrRaise_ok (hp : p.inf ≠ p.sup)
    (h : s.mergeEdgeOrRaise cfg summary p relations = .ok s') :
    mergeEdgesThenUpsert cfg.kg p (relations.map fun dp => dp.sourceId) s.store =
      some s'.store := by
  unfold mergeEdgeOrRaise at h
  rw [if_neg hp] at h
  dsimp only at h
  cases hstore : mergeEdgesThenUpsert cfg.kg p (relations.map fun dp => dp.sourceId) s.store with
  | none =>
    rw [hstore] at h
    cases h
  | some store =>
    rw [hstore] at h
    dsimp only at h
    split at h
    · rw [← ok.inj h]
    · split at h
      · cases h
      · rw [← ok.inj h]

theorem keptData_ne_nil {kg : KgConfig} {limit : ℕ} {tracked : List ChunkId} {α : Type}
    {sourceId : α → ChunkId} {xs : List α} (hxs : xs ≠ [])
    (hskip : ¬ skipsMerge kg limit tracked (applySourceIdsLimit
      (mergeSourceIds tracked (truthy (xs.map sourceId))) limit kg.sourceIdsLimitMethod)
      (xs.map sourceId) = true) :
    keptData kg sourceId tracked (applySourceIdsLimit
      (mergeSourceIds tracked (truthy (xs.map sourceId))) limit kg.sourceIdsLimitMethod) xs ≠
      [] := by
  intro hnil
  have hrecords := map_keptData kg sourceId tracked (applySourceIdsLimit
    (mergeSourceIds tracked (truthy (xs.map sourceId))) limit kg.sourceIdsLimitMethod) xs
  rw [hnil] at hrecords
  refine keptRecords_ne_nil (by simpa using hxs) (fun hkeep => ?_) hrecords.symm
  by_contra hfull
  apply hskip
  rw [skipsMerge,decide_eq_true_eq]
  exact ⟨hkeep,Nat.not_lt.mp hfull,hrecords.symm⟩

theorem node_step (hdata : data ≠ []) :
    (∃ s', s.mergeNodeOrRaise cfg summary name data = .ok s' ∧ s'.store.getNode name ≠ none) ↔
      NodeReady cfg (name, data) s := by
  rw [NodeReady,← mergeNodes_isSome]
  constructor
  · rintro ⟨s',h,-⟩
    exact ⟨s'.store,mergeNodeOrRaise_ok h⟩
  · rintro ⟨store,hstore⟩
    have hthere := (mergeNodes_frame hstore).1
    unfold mergeNodeOrRaise
    dsimp only
    rw [hstore]
    dsimp only
    split
    · exact ⟨_,rfl,hthere⟩
    · rename_i hskip
      have hkept := keptData_ne_nil hdata hskip
      rw [if_neg fun h => hkept h.2]
      exact ⟨_,rfl,hthere⟩

def Described (cfg : DescriptionConfig) (relations : List ExtractedRelation) : Prop :=
  ∀ dp ∈ relations, dp.description ≠ "" ∧ sanitize cfg dp.description ≠ ""

theorem exists_sortedDescriptions {xs : List Extracted} (hxs : xs ≠ [])
    (h : ∀ dp ∈ xs, dp.description ≠ "") : ∃ dp ∈ xs, dp.description ∈ sortedDescriptions xs := by
  obtain ⟨dp,rest,rfl⟩ := exists_cons_of_ne_nil hxs
  refine ⟨dp,mem_cons_self,mem_map.mpr ⟨dp,?_,rfl⟩⟩
  have hfresh : ¬ (dp.description = "" ∨ dp.description ∈ ([] : List String)) := by
    simpa using h dp mem_cons_self
  rw [Smallest.mem_sorted,uniqueByDescription,if_neg hfresh]
  exact mem_cons_self

theorem edgeDescriptions_ne_nil (hdescribed : Described cfg.descriptions relations)
    (h : s.keptEdges cfg p relations ≠ []) : s.edgeDescriptions cfg p relations ≠ [] := by
  have hkept : ∀ dp ∈ (s.keptEdges cfg p relations).map ExtractedRelation.toExtracted,
      dp.description ≠ "" ∧ sanitize cfg.descriptions dp.description ≠ "" := by
    intro dp hdp
    obtain ⟨r,hr,rfl⟩ := mem_map.mp hdp
    exact hdescribed r (mem_of_mem_keptData hr)
  obtain ⟨dp,hdp,hsorted⟩ :=
    exists_sortedDescriptions (by simpa using h) fun dp hdp => (hkept dp hdp).1
  apply ne_nil_of_mem
  rw [edgeDescriptions,mem_combineDescriptionsDedup]
  exact ⟨dp.description,.inr hsorted,rfl,(hkept dp hdp).2⟩

theorem edge_step (hdata : relations ≠ []) (hdescribed : Described cfg.descriptions relations) :
    (∃ s', s.mergeEdgeOrRaise cfg summary p relations = .ok s' ∧ s'.store.getEdge p ≠ none) ↔
      EdgeReady cfg (p, relations) s := by
  by_cases hp : p.inf = p.sup
  · rw [mergeEdgeOrRaise,if_pos hp,EdgeReady]
    simp [hp]
  · have hready : EdgeReady cfg (p, relations) s ↔
        ∃ store, mergeEdgesThenUpsert cfg.kg p (relations.map fun dp => dp.sourceId) s.store =
          some store := by
      rw [EdgeReady,mergeEdges_isSome hp]
      simp [hp]
    rw [hready]
    constructor
    · rintro ⟨s',h,-⟩
      exact ⟨s'.store,mergeEdgeOrRaise_ok hp h⟩
    · rintro ⟨store,hstore⟩
      have hthere := (mergeEdges_frame hp hstore).1
      rw [mergeEdgeOrRaise,if_neg hp]
      dsimp only
      rw [hstore]
      dsimp only
      split
      · exact ⟨_,rfl,hthere⟩
      · rename_i hskip
        have hkept : s.keptEdges cfg p relations ≠ [] := keptData_ne_nil hdata hskip
        rw [if_neg (edgeDescriptions_ne_nil hdescribed hkept)]
        exact ⟨_,rfl,hthere⟩

theorem existingEntityIds_congr {t t' : Store} {e : Name} (hrow : t'.entityRow e = t.entityRow e)
    (hnode : t'.getNode e = t.getNode e) : existingEntityIds t' e = existingEntityIds t e := by
  rw [existingEntityIds,existingEntityIds,hrow,hnode]

theorem existingRelationIds_congr {t t' : Store} (hrow : t'.relationRow p = t.relationRow p)
    (hedge : t'.getEdge p = t.getEdge p) : existingRelationIds t' p = existingRelationIds t p := by
  rw [existingRelationIds,existingRelationIds,hrow,hedge]

theorem nodeReady_congr (e : Name × List Extracted)
    (h : s'.store.entityRow e.1 = s.store.entityRow e.1 ∧
      s'.store.getNode e.1 = s.store.getNode e.1) : NodeReady cfg e s' ↔ NodeReady cfg e s := by
  rw [NodeReady,NodeReady,existingEntityIds_congr h.1 h.2,h.2]

theorem edgeReady_congr (e : Pair × List ExtractedRelation)
    (h : s'.store.relationRow e.1 = s.store.relationRow e.1 ∧
      s'.store.getEdge e.1 = s.store.getEdge e.1) : EdgeReady cfg e s' ↔ EdgeReady cfg e s := by
  rw [EdgeReady,EdgeReady,existingRelationIds_congr h.1 h.2,h.2]

theorem mergeEdgeOrRaise_other (h : s.mergeEdgeOrRaise cfg summary p relations = .ok s') {q : Pair}
    (hq : q ≠ p) : s'.store.relationRow q = s.store.relationRow q ∧
      s'.store.getEdge q = s.store.getEdge q := by
  by_cases hp : p.inf = p.sup
  · rw [mergeEdgeOrRaise,if_pos hp] at h
    rw [ok.inj h]
    exact ⟨rfl,rfl⟩
  · exact (mergeEdges_frame hp (mergeEdgeOrRaise_ok hp h)).2.2 q hq

theorem mergeEdgeOrRaise_nodes (h : s.mergeEdgeOrRaise cfg summary p relations = .ok s') {e : Name}
    (he : s.store.getNode e ≠ none) : s'.store.getNode e ≠ none := by
  by_cases hp : p.inf = p.sup
  · rw [mergeEdgeOrRaise,if_pos hp] at h
    rwa [← ok.inj h]
  · exact (mergeEdges_frame hp (mergeEdgeOrRaise_ok hp h)).2.1 e he

theorem pairwise_of_perm {α β : Type} {xs : List (α × β)} {d : Dict α β}
    (h : xs.Perm d.entries) : xs.Pairwise fun x y => x.1 ≠ y.1 := by
  have hnodup : (xs.map Prod.fst).Nodup := (h.map Prod.fst).nodup_iff.mpr d.nodup
  exact pairwise_map.mp hnodup

theorem nodes_run (b : Batch) (hnodes : ∀ e ∈ b.nodes, e.2 ≠ []) :
    (∃ t, b.nodes.foldlM (fun s e => mergeNodeOrRaise cfg summary e.1 e.2 s) s = .ok t ∧
      ∀ e ∈ b.nodes, t.store.getNode e.1 ≠ none) ↔ ∀ e ∈ b.nodes, NodeReady cfg e s := by
  have hother : ∀ (x y : Name × List Extracted) (s t : DescribedStore), x.1 ≠ y.1 →
      s.mergeNodeOrRaise cfg summary x.1 x.2 = .ok t →
        t.store.entityRow y.1 = s.store.entityRow y.1 ∧
          t.store.getNode y.1 = s.store.getNode y.1 := by
    intro x y s t hxy ht
    exact (mergeNodes_frame (mergeNodeOrRaise_ok ht)).2.1 y.1 (Ne.symm hxy)
  refine Results.foldlM_ok_iff ?_ ?_ ?_ (pairwise_of_perm b.nodes_perm)
  · exact fun e he s => node_step (hnodes e he)
  · exact fun x y s t hxy ht => nodeReady_congr y (hother x y s t hxy ht)
  · intro x y s t hxy ht
    rw [(hother y x s t (Ne.symm hxy) ht).2]

theorem edges_run (b : Batch) (hedges : ∀ e ∈ b.edges, e.2 ≠ [] ∧ Described cfg.descriptions e.2) :
    (∃ t, b.edges.foldlM (fun s e => mergeEdgeOrRaise cfg summary e.1 e.2 s) s = .ok t ∧
      ∀ e ∈ b.edges, t.store.getEdge e.1 ≠ none) ↔ ∀ e ∈ b.edges, EdgeReady cfg e s := by
  refine Results.foldlM_ok_iff ?_ ?_ ?_ (pairwise_of_perm b.edges_perm)
  · exact fun e he s => edge_step (hedges e he).1 (hedges e he).2
  · exact fun x y s t hxy ht => edgeReady_congr y (mergeEdgeOrRaise_other ht (Ne.symm hxy))
  · intro x y s t hxy ht
    rw [(mergeEdgeOrRaise_other ht hxy).2]

/-- A batch is merged, and all it names is in the graph, exactly if none of its objects is missing
while its full row has room for none of the chunks. -/
theorem mergeBatch_recovers_iff (cfg : MergeConfig) (summary : Object → List String → String)
    (b : Batch) (s : DescribedStore) (hnodes : ∀ e ∈ b.nodes, e.2 ≠ [])
    (hedges : ∀ e ∈ b.edges, e.2 ≠ [] ∧ Described cfg.descriptions e.2) :
    (∃ t, mergeBatchOrRaise cfg summary b s = .ok t ∧
        (∀ e ∈ b.nodes, t.store.getNode e.1 ≠ none) ∧
        ∀ e ∈ b.edges, t.store.getEdge e.1 ≠ none) ↔
      (∀ e ∈ b.nodes, NodeReady cfg e s) ∧ ∀ e ∈ b.edges, EdgeReady cfg e s := by
  have hrelations : ∀ u, b.nodes.foldlM (fun s e => mergeNodeOrRaise cfg summary e.1 e.2 s) s =
      .ok u → ∀ p, u.store.relationRow p = s.store.relationRow p ∧
        u.store.getEdge p = s.store.getEdge p := by
    intro u hu
    apply Results.foldlM_ok (fun u => ∀ p, u.store.relationRow p = s.store.relationRow p ∧
      u.store.getEdge p = s.store.getEdge p) _ (fun _ => ⟨rfl,rfl⟩) hu
    intro v e w _ hv hw p
    obtain ⟨-,-,hsame⟩ := mergeNodes_frame (mergeNodeOrRaise_ok hw)
    rw [(hsame p).1,(hsame p).2]
    exact hv p
  constructor
  · rintro ⟨t,ht,hthere,hedged⟩
    obtain ⟨u,hu,ht⟩ := Results.bind_ok ht
    have hready := (edges_run b hedges).mp ⟨t,ht,hedged⟩
    constructor
    · apply (nodes_run b hnodes).mp ⟨u,hu,?_⟩
      apply Results.foldlM_done (fun e t => t.store.getNode e.1 ≠ none) _ _ hu
      · exact fun e _ v w hw => (mergeNodes_frame (mergeNodeOrRaise_ok hw)).1
      · intro e e' v w hv hw
        obtain ⟨hself,hother,-⟩ := mergeNodes_frame (mergeNodeOrRaise_ok hw)
        by_cases hsame : e.1 = e'.1
        · rwa [hsame]
        · rwa [(hother e.1 hsame).2]
    · exact fun e he => (edgeReady_congr e (hrelations u hu e.1)).mp (hready e he)
  · rintro ⟨hnodesReady,hedgesReady⟩
    obtain ⟨u,hu,hthere⟩ := (nodes_run b hnodes).mpr hnodesReady
    obtain ⟨t,ht,hedged⟩ := (edges_run b hedges).mpr fun e he =>
      (edgeReady_congr e (hrelations u hu e.1)).mpr (hedgesReady e he)
    refine ⟨t,?_,?_,hedged⟩
    · rw [mergeBatchOrRaise,hu]
      exact ht
    · intro e he
      apply Results.foldlM_ok (fun t => t.store.getNode e.1 ≠ none) _ (hthere e he) ht
      exact fun v _ w _ hv hw => mergeEdgeOrRaise_nodes hw hv

def Ahead (s : Store) : Prop :=
  (∀ e n row, s.getNode e = some n → s.entityRow e = some row → truthy n.sourceId ⊆ row) ∧
    ∀ p d row, s.getEdge p = some d → s.relationRow p = some row →
      evidenceOnly (d.sourceId.getD []) ⊆ row

def interrupted : DescribedStore :=
  { nothing with store := trackRelationIds samplePair ["c1"] nothing.store }

theorem ahead_interrupted : Ahead interrupted.store := by
  constructor
  · exact fun e n row hn => nomatch hn
  · exact fun p d row hd => nomatch hd

theorem mergeBatch_recovers_sample : ∃ t,
    mergeBatchOrRaise sampleConfig (fun _ ds => String.join ds) (sampleBatch "c1" "x")
        interrupted = .ok t ∧ t.store.getNode "A" ≠ none ∧ t.store.getEdge samplePair ≠ none := by
  have hnodes : (sampleBatch "c1" "x").nodes = [("A", [⟨"c1","x",0⟩])] := by decide +kernel
  have hedges : (sampleBatch "c1" "x").edges = [(samplePair, [⟨⟨"c1","x",0⟩,1⟩])] := by
    decide +kernel
  have hdescribed : ∀ e ∈ (sampleBatch "c1" "x").edges,
      e.2 ≠ [] ∧ Described sampleConfig.descriptions e.2 := by
    rw [hedges]
    intro e he
    obtain rfl := mem_singleton.mp he
    refine ⟨cons_ne_nil _ _,fun dp hdp => ?_⟩
    obtain rfl := mem_singleton.mp hdp
    exact ⟨clean_x.nonempty,clean_x.sanitize_eq.symm ▸ clean_x.nonempty⟩
  obtain ⟨t,ht,hnode,hedge⟩ := (mergeBatch_recovers_iff sampleConfig
    (fun _ ds => String.join ds) (sampleBatch "c1" "x") interrupted
    (by simp [hnodes]) hdescribed).mpr (by
      rw [hnodes,hedges]
      constructor
      · intro e he
        obtain rfl := mem_singleton.mp he
        exact .inr fun h => absurd h.2.1 (by decide)
      · intro e he
        obtain rfl := mem_singleton.mp he
        refine .inr ⟨by decide +kernel,fun h => ?_⟩
        exact (h.2.2 "c1" mem_cons_self).2.1 (by decide +kernel))
  rw [hnodes] at hnode
  rw [hedges] at hedge
  exact ⟨t,ht,hnode _ mem_cons_self,hedge _ mem_cons_self⟩

/-- A chunk of another document is dropped by the row, and there is no relation to return. -/
theorem not_recovers_interrupted : Ahead interrupted.store ∧
    mergeBatchOrRaise sampleConfig (fun _ ds => String.join ds) (sampleBatch "c2" "x")
      interrupted = .error (.alreadyNodeMissing (.relation samplePair)) := by
  have herror : (match mergeBatchOrRaise sampleConfig (fun _ ds => String.join ds)
      (sampleBatch "c2" "x") interrupted with
    | .ok _ => none
    | .error e => some e) = some (.alreadyNodeMissing (.relation samplePair)) := by decide +kernel
  refine ⟨ahead_interrupted,?_⟩
  generalize mergeBatchOrRaise sampleConfig (fun _ ds => String.join ds) (sampleBatch "c2" "x")
    interrupted = result at herror ⊢
  cases result with
  | ok t => cases herror
  | error e => rw [Option.some.inj herror]

end

end DescribedStore

end LightRAG.Knowledge
