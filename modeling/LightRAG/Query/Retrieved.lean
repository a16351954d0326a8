import LightRAG.Query.Selection

/-!
# Where the merged chunks come from

Every merged chunk is a row of the vector search or a stored chunk that a record names as its
source, and no id is merged twice.
-/

namespace LightRAG.QueryPrompt
open List

variable {s : Stores} {id : String} {ids seen delivered : List String}
  {groups : List (List String)} {c : Chunk}

theorem mem_firstOccurrences : id ∈ firstOccurrences seen ids ↔ id ∈ ids ∧ id ∉ seen := by
  induction ids generalizing seen with
  | nil => simp [firstOccurrences]
  | cons a as ih =>
    rw [firstOccurrences]
    by_cases ha : a ∈ seen
    · rw [if_pos ha,ih,mem_cons]
      constructor
      · exact fun h => ⟨.inr h.1,h.2⟩
      · rintro ⟨rfl | hin,hnew⟩
        · exact absurd ha hnew
        · exact ⟨hin,hnew⟩
    · rw [if_neg ha,mem_cons,ih,mem_cons]
      by_cases heq : id = a
      · simp [heq,ha]
      · simp [heq]

theorem mem_flatten_dedupGroups (hmem : id ∈ (dedupGroups seen groups).flatten) :
    id ∈ groups.flatten := by
  induction groups generalizing seen with
  | nil => exact hmem
  | cons group rest ih =>
    rw [dedupGroups,flatten_cons,mem_append] at hmem
    rw [flatten_cons,mem_append]
    exact hmem.imp (fun h => (mem_firstOccurrences.mp h).1) ih

theorem mem_flatten_sortedGroups (hmem : id ∈ (sortedGroups delivered groups).flatten) :
    id ∈ groups.flatten := by
  obtain ⟨group,hgroup,hid⟩ := mem_flatten.mp hmem
  obtain ⟨kept,hkept,rfl⟩ := mem_map.mp hgroup
  have hkeptIn := (mem_filter.mp hkept).1
  have hin : id ∈ (dedupGroups delivered (groups.filter (· ≠ []))).flatten :=
    mem_flatten.mpr ⟨kept,hkeptIn,(mem_insertionSort _).mp hid⟩
  obtain ⟨g,hg,hidg⟩ := mem_flatten.mp (mem_flatten_dedupGroups hin)
  exact mem_flatten.mpr ⟨g,(mem_filter.mp hg).1,hidg⟩

theorem mem_allocate {found : String × List (List String)} (h : allocate groups = some found) :
    found.1 ∈ groups.flatten ∧ ∀ x ∈ found.2.flatten, x ∈ groups.flatten := by
  induction groups generalizing found with
  | nil => cases h
  | cons group rest ih =>
    cases group with
    | nil =>
      obtain ⟨inner,hinner,rfl⟩ := Option.map_eq_some_iff.mp h
      have hleft := ih hinner
      exact hleft
    | cons a as =>
      cases h
      constructor
      · exact mem_flatten.mpr ⟨a :: as,mem_cons_self,mem_cons_self⟩
      · intro x hx
        rw [flatten_cons,mem_append] at hx
        rw [flatten_cons,mem_append]
        exact hx.imp (mem_cons_of_mem a) fun h => h

theorem mem_allocateRounds (n : ℕ) (hmem : id ∈ allocateRounds n groups) :
    id ∈ groups.flatten := by
  induction n generalizing groups with
  | zero => cases hmem
  | succ n ih =>
    rw [allocateRounds] at hmem
    cases hfound : allocate groups with
    | none =>
      rw [hfound] at hmem
      cases hmem
    | some found =>
      rw [hfound] at hmem
      obtain ⟨hfirst,hrest⟩ := mem_allocate hfound
      cases hmem with
      | head => exact hfirst
      | tail _ hlater => exact hrest id (ih hlater)

theorem mem_firstRound (maxRelated n : ℕ) :
    ∀ i (groups : List (List String)),
      (∀ x ∈ (firstRound maxRelated n i groups).1, x ∈ groups.flatten) ∧
        ∀ x ∈ (firstRound maxRelated n i groups).2.1.flatten, x ∈ groups.flatten := by
  intro i groups
  induction groups generalizing i with
  | nil => exact ⟨fun x hx => hx,fun x hx => hx⟩
  | cons group rest ih =>
    obtain ⟨htaken,hleft⟩ := ih (i + 1)
    constructor
    · intro x hx
      simp only [firstRound,mem_append] at hx
      rw [flatten_cons,mem_append]
      exact hx.imp mem_of_mem_take (htaken x)
    · intro x hx
      simp only [firstRound,flatten_cons,mem_append] at hx
      rw [flatten_cons,mem_append]
      exact hx.imp mem_of_mem_drop (hleft x)

theorem mem_pickByWeightedPolling {maxRelated : ℕ}
    (hmem : id ∈ pickByWeightedPolling groups maxRelated) : id ∈ groups.flatten := by
  match groups, hmem with
  | [group], hmem =>
    rw [flatten_cons,flatten_nil,append_nil]
    exact mem_of_mem_take hmem
  | g₁ :: g₂ :: rest, hmem =>
    rw [pickByWeightedPolling] at hmem
    · split at hmem
      · cases hmem
      · obtain ⟨htaken,hleft⟩ := mem_firstRound maxRelated (g₁ :: g₂ :: rest).length 0
          (g₁ :: g₂ :: rest)
        cases mem_append.mp hmem with
        | inl h => exact htaken id h
        | inr h => exact hleft id (mem_allocateRounds _ h)
    · exact fun h => nomatch h
    · exact fun group h => nomatch h

theorem mem_scored {similarity : String → Similarity} {p : String × ℚ}
    (hmem : p ∈ scored similarity ids) : p.1 ∈ ids := by
  induction ids with
  | nil => cases hmem
  | cons a as ih =>
    rw [scored] at hmem
    split at hmem
    · cases hmem with
      | head => exact mem_cons_self
      | tail _ hlater => exact mem_cons_of_mem a (ih hlater)
    · exact mem_cons_of_mem a (ih hmem)

theorem mem_pickByVectorSimilarity {similarities : Option (String → Similarity)} {num : ℕ}
    (hmem : id ∈ pickByVectorSimilarity similarities num groups) : id ∈ groups.flatten := by
  simp only [pickByVectorSimilarity] at hmem
  split at hmem
  · cases hmem
  · cases similarities with
    | none => exact (mem_firstOccurrences.mp (mem_of_mem_take hmem)).1
    | some similarity =>
      simp only at hmem
      split at hmem
      · cases hmem
      · obtain ⟨p,hp,rfl⟩ := mem_map.mp hmem
        have hsorted := (mem_insertionSort _).mp (mem_of_mem_take hp)
        exact (mem_firstOccurrences.mp (mem_scored hsorted)).1

theorem mem_selectedChunkIds (hmem : id ∈ selectedChunkIds s groups) : id ∈ groups.flatten := by
  simp only [selectedChunkIds] at hmem
  split at hmem
  · cases hmem
  · exact mem_pickByWeightedPolling hmem
  · split at hmem
    · cases hmem
    · split at hmem
      · exact mem_pickByWeightedPolling hmem
      · split at hmem
        · exact mem_pickByWeightedPolling hmem
        · exact mem_pickByVectorSimilarity hmem

def Retrieved (s : Stores) (sources : List (Option String)) (rows : List VectorRow) (c : Chunk) :
    Prop :=
  (∃ row ∈ rows, c.chunkId = row.id ∧ c.content = row.content ∧
      c.filePath = some (row.filePath.getD "unknown_source")) ∨
    ∃ source ∈ sources, ∃ id ∈ sourceChunks source, ∃ row, s.textChunks id = some row ∧
      c.chunkId = some id ∧ c.content = row.content ∧
      c.filePath = some (row.filePath.getD "unknown_source")

variable {rows : List VectorRow}

theorem Retrieved.mono {sources sources' : List (Option String)}
    (h : Retrieved s sources rows c) (hsub : ∀ x ∈ sources, x ∈ sources') :
    Retrieved s sources' rows c := by
  apply h.imp (fun h => h)
  intro ⟨source,hsource,hnamed⟩
  exact ⟨source,hsub source hsource,hnamed⟩

theorem of_mem_findRelatedTextUnits {sources : List (Option String)}
    (hmem : c ∈ findRelatedTextUnits s delivered sources) :
    ∃ source ∈ sources, ∃ id ∈ sourceChunks source, ∃ row, s.textChunks id = some row ∧
      c.chunkId = some id ∧ c.content = row.content ∧ row.content ≠ none ∧
      c.filePath = row.filePath := by
  obtain ⟨id,hid,hstored⟩ := mem_filterMap.mp hmem
  have hgroups := mem_flatten_sortedGroups (mem_selectedChunkIds (mem_firstOccurrences.mp hid).1)
  obtain ⟨group,hgroup,hidGroup⟩ := mem_flatten.mp hgroups
  obtain ⟨source,hsource,rfl⟩ := mem_map.mp hgroup
  cases hrow : s.textChunks id with
  | none =>
    rw [hrow] at hstored
    cases hstored
  | some row =>
    rw [hrow] at hstored
    obtain ⟨content,hcontent,rfl⟩ := Option.map_eq_some_iff.mp hstored
    refine ⟨source,hsource,id,hidGroup,row,hrow,rfl,hcontent.symm,?_,rfl⟩
    rw [hcontent]
    exact Option.some_ne_none content

theorem of_mem_getVectorContext (hmem : c ∈ getVectorContext rows) :
    c.content ≠ none ∧ ∃ row ∈ rows, c.chunkId = row.id ∧ c.content = row.content ∧
      c.filePath = some (row.filePath.getD "unknown_source") := by
  obtain ⟨row,hrow,hchunk⟩ := mem_filterMap.mp hmem
  obtain ⟨content,hcontent,rfl⟩ := Option.map_eq_some_iff.mp hchunk
  exact ⟨Option.some_ne_none content,row,hrow,rfl,hcontent.symm,rfl⟩

theorem mem_roundRobin {vectorChunks entityChunks relationChunks : List Chunk}
    (hmem : c ∈ roundRobin vectorChunks entityChunks relationChunks) :
    c ∈ vectorChunks ∨ c ∈ entityChunks ∨ c ∈ relationChunks := by
  obtain ⟨i,_,hc⟩ := mem_flatMap.mp hmem
  simp only [mem_append,Option.mem_toList] at hc
  rcases hc with (h | h) | h
  · exact .inl (mem_of_getElem? h)
  · exact .inr (.inl (mem_of_getElem? h))
  · exact .inr (.inr (mem_of_getElem? h))

theorem eq_of_truthy {o : Option String} (h : truthy o = some id) : o = some id := by
  cases o with
  | none => cases h
  | some x =>
    simp only [truthy] at h
    split at h
    · cases h
    · exact h

theorem of_mem_mergeSeen {cs : List Chunk} (hmem : c ∈ mergeSeen seen cs) :
    ∃ c' ∈ cs, ∃ id, id ∉ seen ∧ c'.mergeId = some id ∧ c.chunkId = some id ∧
      c.content = c'.content ∧ c.filePath = some (c'.filePath.getD "unknown_source") := by
  induction cs generalizing seen with
  | nil => cases hmem
  | cons d ds ih =>
    have hlater : ∀ {seen'}, (∀ x ∈ seen, x ∈ seen') → c ∈ mergeSeen seen' ds →
        ∃ c' ∈ d :: ds, ∃ id, id ∉ seen ∧ c'.mergeId = some id ∧ c.chunkId = some id ∧
          c.content = c'.content ∧ c.filePath = some (c'.filePath.getD "unknown_source") := by
      intro seen' hsub hin
      obtain ⟨c',hc',id,hnew,hrest⟩ := ih hin
      exact ⟨c',mem_cons_of_mem d hc',id,fun h => hnew (hsub id h),hrest⟩
    rw [mergeSeen] at hmem
    cases hid : d.mergeId with
    | none =>
      rw [hid] at hmem
      exact hlater (fun x hx => hx) hmem
    | some id =>
      rw [hid] at hmem
      simp only at hmem
      split at hmem
      · exact hlater (fun x hx => hx) hmem
      case isFalse hnew =>
        cases hmem with
        | head => exact ⟨d,mem_cons_self,id,hnew,hid,rfl,rfl,rfl⟩
        | tail _ hin => exact hlater (fun x hx => mem_cons_of_mem id hx) hin

theorem nodup_mergeSeen (seen : List String) (cs : List Chunk) :
    ((mergeSeen seen cs).map Chunk.chunkId).Nodup := by
  induction cs generalizing seen with
  | nil => exact nodup_nil
  | cons d ds ih =>
    rw [mergeSeen]
    cases hid : d.mergeId with
    | none => exact ih seen
    | some id =>
      simp only
      split
      · exact ih seen
      · rw [map_cons,nodup_cons]
        refine ⟨?_,ih _⟩
        intro hmem
        obtain ⟨c,hc,hcid⟩ := mem_map.mp hmem
        obtain ⟨c',_,id',hnew,_,hid',_⟩ := of_mem_mergeSeen hc
        rw [hid'] at hcid
        cases hcid
        exact hnew mem_cons_self

@[simp] theorem chunkId_attachContentHeadings (s : Stores) (c : Chunk) :
    (attachContentHeadings s c).chunkId = c.chunkId := by
  unfold attachContentHeadings
  split
  · split
    · split <;> rfl
    · rfl
  · rfl

@[simp] theorem content_attachContentHeadings (s : Stores) (c : Chunk) :
    (attachContentHeadings s c).content = c.content := by
  unfold attachContentHeadings
  split
  · split
    · split <;> rfl
    · rfl
  · rfl

@[simp] theorem filePath_attachContentHeadings (s : Stores) (c : Chunk) :
    (attachContentHeadings s c).filePath = c.filePath := by
  unfold attachContentHeadings
  split
  · split
    · split <;> rfl
    · rfl
  · rfl

theorem nodup_mergeAllChunks (s : Stores) (entitySources relationSources : List (Option String))
    (vectorChunks : List Chunk) :
    ((mergeAllChunks s entitySources relationSources vectorChunks).map Chunk.chunkId).Nodup := by
  have hids : ∀ cs : List Chunk,
      (cs.map (attachContentHeadings s)).map Chunk.chunkId = cs.map Chunk.chunkId := by
    intro cs
    rw [map_map]
    exact map_congr_left fun c _ => chunkId_attachContentHeadings s c
  rw [mergeAllChunks,hids]
  exact nodup_mergeSeen _ _

theorem id_findRelatedTextUnits {sources : List (Option String)}
    (hmem : c ∈ findRelatedTextUnits s delivered sources) : c.id = none := by
  obtain ⟨id,_,hstored⟩ := mem_filterMap.mp hmem
  split at hstored
  · obtain ⟨content,_,rfl⟩ := Option.map_eq_some_iff.mp hstored
    rfl
  · cases hstored

theorem id_getVectorContext (hmem : c ∈ getVectorContext rows) :
    c.id = none := by
  obtain ⟨row,_,hchunk⟩ := mem_filterMap.mp hmem
  obtain ⟨content,_,rfl⟩ := Option.map_eq_some_iff.mp hchunk
  rfl

theorem chunkId_of_mergeId (hid : c.mergeId = some id) (hc : c.id = none) :
    c.chunkId = some id := by
  unfold Chunk.mergeId at hid
  split at hid
  case h_1 x hx =>
    cases hid
    exact eq_of_truthy hx
  · rw [hc] at hid
    cases hid

theorem of_mem_mergeAllChunks {entitySources relationSources : List (Option String)}
    (hmem : c ∈ mergeAllChunks s entitySources relationSources (getVectorContext rows)) :
    c.content ≠ none ∧ Retrieved s (entitySources ++ relationSources) rows c := by
  obtain ⟨m,hm,rfl⟩ := mem_map.mp hmem
  obtain ⟨o,ho,id,_,hmid,hid,hcontent,hpath⟩ := of_mem_mergeSeen hm
  have hstored : ∀ {delivered sources}, o ∈ findRelatedTextUnits s delivered sources →
      (∀ x ∈ sources, x ∈ entitySources ++ relationSources) →
      m.content ≠ none ∧ Retrieved s (entitySources ++ relationSources) rows m := by
    intro delivered sources hin hsub
    obtain ⟨source,hsource,id',hid',row,hrow,hoid,hocontent,hsome,hopath⟩ :=
      of_mem_findRelatedTextUnits hin
    rw [chunkId_of_mergeId hmid (id_findRelatedTextUnits hin)] at hoid
    cases hoid
    refine ⟨by rw [hcontent,hocontent]; exact hsome,.inr ⟨source,hsub source hsource,id,hid',
      row,hrow,hid,hcontent.trans hocontent,?_⟩⟩
    rw [hpath,hopath]
  have hm' : m.content ≠ none ∧ Retrieved s (entitySources ++ relationSources) rows m := by
    rcases mem_roundRobin ho with hvector | hentity | hrelation
    · obtain ⟨hsome,row,hrow,hoid,hocontent,hopath⟩ := of_mem_getVectorContext hvector
      refine ⟨by rw [hcontent]; exact hsome,.inl ⟨row,hrow,?_,hcontent.trans hocontent,?_⟩⟩
      · rw [hid,← hoid]
        exact (chunkId_of_mergeId hmid (id_getVectorContext hvector)).symm
      · rw [hpath,hopath,Option.getD_some]
    · exact hstored hentity fun x hx => mem_append_left _ hx
    · exact hstored hrelation fun x hx => mem_append_right _ hx
  unfold Retrieved
  rw [content_attachContentHeadings,chunkId_attachContentHeadings,filePath_attachContentHeadings]
  exact hm'

end LightRAG.QueryPrompt
