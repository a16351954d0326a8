import LightRAG.Pipeline.Enqueue

/-!
# The outcomes of an enqueue call

The inputs of a call and the rows it writes are counted against each other: every input has a row
of its own exactly where no two of the rows fall together.
-/

namespace LightRAG.Enqueue
open List Function

section Accounting

variable {host : Host} {request : Request} {store store' : Store} {item a b : Item} {docId : DocId}

/-- The hash tells texts apart, and a set is gone through once. -/
structure Host.Lawful (host : Host) : Prop where
  computeArgsHash : Function.Injective host.computeArgsHash
  newOrder : ∀ docIds, (host.newOrder docIds).Perm docIds
  ignoredOrder : ∀ docIds, (host.ignoredOrder docIds).Perm docIds

theorem index_itemsOf : ((itemsOf host request).map Item.index).Nodup := by
  unfold itemsOf
  rw [mapIdx_eq_zipIdx_map,map_map]
  have hindex : ∀ entries : List (String × String), (entries.zipIdx.map fun e => e.2).Nodup := by
    intro entries
    rw [zipIdx_map_snd]
    exact nodup_range'
  exact hindex _

theorem mem_itemsOf (h : item ∈ itemsOf host request) :
    item.index < request.input.length ∧ item.format = formatOf request ∧
      ∃ path, item.filePath = normalizeDocumentFilePath host path := by
  obtain ⟨index,hlt,rfl⟩ := mem_mapIdx.mp h
  refine ⟨?_,rfl,_,rfl⟩
  rw [length_zip] at hlt
  exact Nat.lt_of_lt_of_le hlt (Nat.min_le_left _ _)

theorem mem_first (h : item ∈ firstItems host request) : item ∈ itemsOf host request :=
  sift_perm.subset (mem_append_left _ h)

theorem eq_of_index (ha : a ∈ itemsOf host request) (hb : b ∈ itemsOf host request)
    (h : a.index = b.index) : a = b :=
  inj_on_of_nodup_map index_itemsOf ha hb h

theorem filePath_of_unknown (h : item ∈ itemsOf host request) (hknown : item.known = false) :
    item.filePath = "unknown_source" := by
  obtain ⟨-,-,path,hpath⟩ := mem_itemsOf h
  unfold Item.known hasKnownDocumentSource at hknown
  rw [hpath] at hknown ⊢
  unfold normalizeDocumentFilePath at hknown ⊢
  dsimp only at hknown ⊢
  split
  · rfl
  · rename_i hsource
    rw [if_neg hsource] at hknown
    split
    · rfl
    · rename_i hcanonical
      simp [hcanonical] at hknown

theorem computeMdhashId_inj (h : host.Lawful) {s t documentClass : String}
    (heq : computeMdhashId host s documentClass = computeMdhashId host t documentClass) : s = t := by
  apply h.computeArgsHash
  exact (String.append_right_inj documentClass).mp heq

theorem eq_of_unknown (ha : a ∈ firstItems host request)
    (hb : b ∈ firstItems host request) (haknown : a.known = false) (hbknown : b.known = false)
    (hseed : a.seed request.trackId = b.seed request.trackId) : a = b := by
  obtain ⟨-,haformat,-⟩ := mem_itemsOf (mem_first ha)
  obtain ⟨-,hbformat,-⟩ := mem_itemsOf (mem_first hb)
  unfold Item.seed at hseed
  rw [haknown,hbknown,haformat,hbformat] at hseed
  cases hformat : formatOf request with
  | raw =>
    rw [hformat] at hseed haformat hbformat
    apply eq_of_repeats ha hb
    right
    unfold Item.contentHash
    rw [haformat,hbformat]
    exact ⟨Option.some_ne_none _,congrArg some (congrArg _ hseed.symm)⟩
  | pendingParse =>
    rw [hformat] at hseed
    apply eq_of_index (mem_first ha) (mem_first hb)
    rw [filePath_of_unknown (mem_first ha) haknown,
      filePath_of_unknown (mem_first hb) hbknown] at hseed
    exact Framing.repr_injective ((String.append_right_inj _).mp hseed)

theorem ids_nodup_iff (h : host.Lawful)
    (hids : ∀ ids, request.ids = some ids → ids.length = request.input.length ∧ ids.Nodup) :
    ((firstItems host request).map (Item.docId host request)).Nodup ↔
      (request.ids = none → ∀ a ∈ firstItems host request, ∀ b ∈ firstItems host request,
        a.known = false → b.known = true → a.seed request.trackId ≠ b.filePath) := by
  have hnodup : (firstItems host request).Nodup :=
    (nodup_append.mp (sift_perm.nodup_iff.mpr (List.Nodup.of_map _ index_itemsOf))).1
  cases hrequest : request.ids with
  | some ids =>
    obtain ⟨hlength,hids⟩ := hids ids hrequest
    constructor
    · intro _ hnone
      cases hnone
    intro _
    apply hnodup.map_on
    intro a ha b hb heq
    have haindex := (mem_itemsOf (mem_first ha)).1
    have hbindex := (mem_itemsOf (mem_first hb)).1
    rw [← hlength] at haindex hbindex
    unfold Item.docId at heq
    rw [hrequest] at heq
    simp only [getD_eq_getElem?_getD,List.getElem?_eq_getElem haindex,
      List.getElem?_eq_getElem hbindex] at heq
    exact eq_of_index (mem_first ha) (mem_first hb) (hids.getElem_inj_iff.mp heq)
  | none =>
    have hdocId : ∀ item : Item, item.docId host request =
        computeMdhashId host (item.seed request.trackId) "doc-" := by
      intro item
      unfold Item.docId
      rw [hrequest]
    constructor
    · intro hdistinct _ a ha b hb haknown hbknown hseed
      have hseedb : b.seed request.trackId = b.filePath := by
        unfold Item.seed
        rw [if_pos hbknown]
      have heq : a = b := by
        apply inj_on_of_nodup_map hdistinct ha hb
        rw [hdocId,hdocId,hseed,hseedb]
      rw [heq,hbknown] at haknown
      cases haknown
    · intro hapart
      apply hnodup.map_on
      intro a ha b hb heq
      rw [hdocId,hdocId] at heq
      have hseed := computeMdhashId_inj h heq
      have hknownSeed : ∀ item : Item, item.known = true →
          item.seed request.trackId = item.filePath := by
        intro item hknown
        unfold Item.seed
        rw [if_pos hknown]
      cases haknown : a.known with
      | true =>
        cases hbknown : b.known with
        | true =>
          rw [hknownSeed a haknown,hknownSeed b hbknown] at hseed
          exact eq_of_repeats ha hb (.inl ⟨haknown,hseed.symm⟩)
        | false =>
          rw [hknownSeed a haknown] at hseed
          exact absurd hseed.symm (hapart rfl b hb a ha hbknown haknown)
      | false =>
        cases hbknown : b.known with
        | true =>
          rw [hknownSeed b hbknown] at hseed
          exact absurd hseed (hapart rfl a ha b hb haknown hbknown)
        | false => exact eq_of_unknown ha hb haknown hbknown hseed

theorem perm_filterMap {α β : Type} {f : α → Option β} {g : β → α}
    (hg : ∀ x y, f x = some y → g y = x) (l : List α) :
    ((l.filterMap f).map g ++ l.filter fun x => (f x).isNone).Perm l := by
  induction l with
  | nil => rfl
  | cons x l ih =>
    cases hx : f x with
    | none =>
      rw [filterMap_cons_none hx,filter_cons_of_pos (by simp [hx])]
      exact perm_middle.trans (ih.cons x)
    | some y =>
      rw [filterMap_cons_some hx,filter_cons_of_neg (by simp [hx]),map_cons,hg x y hx]
      exact ih.cons x

theorem docId_existingDuplicate {docStatus : Dict DocId Row} {content : Content} {attempt : Attempt}
    (h : existingDuplicate host docStatus docId content = some attempt) :
    attempt.docId = docId ∧ attempt.filePath = content.filePath := by
  unfold existingDuplicate at h
  split at h
  · cases h
    exact ⟨rfl,rfl⟩
  · cases h
    exact ⟨rfl,rfl⟩
  · obtain ⟨⟨existingDocId,row⟩,-,rfl⟩ := Option.map_eq_some_iff.mp h
    exact ⟨rfl,rfl⟩

section Lists

variable {docStatus : Dict DocId Row} {contents : Dict DocId Content} {attempts : List Attempt}

theorem newIds_perm (h : host.Lawful) : (newIds host docStatus contents).Perm
    (contents.keys.filter fun docId => docStatus.get docId = none) :=
  h.newOrder _

theorem existing_perm (h : host.Lawful) :
    ((existingDuplicates host docStatus contents).map Attempt.docId ++
      admittedIds host docStatus contents).Perm
        (contents.keys.filter fun docId => docStatus.get docId = none) := by
  refine (perm_filterMap ?_ _).trans (newIds_perm h)
  intro docId attempt hattempt
  obtain ⟨content,-,hduplicate⟩ := Option.bind_eq_some_iff.mp hattempt
  exact (docId_existingDuplicate hduplicate).1

theorem mem_admitted (h : host.Lawful) (hmem : docId ∈ admittedIds host docStatus contents) :
    docId ∈ contents.keys ∧ docStatus.get docId = none := by
  have hnew := (existing_perm h).subset (mem_append_right _ hmem)
  simpa using hnew

theorem nodup_admitted (h : host.Lawful) : (admittedIds host docStatus contents).Nodup := by
  have hperm : (_ ++ admittedIds host docStatus contents).Perm _ := existing_perm h
  have hnodup := hperm.nodup_iff.mpr (contents.nodup.filter _)
  exact (nodup_append.mp hnodup).2.1

theorem ignored_perm (h : host.Lawful) :
    ((ignoredDuplicates host docStatus contents
      (attempts ++ existingDuplicates host docStatus contents)).map Attempt.docId).Perm
        ((contents.keys.filter fun docId => docStatus.get docId ≠ none).filter fun docId =>
          docId ∉ attempts.map Attempt.docId) := by
  let earlier := attempts ++ existingDuplicates host docStatus contents
  have hmap : ∀ docIds : List DocId, (∀ docId ∈ docIds, docId ∈ contents.keys) →
      (docIds.filterMap fun docId =>
        if earlier.any fun attempt => attempt.docId = docId then none
        else (contents.get docId).map (ignoredDuplicate docStatus docId)).map Attempt.docId =
          docIds.filter fun docId => docId ∉ earlier.map Attempt.docId := by
    intro docIds hdocIds
    induction docIds with
    | nil => rfl
    | cons docId docIds ih =>
      have hrest := ih fun docId hmem => hdocIds docId (mem_cons_of_mem _ hmem)
      obtain ⟨content,hcontent⟩ := Option.ne_none_iff_exists'.mp
        (Dict.mem_keys.mp (hdocIds docId mem_cons_self))
      by_cases hany : docId ∈ earlier.map Attempt.docId
      · have hskip : (earlier.any fun attempt => attempt.docId = docId) = true := by
          simpa [any_eq_true] using hany
        rw [filterMap_cons_none (by rw [hskip]; rfl),filter_cons_of_neg (by simpa using hany)]
        exact hrest
      · have hskip : (earlier.any fun attempt => attempt.docId = docId) = false := by
          simpa [any_eq_true] using hany
        rw [filterMap_cons_some (by rw [hskip,hcontent]; rfl),
          filter_cons_of_pos (by simpa using hany),map_cons,hrest]
        rfl
  have horder := h.ignoredOrder
    (contents.keys.filter fun docId => docId ∉ admittedIds host docStatus contents)
  unfold ignoredDuplicates
  rw [hmap _ fun docId hmem => (mem_filter.mp (horder.subset hmem)).1]
  apply (horder.filter _).trans
  rw [filter_filter,filter_filter]
  apply List.Perm.of_eq
  apply filter_congr
  intro docId hdocId
  have hsplit : (docId ∈ (existingDuplicates host docStatus contents).map Attempt.docId ∨
      docId ∈ admittedIds host docStatus contents) ↔ docStatus.get docId = none := by
    rw [← mem_append,(existing_perm h).mem_iff]
    simp [hdocId]
  simp only [earlier,map_append,mem_append,← hsplit,decide_not,Bool.decide_or,Bool.not_or]
  ac_rfl

end Lists

def recordIds (host : Host) (request : Request) (docStatus : Dict DocId Row) : List DocId :=
  (duplicateDocs host request.trackId (attemptsOf host request docStatus)).map Prod.fst

def Admitted (store : Store) (item : Item) (docId : DocId) : Prop :=
  (∃ row, store.docStatus.get docId = some row ∧ row.status = .pending ∧ row.duplicate = none) ∧
    ∃ content, store.fullDocs.get docId = some content ∧ content.content = item.content ∧
      content.filePath = item.filePath

def Recorded (request : Request) (store : Store) (item : Item) (docId : DocId) : Prop :=
  ∃ row, store.docStatus.get docId = some row ∧ row.status = .failed ∧
    row.duplicate.isSome = true ∧ row.trackId = request.trackId ∧ row.filePath = item.filePath

/-- Every input has a row of its own, and the call does nothing else to the rows. -/
structure Outcomes (host : Host) (request : Request) (store store' : Store)
    (outcomes : List (Item × DocId)) : Prop where
  inputs : (outcomes.map Prod.fst).Perm (itemsOf host request)
  rows : (outcomes.map Prod.snd).Nodup
  new : ∀ outcome ∈ outcomes, store.docStatus.get outcome.2 = none
  settled : ∀ outcome ∈ outcomes,
    Admitted store' outcome.1 outcome.2 ∨ Recorded request store' outcome.1 outcome.2
  kept : ∀ docId row, store.docStatus.get docId = some row →
    store'.docStatus.get docId = some row
  complete : ∀ docId, store.docStatus.get docId = none → store'.docStatus.get docId ≠ none →
    docId ∈ outcomes.map Prod.snd

def Accounted (host : Host) (request : Request) (store store' : Store) : Prop :=
  ∃ outcomes, Outcomes host request store store' outcomes

/-- No two rows of the call fall together. -/
structure Apart (host : Host) (request : Request) (docStatus : Dict DocId Row) : Prop where
  texts : request.ids = none → ∀ a ∈ firstItems host request, ∀ b ∈ firstItems host request,
    a.known = false → b.known = true → a.seed request.trackId ≠ b.filePath
  ignored : ∀ a ∈ firstItems host request, docStatus.get (a.docId host request) ≠ none →
    ∀ b ∈ repeatedItems host request, b.docId host request ≠ a.docId host request
  records : (recordIds host request docStatus).Nodup
  fresh : ∀ docId ∈ recordIds host request docStatus, docStatus.get docId = none ∧
    docId ∉ admittedIds host docStatus (batchOf host request).contents

section Rows

variable {docStatus : Dict DocId Row}

theorem length_recordIds :
    (recordIds host request docStatus).length = (attemptsOf host request docStatus).length := by
  simp [recordIds,duplicateDocs]

theorem enqueue_ok (hok : enqueue host request store = .ok store') :
    (∀ ids, request.ids = some ids → ids.length = request.input.length ∧ ids.Nodup) ∧
      store'.docStatus = (store.docStatus.update (duplicateDocs host request.trackId
        (attemptsOf host request store.docStatus))).update
          ((admittedContents host store.docStatus (batchOf host request).contents).map
            fun (docId, content) => (docId, initialDocStatus host request.trackId docId content)) ∧
      store'.fullDocs = store.fullDocs.update
        (admittedContents host store.docStatus (batchOf host request).contents) := by
  unfold enqueue at hok
  split at hok
  · cases hok
  split at hok
  · cases hok
  rename_i hlength
  split at hok
  · cases hok
  rename_i hnodup
  dsimp only at hok
  split at hok
  · cases hok
  cases hok
  refine ⟨?_,rfl,rfl⟩
  intro ids hids
  rw [hids] at hlength hnodup
  exact ⟨by simpa using hlength,by simpa using hnodup⟩

theorem fst_admittedContents (h : host.Lawful) {contents : Dict DocId Content} :
    (admittedContents host docStatus contents).map Prod.fst =
      admittedIds host docStatus contents := by
  have hmem : ∀ docId ∈ admittedIds host docStatus contents,
      docId ∈ contents.keys ∧ docStatus.get docId = none := fun _ => mem_admitted h
  unfold admittedContents
  generalize admittedIds host docStatus contents = docIds at hmem ⊢
  induction docIds with
  | nil => rfl
  | cons docId docIds ih =>
    obtain ⟨content,hcontent⟩ := Option.ne_none_iff_exists'.mp
      (Dict.mem_keys.mp (hmem docId mem_cons_self).1)
    rw [filterMap_cons_some (by rw [hcontent]; rfl),map_cons,
      ih fun docId hdocId => hmem docId (mem_cons_of_mem _ hdocId)]

theorem mem_written (h : host.Lawful) (hok : enqueue host request store = .ok store') :
    store'.docStatus.get docId ≠ none ↔ store.docStatus.get docId ≠ none ∨
      docId ∈ recordIds host request store.docStatus ++
        admittedIds host store.docStatus (batchOf host request).contents := by
  obtain ⟨-,hstatus,-⟩ := enqueue_ok hok
  have hadmitted : _ = admittedIds host store.docStatus (batchOf host request).contents :=
    fst_admittedContents h
  rw [← Dict.mem_keys,hstatus,Dict.mem_keys_update,Dict.mem_keys_update,Dict.mem_keys,
    mem_append,← hadmitted,map_map,or_assoc]
  rfl

theorem docIds_duplicateAttempts : (batchOf host request).duplicateAttempts.map Attempt.docId =
    (repeatedItems host request).map (Item.docId host request) := by
  have hsifted : Sifted host request (batchOf host request) _ _ := sifted_batchOf
  have hattempts := congrArg (List.map Prod.fst) hsifted.attempts
  rw [map_map,map_map] at hattempts
  exact hattempts

def storedIds (host : Host) (request : Request) (docStatus : Dict DocId Row) : List DocId :=
  (batchOf host request).contents.keys.filter fun docId => docStatus.get docId ≠ none

theorem length_written (h : host.Lawful) : (recordIds host request docStatus ++
    admittedIds host docStatus (batchOf host request).contents).length +
      (storedIds host request docStatus).length =
        (repeatedItems host request).length + (batchOf host request).contents.keys.length +
          ((storedIds host request docStatus).filter fun docId =>
            docId ∉ (repeatedItems host request).map (Item.docId host request)).length := by
  have hdocIds : (batchOf host request).duplicateAttempts.map Attempt.docId = _ :=
    docIds_duplicateAttempts
  have hrepeated := congrArg List.length hdocIds
  have hexisting : (_ ++ admittedIds host docStatus (batchOf host request).contents).length = _ :=
    (existing_perm h).length_eq
  have hignored : ((ignoredDuplicates host docStatus (batchOf host request).contents
      ((batchOf host request).duplicateAttempts ++
        existingDuplicates host docStatus (batchOf host request).contents)).map
          Attempt.docId).length = _ := (ignored_perm h).length_eq
  rw [hdocIds] at hignored
  have hkeys := length_eq_length_filter_add (l := (batchOf host request).contents.keys)
    (fun docId => docStatus.get docId = none)
  have hstored : (storedIds host request docStatus).length =
      ((batchOf host request).contents.keys.filter fun docId =>
        !decide (docStatus.get docId = none)).length := by
    unfold storedIds
    simp
  unfold storedIds at hstored ⊢
  simp only [length_map,length_append] at hrepeated hexisting hignored
  rw [length_append,length_recordIds]
  unfold attemptsOf
  simp only [length_append]
  omega

theorem apart_of_accounted (h : host.Lawful) (hok : enqueue host request store = .ok store')
    (haccounted : Accounted host request store store') : Apart host request store.docStatus := by
  obtain ⟨outcomes,hinputs,hrows,hnew,hsettled,-,-⟩ := haccounted
  let written := recordIds host request store.docStatus ++
    admittedIds host store.docStatus (batchOf host request).contents
  have hsubset : outcomes.map Prod.snd ⊆ written := by
    intro docId hdocId
    obtain ⟨outcome,houtcome,rfl⟩ := mem_map.mp hdocId
    have hpresent : store'.docStatus.get outcome.2 ≠ none := by
      obtain ⟨⟨row,hrow,-⟩,-⟩ | ⟨row,hrow,-⟩ := hsettled outcome houtcome
      · simp [hrow]
      · simp [hrow]
    obtain hstored | hwritten := (mem_written h hok).mp hpresent
    · exact absurd (hnew outcome houtcome) hstored
    · exact hwritten
  have hcount : written.length + _ = _ := length_written h
  have hitems : outcomes.length = (firstItems host request).length +
      (repeatedItems host request).length := by
    have hlength := hinputs.length_eq
    rw [length_map] at hlength
    rw [hlength,← sift_perm.length_eq,length_append]
    rfl
  have hkeys : (batchOf host request).contents.keys.length ≤ _ := contents_subperm.length_le
  rw [length_map] at hkeys
  have hfilter := length_filter_le (fun docId =>
    decide (docId ∉ (repeatedItems host request).map (Item.docId host request)))
      (storedIds host request store.docStatus)
  have hsubperm := hrows.subperm hsubset
  have hperm : (outcomes.map Prod.snd).Perm written := by
    apply hsubperm.perm_of_length_le
    rw [length_map]
    omega
  have hlength := hperm.length_eq
  rw [length_map] at hlength
  have hnodup : written.Nodup := hperm.nodup_iff.mp hrows
  obtain ⟨hrecords,-,hdisjoint⟩ := nodup_append.mp hnodup
  have hfresh : ∀ docId ∈ written, store.docStatus.get docId = none := by
    intro docId hdocId
    obtain ⟨outcome,houtcome,rfl⟩ := mem_map.mp (hperm.symm.subset hdocId)
    exact hnew outcome houtcome
  refine ⟨?_,?_,hrecords,?_⟩
  · -- as many ids as inputs that are kept
    have hall : ((batchOf host request).contents.keys).Perm
        ((firstItems host request).map (Item.docId host request)) := by
      apply contents_subperm.perm_of_length_le
      rw [length_map]
      omega
    exact (ids_nodup_iff h (enqueue_ok hok).1).mp
      (hall.nodup_iff.mp (batchOf host request).contents.nodup)
  · -- no stored id was passed over
    intro a ha hstored b hb hsame
    have hnone := length_filter_eq_length_iff.mp
      (show ((storedIds host request store.docStatus).filter fun docId =>
        decide (docId ∉ (repeatedItems host request).map (Item.docId host request))).length =
          (storedIds host request store.docStatus).length by omega)
    have hmem : a.docId host request ∈ storedIds host request store.docStatus := by
      unfold storedIds
      rw [mem_filter]
      exact ⟨mem_contents.mpr (mem_map_of_mem ha),by simpa using hstored⟩
    have hnot := of_decide_eq_true (hnone _ hmem)
    rw [← hsame] at hnot
    exact hnot (mem_map_of_mem hb)
  · intro docId hdocId
    refine ⟨hfresh docId (mem_append_left _ hdocId),?_⟩
    intro hadmitted
    exact hdisjoint docId hdocId docId hadmitted rfl

def itemOf (host : Host) (request : Request) (docId : DocId) : Item :=
  (Table.lookup (Item.docId host request) (firstItems host request) docId).getD ⟨0, "", .raw, ""⟩

def attemptItems (host : Host) (request : Request) (docStatus : Dict DocId Row) : List Item :=
  let batch := batchOf host request
  let attempts := batch.duplicateAttempts ++ existingDuplicates host docStatus batch.contents
  repeatedItems host request ++ ((existingDuplicates host docStatus batch.contents ++
    ignoredDuplicates host docStatus batch.contents attempts).map Attempt.docId).map
      (itemOf host request)

section

variable (hnodup : ((firstItems host request).map (Item.docId host request)).Nodup)

include hnodup

theorem itemOf_docId
    (hitem : item ∈ firstItems host request) :
    itemOf host request (item.docId host request) = item := by
  unfold itemOf
  rw [(Table.lookup_eq_some hnodup).mpr ⟨hitem,rfl⟩,Option.getD_some]

theorem kept_itemOf {content : Content}
    (h : (batchOf host request).contents.get docId = some content) :
    content = (itemOf host request docId).kept host := by
  obtain ⟨item,hitem,rfl,rfl⟩ := of_contents h
  rw [itemOf_docId hnodup hitem]

theorem filePath_attemptItems :
    (attemptItems host request docStatus).map Item.filePath =
      (attemptsOf host request docStatus).map Attempt.filePath := by
  have hsifted : Sifted host request (batchOf host request) _ _ := sifted_batchOf
  have hrepeated := congrArg (List.map Prod.snd) hsifted.attempts
  rw [map_map,map_map] at hrepeated
  have hothers : ∀ attempt ∈ existingDuplicates host docStatus (batchOf host request).contents ++
      ignoredDuplicates host docStatus (batchOf host request).contents
        ((batchOf host request).duplicateAttempts ++
          existingDuplicates host docStatus (batchOf host request).contents),
      (itemOf host request attempt.docId).filePath = attempt.filePath := by
    intro attempt hattempt
    obtain hattempt | hattempt := mem_append.mp hattempt
    · obtain ⟨docId,-,hduplicate⟩ := mem_filterMap.mp hattempt
      obtain ⟨content,hcontent,hexisting⟩ := Option.bind_eq_some_iff.mp hduplicate
      obtain ⟨rfl,hpath⟩ := docId_existingDuplicate hexisting
      rw [hpath,kept_itemOf hnodup hcontent]
      rfl
    · obtain ⟨docId,-,hduplicate⟩ := mem_filterMap.mp hattempt
      split at hduplicate
      · cases hduplicate
      · obtain ⟨content,hcontent,rfl⟩ := Option.map_eq_some_iff.mp hduplicate
        show (itemOf host request docId).filePath = content.filePath
        rw [kept_itemOf hnodup hcontent]
        rfl
  unfold attemptItems attemptsOf
  dsimp only
  rw [append_assoc]
  generalize existingDuplicates host docStatus (batchOf host request).contents ++
    ignoredDuplicates host docStatus (batchOf host request).contents
      ((batchOf host request).duplicateAttempts ++
        existingDuplicates host docStatus (batchOf host request).contents) = others at hothers ⊢
  rw [map_append,map_append,map_map,map_map]
  congr 1
  · exact hrepeated.symm
  · exact map_congr_left hothers

end

theorem items_perm (h : host.Lawful)
    (hnodup : ((firstItems host request).map (Item.docId host request)).Nodup)
    (hignored : ∀ a ∈ firstItems host request, docStatus.get (a.docId host request) ≠ none →
      ∀ b ∈ repeatedItems host request, b.docId host request ≠ a.docId host request) :
    (attemptItems host request docStatus ++
      (admittedIds host docStatus (batchOf host request).contents).map (itemOf host request)).Perm
        (itemsOf host request) := by
  have hfilter : (storedIds host request docStatus).filter (fun docId =>
      docId ∉ (batchOf host request).duplicateAttempts.map Attempt.docId) =
        storedIds host request docStatus := by
    rw [filter_eq_self]
    intro docId hdocId
    obtain ⟨hkey,hstored⟩ := mem_filter.mp hdocId
    obtain ⟨a,ha,rfl⟩ := mem_map.mp (mem_contents.mp hkey)
    rw [docIds_duplicateAttempts,decide_eq_true_iff]
    intro hmem
    obtain ⟨b,hb,hsame⟩ := mem_map.mp hmem
    exact hignored a ha (by simpa using hstored) b hb hsame
  have hexisting : (_ ++ admittedIds host docStatus (batchOf host request).contents).Perm _ :=
    existing_perm h
  have hstored : ((ignoredDuplicates host docStatus (batchOf host request).contents
      ((batchOf host request).duplicateAttempts ++
        existingDuplicates host docStatus (batchOf host request).contents)).map
          Attempt.docId).Perm (storedIds host request docStatus) := by
    rw [← hfilter]
    exact ignored_perm h
  have hkeys : (batchOf host request).contents.keys.Perm
      ((firstItems host request).map (Item.docId host request)) :=
    (perm_ext_iff_of_nodup (batchOf host request).contents.nodup hnodup).mpr
      fun _ => mem_contents
  have hids : ((existingDuplicates host docStatus (batchOf host request).contents ++
      ignoredDuplicates host docStatus (batchOf host request).contents
        ((batchOf host request).duplicateAttempts ++
          existingDuplicates host docStatus (batchOf host request).contents)).map Attempt.docId ++
            admittedIds host docStatus (batchOf host request).contents).Perm
              ((firstItems host request).map (Item.docId host request)) := by
    rw [map_append,append_assoc]
    refine (perm_append_comm.append_left _).trans ?_
    rw [← append_assoc]
    refine (hexisting.append hstored).trans (List.Perm.trans ?_ hkeys)
    have hsplit := filter_append_perm (fun docId => decide (docStatus.get docId = none))
      (batchOf host request).contents.keys
    unfold storedIds
    simpa using hsplit
  have hmap := hids.map (itemOf host request)
  have hself : ((firstItems host request).map (Item.docId host request)).map
      (itemOf host request) = firstItems host request := by
    rw [map_map]
    conv_rhs => rw [← map_id (firstItems host request)]
    apply map_congr_left
    intro item hitem
    exact itemOf_docId hnodup hitem
  rw [hself,map_append] at hmap
  unfold attemptItems
  rw [append_assoc]
  exact ((hmap.append_left _).trans perm_append_comm).trans sift_perm

theorem accounted_of_apart (h : host.Lawful) (hok : enqueue host request store = .ok store')
    (hapart : Apart host request store.docStatus) : Accounted host request store store' := by
  obtain ⟨htexts,hignored,hrecords,hfresh⟩ := hapart
  have hnodup := (ids_nodup_iff h (enqueue_ok hok).1).mpr htexts
  have hpaths : (attemptItems host request store.docStatus).map Item.filePath = _ :=
    filePath_attemptItems hnodup
  obtain ⟨-,hstatus,hfull⟩ := enqueue_ok hok
  have hadmitted : _ = admittedIds host store.docStatus (batchOf host request).contents :=
    fst_admittedContents h
  have hadmittedNodup : (admittedIds host store.docStatus (batchOf host request).contents).Nodup :=
    nodup_admitted h
  let items := attemptItems host request store.docStatus
  let records := recordIds host request store.docStatus
  let admitted := admittedIds host store.docStatus (batchOf host request).contents
  have hlength : items.length = records.length := by
    have hlengths := congrArg List.length hpaths
    rw [length_map,length_map,← length_recordIds] at hlengths
    exact hlengths
  have hfst : (items.zip records).map Prod.fst = items := map_fst_zip (by omega)
  have hsnd : (items.zip records).map Prod.snd = records := map_snd_zip (by omega)
  have hlast : ((admittedContents host store.docStatus (batchOf host request).contents).map
      fun (docId, content) => (docId, initialDocStatus host request.trackId docId content)).map
        Prod.fst = admitted := by
    rw [map_map]
    exact hadmitted
  refine ⟨items.zip records ++ admitted.map fun docId => (itemOf host request docId, docId),
    ?_,?_,?_,?_,?_,?_⟩
  · rw [map_append,hfst,map_map]
    exact items_perm h hnodup hignored
  · rw [map_append,hsnd,nodup_append]
    refine ⟨hrecords,by simpa [comp_def] using hadmittedNodup,?_⟩
    intro docId hdocId docId' hdocId' heq
    rw [← heq] at hdocId'
    exact (hfresh docId hdocId).2 (by simpa [comp_def] using hdocId')
  · intro outcome houtcome
    obtain houtcome | houtcome := mem_append.mp houtcome
    · apply (hfresh outcome.2 _).1
      have hmem := mem_map_of_mem (f := Prod.snd) houtcome
      rw [hsnd] at hmem
      exact hmem
    · obtain ⟨docId,hdocId,rfl⟩ := mem_map.mp houtcome
      exact (mem_admitted h hdocId).2
  · intro outcome houtcome
    obtain houtcome | houtcome := mem_append.mp houtcome
    · right
      obtain ⟨k,hk,rfl⟩ := mem_iff_getElem.mp houtcome
      rw [length_zip] at hk
      have hkItems : k < items.length := by omega
      have hkRecords : k < records.length := by omega
      have hkAttempts : k < (attemptsOf host request store.docStatus).length := by
        rw [← length_recordIds]
        exact hkRecords
      rw [getElem_zip]
      have hrecord : records[k] = dupRecordId host request.trackId k
          (attemptsOf host request store.docStatus)[k] := by
        simp [records,recordIds,duplicateDocs]
      have hpath : items[k].filePath = (attemptsOf host request store.docStatus)[k].filePath := by
        have hget := congrArg (fun paths : List String => paths[k]?) hpaths
        simpa [items,List.getElem?_eq_getElem hkItems,List.getElem?_eq_getElem hkAttempts]
          using hget
      have hmem : (records[k], duplicateRow host request.trackId records[k]
          (attemptsOf host request store.docStatus)[k]) ∈ duplicateDocs host request.trackId
            (attemptsOf host request store.docStatus) := by
        rw [hrecord]
        exact mem_mapIdx.mpr ⟨k,hkAttempts,rfl⟩
      refine ⟨duplicateRow host request.trackId records[k]
        (attemptsOf host request store.docStatus)[k],?_,rfl,rfl,rfl,hpath.symm⟩
      rw [hstatus,Dict.get_update_of_not_mem]
      · exact Dict.get_update_of_mem hrecords hmem
      · rw [hlast]
        exact (hfresh _ (getElem_mem hkRecords)).2
    · left
      obtain ⟨docId,hdocId,rfl⟩ := mem_map.mp houtcome
      have hmem : docId ∈ (admittedContents host store.docStatus
          (batchOf host request).contents).map Prod.fst := by
        rw [hadmitted]
        exact hdocId
      obtain ⟨⟨docId,content⟩,hcontent,rfl⟩ := mem_map.mp hmem
      obtain ⟨docId',-,hfound⟩ := mem_filterMap.mp hcontent
      obtain ⟨content',hget,heq⟩ := Option.map_eq_some_iff.mp hfound
      rw [(Prod.mk.inj heq).1,(Prod.mk.inj heq).2] at hget
      have hkept := kept_itemOf hnodup hget
      constructor
      · refine ⟨initialDocStatus host request.trackId docId content,?_,rfl,rfl⟩
        rw [hstatus]
        apply Dict.get_update_of_mem
        · rw [hlast]
          exact hadmittedNodup
        · exact mem_map.mpr ⟨(docId, content),hcontent,rfl⟩
      · refine ⟨content,?_,?_,?_⟩
        · rw [hfull]
          apply Dict.get_update_of_mem _ hcontent
          rw [hadmitted]
          exact hadmittedNodup
        · rw [hkept]
          rfl
        · rw [hkept]
          rfl
  · intro docId row hrow
    rw [hstatus,Dict.get_update_of_not_mem,Dict.get_update_of_not_mem]
    · exact hrow
    · intro hrecord
      rw [(hfresh docId hrecord).1] at hrow
      cases hrow
    · rw [hlast]
      intro hdocId
      rw [(mem_admitted h hdocId).2] at hrow
      cases hrow
  · intro docId hnone hpresent
    obtain hstored | hwritten := (mem_written h hok).mp hpresent
    · exact absurd hnone hstored
    · rw [map_append,hsnd]
      simpa [comp_def] using hwritten

end Rows

end Accounting

end LightRAG.Enqueue
