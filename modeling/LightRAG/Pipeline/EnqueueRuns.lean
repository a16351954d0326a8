import LightRAG.Pipeline.EnqueueAccounting

/-!
# Runs of enqueue calls

Calls follow each other under the lock that serializes them.
-/

namespace LightRAG.Enqueue
open List Option

structure Call where
  host : Host
  request : Request

def Step (store : Store) (call : Call) (store' : Store) : Prop :=
  enqueue call.host call.request store = .ok store'

/-- The canonical names of the inputs are canonical themselves. -/
def Call.Settled (call : Call) : Prop :=
  ∀ item ∈ itemsOf call.host call.request,
    normalizeDocumentFilePath call.host item.filePath = item.filePath

structure Row.Separate (row row' : Row) : Prop where
  filePath : hasKnownDocumentSource row.filePath = true → row.filePath ≠ row'.filePath
  contentHash : row.contentHash ≠ none → row.contentHash ≠ row'.contentHash

/-- The rows that came since then and are not duplicates. -/
def Separated (store₀ store : Store) : Prop :=
  ∀ docId docId' row row', docId ≠ docId' →
    store₀.docStatus.get docId = none → store₀.docStatus.get docId' = none →
      store.docStatus.get docId = some row → store.docStatus.get docId' = some row' →
        row.duplicate = none → row'.duplicate = none → row.Separate row'

section Runs

variable {host : Host} {request : Request} {store store' store₀ : Store} {docId : DocId}
  {content : Content} {row : Row} {docStatus : Dict DocId Row}

theorem Row.Separate.symm {row' : Row} (h : row.Separate row') : row'.Separate row := by
  constructor
  · intro hknown heq
    exact h.filePath (heq ▸ hknown) heq.symm
  · intro hne heq
    exact h.contentHash (heq ▸ hne) heq.symm

theorem earliest_eq_none {entries : List (DocId × Row)} (h : earliest entries = none) :
    entries = [] := by
  cases entries with
  | nil => rfl
  | cons e entries =>
    unfold earliest at h
    split at h
    · cases h
    · split at h <;> cases h

theorem separate_of_admitted (h : existingDuplicate host docStatus docId content = none)
    (hsettled : normalizeDocumentFilePath host content.filePath = content.filePath)
    {docId' : DocId} (hne : docId' ≠ docId) (hrow : docStatus.get docId' = some row)
    (hprimary : row.duplicate = none) (trackId : String) :
    (initialDocStatus host trackId docId content).Separate row := by
  have hentry : (docId', row) ∈ docStatus.entries := Dict.get_eq_some.mp hrow
  unfold existingDuplicate at h
  cases hresolution : resolveExistingDocSource host docStatus content.filePath with
  | conflict sampleDocIds =>
    rw [hresolution] at h
    cases h
  | unique originalDocId original =>
    rw [hresolution] at h
    cases h
  | absent =>
    rw [hresolution] at h
    have hhash := map_eq_none_iff.mp h
    constructor
    · intro hknown heq
      have hpath : row.filePath = content.filePath := heq.symm
      have hsource : content.filePath ≠ "unknown_source" := by
        intro hunknown
        have hknown : hasKnownDocumentSource content.filePath = true := hknown
        rw [hunknown] at hknown
        exact absurd hknown (by decide)
      unfold resolveExistingDocSource at hresolution
      rw [hsettled] at hresolution
      rw [if_neg hsource] at hresolution
      unfold resolveDocSourceStrict at hresolution
      have hmem : (docId', row) ∈ docStatus.entries.filter fun e =>
          e.2.filePath = content.filePath && e.2.duplicate.isNone := by
        rw [mem_filter]
        exact ⟨hentry,by simp [hpath,hprimary]⟩
      split at hresolution
      · rename_i hnil
        rw [take_eq_nil_iff] at hnil
        obtain hzero | hnil := hnil
        · cases hzero
        · rw [hnil] at hmem
          cases hmem
      · cases hresolution
      · cases hresolution
    · intro hsome heq
      obtain ⟨contentHash,hcontent⟩ := ne_none_iff_exists'.mp hsome
      have hcontent' : content.contentHash = some contentHash := hcontent
      rw [hcontent'] at hhash
      have hnil := earliest_eq_none hhash
      have hmem : (docId', row) ∈ docStatus.entries.filter fun e =>
          e.1 ≠ docId && !e.2.pointsAtAsDuplicate docId && e.2.contentHash = some contentHash := by
        rw [mem_filter]
        refine ⟨hentry,?_⟩
        have hrowHash : row.contentHash = some contentHash := by
          rw [← heq]
          exact hcontent
        simp [hne,hrowHash,Row.pointsAtAsDuplicate,hprimary]
      rw [hnil] at hmem
      cases hmem

theorem row_cases (hok : enqueue host request store = .ok store')
    (hrow : store'.docStatus.get docId = some row) :
    store.docStatus.get docId = some row ∨ row.duplicate ≠ none ∨
      ∃ content, (batchOf host request).contents.get docId = some content ∧
        existingDuplicate host store.docStatus docId content = none ∧
          row = initialDocStatus host request.trackId docId content := by
  obtain ⟨-,hstatus,-⟩ := enqueue_ok hok
  rw [hstatus] at hrow
  obtain hrow | hrow := Dict.get_update_cases hrow
  · right
    right
    obtain ⟨⟨docId',content⟩,hcontent,heq⟩ := mem_map.mp hrow
    obtain ⟨rfl,rfl⟩ := Prod.mk.inj heq
    obtain ⟨docId,hadmitted,hfound⟩ := mem_filterMap.mp hcontent
    obtain ⟨content',hget',heq'⟩ := map_eq_some_iff.mp hfound
    obtain ⟨rfl,rfl⟩ := Prod.mk.inj heq'
    have hnone := (mem_filter.mp hadmitted).2
    rw [hget',isNone_iff_eq_none] at hnone
    exact ⟨content',hget',hnone,rfl⟩
  obtain hrow | hrow := Dict.get_update_cases hrow
  · right
    left
    obtain ⟨k,hk,heq⟩ := mem_mapIdx.mp hrow
    rw [← (Prod.mk.inj heq).2]
    exact some_ne_none _
  · exact .inl hrow

theorem separate_contents {docId' : DocId} {content' : Content} (hne : docId ≠ docId')
    (hcontent : (batchOf host request).contents.get docId = some content)
    (hcontent' : (batchOf host request).contents.get docId' = some content') (trackId : String) :
    (initialDocStatus host trackId docId content).Separate
      (initialDocStatus host trackId docId' content') := by
  obtain ⟨a,ha,rfl,rfl⟩ := of_contents hcontent
  obtain ⟨b,hb,rfl,rfl⟩ := of_contents hcontent'
  have hapart : ¬a.Repeats host b := by
    intro hrepeats
    rw [eq_of_repeats ha hb hrepeats] at hne
    exact hne rfl
  constructor
  · intro hknown heq
    exact hapart (.inl ⟨hknown,heq.symm⟩)
  · intro hsome heq
    exact hapart (.inr ⟨hsome,heq.symm⟩)

theorem Separated.step {call : Call} (h : Separated store₀ store) (hsettled : call.Settled)
    (hstep : Step store call store') : Separated store₀ store' := by
  have hcontents : ∀ docId content,
      (batchOf call.host call.request).contents.get docId = some content →
        normalizeDocumentFilePath call.host content.filePath = content.filePath := by
    intro docId content hcontent
    obtain ⟨item,hitem,-,rfl⟩ := of_contents hcontent
    exact hsettled item (mem_first hitem)
  intro docId docId' row row' hne hnone hnone' hrow hrow' hprimary hprimary'
  obtain hold | hdup | ⟨content,hcontent,hadmitted,rfl⟩ := row_cases hstep hrow
  · obtain hold' | hdup' | ⟨content',hcontent',hadmitted',rfl⟩ := row_cases hstep hrow'
    · exact h docId docId' row row' hne hnone hnone' hold hold' hprimary hprimary'
    · exact absurd hprimary' hdup'
    · exact (separate_of_admitted hadmitted' (hcontents _ _ hcontent') hne hold hprimary _).symm
  · exact absurd hprimary hdup
  · obtain hold' | hdup' | ⟨content',hcontent',hadmitted',rfl⟩ := row_cases hstep hrow'
    · exact separate_of_admitted hadmitted (hcontents _ _ hcontent) hne.symm hold' hprimary' _
    · exact absurd hprimary' hdup'
    · exact separate_contents hne hcontent hcontent' _

theorem Separated.run {calls : List Call} (hrun : Run Step store calls store')
    (hsettled : ∀ call ∈ calls, call.Settled)
    (h : Separated store₀ store) : Separated store₀ store' := by
  induction hrun with
  | nil => exact h
  | cons hstep _ ih =>
    apply ih fun call hcall => hsettled call (mem_cons_of_mem _ hcall)
    exact h.step (hsettled _ mem_cons_self) hstep

theorem Separated.start : Separated store store := by
  intro docId docId' row row' _ hnone _ hrow
  rw [hnone] at hrow
  cases hrow

/-- A run whose canonical names stay as they are keeps the rows that it admits apart; and every
call, after any run, accounts for its inputs exactly where no two of its rows fall together. -/
theorem enqueue_accounts {calls : List Call} (hrun : Run Step store₀ calls store)
    (hsettled : ∀ call ∈ calls, call.Settled) :
    Separated store₀ store ∧ ∀ (host : Host) (request : Request) (store' : Store), host.Lawful →
      enqueue host request store = .ok store' →
        (Accounted host request store store' ↔ Apart host request store.docStatus) := by
  refine ⟨Separated.run hrun hsettled .start,?_⟩
  intro host request store' h hok
  exact ⟨apart_of_accounted h hok,accounted_of_apart h hok⟩

def plainHost : Host := ⟨id, id, id, id, id, id, fun _ => true, fun _ => ""⟩

theorem lawful_plainHost : plainHost.Lawful :=
  ⟨fun _ _ h => h,fun _ => .refl _,fun _ => .refl _⟩

def sameName : Request := ⟨["x", "y"], none, some ["a.txt", "a.txt"], "t", .raw⟩

def emptyStore : Store := ⟨.empty, .empty⟩

def storedName : Store :=
  ⟨Dict.empty.set "doc-a.txt" ⟨.processed, 1, "", "a.txt", "s", some "z", "", none⟩, .empty⟩

theorem enqueue_sameName (store : Store) : ∃ store', enqueue plainHost sameName store = .ok store' :=
  ⟨_,rfl⟩

/-- With the file name stored, two inputs leave one duplicate record. -/
theorem not_accounted_sameName : ¬∀ (host : Host) (request : Request) (store store' : Store),
    host.Lawful → enqueue host request store = .ok store' →
      Accounted host request store store' := by
  intro hall
  obtain ⟨store',hok⟩ := enqueue_sameName storedName
  have haccounted := hall plainHost sameName storedName store' lawful_plainHost hok
  have hapart := apart_of_accounted lawful_plainHost hok haccounted
  exact hapart.ignored ⟨0,"x",.raw,"a.txt"⟩ (by decide) (by decide) ⟨1,"y",.raw,"a.txt"⟩
    (by decide) (by decide)

theorem enqueue_accounts_sameName : ∃ store', Step emptyStore ⟨plainHost, sameName⟩ store' ∧
    Accounted plainHost sameName emptyStore store' ∧ Separated emptyStore store' := by
  obtain ⟨store',hok⟩ := enqueue_sameName emptyStore
  have hapart : Apart plainHost sameName emptyStore.docStatus :=
    ⟨by decide,by decide,by decide,by decide⟩
  have hsettled : Call.Settled ⟨plainHost,sameName⟩ := by
    unfold Call.Settled
    decide
  have hrun : Run Step emptyStore [⟨plainHost,sameName⟩] store' := .cons hok (.nil _)
  have hfirst := (enqueue_accounts (.nil emptyStore) (by simp)).2 plainHost sameName store'
    lawful_plainHost hok
  refine ⟨store',hok,hfirst.mpr hapart,(enqueue_accounts hrun ?_).1⟩
  intro call hcall
  rw [mem_singleton.mp hcall]
  exact hsettled

end Runs

end LightRAG.Enqueue
