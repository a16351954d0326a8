import LightRAG.Framework.Dict
import LightRAG.Framework.Run
import LightRAG.Framework.Separated
import LightRAG.Framework.Text
import Mathlib.Data.List.Pairwise
import Mathlib.Data.List.Perm.Subperm

/-!
# Enqueueing of documents

`apipeline_enqueue_documents`: the inputs of a call are reduced to contents by file name and by
content, then checked against the stored rows.
-/

namespace LightRAG.Enqueue

abbrev DocId := String

inductive DocsFormat
  | raw
  | pendingParse
deriving DecidableEq

inductive DocStatus
  | pending
  | parsing
  | analyzing
  | processing
  | preprocessed
  | processed
  | failed
deriving DecidableEq

def DocStatus.value : DocStatus → String
  | .pending => "pending"
  | .parsing => "parsing"
  | .analyzing => "analyzing"
  | .processing => "processing"
  | .preprocessed => "preprocessed"
  | .processed => "processed"
  | .failed => "failed"

inductive DuplicateKind
  | filename
  | contentHash
  | filenameConflict
deriving DecidableEq

def DuplicateKind.value : DuplicateKind → String
  | .filename => "filename"
  | .contentHash => "content_hash"
  | .filenameConflict => "filename_conflict"

/-- The metadata of a row with `is_duplicate`. -/
structure Duplicate where
  kind : Option DuplicateKind
  originalDocId : Option DocId
  originalTrackId : String
deriving DecidableEq

/-- A row of `doc_status`. -/
structure Row where
  status : DocStatus
  contentLength : Nat
  createdAt : String
  filePath : String
  trackId : String
  contentHash : Option String
  errorMsg : String
  duplicate : Option Duplicate
deriving DecidableEq

/-- A row of `full_docs`, and what `_add_content` keeps of an input. -/
structure Content where
  content : String
  filePath : String
  parseFormat : DocsFormat
  contentHash : Option String
deriving DecidableEq

structure Store where
  docStatus : Dict DocId Row
  fullDocs : Dict DocId Content

/-- An entry of `duplicate_attempts`. -/
structure Attempt where
  docId : DocId
  originalDocId : Option DocId
  filePath : String
  contentLength : Nat
  existingStatus : String
  existingTrackId : String
  conflictSample : List DocId
  kind : DuplicateKind
deriving DecidableEq

structure Request where
  input : List String
  ids : Option (List DocId)
  filePaths : Option (List String)
  trackId : String
  docsFormat : DocsFormat
deriving DecidableEq

/-- What a call takes from elsewhere: the text functions, the order in which the sets of ids are
gone through, the admission of a number of documents, and the clock. -/
structure Host where
  computeArgsHash : String → String
  sanitizeTextForEncoding : String → String
  canonicalizeParserHintedBasename : String → String
  normalizeMergedTextForHash : String → String
  newOrder : List DocId → List DocId
  ignoredOrder : List DocId → List DocId
  reserveIngressSlot : Nat → Bool
  now : DocId → String

inductive Refusal
  | fileNumber
  | idNumber
  | idsNotUnique
  | reservation
deriving DecidableEq

def placeholderDocumentSources : List String := ["", "no-file-path", "unknown_source"]

def hasKnownDocumentSource (sourceKey : String) : Bool := sourceKey ∉ placeholderDocumentSources

section Model

variable (host : Host)

def computeMdhashId (content documentClass : String) : String :=
  documentClass ++ host.computeArgsHash content

def computeTextContentHash (content : String) : String :=
  computeMdhashId host (host.normalizeMergedTextForHash content) ""

def normalizeDocumentFilePath (filePath : String) : String :=
  let source := Text.strip filePath
  if source ∈ placeholderDocumentSources then "unknown_source"
  else
    let canonical := Text.strip (host.canonicalizeParserHintedBasename source)
    if canonical ∈ placeholderDocumentSources then "unknown_source" else canonical

/-- An input as `_add_content` gets it. -/
structure Item where
  index : Nat
  content : String
  format : DocsFormat
  filePath : String
deriving DecidableEq

variable (request : Request)

def filePathsOf : List String :=
  match request.filePaths with
  | some paths => paths.map fun path =>
      if Text.strip path = "" then "unknown_source" else Text.strip path
  | none => List.replicate request.input.length "unknown_source"

def formatOf : DocsFormat :=
  if request.ids.isSome then .raw else request.docsFormat

def itemsOf : List Item :=
  (request.input.zip (filePathsOf request)).mapIdx fun index (doc, path) =>
    { index := index
      content := match formatOf request with
        | .raw => host.sanitizeTextForEncoding doc
        | .pendingParse => doc
      format := formatOf request
      filePath := normalizeDocumentFilePath host path }

def Item.known (item : Item) : Bool := hasKnownDocumentSource item.filePath

def Item.contentHash (item : Item) : Option String :=
  match item.format with
  | .raw => some (computeTextContentHash host item.content)
  | .pendingParse => none

/-- The text whose hash is the id of an input that has no explicit one. -/
def Item.seed (trackId : String) (item : Item) : String :=
  if item.known then item.filePath
  else match item.format with
    | .raw => item.content
    | .pendingParse => item.filePath ++ "-" ++ trackId ++ "-" ++ toString item.index

def Item.docId (item : Item) : DocId :=
  match request.ids with
  | some ids => ids.getD item.index ""
  | none => computeMdhashId host (item.seed request.trackId) "doc-"

def Item.kept (item : Item) : Content :=
  ⟨item.content, item.filePath, item.format, item.contentHash host⟩

structure Batch where
  contents : Dict DocId Content
  sourceToDocId : Dict String DocId
  contentHashToDocId : Dict String DocId
  duplicateAttempts : List Attempt

def Batch.new : Batch := ⟨.empty, .empty, .empty, []⟩

/-- A duplicate of an earlier input of the call. -/
def batchDuplicate (docId originalDocId : DocId) (item : Item) (kind : DuplicateKind) : Attempt where
  docId := docId
  originalDocId := some originalDocId
  filePath := item.filePath
  contentLength := item.content.length
  existingStatus := "batch_duplicate"
  existingTrackId := ""
  conflictSample := []
  kind := kind

def addContent (batch : Batch) (item : Item) : Batch :=
  let docId := item.docId host request
  match if item.known then batch.sourceToDocId.get item.filePath else none with
  | some original =>
    { batch with duplicateAttempts :=
        batch.duplicateAttempts ++ [batchDuplicate docId original item .filename] }
  | none =>
    match (item.contentHash host).bind batch.contentHashToDocId.get with
    | some original =>
      { batch with duplicateAttempts :=
          batch.duplicateAttempts ++ [batchDuplicate docId original item .contentHash] }
    | none =>
      { batch with
        contents := batch.contents.set docId (item.kept host)
        sourceToDocId :=
          if item.known then batch.sourceToDocId.set item.filePath docId else batch.sourceToDocId
        contentHashToDocId :=
          match item.contentHash host with
          | some contentHash => batch.contentHashToDocId.set contentHash docId
          | none => batch.contentHashToDocId }

def batchOf : Batch :=
  (itemsOf host request).foldl (addContent host request) .new

inductive SourceResolution
  | absent
  | unique (docId : DocId) (row : Row)
  | conflict (sampleDocIds : List DocId)
deriving DecidableEq

variable (docStatus : Dict DocId Row)

/-- `resolve_doc_source_strict`: the rows that are not duplicates and have the file name. -/
def resolveDocSourceStrict (canonicalSourceKey : String) :
    SourceResolution :=
  match (docStatus.entries.filter fun e =>
    e.2.filePath = canonicalSourceKey && e.2.duplicate.isNone).take 2 with
  | [] => .absent
  | [(docId, row)] => .unique docId row
  | candidates => .conflict ((candidates.map Prod.fst).mergeSort fun a b => decide (a ≤ b))

def resolveExistingDocSource (filePath : String) : SourceResolution :=
  let basename := normalizeDocumentFilePath host filePath
  if basename = "unknown_source" then .absent else resolveDocSourceStrict docStatus basename

/-- `_row_points_at_as_duplicate`. -/
def Row.pointsAtAsDuplicate (docId : DocId) (row : Row) : Bool :=
  docId ≠ "" && row.duplicate.any fun duplicate => duplicate.originalDocId = some docId

/-- The first of the rows in the order of `(created_at, id)`. -/
def earliest : List (DocId × Row) → Option (DocId × Row)
  | [] => none
  | e :: entries =>
    match earliest entries with
    | none => some e
    | some best =>
      if best.2.createdAt < e.2.createdAt ∨ best.2.createdAt = e.2.createdAt ∧ best.1 < e.1 then
        some best
      else some e

def getDocByContentHash (contentHash : String)
    (excludeDocId : DocId) : Option (DocId × Row) :=
  earliest (docStatus.entries.filter fun e =>
    e.1 ≠ excludeDocId && !e.2.pointsAtAsDuplicate excludeDocId &&
      e.2.contentHash = some contentHash)

def existingDuplicate (docId : DocId) (content : Content) :
    Option Attempt :=
  match resolveExistingDocSource host docStatus content.filePath with
  | .conflict sampleDocIds =>
    some ⟨docId, none, content.filePath, content.content.length, "unknown", "", sampleDocIds,
      .filenameConflict⟩
  | .unique originalDocId row =>
    some ⟨docId, some originalDocId, content.filePath, content.content.length, row.status.value,
      row.trackId, [], .filename⟩
  | .absent =>
    (content.contentHash.bind fun contentHash =>
      getDocByContentHash docStatus contentHash docId).map fun (existingDocId, row) =>
        ⟨docId, some existingDocId, content.filePath, content.content.length, row.status.value,
          row.trackId, [], .contentHash⟩

def ignoredDuplicate (docId : DocId) (content : Content) : Attempt where
  docId := docId
  originalDocId := some docId
  filePath := content.filePath
  contentLength := content.content.length
  existingStatus := (docStatus.get docId).elim "unknown" fun row => row.status.value
  existingTrackId := (docStatus.get docId).elim "" Row.trackId
  conflictSample := []
  kind := .filename

def newIds (contents : Dict DocId Content) : List DocId :=
  host.newOrder (contents.keys.filter fun docId => docStatus.get docId = none)

def existingDuplicates (contents : Dict DocId Content) :
    List Attempt :=
  (newIds host docStatus contents).filterMap fun docId =>
    (contents.get docId).bind (existingDuplicate host docStatus docId)

/-- `admitted_doc_ids`. -/
def admittedIds (contents : Dict DocId Content) : List DocId :=
  (newIds host docStatus contents).filter fun docId =>
    ((contents.get docId).bind (existingDuplicate host docStatus docId)).isNone

/-- The attempts for the ids that are left out without one. -/
def ignoredDuplicates (contents : Dict DocId Content)
    (attempts : List Attempt) : List Attempt :=
  (host.ignoredOrder (contents.keys.filter fun docId =>
    docId ∉ admittedIds host docStatus contents)).filterMap fun docId =>
      if attempts.any fun attempt => attempt.docId = docId then none
      else (contents.get docId).map (ignoredDuplicate docStatus docId)

def attemptsOf (docStatus : Dict DocId Row) : List Attempt :=
  let batch := batchOf host request
  let attempts := batch.duplicateAttempts ++ existingDuplicates host docStatus batch.contents
  attempts ++ ignoredDuplicates host docStatus batch.contents attempts

def dupRecordId (trackId : String) (index : Nat) (attempt : Attempt) : DocId :=
  computeMdhashId host
    (attempt.docId ++ "-" ++ trackId ++ "-" ++ toString index ++ "-" ++ attempt.filePath) "dup-"

def duplicateMessage (attempt : Attempt) : String :=
  match attempt.kind with
  | .filenameConflict =>
    "Multiple existing documents already share this file name, so this upload cannot be " ++
      "attributed to one of them. Repair the conflict by doc id first (sample doc ids: " ++
      (if attempt.conflictSample.isEmpty then "unavailable"
        else ", ".intercalate attempt.conflictSample) ++ ")."
  | kind =>
    (if kind = .contentHash then "Identical content already exists under another filename."
      else "File name already exists.") ++
      " Original doc_id: " ++ attempt.originalDocId.getD attempt.docId ++ ", Status: " ++
      attempt.existingStatus

def duplicateRow (trackId docId : String) (attempt : Attempt) : Row where
  status := .failed
  contentLength := attempt.contentLength
  createdAt := host.now docId
  filePath := attempt.filePath
  trackId := trackId
  contentHash := none
  errorMsg := duplicateMessage attempt
  duplicate := some ⟨some attempt.kind, some (attempt.originalDocId.getD attempt.docId),
    attempt.existingTrackId⟩

def duplicateDocs (trackId : String) (attempts : List Attempt) : List (DocId × Row) :=
  attempts.mapIdx fun index attempt =>
    (dupRecordId host trackId index attempt,
      duplicateRow host trackId (dupRecordId host trackId index attempt) attempt)

def initialDocStatus (trackId docId : String) (content : Content) : Row where
  status := .pending
  contentLength := content.content.length
  createdAt := host.now docId
  filePath := content.filePath
  trackId := trackId
  contentHash := content.contentHash
  errorMsg := ""
  duplicate := none

def admittedContents (contents : Dict DocId Content) :
    List (DocId × Content) :=
  (admittedIds host docStatus contents).filterMap fun docId =>
    (contents.get docId).map fun content => (docId, content)

/-- `apipeline_enqueue_documents`, a call whose storage requests succeed. -/
def enqueue (store : Store) : Except Refusal Store :=
  if request.filePaths.any fun paths => paths.length ≠ request.input.length then
    .error .fileNumber
  else if request.ids.any fun ids => ids.length ≠ request.input.length then .error .idNumber
  else if request.ids.any fun ids => !decide ids.Nodup then .error .idsNotUnique
  else
    let batch := batchOf host request
    let admitted := admittedContents host store.docStatus batch.contents
    if !host.reserveIngressSlot admitted.length then .error .reservation
    else
      let docStatus := store.docStatus.update
        (duplicateDocs host request.trackId (attemptsOf host request store.docStatus))
      .ok
        { docStatus := docStatus.update (admitted.map fun (docId, content) =>
            (docId, initialDocStatus host request.trackId docId content))
          fullDocs := store.fullDocs.update admitted }

end Model

end LightRAG.Enqueue

/-!
## The inputs of an enqueue call

An input repeats an earlier one of its call that was kept, by file name or by content; the others
are kept.
-/

namespace LightRAG.Enqueue
open List

section Sift

variable (host : Host)

/-- The two inputs have one known file name, or one body. -/
def Item.Repeats (a b : Item) : Prop :=
  (a.known = true ∧ b.filePath = a.filePath) ∨
    (a.contentHash host ≠ none ∧ b.contentHash host = a.contentHash host)

instance (a b : Item) : Decidable (a.Repeats host b) := by
  unfold Item.Repeats
  infer_instance

def sift (items : List Item) : List Item × List Item :=
  items.foldl (fun sifted item =>
    if sifted.1.any fun kept => kept.Repeats host item then (sifted.1, sifted.2 ++ [item])
    else (sifted.1 ++ [item], sifted.2)) ([], [])

def firstItems (request : Request) : List Item := (sift host (itemsOf host request)).1

def repeatedItems (request : Request) : List Item := (sift host (itemsOf host request)).2

variable {host} {request : Request} {items : List Item} {item a b : Item} {docId : DocId}

theorem Item.Repeats.symm (h : a.Repeats host b) : b.Repeats host a := by
  obtain ⟨hknown,hpath⟩ | ⟨hhash,hsame⟩ := h
  · left
    refine ⟨?_,hpath.symm⟩
    unfold Item.known at hknown ⊢
    rw [hpath]
    exact hknown
  · right
    rw [hsame]
    exact ⟨hhash,rfl⟩

theorem sift_append : sift host (items ++ [item]) =
    if (sift host items).1.any fun kept => kept.Repeats host item then
      ((sift host items).1, (sift host items).2 ++ [item])
    else ((sift host items).1 ++ [item], (sift host items).2) := by
  unfold sift
  rw [foldl_append]
  rfl

theorem sift_perm : ((sift host items).1 ++ (sift host items).2).Perm items := by
  induction items using List.reverseRecOn with
  | nil => rfl
  | append_singleton items item ih =>
    rw [sift_append]
    split
    · rw [← append_assoc]
      exact ih.append_right [item]
    · have hswap : ((sift host items).1 ++ [item] ++ (sift host items).2).Perm
          ((sift host items).1 ++ (sift host items).2 ++ [item]) := by
        rw [append_assoc,append_assoc]
        exact perm_append_comm.append_left _
      exact hswap.trans (ih.append_right [item])

theorem sift_pairwise : (sift host items).1.Pairwise fun a b => ¬a.Repeats host b := by
  induction items using List.reverseRecOn with
  | nil => exact List.Pairwise.nil
  | append_singleton items item ih =>
    rw [sift_append]
    split
    · exact ih
    · rename_i hnone
      rw [pairwise_append]
      refine ⟨ih,pairwise_singleton _ _,?_⟩
      intro a ha b hb hrepeats
      rw [mem_singleton.mp hb] at hrepeats
      apply hnone
      rw [any_eq_true]
      exact ⟨a,ha,by simpa using hrepeats⟩

theorem eq_of_repeats (ha : a ∈ firstItems host request) (hb : b ∈ firstItems host request)
    (h : a.Repeats host b) : a = b := by
  by_contra hne
  have hpairwise : (firstItems host request).Pairwise fun a b => ¬a.Repeats host b := sift_pairwise
  have hsymm : Std.Symm fun a b : Item => ¬a.Repeats host b := ⟨fun _ _ hnot h => hnot h.symm⟩
  exact hpairwise.forall ha hb hne h

structure Sifted (host : Host) (request : Request) (batch : Batch) (kept repeated : List Item) :
    Prop where
  contents : batch.contents =
    Dict.empty.update (kept.map fun item => (item.docId host request, item.kept host))
  sources : ∀ path, batch.sourceToDocId.get path ≠ none ↔
    ∃ item ∈ kept, item.known = true ∧ item.filePath = path
  hashes : ∀ hash, batch.contentHashToDocId.get hash ≠ none ↔
    ∃ item ∈ kept, item.contentHash host = some hash
  attempts : batch.duplicateAttempts.map (fun attempt => (attempt.docId, attempt.filePath)) =
    repeated.map fun item => (item.docId host request, item.filePath)

theorem Sifted.new : Sifted host request .new [] [] := by
  refine ⟨rfl,?_,?_,rfl⟩
  · simp [Batch.new,Dict.get,Dict.empty,Table.lookup]
  · simp [Batch.new,Dict.get,Dict.empty,Table.lookup]

theorem Sifted.addContent {batch : Batch} {kept repeated : List Item}
    (h : Sifted host request batch kept repeated) (item : Item) :
    (kept.any fun earlier => earlier.Repeats host item) = true ∧
        Sifted host request (addContent host request batch item) kept (repeated ++ [item]) ∨
      (kept.any fun earlier => earlier.Repeats host item) = false ∧
        Sifted host request (addContent host request batch item) (kept ++ [item]) repeated := by
  have hadded : ∀ (original : DocId) (kind : DuplicateKind),
      Sifted host request { batch with duplicateAttempts := batch.duplicateAttempts ++
        [batchDuplicate (item.docId host request) original item kind] } kept
          (repeated ++ [item]) := by
    intro original kind
    refine ⟨h.contents,h.sources,h.hashes,?_⟩
    rw [map_append,map_append,h.attempts]
    rfl
  unfold Enqueue.addContent
  cases hsource : (if item.known then batch.sourceToDocId.get item.filePath else none) with
  | some original =>
    left
    refine ⟨?_,hadded original .filename⟩
    split at hsource
    · obtain ⟨earlier,hearlier,hearlierKnown,hpath⟩ :=
        (h.sources item.filePath).mp (by simp [hsource])
      rw [any_eq_true]
      exact ⟨earlier,hearlier,decide_eq_true (.inl ⟨hearlierKnown,hpath.symm⟩)⟩
    · cases hsource
  | none =>
    have hnosource : ∀ earlier ∈ kept,
      ¬(earlier.known = true ∧ item.filePath = earlier.filePath) := by
      rintro earlier hearlier ⟨hknown,hpath⟩
      have hitem : item.known = true := by
        unfold Item.known at hknown ⊢
        rw [hpath]
        exact hknown
      rw [if_pos hitem] at hsource
      exact (h.sources item.filePath).mpr ⟨earlier,hearlier,hknown,hpath.symm⟩ hsource
    cases hhash : (item.contentHash host).bind batch.contentHashToDocId.get with
    | some original =>
      left
      refine ⟨?_,hadded original .contentHash⟩
      obtain ⟨hash,hitem,hget⟩ := Option.bind_eq_some_iff.mp hhash
      obtain ⟨earlier,hearlier,hsame⟩ := (h.hashes hash).mp (by simp [hget])
      rw [any_eq_true]
      refine ⟨earlier,hearlier,decide_eq_true (.inr ⟨?_,?_⟩)⟩
      · rw [hsame]
        exact Option.some_ne_none hash
      · rw [hsame,hitem]
    | none =>
      right
      constructor
      · rw [any_eq_false]
        rintro earlier hearlier hrepeats
        obtain hpath | ⟨hne,hsame⟩ := of_decide_eq_true hrepeats
        · exact hnosource earlier hearlier hpath
        · obtain ⟨hash,hearlierHash⟩ := Option.ne_none_iff_exists'.mp hne
          have hget := (h.hashes hash).mpr ⟨earlier,hearlier,hearlierHash⟩
          rw [hsame,hearlierHash] at hhash
          exact hget hhash
      · refine ⟨?_,?_,?_,h.attempts⟩
        · rw [map_append,Dict.update_append,← h.contents]
          rfl
        · intro path
          dsimp only
          split
          · rename_i hknown
            rw [Dict.get_set]
            by_cases hpath : path = item.filePath
            · simp [hpath,hknown]
            · rw [if_neg hpath,h.sources]
              simp [Ne.symm hpath]
          · rename_i hknown
            rw [h.sources]
            simp [hknown]
        · intro hash
          cases hitem : item.contentHash host with
          | none =>
            rw [h.hashes]
            simp [hitem]
          | some itemHash =>
            rw [Dict.get_set]
            by_cases hsame : hash = itemHash
            · simp [hsame,hitem]
            · rw [if_neg hsame,h.hashes]
              simp [hitem,Ne.symm hsame]

theorem sifted_foldl : Sifted host request (items.foldl (addContent host request) .new)
    (sift host items).1 (sift host items).2 := by
  induction items using List.reverseRecOn with
  | nil => exact Sifted.new
  | append_singleton items item ih =>
    rw [foldl_append,sift_append]
    obtain ⟨hany,hsifted⟩ | ⟨hany,hsifted⟩ := ih.addContent item
    · rw [if_pos hany]
      exact hsifted
    · rw [if_neg (by simp [hany])]
      exact hsifted

theorem sifted_batchOf : Sifted host request (batchOf host request) (firstItems host request)
    (repeatedItems host request) :=
  sifted_foldl

theorem mem_contents : docId ∈ (batchOf host request).contents.keys ↔
    docId ∈ (firstItems host request).map (Item.docId host request) := by
  rw [sifted_batchOf.contents,Dict.mem_keys_update]
  simp [Dict.keys,Dict.empty]

theorem contents_subperm : (batchOf host request).contents.keys.Subperm
    ((firstItems host request).map (Item.docId host request)) :=
  (batchOf host request).contents.nodup.subperm fun _ h => mem_contents.mp h

theorem of_contents {content : Content} (h : (batchOf host request).contents.get docId = some content) :
    ∃ item ∈ firstItems host request, item.docId host request = docId ∧
      content = item.kept host := by
  have hmem : docId ∈ ((firstItems host request).map fun item =>
      (item.docId host request, item.kept host)).map Prod.fst := by
    rw [map_map]
    exact mem_contents.mp (Dict.mem_keys.mpr (by simp [h]))
  obtain ⟨content',hcontent',hget⟩ := Dict.get_update_mem (d := .empty) hmem
  rw [← sifted_batchOf.contents,h] at hget
  obtain ⟨item,hitem,heq⟩ := mem_map.mp hcontent'
  exact ⟨item,hitem,(Prod.mk.inj heq).1,(Option.some.inj hget).trans (Prod.mk.inj heq).2.symm⟩

end Sift

end LightRAG.Enqueue
