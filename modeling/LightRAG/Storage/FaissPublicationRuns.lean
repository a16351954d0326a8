import LightRAG.Storage.FaissIndexRuns
import LightRAG.Storage.FaissPublication

/-!
# Whole pairs

The times of the two files tell whether one save wrote them both.
-/

namespace LightRAG.FaissPublication
open Option

open VectorStores (Row Fields)
open FaissIndex (Storage Faults)
open FileFingerprint (Fingerprint publicationComplete)

variable {V F P : Type}

/-- What a reload has from the pair of one save, or from no files. -/
def Disk.Restores (disk : Disk V) (saves : List (Storage V F)) (s : Storage V F) : Prop :=
  (disk.index = none ∧ disk.metadata = none ∧ s.index = [] ∧ s.idToMeta = .empty) ∨
  ∃ index metadata saved, disk.index = some index ∧ disk.metadata = some metadata ∧
    index.save = metadata.save ∧ saves[index.save]? = some saved ∧ s.index = saved.index ∧
    (∀ fid m, s.idToMeta.get fid = some m →
      saved.files.metadata.get fid = some (m.id, m.row) ∧ m.vector = saved.index[fid]?) ∧
    (saved.Paired → ∀ fid, s.idToMeta.get fid = saved.idToMeta.get fid)

variable [DecidableEq P] {w w' : World P V F} {p q : P}

namespace World

def InstallsOneSave (multiprocess : Bool) (w : World P V F) (p : P) : Prop :=
  (w.procs p).reloadDue multiprocess w.disk = true →
    w.disk.Restores w.saves ((w.procs p).reload multiprocess w.disk).storage

/-- A notification that has not been answered meets a complete pair. -/
def Guarded (w : World P V F) (p : P) : Prop :=
  (w.procs p).storageUpdated = true → publicationComplete w.disk.fingerprint = true

structure Inv (w : World P V F) : Prop where
  indexSaved : ∀ index, w.disk.index = some index → index.mtime ≤ w.clock ∧
    ∃ saved, w.saves[index.save]? = some saved ∧ index.content = saved.index
  metadataSaved : ∀ metadata, w.disk.metadata = some metadata → metadata.mtime ≤ w.clock ∧
    ∃ saved, w.saves[metadata.save]? = some saved ∧ metadata.content = saved.files.metadata
  order : ∀ metadata, w.disk.metadata = some metadata → ∃ index, w.disk.index = some index ∧
    metadata.save ≤ index.save ∧ (index.save = metadata.save → index.mtime < metadata.mtime) ∧
      (metadata.save < index.save → metadata.mtime < index.mtime)
  saving : ∀ saving, w.saving = some saving → w.running saving.process = true ∧
    w.saves[saving.number]? = some (w.procs saving.process).storage ∧
    match saving.phase with
    | .toIndex => (∀ index, w.disk.index = some index → index.save < saving.number)
    | .toMetadata => (∃ index, w.disk.index = some index ∧ index.save = saving.number) ∧
      ∀ metadata, w.disk.metadata = some metadata → metadata.save < saving.number
    | .written => w.disk.metadata ≠ none
  flags : ∀ p, (w.procs p).storageUpdated = true ∨ w.inFlight p = true → w.disk.metadata ≠ none

omit [DecidableEq P] in
theorem Inv.files_cases (h : w.Inv) :
    (w.disk.metadata = none ∧
      (w.disk.index = none ∧ publicationComplete w.disk.fingerprint = true ∨
        w.disk.index ≠ none ∧ publicationComplete w.disk.fingerprint = false)) ∨
    ∃ index metadata, w.disk.index = some index ∧ w.disk.metadata = some metadata ∧
      (index.save = metadata.save ∧ publicationComplete w.disk.fingerprint = true ∨
        index.save ≠ metadata.save ∧ publicationComplete w.disk.fingerprint = false) := by
  cases hmetadata : w.disk.metadata with
  | none =>
    left
    refine ⟨rfl,?_⟩
    cases hindex : w.disk.index with
    | none =>
      left
      exact ⟨rfl,by simp [Disk.fingerprint,hindex,hmetadata,publicationComplete]⟩
    | some index =>
      simp [Disk.fingerprint,hindex,hmetadata,publicationComplete]
  | some metadata =>
    right
    obtain ⟨index,hindex,hle,hsame,hless⟩ := h.order metadata hmetadata
    have hcomplete : publicationComplete w.disk.fingerprint =
        decide (index.mtime < metadata.mtime) := by
      simp [Disk.fingerprint,hindex,hmetadata,publicationComplete,FileFingerprint.olderThan,
        Stamped.stat]
    refine ⟨index,metadata,hindex,rfl,?_⟩
    rw [hcomplete]
    by_cases hone : index.save = metadata.save
    · exact .inl ⟨hone,decide_eq_true (hsame hone)⟩
    · right
      refine ⟨hone,decide_eq_false ?_⟩
      omega

omit [DecidableEq P] in
theorem Inv.restores_iff (h : w.Inv) (s : Storage V F) :
    w.disk.Restores w.saves (w.disk.load s) ↔ publicationComplete w.disk.fingerprint = true := by
  rcases h.files_cases with ⟨hmetadata,⟨hindex,hcomplete⟩ | ⟨hindex,hcomplete⟩⟩ |
    ⟨index,metadata,hindex,hmetadata,⟨hone,hcomplete⟩ | ⟨htorn,hcomplete⟩⟩
  · rw [hcomplete]
    refine iff_of_true (.inl ⟨hindex,hmetadata,?_⟩) rfl
    rw [Disk.load,hindex]
    exact ⟨rfl,rfl⟩
  · rw [hcomplete]
    apply iff_of_false _ Bool.false_ne_true
    rintro (⟨hnone,-⟩ | ⟨-,metadata,-,-,hsome,-⟩)
    · exact hindex hnone
    · exact absurd (hsome.symm.trans hmetadata) (some_ne_none metadata)
  · rw [hcomplete]
    refine iff_of_true (.inr ?_) rfl
    obtain ⟨-,saved,hsaved,hcontent⟩ := h.indexSaved index hindex
    obtain ⟨-,saved',hsaved',hcontent'⟩ := h.metadataSaved metadata hmetadata
    rw [← hone] at hsaved'
    obtain rfl := some.inj (hsaved.symm.trans hsaved')
    have hload : w.disk.load s = s.loadFaissIndex saved.files := by
      rw [Disk.load,hindex,hmetadata]
      dsimp only
      rw [hcontent,hcontent']
      rfl
    refine ⟨index,metadata,saved,hindex,hmetadata,hone,hsaved,?_,?_,?_⟩
    · rw [hload]
      rfl
    · intro fid m hm
      rw [hload,Storage.loadFaissIndex,Dict.get_filterMap] at hm
      obtain ⟨entry,hentry,hrow⟩ := bind_eq_some_iff.mp hm
      obtain ⟨v,hv,rfl⟩ := map_eq_some_iff.mp hrow
      exact ⟨hentry,hv.symm⟩
    · intro hpaired fid
      rw [hload]
      exact hpaired.load_files fid
  · rw [hcomplete]
    apply iff_of_false _ Bool.false_ne_true
    rintro (⟨hnone,-⟩ | ⟨index',metadata',-,hindex',hmetadata',hone,-⟩)
    · exact absurd (hindex.symm.trans hnone) (some_ne_none index)
    · obtain rfl := some.inj (hindex.symm.trans hindex')
      obtain rfl := some.inj (hmetadata.symm.trans hmetadata')
      exact htorn hone

omit [DecidableEq P] in
theorem storage_reload {multiprocess : Bool} {disk : Disk V} {proc : Proc V F}
    (hdue : proc.reloadDue multiprocess disk = true) :
    (proc.reload multiprocess disk).storage = disk.load proc.storage := by
  rw [Proc.reload,if_pos hdue]
  rfl

omit [DecidableEq P] in
theorem Inv.installs_iff (h : w.Inv) (multiprocess : Bool) (p : P) :
    w.InstallsOneSave multiprocess p ↔ w.Guarded p := by
  constructor
  · intro hinstalls hupdated
    have hdue : (w.procs p).reloadDue multiprocess w.disk = true := by
      rw [Proc.reloadDue,hupdated]
      rfl
    have hrestores := hinstalls hdue
    rw [storage_reload hdue] at hrestores
    exact (h.restores_iff _).mp hrestores
  · intro hguarded hdue
    rw [storage_reload hdue]
    apply (h.restores_iff _).mpr
    rw [Proc.reloadDue,Bool.or_eq_true] at hdue
    cases hdue with
    | inl hupdated => exact hguarded hupdated
    | inr hdiverges => exact FileFingerprint.complete_of_divergence Nat.one_lt_two hdiverges

omit [DecidableEq P] in
theorem Inv.start : (World.start : World P V F).Inv where
  indexSaved _ hindex := nomatch hindex
  metadataSaved _ hmetadata := nomatch hmetadata
  order _ hmetadata := nomatch hmetadata
  saving _ hsaving := nomatch hsaving
  flags _ hflag := by
    cases hflag with
    | inl hupdated => exact nomatch hupdated
    | inr hsent => exact nomatch hsent

omit [DecidableEq P] in
theorem Inv.frame (h : w.Inv) (hdisk : w'.disk = w.disk) (hclock : w'.clock = w.clock)
    (hsaves : w'.saves = w.saves)
    (hsaving : ∀ saving, w'.saving = some saving → w.saving = some saving ∧
      w'.running saving.process = w.running saving.process ∧
      (w'.procs saving.process).storage = (w.procs saving.process).storage)
    (hflags : ∀ p, (w'.procs p).storageUpdated = true ∨ w'.inFlight p = true →
      (w.procs p).storageUpdated = true ∨ w.inFlight p = true) : w'.Inv where
  indexSaved := by rw [hdisk,hclock,hsaves]; exact h.indexSaved
  metadataSaved := by rw [hdisk,hclock,hsaves]; exact h.metadataSaved
  order := by rw [hdisk]; exact h.order
  saving saving hsome := by
    obtain ⟨hold,hrunning,hstorage⟩ := hsaving saving hsome
    rw [hrunning,hsaves,hstorage,hdisk]
    exact h.saving saving hold
  flags p hflag := by
    rw [hdisk]
    exact h.flags p (hflags p hflag)

theorem Inv.setProc (h : w.Inv) {proc : Proc V F} (hnone : w.saving = none)
    (hflag : proc.storageUpdated = true → (w.procs p).storageUpdated = true) :
    (w.setProc p proc).Inv := by
  refine h.frame ?_ ?_ ?_ ?_ ?_
  · rfl
  · rfl
  · rfl
  · intro saving hsaving
    exact absurd (hsaving.symm.trans hnone) (some_ne_none saving)
  · rintro q (hupdated | hsent)
    · simp only [World.setProc] at hupdated
      split at hupdated
      · rename_i heq
        rw [heq]
        exact .inl (hflag hupdated)
      · exact .inl hupdated
    · exact .inr hsent

omit [DecidableEq P] in
theorem storageUpdated_reload (multiprocess : Bool) (disk : Disk V) (proc : Proc V F)
    (h : (proc.reload multiprocess disk).storageUpdated = true) : proc.storageUpdated = true := by
  rw [Proc.reload] at h
  split at h
  · exact nomatch h
  · exact h

omit [DecidableEq P] in
theorem storageUpdated_reloadClean (multiprocess : Bool) (disk : Disk V) (proc : Proc V F)
    (h : (proc.reloadClean multiprocess disk).storageUpdated = true) :
    proc.storageUpdated = true := by
  rw [Proc.reloadClean] at h
  split at h
  · exact storageUpdated_reload multiprocess disk proc h
  · exact h

omit [DecidableEq P] in
theorem Inv.beginSave (h : w.Inv) (hrunning : w.running p = true) : (w.beginSave p).Inv where
  indexSaved index hindex := by
    obtain ⟨hle,saved,hsaved,hcontent⟩ := h.indexSaved index hindex
    exact ⟨hle,saved,List.getElem?_append_left (List.getElem?_eq_some_iff.mp hsaved).1 ▸ hsaved,
      hcontent⟩
  metadataSaved metadata hmetadata := by
    obtain ⟨hle,saved,hsaved,hcontent⟩ := h.metadataSaved metadata hmetadata
    exact ⟨hle,saved,List.getElem?_append_left (List.getElem?_eq_some_iff.mp hsaved).1 ▸ hsaved,
      hcontent⟩
  order := h.order
  saving saving hsaving := by
    obtain rfl := some.inj hsaving
    refine ⟨hrunning,List.getElem?_concat_length,?_⟩
    intro index hindex
    obtain ⟨-,saved,hsaved,-⟩ := h.indexSaved index hindex
    exact (List.getElem?_eq_some_iff.mp hsaved).1
  flags := h.flags

omit [DecidableEq P] in
theorem Inv.renameIndex (h : w.Inv) {mtime : ℕ} (hclock : w.clock < mtime) (size : ℕ) :
    (w.renameIndex mtime size).Inv := by
  rw [World.renameIndex]
  split
  · rename_i p number hsaving
    obtain ⟨hrunning,hsaved,hearlier⟩ := h.saving _ hsaving
    have hbefore : ∀ metadata, w.disk.metadata = some metadata → metadata.save < number := by
      intro metadata hmetadata
      obtain ⟨index,hindex,hle,-⟩ := h.order metadata hmetadata
      exact Nat.lt_of_le_of_lt hle (hearlier index hindex)
    constructor
    case indexSaved =>
      intro index hindex
      obtain rfl := some.inj hindex
      exact ⟨Nat.le_refl _,_,hsaved,rfl⟩
    case metadataSaved =>
      intro metadata hmetadata
      obtain ⟨hle,hcontent⟩ := h.metadataSaved metadata hmetadata
      exact ⟨Nat.le_trans hle (Nat.le_of_lt hclock),hcontent⟩
    case order =>
      intro metadata hmetadata
      have hless := hbefore metadata hmetadata
      refine ⟨_,rfl,Nat.le_of_lt hless,?_,?_⟩
      · intro heq
        exact absurd hless (by rw [← heq]; exact Nat.lt_irrefl _)
      · intro _
        exact Nat.lt_of_le_of_lt (h.metadataSaved metadata hmetadata).1 hclock
    case saving =>
      intro saving hsome
      obtain rfl := some.inj hsome
      exact ⟨hrunning,hsaved,⟨_,rfl,rfl⟩,hbefore⟩
    case flags => exact h.flags
  · exact h

omit [DecidableEq P] in
theorem Inv.renameMetadata (h : w.Inv) {mtime : ℕ} (hclock : w.clock < mtime) (size : ℕ) :
    (w.renameMetadata mtime size).Inv := by
  rw [World.renameMetadata]
  split
  · rename_i p number hsaving
    obtain ⟨hrunning,hsaved,⟨index,hindex,rfl⟩,-⟩ := h.saving _ hsaving
    obtain ⟨hle,hcontent⟩ := h.indexSaved index hindex
    constructor
    case indexSaved =>
      intro index' hindex'
      obtain ⟨hle',hcontent'⟩ := h.indexSaved index' hindex'
      exact ⟨Nat.le_trans hle' (Nat.le_of_lt hclock),hcontent'⟩
    case metadataSaved =>
      intro metadata hmetadata
      obtain rfl := some.inj hmetadata
      exact ⟨Nat.le_refl _,_,hsaved,rfl⟩
    case order =>
      intro metadata hmetadata
      obtain rfl := some.inj hmetadata
      refine ⟨index,hindex,Nat.le_refl _,?_,?_⟩
      · exact fun _ => Nat.lt_of_le_of_lt hle hclock
      · exact fun hless => absurd hless (Nat.lt_irrefl _)
    case saving =>
      intro saving hsome
      obtain rfl := some.inj hsome
      exact ⟨hrunning,hsaved,some_ne_none _⟩
    case flags => exact fun _ _ => some_ne_none _
  · exact h

theorem Inv.release (h : w.Inv) (proc : Proc V F)
    (hflag : proc.storageUpdated = true → (w.procs p).storageUpdated = true) :
    ({ w.setProc p proc with saving := none } : World P V F).Inv := by
  have hnone : ({ w with saving := none } : World P V F).Inv := by
    refine h.frame ?_ ?_ ?_ ?_ ?_
    · rfl
    · rfl
    · rfl
    · exact fun _ hsome => nomatch hsome
    · exact fun _ hflag => hflag
  exact hnone.setProc rfl hflag

theorem Inv.fail (h : w.Inv) : w.fail.Inv := by
  rw [World.fail]
  split
  · exact h.release _ id
  · exact h.release _ id
  · exact h

theorem Inv.publish (h : w.Inv) (sent : P → Bool) (returns : Bool) :
    (w.publish sent returns).Inv := by
  rw [World.publish]
  split
  · rename_i p number hsaving
    obtain ⟨-,-,hmetadata⟩ := h.saving _ hsaving
    have hreleased : ({ w with saving := none } : World P V F).Inv := by
      refine h.frame ?_ ?_ ?_ ?_ ?_
      · rfl
      · rfl
      · rfl
      · exact fun _ hsome => nomatch hsome
      · exact fun _ hflag => hflag
    exact { hreleased with
      saving := fun _ hsome => nomatch hsome
      flags := fun _ _ => hmetadata }
  · exact h

theorem Inv.crash (h : w.Inv) (p : P) : (w.crash p).Inv := by
  refine h.frame ?_ ?_ ?_ ?_ ?_
  · rfl
  · rfl
  · rfl
  · intro saving hsome
    simp only [World.crash] at hsome ⊢
    split at hsome
    · rename_i saving' hsaving
      split at hsome
      · exact nomatch hsome
      · rename_i hother
        obtain rfl := some.inj hsome
        exact ⟨hsaving,if_neg hother,trivial⟩
    · exact nomatch hsome
  · exact fun _ hflag => hflag

theorem Inv.startUp (h : w.Inv) (hnot : w.running p = false) (storage : Storage V F)
    (recorded : Option Fingerprint) :
    ({ w.setProc p ⟨storage, false, recorded, none, 0⟩ with
      running := fun q => if q = p then true else w.running q
      inFlight := fun q => if q = p then false else w.inFlight q } : World P V F).Inv := by
  refine h.frame ?_ ?_ ?_ ?_ ?_
  · rfl
  · rfl
  · rfl
  · intro saving hsaving
    have hother : saving.process ≠ p := by
      intro heq
      have hrunning := (h.saving saving hsaving).1
      rw [heq,hnot] at hrunning
      exact Bool.false_ne_true hrunning
    refine ⟨hsaving,if_neg hother,?_⟩
    simp only [World.setProc,if_neg hother]
  · intro q hflag
    by_cases hq : q = p
    · simp [World.setProc,hq] at hflag
    · simpa [World.setProc,hq] using hflag

theorem Inv.deliver (h : w.Inv) (hsent : w.inFlight p = true) :
    ({ w.setProc p { w.procs p with storageUpdated := true } with
      inFlight := fun q => if q = p then false else w.inFlight q } : World P V F).Inv := by
  refine h.frame ?_ ?_ ?_ ?_ ?_
  · rfl
  · rfl
  · rfl
  · intro saving hsaving
    refine ⟨hsaving,rfl,?_⟩
    simp only [World.setProc]
    split
    · rename_i heq
      rw [heq]
    · rfl
  · intro q hflag
    by_cases hq : q = p
    · rw [hq]
      exact .inr hsent
    · simpa [World.setProc,hq] using hflag

theorem Inv.setStorage (h : w.Inv) (hnone : w.saving = none) (storage : Storage V F) :
    (w.setStorage p storage).Inv := h.setProc hnone id

theorem Inv.reload (h : w.Inv) (hnone : w.saving = none) (multiprocess : Bool) :
    (w.reload multiprocess p).Inv :=
  h.setProc hnone (storageUpdated_reload multiprocess w.disk _)

variable [DecidableEq F] {multiprocess : Bool} {rowFingerprint : String → Row → F}

theorem Inv.flush (h : w.Inv) (hrunning : w.running p = true) (hnone : w.saving = none)
    (faults : Faults V) (saves : Storage V F → Bool) :
    (w.flush rowFingerprint p faults saves).Inv := by
  rw [World.flush]
  have hflushed := h.setStorage (p := p) hnone
    ((w.procs p).storage.flushPendingLocked rowFingerprint faults).storage
  split
  · exact hflushed.beginSave hrunning
  · exact hflushed

theorem Inv.step (h : w.Inv) {a : Action P V F}
    (hstep : w.Step multiprocess rowFingerprint a w') : w'.Inv := by
  obtain ⟨henabled,rfl⟩ := hstep
  cases a with
  | startUp p storage recorded => exact h.startUp henabled storage recorded
  | edit p edit => exact h.setStorage henabled.2 _
  | read p => exact h.reload henabled.2 multiprocess
  | deleteEntityRelation p fails entityName =>
    exact (h.reload henabled.2 multiprocess).setStorage henabled.2 _
  | indexDoneCallback p faults =>
    exact (h.reload henabled.2 multiprocess).flush henabled.1 henabled.2 faults (fun _ => true)
  | finalize p faults =>
    simp only [World.exec]
    split
    · have hreloaded := h.setProc henabled.2
        (storageUpdated_reloadClean multiprocess w.disk (w.procs p))
      exact hreloaded.flush henabled.1 henabled.2 faults (fun storage => storage.indexDirty)
    · exact h
  | renameIndex mtime size => exact h.renameIndex henabled size
  | renameMetadata mtime size => exact h.renameMetadata henabled size
  | fail => exact h.fail
  | publish sent returns => exact h.publish sent returns
  | crash p => exact h.crash p
  | deliver p => exact h.deliver henabled

end World

/-- In every run a reload installs what one save wrote exactly when no old notification meets a
pair that is only half written. -/
theorem reload_installs_one_save_iff [DecidableEq F] {multiprocess : Bool}
    {rowFingerprint : String → Row → F} {as : List (Action P V F)}
    (hrun : Run (World.Step multiprocess rowFingerprint) World.start as w) (p : P) :
    w.InstallsOneSave multiprocess p ↔ w.Guarded p := by
  have hinv : w.Inv := hrun.preserves (fun _ _ _ hstep hs => hs.step hstep) World.Inv.start
  exact hinv.installs_iff multiprocess p

def sampleFields : Fields := ⟨none, none, "text"⟩

def sampleUpsert (writeSeq : ℕ) (x : String) : Edit ℕ :=
  .upsert 0 writeSeq ⟨[(x, sampleFields)], List.nodup_singleton _⟩

def sampleFaults (vector : ℕ) : Faults ℕ := ⟨some [vector], false, false, false⟩

/-- `true` saves a row for `a`, and the notification reaches `false`. -/
def notified : List (Action Bool ℕ Row) :=
  [.startUp true ⟨[], .empty, .empty, [], .empty, .empty, false⟩ (some [none, none]),
    .startUp false ⟨[], .empty, .empty, [], .empty, .empty, false⟩ (some [none, none]),
    .edit true (sampleUpsert 1 "a"), .indexDoneCallback true (sampleFaults 10),
    .renameIndex 1 100, .renameMetadata 2 100, .publish (fun _ => true) true, .deliver false]

/-- Before `false` has read, a save of `b` in the place of `a` fails between its two files. -/
def tornAfter : List (Action Bool ℕ Row) :=
  notified ++ [.edit true (.delete ["a"]), .edit true (sampleUpsert 2 "b"),
    .indexDoneCallback true (sampleFaults 20), .renameIndex 3 100, .fail]

def ran (as : List (Action Bool ℕ Row)) : World Bool ℕ Row :=
  as.foldl (World.exec true fun _ row => row) World.start

theorem enabled_rename {w : World Bool ℕ Row} {mtime size : ℕ} (h : w.clock < mtime) :
    w.Enabled (.renameIndex mtime size) ∧ w.Enabled (.renameMetadata mtime size) := ⟨h,h⟩

theorem run_notified :
    Run (World.Step true fun _ row => row) World.start notified (ran notified) :=
  .cons ⟨rfl,rfl⟩ (.cons ⟨rfl,rfl⟩ (.cons ⟨⟨rfl,rfl⟩,rfl⟩ (.cons ⟨⟨rfl,rfl⟩,rfl⟩
    (.cons ⟨(enabled_rename (by decide +kernel)).1,rfl⟩
      (.cons ⟨(enabled_rename (by decide +kernel)).2,rfl⟩ (.cons ⟨trivial,rfl⟩
        (.cons ⟨rfl,rfl⟩ (.nil _))))))))

theorem notified_installs : Run (World.Step true fun _ row => row) World.start notified
      (ran notified) ∧
    ((ran notified).InstallsOneSave true false ↔ (ran notified).Guarded false) ∧
    (ran notified).Guarded false :=
  ⟨run_notified,reload_installs_one_save_iff run_notified false,fun _ => by decide +kernel⟩

theorem run_tornAfter :
    Run (World.Step true fun _ row => row) World.start tornAfter (ran tornAfter) := by
  have hran : ran tornAfter = (tornAfter.drop 8).foldl (World.exec true fun _ row => row)
      (ran notified) := rfl
  apply run_notified.append
  exact .cons ⟨⟨rfl,rfl⟩,rfl⟩ (.cons ⟨⟨rfl,rfl⟩,rfl⟩
    (.cons ⟨⟨rfl,rfl⟩,rfl⟩ (.cons ⟨(enabled_rename (by decide +kernel)).1,rfl⟩
      (.cons ⟨trivial,rfl⟩ (.nil _)))))

/-- The reader binds the row of `a` to the vector of `b`. -/
theorem torn_pair_installed :
    Run (World.Step true fun _ row => row) World.start tornAfter (ran tornAfter) ∧
      ¬ (ran tornAfter).InstallsOneSave true false ∧
      (((ran tornAfter).exec true (fun _ row => row) (.read false)).procs false).storage.idToMeta.get
          0 = some ⟨"a", ⟨some 1, 0, sampleFields⟩, some 20⟩ := by
  refine ⟨run_tornAfter,?_,by decide +kernel⟩
  have hinv : (ran tornAfter).Inv :=
    run_tornAfter.preserves (fun _ _ _ hstep hs => hs.step hstep) World.Inv.start
  rw [hinv.installs_iff]
  intro hguarded
  have hcomplete := hguarded (by decide +kernel)
  exact absurd hcomplete (by decide +kernel)

end LightRAG.FaissPublication
