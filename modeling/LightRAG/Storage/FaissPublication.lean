import LightRAG.Storage.FaissIndex
import LightRAG.Storage.FileFingerprint

/-!
# The pair of Faiss files and its readers

Several processes share an index file and a metadata file.
-/

namespace LightRAG.FaissPublication

open VectorStores (Row Fields)
open FaissIndex (Storage Faults)
open FileFingerprint (Fingerprint Sampled divergenceDetected countsAsANewLostNotification
  publicationComplete)

/-- A file, with the number of the save that wrote it. -/
structure Stamped (α : Type) where
  content : α
  mtime : ℕ
  size : ℕ
  save : ℕ

def Stamped.stat {α : Type} (file : Stamped α) : ℕ × ℕ := (file.mtime, file.size)

structure Disk (V : Type) where
  index : Option (Stamped (List V))
  metadata : Option (Stamped (Dict ℕ (String × Row)))

variable {V F P : Type}

def Disk.fingerprint (disk : Disk V) : Fingerprint :=
  [disk.index.map Stamped.stat, disk.metadata.map Stamped.stat]

/-- `_load_faiss_index`, where the metadata can only be read together with an index. -/
def Disk.load (disk : Disk V) (s : Storage V F) : Storage V F :=
  match disk.index, disk.metadata with
  | some index, some metadata => s.loadFaissIndex ⟨index.content, metadata.content⟩
  | _, _ => { s with index := [], idToMeta := .empty }

/-- A process with its `FaissVectorDBStorage`. -/
structure Proc (V F : Type) where
  storage : Storage V F
  storageUpdated : Bool
  loadedFingerprint : Option Fingerprint
  countedPeerFingerprint : Option Fingerprint
  missedNotificationReloads : ℕ

namespace Proc

def adoptFingerprint (sampled : Sampled) (proc : Proc V F) : Proc V F :=
  { proc with
    loadedFingerprint := sampled.adopted
    countedPeerFingerprint :=
      if sampled.adopted = none then proc.countedPeerFingerprint else none }

def countLost (sampled : Sampled) (proc : Proc V F) : Proc V F :=
  if proc.storageUpdated then proc
  else if countsAsANewLostNotification sampled proc.countedPeerFingerprint then
    { proc with
      countedPeerFingerprint := sampled.adopted
      missedNotificationReloads := proc.missedNotificationReloads + 1 }
  else proc

/-- The two tests; `multiprocess` is `fence_enabled()`. -/
def reloadDue (multiprocess : Bool) (disk : Disk V) (proc : Proc V F) : Bool :=
  proc.storageUpdated ||
    divergenceDetected multiprocess (.read disk.fingerprint) proc.loadedFingerprint

def reload (multiprocess : Bool) (disk : Disk V) (proc : Proc V F) : Proc V F :=
  if proc.reloadDue multiprocess disk then
    let counted := proc.countLost (.read disk.fingerprint)
    { ({ counted with storage := disk.load proc.storage } : Proc V F).adoptFingerprint
        (.read disk.fingerprint) with
      storageUpdated := false }
  else proc

def reloadClean (multiprocess : Bool) (disk : Disk V) (proc : Proc V F) : Proc V F :=
  if proc.reloadDue multiprocess disk then
    let reloaded := proc.reload multiprocess disk
    { reloaded with storage := { reloaded.storage with indexDirty := false } }
  else proc

end Proc

/-- What is left of a save that has begun. -/
inductive Phase
  | toIndex
  | toMetadata
  | written
deriving DecidableEq

structure Saving (P : Type) where
  process : P
  number : ℕ
  phase : Phase

structure World (P V F : Type) where
  procs : P → Proc V F
  running : P → Bool
  disk : Disk V
  clock : ℕ
  saving : Option (Saving P)
  inFlight : P → Bool
  saves : List (Storage V F)

/-- The methods that change the buffers alone, and the vectors that `get_vectors_by_ids` keeps. -/
inductive Edit (V : Type)
  | upsert (currentTime writeSeq : ℕ) (data : Dict String Fields)
  | delete (ids : List String)
  | dropPendingIndexOps
  | cacheVectors (vectors : Dict String V)

def Edit.apply (s : Storage V F) : Edit V → Storage V F
  | .upsert currentTime writeSeq data => s.upsert currentTime writeSeq data
  | .delete ids => s.delete ids
  | .dropPendingIndexOps => s.dropPendingIndexOps
  | .cacheVectors vectors => s.cacheVectors vectors

inductive Action (P V F : Type)
  -- The first load is not made under the lock.
  | startUp (p : P) (storage : Storage V F) (recorded : Option Fingerprint)
  | edit (p : P) (edit : Edit V)
  | read (p : P)
  | deleteEntityRelation (p : P) (fails : Bool) (entityName : String)
  | indexDoneCallback (p : P) (faults : Faults V)
  | finalize (p : P) (faults : Faults V)
  | renameIndex (mtime size : ℕ)
  | renameMetadata (mtime size : ℕ)
  -- The save raises.
  | fail
  | publish (sent : P → Bool) (returns : Bool)
  | crash (p : P)
  | deliver (p : P)

namespace World

variable [DecidableEq P]

def start : World P V F where
  procs _ := ⟨⟨[], .empty, .empty, [], .empty, .empty, false⟩, false, none, none, 0⟩
  running _ := false
  disk := ⟨none, none⟩
  clock := 0
  saving := none
  inFlight _ := false
  saves := []

def setProc (p : P) (proc : Proc V F) (w : World P V F) : World P V F :=
  { w with procs := fun q => if q = p then proc else w.procs q }

def setStorage (p : P) (storage : Storage V F) (w : World P V F) : World P V F :=
  w.setProc p { w.procs p with storage := storage }

/-- `_save_faiss_index` takes its snapshot. -/
def beginSave (p : P) (w : World P V F) : World P V F :=
  { w with
    saving := some ⟨p, w.saves.length, .toIndex⟩
    saves := w.saves ++ [(w.procs p).storage] }

def renameIndex (mtime size : ℕ) (w : World P V F) : World P V F :=
  match w.saving with
  | some ⟨p, number, .toIndex⟩ =>
    { w with
      disk := { w.disk with index := some ⟨(w.procs p).storage.index, mtime, size, number⟩ }
      clock := mtime
      saving := some ⟨p, number, .toMetadata⟩ }
  | _ => w

def renameMetadata (mtime size : ℕ) (w : World P V F) : World P V F :=
  match w.saving with
  | some ⟨p, number, .toMetadata⟩ =>
    { w with
      disk := { w.disk with
        metadata := some ⟨(w.procs p).storage.files.metadata, mtime, size, number⟩ }
      clock := mtime
      saving := some ⟨p, number, .written⟩ }
  | _ => w

def recordFingerprint (p : P) (w : World P V F) : World P V F :=
  w.setProc p ((w.procs p).adoptFingerprint (.read w.disk.fingerprint))

def fail (w : World P V F) : World P V F :=
  match w.saving with
  | some ⟨p, _, .toIndex⟩ => { w.recordFingerprint p with saving := none }
  | some ⟨p, _, .toMetadata⟩ => { w.recordFingerprint p with saving := none }
  | _ => w

/-- `_committed`: some processes are notified, and if that returns, the own flag is reset and the
logs are retired. -/
def publish (sent : P → Bool) (returns : Bool) (w : World P V F) : World P V F :=
  match w.saving with
  | some ⟨p, _, .written⟩ =>
    let recorded := w.recordFingerprint p
    let proc := recorded.procs p
    { recorded.setProc p
        (if returns then { proc with storage := proc.storage.committed, storageUpdated := false }
          else proc) with
      saving := none
      inFlight := fun q => w.inFlight q || (sent q && ! (returns && decide (q = p))) }
  | _ => w

def crash (p : P) (w : World P V F) : World P V F :=
  { w with
    running := fun q => if q = p then false else w.running q
    saving := match w.saving with
      | some saving => if saving.process = p then none else some saving
      | none => none }

variable [DecidableEq F] (multiprocess : Bool) (rowFingerprint : String → Row → F)

/-- The flush of a call and the begin of its save, once the index is up to date. -/
def flush (p : P) (faults : Faults V) (saves : Storage V F → Bool) (w : World P V F) :
    World P V F :=
  let flushed := (w.procs p).storage.flushPendingLocked rowFingerprint faults
  let w' := w.setStorage p flushed.storage
  if flushed.returns && saves flushed.storage then w'.beginSave p else w'

def reload (p : P) (w : World P V F) : World P V F :=
  w.setProc p ((w.procs p).reload multiprocess w.disk)

def exec (w : World P V F) : Action P V F → World P V F
  | .startUp p storage recorded =>
    { w.setProc p ⟨storage, false, recorded, none, 0⟩ with
      running := fun q => if q = p then true else w.running q
      inFlight := fun q => if q = p then false else w.inFlight q }
  | .edit p edit => w.setStorage p (edit.apply (w.procs p).storage)
  | .read p => w.reload multiprocess p
  | .deleteEntityRelation p fails entityName =>
    let w' := w.reload multiprocess p
    w'.setStorage p
      ((w'.procs p).storage.deleteEntityRelation rowFingerprint fails entityName).storage
  | .indexDoneCallback p faults =>
    (w.reload multiprocess p).flush rowFingerprint p faults fun _ => true
  | .finalize p faults =>
    if (w.procs p).storage.buffered || (w.procs p).storage.indexDirty then
      (w.setProc p ((w.procs p).reloadClean multiprocess w.disk)).flush rowFingerprint p faults
        fun storage => storage.indexDirty
    else w
  | .renameIndex mtime size => w.renameIndex mtime size
  | .renameMetadata mtime size => w.renameMetadata mtime size
  | .fail => w.fail
  | .publish sent returns => w.publish sent returns
  | .crash p => w.crash p
  | .deliver p =>
    { w.setProc p { w.procs p with storageUpdated := true } with
      inFlight := fun q => if q = p then false else w.inFlight q }

omit [DecidableEq P] [DecidableEq F] in
/-- Methods take the lock, the times of renames increase, and a notification must be there. -/
def Enabled (w : World P V F) : Action P V F → Prop
  | .startUp p _ _ => w.running p = false
  | .edit p _ => w.running p = true ∧ w.saving = none
  | .read p => w.running p = true ∧ w.saving = none
  | .deleteEntityRelation p _ _ => w.running p = true ∧ w.saving = none
  | .indexDoneCallback p _ => w.running p = true ∧ w.saving = none
  | .finalize p _ => w.running p = true ∧ w.saving = none
  | .renameIndex mtime _ => w.clock < mtime
  | .renameMetadata mtime _ => w.clock < mtime
  | .deliver p => w.inFlight p = true
  | _ => True

def Step (w : World P V F) (a : Action P V F) (w' : World P V F) : Prop :=
  w.Enabled a ∧ w' = w.exec multiprocess rowFingerprint a

end World
end LightRAG.FaissPublication
