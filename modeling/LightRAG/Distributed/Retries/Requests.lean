import LightRAG.Framework.Procedure
import LightRAG.Framework.Table
import LightRAG.Framework.Text
import Mathlib.Data.List.Sort

/-!
# Durable manual retries

The tables of the pipeline control, the document rows, and the calls of the instances: accepting
a request, pausing, resuming, cancelling, and the run that resets the failed documents of the
pending requests under an exclusive operation.
-/

namespace LightRAG.Retries
open Table Proc

abbrev Instance := Nat

inductive DocStatus
  | pending
  | parsing
  | analyzing
  | processing
  | preprocessed
  | processed
  | failed
deriving DecidableEq

/-- What a run reads of a document row; `journaled` is whether it carries a custom-chunk patch. -/
structure Row where
  status : DocStatus
  updatedAt : String
  journaled : Bool
deriving DecidableEq

inductive RequestState
  | selecting
  | resetting
  | completed
deriving DecidableEq

def RequestState.rank : RequestState → Nat
  | .selecting => 0
  | .resetting => 1
  | .completed => 2

/-- A row of `pipeline_requests`. -/
structure Request (T : Type) where
  requestId : String
  state : RequestState
  createdAt : T
  targetCutoffAt : Option T
deriving DecidableEq

/-- `request.get("target_cutoff_at") or request["created_at"]`. -/
def Request.cutoff {T : Type} (r : Request T) : T := r.targetCutoffAt.getD r.createdAt

/-- A row of `pipeline_retry_targets`. -/
structure Target where
  requestId : String
  docId : String
  version : String
  done : Bool
deriving DecidableEq

def Target.key (t : Target) : String × String := (t.requestId, t.docId)

/-- The row of `pipeline_control`. -/
structure Control where
  paused : Bool
  cancelEpoch : Nat
deriving DecidableEq

/-- A move of a row to `PENDING` on behalf of a request, with the row that it replaced. -/
structure Reset where
  requestId : String
  docId : String
  replaced : Option Row
deriving DecidableEq

/-- `CURSOR_START`, `CURSOR_END` and the positions between them. -/
inductive Position
  | start
  | next (key : String)
  | finish
deriving DecidableEq

/-- The state the instances share. An exclusive operation is held by an instance, dead or not.
`stamps` are the values of `updated_at` that each row has had, and `resets` is the history of the
moves to `PENDING`. -/
structure World (T : Type) where
  rows : String → Option Row
  content : String → Bool
  stamps : List (String × String)
  requests : List (Request T)
  targets : List Target
  control : Option Control
  holder : Option Instance
  dead : Instance → Bool
  resets : List Reset

namespace World

variable {T : Type}
variable (requestId : String)

def request (w : World T) : Option (Request T) :=
  lookup Request.requestId w.requests requestId

variable (w : World T)

def pendingRetries : Nat := (w.requests.filter fun r => r.state ≠ .completed).length

/-- `ORDER BY created_at, request_id LIMIT 1`. -/
def nextRequest [LinearOrder T] (w : World T) : Option (Request T) :=
  let pending := w.requests.filter fun r => r.state ≠ .completed
  (pending.insertionSort fun a b => a.createdAt < b.createdAt ∨
    a.createdAt = b.createdAt ∧ a.requestId ≤ b.requestId).head?

/-- `get_full_docs_by_ids`. -/
def hydrate (docIds : List String) (w : World T) : List (String × Row) :=
  docIds.filterMap fun docId => (w.rows docId).map fun row => (docId, row)

/-- `INSERT … ON CONFLICT DO NOTHING` of one target. -/
def addTarget (w : World T) (target : String × String) : World T :=
  match lookup Target.key w.targets (requestId, target.1) with
  | some _ => w
  | none => { w with targets := w.targets ++ [⟨requestId, target.1, target.2, false⟩] }

def addTargets (targets : List (String × String)) (w : World T) : World T :=
  targets.foldl (addTarget requestId) w

/-- A request in the state `before` goes to the state `after`. -/
def advance (before after : RequestState) (w : World T) : World T :=
  { w with
    requests := updateWhere (fun r => r.requestId = requestId && r.state = before)
      (fun r => { r with state := after }) w.requests }

def finishSelection (w : World T) : World T :=
  w.advance requestId .selecting .resetting

def undone (w : World T) : List Target :=
  w.targets.filter fun t => t.requestId = requestId && !t.done

/-- `ORDER BY doc_id LIMIT limit`. -/
def targetPage (limit : Nat) (w : World T) : List Target :=
  ((w.undone requestId).insertionSort fun a b => a.docId ≤ b.docId).take limit

def finishTarget (requestId docId : String) (w : World T) : World T :=
  { w with
    targets := updateWhere (fun t => t.requestId = requestId && t.docId = docId)
      (fun t => { t with done := true }) w.targets }

def finishRequest (w : World T) : World T :=
  if w.undone requestId = [] then w.advance requestId .resetting .completed else w

def cancelRequests : World T :=
  { w with
    targets := updateWhere (fun t => !t.done) (fun t => { t with done := true }) w.targets
    requests := updateWhere (fun r => r.state ≠ .completed)
      (fun r => { r with state := .completed }) w.requests }

/-- A document-status write gives the row a new stamp. -/
def write (docId : String) (row : Row) (w : World T) : World T :=
  { w with
    rows := Function.update w.rows docId (some row)
    stamps := (docId, row.updatedAt) :: w.stamps }

/-- The upsert of `_build_pending_reset_update`. -/
def upsertPending (requestId docId updatedAt : String) (w : World T) : World T :=
  { w.write docId ⟨.pending, updatedAt, false⟩ with
    resets := w.resets ++ [⟨requestId, docId, w.rows docId⟩] }

def pause : World T :=
  { w with control :=
      match w.control with
      | none => some ⟨true, 1⟩
      | some control => some ⟨true, control.cancelEpoch + 1⟩ }

def resume : World T :=
  { w with control := w.control.map fun control => { control with paused := false } }

/-- The transaction of `request_retry`, where the database fills in `createdAt` and the default
of the cutoff. -/
def requestRetry (createdAt cutoff : T) (w : World T) :
    Request T × World T :=
  match w.request requestId with
  | some r => (r, w)
  | none =>
    let r : Request T := ⟨requestId, .selecting, createdAt, some cutoff⟩
    (r, { w.resume with requests := w.requests ++ [r] })

/-- An operation is recovered when its instance is gone. -/
def recover : Bool × World T :=
  match w.holder with
  | none => (false, w)
  | some i => if w.dead i then (true, { w with holder := none }) else (false, w)

end World

inductive Action (T : Type)
  | canClaimBatch
  | pendingRetries
  | admission
  | nextRequest
  | page (position : Position)
  | hydrate (docIds : List String)
  | addTargets (requestId : String) (targets : List (String × String))
  | finishSelection (requestId : String)
  | targets (requestId : String)
  | row (docId : String)
  | content (docId : String)
  | upsertPending (requestId docId : String)
  | finishTarget (requestId docId : String)
  | finishRequest (requestId : String)
  | cancelRequests
  | finish
  | pause
  | resume
  | requestRetry (requestId : String) (targetCutoffAt : Option T)
  | recover

abbrev Answer {T : Type} : Action T → Type
  | .canClaimBatch => Bool
  | .pendingRetries => Nat
  | .admission => Bool
  | .nextRequest => Option (Request T)
  | .page _ => List String × Position
  | .hydrate _ => List (String × Row)
  | .targets _ => List Target
  | .row _ => Option Row
  | .content _ => Bool
  | .requestRetry _ _ => Request T
  | .recover => Bool
  | _ => Unit

variable {T : Type}

abbrev Call (T : Type) := Proc (Action T) Answer

section Calls

variable [LinearOrder T]

/-- The targets of a page; `none` when a version is no timestamp. -/
def selectTargets (instant : String → Option T) (cutoff : T) :
    List (String × Row) → Option (List (String × String))
  | [] => some []
  | (docId, row) :: rows =>
    if row.status ≠ .failed ∨ row.journaled = true then selectTargets instant cutoff rows
    else
      match instant row.updatedAt with
      | none => none
      | some updated =>
        (selectTargets instant cutoff rows).map fun targets =>
          if updated ≤ cutoff then (docId, row.updatedAt) :: targets else targets

/-- The loop over the pages; `false` when it is given up. -/
def selectPages (instant : String → Option T) (request : Request T) :
    Nat → Position → Call T Bool
  | _, .finish => return true
  | 0, _ => return false
  | fuel + 1, position => do
    let page : List String × Position ← ask (Action.page position)
    let rows : List (String × Row) ← ask (Action.hydrate page.1)
    match selectTargets instant request.cutoff rows with
    | none => return false
    | some targets =>
      let _ : Unit ← ask (Action.addTargets request.requestId targets)
      selectPages instant request fuel page.2

/-- One turn of the loop over the targets of a page. -/
def resetTarget (requestId : String) (target : Target) : Call T Unit := do
  let row : Option Row ← ask (Action.row target.docId)
  match row with
  | none => pure ()
  | some row =>
    if row.status = .failed ∧ row.updatedAt = target.version ∧ row.journaled = false then
      let content : Bool ← ask (Action.content target.docId)
      if content = true then
        let _ : Unit ← ask (Action.upsertPending requestId target.docId)
        pure ()
  let _ : Unit ← ask (Action.finishTarget requestId target.docId)
  pure ()

def resetEach (requestId : String) : List Target → Call T Unit
  | [] => return
  | target :: targets => do
    resetTarget requestId target
    resetEach requestId targets

/-- The loop over the pages of targets; `false` when it is given up. -/
def resetTargets (requestId : String) : Nat → Call T Bool
  | 0 => return false
  | fuel + 1 => do
    let targets : List Target ← ask (Action.targets requestId)
    match targets with
    | [] => return true
    | target :: targets =>
      resetEach requestId (target :: targets)
      resetTargets requestId fuel

/-- The selection of a request that is not through with it. -/
def select (instant : String → Option T) (request : Request T) (fuel : Nat) : Call T Bool :=
  if request.state = .selecting then do
    let selected ← selectPages instant request fuel .start
    if selected = true then
      let _ : Unit ← ask (Action.finishSelection request.requestId)
      return true
    else return false
  else return true

def serve (instant : String → Option T) : Nat → Call T Unit
  | 0 => return
  | fuel + 1 => do
    let request : Option (Request T) ← ask Action.nextRequest
    match request with
    | none => return
    | some request =>
      let selected ← select instant request fuel
      if selected = true then
        let reset ← resetTargets request.requestId fuel
        if reset = true then
          let _ : Unit ← ask (Action.finishRequest request.requestId)
          serve instant fuel

/-- `reset_requests`; the operation is finished however its body ends. -/
def resetRequests (instant : String → Option T) (fuel : Nat) : Call T Unit := do
  let permitted : Bool ← ask Action.canClaimBatch
  if permitted = true then
    let pending : Nat ← ask Action.pendingRetries
    if pending ≠ 0 then
      let admitted : Bool ← ask Action.admission
      if admitted = true then
        serve instant fuel
        let _ : Unit ← ask Action.finish
        pure ()

def requestRetry (requestId : String) (targetCutoffAt : Option T) : Call T Unit :=
  if Text.isBlank requestId then pure ()
  else do
    let _ : Request T ← ask (Action.requestRetry requestId targetCutoffAt)
    pure ()

/-- `cancel_requests` under the exclusive operation of a clear. -/
def cancelRequests : Call T Unit := do
  let admitted : Bool ← ask Action.admission
  if admitted = true then
    let _ : Unit ← ask Action.cancelRequests
    let _ : Unit ← ask Action.finish
    pure ()

end Calls

section Steps

variable [LinearOrder T]

/-- The effect of an action of the instance `i`, which is alive. Pages and positions are what the
storage answers; a write gets a stamp that its row has not had. -/
inductive Perform (i : Instance) : (q : Action T) → World T → Answer q → World T → Prop
  | canClaimBatch {w : World T} (permitted : Bool) : Perform i .canClaimBatch w permitted w
  | pendingRetries {w : World T} : Perform i .pendingRetries w w.pendingRetries w
  | admitted {w : World T} (hfree : w.holder = none) :
    Perform i .admission w true { w with holder := some i }
  | refused {w : World T} : Perform i .admission w false w
  | nextRequest {w : World T} : Perform i .nextRequest w w.nextRequest w
  | page {w : World T} (position : Position) (docIds : List String) (next : Position) :
    Perform i (.page position) w (docIds, next) w
  | hydrate {w : World T} (docIds : List String) :
    Perform i (.hydrate docIds) w (w.hydrate docIds) w
  | addTargets {w : World T} (requestId : String) (targets : List (String × String)) :
    Perform i (.addTargets requestId targets) w () (w.addTargets requestId targets)
  | finishSelection {w : World T} (requestId : String) :
    Perform i (.finishSelection requestId) w () (w.finishSelection requestId)
  | targets {w : World T} (requestId : String) :
    Perform i (.targets requestId) w (w.targetPage requestId 64) w
  | row {w : World T} (docId : String) : Perform i (.row docId) w (w.rows docId) w
  | content {w : World T} (docId : String) : Perform i (.content docId) w (w.content docId) w
  | upsertPending {w : World T} (requestId docId updatedAt : String)
    (hnew : (docId, updatedAt) ∉ w.stamps) :
    Perform i (.upsertPending requestId docId) w () (w.upsertPending requestId docId updatedAt)
  | finishTarget {w : World T} (requestId docId : String) :
    Perform i (.finishTarget requestId docId) w () (w.finishTarget requestId docId)
  | finishRequest {w : World T} (requestId : String) :
    Perform i (.finishRequest requestId) w () (w.finishRequest requestId)
  | cancelRequests {w : World T} : Perform i .cancelRequests w () w.cancelRequests
  | finish {w : World T} : Perform i .finish w () { w with holder := none }
  | pause {w : World T} : Perform i .pause w () w.pause
  | resume {w : World T} : Perform i .resume w () w.resume
  | requestRetry {w : World T} (requestId : String) (targetCutoffAt : Option T)
    (createdAt default : T) :
    Perform i (.requestRetry requestId targetCutoffAt) w
      (w.requestRetry requestId createdAt (targetCutoffAt.getD default)).1
      (w.requestRetry requestId createdAt (targetCutoffAt.getD default)).2
  | recover {w : World T} : Perform i .recover w w.recover.1 w.recover.2

/-- What an instance calls; a body that was cut leaves its operation to be finished. -/
inductive Enters (instant : String → Option T) (i : Instance) (w : World T) : Call T Unit → Prop
  | resetRequests (fuel : Nat) : Enters instant i w (resetRequests instant fuel)
  | requestRetry (requestId : String) (targetCutoffAt : Option T) :
    Enters instant i w (requestRetry requestId targetCutoffAt)
  | pause : Enters instant i w (ask Action.pause)
  | resume : Enters instant i w (ask Action.resume)
  | cancelRequests : Enters instant i w cancelRequests
  | recover : Enters instant i w do
      let _ : Bool ← ask Action.recover
      pure ()
  | finish (hholder : w.holder = some i) : Enters instant i w (ask Action.finish)

/-- Between the exclusive operations the document processing writes and deletes rows, and at any
time an instance can die. -/
inductive Outside : World T → World T → Prop
  | write {w : World T} (docId : String) (row : Row) (content : String → Bool)
    (hfree : w.holder = none) (hnew : (docId, row.updatedAt) ∉ w.stamps) :
    Outside w { w.write docId row with content := content }
  | delete {w : World T} (docId : String) (hfree : w.holder = none) :
    Outside w { w with rows := Function.update w.rows docId none }
  | dies {w : World T} (i : Instance) :
    Outside w { w with dead := Function.update w.dead i true }

end Steps
end LightRAG.Retries

/-!
## Resets happen once

A reset needs the recorded version of its row, and it gives the row a new one.
-/

namespace LightRAG.Retries
open Table Proc List Function

variable {T : Type}

def Timely [LE T] (instant : String → Option T) (w : World T) (requestId version : String) : Prop :=
  ∃ r, w.request requestId = some r ∧ ∃ updated, instant version = some updated ∧
    updated ≤ r.cutoff

structure World.Sound [LE T] (instant : String → Option T) (w : World T) : Prop where
  requestKeys : (w.requests.map Request.requestId).Nodup
  targetKeys : (w.targets.map Target.key).Nodup
  timely : ∀ t ∈ w.targets, Timely instant w t.requestId t.version
  completed : ∀ r ∈ w.requests, r.state = .completed →
    ∀ t ∈ w.targets, t.requestId = r.requestId → t.done = true
  stamped : ∀ docId row, w.rows docId = some row → (docId, row.updatedAt) ∈ w.stamps
  justified : ∀ x ∈ w.resets, ∃ t ∈ w.targets, t.key = (x.requestId, x.docId) ∧
    ∃ row, x.replaced = some row ∧ row.status = .failed ∧ row.updatedAt = t.version
  spent : ∀ x ∈ w.resets, ∀ row, x.replaced = some row →
    (x.docId, row.updatedAt) ∈ w.stamps ∧
      ∀ row', w.rows x.docId = some row' → row'.updatedAt ≠ row.updatedAt
  once : (w.resets.map fun x => (x.requestId, x.docId)).Nodup

section Updates

variable {w : World T} {requestId docId : String}

theorem request_mem {r : Request T} (h : w.request requestId = some r) :
    r ∈ w.requests ∧ r.requestId = requestId := mem_of_lookup h

theorem request_update (p : Request T → Bool) (after : RequestState) (k : String) :
    World.request k { w with
      requests := updateWhere p (fun r => { r with state := after }) w.requests } =
      (w.request k).map fun r => if p r then { r with state := after } else r :=
  lookup_updateWhere (f := fun r : Request T => { r with state := after }) (fun _ => rfl) k

theorem cutoff_update (p : Request T → Bool) (after : RequestState) {k : String} {r : Request T}
    (h : w.request k = some r) :
    ∃ r', World.request k { w with
      requests := updateWhere p (fun r => { r with state := after }) w.requests } = some r' ∧
      r'.cutoff = r.cutoff := by
  rw [request_update,h]
  refine ⟨_,rfl,?_⟩
  dsimp only
  split <;> rfl

theorem addTargets_eq (w : World T) (requestId : String) (targets : List (String × String)) :
    ∃ added, w.addTargets requestId targets = { w with targets := w.targets ++ added } ∧
      ∀ t ∈ added, t.requestId = requestId ∧ (t.docId, t.version) ∈ targets := by
  induction targets generalizing w with
  | nil => exact ⟨[],by simp [World.addTargets],by simp⟩
  | cons target targets ih =>
    obtain ⟨added,hadded,hmem⟩ := ih (w.addTarget requestId target)
    have hstep : w.addTargets requestId (target :: targets) =
        (w.addTarget requestId target).addTargets requestId targets := rfl
    rw [hstep,hadded]
    rw [World.addTarget]
    cases hlookup : lookup Target.key w.targets (requestId, target.1) with
    | some old =>
      refine ⟨added,rfl,?_⟩
      intro t ht
      exact ⟨(hmem t ht).1,mem_cons_of_mem _ (hmem t ht).2⟩
    | none =>
      refine ⟨⟨requestId,target.1,target.2,false⟩ :: added,by simp,?_⟩
      intro t ht
      rcases mem_cons.mp ht with rfl | hlater
      · exact ⟨rfl,mem_cons_self⟩
      · exact ⟨(hmem t hlater).1,mem_cons_of_mem _ (hmem t hlater).2⟩

theorem targetKeys_addTargets (w : World T) (requestId : String)
    (targets : List (String × String)) (h : (w.targets.map Target.key).Nodup) :
    ((w.addTargets requestId targets).targets.map Target.key).Nodup := by
  induction targets generalizing w with
  | nil => exact h
  | cons target targets ih =>
    apply ih (w.addTarget requestId target)
    rw [World.addTarget]
    cases hlookup : lookup Target.key w.targets (requestId, target.1) with
    | some old => exact h
    | none => exact nodup_append_new h (lookup_eq_none.mp hlookup)

theorem undone_eq_nil (h : w.undone requestId = []) :
    ∀ t ∈ w.targets, t.requestId = requestId → t.done = true := by
  intro t ht hid
  by_contra hnot
  have hmem : t ∈ w.undone requestId := by
    simpa [World.undone,ht,hid] using hnot
  rw [h] at hmem
  cases hmem

variable [LinearOrder T] {instant : String → Option T}

theorem Timely.of_request {w' : World T} {version : String} (h : Timely instant w requestId version)
    (hrequest : ∀ r, w.request requestId = some r →
      ∃ r', w'.request requestId = some r' ∧ r'.cutoff = r.cutoff) :
    Timely instant w' requestId version := by
  obtain ⟨r,hr,updated,hinstant,hle⟩ := h
  obtain ⟨r',hr',hcutoff⟩ := hrequest r hr
  exact ⟨r',hr',updated,hinstant,hcutoff ▸ hle⟩

section

variable (h : w.Sound instant)

include h

theorem World.Sound.addTargets {r : Request T}
    {targets : List (String × String)} (hr : w.request requestId = some r)
    (hselecting : r.state = .selecting)
    (htargets : ∀ x ∈ targets, ∃ updated, instant x.2 = some updated ∧ updated ≤ r.cutoff) :
    (w.addTargets requestId targets).Sound instant := by
  have hkeys := targetKeys_addTargets w requestId targets h.targetKeys
  obtain ⟨added,hadded,hmem⟩ := addTargets_eq w requestId targets
  rw [hadded] at hkeys ⊢
  refine { h with targetKeys := hkeys, timely := ?_, completed := ?_, justified := ?_ }
  · intro t ht
    rcases mem_append.mp ht with hold | hnew
    · exact h.timely t hold
    · obtain ⟨hid,hin⟩ := hmem t hnew
      obtain ⟨updated,hinstant,hle⟩ := htargets _ hin
      rw [hid]
      exact ⟨r,hr,updated,hinstant,hle⟩
  · intro r' hr' hcompleted t ht hid
    rcases mem_append.mp ht with hold | hnew
    · exact h.completed r' hr' hcompleted t hold hid
    · obtain ⟨hmemr,hkey⟩ := request_mem hr
      have hsame : r' = r := by
        apply eq_of_key h.requestKeys hr' hmemr
        rw [← hid,(hmem t hnew).1,hkey]
      rw [hsame,hselecting] at hcompleted
      cases hcompleted
  · intro x hx
    obtain ⟨t,ht,hrest⟩ := h.justified x hx
    exact ⟨t,mem_append_left _ ht,hrest⟩

theorem World.Sound.advance {before after : RequestState}
    (hdone : after = .completed → ∀ t ∈ w.targets, t.requestId = requestId → t.done = true) :
    (w.advance requestId before after).Sound instant := by
  refine { h with requestKeys := ?_, timely := ?_, completed := ?_ }
  · have hkeys : (w.advance requestId before after).requests.map Request.requestId =
        w.requests.map Request.requestId := map_updateWhere fun _ => rfl
    rw [hkeys]
    exact h.requestKeys
  · intro t ht
    exact (h.timely t ht).of_request fun _ => cutoff_update _ _
  · intro r hr hcompleted t ht hid
    obtain ⟨r₀,hr₀,⟨hmatch,rfl⟩ | ⟨-,rfl⟩⟩ := mem_updateWhere.mp hr
    · simp only [Bool.and_eq_true,decide_eq_true_eq] at hmatch
      exact hdone hcompleted t ht (hid.trans hmatch.1)
    · exact h.completed r₀ hr₀ hcompleted t ht hid

theorem World.Sound.finishRequest :
    (w.finishRequest requestId).Sound instant := by
  rw [World.finishRequest]
  split
  · rename_i hnone
    exact h.advance fun _ => undone_eq_nil hnone
  · exact h

theorem World.Sound.mark (p : Target → Bool) :
    World.Sound instant
      { w with targets := updateWhere p (fun t => { t with done := true }) w.targets } := by
  have hkeys : (updateWhere p (fun t => { t with done := true }) w.targets).map Target.key =
      w.targets.map Target.key := map_updateWhere fun _ => rfl
  refine { h with targetKeys := ?_, timely := ?_, completed := ?_, justified := ?_ }
  · rw [hkeys]
    exact h.targetKeys
  · intro t ht
    obtain ⟨t₀,ht₀,⟨-,rfl⟩ | ⟨-,rfl⟩⟩ := mem_updateWhere.mp ht
    · exact h.timely t₀ ht₀
    · exact h.timely t₀ ht₀
  · intro r hr hcompleted t ht hid
    obtain ⟨t₀,ht₀,⟨-,rfl⟩ | ⟨-,rfl⟩⟩ := mem_updateWhere.mp ht
    · rfl
    · exact h.completed r hr hcompleted t₀ ht₀ hid
  · intro x hx
    obtain ⟨t,ht,hkey,hrow⟩ := h.justified x hx
    by_cases hp : p t = true
    · exact ⟨{ t with done := true },mem_updateWhere.mpr ⟨t,ht,.inl ⟨hp,rfl⟩⟩,hkey,hrow⟩
    · exact ⟨t,mem_updateWhere.mpr ⟨t,ht,.inr ⟨by simpa using hp,rfl⟩⟩,hkey,hrow⟩

theorem World.Sound.cancelRequests : w.cancelRequests.Sound instant := by
  have hmark := h.mark fun t => !t.done
  refine { hmark with requestKeys := ?_, timely := ?_, completed := ?_ }
  · have hkeys : w.cancelRequests.requests.map Request.requestId =
        w.requests.map Request.requestId := map_updateWhere fun _ => rfl
    rw [hkeys]
    exact h.requestKeys
  · intro t ht
    exact (hmark.timely t ht).of_request fun _ => cutoff_update _ _
  · intro r hr hcompleted t ht hid
    obtain ⟨t₀,ht₀,⟨-,rfl⟩ | ⟨hdone,rfl⟩⟩ := mem_updateWhere.mp ht
    · rfl
    · simpa using hdone

theorem World.Sound.write {row : Row}
    (hnew : (docId, row.updatedAt) ∉ w.stamps) : (w.write docId row).Sound instant := by
  refine { h with stamped := ?_, spent := ?_ }
  · intro k row' hrow'
    by_cases hk : k = docId
    · subst hk
      rw [World.write] at hrow'
      dsimp only at hrow'
      rw [update_self] at hrow'
      cases hrow'
      exact mem_cons_self
    · rw [World.write] at hrow'
      dsimp only at hrow'
      rw [update_of_ne hk] at hrow'
      exact mem_cons_of_mem _ (h.stamped k row' hrow')
  · intro x hx old hold
    obtain ⟨hstamp,hother⟩ := h.spent x hx old hold
    refine ⟨mem_cons_of_mem _ hstamp,?_⟩
    intro row' hrow'
    rw [World.write] at hrow'
    dsimp only at hrow'
    by_cases hk : x.docId = docId
    · rw [hk,update_self] at hrow'
      cases hrow'
      intro hsame
      apply hnew
      rw [hsame,← hk]
      exact hstamp
    · rw [update_of_ne hk] at hrow'
      exact hother row' hrow'

theorem World.Sound.upsertPending {updatedAt : String} {t : Target} {row : Row}
    (hnew : (docId, updatedAt) ∉ w.stamps) (ht : t ∈ w.targets) (hkey : t.key = (requestId, docId))
    (hrow : w.rows docId = some row) (hfailed : row.status = .failed)
    (hversion : row.updatedAt = t.version) :
    (w.upsertPending requestId docId updatedAt).Sound instant := by
  have hwrite : (w.write docId ⟨.pending,updatedAt,false⟩).Sound instant := h.write hnew
  refine { hwrite with justified := ?_, spent := ?_, once := ?_ }
  · intro x hx
    rcases mem_append.mp hx with hold | hone
    · exact h.justified x hold
    · rw [mem_singleton.mp hone]
      exact ⟨t,ht,hkey,row,hrow,hfailed,hversion⟩
  · intro x hx old hold
    rcases mem_append.mp hx with hbefore | hone
    · exact hwrite.spent x hbefore old hold
    · rw [mem_singleton.mp hone] at hold ⊢
      have hsame : row = old := by
        rw [hrow] at hold
        exact Option.some.inj hold
      subst hsame
      refine ⟨mem_cons_of_mem _ (h.stamped docId row hrow),?_⟩
      intro row' hrow'
      have hrow' : Function.update w.rows docId (some (⟨.pending,updatedAt,false⟩ : Row)) docId =
        some row' := hrow'
      rw [update_self] at hrow'
      cases hrow'
      intro hsame
      apply hnew
      have hsame : updatedAt = row.updatedAt := hsame
      rw [hsame]
      exact h.stamped docId row hrow
  · apply nodup_append_new h.once
    intro x hx hpair
    have hx' := h.justified x hx
    obtain ⟨t',ht',hkey',old,hold,-,hold'⟩ := hx'
    have hsame : t' = t := by
      apply eq_of_key h.targetKeys ht' ht
      rw [hkey',hkey,hpair]
    subst hsame
    have hdoc : x.docId = docId := (Prod.mk.inj hpair).2
    apply (h.spent x hx old hold).2 row
    · rw [hdoc]
      exact hrow
    · rw [hversion,hold']

end

end Updates
end LightRAG.Retries
