import LightRAG.Distributed.Retries.Requests

/-!
# Runs of the retries

Any number of instances call in any order, die anywhere and recover each other's operations, and
the document processing goes on between the exclusive operations.
-/

namespace LightRAG.Retries
open Table Proc List Option Function Bool

variable {T : Type} {w w' : World T} {i j : Instance}

/-- What the steps of the others keep for `i`: who died stays dead, and while `i` lives and holds
the exclusive operation it keeps it, with every row, target and request. -/
structure Keeps (i : Instance) (w w' : World T) : Prop where
  dead : w.dead i = true → w'.dead i = true
  held : w.holder = some i → w'.dead i = false → w'.holder = some i ∧ w'.rows = w.rows ∧
    w'.targets = w.targets ∧ ∀ k r, w.request k = some r → w'.request k = some r

theorem keeps_refl (i : Instance) (w : World T) : Keeps i w w :=
  ⟨id,fun hholder _ => ⟨hholder,rfl,rfl,fun _ _ => id⟩⟩

theorem Keeps.alive (h : Keeps i w w') (halive : w'.dead i = false) : w.dead i = false := by
  by_contra hdead
  rw [not_eq_false] at hdead
  rw [h.dead hdead] at halive
  cases halive

theorem Keeps.trans {w'' : World T} (h : Keeps i w w') (h' : Keeps i w' w'') : Keeps i w w'' := by
  refine ⟨fun hdead => h'.dead (h.dead hdead),?_⟩
  intro hholder halive
  have halive' := h'.alive halive
  obtain ⟨hholder',hrows,htargets,hrequests⟩ := h.held hholder halive'
  obtain ⟨hholder'',hrows',htargets',hrequests'⟩ := h'.held hholder' halive
  exact ⟨hholder'',hrows'.trans hrows,htargets'.trans htargets,
    fun k r hr => hrequests' k r (hrequests k r hr)⟩

theorem Keeps.of_frame (hdead : w'.dead = w.dead) (hholder : w'.holder = w.holder)
    (hrows : w'.rows = w.rows) (htargets : w'.targets = w.targets)
    (hrequests : ∀ k r, w.request k = some r → w'.request k = some r) : Keeps i w w' := by
  refine ⟨?_,?_⟩
  · rw [hdead]
    exact id
  · intro hheld _
    rw [hholder]
    exact ⟨hheld,hrows,htargets,hrequests⟩

theorem Keeps.of_other (hdead : w'.dead = w.dead) (hother : w.holder ≠ some i) : Keeps i w w' := by
  refine ⟨?_,fun hheld => absurd hheld hother⟩
  rw [hdead]
  exact id

/-- A live `i` holds the exclusive operation. -/
def Held (i : Instance) (w : World T) : Prop := w.dead i = false → w.holder = some i

def Stored (i : Instance) (r : Request T) (w : World T) : Prop :=
  w.dead i = false → w.request r.requestId = some r

def Recorded (i : Instance) (requestId : String) (target : Target) (w : World T) : Prop :=
  w.dead i = false → ∃ t ∈ w.targets, t.key = (requestId, target.docId) ∧ t.version = target.version

theorem Held.keeps (h : Held i w) (hkeeps : Keeps i w w') : Held i w' := by
  intro halive
  exact (hkeeps.held (h (hkeeps.alive halive)) halive).1

variable {r : Request T}

theorem Stored.keeps (h : Stored i r w) (hheld : Held i w)
    (hkeeps : Keeps i w w') : Stored i r w' := by
  intro halive
  have halive' := hkeeps.alive halive
  exact (hkeeps.held (hheld halive') halive).2.2.2 _ _ (h halive')

variable {requestId : String}

theorem Recorded.keeps {target : Target} (h : Recorded i requestId target w)
    (hheld : Held i w) (hkeeps : Keeps i w w') : Recorded i requestId target w' := by
  intro halive
  have halive' := hkeeps.alive halive
  rw [(hkeeps.held (hheld halive') halive).2.2.1]
  exact h halive'

theorem Recorded.mark {target : Target} (h : Recorded i requestId target w)
    (p : Target → Bool) : Recorded i requestId target
      { w with targets := updateWhere p (fun t => { t with done := true }) w.targets } := by
  intro halive
  obtain ⟨t,ht,hkey,hversion⟩ := h halive
  by_cases hp : p t = true
  · exact ⟨{ t with done := true },mem_updateWhere.mpr ⟨t,ht,.inl ⟨hp,rfl⟩⟩,hkey,hversion⟩
  · exact ⟨t,mem_updateWhere.mpr ⟨t,ht,.inr ⟨by simpa using hp,rfl⟩⟩,hkey,hversion⟩

theorem recorded_targetPage {t : Target} {limit : Nat}
    (ht : t ∈ w.targetPage requestId limit) : Recorded i requestId t w := by
  intro _
  have hpage : t ∈ w.undone requestId := by
    exact (mem_insertionSort _).mp (mem_of_mem_take ht)
  rw [World.undone,mem_filter,and_eq_true,decide_eq_true_eq] at hpage
  exact ⟨t,hpage.1,by rw [Target.key,hpage.2.1],rfl⟩

theorem dead_addTargets (requestId : String) (targets : List (String × String)) :
    (w.addTargets requestId targets).dead = w.dead := by
  obtain ⟨added,hadded,-⟩ := addTargets_eq w requestId targets
  rw [hadded]

/-- A request never goes back, and its cutoff stays. -/
structure Advanced (r r' : Request T) : Prop where
  rank : r.state.rank ≤ r'.state.rank
  cutoff : r'.cutoff = r.cutoff

theorem advanced_refl (r : Request T) : Advanced r r := ⟨Nat.le_refl _,rfl⟩

theorem advanced_update {p : Request T → Bool} {after : RequestState} {k : String}
    (hr : w.request k = some r) (hrank : p r = true → r.state.rank ≤ after.rank) :
    ∃ r', World.request k { w with
      requests := updateWhere p (fun r => { r with state := after }) w.requests } = some r' ∧
      Advanced r r' := by
  rw [request_update,hr]
  by_cases hp : p r = true
  · exact ⟨{ r with state := after },by simp [hp],hrank hp,rfl⟩
  · exact ⟨r,by simp [hp],advanced_refl r⟩

abbrev Instances (T : Type) := Pool Instance (World T) (Action T) Answer Unit

abbrev Event (T : Type) := Pool.Event Instance (Action T) Answer

structure StepLaws (e : Event T) (w w' : World T) : Prop where
  advanced : ∀ k r, w.request k = some r → ∃ r', w'.request k = some r' ∧ Advanced r r'
  recorded : ∀ t ∈ w.targets, ∃ t' ∈ w'.targets, t'.key = t.key ∧ t'.version = t.version
  completed : ∀ k r r', w.request k = some r → w'.request k = some r' → r.state ≠ .completed →
    r'.state = .completed →
    (∀ t ∈ w.targets, t.requestId = k → t.done = true) ∨ ∃ i, e = .act i .cancelRequests ()
  replayed : ∀ i k targetCutoffAt a r, e = .act i (.requestRetry k targetCutoffAt) a →
    w.request k = some r → a = r ∧ w' = w

theorem stepLaws_frame {e : Event T} (hrequests : w'.requests = w.requests)
    (htargets : w'.targets = w.targets) (he : ∀ i q a, e ≠ .act i q a) : StepLaws e w w' where
  advanced k r hr := by
    refine ⟨r,?_,advanced_refl r⟩
    rw [World.request,hrequests]
    exact hr
  recorded t ht := by
    rw [htargets]
    exact ⟨t,ht,rfl,rfl⟩
  completed k r r' hr hr' hbefore hafter := by
    rw [World.request,hrequests] at hr'
    have hsame := hr.symm.trans hr'
    cases hsame
    exact absurd hafter hbefore
  replayed i k targetCutoffAt a r h := absurd h (he i _ a)

theorem requestRetry_of_some (h : w.request requestId = some r)
    (createdAt cutoff : T) : w.requestRetry requestId createdAt cutoff = (r, w) := by
  rw [World.requestRetry,h]

theorem requestRetry_of_none (h : w.request requestId = none)
    (createdAt cutoff : T) :
    (w.requestRetry requestId createdAt cutoff).2 =
      { w.resume with requests := w.requests ++ [⟨requestId, .selecting, createdAt, some cutoff⟩] } := by
  rw [World.requestRetry,h]

theorem request_append (h : w.request r.requestId = none) (k : String) :
    World.request k { w with requests := w.requests ++ [r] } =
      if k = r.requestId then some r else w.request k :=
  lookup_append_new h k

theorem request_requestRetry {k : String} (hr : w.request k = some r)
    (requestId : String) (createdAt cutoff : T) :
    (w.requestRetry requestId createdAt cutoff).2.request k = some r := by
  cases hknown : w.request requestId with
  | some known =>
    rw [requestRetry_of_some hknown]
    exact hr
  | none =>
    rw [requestRetry_of_none hknown]
    have hlookup := request_append (r := ⟨requestId,.selecting,createdAt,some cutoff⟩) hknown k
    have hne : k ≠ requestId := by
      intro hsame
      rw [hsame,hknown] at hr
      cases hr
    rw [if_neg hne] at hlookup
    exact hlookup.trans hr

theorem keeps_requestRetry (requestId : String) (createdAt cutoff : T) :
    Keeps j w (w.requestRetry requestId createdAt cutoff).2 := by
  have hrequests := fun k (r : Request T) (hr : w.request k = some r) =>
    request_requestRetry hr requestId createdAt cutoff
  cases hknown : w.request requestId with
  | some r =>
    rw [requestRetry_of_some hknown]
    exact keeps_refl j w
  | none =>
    rw [requestRetry_of_none hknown] at hrequests ⊢
    exact .of_frame rfl rfl rfl rfl hrequests

def Due (w : World T) (requestId docId : String) : Prop :=
  ∃ t ∈ w.targets, t.key = (requestId, docId) ∧
    ∃ row, w.rows docId = some row ∧ row.status = .failed ∧ row.updatedAt = t.version

variable [LinearOrder T] {instant : String → Option T}

def Needs (instant : String → Option T) (i : Instance) (q : Action T) (w : World T) : Prop :=
  match q with
  | .addTargets requestId targets => w.holder = some i ∧ ∃ r, w.request requestId = some r ∧
      r.state = .selecting ∧
      ∀ x ∈ targets, ∃ updated, instant x.2 = some updated ∧ updated ≤ r.cutoff
  | .upsertPending requestId docId => w.holder = some i ∧ Due w requestId docId
  | .finishSelection _ | .finishTarget _ _ | .finishRequest _ | .cancelRequests | .finish =>
    w.holder = some i
  | _ => True

theorem World.Sound.requestRetry (h : w.Sound instant) (requestId : String) (createdAt cutoff : T) :
    (w.requestRetry requestId createdAt cutoff).2.Sound instant := by
  cases hknown : w.request requestId with
  | some r =>
    rw [requestRetry_of_some hknown]
    exact h
  | none =>
    rw [requestRetry_of_none hknown]
    refine { h with requestKeys := ?_, timely := ?_, completed := ?_ }
    · exact nodup_append_new h.requestKeys (lookup_eq_none.mp hknown)
    · intro t ht
      apply (h.timely t ht).of_request
      intro r hr
      have hafter := request_requestRetry hr requestId createdAt cutoff
      rw [requestRetry_of_none hknown] at hafter
      exact ⟨r,hafter,rfl⟩
    · intro r hr hcompleted
      rcases mem_append.mp hr with hold | hone
      · exact h.completed r hold hcompleted
      · rw [mem_singleton.mp hone] at hcompleted
        cases hcompleted

variable {q : Action T}

theorem sound_perform {a : Answer q} (h : w.Sound instant)
    (hneeds : Needs instant i q w) (hperform : Perform i q w a w') : w'.Sound instant := by
  cases hperform with
  | addTargets requestId targets =>
    obtain ⟨-,r,hr,hselecting,htargets⟩ := hneeds
    exact h.addTargets hr hselecting htargets
  | finishSelection requestId => exact h.advance (nofun)
  | upsertPending requestId docId updatedAt hnew =>
    obtain ⟨-,t,ht,hkey,row,hrow,hfailed,hversion⟩ := hneeds
    exact h.upsertPending hnew ht hkey hrow hfailed hversion
  | finishTarget requestId docId => exact h.mark _
  | finishRequest requestId => exact h.finishRequest
  | cancelRequests => exact h.cancelRequests
  | requestRetry requestId targetCutoffAt createdAt default => exact h.requestRetry _ _ _
  | recover =>
    rw [World.recover]
    split
    · exact h
    · split
      · exact { h with }
      · exact h
  | admitted => exact { h with }
  | finish => exact { h with }
  | pause => exact { h with }
  | resume => exact { h with }
  | _ => exact h

theorem keeps_perform {a : Answer q} (hneeds : Needs instant i q w)
    (hperform : Perform i q w a w') (hj : j ≠ i) : Keeps j w w' := by
  have hother : w.holder = some i → w.holder ≠ some j := by
    intro hi hj'
    rw [hi] at hj'
    exact hj (some.inj hj').symm
  cases hperform with
  | admitted hfree =>
    refine .of_other rfl ?_
    rw [hfree]
    exact nofun
  | addTargets requestId targets => exact .of_other (dead_addTargets _ _) (hother hneeds.1)
  | finishSelection requestId => exact .of_other rfl (hother hneeds)
  | upsertPending requestId docId updatedAt hnew => exact .of_other rfl (hother hneeds.1)
  | finishTarget requestId docId => exact .of_other rfl (hother hneeds)
  | finishRequest requestId =>
    refine .of_other ?_ (hother hneeds)
    rw [World.finishRequest]
    split <;> rfl
  | cancelRequests => exact .of_other rfl (hother hneeds)
  | finish => exact .of_other rfl (hother hneeds)
  | requestRetry requestId targetCutoffAt createdAt default => exact keeps_requestRetry _ _ _
  | recover =>
    rw [World.recover]
    split
    · exact keeps_refl j w
    · rename_i k hk
      split
      · rename_i hdead
        refine ⟨id,?_⟩
        intro hheld halive
        rw [hk] at hheld
        have hheld := some.inj hheld
        subst hheld
        rw [hdead] at halive
        cases halive
      · exact keeps_refl j w
  | pause => exact .of_frame rfl rfl rfl rfl fun _ _ => id
  | resume => exact .of_frame rfl rfl rfl rfl fun _ _ => id
  | _ => exact keeps_refl j w

variable (instant) in
def retryContract : Contract Instance (World T) (Action T) Answer where
  perform i q w a w' := w.dead i = false ∧ Perform i q w a w'
  inv := World.Sound instant
  keeps := Keeps
  needs i q w := w.dead i = false → Needs instant i q w
  refl := keeps_refl
  trans := Keeps.trans
  step := by
    intro i q w a w' hinv hneeds hperform
    have hneeds := hneeds hperform.1
    exact ⟨sound_perform hinv hneeds hperform.2, fun j hj => keeps_perform hneeds hperform.2 hj⟩

theorem outside_kept (h : Outside w w') (hinv : w.Sound instant) :
    w'.Sound instant ∧ ∀ j, Keeps j w w' := by
  cases h with
  | write docId row content hfree hnew =>
    refine ⟨{ hinv.write hnew with },fun j => .of_other rfl ?_⟩
    rw [hfree]
    exact nofun
  | delete docId hfree =>
    refine ⟨{ hinv with stamped := ?_, spent := ?_ },fun j => .of_other rfl ?_⟩
    · intro k row hrow
      by_cases hk : k = docId
      · subst hk
        dsimp only at hrow
        rw [update_self] at hrow
        cases hrow
      · dsimp only at hrow
        rw [update_of_ne hk] at hrow
        exact hinv.stamped k row hrow
    · intro x hx old hold
      obtain ⟨hstamp,hother⟩ := hinv.spent x hx old hold
      refine ⟨hstamp,?_⟩
      intro row' hrow'
      by_cases hk : x.docId = docId
      · dsimp only at hrow'
        rw [hk,update_self] at hrow'
        cases hrow'
      · dsimp only at hrow'
        rw [update_of_ne hk] at hrow'
        exact hother row' hrow'
    · rw [hfree]
      exact nofun
  | dies k =>
    refine ⟨{ hinv with },?_⟩
    intro j
    refine ⟨?_,?_⟩
    · intro hdead
      dsimp only
      by_cases hj : j = k
      · rw [hj,update_self]
      · rw [update_of_ne hj]
        exact hdead
    · intro hholder _
      exact ⟨hholder,rfl,rfl,fun _ _ => id⟩

section Safety

variable {β : Type}

theorem selectTargets_timely {cutoff : T} {rows : List (String × Row)}
    {targets : List (String × String)} (h : selectTargets instant cutoff rows = some targets) :
    ∀ x ∈ targets, ∃ updated, instant x.2 = some updated ∧ updated ≤ cutoff := by
  induction rows generalizing targets with
  | nil =>
    cases h
    exact fun x hx => by cases hx
  | cons row rows ih =>
    obtain ⟨docId,row⟩ := row
    simp only [selectTargets] at h
    split at h
    · exact ih h
    · cases hinstant : instant row.updatedAt with
      | none =>
        rw [hinstant] at h
        cases h
      | some updated =>
        rw [hinstant] at h
        obtain ⟨rest,hrest,hsame⟩ := map_eq_some_iff.mp h
        subst hsame
        by_cases hle : updated ≤ cutoff
        · rw [if_pos hle]
          intro x hx
          rcases mem_cons.mp hx with rfl | hlater
          · exact ⟨updated,hinstant,hle⟩
          · exact ih hrest x hlater
        · rw [if_neg hle]
          exact ih hrest

theorem safe_selectPages (r : Request T) (fuel : Nat) (position : Position)
    (hselecting : r.state = .selecting) (hheld : Held i w) (hstored : Stored i r w) :
    (retryContract instant).Safe i (selectPages instant r fuel position) (fun _ t => Held i t) w := by
  induction fuel generalizing position w with
  | zero => cases position <;> exact hheld
  | succ fuel ih =>
    cases position with
    | finish => exact hheld
    | start | next =>
      intro w₁ hkeeps₁ _
      refine ⟨fun _ => trivial,?_⟩
      rintro page _ ⟨-,hpage⟩
      obtain ⟨docIds,next⟩ := page
      cases hpage
      intro w₂ hkeeps₂ _
      refine ⟨fun _ => trivial,?_⟩
      rintro rows _ ⟨-,hhydrate⟩
      have hheld₂ := (hheld.keeps hkeeps₁).keeps hkeeps₂
      have hstored₂ := (hstored.keeps hheld hkeeps₁).keeps (hheld.keeps hkeeps₁) hkeeps₂
      cases hhydrate
      simp only [Proc.bind]
      cases htargets : selectTargets instant r.cutoff (w₂.hydrate docIds) with
      | none => exact hheld₂
      | some targets =>
        intro w₃ hkeeps₃ _
        have hheld₃ := hheld₂.keeps hkeeps₃
        have hstored₃ := hstored₂.keeps hheld₂ hkeeps₃
        refine ⟨?_,?_⟩
        · intro halive
          exact ⟨hheld₃ halive,r,hstored₃ halive,hselecting,selectTargets_timely htargets⟩
        · rintro _ _ ⟨-,hadd⟩
          cases hadd
          obtain ⟨added,hadded,-⟩ := addTargets_eq w₃ r.requestId targets
          rw [hadded]
          exact ih next hheld₃ hstored₃

theorem safe_finishTarget {requestId : String} {target : Target} {targets : List Target}
    (hheld : Held i w) (hrecorded : ∀ t ∈ targets, Recorded i requestId t w) :
    (retryContract instant).Safe i (ask (Action.finishTarget requestId target.docId))
      (fun _ t => Held i t ∧ ∀ x ∈ targets, Recorded i requestId x t) w := by
  intro w₁ hkeeps _
  have hheld₁ : Held i w₁ := hheld.keeps hkeeps
  refine ⟨hheld₁,?_⟩
  rintro _ _ ⟨-,hfinish⟩
  cases hfinish
  refine ⟨hheld₁,?_⟩
  intro x hx
  exact ((hrecorded x hx).keeps hheld hkeeps).mark _

theorem safe_resetTarget {requestId : String} {target : Target} {targets : List Target}
    (hheld : Held i w) (hrecorded : ∀ t ∈ target :: targets, Recorded i requestId t w) :
    (retryContract instant).Safe i (resetTarget requestId target)
      (fun _ t => Held i t ∧ ∀ x ∈ targets, Recorded i requestId x t) w := by
  have hothers : ∀ {v : World T}, (∀ t ∈ target :: targets, Recorded i requestId t v) →
      ∀ t ∈ targets, Recorded i requestId t v := fun h t ht => h t (mem_cons_of_mem _ ht)
  intro w₁ hkeeps₁ _
  refine ⟨fun _ => trivial,?_⟩
  rintro row _ ⟨-,hrow⟩
  have hheld₁ := hheld.keeps hkeeps₁
  have hrecorded₁ := fun t ht => (hrecorded t ht).keeps hheld hkeeps₁
  cases hrow
  simp only [Proc.bind]
  cases hrow : w₁.rows target.docId with
  | none => exact safe_finishTarget hheld₁ (hothers hrecorded₁)
  | some row =>
    by_cases hdue : row.status = .failed ∧ row.updatedAt = target.version ∧ row.journaled = false
    · dsimp only
      rw [if_pos hdue]
      intro w₂ hkeeps₂ _
      refine ⟨fun _ => trivial,?_⟩
      rintro content _ ⟨-,hcontent⟩
      have hheld₂ := hheld₁.keeps hkeeps₂
      have hrecorded₂ := fun t ht => (hrecorded₁ t ht).keeps hheld₁ hkeeps₂
      cases hcontent
      by_cases hcontent : w₂.content target.docId = true
      · simp only [Proc.bind,if_pos hcontent]
        intro w₃ hkeeps₃ _
        have hheld₃ := hheld₂.keeps hkeeps₃
        have hrecorded₃ := fun t ht => (hrecorded₂ t ht).keeps hheld₂ hkeeps₃
        refine ⟨?_,?_⟩
        · intro halive
          have halive₂ := hkeeps₃.alive halive
          have halive₁ := hkeeps₂.alive halive₂
          obtain ⟨t,ht,hkey,hversion⟩ := hrecorded₃ target mem_cons_self halive
          refine ⟨hheld₃ halive,t,ht,hkey,row,?_,hdue.1,?_⟩
          · rw [(hkeeps₃.held (hheld₂ halive₂) halive).2.1,
              (hkeeps₂.held (hheld₁ halive₁) halive₂).2.1]
            exact hrow
          · rw [hversion]
            exact hdue.2.1
        · rintro _ _ ⟨-,hupsert⟩
          cases hupsert
          exact safe_finishTarget hheld₃ (hothers hrecorded₃)
      · simp only [Proc.bind,if_neg hcontent]
        exact safe_finishTarget hheld₂ (hothers hrecorded₂)
    · dsimp only
      rw [if_neg hdue]
      exact safe_finishTarget hheld₁ (hothers hrecorded₁)

theorem safe_resetEach {requestId : String} (targets : List Target) (hheld : Held i w)
    (hrecorded : ∀ t ∈ targets, Recorded i requestId t w) :
    (retryContract instant).Safe i (resetEach requestId targets) (fun _ t => Held i t) w := by
  induction targets generalizing w with
  | nil => exact hheld
  | cons target targets ih =>
    rw [resetEach,Contract.safe_bind]
    refine (safe_resetTarget hheld hrecorded).mono ?_
    rintro _ w₁ ⟨hheld₁,hrecorded₁⟩
    exact ih hheld₁ hrecorded₁

theorem safe_resetTargets {requestId : String} (fuel : Nat) (hheld : Held i w) :
    (retryContract instant).Safe i (resetTargets requestId fuel) (fun _ t => Held i t) w := by
  induction fuel generalizing w with
  | zero => exact hheld
  | succ fuel ih =>
    intro w₁ hkeeps₁ _
    refine ⟨fun _ => trivial,?_⟩
    rintro targets _ ⟨-,htargets⟩
    have hheld₁ := hheld.keeps hkeeps₁
    cases htargets
    simp only [Proc.bind]
    cases hpage : w₁.targetPage requestId 64 with
    | nil => exact hheld₁
    | cons target targets =>
      rw [Contract.safe_bind]
      refine (safe_resetEach (target :: targets) hheld₁ ?_).mono fun _ _ h => ih h
      intro t ht
      rw [← hpage] at ht
      exact recorded_targetPage ht

theorem safe_holding {q : Action T} (hheld : Held i w) (p : Answer q → Call T β)
    (post : β → World T → Prop) (hneeds : ∀ v : World T, v.holder = some i → Needs instant i q v)
    (hnext : ∀ v v' a, Held i v → Perform i q v a v' → (retryContract instant).Safe i (p a) post v') :
    (retryContract instant).Safe i (.act q p) post w := by
  intro w₁ hkeeps₁ _
  have hheld₁ := hheld.keeps hkeeps₁
  refine ⟨fun halive => hneeds w₁ (hheld₁ halive),?_⟩
  rintro a w₂ ⟨-,hperform⟩
  exact hnext w₁ w₂ a hheld₁ hperform

theorem safe_select (r : Request T) (fuel : Nat) (hheld : Held i w) (hstored : Stored i r w) :
    (retryContract instant).Safe i (select instant r fuel) (fun _ t => Held i t) w := by
  rw [select]
  by_cases hselecting : r.state = .selecting
  · rw [if_pos hselecting,Contract.safe_bind]
    refine (safe_selectPages r fuel .start hselecting hheld hstored).mono ?_
    intro selected w₁ hheld₁
    by_cases hselected : selected = true
    · rw [if_pos hselected]
      refine safe_holding hheld₁ _ _ (fun _ => id) ?_
      intro v v' a hheldv hfinish
      cases hfinish
      exact hheldv
    · rw [if_neg hselected]
      exact hheld₁
  · rw [if_neg hselecting]
    exact hheld

theorem stored_nextRequest {r : Request T} (hinv : w.Sound instant)
    (h : w.nextRequest = some r) : Stored i r w := by
  intro _
  have hmem : r ∈ w.requests := by
    exact (mem_filter.mp ((mem_insertionSort _).mp (mem_of_mem_head? h))).1
  exact (lookup_eq_some hinv.requestKeys).mpr ⟨hmem,rfl⟩

theorem safe_serve (fuel : Nat) (hheld : Held i w) :
    (retryContract instant).Safe i (serve instant fuel) (fun _ t => Held i t) w := by
  induction fuel generalizing w with
  | zero => exact hheld
  | succ fuel ih =>
    intro w₁ hkeeps₁ hinv₁
    refine ⟨fun _ => trivial,?_⟩
    rintro next _ ⟨-,hnext⟩
    have hheld₁ := hheld.keeps hkeeps₁
    cases hnext
    simp only [Proc.bind]
    cases hrequest : w₁.nextRequest with
    | none => exact hheld₁
    | some r =>
      rw [Contract.safe_bind]
      refine (safe_select r fuel hheld₁ (stored_nextRequest hinv₁ hrequest)).mono ?_
      intro selected w₂ hheld₂
      by_cases hselected : selected = true
      · rw [if_pos hselected,Contract.safe_bind]
        refine (safe_resetTargets fuel hheld₂).mono ?_
        intro reset w₃ hheld₃
        by_cases hreset : reset = true
        · rw [if_pos hreset]
          refine safe_holding hheld₃ _ _ (fun _ => id) ?_
          intro v v' a hheldv hfinish
          cases hfinish
          apply ih
          intro halive
          rw [World.finishRequest] at halive ⊢
          split at halive
          · rename_i hnone
            rw [if_pos hnone]
            exact hheldv halive
          · rename_i hsome
            rw [if_neg hsome]
            exact hheldv halive
        · rw [if_neg hreset]
          exact hheld₃
      · rw [if_neg hselected]
        exact hheld₂

theorem safe_admission {p : Bool → Call T Unit}
    (hadmitted : ∀ v : World T, Held i v →
      (retryContract instant).Safe i (p true) (fun _ _ => True) v)
    (hrefused : p false = pure ()) :
    (retryContract instant).Safe i (.act Action.admission p) (fun _ _ => True) w := by
  intro w₁ _ _
  refine ⟨fun _ => trivial,?_⟩
  rintro admitted w₂ ⟨-,hadmission⟩
  cases hadmission with
  | admitted => exact hadmitted _ fun _ => rfl
  | refused =>
    show (retryContract instant).Safe i (p false) (fun _ _ => True) w₁
    rw [hrefused]
    exact trivial

theorem safe_finish (hheld : Held i w) (p : Unit → Call T Unit) (hdone : ∀ a, p a = pure ()) :
    (retryContract instant).Safe i (.act Action.finish p) (fun _ _ => True) w := by
  refine safe_holding (q := Action.finish) hheld p _ (fun _ hholder => hholder) ?_
  intro v v' a _ _
  rw [hdone]
  exact trivial

theorem enters_safe {p : Call T Unit} (h : Enters instant i w p) :
    (retryContract instant).Safe i p (fun _ _ => True) w := by
  cases h with
  | resetRequests fuel =>
    intro w₁ _ _
    refine ⟨fun _ => trivial,?_⟩
    rintro permitted w₂ ⟨-,_⟩
    cases permitted with
    | false => exact trivial
    | true =>
      intro w₃ _ _
      refine ⟨fun _ => trivial,?_⟩
      rintro pending w₄ ⟨-,_⟩
      by_cases hpending : pending ≠ 0
      · simp only [Proc.bind,if_pos hpending]
        apply safe_admission
        · intro v hheld
          show (retryContract instant).Safe i (serve instant fuel >>= fun _ => _) _ v
          rw [Contract.safe_bind]
          exact (safe_serve fuel hheld).mono fun _ _ hheld' => safe_finish hheld' _ fun _ => rfl
        · rfl
      · simp only [Proc.bind,if_neg hpending]
        exact trivial
  | requestRetry requestId targetCutoffAt =>
    rw [requestRetry]
    split
    · exact trivial
    · intro w₁ _ _
      exact ⟨fun _ => trivial,fun _ _ _ => trivial⟩
  | pause =>
    intro w₁ _ _
    exact ⟨fun _ => trivial,fun _ _ _ => trivial⟩
  | resume =>
    intro w₁ _ _
    exact ⟨fun _ => trivial,fun _ _ _ => trivial⟩
  | cancelRequests =>
    apply safe_admission
    · intro v hheld
      refine safe_holding hheld _ _ (fun _ => id) ?_
      intro v₁ v₂ a hheld₁ hcancel
      cases hcancel
      have hheld₂ : Held i v₁.cancelRequests := hheld₁
      exact safe_finish hheld₂ _ fun _ => rfl
    · rfl
  | recover =>
    intro w₁ _ _
    exact ⟨fun _ => trivial,fun _ _ _ => trivial⟩
  | finish hholder => exact safe_finish (fun _ => hholder) _ fun _ => rfl

end Safety

variable (instant) in
abbrev Step : Instances T → Event T → Instances T → Prop :=
  Pool.Step (retryContract instant) (Enters instant) Outside

/-- No request, no operation and no call; the rows are what they are. -/
structure Instances.Initial (P : Instances T) : Prop where
  requests : P.shared.requests = []
  targets : P.shared.targets = []
  resets : P.shared.resets = []
  stamped : ∀ docId row, P.shared.rows docId = some row → (docId, row.updatedAt) ∈ P.shared.stamps
  running : ∀ i, P.running i = none

theorem Instances.Initial.sound {P : Instances T} (h : P.Initial) :
    Pool.Sound (retryContract instant) P where
  inv := by
    refine ⟨?_,?_,?_,?_,h.stamped,?_,?_,?_⟩
    · rw [h.requests]
      exact nodup_nil
    · rw [h.targets]
      exact nodup_nil
    · intro t ht
      rw [h.targets] at ht
      cases ht
    · intro r hr
      rw [h.requests] at hr
      cases hr
    · intro x hx
      rw [h.resets] at hx
      cases hx
    · intro x hx
      rw [h.resets] at hx
      cases hx
    · rw [h.resets]
      exact nodup_nil
  safe i p hp := by
    rw [h.running] at hp
    cases hp

theorem advanced_perform {a : Answer q} {k : String}
    (hperform : Perform i q w a w') (hr : w.request k = some r) :
    ∃ r', w'.request k = some r' ∧ Advanced r r' := by
  cases hperform with
  | addTargets requestId targets =>
    obtain ⟨added,hadded,-⟩ := addTargets_eq w requestId targets
    rw [hadded]
    exact ⟨r,hr,advanced_refl r⟩
  | finishSelection requestId =>
    apply advanced_update hr
    intro hmatch
    simp only [and_eq_true,decide_eq_true_eq] at hmatch
    rw [hmatch.2]
    decide
  | finishRequest requestId =>
    rw [World.finishRequest]
    split
    · apply advanced_update hr
      intro hmatch
      simp only [and_eq_true,decide_eq_true_eq] at hmatch
      rw [hmatch.2]
      decide
    · exact ⟨r,hr,advanced_refl r⟩
  | cancelRequests =>
    refine advanced_update (w := { w with targets := _ }) hr ?_
    cases r.state <;> decide
  | requestRetry requestId targetCutoffAt createdAt default =>
    exact ⟨r,request_requestRetry hr _ _ _,advanced_refl r⟩
  | recover =>
    refine ⟨r,?_,advanced_refl r⟩
    rw [World.recover]
    split
    · exact hr
    · split <;> exact hr
  | _ => exact ⟨r,hr,advanced_refl r⟩

theorem recorded_perform {a : Answer q} {t : Target} (hperform : Perform i q w a w')
    (ht : t ∈ w.targets) : ∃ t' ∈ w'.targets, t'.key = t.key ∧ t'.version = t.version := by
  have hmark : ∀ p : Target → Bool, ∃ t' ∈ updateWhere p (fun t => { t with done := true }) w.targets,
      t'.key = t.key ∧ t'.version = t.version := by
    intro p
    by_cases hp : p t = true
    · exact ⟨{ t with done := true },mem_updateWhere.mpr ⟨t,ht,.inl ⟨hp,rfl⟩⟩,rfl,rfl⟩
    · exact ⟨t,mem_updateWhere.mpr ⟨t,ht,.inr ⟨by simpa using hp,rfl⟩⟩,rfl,rfl⟩
  cases hperform with
  | addTargets requestId targets =>
    obtain ⟨added,hadded,-⟩ := addTargets_eq w requestId targets
    rw [hadded]
    exact ⟨t,mem_append_left _ ht,rfl,rfl⟩
  | finishTarget requestId docId => exact hmark _
  | cancelRequests => exact hmark _
  | finishRequest requestId =>
    rw [World.finishRequest]
    split <;> exact ⟨t,ht,rfl,rfl⟩
  | requestRetry requestId targetCutoffAt createdAt default =>
    rw [World.requestRetry]
    split <;> exact ⟨t,ht,rfl,rfl⟩
  | recover =>
    rw [World.recover]
    split
    · exact ⟨t,ht,rfl,rfl⟩
    · split <;> exact ⟨t,ht,rfl,rfl⟩
  | _ => exact ⟨t,ht,rfl,rfl⟩

theorem completed_perform {a : Answer q} {k : String} {r r' : Request T}
    (hperform : Perform i q w a w') (hr : w.request k = some r) (hr' : w'.request k = some r')
    (hbefore : r.state ≠ .completed) (hafter : r'.state = .completed) :
    (∀ t ∈ w.targets, t.requestId = k → t.done = true) ∨ q = .cancelRequests := by
  have hsame : w'.request k = w.request k → False := by
    intro hsame
    rw [hsame,hr] at hr'
    cases hr'
    exact hbefore hafter
  cases hperform with
  | addTargets requestId targets =>
    exfalso
    apply hsame
    obtain ⟨added,hadded,-⟩ := addTargets_eq w requestId targets
    rw [hadded]
    rfl
  | finishSelection requestId =>
    exfalso
    have hupdate := request_update (w := w)
      (fun r => r.requestId = requestId && r.state = .selecting) .resetting k
    have hr' : _ = some r' := hupdate.symm.trans hr'
    rw [hr,map_some] at hr'
    split at hr'
    · cases hr'
      cases hafter
    · cases hr'
      exact hbefore hafter
  | finishRequest requestId =>
    rw [World.finishRequest] at hr'
    split at hr'
    · rename_i hnone
      by_cases hk : k = requestId
      · rw [hk]
        exact .inl (undone_eq_nil hnone)
      · exfalso
        have hupdate := request_update (w := w)
          (fun r => r.requestId = requestId && r.state = .resetting) .completed k
        have hr' : _ = some r' := hupdate.symm.trans hr'
        have hkey := (request_mem hr).2
        have hne : ¬r.requestId = requestId := by
          rw [hkey]
          exact hk
        rw [hr,map_some] at hr'
        simp only [hne] at hr'
        cases hr'
        exact hbefore hafter
    · rw [hr] at hr'
      cases hr'
      exact absurd hafter hbefore
  | cancelRequests => exact .inr rfl
  | requestRetry requestId targetCutoffAt createdAt default =>
    exact (hsame ((request_requestRetry hr _ _ _).trans hr.symm)).elim
  | recover =>
    exfalso
    apply hsame
    rw [World.recover]
    split
    · rfl
    · split <;> rfl
  | _ => exact (hsame rfl).elim

theorem stepLaws {P P' : Instances T} {e : Event T} (hstep : Step instant P e P') :
    StepLaws e P.shared P'.shared := by
  cases hstep with
  | enter => exact stepLaws_frame rfl rfl nofun
  | leave => exact stepLaws_frame rfl rfl nofun
  | outside houtside =>
    cases houtside with
    | write => exact stepLaws_frame rfl rfl nofun
    | delete => exact stepLaws_frame rfl rfl nofun
    | dies => exact stepLaws_frame rfl rfl nofun
  | act hrunning hperform =>
    refine ⟨?_,?_,?_,?_⟩
    · exact fun k r => advanced_perform hperform.2
    · exact fun t => recorded_perform hperform.2
    · intro k r r' hr hr' hbefore hafter
      rcases completed_perform hperform.2 hr hr' hbefore hafter with hdone | rfl
      · exact .inl hdone
      · exact .inr ⟨_,rfl⟩
    · intro i k targetCutoffAt a r he hr
      cases he
      obtain ⟨-,hretry⟩ := hperform
      cases hretry
      rw [requestRetry_of_some hr]
      exact ⟨rfl,rfl⟩

/-- In every run, whatever instances die and whoever recovers and replays their work: a row is
moved to `PENDING` for a request only while it is `FAILED` under the version that the request
recorded for it, that version is not later than the cutoff, and this happens at most once; a
completed request has no target left; requests only go forward; and a replayed request id changes
nothing. -/
theorem manual_retries {P₀ P : Instances T} {events : List (Event T)} (hinit : P₀.Initial)
    (hrun : Run (Step instant) P₀ events P) :
    (∀ x ∈ P.shared.resets, ∃ t ∈ P.shared.targets, t.key = (x.requestId, x.docId) ∧
      (∃ row, x.replaced = some row ∧ row.status = .failed ∧ row.updatedAt = t.version) ∧
      Timely instant P.shared x.requestId t.version) ∧
    (P.shared.resets.map fun x => (x.requestId, x.docId)).Nodup ∧
    (∀ r ∈ P.shared.requests, r.state = .completed →
      ∀ t ∈ P.shared.targets, t.requestId = r.requestId → t.done = true) ∧
    ∀ e P', Step instant P e P' → StepLaws e P.shared P'.shared := by
  have hsound : Pool.Sound (retryContract instant) P :=
    hinit.sound.run (fun _ _ _ henters _ => enters_safe henters) (fun _ _ => outside_kept) hrun
  refine ⟨?_,hsound.inv.once,hsound.inv.completed,fun _ _ => stepLaws⟩
  intro x hx
  obtain ⟨t,ht,hkey,hrow⟩ := hsound.inv.justified x hx
  refine ⟨t,ht,hkey,hrow,?_⟩
  have htimely := hsound.inv.timely t ht
  have hid : t.requestId = x.requestId := congrArg Prod.fst hkey
  rw [hid] at htimely
  exact htimely

def oneFailed : Instances Nat where
  shared :=
    { rows := fun docId => if docId = "d" then some ⟨.failed, "t1", false⟩ else none
      content := fun _ => true
      stamps := [("d", "t1")]
      requests := []
      targets := []
      control := none
      holder := none
      dead := fun _ => false
      resets := [] }
  running _ := none

def oneReset : List (Event Nat) :=
  [.enter 0, .act 0 (.requestRetry "r" (some 5)) ⟨"r", .selecting, 4, some 5⟩, .enter 1,
    .act 1 .canClaimBatch true, .act 1 .pendingRetries 1, .act 1 .admission true,
    .act 1 .nextRequest (some ⟨"r", .selecting, 4, some 5⟩), .act 1 (.page .start) (["d"], .finish),
    .act 1 (.hydrate ["d"]) [("d", ⟨.failed, "t1", false⟩)], .act 1 (.addTargets "r" [("d", "t1")]) (),
    .act 1 (.finishSelection "r") (), .act 1 (.targets "r") [⟨"r", "d", "t1", false⟩],
    .act 1 (.row "d") (some ⟨.failed, "t1", false⟩), .act 1 (.content "d") true,
    .act 1 (.upsertPending "r" "d") ()]

theorem manual_retries_oneReset :
    ∃ P : Instances Nat, Run (Step fun _ => some 3) oneFailed oneReset P ∧
      P.shared.resets = [⟨"r", "d", some ⟨.failed, "t1", false⟩⟩] ∧
      (P.shared.resets.map fun x => (x.requestId, x.docId)).Nodup := by
  have hinit : oneFailed.Initial := by
    refine ⟨rfl,rfl,rfl,?_,fun _ => rfl⟩
    intro docId row hrow
    by_cases hd : docId = "d"
    · simp only [hd] at hrow
      cases hrow
      subst hd
      exact mem_cons_self
    · simp [oneFailed,hd] at hrow
  have hrun : ∃ P : Instances Nat, Run (Step fun _ => some 3) oneFailed oneReset P ∧
      P.shared.resets = [⟨"r","d",some ⟨.failed,"t1",false⟩⟩] := by
    refine ⟨_,.cons (.enter rfl (.requestRetry "r" (some 5))) <|
      .cons (.act rfl ⟨rfl,.requestRetry "r" (some 5) 4 5⟩) <|
      .cons (.enter rfl (.resetRequests 2)) <|
      .cons (.act rfl ⟨rfl,.canClaimBatch true⟩) <|
      .cons (.act rfl ⟨rfl,.pendingRetries⟩) <|
      .cons (.act rfl ⟨rfl,.admitted rfl⟩) <|
      .cons (.act rfl ⟨rfl,.nextRequest⟩) <|
      .cons (.act rfl ⟨rfl,.page .start ["d"] .finish⟩) <|
      .cons (.act rfl ⟨rfl,.hydrate ["d"]⟩) <|
      .cons (.act rfl ⟨rfl,.addTargets "r" [("d", "t1")]⟩) <|
      .cons (.act rfl ⟨rfl,.finishSelection "r"⟩) <|
      .cons (.act rfl ⟨rfl,.targets "r"⟩) <|
      .cons (.act rfl ⟨rfl,.row "d"⟩) <|
      .cons (.act rfl ⟨rfl,.content "d"⟩) <|
      .cons (.act rfl ⟨rfl,.upsertPending "r" "d" "t2" (by decide)⟩) <| .nil _,?_⟩
    rfl
  obtain ⟨P,hrun,hresets⟩ := hrun
  exact ⟨P,hrun,hresets,(manual_retries hinit hrun).2.1⟩

end LightRAG.Retries
