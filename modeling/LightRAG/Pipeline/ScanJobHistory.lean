import LightRAG.Pipeline.ScanJobRuns

/-!
# The history of the scan jobs

Since an update is accepted under the current version only, every counter is the sum of the deltas
that were accepted for it.
-/

namespace LightRAG.ScanJobs
open Table Utf8 List Option Function

variable {T : Type}

section Counters

variable {l : Limits T} {r r' : Record T}

def offered (deltas : List (Str × Delta)) : List (Str × Int) :=
  deltas.filterMap fun change =>
    match change with
    | (key, .int delta) => some (key, delta)
    | (_, .other) => none

/-- The integer deltas of an update that are not tallied in `counters_dropped`. -/
def Record.accepted (l : Limits T) : Record T → List (Str × Delta) → List (Str × Int)
  | _, [] => []
  | r, change :: deltas =>
    let r' := r.applyDelta l change
    (if r'.countersDropped = r.countersDropped then offered [change] else []) ++
      r'.accepted l deltas

theorem offered_cons (change : Str × Delta) (deltas : List (Str × Delta)) :
    offered (change :: deltas) = offered [change] ++ offered deltas := by
  rw [offered,offered,offered,← filterMap_append,singleton_append]

/-- The deltas a job was offered and accepted since it was created. -/
structure Ledger where
  offered : List (Str × Int)
  accepted : List (Str × Int)
deriving DecidableEq

def Ledger.empty : Ledger := ⟨[], []⟩

def Ledger.sum (key : Str) (entry : Ledger) : Int :=
  ((entry.accepted.filter fun p => p.1 = key).map Prod.snd).sum

def Record.count (key : Str) (r : Record T) : Int :=
  ((lookup Prod.fst r.counts key).map Prod.snd).getD 0

structure Tallied (r : Record T) (entry : Ledger) : Prop where
  counters : ∀ key, r.count key = entry.sum key
  dropped : r.countersDropped + entry.accepted.length = entry.offered.length

variable {entry : Ledger}

theorem Tallied.of_eq (h : Tallied r entry) (hcounts : r'.counts = r.counts)
    (hdropped : r'.countersDropped = r.countersDropped) : Tallied r' entry := by
  refine ⟨?_,?_⟩
  · intro key
    rw [Record.count,hcounts]
    exact h.counters key
  · rw [hdropped]
    exact h.dropped

theorem sum_snoc (offered accepted : List (Str × Int)) (key k : Str) (delta : Int) :
    Ledger.sum k ⟨offered, accepted ++ [(key, delta)]⟩ =
      Ledger.sum k ⟨offered, accepted⟩ + if key = k then delta else 0 := by
  simp only [Ledger.sum]
  by_cases hk : key = k <;> simp [hk]

theorem count_added {key : Str} {value : Int} (delta : Int)
    (hkey : lookup Prod.fst r.counts key = some (key, value)) (k : Str) :
    { r with counts := updateWhere (fun p => p.1 = key) (fun p => (p.1, p.2 + delta)) r.counts
      : Record T }.count k = r.count k + if key = k then delta else 0 := by
  simp only [Record.count]
  rw [lookup_updateWhere (f := fun p => (p.1, p.2 + delta)) fun _ => rfl]
  by_cases hk : key = k
  · subst hk
    rw [hkey]
    simp
  · cases hlookup : lookup Prod.fst r.counts k with
    | none => simp [hk]
    | some p =>
      have hp : ¬p.1 = key := fun h => hk (h.symm.trans (mem_of_lookup hlookup).2)
      simp [hk,hp]

theorem count_opened {key : Str} (delta : Int) (hnew : lookup Prod.fst r.counts key = none)
    (k : Str) : { r with counts := r.counts ++ [(key, delta)] : Record T }.count k =
      r.count k + if key = k then delta else 0 := by
  simp only [Record.count]
  rw [lookup_append_new hnew]
  by_cases hk : k = key
  · subst hk
    rw [hnew]
    simp
  · have hne : ¬key = k := fun h => hk h.symm
    simp [hk,hne]

theorem Tallied.applyDelta (h : Tallied r entry) (change : Str × Delta) :
    Tallied (r.applyDelta l change) ⟨entry.offered ++ offered [change], entry.accepted ++
      if (r.applyDelta l change).countersDropped = r.countersDropped then offered [change]
      else []⟩ := by
  have hcounted := counted_applyDelta (l := l) (r := r) change
  generalize r.applyDelta l change = r' at hcounted ⊢
  cases hcounted with
  | ignored key =>
    simp only [offered,filterMap_cons,filterMap_nil,append_nil,ite_self]
    exact h
  | tallied key delta =>
    have hgrown : ¬r.countersDropped + 1 = r.countersDropped := by omega
    simp only [hgrown,if_false,append_nil]
    refine ⟨h.counters,?_⟩
    have hdropped := h.dropped
    simp only [offered,filterMap_cons,filterMap_nil,length_append,length_singleton]
    omega
  | @added key value delta hkey _ =>
    simp only [if_true]
    refine ⟨?_,?_⟩
    · intro k
      rw [count_added delta hkey,h.counters k]
      exact (sum_snoc entry.offered entry.accepted key k delta).symm
    · have hdropped := h.dropped
      simp only [length_append]
      omega
  | @opened key delta hnew _ _ _ =>
    simp only [if_true]
    refine ⟨?_,?_⟩
    · intro k
      rw [count_opened delta hnew,h.counters k]
      exact (sum_snoc entry.offered entry.accepted key k delta).symm
    · have hdropped := h.dropped
      simp only [length_append]
      omega

theorem Tallied.foldl (h : Tallied r entry) (deltas : List (Str × Delta)) :
    Tallied (deltas.foldl (Record.applyDelta l) r)
      ⟨entry.offered ++ offered deltas, entry.accepted ++ r.accepted l deltas⟩ := by
  induction deltas generalizing r entry with
  | nil =>
    have hsame : (⟨entry.offered ++ offered [],entry.accepted ++ r.accepted l []⟩ : Ledger) =
        entry := by
      simp [offered,Record.accepted]
    rw [hsame]
    exact h
  | cons change deltas ih =>
    have hrest := ih (h.applyDelta (l := l) change)
    rw [offered_cons,Record.accepted]
    simpa only [foldl_cons,append_assoc] using hrest

theorem Tallied.apply [Add T] (h : Tallied r entry)
    (deltas : Option (List (Str × Delta))) (sample : Option (Str × Str)) (now : T) :
    Tallied (r.apply l deltas sample now) ⟨entry.offered ++ offered (deltas.getD []),
      entry.accepted ++ r.accepted l (deltas.getD [])⟩ := by
  obtain ⟨samples,happly⟩ := apply_eq l deltas sample now r
  rw [happly]
  exact (h.foldl (deltas.getD [])).of_eq rfl rfl

end Counters

section Runs

variable {s s' : Store T}

def Balanced (s : Store T) (ledger : Str → Ledger) : Prop :=
  ∀ trackId r, s.job trackId = some r → Tallied r (ledger trackId)

def Carried (s s' : Store T) : Prop :=
  ∀ trackId r', s'.job trackId = some r' →
    ∃ r, s.job trackId = some r ∧ r'.counts = r.counts ∧ r'.countersDropped = r.countersDropped

theorem Balanced.carried {ledger : Str → Ledger} (h : Balanced s ledger) (hcarried : Carried s s') :
    Balanced s' ledger := by
  intro trackId r' hjob'
  obtain ⟨r,hjob,hcounts,hdropped⟩ := hcarried trackId r' hjob'
  exact (h trackId r hjob).of_eq hcounts hdropped

theorem carried_put {r r' : Record T} {k : Str} (hjob : s.job k = some r) (hkey : r'.trackId = k)
    (hcounts : r'.counts = r.counts) (hdropped : r'.countersDropped = r.countersDropped) :
    Carried s (s.put r') := by
  intro trackId row hrow
  rw [job_put hjob hkey] at hrow
  by_cases hk : trackId = k
  · rw [if_pos hk] at hrow
    have hrow := some.inj hrow
    subst hrow hk
    exact ⟨r,hjob,hcounts,hdropped⟩
  · rw [if_neg hk] at hrow
    exact ⟨row,hrow,rfl,rfl⟩

theorem carried_delete (hs : s.Sound) (gone : Str) :
    Carried s { s with jobs := deleteWhere (fun r => r.trackId = gone) s.jobs } := by
  intro trackId r' hjob'
  rw [job_delete hs] at hjob'
  by_cases hk : trackId = gone
  · rw [if_pos hk] at hjob'
    cases hjob'
  · rw [if_neg hk] at hjob'
    exact ⟨r',hjob',rfl,rfl⟩

variable [LinearOrder T]

variable [Sub T]

theorem carried_reap (hs : s.Sound) (now : T) : Carried s (s.reap now) := by
  intro trackId r' hjob'
  rw [job_reap hs] at hjob'
  cases hjob : s.job trackId with
  | none =>
    rw [hjob] at hjob'
    cases hjob'
  | some r =>
    rw [hjob,filter_eq_some_iff] at hjob'
    have hsame := some.inj hjob'.1
    subst hsame
    exact ⟨r,rfl,counts_maybeAbandon s.limits now r⟩

variable [Add T]

def record (s : Store T) (ledger : Str → Ledger) : Call T → Str → Ledger
  | .create trackId ownerToken now =>
    if (s.create trackId ownerToken now).1.outcome = .accepted then
      Function.update ledger trackId .empty
    else ledger
  | .update trackId ownerToken countDeltas sample expectedVersion now =>
    if (s.update trackId ownerToken countDeltas sample expectedVersion now).1.ok then
      match s.job trackId with
      | none => ledger
      | some r => Function.update ledger trackId
        ⟨(ledger trackId).offered ++ offered (countDeltas.getD []),
          (ledger trackId).accepted ++ r.accepted s.limits (countDeltas.getD [])⟩
    else ledger
  | _ => ledger

def ledgers : List (Call T) → Store T → (Str → Ledger) → Str → Ledger
  | [], _, ledger => ledger
  | c :: calls, s, ledger => ledgers calls (s.call c).2 (record s ledger c)

theorem balanced_call {ledger : Str → Ledger} (hs : s.Sound) (h : Balanced s ledger) (c : Call T) :
    Balanced (s.call c).2 (record s ledger c) := by
  have heffect := effect hs c
  have hrecord : ¬s.Accepts c → record s ledger c = ledger := by
    intro hidle
    cases c with
    | create k ownerToken now => exact if_neg hidle
    | update k ownerToken countDeltas sample expectedVersion now => exact if_neg hidle
    | _ => rfl
  generalize (s.call c).2 = s' at heffect ⊢
  cases heffect with
  | same hidle =>
    rw [hrecord hidle]
    exact h
  | @reaped _ now hidle _ =>
    rw [hrecord hidle]
    exact h.carried (carried_reap hs now)
  | @changed _ k r₀ r' hidle hjob₀ hchange hcounts hdropped =>
    have hkey : r'.trackId = k := by
      have hr₀ := (job_mem hjob₀).2
      rcases hchange with rfl | hchange
      · exact hr₀
      · exact hchange.trackId.trans hr₀
    rw [hrecord hidle]
    exact h.carried (carried_put hjob₀ hkey hcounts hdropped)
  | @applied k ownerToken countDeltas sample expectedVersion now r₀ hok hjob₀ hrunning =>
    have hkey : (r₀.apply s.limits countDeltas sample now).trackId = k :=
      (change_apply hrunning countDeltas sample now).trackId.trans (job_mem hjob₀).2
    rw [Store.Accepts] at hok
    rw [record,if_pos hok,hjob₀]
    intro trackId r hjob
    rw [job_put hjob₀ hkey] at hjob
    by_cases hk : trackId = k
    · rw [if_pos hk] at hjob
      have hjob := some.inj hjob
      subst hjob hk
      dsimp only
      rw [update_self]
      exact (h trackId r₀ hjob₀).apply countDeltas sample now
    · rw [if_neg hk] at hjob
      dsimp only
      rw [update_of_ne hk]
      exact h trackId r hjob
  | @created k ownerToken now _ hok _ _ _ hnew hothers =>
    rw [Store.Accepts] at hok
    rw [record,if_pos hok]
    intro trackId r hjob
    by_cases hk : trackId = k
    · subst hk
      rw [hnew] at hjob
      have hjob := some.inj hjob
      subst hjob
      rw [update_self]
      exact ⟨fun _ => rfl,rfl⟩
    · rw [update_of_ne hk]
      rcases hothers trackId hk with hsame | ⟨hgone,-⟩
      · rw [hsame] at hjob
        exact h.carried (carried_reap hs now) trackId r hjob
      · rw [hgone] at hjob
        cases hjob
  | @removed k _ _ _ => exact h.carried (carried_delete hs k)

theorem balanced_run {ledger : Str → Ledger} (calls : List (Call T)) (hs : s.Sound)
    (h : Balanced s ledger) :
    (s.run calls).Sound ∧ (s.run calls).limits = s.limits ∧
      Balanced (s.run calls) (ledgers calls s ledger) := by
  induction calls generalizing s ledger with
  | nil => exact ⟨hs,rfl,h⟩
  | cons c calls ih =>
    have hcall := hs.call c
    have hrest := ih hcall.1 (balanced_call hs h c)
    exact ⟨hrest.1,hrest.2.1.trans hcall.2,hrest.2.2⟩

end Runs

section Laws

variable [LinearOrder T] {s : Store T}

theorem guarded_current {k ownerToken : Str} {expectedVersion : Int} {now : T}
    {change : Record T → Record T} {result : UpdateResult T}
    (hresult : (s.guarded k ownerToken expectedVersion now change).1 = result)
    (hok : result.ok = true) :
    ∃ r, s.job k = some r ∧ r.version = expectedVersion ∧ r.ownerToken = ownerToken ∧
      r.status = .running := by
  rcases guarded_cases s k ownerToken expectedVersion now change with
    ⟨-,hrun⟩ | ⟨r₀,conflict,record,-,hrun⟩ | ⟨r₀,hjob₀,howner,hrunning,-,hversion,-⟩
  · rw [hrun] at hresult
    subst hresult
    cases hok
  · rw [hrun] at hresult
    subst hresult
    cases hok
  · exact ⟨r₀,hjob₀,hversion,howner,hrunning⟩

theorem guarded_refused {k ownerToken : Str} {expectedVersion : Int} {now : T}
    {change : Record T → Record T} {result : UpdateResult T} (hs : s.Sound)
    (hresult : (s.guarded k ownerToken expectedVersion now change).1 = result)
    (hok : result.ok = false) :
    (s.guarded k ownerToken expectedVersion now change).2 = s ∨ ∃ r, s.job k = some r ∧
      r.status = .running ∧ r.leaseExpiresAt ≤ now ∧
      (s.guarded k ownerToken expectedVersion now change).2 =
        s.put (r.maybeAbandon s.limits now) := by
  rcases guarded_cases s k ownerToken expectedVersion now change with
    ⟨-,hrun⟩ | ⟨r₀,conflict,record,hjob₀,hrun⟩ | ⟨r₀,-,-,-,-,-,hrun⟩
  · exact .inl (by rw [hrun])
  · rcases maybeAbandon_cases s.limits now r₀ with ⟨-,hsame⟩ | ⟨hlease,-,hchange⟩
    · rw [hsame,put_self hs hjob₀] at hrun
      exact .inl (by rw [hrun])
    · exact .inr ⟨r₀,hjob₀,hchange.running,hlease,by rw [hrun]⟩
  · rw [hrun] at hresult
    subst hresult
    cases hok

variable [Sub T] [Add T]

def Call.expects : Call T → Option (Str × Str × Int)
  | .update trackId ownerToken _ _ expectedVersion _ => some (trackId, ownerToken, expectedVersion)
  | .setStatus trackId ownerToken _ expectedVersion _ _ =>
    some (trackId, ownerToken, expectedVersion)
  | _ => none

structure Lawful (s : Store T) (c : Call T) : Prop where
  changed : ∀ trackId r r', s.job trackId = some r → (s.call c).2.job trackId = some r' →
    ¬Creates s c trackId → r' = r ∨ r.version < r'.version
  terminal : ∀ trackId r, s.job trackId = some r → r.status.isTerminal = true →
    (s.call c).2.job trackId = some r ∨ (s.call c).2.job trackId = none ∨ Creates s c trackId
  live : ∀ trackId r, s.job trackId = some r → r.status = .running →
    (∀ now, c.now = some now → now < r.leaseExpiresAt) →
    (∃ r', (s.call c).2.job trackId = some r') ∧ ¬Creates s c trackId
  current : ∀ trackId ownerToken expectedVersion, c.expects =
    some (trackId, ownerToken, expectedVersion) → ∀ result, (s.call c).1 = .updated result →
    result.ok = true → ∃ r, s.job trackId = some r ∧ r.version = expectedVersion ∧
      r.ownerToken = ownerToken ∧ r.status = .running
  refused : ∀ trackId ownerToken expectedVersion, c.expects =
    some (trackId, ownerToken, expectedVersion) → ∀ result, (s.call c).1 = .updated result →
    result.ok = false → (s.call c).2 = s ∨ ∃ r now, c.now = some now ∧ s.job trackId = some r ∧
      r.status = .running ∧ r.leaseExpiresAt ≤ now ∧
      (s.call c).2 = s.put (r.maybeAbandon s.limits now)
  uncreated : ∀ trackId ownerToken now, c = .create trackId ownerToken now →
    (s.create trackId ownerToken now).1.outcome ≠ .accepted →
    (s.call c).2 = s ∨ (s.call c).2 = s.reap now
  uncancelled : ∀ trackId ownerToken message now, c = .cancel trackId ownerToken message now →
    (s.cancel trackId ownerToken message now).1.ok = false ∨
      (s.cancel trackId ownerToken message now).1.conflict ≠ none → (s.call c).2 = s

theorem lawful (hs : s.Sound) (c : Call T) : Lawful s c where
  changed trackId r r' hjob hjob' hcreates := by
    cases fate hs c hjob with
    | kept hafter _ =>
      rw [hafter] at hjob'
      exact .inl (some.inj hjob').symm
    | changed hafter _ hversion _ =>
      rw [hafter] at hjob'
      exact .inr (some.inj hjob' ▸ hversion)
    | gone hgone _ =>
      rcases hgone with hnone | hnew
      · rw [hnone] at hjob'
        cases hjob'
      · exact absurd hnew hcreates
  terminal trackId r hjob hterminal := by
    cases fate hs c hjob with
    | kept hafter _ => exact .inl hafter
    | changed _ hrunning _ _ =>
      rw [hrunning] at hterminal
      cases hterminal
    | gone hgone _ => exact .inr hgone
  live trackId r hjob hrunning hlease := by
    cases fate hs c hjob with
    | kept hafter hcreates => exact ⟨⟨r,hafter⟩,hcreates⟩
    | changed hafter _ _ hcreates => exact ⟨⟨_,hafter⟩,hcreates⟩
    | gone _ hcause =>
      rcases hcause with hterminal | ⟨now,hnow,hexpired⟩
      · rw [hrunning] at hterminal
        cases hterminal
      · exact absurd hexpired (not_le_of_gt (hlease now hnow))
  current trackId ownerToken expectedVersion hexpects result hresult hok := by
    cases c with
    | update k token countDeltas sample version now =>
      cases hexpects
      exact guarded_current (Result.updated.inj hresult) hok
    | setStatus k token status version message now =>
      cases hexpects
      have hresult : (s.setStatus trackId ownerToken status expectedVersion message now).1 =
          result := Result.updated.inj hresult
      rw [Store.setStatus] at hresult
      by_cases hstatus : (!status.isTerminal) = true
      · rw [if_pos hstatus] at hresult
        subst hresult
        cases hok
      · rw [if_neg hstatus] at hresult
        exact guarded_current hresult hok
    | _ => cases hexpects
  refused trackId ownerToken expectedVersion hexpects result hresult hok := by
    cases c with
    | update k token countDeltas sample version now =>
      cases hexpects
      rcases guarded_refused hs (Result.updated.inj hresult) hok with
        hsame | ⟨r,hjob,hrunning,hlease,hafter⟩
      · exact .inl hsame
      · exact .inr ⟨r,now,rfl,hjob,hrunning,hlease,hafter⟩
    | setStatus k token status version message now =>
      cases hexpects
      have hresult : (s.setStatus trackId ownerToken status expectedVersion message now).1 =
          result := Result.updated.inj hresult
      have hcall : (s.call (.setStatus trackId ownerToken status expectedVersion message now)).2 =
          (s.setStatus trackId ownerToken status expectedVersion message now).2 := rfl
      rw [hcall]
      rw [Store.setStatus] at hresult ⊢
      by_cases hstatus : (!status.isTerminal) = true
      · rw [if_pos hstatus]
        exact .inl rfl
      · rw [if_neg hstatus] at hresult ⊢
        rcases guarded_refused hs hresult hok with hsame | ⟨r,hjob,hrunning,hlease,hafter⟩
        · exact .inl hsame
        · exact .inr ⟨r,now,rfl,hjob,hrunning,hlease,hafter⟩
    | _ => cases hexpects
  uncreated trackId ownerToken now hc hrefused := by
    subst hc
    rcases create_cases hs trackId ownerToken now with ⟨result,-,hrun⟩ | ⟨result,-,hrun⟩ |
      ⟨s',-,hrun,-⟩
    · exact .inl (congrArg Prod.snd hrun)
    · exact .inr (congrArg Prod.snd hrun)
    · rw [hrun] at hrefused
      exact absurd rfl hrefused
  uncancelled trackId ownerToken message now hc hrefused := by
    subst hc
    rcases cancel_cases s trackId ownerToken message now with
      ⟨ok,conflict,record,-,hrun⟩ | ⟨r₀,r',-,-,-,-,hrun⟩
    · exact congrArg Prod.snd hrun
    · rw [hrun] at hrefused
      rcases hrefused with hrefused | hconflict
      · cases hrefused
      · exact absurd rfl hconflict

/-- Under every configuration, after every sequence of calls with any clock, the store is within
its limits, every counter is the sum of its accepted deltas, and the next call keeps the laws. -/
theorem scan_job_store (capacity sampleLimit sampleMaxBytes recordMaxBytes maxCounterKeys
    counterKeyMaxBytes counterValueMax identifierMaxBytes : Int) (leaseSeconds ttlSeconds : T)
    (workspace : Str) (calls : List (Call T)) :
    let limits := Limits.new capacity sampleLimit sampleMaxBytes recordMaxBytes maxCounterKeys
      counterKeyMaxBytes counterValueMax identifierMaxBytes leaseSeconds ttlSeconds
    let s := (Store.new workspace limits).run calls
    let ledger := ledgers calls (Store.new workspace limits) fun _ => .empty
    s.jobs.length ≤ limits.capacity ∧ (s.jobs.map Record.trackId).Nodup ∧
      (∀ r ∈ s.jobs, r.Bounded limits ∧ (r.counts.map Prod.fst).Nodup) ∧
      (∀ trackId r, s.job trackId = some r → Tallied r (ledger trackId)) ∧
      ∀ c, Lawful s c := by
  intro limits s ledger
  have hnew : (Store.new workspace limits).Sound := by
    refine ⟨nodup_nil,?_,Nat.zero_le _⟩
    intro r hr
    cases hr
  have hempty : Balanced (Store.new workspace limits) fun _ => Ledger.empty := by
    intro trackId r hjob
    cases hjob
  have hrun := balanced_run calls hnew hempty
  have hlimits : s.limits = limits := hrun.2.1
  have hs : s.Sound := hrun.1
  refine ⟨hlimits ▸ hs.capacity,hs.keys,?_,hrun.2.2,fun c => lawful hs c⟩
  intro r hr
  have hsound := hs.jobs r hr
  rw [hlimits] at hsound
  exact ⟨hsound.toBounded,hsound.keys⟩

end Laws
end LightRAG.ScanJobs
